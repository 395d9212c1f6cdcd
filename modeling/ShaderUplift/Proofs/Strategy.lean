import ShaderUplift.Proofs.Acceptance

/-! The strategy of a pair and what follows from it. The strategy is chosen by the plain sum of the
sizes of both stages, and it alone fixes the planner and the descriptors that the vertex stage begins
with, so nothing else of the fragment stage reaches the vertex stage. Offsets are planned later: the
fragment stage begins at a multiple of the alignment, so push constants may end beyond their limit,
by no more than what the end of the vertex stage is rounded up. -/

namespace ShaderUplift

open Text

namespace Planner

/-- A planner that has placed nothing, and the descriptors that it leaves. -/
def fresh (strategy : Strategy) (descriptors : Descriptors) : Planner × Descriptors :=
  match strategy with
  | .pushConstant => (⟨.pushConstant, none, 0, [], ""⟩, descriptors)
  | .uniformBuffer =>
    (⟨.uniformBuffer, some descriptors.allocate.1, 0, [], ""⟩, descriptors.allocate.2)

theorem totalBytes_eq_sum {vertex fragment : Symbols} {total : Nat}
    (h : totalBytes vertex fragment = .ok total) :
    total = blockBytes vertex.uniforms.entries + blockBytes fragment.uniforms.entries := by
  obtain ⟨v, hv, h⟩ := bind_eq_ok.mp h
  obtain ⟨f, hf, h⟩ := bind_eq_ok.mp h
  split at h
  · next n hsum =>
    cases h
    rw [(checkedAdd_eq_some.mp hsum).1, (usedBytes_eq_ok hv).1, (usedBytes_eq_ok hf).1]
  · cases h

/-- The plain sum of both stages decides on the strategy. -/
theorem strategy_of_new {vertex fragment : Symbols} {limit : Nat}
    {descriptors descriptors' : Descriptors} {p : Planner}
    (h : new vertex fragment limit descriptors = .ok (p, descriptors')) :
    p.strategy = Strategy.choose
      (blockBytes vertex.uniforms.entries + blockBytes fragment.uniforms.entries) limit := by
  obtain ⟨total, htotal, h⟩ := map_eq_ok.mp h
  rw [← totalBytes_eq_sum htotal]
  dsimp only at h
  split at h <;> cases h <;> rfl

/-- Nothing but the strategy of a new planner depends on the stages. -/
theorem new_eq_fresh {vertex fragment : Symbols} {limit : Nat}
    {descriptors descriptors' : Descriptors} {p : Planner}
    (h : new vertex fragment limit descriptors = .ok (p, descriptors')) :
    (p, descriptors') = fresh p.strategy descriptors := by
  obtain ⟨total, -, h⟩ := map_eq_ok.mp h
  dsimp only at h
  by_cases hlimit : total ≤ limit
  · have hchoose : Strategy.choose total limit = .pushConstant := if_pos hlimit
    rw [hchoose, if_neg (by simp)] at h
    cases h
    rfl
  · have hchoose : Strategy.choose total limit = .uniformBuffer := if_neg hlimit
    rw [hchoose, if_pos ⟨rfl, by omega⟩] at h
    cases h
    rfl

theorem total_le_of_pushConstant {total limit : Nat}
    (h : Strategy.choose total limit = .pushConstant) : total ≤ limit := by
  by_contra hlimit
  rw [Strategy.choose, if_neg hlimit] at h
  cases h

end Planner

/-- The vertex stage of a pair, from its source and the strategy alone. -/
theorem PairRun.vertex_stage {vertexSource fragmentSource : String} {options : Options}
    {pair : ConvertedPair} (run : PairRun vertexSource fragmentSource options pair) :
    ((Planner.fresh pair.strategy ⟨0, 0⟩).1.planStage run.vertex.symbols).2 =
        .ok pair.vertex.layout ∧
      (vertexInterface run.vertex.symbols .empty (Planner.fresh pair.strategy ⟨0, 0⟩).2).1 =
        pair.vertex.interface ∧
      pair.vertex = convertedShader options.version pair.strategy run.vertex pair.vertex.interface
        pair.vertex.layout := by
  obtain ⟨hstart, hmiddle, -⟩ := run.strategies
  have hfresh := Planner.new_eq_fresh run.new_eq
  rw [hstart] at hfresh
  rw [← hfresh]
  exact ⟨by rw [run.plan_vertex], run.interface_vertex, by rw [← hmiddle]; exact run.vertex_eq⟩

/-- Two fragment stages that lead to one strategy get the same vertex stage: the same text, interface
and layout. -/
theorem convertPair_vertex_of_strategy {vertexSource fragmentSource fragmentSource' : String}
    {options : Options} {pair pair' : ConvertedPair}
    (h : (convertPair vertexSource fragmentSource options).1 = .ok pair)
    (h' : (convertPair vertexSource fragmentSource' options).1 = .ok pair')
    (hstrategy : pair.strategy = pair'.strategy) :
    pair.vertex.text = pair'.vertex.text ∧ pair.vertex.interface = pair'.vertex.interface ∧
      pair.vertex.layout = pair'.vertex.layout := by
  obtain ⟨run⟩ := pairRun_of_convertPair h
  obtain ⟨run'⟩ := pairRun_of_convertPair h'
  have hunit : run.vertex = run'.vertex :=
    Except.ok.inj (run.parse_vertex.symm.trans run'.parse_vertex)
  obtain ⟨hlayout, hinterface, htext⟩ := run.vertex_stage
  obtain ⟨hlayout', hinterface', htext'⟩ := run'.vertex_stage
  rw [hstrategy, hunit] at hlayout hinterface htext
  have hsame : pair.vertex.layout = pair'.vertex.layout :=
    Except.ok.inj (hlayout.symm.trans hlayout')
  have hface : pair.vertex.interface = pair'.vertex.interface := hinterface.symm.trans hinterface'
  refine ⟨?_, hface, hsame⟩
  rw [htext, htext', hface, hsame]

/-- A vertex stage of 4 bytes, a fragment stage of 120 bytes, and one with a sampler only. -/
def smallVertex : String := "uniform float t;\nvoid main()\x7bgl_Position=t;\x7d"

def largeFragment : String := "uniform vec3 d[10];\nvoid main()\x7bgl_FragColor=d;\x7d"

def samplingFragment : String := "uniform sampler2D s;\nvoid main()\x7bgl_FragColor=s;\x7d"

theorem exists_small_pair :
    ∃ pair, (convertPair smallVertex largeFragment {}).1 = .ok pair ∧
      pair.strategy = .pushConstant ∧
      ∃ f ∈ pair.fragment.layout.fields, f.offset = 16 ∧ f.size? = some 120 := by
  have hok : ((convertPair smallVertex largeFragment {}).1.toOption.any fun pair =>
      pair.strategy = .pushConstant ∧
        ∃ f ∈ pair.fragment.layout.fields, f.offset = 16 ∧ f.size? = some 120) = true := by
    decide +kernel
  obtain ⟨pair, hpair, hfield⟩ := exists_ok_of_any hok
  exact ⟨pair, hpair, of_decide_eq_true hfield⟩

theorem small_vertex_of_strategy :
    ∃ pair pair', (convertPair smallVertex largeFragment {}).1 = .ok pair ∧
      (convertPair smallVertex samplingFragment {}).1 = .ok pair' ∧
      pair.strategy = pair'.strategy ∧
      pair.vertex.text = pair'.vertex.text ∧ pair.vertex.interface = pair'.vertex.interface ∧
        pair.vertex.layout = pair'.vertex.layout := by
  have hok : ((convertPair smallVertex samplingFragment {}).1.toOption.any fun pair =>
      pair.strategy = .pushConstant) = true := by
    decide +kernel
  obtain ⟨pair, hpair, hs, -⟩ := exists_small_pair
  obtain ⟨pair', hpair', hs'⟩ := exists_ok_of_any hok
  have hstrategy := hs.trans (of_decide_eq_true hs').symm
  exact ⟨pair, pair', hpair, hpair', hstrategy,
    convertPair_vertex_of_strategy hpair hpair' hstrategy⟩

namespace Planner

namespace Places

variable {p q : Planner} {us : List TypedUniform} {r : Placement}

/-- When something is new, the end of the last new field is the end of the block. -/
theorem exists_stop_eq (h : Places p us q r) :
    (r.added = [] → q.offset = p.offset) ∧ (r.added ≠ [] → ∃ f ∈ r.added, f.stop = q.offset) := by
  induction h with
  | nil p => exact ⟨fun _ => rfl, fun hne => absurd rfl hne⟩
  | reuse _ _ _ ih => exact ih
  | @fresh p q u us r _ _ _ ih =>
      refine ⟨fun hnil => (by cases hnil), fun _ => ?_⟩
      by_cases hrest : r.added = []
      · exact ⟨p.fieldFor u, List.mem_cons_self, (ih.1 hrest).symm⟩
      · obtain ⟨f, hf, hstop⟩ := ih.2 hrest
        exact ⟨f, List.mem_cons_of_mem _ hf, hstop⟩

end Places

namespace StagePlan

variable {p q : Planner} {symbols : Symbols} {layout : StageLayout}

/-- The end of a stage before it is rounded up. -/
theorem placed_offset (s : StagePlan p symbols q layout) :
    s.placed.offset = p.offset + blockBytes (p.newOnes (byRank s.uniforms)) := by
  obtain ⟨hall, hnames⟩ := byRank_spec s.typed_eq
  exact (s.places.added_eq_newOnes (fun u hu => (hall u hu).2) hnames).2

theorem stop_le_placed (s : StagePlan p symbols q layout) (hp : p.Packed) {f : Field}
    (hf : f ∈ layout.fields) : f.stop ≤ s.placed.offset :=
  (hp.places s.places).inside f (s.places.mem_fields (s.perm_placement.mem_iff.mp hf))

/-- Sorting does not change which uniforms are new. -/
theorem newUniforms_perm (s : StagePlan p symbols q layout) (vertex : Symbols) :
    (newUniforms vertex ((byRank s.uniforms).map Prod.fst)).Perm
      (newUniforms vertex symbols.uniforms.entries) := by
  have hperm : (byRank s.uniforms).Perm s.uniforms := List.mergeSort_perm _ _
  rw [← (typedUniforms_eq_ok s.typed_eq).1]
  exact (hperm.map Prod.fst).filter _

/-- A later stage ends where the vertex stage and the new uniforms end. -/
theorem placed_offset_eq_blockEnd {vertex : Symbols} {start : Planner} {first : StageLayout}
    (s : StagePlan p symbols q layout) (v : StagePlan start vertex p first)
    (hfields : start.fields = []) (hoffset : start.offset = 0) :
    s.placed.offset = blockEnd vertex symbols.uniforms.entries := by
  rw [s.placed_offset, v.blockEnd_eq hfields hoffset, blockEnd, blockEnd,
    blockBytes_perm (s.newUniforms_perm vertex)]

end StagePlan

end Planner

theorem blockEnd_le (vertex : Symbols) (ds : List Declaration) :
    blockEnd vertex ds ≤ roundUp (blockBytes vertex.uniforms.entries) + blockBytes ds :=
  Nat.add_le_add_left (blockBytes_sublist List.filter_sublist) _

namespace PairRun

variable {vertexSource fragmentSource : String} {options : Options} {pair : ConvertedPair}

theorem start_empty (run : PairRun vertexSource fragmentSource options pair) :
    run.start.fields = [] ∧ run.start.offset = 0 := by
  obtain ⟨hoffset, hfields, -, -⟩ := Planner.new_eq_ok run.new_eq
  exact ⟨hfields, hoffset⟩

theorem sum_le_limit (run : PairRun vertexSource fragmentSource options pair)
    (hstrategy : pair.strategy = .pushConstant) :
    blockBytes run.vertex.symbols.uniforms.entries +
      blockBytes run.fragment.symbols.uniforms.entries ≤ options.pushConstantLimit := by
  refine Planner.total_le_of_pushConstant ?_
  rw [← Planner.strategy_of_new run.new_eq, run.strategies.1, hstrategy]

/-- The fields of the vertex stage end inside the plain sum of its sizes. -/
theorem stop_le_of_mem_vertex (run : PairRun vertexSource fragmentSource options pair) {f : Field}
    (hf : f ∈ run.middle.fields) :
    f.stop ≤ blockBytes run.vertex.symbols.uniforms.entries := by
  obtain ⟨v⟩ := run.vertexPlan
  obtain ⟨hfields, hoffset⟩ := run.start_empty
  have hperm : (Planner.byRank v.uniforms).Perm v.uniforms := List.mergeSort_perm _ _
  have hend := v.placed_offset
  rw [Planner.newOnes_of_nil hfields, hoffset, Nat.zero_add,
    blockBytes_perm (hperm.map Prod.fst), (typedUniforms_eq_ok v.typed_eq).1] at hend
  rw [← hend]
  rw [congrArg Planner.fields v.ended] at hf
  exact (run.packed_start.places v.places).inside f hf

/-- The fields of the fragment stage end inside the block. -/
theorem stop_le_of_mem_fragment (run : PairRun vertexSource fragmentSource options pair) {f : Field}
    (hf : f ∈ pair.fragment.layout.fields) :
    f.stop ≤ blockEnd run.vertex.symbols run.fragment.symbols.uniforms.entries := by
  obtain ⟨v⟩ := run.vertexPlan
  obtain ⟨s⟩ := run.fragmentPlan
  obtain ⟨hfields, hoffset⟩ := run.start_empty
  rw [← s.placed_offset_eq_blockEnd v hfields hoffset]
  exact s.stop_le_placed run.packed_middle hf

/-- The fragment stage adds fields exactly for its new uniforms; when there are any, one of them
ends with the block, and when there are none, all fields are those of the vertex stage. -/
theorem added_of_newUniforms (run : PairRun vertexSource fragmentSource options pair) :
    (newUniforms run.vertex.symbols run.fragment.symbols.uniforms.entries = [] →
      ∀ f ∈ pair.fragment.layout.fields, f ∈ run.middle.fields) ∧
    (newUniforms run.vertex.symbols run.fragment.symbols.uniforms.entries ≠ [] →
      ∃ f ∈ pair.fragment.layout.fields,
        f.stop = blockEnd run.vertex.symbols run.fragment.symbols.uniforms.entries) := by
  obtain ⟨v⟩ := run.vertexPlan
  obtain ⟨s⟩ := run.fragmentPlan
  obtain ⟨hfields, hoffset⟩ := run.start_empty
  obtain ⟨hall, hnames⟩ := Planner.byRank_spec s.typed_eq
  have hnew := s.newUniforms_perm run.vertex.symbols
  have hadded := (s.places.added_eq_newOnes (fun u hu => (hall u hu).2) hnames).1
  rw [v.newOnes_eq hfields] at hadded
  refine ⟨fun hnil f hf => ?_, fun hne => ?_⟩
  · rw [hnil] at hnew
    rw [hnew.eq_nil, List.map_nil, List.map_eq_nil_iff] at hadded
    have hmem := s.mem_fields hf
    rw [s.fields_eq, hadded, List.append_nil] at hmem
    exact hmem
  · have hsome : s.placement.added ≠ [] := by
      intro hnil
      rw [hnil, List.map_nil, eq_comm, List.map_eq_nil_iff] at hadded
      rw [hadded] at hnew
      exact hne hnew.symm.eq_nil
    obtain ⟨f, hf, hstop⟩ := s.places.exists_stop_eq.2 hsome
    refine ⟨f, s.perm_placement.mem_iff.mpr (s.places.added_subset hf), ?_⟩
    rw [hstop, s.placed_offset_eq_blockEnd v hfields hoffset]

theorem size?_of_mem (run : PairRun vertexSource fragmentSource options pair) {f : Field}
    (hf : f ∈ pair.vertex.layout.fields ++ pair.fragment.layout.fields) :
    f.size? = some f.bytes :=
  run.packed_last.size?_eq (run.mem_last hf)

end PairRun

/-- The field has a size and ends at or below this byte. -/
def Field.EndsBy (f : Field) (byte : Nat) : Prop :=
  ∃ size, f.size? = some size ∧ f.offset + size ≤ byte

theorem Field.endsBy_iff {f : Field} (h : f.size? = some f.bytes) {byte : Nat} :
    f.EndsBy byte ↔ f.stop ≤ byte := by
  simp [EndsBy, h, Field.stop]

/-- With push constants the fields of the vertex stage end inside the limit, and those of the
fragment stage exceed it by no more than what the end of the vertex stage is rounded up. All fields
are inside the limit exactly when the fragment stage has no new uniform or the planned end of the
block is inside the limit. -/
theorem convertPair_push_constants_near_limit {vertexSource fragmentSource : String}
    {options : Options} {pair : ConvertedPair}
    (h : (convertPair vertexSource fragmentSource options).1 = .ok pair)
    (hstrategy : pair.strategy = .pushConstant) :
    ∃ vertex fragment, (ShaderUnit.parse vertexSource .vertex).1 = .ok vertex ∧
      (ShaderUnit.parse fragmentSource .fragment).1 = .ok fragment ∧
      (∀ f ∈ pair.vertex.layout.fields, f.EndsBy options.pushConstantLimit) ∧
      (∀ f ∈ pair.fragment.layout.fields, f.EndsBy (options.pushConstantLimit +
        (roundUp (blockBytes vertex.symbols.uniforms.entries) -
          blockBytes vertex.symbols.uniforms.entries))) ∧
      ((∀ f ∈ pair.vertex.layout.fields ++ pair.fragment.layout.fields,
          f.EndsBy options.pushConstantLimit) ↔
        newUniforms vertex.symbols fragment.symbols.uniforms.entries = [] ∨
          blockEnd vertex.symbols fragment.symbols.uniforms.entries ≤
            options.pushConstantLimit) := by
  obtain ⟨run⟩ := pairRun_of_convertPair h
  obtain ⟨v⟩ := run.vertexPlan
  have hsum := run.sum_le_limit hstrategy
  have hends : ∀ {f byte}, f ∈ pair.vertex.layout.fields ++ pair.fragment.layout.fields →
      (f.EndsBy byte ↔ f.stop ≤ byte) := fun hf => Field.endsBy_iff (run.size?_of_mem hf)
  have hvertex : ∀ f ∈ run.middle.fields, f.stop ≤ options.pushConstantLimit := by
    intro f hf
    have hstop := run.stop_le_of_mem_vertex hf
    omega
  refine ⟨run.vertex, run.fragment, run.parse_vertex, run.parse_fragment, ?_, ?_, ?_⟩
  · intro f hf
    exact (hends (List.mem_append_left _ hf)).mpr (hvertex f (v.mem_fields hf))
  · intro f hf
    have hstop := run.stop_le_of_mem_fragment hf
    have hend := blockEnd_le run.vertex.symbols run.fragment.symbols.uniforms.entries
    have hround := le_roundUp (blockBytes run.vertex.symbols.uniforms.entries)
    exact (hends (List.mem_append_right _ hf)).mpr (by omega)
  · constructor
    · intro hall
      by_cases hnew : newUniforms run.vertex.symbols run.fragment.symbols.uniforms.entries = []
      · exact Or.inl hnew
      · obtain ⟨f, hf, hstop⟩ := run.added_of_newUniforms.2 hnew
        have hf := List.mem_append_right pair.vertex.layout.fields hf
        exact Or.inr (hstop ▸ (hends hf).mp (hall f hf))
    · intro hfits f hf
      refine (hends hf).mpr ?_
      rcases List.mem_append.mp hf with hf | hf
      · exact hvertex f (v.mem_fields hf)
      · rcases hfits with hnew | hend
        · exact hvertex f (run.added_of_newUniforms.1 hnew f hf)
        · exact Nat.le_trans (run.stop_le_of_mem_fragment hf) hend

theorem small_push_constants_near_limit :
    ∃ pair, (convertPair smallVertex largeFragment {}).1 = .ok pair ∧
      pair.strategy = .pushConstant ∧
      ∃ vertex fragment, (ShaderUnit.parse smallVertex .vertex).1 = .ok vertex ∧
        (ShaderUnit.parse largeFragment .fragment).1 = .ok fragment ∧
        (∀ f ∈ pair.vertex.layout.fields, f.EndsBy 128) ∧
        (∀ f ∈ pair.fragment.layout.fields, f.EndsBy (128 +
          (roundUp (blockBytes vertex.symbols.uniforms.entries) -
            blockBytes vertex.symbols.uniforms.entries))) ∧
        ((∀ f ∈ pair.vertex.layout.fields ++ pair.fragment.layout.fields, f.EndsBy 128) ↔
          newUniforms vertex.symbols fragment.symbols.uniforms.entries = [] ∨
            blockEnd vertex.symbols fragment.symbols.uniforms.entries ≤ 128) := by
  obtain ⟨pair, hpair, hstrategy, -⟩ := exists_small_pair
  exact ⟨pair, hpair, hstrategy, convertPair_push_constants_near_limit hpair hstrategy⟩

/-- The field of the fragment stage ends at 136, although the limit is 128. -/
theorem push_constant_beyond_limit :
    ∃ pair, (convertPair smallVertex largeFragment {}).1 = .ok pair ∧
      pair.strategy = .pushConstant ∧
      ∃ f ∈ pair.fragment.layout.fields, f.offset = 16 ∧ f.size? = some 120 ∧
        ¬f.EndsBy ({} : Options).pushConstantLimit := by
  obtain ⟨pair, hpair, hstrategy, f, hf, hoffset, hsize⟩ := exists_small_pair
  refine ⟨pair, hpair, hstrategy, f, hf, hoffset, hsize, ?_⟩
  rintro ⟨size, hsize', hle⟩
  rw [hsize] at hsize'
  cases hsize'
  rw [hoffset] at hle
  exact absurd hle (by decide)

end ShaderUplift
