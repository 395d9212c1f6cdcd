import ShaderUplift.Proofs.Strategy
import ShaderUplift.Proofs.Members

/-! The uniform buffer of a pair. Its members carry no offsets, so both stages must list them in one
order: the text that the planner carries from stage to stage is always that of its fields, which lie
in ascending order, and the fragment stage goes on where the vertex stage ended. -/

namespace ShaderUplift

/-- The shader is written with this uniform block, and this is the block of its layout. -/
def WrittenWith (options : Options) (unit : ShaderUnit) (strategy : Strategy)
    (shader : ConvertedShader) (block : Option UniformBlock) : Prop :=
  shader.layout.block = block ∧
    shader.text = Document.text
      { stage := unit.stage
        version := options.version
        defines := unit.symbols.defines
        interface := shader.interface
        block := block
        entryPoint := entryPointText
          (unit.body.qualify unit.stage shader.layout.fields strategy.accessor) }

/-- The block of a buffer with these members, at the first binding. -/
def bufferBlock (members : List Field) : UniformBlock :=
  .uniformBuffer ⟨0, 0⟩ (memberText .uniformBuffer members)

/-- The text has a buffer with these members, at the first binding. -/
def DeclaresBuffer (text : String) (members : List Field) : Prop :=
  ∃ before after, text = before ++ "layout(set = 0, binding = 0) uniform UniformBuffer \x7b\n" ++
    memberText .uniformBuffer members ++ "\x7d ub;\n\n" ++ after

/-- Both stages of a pair declare one buffer, whose members are all retained uniforms. -/
structure OneBuffer (options : Options) (vertex fragment : ShaderUnit) (pair : ConvertedPair)
    (members : List Field) : Prop where
  fragment_block : WrittenWith options fragment .uniformBuffer pair.fragment
    (some (bufferBlock members))
  fragment_text : DeclaresBuffer pair.fragment.text members
  planned : ∀ f, f ∈ members ↔ f ∈ pair.vertex.layout.fields ++ pair.fragment.layout.fields
  ascending : (members.map Field.offset).Pairwise (· < ·)
  once : (members.map Field.name).Nodup
  names : ∀ name, name ∈ members.map Field.name ↔
    name ∈ vertex.symbols.uniforms.names ∨ name ∈ fragment.symbols.uniforms.names
  /-- The vertex stage declares the first members, or no block when it retains no uniform. -/
  vertex_block : ∃ first rest, members = first ++ rest ∧
    memberText .uniformBuffer members =
      memberText .uniformBuffer first ++ memberText .uniformBuffer rest ∧
    (vertex.symbols.uniforms.entries = [] →
      WrittenWith options vertex .uniformBuffer pair.vertex none) ∧
    (vertex.symbols.uniforms.entries ≠ [] →
      WrittenWith options vertex .uniformBuffer pair.vertex (some (bufferBlock first)) ∧
        DeclaresBuffer pair.vertex.text first)

theorem blockText_bufferBlock (members : List Field) :
    Document.blockText (some (bufferBlock members)) = Document.banner "Uniform buffer" ++
      "layout(set = 0, binding = 0) uniform UniformBuffer \x7b\n" ++
        memberText .uniformBuffer members ++ "\x7d ub;\n\n" := by
  have hbinding : Document.bindingText ⟨0, 0⟩ = "layout(set = 0, binding = 0)" := by decide
  rw [bufferBlock, Document.blockText, hbinding]
  simp only [String.append_assoc]
  rfl

theorem Document.declaresBuffer {d : Document} {members : List Field}
    (h : d.block = some (bufferBlock members)) : DeclaresBuffer d.text members := by
  obtain ⟨before, after, htext⟩ := d.text_split
  refine ⟨before ++ banner "Uniform buffer", after ++ d.entryPoint, ?_⟩
  rw [htext, h, blockText_bufferBlock]
  simp only [String.append_assoc]

/-- A stage that is written with the block has it in its text. -/
theorem WrittenWith.declaresBuffer {options : Options} {unit : ShaderUnit} {strategy : Strategy}
    {shader : ConvertedShader} {members : List Field}
    (h : WrittenWith options unit strategy shader (some (bufferBlock members))) :
    DeclaresBuffer shader.text members := by
  obtain ⟨-, htext⟩ := h
  rw [htext]
  exact Document.declaresBuffer rfl

namespace Planner

/-- A planner that carries the lines of its fields declares them all, if there are any. -/
theorem block?_of_carries {p : Planner} {binding : Binding} (hstrategy : p.strategy = .uniformBuffer)
    (hbuffer : p.buffer = some binding) (hcarries : p.Carries) (fields : List Field) :
    p.block? fields = if p.fields = [] then none
      else some (.uniformBuffer binding (memberText .uniformBuffer p.fields)) := by
  have hcarried : p.carried = memberText .uniformBuffer p.fields := by
    rw [hcarries (by rw [hbuffer]; rfl), hstrategy]
  rw [block?, hstrategy, hbuffer, hcarried]
  cases hfields : p.fields with
  | nil => rfl
  | cons f fs =>
      have hne : (memberText .uniformBuffer (f :: fs)).isEmpty = false := by
        simpa using memberText_ne_empty .uniformBuffer (List.mem_cons_self (a := f) (l := fs))
      simp [hne]

namespace StagePlan

variable {p q : Planner} {symbols : Symbols} {layout : StageLayout}

theorem mem_layout_of_added (s : StagePlan p symbols q layout) {f : Field}
    (hf : f ∈ s.placement.added) : f ∈ layout.fields :=
  s.perm_placement.mem_iff.mpr (s.places.added_subset hf)

end StagePlan

end Planner

namespace PairRun

variable {vertexSource fragmentSource : String} {options : Options} {pair : ConvertedPair}

/-- The planner placed what the layouts of the two stages list. -/
theorem mem_last_iff (run : PairRun vertexSource fragmentSource options pair) {f : Field} :
    f ∈ run.last.fields ↔ f ∈ pair.vertex.layout.fields ++ pair.fragment.layout.fields := by
  obtain ⟨v⟩ := run.vertexPlan
  obtain ⟨s⟩ := run.fragmentPlan
  refine ⟨fun hf => ?_, run.mem_last⟩
  rw [s.fields_eq, v.fields_eq, run.start_empty.1, List.nil_append] at hf
  exact List.mem_append.mpr ((List.mem_append.mp hf).imp v.mem_layout_of_added
    s.mem_layout_of_added)

theorem middle_fields_eq_nil_iff (run : PairRun vertexSource fragmentSource options pair) :
    run.middle.fields = [] ↔ run.vertex.symbols.uniforms.entries = [] := by
  obtain ⟨v⟩ := run.vertexPlan
  constructor
  · intro hnil
    refine List.eq_nil_iff_forall_not_mem.mpr fun d hd => ?_
    obtain ⟨f, hf, -⟩ := v.exists_field hd
    have hmem := v.mem_fields hf
    rw [hnil] at hmem
    cases hmem
  · intro hnil
    refine List.eq_nil_iff_forall_not_mem.mpr fun f hf => ?_
    rw [v.fields_eq, run.start_empty.1, List.nil_append] at hf
    obtain ⟨d, hd, -⟩ := v.exists_declaration (v.mem_layout_of_added hf)
    rw [hnil] at hd
    cases hd

/-- The fields lie in ascending order, since none of them is empty. -/
theorem last_ascending (run : PairRun vertexSource fragmentSource options pair) :
    (run.last.fields.map Field.offset).Pairwise (· < ·) := by
  obtain ⟨v⟩ := run.vertexPlan
  obtain ⟨s⟩ := run.fragmentPlan
  have hpos : ∀ f ∈ run.last.fields, 0 < f.bytes := by
    intro f hf
    rcases List.mem_append.mp (run.mem_last_iff.mp hf) with hf | hf
    · exact v.bytes_pos (fun d hd => validLength_of_mem_uniforms run.parse_vertex hd) hf
    · exact s.bytes_pos (fun d hd => validLength_of_mem_uniforms run.parse_fragment hd) hf
  rw [List.pairwise_map]
  refine run.packed_last.apart.imp_of_mem fun {f g} hf _ hstop => ?_
  have hbytes := hpos f hf
  rw [Field.stop] at hstop
  omega

theorem mem_last_names (run : PairRun vertexSource fragmentSource options pair) (name : String) :
    name ∈ run.last.fields.map Field.name ↔
      name ∈ run.vertex.symbols.uniforms.names ∨ name ∈ run.fragment.symbols.uniforms.names := by
  obtain ⟨v⟩ := run.vertexPlan
  obtain ⟨s⟩ := run.fragmentPlan
  rw [← v.names_perm.mem_iff, ← s.names_perm.mem_iff, ← List.mem_append, ← List.map_append,
    List.mem_map, List.mem_map]
  simp only [run.mem_last_iff]

/-- A buffer is chosen only when there is a uniform: the sum of none is zero, which no limit is
below. -/
theorem last_fields_ne_nil (run : PairRun vertexSource fragmentSource options pair)
    (hstrategy : pair.strategy = .uniformBuffer) : run.last.fields ≠ [] := by
  have hchoose := Planner.strategy_of_new run.new_eq
  rw [run.strategies.1, hstrategy] at hchoose
  intro hnil
  have hnone : ∀ name, name ∉ run.vertex.symbols.uniforms.names ∧
      name ∉ run.fragment.symbols.uniforms.names := by
    intro name
    rw [← not_or, ← run.mem_last_names, hnil]
    exact List.not_mem_nil
  have hvertex := List.map_eq_nil_iff.mp (List.eq_nil_iff_forall_not_mem.mpr fun n => (hnone n).1)
  have hfragment := List.map_eq_nil_iff.mp (List.eq_nil_iff_forall_not_mem.mpr fun n => (hnone n).2)
  rw [hvertex, hfragment, Strategy.choose, if_pos (by simp)] at hchoose
  cases hchoose

/-- A pair with a buffer holds the first binding in all its planners. -/
theorem buffer_eq (run : PairRun vertexSource fragmentSource options pair)
    (hstrategy : pair.strategy = .uniformBuffer) :
    run.middle.buffer = some ⟨0, 0⟩ ∧ run.last.buffer = some ⟨0, 0⟩ := by
  obtain ⟨v⟩ := run.vertexPlan
  obtain ⟨s⟩ := run.fragmentPlan
  have hfresh := Planner.new_eq_fresh run.new_eq
  rw [run.strategies.1, hstrategy] at hfresh
  have hstart : run.start.buffer = some ⟨0, 0⟩ := by
    rw [(Prod.mk.inj hfresh).1]
    rfl
  have hmiddle := v.buffer_eq.trans hstart
  exact ⟨hmiddle, s.buffer_eq.trans hmiddle⟩

theorem writtenWith_vertex (run : PairRun vertexSource fragmentSource options pair) :
    WrittenWith options run.vertex pair.strategy pair.vertex pair.vertex.layout.block :=
  ⟨rfl, by rw [← run.strategies.2.1]; exact congrArg ConvertedShader.text run.vertex_eq⟩

theorem writtenWith_fragment (run : PairRun vertexSource fragmentSource options pair) :
    WrittenWith options run.fragment pair.strategy pair.fragment pair.fragment.layout.block :=
  ⟨rfl, by rw [run.strategy_eq]; exact congrArg ConvertedShader.text run.fragment_eq⟩

theorem oneBuffer (run : PairRun vertexSource fragmentSource options pair)
    (hstrategy : pair.strategy = .uniformBuffer) :
    OneBuffer options run.vertex run.fragment pair run.last.fields := by
  obtain ⟨v⟩ := run.vertexPlan
  obtain ⟨s⟩ := run.fragmentPlan
  obtain ⟨-, hmiddle, hlast⟩ := run.strategies
  obtain ⟨hbuffer, hbuffer'⟩ := run.buffer_eq hstrategy
  have hcarries := v.carries run.bound_start run.carries_start
  have hcarries' := s.carries (v.bound run.bound_start) hcarries
  have hvertex := run.writtenWith_vertex
  have hfragment := run.writtenWith_fragment
  rw [hstrategy, v.layout_block,
    Planner.block?_of_carries (hmiddle.trans hstrategy) hbuffer hcarries] at hvertex
  rw [hstrategy, s.layout_block,
    Planner.block?_of_carries (hlast.trans hstrategy) hbuffer' hcarries',
    if_neg (run.last_fields_ne_nil hstrategy)] at hfragment
  refine ⟨hfragment, hfragment.declaresBuffer, fun f => run.mem_last_iff, run.last_ascending,
    run.packed_last.distinct, run.mem_last_names, run.middle.fields, s.placement.added, s.fields_eq,
    ?_, ?_, ?_⟩
  · rw [s.fields_eq, Planner.memberText_append]
  · intro hnil
    rw [if_pos (run.middle_fields_eq_nil_iff.mpr hnil)] at hvertex
    exact hvertex
  · intro hne
    rw [if_neg (run.middle_fields_eq_nil_iff.not.mpr hne)] at hvertex
    exact ⟨hvertex, hvertex.declaresBuffer⟩

end PairRun

end ShaderUplift
