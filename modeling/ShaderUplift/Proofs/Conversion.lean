import ShaderUplift.Conversion
import ShaderUplift.Proofs.Layout.StagePlan

/-! A conversion that succeeds, with everything that went into it. `PairRun` holds the two stages as
they were read, the planner before, between and after them, and the equations of each step; facts
about converted pairs start from it and never open the conversion itself. -/

namespace ShaderUplift

/-- The run that converts two sources into `pair`. -/
structure PairRun (vertexSource fragmentSource : String) (options : Options)
    (pair : ConvertedPair) where
  vertex : ShaderUnit
  fragment : ShaderUnit
  parse_vertex : (ShaderUnit.parse vertexSource .vertex).1 = .ok vertex
  parse_fragment : (ShaderUnit.parse fragmentSource .fragment).1 = .ok fragment
  /-- The planner before the vertex stage. -/
  start : Planner
  /-- The planner between the stages. -/
  middle : Planner
  /-- The planner after the fragment stage. -/
  last : Planner
  /-- The descriptors that the planner leaves to the samplers. -/
  descriptors : Descriptors
  finalDescriptors : Descriptors
  new_eq : Planner.new vertex.symbols fragment.symbols options.pushConstantLimit ⟨0, 0⟩ =
    .ok (start, descriptors)
  plan_vertex : start.planStage vertex.symbols = (middle, .ok pair.vertex.layout)
  plan_fragment : middle.planStage fragment.symbols = (last, .ok pair.fragment.layout)
  interface_vertex : (vertexInterface vertex.symbols .empty descriptors).1 = pair.vertex.interface
  interface_fragment :
    fragmentInterface fragment.symbols (vertexInterface vertex.symbols .empty descriptors).2.1
      (vertexInterface vertex.symbols .empty descriptors).2.2 =
        .ok (pair.fragment.interface, finalDescriptors)
  vertex_eq : pair.vertex = convertedShader options.version middle.strategy vertex
    pair.vertex.interface pair.vertex.layout
  fragment_eq : pair.fragment = convertedShader options.version last.strategy fragment
    pair.fragment.interface pair.fragment.layout
  strategy_eq : pair.strategy = last.strategy
  size_eq : pair.size = last.offset
  diagnostics_eq : pair.diagnostics = vertex.diagnostics ++ fragment.diagnostics

theorem convertStage_eq_ok {version : Nat} {p q : Planner} {unit : ShaderUnit}
    {interface : Interface} {shader : ConvertedShader}
    (h : convertStage version p unit interface = .ok (shader, q)) :
    p.planStage unit.symbols = (q, .ok shader.layout) ∧ shader.interface = interface ∧
      shader = convertedShader version q.strategy unit interface shader.layout := by
  unfold convertStage at h
  split at h
  · cases h
  · next q' layout hplan =>
    cases h
    exact ⟨hplan, rfl, rfl⟩

theorem pairRun_of_convertPair {vertexSource fragmentSource : String} {options : Options}
    {pair : ConvertedPair} (h : (convertPair vertexSource fragmentSource options).1 = .ok pair) :
    Nonempty (PairRun vertexSource fragmentSource options pair) := by
  unfold convertPair at h
  split at h
  · cases h
  · next vertex _ hvertex =>
    split at h
    · cases h
    · next fragment _ hfragment =>
      dsimp only at h
      unfold convertUnits at h
      split at h
      · cases h
      · next start descriptors hnew =>
        dsimp only at h
        split at h
        · cases h
        · next vertexShader middle hstage =>
          split at h
          · cases h
          · next interface final hinterface =>
            split at h
            · cases h
            · next fragmentShader last hstage' =>
              obtain ⟨hplan, hface, hshader⟩ := convertStage_eq_ok hstage
              obtain ⟨hplan', hface', hshader'⟩ := convertStage_eq_ok hstage'
              cases h
              exact ⟨{
                vertex := vertex
                fragment := fragment
                parse_vertex := by rw [hvertex]
                parse_fragment := by rw [hfragment]
                start := start
                middle := middle
                last := last
                descriptors := descriptors
                finalDescriptors := final
                new_eq := hnew
                plan_vertex := hplan
                plan_fragment := hplan'
                interface_vertex := hface.symm
                interface_fragment := by rw [hface']; exact hinterface
                vertex_eq := by rw [hface]; exact hshader
                fragment_eq := by rw [hface']; exact hshader'
                strategy_eq := rfl
                size_eq := rfl
                diagnostics_eq := rfl }⟩

/-- A new planner has placed nothing; it holds a binding exactly when it plans a buffer. -/
theorem Planner.new_eq_ok {vertex fragment : Symbols} {limit : Nat}
    {descriptors descriptors' : Descriptors} {p : Planner}
    (h : Planner.new vertex fragment limit descriptors = .ok (p, descriptors')) :
    p.offset = 0 ∧ p.fields = [] ∧ p.carried = "" ∧
      (p.buffer.isSome = true ↔ p.strategy = .uniformBuffer) := by
  obtain ⟨total, -, h⟩ := map_eq_ok.mp h
  dsimp only at h
  split at h
  · next hbuffer =>
    cases h
    exact ⟨rfl, rfl, rfl, by simp [hbuffer.1]⟩
  · next hbuffer =>
    cases h
    refine ⟨rfl, rfl, rfl, ?_⟩
    have hchoose : Strategy.choose total limit ≠ .uniformBuffer := by
      intro hs
      have hpos : ¬0 < total := fun hpos => hbuffer ⟨hs, hpos⟩
      rw [Strategy.choose, if_pos (by omega)] at hs
      cases hs
    simp [hchoose]

theorem Planner.packed_of_new {vertex fragment : Symbols} {limit : Nat}
    {descriptors descriptors' : Descriptors} {p : Planner}
    (h : Planner.new vertex fragment limit descriptors = .ok (p, descriptors')) : p.Packed := by
  obtain ⟨hoffset, hfields, -, -⟩ := Planner.new_eq_ok h
  constructor
  · rw [hfields]
    exact List.nodup_nil
  · rw [hfields]
    exact List.Pairwise.nil
  · rw [hfields]
    intro f hf
    cases hf
  · rw [hoffset]
    decide

namespace PairRun

variable {vertexSource fragmentSource : String} {options : Options} {pair : ConvertedPair}

theorem vertexPlan (run : PairRun vertexSource fragmentSource options pair) :
    Nonempty (run.start.StagePlan run.vertex.symbols run.middle pair.vertex.layout) :=
  Planner.stagePlan_of_planStage run.plan_vertex

theorem fragmentPlan (run : PairRun vertexSource fragmentSource options pair) :
    Nonempty (run.middle.StagePlan run.fragment.symbols run.last pair.fragment.layout) :=
  Planner.stagePlan_of_planStage run.plan_fragment

/-- All stages of a pair are planned with the strategy of the pair. -/
theorem strategies (run : PairRun vertexSource fragmentSource options pair) :
    run.start.strategy = pair.strategy ∧ run.middle.strategy = pair.strategy ∧
      run.last.strategy = pair.strategy := by
  obtain ⟨v⟩ := run.vertexPlan
  obtain ⟨f⟩ := run.fragmentPlan
  have hlast := run.strategy_eq.symm
  have hmiddle := f.strategy_eq.symm.trans hlast
  exact ⟨v.strategy_eq.symm.trans hmiddle, hmiddle, hlast⟩

end PairRun

/-! ### A pair that converts

A vertex stage with an attribute, a uniform and a varying array, and a fragment stage that uses the
array and a uniform of its own. -/

def sampleVertex : String :=
  "attribute vec2 p;\nuniform mat4 m;\nvarying vec2 w[2];\nvoid main()\x7bw[1]=p;gl_Position=m*p;\x7d"

def sampleFragment : String :=
  "varying vec2 w[2];\nuniform vec4 t;\nvoid main()\x7bgl_FragColor=t*w[1];\x7d"

theorem exists_sample_pair : ∃ pair, (convertPair sampleVertex sampleFragment {}).1 = .ok pair := by
  have hok : ((convertPair sampleVertex sampleFragment {}).1.toOption.any fun _ => true) = true := by
    decide +kernel
  obtain ⟨pair, hpair, -⟩ := exists_ok_of_any hok
  exact ⟨pair, hpair⟩

end ShaderUplift
