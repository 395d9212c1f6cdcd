import ShaderUplift.Proofs.Layout.Buffer

/-! Descriptor bindings of a converted pair. One count runs through the whole conversion: the planner
takes the first binding when it plans a buffer, then the samplers of the vertex stage and those of
the fragment stage take the next ones. Every taker leaves the count right behind its bindings, so all
of them together are the bindings from zero on. -/

namespace ShaderUplift

/-- The binding of a block that is a uniform buffer. -/
def UniformBlock.binding? : UniformBlock → Option Binding
  | .pushConstant _ => none
  | .uniformBuffer binding _ => some binding

namespace ConvertedPair

/-- The binding of the uniform buffer of a pair, which its fragment stage always declares. -/
def buffer? (pair : ConvertedPair) : Option Binding :=
  pair.fragment.layout.block.bind UniformBlock.binding?

/-- The bindings of all resources: the buffer, the vertex samplers and the fragment samplers. -/
def bindings (pair : ConvertedPair) : List Binding :=
  pair.buffer?.toList ++ pair.vertex.interface.samplers.map Slot.index ++
    pair.fragment.interface.samplers.map Slot.index

end ConvertedPair

/-- The resources of a pair take the bindings of the first set from zero on, and the texts of its
stages are written with them. -/
structure ConsecutiveBindings (options : Options) (vertex fragment : ShaderUnit)
    (pair : ConvertedPair) : Prop where
  buffer_iff : pair.buffer?.isSome = true ↔ pair.strategy = .uniformBuffer
  /-- A vertex stage that declares a block declares the same buffer. -/
  vertex_block : ∀ block ∈ pair.vertex.layout.block, block.binding? = pair.buffer?
  vertex_samplers :
    pair.vertex.interface.samplers.map Slot.declaration = vertex.symbols.samplers.entries
  fragment_samplers :
    pair.fragment.interface.samplers.map Slot.declaration = fragment.symbols.samplers.entries
  consecutive : pair.bindings = (List.range pair.bindings.length).map (Binding.mk 0)
  distinct : pair.bindings.Nodup
  vertex_written : WrittenWith options vertex pair.strategy pair.vertex pair.vertex.layout.block
  fragment_written :
    WrittenWith options fragment pair.strategy pair.fragment pair.fragment.layout.block

/-- The next `n` bindings of the count. -/
def Descriptors.taken (d : Descriptors) (n : Nat) : List Binding :=
  (List.range' d.next n).map (Binding.mk d.set)

/-- The count after some bindings are taken. -/
def Descriptors.skip (d : Descriptors) (n : Nat) : Descriptors := { d with next := d.next + n }

namespace Descriptors

theorem taken_succ (d : Descriptors) (n : Nat) :
    d.taken (n + 1) = d.allocate.1 :: d.allocate.2.taken n := by
  rw [taken, List.range'_succ]
  rfl

theorem taken_append (d : Descriptors) (m n : Nat) :
    d.taken m ++ (d.skip m).taken n = d.taken (m + n) := by
  rw [taken, taken, taken, ← List.range'_append_1, List.map_append]
  rfl

theorem length_taken (d : Descriptors) (n : Nat) : (d.taken n).length = n := by
  rw [taken, List.length_map, List.length_range']

theorem nodup_taken (d : Descriptors) (n : Nat) : (d.taken n).Nodup :=
  List.Nodup.map (fun _ _ h => (Binding.mk.inj h).2) List.nodup_range'

end Descriptors

/-- Samplers take the next bindings in their order, one each. -/
theorem bindAll_spec (d : Descriptors) (ds : List Declaration) :
    (bindAll d ds).1.map Slot.declaration = ds ∧
      (bindAll d ds).1.map Slot.index = d.taken ds.length ∧
      (bindAll d ds).2 = d.skip ds.length := by
  induction ds generalizing d with
  | nil => exact ⟨rfl, rfl, rfl⟩
  | cons s ds ih =>
      obtain ⟨hdeclared, hindex, hrest⟩ := ih d.allocate.2
      refine ⟨congrArg (s :: ·) hdeclared, ?_, ?_⟩
      · rw [List.length_cons, Descriptors.taken_succ, ← hindex]
        rfl
      · have hskip : d.allocate.2.skip ds.length = d.skip (ds.length + 1) := by
          simp only [Descriptors.allocate, Descriptors.skip, Descriptors.mk.injEq, true_and]
          omega
        rw [List.length_cons, ← hskip, ← hrest]
        rfl

namespace Planner

/-- A block that a planner declares has its binding. -/
theorem binding?_of_mem_block? {p : Planner} (hp : p.Bound) {fields : List Field}
    {block : UniformBlock} (h : block ∈ p.block? fields) : block.binding? = p.buffer := by
  unfold block? at h
  split at h
  · next binding _ hbuffer =>
    split at h
    · cases h
    · cases h
      exact hbuffer.symm
  · next hother =>
    have hnone : p.buffer = none := by
      cases hbuffer : p.buffer with
      | none => rfl
      | some binding => exact absurd hbuffer (hother binding (hp.mp (by rw [hbuffer]; rfl)))
    split at h
    · cases h
    · cases h
      exact hnone.symm

/-- The binding of a new planner is what it takes from the count. -/
theorem taken_of_fresh (strategy : Strategy) (d : Descriptors) :
    ∃ n, (fresh strategy d).1.buffer.toList = d.taken n ∧ (fresh strategy d).2 = d.skip n := by
  cases strategy with
  | pushConstant => exact ⟨0, rfl, rfl⟩
  | uniformBuffer => exact ⟨1, rfl, rfl⟩

end Planner

namespace PairRun

variable {vertexSource fragmentSource : String} {options : Options} {pair : ConvertedPair}

theorem vertex_samplers_eq (run : PairRun vertexSource fragmentSource options pair) :
    pair.vertex.interface.samplers =
      (bindAll run.descriptors run.vertex.symbols.samplers.entries).1 := by
  rw [← run.interface_vertex]
  rfl

/-- The fragment samplers go on where the vertex samplers end. -/
theorem fragment_samplers_eq (run : PairRun vertexSource fragmentSource options pair) :
    pair.fragment.interface.samplers =
      (bindAll (run.descriptors.skip run.vertex.symbols.samplers.entries.length)
        run.fragment.symbols.samplers.entries).1 := by
  have hnext : (vertexInterface run.vertex.symbols .empty run.descriptors).2.2 =
      run.descriptors.skip run.vertex.symbols.samplers.entries.length :=
    (bindAll_spec run.descriptors run.vertex.symbols.samplers.entries).2.2
  have hinterface := run.interface_fragment
  rw [hnext] at hinterface
  unfold fragmentInterface at hinterface
  split at hinterface
  · cases hinterface
  · have hok := Except.ok.inj hinterface
    rw [← (Prod.mk.inj hok).1]

/-- The planners of a pair keep the binding that the first one took. -/
theorem buffers (run : PairRun vertexSource fragmentSource options pair) :
    run.middle.buffer = run.start.buffer ∧ run.last.buffer = run.start.buffer := by
  obtain ⟨v⟩ := run.vertexPlan
  obtain ⟨s⟩ := run.fragmentPlan
  exact ⟨v.buffer_eq, s.buffer_eq.trans v.buffer_eq⟩

/-- The fragment stage declares the buffer whenever the planner took a binding for it. -/
theorem buffer?_eq (run : PairRun vertexSource fragmentSource options pair) :
    pair.buffer? = run.start.buffer := by
  cases hstrategy : pair.strategy with
  | pushConstant =>
      have hnone : run.start.buffer = none := by
        cases hbuffer : run.start.buffer with
        | none => rfl
        | some binding =>
            have hstart := run.bound_start.mp (by rw [hbuffer]; rfl)
            rw [run.strategies.1, hstrategy] at hstart
            cases hstart
      obtain ⟨v⟩ := run.vertexPlan
      obtain ⟨s⟩ := run.fragmentPlan
      have hbound := s.bound (v.bound run.bound_start)
      rw [hnone, ConvertedPair.buffer?, Option.bind_eq_none_iff]
      intro block hblock
      rw [s.layout_block] at hblock
      rw [Planner.binding?_of_mem_block? hbound hblock, run.buffers.2, hnone]
  | uniformBuffer =>
      have hblock := (run.oneBuffer hstrategy).fragment_block.1
      rw [ConvertedPair.buffer?, hblock, ← run.buffers.2, (run.buffer_eq hstrategy).2]
      rfl

theorem bindings_eq (run : PairRun vertexSource fragmentSource options pair) :
    ∃ n, pair.bindings = (Descriptors.mk 0 0).taken n := by
  have hfresh := Planner.new_eq_fresh run.new_eq
  obtain ⟨n, hbuffer, hskip⟩ := Planner.taken_of_fresh run.start.strategy ⟨0, 0⟩
  have hstart : run.start.buffer.toList = (Descriptors.mk 0 0).taken n := by
    rw [← hbuffer, ← hfresh]
  have hdescriptors : run.descriptors = (Descriptors.mk 0 0).skip n := by
    rw [← hskip, ← hfresh]
  obtain ⟨-, hvertex, -⟩ := bindAll_spec run.descriptors run.vertex.symbols.samplers.entries
  obtain ⟨-, hfragment, -⟩ := bindAll_spec
    (run.descriptors.skip run.vertex.symbols.samplers.entries.length)
    run.fragment.symbols.samplers.entries
  refine ⟨n + (run.vertex.symbols.samplers.entries.length +
    run.fragment.symbols.samplers.entries.length), ?_⟩
  calc pair.bindings
      = run.start.buffer.toList ++
          (run.descriptors.taken run.vertex.symbols.samplers.entries.length ++
            (run.descriptors.skip run.vertex.symbols.samplers.entries.length).taken
              run.fragment.symbols.samplers.entries.length) := by
        rw [ConvertedPair.bindings, run.buffer?_eq, run.vertex_samplers_eq,
          run.fragment_samplers_eq, hvertex, hfragment, List.append_assoc]
    _ = (Descriptors.mk 0 0).taken n ++ ((Descriptors.mk 0 0).skip n).taken
          (run.vertex.symbols.samplers.entries.length +
            run.fragment.symbols.samplers.entries.length) := by
        rw [Descriptors.taken_append, hstart, hdescriptors]
    _ = _ := Descriptors.taken_append _ _ _

end PairRun

/-- The bindings of a converted pair, taken in the order uniform buffer, vertex samplers, fragment
samplers, are those of the first set from zero on without gap or repetition. There is a buffer
exactly when that is the strategy, and both stages declare it at its one binding. -/
theorem convertPair_bindings_consecutive {vertexSource fragmentSource : String} {options : Options}
    {pair : ConvertedPair} (h : (convertPair vertexSource fragmentSource options).1 = .ok pair) :
    ∃ vertex fragment, (ShaderUnit.parse vertexSource .vertex).1 = .ok vertex ∧
      (ShaderUnit.parse fragmentSource .fragment).1 = .ok fragment ∧
      ConsecutiveBindings options vertex fragment pair := by
  obtain ⟨run⟩ := pairRun_of_convertPair h
  obtain ⟨v⟩ := run.vertexPlan
  obtain ⟨n, hbindings⟩ := run.bindings_eq
  refine ⟨run.vertex, run.fragment, run.parse_vertex, run.parse_fragment, ?_⟩
  constructor
  · rw [run.buffer?_eq, ← run.strategies.1]
    exact run.bound_start
  · intro block hblock
    rw [v.layout_block] at hblock
    rw [Planner.binding?_of_mem_block? (v.bound run.bound_start) hblock, run.buffers.1,
      run.buffer?_eq]
  · rw [run.vertex_samplers_eq]
    exact (bindAll_spec _ _).1
  · rw [run.fragment_samplers_eq]
    exact (bindAll_spec _ _).1
  · rw [hbindings, Descriptors.length_taken, List.range_eq_range']
    rfl
  · rw [hbindings]
    exact Descriptors.nodup_taken _ _
  · exact run.writtenWith_vertex
  · exact run.writtenWith_fragment

/-- A vertex stage with a uniform and a sampler, and a fragment stage with two samplers. -/
def boundVertex : String :=
  "uniform mat4 m;\nuniform sampler2D h;\nvoid main()\x7bgl_Position=m*texture2D(h);\x7d"

def boundFragment : String :=
  "uniform sampler2D a;\nuniform samplerCube b;\nvoid main()\x7bgl_FragColor=a*b;\x7d"

theorem bound_bindings_consecutive :
    ∃ pair, (convertPair boundVertex boundFragment { pushConstantLimit := 60 }).1 = .ok pair ∧
      pair.bindings = [⟨0, 0⟩, ⟨0, 1⟩, ⟨0, 2⟩, ⟨0, 3⟩] ∧
      ∃ vertex fragment, (ShaderUnit.parse boundVertex .vertex).1 = .ok vertex ∧
        (ShaderUnit.parse boundFragment .fragment).1 = .ok fragment ∧
        ConsecutiveBindings { pushConstantLimit := 60 } vertex fragment pair := by
  have hok : ((convertPair boundVertex boundFragment
      { pushConstantLimit := 60 }).1.toOption.any fun pair =>
        pair.bindings = [⟨0, 0⟩, ⟨0, 1⟩, ⟨0, 2⟩, ⟨0, 3⟩]) = true := by
    decide +kernel
  obtain ⟨pair, hpair, hbindings⟩ := exists_ok_of_any hok
  exact ⟨pair, hpair, of_decide_eq_true hbindings, convertPair_bindings_consecutive hpair⟩

end ShaderUplift
