import ShaderUplift.Proofs.Locations
import ShaderUplift.Proofs.VaryingNames

/-! Types on the two sides of the interface. A fragment input finds its vertex output by name alone:
the locations that the vertex stage records hold no types, and none are compared. Each side keeps the
type of its own source, so the two agree exactly when the sources do. -/

namespace ShaderUplift

/-- The vertex output has the name and the location of the fragment input. -/
def Slot.Feeds (output input : Slot Nat) : Prop :=
  output.declaration.name = input.declaration.name ∧ output.index = input.index

/-- Every fragment input has the type of the vertex output that feeds it. -/
def ConvertedPair.TypesMatch (pair : ConvertedPair) : Prop :=
  ∀ input ∈ pair.fragment.interface.inputs, ∀ output ∈ pair.vertex.interface.outputs,
    output.Feeds input → output.declaration.type = input.declaration.type

/-- The type of a retained varying. -/
def Symbols.varyingType? (symbols : Symbols) (name : String) : Option String :=
  (symbols.varyings.get? name).map Declaration.type

/-- The type of the first varying declaration of a source that declares the name. -/
def firstVaryingType? (source name : String) : Option String :=
  ((declaredAs .varying (scanned source)).find? fun d => name ∈ d.varyingNames).map
    Declaration.type

/-- No varying of the source is declared under the name both by itself and as an element. -/
def DeclaredOneWay (source name : String) : Prop :=
  ¬DeclaredTwoWays (declaredAs .varying (scanned source)) name

/-- Where the types of the interface of a pair come from, and when they agree. -/
structure InterfaceTypes (vertexSource fragmentSource : String) (vertex fragment : Symbols)
    (pair : ConvertedPair) : Prop where
  fed : ∀ input ∈ pair.fragment.interface.inputs,
    ∃! output, output ∈ pair.vertex.interface.outputs ∧ output.Feeds input
  output_type : ∀ output ∈ pair.vertex.interface.outputs,
    vertex.varyingType? output.declaration.name = some output.declaration.type
  input_type : ∀ input ∈ pair.fragment.interface.inputs,
    fragment.varyingType? input.declaration.name = some input.declaration.type
  match_iff : pair.TypesMatch ↔
    ∀ name ∈ fragment.varyings.names, vertex.varyingType? name = fragment.varyingType? name
  /-- A name that each source declares in one way has the types of its first declarations. -/
  first_iff : ∀ input ∈ pair.fragment.interface.inputs,
    ∀ output ∈ pair.vertex.interface.outputs, output.Feeds input →
      DeclaredOneWay vertexSource input.declaration.name →
      DeclaredOneWay fragmentSource input.declaration.name →
      (output.declaration.type = input.declaration.type ↔
        firstVaryingType? vertexSource input.declaration.name =
          firstVaryingType? fragmentSource input.declaration.name)

theorem Symbols.varyingType?_of_mem {symbols : Symbols} {d : Declaration}
    (h : d ∈ symbols.varyings.entries) : symbols.varyingType? d.name = some d.type := by
  have hget : symbols.varyings.get? d.name = some d := Table.get?_eq_some_iff.mpr ⟨h, rfl⟩
  rw [varyingType?, hget]
  rfl

/-- A retained varying has the type of the first declaration of its name. -/
theorem firstVaryingType?_of_mem {source : String} {stage : Stage} {unit : ShaderUnit}
    (h : (ShaderUnit.parse source stage).1 = .ok unit) {d : Declaration}
    (hd : d ∈ unit.symbols.varyings.entries) (hone : DeclaredOneWay source d.name) :
    firstVaryingType? source d.name = some d.type := by
  obtain ⟨text, -, -, c, hrun, rfl⟩ := ShaderUnit.parse_eq_ok h
  have hputs : Classification.Puts (scanned source) c := hrun ▸ Classification.Puts.run ..
  obtain ⟨first, hfirst, htype⟩ := hputs.varyingsOf.first d hd hone
  rw [firstVaryingType?, hfirst, htype]
  rfl

namespace PairRun

variable {vertexSource fragmentSource : String} {options : Options} {pair : ConvertedPair}

theorem mem_vertex_varyings (run : PairRun vertexSource fragmentSource options pair)
    {output : Slot Nat} (h : output ∈ pair.vertex.interface.outputs) :
    output.declaration ∈ run.vertex.symbols.varyings.entries := by
  rw [← run.vertex_numbered.2.declared]
  exact List.mem_map_of_mem h

theorem mem_fragment_varyings (run : PairRun vertexSource fragmentSource options pair)
    {input : Slot Nat} (h : input ∈ pair.fragment.interface.inputs) :
    input.declaration ∈ run.fragment.symbols.varyings.entries := by
  rw [← (fragmentInterface_eq_ok run.interface_fragment).1]
  exact List.mem_map_of_mem h

/-- One output feeds an input, since no two outputs share a location. -/
theorem existsUnique_feeds (run : PairRun vertexSource fragmentSource options pair)
    {input : Slot Nat} (h : input ∈ pair.fragment.interface.inputs) :
    ∃! output, output ∈ pair.vertex.interface.outputs ∧ output.Feeds input := by
  obtain ⟨output, houtput, hfeeds⟩ := run.fragment_matched h
  refine ⟨output, ⟨houtput, hfeeds⟩, ?_⟩
  rintro other ⟨hother, -, hindex⟩
  apply run.vertex_numbered.2.eq_of_index_eq hother houtput
  rw [hindex, hfeeds.2]

theorem typesMatch_iff (run : PairRun vertexSource fragmentSource options pair) :
    pair.TypesMatch ↔ ∀ name ∈ run.fragment.symbols.varyings.names,
      run.vertex.symbols.varyingType? name = run.fragment.symbols.varyingType? name := by
  constructor
  · intro hmatch name hname
    obtain ⟨d, hd, rfl⟩ := List.mem_map.mp hname
    rw [← (fragmentInterface_eq_ok run.interface_fragment).1] at hd
    obtain ⟨input, hinput, rfl⟩ := List.mem_map.mp hd
    obtain ⟨output, ⟨houtput, hfeeds⟩, -⟩ := run.existsUnique_feeds hinput
    show run.vertex.symbols.varyingType? input.declaration.name =
      run.fragment.symbols.varyingType? input.declaration.name
    rw [Symbols.varyingType?_of_mem (run.mem_fragment_varyings hinput), ← hfeeds.1,
      Symbols.varyingType?_of_mem (run.mem_vertex_varyings houtput),
      hmatch input hinput output houtput hfeeds]
  · intro hsame input hinput output houtput hfeeds
    have hd := run.mem_fragment_varyings hinput
    have htypes := hsame input.declaration.name (List.mem_map_of_mem hd)
    rw [Symbols.varyingType?_of_mem hd, ← hfeeds.1,
      Symbols.varyingType?_of_mem (run.mem_vertex_varyings houtput)] at htypes
    exact Option.some.inj htypes

end PairRun

/-- In a converted pair each fragment input is fed by one vertex output, and both have the types of
their own stages. All types match exactly when the stages retain every shared varying with the same
type, which for a name that each source declares in one way means that its first declarations in the
two sources have the same type. -/
theorem convertPair_types_of_sources {vertexSource fragmentSource : String} {options : Options}
    {pair : ConvertedPair} (h : (convertPair vertexSource fragmentSource options).1 = .ok pair) :
    ∃ vertex fragment, (ShaderUnit.parse vertexSource .vertex).1 = .ok vertex ∧
      (ShaderUnit.parse fragmentSource .fragment).1 = .ok fragment ∧
      InterfaceTypes vertexSource fragmentSource vertex.symbols fragment.symbols pair := by
  obtain ⟨run⟩ := pairRun_of_convertPair h
  refine ⟨run.vertex, run.fragment, run.parse_vertex, run.parse_fragment, ?_⟩
  constructor
  · exact fun input hinput => run.existsUnique_feeds hinput
  · exact fun output houtput => Symbols.varyingType?_of_mem (run.mem_vertex_varyings houtput)
  · exact fun input hinput => Symbols.varyingType?_of_mem (run.mem_fragment_varyings hinput)
  · exact run.typesMatch_iff
  · intro input hinput output houtput hfeeds hvertex hfragment
    rw [← hfeeds.1] at hvertex
    have hfirst := firstVaryingType?_of_mem run.parse_vertex
      (run.mem_vertex_varyings houtput) hvertex
    have hfirst' := firstVaryingType?_of_mem run.parse_fragment
      (run.mem_fragment_varyings hinput) hfragment
    rw [hfirst', ← hfeeds.1, hfirst, Option.some.injEq]

theorem sample_types_of_sources :
    ∃ pair, (convertPair sampleVertex sampleFragment {}).1 = .ok pair ∧
      ∃ vertex fragment, (ShaderUnit.parse sampleVertex .vertex).1 = .ok vertex ∧
        (ShaderUnit.parse sampleFragment .fragment).1 = .ok fragment ∧
        InterfaceTypes sampleVertex sampleFragment vertex.symbols fragment.symbols pair := by
  obtain ⟨pair, h⟩ := exists_sample_pair
  exact ⟨pair, h, convertPair_types_of_sources h⟩

/-- A varying of two components that the fragment stage reads with four. -/
def narrowVertex : String := "varying vec2 uv;\nvoid main()\x7buv=p;\x7d"

def wideFragment : String := "varying vec4 uv;\nvoid main()\x7bgl_FragColor=uv;\x7d"

/-- The pair is converted all the same, with an input that is wider than the output that feeds it. -/
theorem narrow_output_feeds_wide_input :
    ∃ pair, (convertPair narrowVertex wideFragment {}).1 = .ok pair ∧
      pair.vertex.interface.outputs = [⟨0, ⟨.varying, "vec2", "uv", none⟩⟩] ∧
      pair.fragment.interface.inputs = [⟨0, ⟨.varying, "vec4", "uv", none⟩⟩] ∧
      ¬pair.TypesMatch := by
  have hok : ((convertPair narrowVertex wideFragment {}).1.toOption.any fun pair =>
      pair.vertex.interface.outputs = [⟨0, ⟨.varying, "vec2", "uv", none⟩⟩] ∧
        pair.fragment.interface.inputs = [⟨0, ⟨.varying, "vec4", "uv", none⟩⟩]) = true := by
    decide +kernel
  obtain ⟨pair, hpair, hslots⟩ := exists_ok_of_any hok
  obtain ⟨houtputs, hinputs⟩ := of_decide_eq_true hslots
  refine ⟨pair, hpair, houtputs, hinputs, fun hmatch => ?_⟩
  have htypes := hmatch ⟨0, ⟨.varying, "vec4", "uv", none⟩⟩ (by simp [hinputs])
    ⟨0, ⟨.varying, "vec2", "uv", none⟩⟩ (by simp [houtputs]) ⟨rfl, rfl⟩
  exact absurd htypes (by decide)

end ShaderUplift
