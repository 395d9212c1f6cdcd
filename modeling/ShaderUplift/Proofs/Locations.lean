import ShaderUplift.Proofs.Classification
import ShaderUplift.Proofs.Conversion

/-! Locations of the two stages of a converted pair. The vertex stage numbers its attributes and its
varyings from zero in the order of their tables; the map it records holds nothing but its outputs, so
a fragment input that is found there has the location of the output of its name. -/

namespace ShaderUplift

theorem map_index_numbered (t : Table Declaration) :
    (numbered t).map Slot.index = List.range (numbered t).length := by
  rw [numbered, List.map_map, List.length_map, List.length_zipIdx, List.range_eq_range',
    ← List.zipIdx_map_snd 0 t.entries]
  rfl

theorem map_declaration_numbered (t : Table Declaration) :
    (numbered t).map Slot.declaration = t.entries := by
  rw [numbered, List.map_map]
  exact List.zipIdx_map_fst 0 t.entries

/-- The location of an output. -/
def Slot.location (s : Slot Nat) : Location := ⟨s.declaration.name, s.index⟩

/-- Recording outputs adds their locations and nothing else. -/
theorem mem_record {ls : Locations} {outputs : List (Slot Nat)} {l : Location}
    (h : l ∈ (ls.record outputs).entries) : l ∈ ls.entries ∨ ∃ s ∈ outputs, l = s.location := by
  induction outputs generalizing ls with
  | nil => exact Or.inl h
  | cons s outputs ih =>
      rw [Locations.record, List.foldl_cons] at h
      rcases ih h with h | ⟨t, ht, rfl⟩
      · rcases Table.mem_insert h with rfl | h
        · exact Or.inr ⟨s, List.mem_cons_self, rfl⟩
        · exact Or.inl h
      · exact Or.inr ⟨t, List.mem_cons_of_mem _ ht, rfl⟩

theorem find?_record {outputs : List (Slot Nat)} {name : String} {index : Nat}
    (h : (Locations.record .empty outputs).find? name = some index) :
    ∃ s ∈ outputs, s.declaration.name = name ∧ s.index = index := by
  obtain ⟨l, hl, rfl⟩ := Option.map_eq_some_iff.mp h
  obtain ⟨hmem, rfl⟩ := Table.get?_eq_some_iff.mp hl
  rcases mem_record hmem with hnil | ⟨s, hs, rfl⟩
  · cases hnil
  · exact ⟨s, hs, rfl, rfl⟩

theorem matchVarying_eq_ok {locations : Locations} {d : Declaration} {s : Slot Nat}
    (h : matchVarying locations d = .ok s) :
    s.declaration = d ∧ locations.find? d.name = some s.index := by
  unfold matchVarying at h
  split at h
  · next index hindex =>
    cases h
    exact ⟨rfl, hindex⟩
  · cases h

/-- The inputs of a fragment stage are its varyings, at the locations found for their names. -/
theorem fragmentInterface_eq_ok {symbols : Symbols} {locations : Locations}
    {descriptors descriptors' : Descriptors} {interface : Interface}
    (h : fragmentInterface symbols locations descriptors = .ok (interface, descriptors')) :
    interface.inputs.map Slot.declaration = symbols.varyings.entries ∧
      ∀ s ∈ interface.inputs, locations.find? s.declaration.name = some s.index := by
  unfold fragmentInterface at h
  split at h
  · cases h
  · next inputs hinputs =>
    cases h
    have hall := mapM_eq_ok_iff.mp hinputs
    refine ⟨?_, ?_⟩
    · have hmap := map_eq_map_of_forall₂ (f := id) (g := Slot.declaration)
        (fun d s hs => (matchVarying_eq_ok hs).1.symm) hall
      rw [← hmap, List.map_id]
    · intro s hs
      obtain ⟨d, -, hd⟩ := exists_of_mem_forall₂ hall hs
      obtain ⟨rfl, hfind⟩ := matchVarying_eq_ok hd
      exact hfind

/-- The slots stand for the declarations of the table in its order, which no two share a name, at
the locations from zero on. -/
structure Numbered (t : Table Declaration) (slots : List (Slot Nat)) : Prop where
  declared : slots.map Slot.declaration = t.entries
  locations : slots.map Slot.index = List.range slots.length
  distinct : (slots.map fun s => s.declaration.name).Nodup

theorem numbered_spec (t : Table Declaration) : Numbered t (numbered t) := by
  refine ⟨map_declaration_numbered t, map_index_numbered t, ?_⟩
  have hnames : ((numbered t).map fun s => s.declaration.name) = t.names := by
    rw [Table.names, ← map_declaration_numbered t, List.map_map]
    rfl
  rw [hnames]
  exact t.nodup

/-- The interfaces of a pair fit the varyings and attributes of its stages and each other. -/
structure MatchedInterfaces (vertex fragment : Symbols) (pair : ConvertedPair) : Prop where
  inputs : Numbered vertex.attributes pair.vertex.interface.inputs
  outputs : Numbered vertex.varyings pair.vertex.interface.outputs
  /-- An array is divided into its elements, so that each output has one location. -/
  outputs_single : ∀ s ∈ pair.vertex.interface.outputs, s.declaration.arrayLength = none
  fragment_declared :
    pair.fragment.interface.inputs.map Slot.declaration = fragment.varyings.entries
  matched : ∀ s ∈ pair.fragment.interface.inputs, ∃ t ∈ pair.vertex.interface.outputs,
    t.declaration.name = s.declaration.name ∧ t.index = s.index
  fragment_distinct : (pair.fragment.interface.inputs.map Slot.index).Nodup
  fragment_below : ∀ s ∈ pair.fragment.interface.inputs,
    s.index < pair.vertex.interface.outputs.length

namespace Numbered

variable {t : Table Declaration} {slots : List (Slot Nat)}

theorem index_lt (h : Numbered t slots) {s : Slot Nat} (hs : s ∈ slots) :
    s.index < slots.length := by
  have hmem : s.index ∈ slots.map Slot.index := List.mem_map_of_mem hs
  rw [h.locations] at hmem
  exact List.mem_range.mp hmem

theorem eq_of_index_eq (h : Numbered t slots) {a b : Slot Nat} (ha : a ∈ slots) (hb : b ∈ slots)
    (heq : a.index = b.index) : a = b := by
  have hnodup : (slots.map Slot.index).Nodup := by
    rw [h.locations]
    exact List.nodup_range
  exact List.inj_on_of_nodup_map hnodup ha hb heq

end Numbered

/-- Inputs with distinct names that are matched with outputs have distinct locations. -/
theorem nodup_index_of_matched {t : Table Declaration} {inputs outputs : List (Slot Nat)}
    (houtputs : Numbered t outputs) (hnames : (inputs.map fun s => s.declaration.name).Nodup)
    (hmatched : ∀ s ∈ inputs, ∃ o ∈ outputs,
      o.declaration.name = s.declaration.name ∧ o.index = s.index) :
    (inputs.map Slot.index).Nodup := by
  rw [List.Nodup, List.pairwise_map]
  refine List.Pairwise.imp_of_mem ?_ (List.pairwise_map.mp hnames)
  intro a b ha hb hne heq
  obtain ⟨o, ho, hname, hindex⟩ := hmatched a ha
  obtain ⟨o', ho', hname', hindex'⟩ := hmatched b hb
  have hsame : o = o' := houtputs.eq_of_index_eq ho ho' (by rw [hindex, hindex', heq])
  subst hsame
  exact hne (hname.symm.trans hname')

namespace PairRun

variable {vertexSource fragmentSource : String} {options : Options} {pair : ConvertedPair}

theorem vertex_numbered (run : PairRun vertexSource fragmentSource options pair) :
    Numbered run.vertex.symbols.attributes pair.vertex.interface.inputs ∧
      Numbered run.vertex.symbols.varyings pair.vertex.interface.outputs := by
  rw [← run.interface_vertex]
  exact ⟨numbered_spec _, numbered_spec _⟩

theorem fragment_matched (run : PairRun vertexSource fragmentSource options pair) {s : Slot Nat}
    (hs : s ∈ pair.fragment.interface.inputs) : ∃ t ∈ pair.vertex.interface.outputs,
      t.declaration.name = s.declaration.name ∧ t.index = s.index := by
  have hfind := (fragmentInterface_eq_ok run.interface_fragment).2 s hs
  rw [← run.interface_vertex]
  exact find?_record hfind

end PairRun

/-- In a converted pair the inputs and the outputs of the vertex stage are numbered from zero in the
order of their tables, and each fragment input has the location of the vertex output of its name,
so that the fragment locations are distinct and below the number of outputs. -/
theorem convertPair_locations_match {vertexSource fragmentSource : String} {options : Options}
    {pair : ConvertedPair} (h : (convertPair vertexSource fragmentSource options).1 = .ok pair) :
    ∃ vertex fragment, (ShaderUnit.parse vertexSource .vertex).1 = .ok vertex ∧
      (ShaderUnit.parse fragmentSource .fragment).1 = .ok fragment ∧
      MatchedInterfaces vertex.symbols fragment.symbols pair := by
  obtain ⟨run⟩ := pairRun_of_convertPair h
  obtain ⟨hinputs, houtputs⟩ := run.vertex_numbered
  have hdeclared := (fragmentInterface_eq_ok run.interface_fragment).1
  refine ⟨run.vertex, run.fragment, run.parse_vertex, run.parse_fragment, ?_⟩
  constructor
  · exact hinputs
  · exact houtputs
  · intro s hs
    have hmem : s.declaration ∈ run.vertex.symbols.varyings.entries :=
      houtputs.declared ▸ List.mem_map_of_mem hs
    exact arrayLength_of_mem_varyings run.parse_vertex hmem
  · exact hdeclared
  · exact fun s hs => run.fragment_matched hs
  · refine nodup_index_of_matched houtputs ?_ fun s hs => run.fragment_matched hs
    have hnames := run.fragment.symbols.varyings.nodup
    rw [← hdeclared, List.map_map] at hnames
    exact hnames
  · intro s hs
    obtain ⟨t, ht, -, hindex⟩ := run.fragment_matched hs
    rw [← hindex]
    exact houtputs.index_lt ht

theorem sample_locations_match :
    ∃ pair, (convertPair sampleVertex sampleFragment {}).1 = .ok pair ∧
      ∃ vertex fragment, (ShaderUnit.parse sampleVertex .vertex).1 = .ok vertex ∧
        (ShaderUnit.parse sampleFragment .fragment).1 = .ok fragment ∧
        MatchedInterfaces vertex.symbols fragment.symbols pair := by
  obtain ⟨pair, h⟩ := exists_sample_pair
  exact ⟨pair, h, convertPair_locations_match h⟩

end ShaderUplift
