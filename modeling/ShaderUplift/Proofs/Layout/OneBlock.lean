import ShaderUplift.Proofs.Classification
import ShaderUplift.Proofs.Conversion

/-! The uniforms of a converted pair as one block of memory. Each stage lists its own uniforms; both
lists are parts of what one planner placed, so a shared uniform has one place, different uniforms
never share a byte, and all of them lie inside the size of the block. -/

namespace ShaderUplift

/-- The field takes up this byte of the block. -/
def Field.Occupies (f : Field) (byte : Nat) : Prop :=
  ∃ size, f.size? = some size ∧ f.offset ≤ byte ∧ byte < f.offset + size

/-- Each uniform of the table has exactly one field, with its declared type and length, and there
are no other fields. -/
def DeclaredOnce (uniforms : Table Declaration) (fields : List Field) : Prop :=
  (∀ d ∈ uniforms.entries, ∃ f, (fields.filter fun g => g.name = d.name) = [f] ∧
    f.type.name = d.type ∧ f.arrayLength = d.arrayLength) ∧
  ∀ f ∈ fields, f.name ∈ uniforms.names

/-- The layouts of a pair describe one block for the uniforms of its two stages. -/
structure OneBlock (vertex fragment : Symbols) (pair : ConvertedPair) : Prop where
  vertex_once : DeclaredOnce vertex.uniforms pair.vertex.layout.fields
  fragment_once : DeclaredOnce fragment.uniforms pair.fragment.layout.fields
  shared : ∀ f ∈ pair.vertex.layout.fields, ∀ g ∈ pair.fragment.layout.fields,
    f.name = g.name → f = g
  disjoint : ∀ f ∈ pair.vertex.layout.fields ++ pair.fragment.layout.fields,
    ∀ g ∈ pair.vertex.layout.fields ++ pair.fragment.layout.fields, f.name ≠ g.name →
      ∀ byte, ¬(f.Occupies byte ∧ g.Occupies byte)
  bounded : ∀ f ∈ pair.vertex.layout.fields ++ pair.fragment.layout.fields,
    ∃ size, f.size? = some size ∧ f.offset + size ≤ pair.size
  vertex_ascending : (pair.vertex.layout.fields.map Field.offset).Pairwise (· < ·)
  fragment_ascending : (pair.fragment.layout.fields.map Field.offset).Pairwise (· < ·)
  aligned : pair.size % 16 = 0

theorem filter_name_eq_singleton {fields : List Field} (hn : (fields.map Field.name).Nodup)
    {f : Field} (hf : f ∈ fields) : (fields.filter fun g => g.name = f.name) = [f] := by
  induction fields with
  | nil => cases hf
  | cons g fields ih =>
      simp only [List.map_cons, List.nodup_cons] at hn
      rcases List.mem_cons.mp hf with rfl | hf
      · have htail : (fields.filter fun h => h.name = f.name) = [] := by
          rw [List.filter_eq_nil_iff]
          intro h hh heq
          exact hn.1 (of_decide_eq_true heq ▸ List.mem_map_of_mem hh)
        rw [List.filter_cons_of_pos (by simp), htail]
      · have hne : g.name ≠ f.name := fun heq => hn.1 (heq ▸ List.mem_map_of_mem hf)
        rw [List.filter_cons_of_neg (by simpa using hne), ih hn.2 hf]

namespace Planner.StagePlan

variable {p q : Planner} {symbols : Symbols} {layout : StageLayout}

theorem declaredOnce (s : StagePlan p symbols q layout) :
    DeclaredOnce symbols.uniforms layout.fields := by
  refine ⟨?_, ?_⟩
  · intro d hd
    obtain ⟨f, hf, hname, htype, hlength⟩ := s.exists_field hd
    refine ⟨f, ?_, htype, hlength⟩
    rw [← hname]
    exact filter_name_eq_singleton s.names_nodup hf
  · intro f hf
    exact s.names_perm.mem_iff.mp (List.mem_map_of_mem hf)

/-- With a valid length a field takes up at least one byte. -/
theorem bytes_pos (s : StagePlan p symbols q layout)
    (hvalid : ∀ d ∈ symbols.uniforms.entries, ValidLength d.arrayLength) {f : Field}
    (hf : f ∈ layout.fields) : 0 < f.bytes := by
  obtain ⟨d, hd, -, -, hlength⟩ := s.exists_declaration hf
  have hcount : 0 < f.arrayLength.getD 1 := by
    rw [hlength]
    cases hn : d.arrayLength with
    | none => exact Nat.one_pos
    | some n => exact (hvalid d hd n hn).1
  exact Nat.mul_pos f.type.size_pos hcount

/-- Sorted fields with distinct names that take up bytes have strictly ascending offsets. -/
theorem strictly_ascending (s : StagePlan p symbols q layout) (hp : p.Packed)
    (hvalid : ∀ d ∈ symbols.uniforms.entries, ValidLength d.arrayLength) :
    (layout.fields.map Field.offset).Pairwise (· < ·) := by
  rw [List.pairwise_map]
  have hnames : layout.fields.Pairwise fun f g => f.name ≠ g.name :=
    List.pairwise_map.mp s.names_nodup
  refine List.Pairwise.imp_of_mem ?_ (s.ascending.and hnames)
  rintro f g hf hg ⟨hle, hne⟩
  have hpos := s.bytes_pos hvalid hf
  have hpos' := s.bytes_pos hvalid hg
  have happart := (s.packed hp).separated (s.mem_fields hf) (s.mem_fields hg) hne
  simp only [Field.Apart, Field.stop] at happart
  omega

end Planner.StagePlan

namespace PairRun

variable {vertexSource fragmentSource : String} {options : Options} {pair : ConvertedPair}

theorem packed_start (run : PairRun vertexSource fragmentSource options pair) :
    run.start.Packed :=
  Planner.packed_of_new run.new_eq

theorem packed_middle (run : PairRun vertexSource fragmentSource options pair) :
    run.middle.Packed := by
  obtain ⟨v⟩ := run.vertexPlan
  exact v.packed run.packed_start

theorem packed_last (run : PairRun vertexSource fragmentSource options pair) : run.last.Packed := by
  obtain ⟨f⟩ := run.fragmentPlan
  exact f.packed run.packed_middle

/-- The fields of both stages are fields of the planner at the end. -/
theorem mem_last (run : PairRun vertexSource fragmentSource options pair) {f : Field}
    (hf : f ∈ pair.vertex.layout.fields ++ pair.fragment.layout.fields) : f ∈ run.last.fields := by
  obtain ⟨v⟩ := run.vertexPlan
  obtain ⟨fr⟩ := run.fragmentPlan
  rcases List.mem_append.mp hf with hf | hf
  · rw [fr.fields_eq]
    exact List.mem_append_left _ (v.mem_fields hf)
  · exact fr.mem_fields hf

theorem disjoint_fields (run : PairRun vertexSource fragmentSource options pair) {f g : Field}
    (hf : f ∈ run.last.fields) (hg : g ∈ run.last.fields) (hne : f.name ≠ g.name) (byte : Nat) :
    ¬(f.Occupies byte ∧ g.Occupies byte) := by
  rintro ⟨⟨size, hsize, hfrom, hto⟩, ⟨size', hsize', hfrom', hto'⟩⟩
  obtain ⟨rfl, -⟩ := Field.size?_eq_some_iff.mp hsize
  obtain ⟨rfl, -⟩ := Field.size?_eq_some_iff.mp hsize'
  have happart := run.packed_last.separated hf hg hne
  simp only [Field.Apart, Field.stop] at happart
  omega

theorem bounded_field (run : PairRun vertexSource fragmentSource options pair) {f : Field}
    (hf : f ∈ run.last.fields) : ∃ size, f.size? = some size ∧ f.offset + size ≤ pair.size := by
  refine ⟨f.bytes, run.packed_last.size?_eq hf, ?_⟩
  rw [run.size_eq]
  exact run.packed_last.inside f hf

end PairRun

/-- The uniforms of a converted pair lie in one block: every retained uniform has its field, a name
has one field in both stages, different names never share a byte, and all fields end inside the
aligned size of the block. -/
theorem convertPair_uniforms_one_block {vertexSource fragmentSource : String} {options : Options}
    {pair : ConvertedPair} (h : (convertPair vertexSource fragmentSource options).1 = .ok pair) :
    ∃ vertex fragment, (ShaderUnit.parse vertexSource .vertex).1 = .ok vertex ∧
      (ShaderUnit.parse fragmentSource .fragment).1 = .ok fragment ∧
      OneBlock vertex.symbols fragment.symbols pair := by
  obtain ⟨run⟩ := pairRun_of_convertPair h
  obtain ⟨v⟩ := run.vertexPlan
  obtain ⟨f⟩ := run.fragmentPlan
  refine ⟨run.vertex, run.fragment, run.parse_vertex, run.parse_fragment, ?_⟩
  constructor
  · exact v.declaredOnce
  · exact f.declaredOnce
  · intro a ha b hb hname
    exact run.packed_last.eq_of_name_eq (run.mem_last (List.mem_append_left _ ha))
      (run.mem_last (List.mem_append_right _ hb)) hname
  · intro a ha b hb hne
    exact run.disjoint_fields (run.mem_last ha) (run.mem_last hb) hne
  · intro a ha
    exact run.bounded_field (run.mem_last ha)
  · exact v.strictly_ascending run.packed_start
      fun d hd => validLength_of_mem_uniforms run.parse_vertex hd
  · exact f.strictly_ascending run.packed_middle
      fun d hd => validLength_of_mem_uniforms run.parse_fragment hd
  · rw [run.size_eq]
    exact f.offset_mod

theorem sample_uniforms_one_block :
    ∃ pair, (convertPair sampleVertex sampleFragment {}).1 = .ok pair ∧
      ∃ vertex fragment, (ShaderUnit.parse sampleVertex .vertex).1 = .ok vertex ∧
        (ShaderUnit.parse sampleFragment .fragment).1 = .ok fragment ∧
        OneBlock vertex.symbols fragment.symbols pair := by
  obtain ⟨pair, h⟩ := exists_sample_pair
  exact ⟨pair, h, convertPair_uniforms_one_block h⟩

end ShaderUplift
