import Mathlib.Algebra.GroupWithZero.Nat
import Mathlib.Order.Bounds.Defs
import ShaderUplift.Proofs.Layout.Calls

/-! The fields of one stage, for any planner that the stage starts from. New fields are those of the
uniforms whose names are not placed yet. They come in descending order of their types and follow one
another from the offset of the planner on; only the end of the last one is rounded up. -/

namespace ShaderUplift

open Text

namespace Stacked

variable {start stop : Nat} {fs : List Field}

theorem stop_eq (h : Stacked start fs stop) : stop = start + (fs.map Field.bytes).sum := by
  induction fs generalizing start with
  | nil => exact h
  | cons f fs ih =>
      obtain ⟨hoffset, hrest⟩ := h
      calc stop = f.stop + (fs.map Field.bytes).sum := ih hrest
        _ = start + (f.bytes + (fs.map Field.bytes).sum) := by
          rw [Field.stop, hoffset, Nat.add_assoc]
        _ = start + ((f :: fs).map Field.bytes).sum := by rw [List.map_cons, List.sum_cons]

/-- The fields before a field end where it starts. -/
theorem before {front back : List Field} {f : Field}
    (h : Stacked start (front ++ f :: back) stop) : Stacked start front f.offset := by
  induction front generalizing start with
  | nil => exact h.1
  | cons g front ih => exact ⟨h.1, ih h.2⟩

theorem stop_le (h : Stacked start fs stop) {f : Field} (hf : f ∈ fs) : f.stop ≤ stop := by
  induction fs generalizing start with
  | nil => cases hf
  | cons g fs ih =>
      obtain ⟨-, hrest⟩ := h
      rcases List.mem_cons.mp hf with rfl | hf
      · exact hrest.start_le_stop
      · exact ih hrest hf

end Stacked

/-- Rounding up gives the least multiple of the alignment that is not less. -/
theorem isLeast_roundUp (n : Nat) : IsLeast {m | stageAlignment ∣ m ∧ n ≤ m} (roundUp n) := by
  constructor
  · exact ⟨Nat.dvd_of_mod_eq_zero (roundUp_mod n), le_roundUp n⟩
  · rintro m ⟨⟨k, rfl⟩, hle⟩
    have hlt := roundUp_lt n
    obtain ⟨j, hj⟩ := Nat.dvd_of_mod_eq_zero (roundUp_mod n)
    rw [hj] at hlt ⊢
    simp only [stageAlignment] at *
    omega

namespace Planner

/-- Name, type and array length of a field, as in its declaration. -/
def declaredShape (f : Field) : String × String × Option Nat := (f.name, f.type.name, f.arrayLength)

/-- What a stage that is planned from `p` on adds, and what its layout lists. -/
structure PlacesNew (p : Planner) (symbols : Symbols) (q : Planner) (layout : StageLayout)
    (added : List Field) : Prop where
  fields_eq : q.fields = p.fields ++ added
  /-- The new fields are the uniforms whose names are not placed, larger types first and those of
  one type in their order. -/
  new_ones : added.map declaredShape =
    ((byDescendingType symbols.uniforms.entries).filter fun d =>
      d.name ∉ p.fields.map Field.name).map fun d => (d.name, d.type, d.arrayLength)
  sizes : ∀ f ∈ added, f.size? = some f.bytes
  offsets : ∀ before f after, added = before ++ f :: after →
    f.offset = p.offset + (before.map Field.bytes).sum
  rounded : IsLeast {n | 16 ∣ n ∧ p.offset + (added.map Field.bytes).sum ≤ n} q.offset
  /-- The layout lists the new fields, and the fields that the other names have already. -/
  listed : layout.fields.Perm
    (added ++ (byDescendingType symbols.uniforms.entries).filterMap fun d => p.lookup d.name)
  ascending : layout.fields.Pairwise fun f g => f.offset ≤ g.offset

/-- Placing lists the new fields and the fields that are found, and adds the new ones only. -/
theorem place_lists {p q : Planner} {us : List TypedUniform} {r : Placement}
    (h : p.place us = (q, .ok r)) (hnames : (us.map fun u => u.1.name).Nodup) :
    r.added.map Field.shape =
        (us.filter fun u => (p.lookup u.1.name).isNone).map TypedUniform.shape ∧
      r.fields.Perm (r.added ++ us.filterMap fun u => p.lookup u.1.name) := by
  induction us generalizing p q r with
  | nil =>
      cases h
      exact ⟨rfl, List.Perm.nil⟩
  | cons u us ih =>
      obtain ⟨hname, hnames⟩ := List.nodup_cons.mp hnames
      rcases place_cons_eq_ok h with ⟨f, r', hf, -, hplace, rfl⟩ | ⟨r', hnew, -, hplace, rfl⟩
      · obtain ⟨hadded, hfields⟩ := ih hplace hnames
        have hlookup : p.lookup u.1.name = some f := hf
        have hfound : (u :: us).filterMap (fun v => p.lookup v.1.name) =
            f :: us.filterMap fun v => p.lookup v.1.name := by
          rw [List.filterMap_cons, hlookup]
        rw [List.filter_cons_of_neg (by simp [hlookup]), hfound]
        exact ⟨hadded, (hfields.cons f).trans List.perm_middle.symm⟩
      · obtain ⟨hadded, hfields⟩ := ih hplace hnames
        have hlookup : p.lookup u.1.name = none := lookup_eq_none_iff.mpr hnew
        have hrest : ∀ v ∈ us, (p.push u).lookup v.1.name = p.lookup v.1.name := by
          intro v hv
          apply lookup_push
          intro heq
          exact hname (List.mem_map.mpr ⟨v, hv, heq.symm⟩)
        have hfilter : us.filter (fun v => ((p.push u).lookup v.1.name).isNone) =
            us.filter fun v => (p.lookup v.1.name).isNone :=
          List.filter_congr fun v hv => by rw [hrest v hv]
        have hfound : (u :: us).filterMap (fun v => p.lookup v.1.name) =
            us.filterMap fun v => (p.push u).lookup v.1.name := by
          rw [List.filterMap_cons, hlookup]
          exact (List.filterMap_congr hrest).symm
        rw [hfilter] at hadded
        rw [List.filter_cons_of_pos (by simp [hlookup]), hfound]
        exact ⟨congrArg (List.cons u.shape) hadded, hfields.cons _⟩

/-- Fields with the shapes of the new uniforms have the names, types and lengths that the uniforms
are declared with. -/
theorem map_declaredShape {p : Planner} {us : List TypedUniform} {fs : List Field}
    (htypes : ∀ u ∈ us, u.2.name = u.1.type)
    (h : fs.map Field.shape =
      (us.filter fun u => (p.lookup u.1.name).isNone).map TypedUniform.shape) :
    fs.map declaredShape =
      ((us.map Prod.fst).filter fun d => d.name ∉ p.fields.map Field.name).map fun d =>
        (d.name, d.type, d.arrayLength) := by
  have hnew : us.filter (fun u => (p.lookup u.1.name).isNone) =
      us.filter fun u => u.1.name ∉ p.fields.map Field.name := by
    refine List.filter_congr fun u _ => ?_
    rw [Bool.eq_iff_iff, Option.isNone_iff_eq_none, lookup_eq_none_iff, decide_eq_true_eq]
  calc fs.map declaredShape
      = (fs.map Field.shape).map fun x => (x.1, x.2.1.name, x.2.2) := by
        rw [List.map_map]
        rfl
    _ = (us.filter fun u => u.1.name ∉ p.fields.map Field.name).map fun u =>
          (u.1.name, u.2.name, u.1.arrayLength) := by
        rw [h, hnew, List.map_map]
        rfl
    _ = (us.filter fun u => u.1.name ∉ p.fields.map Field.name).map fun u =>
          (u.1.name, u.1.type, u.1.arrayLength) := by
        refine List.map_congr_left fun u hu => ?_
        rw [htypes u (List.mem_filter.mp hu).1]
    _ = ((us.map Prod.fst).filter fun d => d.name ∉ p.fields.map Field.name).map fun d =>
          (d.name, d.type, d.arrayLength) := by
        rw [List.filter_map, List.map_map]
        rfl

/-- A stage that is planned adds the uniforms whose names were not placed before, in descending order
of their types and in declaration order within a type. Each starts at the old size of the planner plus
the exact sizes of the new ones before it, and the new size is the end of the last one, rounded up to
the least multiple of 16. The layout lists the new fields and the old fields of the other names by
their offsets. -/
theorem planStage_places_new {p q : Planner} {symbols : Symbols} {layout : StageLayout}
    (h : p.planStage symbols = (q, .ok layout)) : ∃ added, PlacesNew p symbols q layout added := by
  obtain ⟨s⟩ := stagePlan_of_planStage h
  obtain ⟨hdeclared, htypes⟩ := typedUniforms_eq_ok s.typed_eq
  obtain ⟨hall, hnames⟩ := byRank_spec s.typed_eq
  obtain ⟨hadded, hlisted⟩ := place_lists s.place_eq hnames
  have horder : (byRank s.uniforms).map Prod.fst = byDescendingType symbols.uniforms.entries := by
    rw [map_fst_byRank htypes, hdeclared]
  have hstacked := s.places.stacked
  refine ⟨s.placement.added, s.fields_eq, ?_, ?_, ?_, ?_, ?_, s.ascending⟩
  · rw [← horder]
    exact map_declaredShape (fun u hu => (hall u hu).2) hadded
  · intro f hf
    have hfits := s.fits
    have hstop := hstacked.stop_le hf
    have hround := le_roundUp s.placed.offset
    rw [Field.stop] at hstop
    exact Field.size?_eq_some_iff.mpr ⟨rfl, by omega⟩
  · intro before f after heq
    rw [heq] at hstacked
    exact hstacked.before.stop_eq
  · have hended : q.offset = roundUp s.placed.offset := congrArg Planner.offset s.ended
    rw [hended, ← hstacked.stop_eq]
    exact isLeast_roundUp _
  · apply s.perm_placement.trans
    rw [← horder, List.filterMap_map]
    exact hlisted

/-- A planner with one uniform, and a stage that uses it again between new ones. -/
def tintPlanner : Planner := ⟨.pushConstant, none, 16, [⟨"tint", .vec4, none, 0⟩], ""⟩

def mixedStage : Symbols :=
  ((Symbols.empty.insert ⟨.uniform, "float", "t", some 2⟩).insert
    ⟨.uniform, "vec4", "tint", none⟩).insert ⟨.uniform, "mat3", "m", none⟩

/-- The planner once the new uniforms of the stage are placed. -/
def mixedPlanner : Planner :=
  { tintPlanner with
    offset := 60
    fields := [⟨"tint", .vec4, none, 0⟩, ⟨"m", .mat3, none, 16⟩, ⟨"t", .float, some 2, 52⟩] }

theorem mixedStage_places_new :
    ∃ layout, tintPlanner.planStage mixedStage = ({ mixedPlanner with offset := 64 }, .ok layout) ∧
      ∃ added,
        PlacesNew tintPlanner mixedStage { mixedPlanner with offset := 64 } layout added := by
  have htyped : typedUniforms mixedStage = .ok [(⟨.uniform, "float", "t", some 2⟩, .float),
      (⟨.uniform, "vec4", "tint", none⟩, .vec4), (⟨.uniform, "mat3", "m", none⟩, .mat3)] := by
    decide +kernel
  have hsorted : byRank [(⟨.uniform, "float", "t", some 2⟩, .float),
      (⟨.uniform, "vec4", "tint", none⟩, .vec4), (⟨.uniform, "mat3", "m", none⟩, .mat3)] =
      [(⟨.uniform, "mat3", "m", none⟩, .mat3), (⟨.uniform, "vec4", "tint", none⟩, .vec4),
        (⟨.uniform, "float", "t", some 2⟩, .float)] := by
    simp [byRank, List.mergeSort, ValueType.rank]
  have hplace : tintPlanner.place [(⟨.uniform, "mat3", "m", none⟩, .mat3),
      (⟨.uniform, "vec4", "tint", none⟩, .vec4), (⟨.uniform, "float", "t", some 2⟩, .float)] =
      (mixedPlanner, .ok ⟨[⟨"m", .mat3, none, 16⟩, ⟨"tint", .vec4, none, 0⟩,
        ⟨"t", .float, some 2, 52⟩], [⟨"m", .mat3, none, 16⟩, ⟨"t", .float, some 2, 52⟩]⟩) := by
    decide +kernel
  have hplan : ∃ layout,
      tintPlanner.planStage mixedStage = ({ mixedPlanner with offset := 64 }, .ok layout) := by
    rw [planStage, htyped]
    simp only [hsorted, hplace]
    exact ⟨_, rfl⟩
  obtain ⟨layout, hlayout⟩ := hplan
  exact ⟨layout, hlayout, planStage_places_new hlayout⟩

end Planner

end ShaderUplift
