import Mathlib.Data.List.Nodup
import Mathlib.Data.List.Pairwise
import ShaderUplift.Layout.Planner
import ShaderUplift.Proofs.Outcome

/-! What placing the uniforms of a stage can do. `Places` says it once: a uniform takes the field
that an earlier stage gave its name, or a new field at the end of what is planned. Everything else
about a placement is an induction over this relation; the main one keeps the planner packed, that
is, its fields lie one after the other, under distinct names, below its offset. -/

namespace ShaderUplift

open Text

namespace Field

/-- The exact size of all elements. -/
def bytes (f : Field) : Nat := f.type.size * f.arrayLength.getD 1

/-- The exact offset right after the field. -/
def stop (f : Field) : Nat := f.offset + f.bytes

theorem size?_eq_some_iff {f : Field} {n : Nat} :
    f.size? = some n ↔ n = f.bytes ∧ f.bytes < wordBound :=
  checkedMul_eq_some

theorem stop?_eq_some_iff {f : Field} {n : Nat} :
    f.stop? = some n ↔ n = f.stop ∧ f.stop < wordBound := by
  simp only [stop?, Option.bind_eq_some_iff, size?_eq_some_iff, checkedAdd_eq_some]
  constructor
  · rintro ⟨size, ⟨rfl, _⟩, h⟩
    exact h
  · rintro ⟨rfl, h⟩
    exact ⟨f.bytes, ⟨rfl, Nat.lt_of_le_of_lt (Nat.le_add_left _ _) h⟩, rfl, h⟩

/-- One of the fields ends before the other begins. -/
def Apart (f g : Field) : Prop := f.stop ≤ g.offset ∨ g.stop ≤ f.offset

instance : Std.Symm Apart := ⟨fun _ _ h => h.symm⟩

/-- Name, type and length: what a field has of its declaration. -/
def shape (f : Field) : String × ValueType × Option Nat := (f.name, f.type, f.arrayLength)

end Field

/-- Name, type and length of a uniform with a known type. -/
def TypedUniform.shape (u : TypedUniform) : String × ValueType × Option Nat :=
  (u.1.name, u.2, u.1.arrayLength)

theorem ValueType.size_pos (t : ValueType) : 0 < t.size := by cases t <;> decide

theorem ValueType.name_of_ofName? {name : String} {t : ValueType} (h : ofName? name = some t) :
    t.name = name := by
  simpa using List.find?_some h

/-- The known types stand beside the declarations, in their order. -/
theorem typedUniforms_eq_ok {symbols : Symbols} {us : List TypedUniform}
    (h : typedUniforms symbols = .ok us) :
    us.map Prod.fst = symbols.uniforms.entries ∧ ∀ u ∈ us, u.2.name = u.1.type := by
  have htyped : ∀ d (u : TypedUniform), typed d = .ok u → d = u.1 ∧ u.2.name = u.1.type := by
    intro d u hu
    unfold typed at hu
    split at hu
    · next t ht =>
      cases hu
      exact ⟨rfl, ValueType.name_of_ofName? ht⟩
    · cases hu
  have hall := mapM_eq_ok_iff.mp h
  refine ⟨?_, ?_⟩
  · have hmap := map_eq_map_of_forall₂ (f := id) (g := Prod.fst)
      (fun d u hu => (htyped d u hu).1) hall
    rw [← hmap, List.map_id]
  · intro u hu
    obtain ⟨d, _, hd⟩ := exists_of_mem_forall₂ hall hu
    exact (htyped d u hd).2

namespace Planner

/-- The planner after a new uniform. -/
def push (p : Planner) (u : TypedUniform) : Planner :=
  { p with offset := (p.fieldFor u).stop, fields := p.fields ++ [p.fieldFor u] }

/-- The uniforms `us` are placed from `p` on and leave the planner `q` and the placement `r`. -/
inductive Places : Planner → List TypedUniform → Planner → Placement → Prop
  | nil (p : Planner) : Places p [] p ⟨[], []⟩
  | reuse {p q : Planner} {u : TypedUniform} {us : List TypedUniform} {r : Placement} {f : Field}
      (mem : f ∈ p.fields) (same : f.shape = u.shape) (rest : Places p us q r) :
      Places p (u :: us) q ⟨f :: r.fields, r.added⟩
  | fresh {p q : Planner} {u : TypedUniform} {us : List TypedUniform} {r : Placement}
      (new : u.1.name ∉ p.fields.map Field.name) (fits : (p.fieldFor u).stop < wordBound)
      (rest : Places (p.push u) us q r) :
      Places p (u :: us) q ⟨p.fieldFor u :: r.fields, p.fieldFor u :: r.added⟩

theorem agrees_iff {f : Field} {u : TypedUniform} :
    agrees f u = true ↔ f.type = u.2 ∧ f.arrayLength = u.1.arrayLength := by
  simp [agrees]

/-- One step of a placement that succeeds: the uniform takes the field that its name has, or a new
one at the end. -/
theorem place_cons_eq_ok {p q : Planner} {u : TypedUniform} {us : List TypedUniform} {r : Placement}
    (h : p.place (u :: us) = (q, .ok r)) :
    (∃ f r', p.fields.find? (fun f => f.name == u.1.name) = some f ∧ f.shape = u.shape ∧
      p.place us = (q, .ok r') ∧ r = ⟨f :: r'.fields, r'.added⟩) ∨
    ∃ r', u.1.name ∉ p.fields.map Field.name ∧ (p.fieldFor u).stop < wordBound ∧
      (p.push u).place us = (q, .ok r') ∧
      r = ⟨p.fieldFor u :: r'.fields, p.fieldFor u :: r'.added⟩ := by
  rw [place] at h
  split at h
  · next f hf =>
    split at h
    · next hagree =>
      simp only [Prod.mk.injEq] at h
      obtain ⟨hq, hr⟩ := h
      obtain ⟨r', hr', rfl⟩ := map_eq_ok.mp hr
      have hname : f.name = u.1.name := by simpa using List.find?_some hf
      obtain ⟨htype, hlength⟩ := agrees_iff.mp hagree
      refine Or.inl ⟨f, r', hf, ?_, Prod.ext hq hr', rfl⟩
      simp only [Field.shape, TypedUniform.shape, hname, htype, hlength]
    · cases h
  · next hnone =>
    have hnew : u.1.name ∉ p.fields.map Field.name := by
      intro hmem
      obtain ⟨g, hg, hname⟩ := List.mem_map.mp hmem
      have := List.find?_eq_none.mp hnone g hg
      simp [hname] at this
    dsimp only at h
    split at h
    · next stop hstop =>
      obtain ⟨rfl, hfits⟩ := Field.stop?_eq_some_iff.mp hstop
      simp only [Prod.mk.injEq] at h
      obtain ⟨hq, hr⟩ := h
      obtain ⟨r', hr', rfl⟩ := map_eq_ok.mp hr
      exact Or.inr ⟨r', hnew, hfits, Prod.ext hq hr', rfl⟩
    · cases h

theorem places_of_place {p q : Planner} {us : List TypedUniform} {r : Placement}
    (h : p.place us = (q, .ok r)) : Places p us q r := by
  induction us generalizing p q r with
  | nil =>
      cases h
      exact Places.nil p
  | cons u us ih =>
      rcases place_cons_eq_ok h with
        ⟨f, r', hf, hshape, hplace, rfl⟩ | ⟨r', hnew, hfits, hplace, rfl⟩
      · exact Places.reuse (List.mem_of_find?_eq_some hf) hshape (ih hplace)
      · exact Places.fresh hnew hfits (ih hplace)

namespace Places

variable {p q : Planner} {us : List TypedUniform} {r : Placement}

/-- Placing changes the fields and the offset only, and the fields only at their end. -/
theorem frame (h : Places p us q r) :
    q.strategy = p.strategy ∧ q.buffer = p.buffer ∧ q.carried = p.carried ∧
      q.fields = p.fields ++ r.added := by
  induction h with
  | nil p => exact ⟨rfl, rfl, rfl, (List.append_nil _).symm⟩
  | reuse _ _ _ ih => exact ih
  | @fresh p q u us r _ _ _ ih =>
      obtain ⟨hstrategy, hbuffer, hcarried, hfields⟩ := ih
      refine ⟨hstrategy, hbuffer, hcarried, ?_⟩
      rw [hfields, push, List.append_assoc, List.singleton_append]

theorem fields_eq (h : Places p us q r) : q.fields = p.fields ++ r.added := h.frame.2.2.2

/-- Each uniform gets one field, of its own shape, in the order of the uniforms. -/
theorem map_shape (h : Places p us q r) :
    r.fields.map Field.shape = us.map TypedUniform.shape := by
  induction h with
  | nil p => rfl
  | reuse _ same _ ih => rw [List.map_cons, List.map_cons, same, ih]
  | fresh _ _ _ ih => rw [List.map_cons, List.map_cons, ih]; rfl

theorem mem_fields (h : Places p us q r) {f : Field} (hf : f ∈ r.fields) : f ∈ q.fields := by
  induction h with
  | nil p => cases hf
  | reuse mem _ rest ih =>
      rcases List.mem_cons.mp hf with rfl | hf
      · rw [rest.fields_eq]
        exact List.mem_append_left _ mem
      · exact ih hf
  | fresh _ _ rest ih =>
      rcases List.mem_cons.mp hf with rfl | hf
      · rw [rest.fields_eq]
        exact List.mem_append_left _ (List.mem_append_right _ (List.mem_singleton_self _))
      · exact ih hf

end Places

/-- The fields lie one after the other under distinct names, and end at or below the offset, which
is a word. -/
structure Packed (p : Planner) : Prop where
  distinct : (p.fields.map Field.name).Nodup
  apart : p.fields.Pairwise fun f g => f.stop ≤ g.offset
  inside : ∀ f ∈ p.fields, f.stop ≤ p.offset
  word : p.offset < wordBound

namespace Packed

theorem push {p : Planner} (hp : p.Packed) {u : TypedUniform}
    (hnew : u.1.name ∉ p.fields.map Field.name) (hfits : (p.fieldFor u).stop < wordBound) :
    (p.push u).Packed := by
  have hle : p.offset ≤ (p.fieldFor u).stop := Nat.le_add_right _ _
  constructor
  · simp only [Planner.push, List.map_append, List.map_cons, List.map_nil]
    refine List.nodup_append.mpr ⟨hp.distinct, List.nodup_singleton _, ?_⟩
    rintro a ha b hb rfl
    rw [List.mem_singleton.mp hb] at ha
    exact hnew ha
  · simp only [Planner.push]
    refine List.pairwise_append.mpr ⟨hp.apart, List.pairwise_singleton _ _, ?_⟩
    intro f hf g hg
    rw [List.mem_singleton.mp hg]
    exact hp.inside f hf
  · intro f hf
    rcases List.mem_append.mp hf with hf | hf
    · exact Nat.le_trans (hp.inside f hf) hle
    · rw [List.mem_singleton.mp hf]
      exact Nat.le_refl _
  · exact hfits

theorem places {p q : Planner} {us : List TypedUniform} {r : Placement} (h : Places p us q r)
    (hp : p.Packed) : q.Packed := by
  induction h with
  | nil p => exact hp
  | reuse _ _ _ ih => exact ih hp
  | fresh hnew hfits _ ih => exact ih (hp.push hnew hfits)

/-- Rounding the offset up leaves room behind the last field. -/
theorem rounded {p : Planner} (hp : p.Packed) (hfits : roundUp p.offset < wordBound)
    (carried : String) : { p with offset := roundUp p.offset, carried := carried }.Packed :=
  ⟨hp.distinct, hp.apart, fun f hf => Nat.le_trans (hp.inside f hf) (le_roundUp _), hfits⟩

theorem eq_of_name_eq {p : Planner} (hp : p.Packed) {f g : Field} (hf : f ∈ p.fields)
    (hg : g ∈ p.fields) (h : f.name = g.name) : f = g :=
  List.inj_on_of_nodup_map hp.distinct hf hg h

theorem separated {p : Planner} (hp : p.Packed) {f g : Field} (hf : f ∈ p.fields)
    (hg : g ∈ p.fields) (hne : f.name ≠ g.name) : f.Apart g := by
  have hapart : p.fields.Pairwise Field.Apart := hp.apart.imp Or.inl
  exact hapart.forall hf hg fun h => hne (congrArg Field.name h)

theorem size?_eq {p : Planner} (hp : p.Packed) {f : Field} (hf : f ∈ p.fields) :
    f.size? = some f.bytes := by
  have hstop := hp.inside f hf
  have hword := hp.word
  simp only [Field.stop] at hstop
  exact Field.size?_eq_some_iff.mpr ⟨rfl, by omega⟩

end Packed

end Planner

end ShaderUplift
