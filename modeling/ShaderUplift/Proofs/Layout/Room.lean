import ShaderUplift.Proofs.Layout.StagePlan
import ShaderUplift.Proofs.Layout.Totals

/-! What a planner requires of the uniforms of a stage. A uniform whose name is placed already has
to agree with its field; the others follow one another from the offset of the planner on, and each
has to end at a word, the rounded end of the last one included. -/

namespace ShaderUplift

open Text

namespace Planner

/-- The field that is placed under a name. -/
def lookup (p : Planner) (name : String) : Option Field :=
  p.fields.find? fun f => f.name == name

/-- The uniforms whose names the planner has not placed. -/
def newOnes (p : Planner) (us : List TypedUniform) : List Declaration :=
  (us.filter fun u => (p.lookup u.1.name).isNone).map Prod.fst

/-- What the planner requires of a uniform that is placed after some others. -/
def placeRequirement (p : Planner) (earlier : List TypedUniform) (u : TypedUniform) :
    Option ConversionError :=
  match p.lookup u.1.name with
  | some f => require (agrees f u = true) (conflict f u)
  | none =>
    require (p.offset + blockBytes (p.newOnes (earlier ++ [u])) < wordBound)
      (.blockTooLarge u.1.name)

/-- What the planner requires of a stage whose uniforms are placed in this order. -/
def stageRequirements (p : Planner) (us : List TypedUniform) : List (Option ConversionError) :=
  eachAfter p.placeRequirement [] us ++
    [require (roundUp (p.offset + blockBytes (p.newOnes us)) < wordBound)
      (.blockTooLarge (lastName ((p.newOnes us).map Declaration.name)))]

theorem lookup_eq_none_iff {p : Planner} {name : String} :
    p.lookup name = none ↔ name ∉ p.fields.map Field.name := by
  simp [lookup]

theorem lookup_push {p : Planner} {u : TypedUniform} {name : String} (h : u.1.name ≠ name) :
    (p.push u).lookup name = p.lookup name := by
  simp [lookup, push, fieldFor, h]

theorem newOnes_append (p : Planner) (us vs : List TypedUniform) :
    p.newOnes (us ++ vs) = p.newOnes us ++ p.newOnes vs := by
  rw [newOnes, List.filter_append, List.map_append]
  rfl

theorem newOnes_cons_of_some {p : Planner} {u : TypedUniform} {f : Field}
    (h : p.lookup u.1.name = some f) (us : List TypedUniform) :
    p.newOnes (u :: us) = p.newOnes us := by
  simp [newOnes, h]

theorem newOnes_cons_of_none {p : Planner} {u : TypedUniform} (h : p.lookup u.1.name = none)
    (us : List TypedUniform) : p.newOnes (u :: us) = u.1 :: p.newOnes us := by
  simp [newOnes, h]

theorem newOnes_congr {p q : Planner} {us : List TypedUniform}
    (h : ∀ u ∈ us, p.lookup u.1.name = q.lookup u.1.name) : p.newOnes us = q.newOnes us := by
  refine congrArg (List.map Prod.fst) (List.filter_congr fun u hu => ?_)
  rw [h u hu]

theorem bytes_fieldFor {p : Planner} {u : TypedUniform} (h : u.2.name = u.1.type) :
    (p.fieldFor u).bytes = u.1.bytes :=
  (bytes_of_typed h).symm

theorem stop?_fieldFor {p : Planner} {u : TypedUniform} (h : u.2.name = u.1.type) :
    (p.fieldFor u).stop? =
      if p.offset + u.1.bytes < wordBound then some (p.fieldFor u).stop else none := by
  have hstop : (p.fieldFor u).stop = p.offset + u.1.bytes := by
    rw [Field.stop, bytes_fieldFor h]
    rfl
  split
  · next hfits => exact Field.stop?_eq_some_iff.mpr ⟨rfl, hstop ▸ hfits⟩
  · next hfits =>
    cases h : (p.fieldFor u).stop? with
    | none => rfl
    | some n => exact absurd (hstop ▸ (Field.stop?_eq_some_iff.mp h).2) hfits

/-- In their order too the uniforms of a stage have their declared types and distinct names. -/
theorem byRank_spec {symbols : Symbols} {us : List TypedUniform}
    (h : typedUniforms symbols = .ok us) :
    (∀ u ∈ byRank us, u.1 ∈ symbols.uniforms.entries ∧ u.2.name = u.1.type) ∧
      ((byRank us).map fun u => u.1.name).Nodup := by
  obtain ⟨hdeclared, htypes⟩ := typedUniforms_eq_ok h
  have hperm : (byRank us).Perm us := List.mergeSort_perm _ _
  constructor
  · intro u hu
    have hu := hperm.mem_iff.mp hu
    exact ⟨hdeclared ▸ List.mem_map_of_mem hu, htypes u hu⟩
  · have hnodup := symbols.uniforms.nodup
    rw [← hdeclared, List.map_map] at hnodup
    exact ((hperm.map _).nodup_iff).mpr hnodup

/-- Placing from `q`, which is `p` after the uniforms `earlier`, settles the requirements of `p`. -/
theorem settles_place_after {p q : Planner} {earlier us : List TypedUniform}
    (htypes : ∀ u ∈ us, u.2.name = u.1.type) (hnames : (us.map fun u => u.1.name).Nodup)
    (hoffset : q.offset = p.offset + blockBytes (p.newOnes earlier))
    (hlookup : ∀ u ∈ us, q.lookup u.1.name = p.lookup u.1.name) :
    Settles (eachAfter p.placeRequirement earlier us) (q.place us).2 := by
  induction us generalizing q earlier with
  | nil => rfl
  | cons u us ih =>
      obtain ⟨htype, htypes⟩ := List.forall_mem_cons.mp htypes
      obtain ⟨hu, hrest⟩ := List.forall_mem_cons.mp hlookup
      obtain ⟨hname, hnames⟩ := List.nodup_cons.mp hnames
      rw [eachAfter, place, placeRequirement, ← hu]
      change Settles _ (Prod.snd (match q.lookup u.1.name with | some f => _ | none => _))
      cases hfield : q.lookup u.1.name with
      | some f =>
          have hold : p.newOnes (earlier ++ [u]) = p.newOnes earlier := by
            rw [newOnes_append, newOnes_cons_of_some (hu ▸ hfield)]
            exact List.append_nil _
          by_cases hagree : agrees f u = true
          · simp only [require, if_pos hagree]
            exact (ih htypes hnames (by rw [hold]; exact hoffset) hrest).map _
          · simp only [require, if_neg hagree]
            rfl
      | none =>
          have hnew : blockBytes (p.newOnes (earlier ++ [u])) =
              blockBytes (p.newOnes earlier) + u.1.bytes := by
            rw [newOnes_append, newOnes_cons_of_none (hu ▸ hfield), blockBytes_append]
            rfl
          have hend : p.offset + blockBytes (p.newOnes (earlier ++ [u])) =
              q.offset + u.1.bytes := by
            omega
          simp only [stop?_fieldFor htype, hend, require]
          by_cases hfits : q.offset + u.1.bytes < wordBound
          · simp only [if_pos hfits]
            refine (ih (q := q.push u) htypes hnames ?_ ?_).map _
            · rw [hend, ← bytes_fieldFor htype]
              rfl
            · intro v hv
              have hne : u.1.name ≠ v.1.name := fun heq =>
                hname (List.mem_map.mpr ⟨v, hv, heq.symm⟩)
              rw [lookup_push hne, hrest v hv]
          · simp only [if_neg hfits]
            rfl

/-- Placing adds the new uniforms only, and they follow one another. -/
theorem Places.added_eq_newOnes {p q : Planner} {us : List TypedUniform} {r : Placement}
    (h : Places p us q r) (htypes : ∀ u ∈ us, u.2.name = u.1.type)
    (hnames : (us.map fun u => u.1.name).Nodup) :
    r.added.map Field.name = (p.newOnes us).map Declaration.name ∧
      q.offset = p.offset + blockBytes (p.newOnes us) := by
  induction h with
  | nil p => exact ⟨rfl, rfl⟩
  | @reuse p q u us r f mem same _ ih =>
      have hold : p.newOnes (u :: us) = p.newOnes us := by
        have hname : f.name = u.1.name := congrArg Prod.fst same
        cases hfield : p.lookup u.1.name with
        | some g => exact newOnes_cons_of_some hfield us
        | none => exact absurd (hname ▸ List.mem_map_of_mem mem) (lookup_eq_none_iff.mp hfield)
      rw [hold]
      exact ih (List.forall_mem_cons.mp htypes).2 (List.nodup_cons.mp hnames).2
  | @fresh p q u us r hnew _ _ ih =>
      obtain ⟨htype, htypes⟩ := List.forall_mem_cons.mp htypes
      obtain ⟨hname, hnames⟩ := List.nodup_cons.mp hnames
      obtain ⟨hadded, hoffset⟩ := ih htypes hnames
      have hrest : (p.push u).newOnes us = p.newOnes us := by
        refine newOnes_congr fun v hv => lookup_push fun heq => ?_
        exact hname (List.mem_map.mpr ⟨v, hv, heq.symm⟩)
      have hstop : (p.push u).offset = p.offset + u.1.bytes := by
        rw [← bytes_fieldFor htype]
        rfl
      rw [newOnes_cons_of_none (lookup_eq_none_iff.mpr hnew), ← hrest, blockBytes_cons]
      refine ⟨congrArg (List.cons u.1.name) hadded, ?_⟩
      omega

theorem Places.added_subset {p q : Planner} {us : List TypedUniform} {r : Placement}
    (h : Places p us q r) {f : Field} (hf : f ∈ r.added) : f ∈ r.fields := by
  induction h with
  | nil p => exact hf
  | reuse _ _ _ ih => exact List.mem_cons_of_mem _ (ih hf)
  | fresh _ _ _ ih =>
      rcases List.mem_cons.mp hf with rfl | hf
      · exact List.mem_cons_self
      · exact List.mem_cons_of_mem _ (ih hf)

/-- The last new field is the last field of the stage. -/
theorem Places.getLast?_byOffset {p q : Planner} {us : List TypedUniform} {r : Placement}
    (h : Places p us q r) (hp : p.Packed) (hpos : ∀ f ∈ r.fields, 0 < f.bytes) {g : Field}
    (hg : r.added.getLast? = some g) : (byOffset r.fields).getLast? = some g := by
  have hperm : (byOffset r.fields).Perm r.fields := List.mergeSort_perm _ _
  obtain ⟨before, hbefore⟩ := List.getLast?_eq_some_iff.mp hg
  have hmem : g ∈ byOffset r.fields :=
    hperm.mem_iff.mpr (h.added_subset (List.mem_of_getLast? hg))
  have happart := (hp.places h).apart
  rw [h.fields_eq, hbefore, ← List.append_assoc] at happart
  have hlast := (List.pairwise_append.mp happart).2.2
  cases hend : (byOffset r.fields).getLast? with
  | none => simp [List.getLast?_eq_none_iff.mp hend] at hmem
  | some l =>
      obtain ⟨front, hfront⟩ := List.getLast?_eq_some_iff.mp hend
      have hsorted := byOffset_sorted r.fields
      rw [hfront] at hsorted hmem
      rcases List.mem_append.mp hmem with hmem | hmem
      · -- A field before the last one would start behind it, which no other placed field does.
        have hle := (List.pairwise_append.mp hsorted).2.2 g hmem l (List.mem_singleton_self _)
        have hl : l ∈ r.fields := hperm.mem_iff.mp (List.mem_of_getLast? hend)
        have hplaced := h.mem_fields hl
        rw [h.fields_eq, hbefore, ← List.append_assoc] at hplaced
        rcases List.mem_append.mp hplaced with hplaced | hplaced
        · have hstop := hlast l hplaced g (List.mem_singleton_self _)
          have hpositive := hpos l hl
          rw [Field.stop] at hstop
          omega
        · rw [List.mem_singleton.mp hplaced]
      · rw [List.mem_singleton.mp hmem]

theorem Places.bytes_pos {p q : Planner} {us : List TypedUniform} {r : Placement}
    (h : Places p us q r) (htypes : ∀ u ∈ us, u.2.name = u.1.type)
    (hpos : ∀ u ∈ us, 0 < u.1.bytes) : ∀ f ∈ r.fields, 0 < f.bytes := by
  intro f hf
  have hshape : f.shape ∈ us.map TypedUniform.shape := by
    rw [← h.map_shape]
    exact List.mem_map_of_mem hf
  obtain ⟨u, hu, heq⟩ := List.mem_map.mp hshape
  simp only [TypedUniform.shape, Field.shape, Prod.mk.injEq] at heq
  have hbytes := hpos u hu
  rw [bytes_of_typed (htypes u hu), heq.2.1, heq.2.2] at hbytes
  exact hbytes

theorem roundUp_of_mod_eq_zero {n : Nat} (h : n % stageAlignment = 0) : roundUp n = n := by
  simp only [roundUp, stageAlignment] at *
  omega

theorem refusal?_finish (p : Planner) (r : Placement) :
    refusal? (p.finish r).2 = require (roundUp p.offset < wordBound)
      (.blockTooLarge (lastName ((byOffset r.fields).map Field.name))) := by
  unfold finish require
  dsimp only
  split <;> rfl

theorem planStage_of_typed {p : Planner} {symbols : Symbols} {us : List TypedUniform}
    (h : typedUniforms symbols = .ok us) :
    (p.planStage symbols).2 = (p.place (byRank us)).2.bind fun r =>
      ((p.place (byRank us)).1.finish r).2 := by
  rw [planStage, h]
  rcases hplace : p.place (byRank us) with ⟨q, e | r⟩ <;> simp [hplace, Except.bind]

/-- A stage is planned when its requirements are met, and fails with the error of the first that is
not. -/
theorem settles_planStage {p : Planner} {symbols : Symbols} {us : List TypedUniform}
    (htyped : typedUniforms symbols = .ok us) (hp : p.Packed)
    (haligned : p.offset % stageAlignment = 0)
    (hpos : ∀ d ∈ symbols.uniforms.entries, 0 < d.bytes) :
    Settles (p.stageRequirements (byRank us)) (p.planStage symbols).2 := by
  obtain ⟨hall, hnames⟩ := byRank_spec htyped
  have htypes : ∀ u ∈ byRank us, u.2.name = u.1.type := fun u hu => (hall u hu).2
  have hbytes : ∀ u ∈ byRank us, 0 < u.1.bytes := fun u hu => hpos u.1 (hall u hu).1
  rw [planStage_of_typed htyped]
  refine (settles_place_after htypes hnames (by simp [newOnes]) fun _ _ => rfl).bind
    fun r hr => ?_
  have hplaces : Places p (byRank us) (p.place (byRank us)).1 r :=
    places_of_place (Prod.ext rfl hr)
  obtain ⟨hadded, hoffset⟩ := hplaces.added_eq_newOnes htypes hnames
  rw [settles_singleton, refusal?_finish, hoffset]
  refine require_congr Iff.rfl fun hover => congrArg ConversionError.blockTooLarge ?_
  cases hlast : r.added.getLast? with
  | none =>
      rw [List.getLast?_eq_none_iff.mp hlast, List.map_nil, eq_comm, List.map_eq_nil_iff] at hadded
      rw [hadded, blockBytes_nil, Nat.add_zero, roundUp_of_mod_eq_zero haligned] at hover
      exact absurd hp.word hover
  | some g =>
      rw [lastName, lastName, ← hadded, List.getLast?_map, List.getLast?_map, hlast,
        hplaces.getLast?_byOffset hp (hplaces.bytes_pos htypes hbytes) hlast]

end Planner

end ShaderUplift
