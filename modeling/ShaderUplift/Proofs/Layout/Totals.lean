import Mathlib.Data.List.Infix
import ShaderUplift.Proofs.Layout.Placing
import ShaderUplift.Proofs.Refusal

/-! Exact sizes of the uniforms of a stage, and their order in a block. The size of a stage is found
when every type is known and the exact sum is a word; larger types come first, and the uniforms of
one type keep their order. -/

namespace ShaderUplift

open Text

namespace Declaration

/-- The type is one of the value types. -/
def HasKnownType (d : Declaration) : Prop := (ValueType.ofName? d.type).isSome = true

instance (d : Declaration) : Decidable d.HasKnownType :=
  inferInstanceAs (Decidable ((ValueType.ofName? d.type).isSome = true))

/-- The exact size of all elements; a type that is not known has none. -/
def bytes (d : Declaration) : Nat :=
  (ValueType.ofName? d.type).elim 0 ValueType.size * d.arrayLength.getD 1

end Declaration

/-- The exact size of some uniforms, without padding. -/
def blockBytes : List Declaration → Nat
  | [] => 0
  | d :: ds => d.bytes + blockBytes ds

/-- The last name of the shortest start of the uniforms whose exact size, after `start` bytes, is no
word. -/
def overflowName (start : Nat) (ds : List Declaration) : String :=
  ((ds.inits.find? fun some => wordBound ≤ start + blockBytes some).bind List.getLast?).elim ""
    Declaration.name

/-- What a stage requires of its uniforms: known types, and an exact size that is a word. -/
def sizeRequirements (ds : List Declaration) : List (Option ConversionError) :=
  ds.map (fun d => require d.HasKnownType (.unknownType d.name d.type)) ++
    [require (blockBytes ds < wordBound) (.blockTooLarge (overflowName 0 ds))]

/-- The uniforms with larger types first, those of one type in their order. -/
def byDescendingType (ds : List Declaration) : List Declaration :=
  ValueType.all.reverse.flatMap fun t => ds.filter fun d => d.type = t.name

@[simp] theorem blockBytes_nil : blockBytes [] = 0 := rfl

@[simp] theorem blockBytes_cons (d : Declaration) (ds : List Declaration) :
    blockBytes (d :: ds) = d.bytes + blockBytes ds := rfl

theorem blockBytes_append (ds es : List Declaration) :
    blockBytes (ds ++ es) = blockBytes ds + blockBytes es := by
  induction ds with
  | nil => simp
  | cons d ds ih => rw [List.cons_append, blockBytes_cons, blockBytes_cons, ih, Nat.add_assoc]

theorem blockBytes_perm {ds es : List Declaration} (h : ds.Perm es) :
    blockBytes ds = blockBytes es := by
  induction h with
  | nil => rfl
  | cons d _ ih => rw [blockBytes_cons, blockBytes_cons, ih]
  | swap d e ds =>
      simp only [blockBytes_cons]
      omega
  | trans _ _ ih₁ ih₂ => exact ih₁.trans ih₂

theorem blockBytes_sublist {ds es : List Declaration} (h : ds.Sublist es) :
    blockBytes ds ≤ blockBytes es := by
  induction h with
  | slnil => exact Nat.le_refl _
  | cons d _ ih =>
      rw [blockBytes_cons]
      omega
  | cons_cons d _ ih =>
      rw [blockBytes_cons, blockBytes_cons]
      omega

theorem bytes_of_typed {u : TypedUniform} (h : u.2.name = u.1.type) :
    u.1.bytes = u.2.size * u.1.arrayLength.getD 1 := by
  rw [Declaration.bytes, ← h, ValueType.ofName?_name]
  rfl

theorem refusal?_typed (d : Declaration) :
    refusal? (typed d) = require d.HasKnownType (.unknownType d.name d.type) := by
  unfold typed
  cases hknown : ValueType.ofName? d.type with
  | none => simp [require, Declaration.HasKnownType, hknown, refusal?]
  | some t => simp [require, Declaration.HasKnownType, hknown, refusal?]

theorem settles_typedUniforms (symbols : Symbols) :
    Settles (symbols.uniforms.entries.map fun d =>
      require d.HasKnownType (.unknownType d.name d.type)) (typedUniforms symbols) :=
  settles_mapM refusal?_typed symbols.uniforms.entries

theorem addSize_eq {total : Nat} {u : TypedUniform} (h : u.2.name = u.1.type) :
    addSize total u =
      if total + u.1.bytes < wordBound then .ok (total + u.1.bytes)
      else .error (.blockTooLarge u.1.name) := by
  rw [bytes_of_typed h]
  unfold addSize ValueType.arraySize? checkedMul checkedAdd
  by_cases hfits : total + u.2.size * u.1.arrayLength.getD 1 < wordBound
  · have hsize : u.2.size * u.1.arrayLength.getD 1 < wordBound := by omega
    simp only [if_pos hsize, Option.bind_some, if_pos hfits]
  · by_cases hsize : u.2.size * u.1.arrayLength.getD 1 < wordBound
    · simp only [if_pos hsize, Option.bind_some, if_neg hfits]
    · simp only [if_neg hsize, Option.bind_none, if_neg hfits]

theorem overflowName_cons_of_le {start : Nat} {d : Declaration} {ds : List Declaration}
    (hstart : start < wordBound) (h : wordBound ≤ start + d.bytes) :
    overflowName start (d :: ds) = d.name := by
  have hnot : ¬wordBound ≤ start := by omega
  have hinits : ∃ more, ds.inits = [] :: more := by
    cases ds with
    | nil => exact ⟨[], rfl⟩
    | cons e ds => exact ⟨_, List.inits_cons ..⟩
  obtain ⟨more, hmore⟩ := hinits
  simp [overflowName, hmore, hnot, h]

theorem overflowName_cons_of_lt {start : Nat} {d : Declaration} {ds : List Declaration}
    (h : start + d.bytes < wordBound) :
    overflowName start (d :: ds) = overflowName (start + d.bytes) ds := by
  have hempty : decide (wordBound ≤ start + blockBytes []) = false := by
    rw [decide_eq_false_iff_not, blockBytes_nil]
    omega
  unfold overflowName
  rw [List.inits_cons, List.find?_cons_of_neg (by rw [hempty]; exact Bool.false_ne_true),
    List.find?_map]
  simp only [Function.comp_def, blockBytes_cons, ← Nat.add_assoc]
  cases hfind : ds.inits.find? fun some => wordBound ≤ start + d.bytes + blockBytes some with
  | none => rfl
  | some front =>
      have hover : wordBound ≤ start + d.bytes + blockBytes front := by
        simpa using List.find?_some hfind
      cases front with
      | nil =>
          rw [blockBytes_nil] at hover
          omega
      | cons e front => simp

theorem foldlM_addSize {us : List TypedUniform} (hus : ∀ u ∈ us, u.2.name = u.1.type) {start : Nat}
    (hstart : start < wordBound) :
    us.foldlM addSize start =
      if start + blockBytes (us.map Prod.fst) < wordBound then
        .ok (start + blockBytes (us.map Prod.fst))
      else .error (.blockTooLarge (overflowName start (us.map Prod.fst))) := by
  induction us generalizing start with
  | nil => simp [hstart, pure, Except.pure]
  | cons u us ih =>
      obtain ⟨hu, hus⟩ := List.forall_mem_cons.mp hus
      rw [List.foldlM_cons, addSize_eq hu, List.map_cons, blockBytes_cons]
      split
      · next hfits =>
        have hrest := ih hus hfits
        rw [← Nat.add_assoc, overflowName_cons_of_lt hfits]
        exact hrest
      · next hfits =>
        rw [overflowName_cons_of_le hstart (by omega), if_neg (by omega)]
        rfl

/-- The size of a stage is refused for its first unknown type, or where its exact sum stops being a
word. -/
theorem settles_usedBytes (symbols : Symbols) :
    Settles (sizeRequirements symbols.uniforms.entries) (usedBytes symbols) := by
  refine (settles_typedUniforms symbols).bind fun us hus => ?_
  obtain ⟨hdeclared, htypes⟩ := typedUniforms_eq_ok hus
  rw [settles_singleton, foldlM_addSize htypes (by decide), hdeclared, Nat.zero_add, require]
  split <;> rfl

/-- A size that is found is exact. -/
theorem usedBytes_eq_ok {symbols : Symbols} {n : Nat} (h : usedBytes symbols = .ok n) :
    n = blockBytes symbols.uniforms.entries ∧ n < wordBound ∧
      ∃ us, typedUniforms symbols = .ok us := by
  obtain ⟨us, hus, h⟩ := bind_eq_ok.mp h
  obtain ⟨hdeclared, htypes⟩ := typedUniforms_eq_ok hus
  rw [foldlM_addSize htypes (by decide), hdeclared, Nat.zero_add] at h
  split at h
  · next hfits =>
    cases h
    exact ⟨rfl, hfits, us, hus⟩
  · cases h

/-- Sorting by rank keeps the order of the uniforms of each type. -/
theorem filter_byRank (us : List TypedUniform) (t : ValueType) :
    (Planner.byRank us).filter (fun u => u.2 = t) = us.filter fun u => u.2 = t := by
  have hperm : (Planner.byRank us).Perm us := List.mergeSort_perm _ _
  have hequal : (us.filter fun u => u.2 = t).Pairwise fun a b => decide (b.2.rank ≤ a.2.rank) := by
    refine List.pairwise_of_forall_mem_list fun a ha b hb => ?_
    have ha := of_decide_eq_true (List.mem_filter.mp ha).2
    have hb := of_decide_eq_true (List.mem_filter.mp hb).2
    simp [ha, hb]
  have hsublist : (us.filter fun u => u.2 = t).Sublist (Planner.byRank us) :=
    List.sublist_mergeSort
      (fun a b c hab hbc => by simp only [decide_eq_true_eq] at *; omega)
      (fun a b => by simp only [Bool.or_eq_true, decide_eq_true_eq]; omega)
      hequal List.filter_sublist
  have hfiltered := hsublist.filter fun u => decide (u.2 = t)
  rw [List.filter_filter] at hfiltered
  simp only [Bool.and_self] at hfiltered
  exact (hfiltered.eq_of_length (hperm.filter _).length_eq.symm).symm

/-- In a list that is sorted by rank the uniforms of the largest type come first. -/
theorem eq_append_of_sorted {us : List TypedUniform} {t : ValueType}
    (hus : ∀ u ∈ us, u.2 = t ∨ u.2.rank < t.rank)
    (hsorted : us.Pairwise fun a b => b.2.rank ≤ a.2.rank) :
    us = us.filter (fun u => u.2 = t) ++ us.filter (fun u => u.2 ≠ t) := by
  induction us with
  | nil => rfl
  | cons u us ih =>
      obtain ⟨hbelow, hsorted⟩ := List.pairwise_cons.mp hsorted
      obtain ⟨hu, hus⟩ := List.forall_mem_cons.mp hus
      have hrest := ih hus hsorted
      by_cases htype : u.2 = t
      · rw [List.filter_cons_of_pos (by simpa using htype),
          List.filter_cons_of_neg (by simpa using htype), List.cons_append, ← hrest]
      · have hnone : us.filter (fun u => u.2 = t) = [] := by
          rw [List.filter_eq_nil_iff]
          intro v hv heq
          have hle := hbelow v hv
          rw [of_decide_eq_true heq] at hle
          have hlt := hu.resolve_left htype
          omega
        rw [hnone, List.nil_append] at hrest
        rw [List.filter_cons_of_neg (by simpa using htype),
          List.filter_cons_of_pos (by simpa using htype), hnone, List.nil_append, ← hrest]

/-- A list that is sorted by rank falls into the uniforms of each type, larger types first. -/
theorem eq_flatMap_of_sorted {us : List TypedUniform} {ts : List ValueType}
    (hts : ts.Pairwise fun s t => t.rank < s.rank) (hus : ∀ u ∈ us, u.2 ∈ ts)
    (hsorted : us.Pairwise fun a b => b.2.rank ≤ a.2.rank) :
    us = ts.flatMap fun t => us.filter fun u => u.2 = t := by
  induction ts generalizing us with
  | nil =>
      cases us with
      | nil => rfl
      | cons u us => exact absurd (hus u List.mem_cons_self) List.not_mem_nil
  | cons t ts ih =>
      obtain ⟨hbelow, hts⟩ := List.pairwise_cons.mp hts
      have hsplit := eq_append_of_sorted (t := t)
        (fun u hu => (List.mem_cons.mp (hus u hu)).imp_right (hbelow u.2)) hsorted
      have hsmaller : ∀ u ∈ us.filter (fun u => u.2 ≠ t), u.2 ∈ ts := by
        intro u hu
        obtain ⟨hu, hne⟩ := List.mem_filter.mp hu
        exact (List.mem_cons.mp (hus u hu)).resolve_left (of_decide_eq_true hne)
      have hrest := ih hts hsmaller (hsorted.sublist List.filter_sublist)
      rw [List.flatMap_cons]
      nth_rewrite 1 [hsplit]
      refine congrArg _ (hrest.trans (List.flatMap_congr fun s hs => ?_))
      rw [List.filter_filter]
      refine List.filter_congr fun u _ => ?_
      have hne : s ≠ t := by
        rintro rfl
        exact absurd (hbelow s hs) (Nat.lt_irrefl _)
      by_cases hu : u.2 = s
      · simp [hu, hne]
      · simp [hu]

theorem ValueType.name_inj {s t : ValueType} : s.name = t.name ↔ s = t := by
  refine ⟨fun h => ?_, fun h => by rw [h]⟩
  simpa [ofName?_name] using congrArg ofName? h

theorem map_fst_byRank {us : List TypedUniform} (hus : ∀ u ∈ us, u.2.name = u.1.type) :
    (Planner.byRank us).map Prod.fst = byDescendingType (us.map Prod.fst) := by
  have hperm : (Planner.byRank us).Perm us := List.mergeSort_perm _ _
  have hsorted : (Planner.byRank us).Pairwise fun a b => b.2.rank ≤ a.2.rank := by
    have h := @List.pairwise_mergeSort TypedUniform (fun a b => decide (b.2.rank ≤ a.2.rank))
      (fun a b c hab hbc => by simp only [decide_eq_true_eq] at *; omega)
      (fun a b => by simp only [Bool.or_eq_true, decide_eq_true_eq]; omega) us
    exact h.imp fun h => of_decide_eq_true h
  have hall : ∀ u ∈ Planner.byRank us, u.2 ∈ ValueType.all.reverse := by
    intro u _
    cases u.2 <;> decide
  rw [eq_flatMap_of_sorted (by decide) hall hsorted, byDescendingType, List.map_flatMap]
  refine List.flatMap_congr fun t _ => ?_
  rw [filter_byRank, List.filter_map]
  refine congrArg (List.map Prod.fst) (List.filter_congr fun u hu => ?_)
  simp [← hus u hu, ValueType.name_inj]

theorem byDescendingType_perm {us : List TypedUniform} (hus : ∀ u ∈ us, u.2.name = u.1.type) :
    (byDescendingType (us.map Prod.fst)).Perm (us.map Prod.fst) := by
  rw [← map_fst_byRank hus]
  exact (List.mergeSort_perm _ _).map _

end ShaderUplift
