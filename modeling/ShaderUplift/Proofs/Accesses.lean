import ShaderUplift.Proofs.Expansion

/-! Accesses to the elements of an array, as groups of tokens. A group begins with the name of the
array and has no other name in it, so no two groups overlap and every one of them is replaced. What
is written for a group is a name, which no group has in its middle, so no new group comes about. -/

namespace ShaderUplift.Body

variable {array : String} {length index : Nat}

theorem elementName_ne (array : String) (index : Nat) : elementName array index ≠ array := by
  intro h
  have hlength := congrArg (fun s : String => s.toList.length) h
  simp only [elementName, String.toList_append, List.length_append] at hlength
  have hmark : "_".toList.length = 1 := rfl
  omega

namespace Expanded

variable {ts us : List BodyToken}

theorem eq_expandFrom (h : Expanded array length ts us) :
    us = (expandFrom array length 0 ts).1 := by
  induction h with
  | nil => rfl
  | access hgroup _ ih => rw [expandFrom_access hgroup, ih]
  | kept hother _ ih => rw [expandFrom_kept hother, ih]

/-- There is one remark for each use of the array that is left. -/
theorem notices_eq (h : Expanded array length ts us) :
    (expandFrom array length 0 ts).2 =
      List.replicate (us.count (.ident array)) (.accessNotConstant array) := by
  induction h with
  | nil => rfl
  | @access index group ts us hgroup _ ih =>
      have hne : BodyToken.ident (elementName array index) ≠ .ident array :=
        fun heq => elementName_ne array index (BodyToken.ident.inj heq)
      rw [expandFrom_access hgroup, List.count_cons_of_ne hne]
      exact ih
  | @kept t ts us hother _ ih =>
      rw [expandFrom_kept hother]
      by_cases ht : t = .ident array
      · rw [if_pos ht, ht, List.count_cons_self, List.replicate_succ, ← ih]
        rfl
      · rw [if_neg ht, List.count_cons_of_ne ht]
        exact ih

/-- Tokens without a name at the start of the result stood at the start before. -/
theorem prefix_of_no_name (h : Expanded array length ts us) {lead : List BodyToken}
    (hlead : lead <+: us) (hnames : ∀ name, .ident name ∉ lead) : lead <+: ts := by
  induction h generalizing lead with
  | nil => exact hlead
  | access _ _ _ =>
      cases lead with
      | nil => exact List.nil_prefix
      | cons t lead =>
          obtain ⟨rfl, -⟩ := List.cons_prefix_cons.mp hlead
          exact absurd List.mem_cons_self (hnames _)
  | kept _ _ ih =>
      cases lead with
      | nil => exact List.nil_prefix
      | cons t lead =>
          obtain ⟨rfl, htail⟩ := List.cons_prefix_cons.mp hlead
          refine List.cons_prefix_cons.mpr ⟨rfl, ih htail fun name hname => ?_⟩
          exact hnames name (List.mem_cons_of_mem _ hname)

/-- The result has no access to an element in it. -/
theorem settled (h : Expanded array length ts us) {group : List BodyToken}
    (hgroup : Replaceable array length index group) : ¬group <:+: us := by
  obtain ⟨tokens, rfl, hnames⟩ := hgroup.eq_cons
  intro hwithin
  induction h with
  | nil => cases List.infix_nil.mp hwithin
  | @access index' _ _ us _ _ ih =>
      rcases List.infix_cons_iff.mp hwithin with hlead | hwithin
      · have hname := (List.cons_prefix_cons.mp hlead).1
        exact elementName_ne array index' (BodyToken.ident.inj hname).symm
      · exact ih hwithin
  | @kept t ts us hother hrest ih =>
      rcases List.infix_cons_iff.mp hwithin with hlead | hwithin
      · obtain ⟨rfl, htokens⟩ := List.cons_prefix_cons.mp hlead
        apply hother
        refine ⟨index, _, hgroup, List.cons_prefix_cons.mpr ⟨rfl, ?_⟩⟩
        exact hrest.prefix_of_no_name htokens hnames
      · exact ih hwithin

/-- Tokens without an access are all kept. -/
theorem of_settled
    (h : ∀ index group, Replaceable array length index group → ¬group <:+: ts) :
    Expanded array length ts ts := by
  induction ts with
  | nil => exact nil
  | cons t ts ih =>
      apply kept
      · rintro ⟨index, group, hgroup, hlead⟩
        exact h index group hgroup hlead.isInfix
      · apply ih
        intro index group hgroup hwithin
        exact h index group hgroup (hwithin.trans (List.suffix_cons t ts).isInfix)

end Expanded

/-- No access reaches across the name of an array. -/
theorem not_startsAccess_append {t : BodyToken} {ts : List BodyToken}
    (h : ¬StartsAccess array length (t :: ts)) (name : String) (rest : List BodyToken) :
    ¬StartsAccess array length (t :: ts ++ .ident name :: rest) := by
  rintro ⟨index, group, hgroup, hlead⟩
  rcases List.prefix_or_prefix_of_prefix hlead (List.prefix_append _ _) with hshort | ⟨more, hmore⟩
  · exact h ⟨index, group, hgroup, hshort⟩
  · rw [← hmore, List.prefix_append_right_inj] at hlead
    cases more with
    | nil =>
        rw [List.append_nil] at hmore
        exact h ⟨index, group, hgroup, hmore ▸ List.prefix_rfl⟩
    | cons u more =>
        obtain ⟨rfl, -⟩ := List.cons_prefix_cons.mp hlead
        obtain ⟨tokens, rfl, hnames⟩ := hgroup.eq_cons
        have htokens : ts ++ .ident name :: more = tokens := (List.cons.inj hmore).2
        apply hnames name
        rw [← htokens]
        exact List.mem_append_right _ List.mem_cons_self

/-- An access is replaced wherever it stands, and what stands before and after it is treated as if it
stood alone. -/
theorem expandFrom_around {group : List BodyToken} (h : Replaceable array length index group)
    (before after : List BodyToken) :
    (expandFrom array length 0 (before ++ group ++ after)).1 =
      (expandFrom array length 0 before).1 ++
        .ident (elementName array index) :: (expandFrom array length 0 after).1 := by
  have hbefore := expanded_expandFrom array length before
  generalize (expandFrom array length 0 before).1 = us at hbefore
  induction hbefore with
  | nil => rw [List.nil_append, expandFrom_access h, List.nil_append]
  | access hgroup _ ih =>
      rw [List.append_assoc, List.append_assoc, expandFrom_access hgroup, ← List.append_assoc, ih,
        List.cons_append]
  | @kept t ts us hother _ ih =>
      have hkept : ¬StartsAccess array length (t :: (ts ++ group ++ after)) := by
        obtain ⟨tokens, rfl, -⟩ := h.eq_cons
        have hacross := not_startsAccess_append hother array (tokens ++ after)
        rwa [List.append_assoc]
      rw [List.cons_append, List.cons_append, expandFrom_kept hkept, ih, List.cons_append]

/-- Replacing the accesses to an array writes the name of an element for each access with a constant
index below the length, wherever it stands, and keeps all other tokens in their order. It remarks
once on each use of the array that is left, changes nothing when it is repeated, and changes the uses
of no name but that of the array and those of its elements. -/
theorem expandIndexed_replaces_accesses (b : Body) (array : String) (length : Nat) :
    (∀ us, Expanded array length b.tokens us ↔ us = (b.expandIndexed array length).1.tokens) ∧
    (∀ before group after index, b.tokens = before ++ group ++ after →
      Replaceable array length index group →
      (b.expandIndexed array length).1.tokens =
        (expandIndexed ⟨before⟩ array length).1.tokens ++
          .ident (elementName array index) :: (expandIndexed ⟨after⟩ array length).1.tokens) ∧
    (b.expandIndexed array length).2 =
      List.replicate ((b.expandIndexed array length).1.tokens.count (.ident array))
        (.accessNotConstant array) ∧
    ((b.expandIndexed array length).1.expandIndexed array length).1 =
      (b.expandIndexed array length).1 ∧
    ∀ name, name ≠ array → (∀ index < length, name ≠ elementName array index) →
      (b.expandIndexed array length).1.references name = b.references name := by
  have hexpanded : Expanded array length b.tokens (b.expandIndexed array length).1.tokens :=
    expanded_expandFrom array length b.tokens
  refine ⟨fun us => ?_, ?_, ?_, ?_, ?_⟩
  · constructor
    · intro h
      exact h.eq_expandFrom
    · rintro rfl
      exact hexpanded
  · intro before group after index htokens hgroup
    have haround := expandFrom_around hgroup before after
    rw [← htokens] at haround
    exact haround
  · exact hexpanded.notices_eq
  · have hkept := Expanded.of_settled fun index group hgroup => hexpanded.settled hgroup
    exact congrArg Body.mk hkept.eq_expandFrom.symm
  · intro name hname helement
    rw [Bool.eq_iff_iff]
    constructor
    · intro h
      rcases of_references_expandIndexed h with h | ⟨index, hindex, heq⟩
      · exact h
      · exact absurd heq (helement index hindex)
    · intro h
      exact references_expandIndexed h hname

/-- An access in the index of another one is replaced; the outer one, whose index is then a name, is
left. -/
theorem nested_access_replaced :
    (parse "uv[uv [1]];").1.tokens = [.ident "uv", .punct .openBracket] ++
        [.ident "uv", .space " ", .punct .openBracket, .number "1", .punct .closeBracket] ++
        [.punct .closeBracket, .text ";"] ∧
      Replaceable "uv" 2 1
        [.ident "uv", .space " ", .punct .openBracket, .number "1", .punct .closeBracket] ∧
      ((parse "uv[uv [1]];").1.expandIndexed "uv" 2).1.tokens =
        (expandIndexed ⟨[.ident "uv", .punct .openBracket]⟩ "uv" 2).1.tokens ++
          .ident "uv_1" :: (expandIndexed ⟨[.punct .closeBracket, .text ";"]⟩ "uv" 2).1.tokens := by
  have htokens : (parse "uv[uv [1]];").1.tokens = [.ident "uv", .punct .openBracket] ++
      [.ident "uv", .space " ", .punct .openBracket, .number "1", .punct .closeBracket] ++
      [.punct .closeBracket, .text ";"] := by
    decide +kernel
  have hgroup : Replaceable "uv" 2 1
      [.ident "uv", .space " ", .punct .openBracket, .number "1", .punct .closeBracket] := by
    refine ⟨"1", ⟨_, ⟨[.space " "], [], [], by decide, rfl⟩, rfl⟩, ?_, by decide⟩
    decide +kernel
  obtain ⟨-, haround, -⟩ := expandIndexed_replaces_accesses (parse "uv[uv [1]];").1 "uv" 2
  exact ⟨htokens, hgroup, haround _ _ _ _ htokens hgroup⟩

end ShaderUplift.Body
