import ShaderUplift.Body

/-! Replacing the accesses to an array. An access is a group of tokens that begins with the name of
the array and ends with its closing bracket; the replacement writes the name of an element for each
of them and keeps every other token. What the replacement does to names, braces and comments follows
by induction on that description. -/

namespace ShaderUplift.Body

/-- What may stand between the name of an array and the bracket that closes a constant index. -/
def IsIndexPart (t : BodyToken) : Prop :=
  isSpace t = true ∨ t = .punct .openBracket ∨
    ∃ n, t = .number n ∧ (Text.word32? n.toList).isSome = true

/-- The tokens are a literal in brackets; spaces may stand before each of the three. -/
def IsBracketed (lit : String) (tokens : List BodyToken) : Prop :=
  ∃ s₁ s₂ s₃ : List BodyToken, (∀ t ∈ s₁ ++ s₂ ++ s₃, isSpace t = true) ∧
    tokens = s₁ ++ .punct .openBracket :: (s₂ ++ .number lit :: (s₃ ++ [.punct .closeBracket]))

/-- The literal is a numeral for an index below `length`. -/
def IsIndex (length : Nat) (lit : String) (index : Nat) : Prop :=
  Text.word32? lit.toList = some index ∧ index < length

theorem not_isIndexPart_ident (name : String) : ¬IsIndexPart (.ident name) := by
  rintro (h | h | ⟨n, h, -⟩) <;> cases h

/-- Before its closing bracket a bracketed numeral has only parts of an index. -/
theorem IsBracketed.split {lit : String} {tokens : List BodyToken} (h : IsBracketed lit tokens)
    (hlit : (Text.word32? lit.toList).isSome = true) :
    ∃ before, tokens = before ++ [.punct .closeBracket] ∧ ∀ t ∈ before, IsIndexPart t := by
  obtain ⟨s₁, s₂, s₃, hspaces, rfl⟩ := h
  refine ⟨s₁ ++ .punct .openBracket :: (s₂ ++ .number lit :: s₃), by simp, fun t ht => ?_⟩
  simp only [List.mem_append, List.mem_cons] at ht hspaces
  rcases ht with ht | rfl | ht | rfl | ht
  · exact Or.inl (hspaces t (Or.inl (Or.inl ht)))
  · exact Or.inr (Or.inl rfl)
  · exact Or.inl (hspaces t (Or.inl (Or.inr ht)))
  · exact Or.inr (Or.inr ⟨lit, rfl, hlit⟩)
  · exact Or.inl (hspaces t (Or.inr ht))

theorem skipSpace_split (ts : List BodyToken) :
    ∃ spaces, ts = spaces ++ skipSpace ts ∧ ∀ t ∈ spaces, isSpace t = true :=
  ⟨ts.takeWhile isSpace, List.takeWhile_append_dropWhile.symm,
    fun t ht => List.all_eq_true.mp List.all_takeWhile t ht⟩

theorem skipSpace_append {spaces : List BodyToken} (hspaces : ∀ t ∈ spaces, isSpace t = true)
    {t : BodyToken} (ht : isSpace t = false) (ts : List BodyToken) :
    skipSpace (spaces ++ t :: ts) = t :: ts := by
  rw [skipSpace, List.dropWhile_append_of_pos hspaces, List.dropWhile_cons_of_neg (by simp [ht])]

/-- A constant index is found exactly where a bracketed numeral stands. -/
theorem constantIndex?_eq_some_iff {ts rest : List BodyToken} {index : Nat} :
    constantIndex? ts = some (index, rest) ↔
      ∃ lit tokens, IsBracketed lit tokens ∧ Text.word32? lit.toList = some index ∧
        ts = tokens ++ rest := by
  constructor
  · intro h
    unfold constantIndex? at h
    split at h
    · next ts₁ h₁ =>
      split at h
      · next lit ts₂ h₂ =>
        split at h
        · next rest' h₃ =>
          obtain ⟨value, hvalue, heq⟩ := Option.map_eq_some_iff.mp h
          cases heq
          obtain ⟨s₁, hs₁, hn₁⟩ := skipSpace_split ts
          obtain ⟨s₂, hs₂, hn₂⟩ := skipSpace_split ts₁
          obtain ⟨s₃, hs₃, hn₃⟩ := skipSpace_split ts₂
          refine ⟨lit, _, ⟨s₁, s₂, s₃, fun t ht => ?_, rfl⟩, hvalue, ?_⟩
          · simp only [List.mem_append] at ht
            rcases ht with (ht | ht) | ht
            · exact hn₁ t ht
            · exact hn₂ t ht
            · exact hn₃ t ht
          · rw [hs₁, h₁, hs₂, h₂, hs₃, h₃]
            simp
        · cases h
      · cases h
    · cases h
  · rintro ⟨lit, _, ⟨s₁, s₂, s₃, hspaces, rfl⟩, hvalue, rfl⟩
    have hs₁ : ∀ t ∈ s₁, isSpace t = true := fun t ht => hspaces t (by simp [ht])
    have hs₂ : ∀ t ∈ s₂, isSpace t = true := fun t ht => hspaces t (by simp [ht])
    have hs₃ : ∀ t ∈ s₃, isSpace t = true := fun t ht => hspaces t (by simp [ht])
    have hopen := @skipSpace_append s₁ hs₁ (.punct .openBracket) rfl
    have hnumber := @skipSpace_append s₂ hs₂ (.number lit) rfl
    have hclose := @skipSpace_append s₃ hs₃ (.punct .closeBracket) rfl
    simp only [constantIndex?, List.append_assoc, List.cons_append, List.nil_append, hopen, hnumber,
      hclose, hvalue, Option.map_some]

/-- An access is found exactly where a bracketed numeral for an index of the array stands, and it
takes up its tokens. -/
theorem access?_eq_some_iff {ts : List BodyToken} {length index n : Nat} :
    access? length ts = some (index, n) ↔
      ∃ lit tokens, IsBracketed lit tokens ∧ IsIndex length lit index ∧ n = tokens.length ∧
        ts = tokens ++ ts.drop n := by
  constructor
  · intro h
    unfold access? at h
    split at h
    · next index' rest hindex =>
      split at h
      · next hlt =>
        cases h
        obtain ⟨lit, tokens, htokens, hvalue, rfl⟩ := constantIndex?_eq_some_iff.mp hindex
        have hlength : (tokens ++ rest).length - rest.length = tokens.length := by
          rw [List.length_append, Nat.add_sub_cancel]
        refine ⟨lit, tokens, htokens, ⟨hvalue, hlt⟩, hlength, ?_⟩
        rw [hlength, List.drop_left]
      · cases h
    · cases h
  · rintro ⟨lit, tokens, htokens, ⟨hvalue, hlt⟩, rfl, hts⟩
    have hindex : constantIndex? ts = some (index, ts.drop tokens.length) :=
      constantIndex?_eq_some_iff.mpr ⟨lit, tokens, htokens, hvalue, hts⟩
    have hlength : ts.length - (ts.drop tokens.length).length = tokens.length := by
      have htotal := congrArg List.length hts
      rw [List.length_append] at htotal
      omega
    rw [access?, hindex]
    simp only [if_pos hlt, hlength]

theorem expandFrom_eq_drop (array : String) (length n : Nat) (ts : List BodyToken) :
    expandFrom array length n ts = expandFrom array length 0 (ts.drop n) := by
  induction ts generalizing n with
  | nil => simp [expandFrom]
  | cons t ts ih =>
      cases n with
      | zero => rfl
      | succ n => simpa [expandFrom] using ih n

/-- The tokens are an access to `array` with the literal `lit` for its index. -/
def IsAccess (array lit : String) (group : List BodyToken) : Prop :=
  ∃ tokens, IsBracketed lit tokens ∧ group = .ident array :: tokens

/-- The tokens are an access to the element `index` of an array of `length` elements. -/
def Replaceable (array : String) (length index : Nat) (group : List BodyToken) : Prop :=
  ∃ lit, IsAccess array lit group ∧ IsIndex length lit index

/-- The tokens begin with an access to an element. -/
def StartsAccess (array : String) (length : Nat) (ts : List BodyToken) : Prop :=
  ∃ index group, Replaceable array length index group ∧ group <+: ts

/-- Every access to an element is written as the name of the element; every other token is kept, in
its order. -/
inductive Expanded (array : String) (length : Nat) : List BodyToken → List BodyToken → Prop
  | nil : Expanded array length [] []
  | access {index : Nat} {group ts us : List BodyToken}
      (replaceable : Replaceable array length index group) (rest : Expanded array length ts us) :
      Expanded array length (group ++ ts) (.ident (elementName array index) :: us)
  | kept {t : BodyToken} {ts us : List BodyToken}
      (other : ¬StartsAccess array length (t :: ts)) (rest : Expanded array length ts us) :
      Expanded array length (t :: ts) (t :: us)

variable {array : String} {length index : Nat}

/-- An access begins with the name of the array and ends with a bracket, with only parts of an index
between them. -/
theorem Replaceable.split {group : List BodyToken} (h : Replaceable array length index group) :
    ∃ before, group = .ident array :: (before ++ [.punct .closeBracket]) ∧
      ∀ t ∈ before, IsIndexPart t := by
  obtain ⟨lit, ⟨tokens, htokens, rfl⟩, hvalue, -⟩ := h
  obtain ⟨before, rfl, hparts⟩ := htokens.split (by rw [hvalue]; rfl)
  exact ⟨before, rfl, hparts⟩

/-- The name of the array is the only name in an access. -/
theorem Replaceable.eq_cons {group : List BodyToken} (h : Replaceable array length index group) :
    ∃ tokens, group = .ident array :: tokens ∧ ∀ name, .ident name ∉ tokens := by
  obtain ⟨before, rfl, hparts⟩ := h.split
  refine ⟨_, rfl, fun name hname => ?_⟩
  rcases List.mem_append.mp hname with hname | hname
  · exact not_isIndexPart_ident name (hparts _ hname)
  · cases List.mem_singleton.mp hname

theorem expandFrom_access {group : List BodyToken} (h : Replaceable array length index group)
    (ts : List BodyToken) :
    expandFrom array length 0 (group ++ ts) =
      (.ident (elementName array index) :: (expandFrom array length 0 ts).1,
        (expandFrom array length 0 ts).2) := by
  obtain ⟨lit, ⟨tokens, htokens, rfl⟩, hindex⟩ := h
  have haccess : access? length (tokens ++ ts) = some (index, tokens.length) :=
    access?_eq_some_iff.mpr ⟨lit, tokens, htokens, hindex, rfl, by rw [List.drop_left]⟩
  rw [List.cons_append, expandFrom, if_pos rfl, haccess]
  simp only [expandFrom_eq_drop array length tokens.length, List.drop_left]

theorem expandFrom_kept {t : BodyToken} {ts : List BodyToken}
    (h : ¬StartsAccess array length (t :: ts)) :
    expandFrom array length 0 (t :: ts) =
      (t :: (expandFrom array length 0 ts).1,
        (if t = .ident array then [.accessNotConstant array] else []) ++
          (expandFrom array length 0 ts).2) := by
  rw [expandFrom]
  by_cases ht : t = .ident array
  · have hnone : access? length ts = none := by
      cases haccess : access? length ts with
      | none => rfl
      | some found =>
          obtain ⟨lit, tokens, htokens, hindex, -, hts⟩ := access?_eq_some_iff.mp haccess
          refine absurd ⟨found.1, t :: tokens, ⟨lit, ⟨tokens, htokens, by rw [ht]⟩, hindex⟩, ?_⟩ h
          exact List.cons_prefix_cons.mpr ⟨rfl, ⟨_, hts.symm⟩⟩
    simp only [if_pos ht, hnone, List.singleton_append]
  · simp only [if_neg ht, List.nil_append]

theorem expanded_expandFrom (array : String) (length : Nat) (ts : List BodyToken) :
    Expanded array length ts (expandFrom array length 0 ts).1 := by
  -- An access is followed by the tokens after its group, so the induction is on the length.
  induction hn : ts.length using Nat.strongRecOn generalizing ts with
  | _ n ih =>
      by_cases haccess : StartsAccess array length ts
      · obtain ⟨index, group, hgroup, rest, rfl⟩ := haccess
        obtain ⟨tokens, rfl, -⟩ := hgroup.eq_cons
        rw [expandFrom_access hgroup]
        apply Expanded.access hgroup
        apply ih _ _ rest rfl
        rw [← hn, List.cons_append, List.length_cons, List.length_append]
        omega
      · cases ts with
        | nil => exact Expanded.nil
        | cons t ts =>
            rw [expandFrom_kept haccess]
            apply Expanded.kept haccess
            apply ih _ _ ts rfl
            rw [← hn, List.length_cons]
            omega

namespace Expanded

variable {ts us : List BodyToken} {name : String}

/-- Of the names in a body only that of the array can go. -/
theorem mem_of_ne (h : Expanded array length ts us) (hne : name ≠ array) (hmem : .ident name ∈ ts) :
    .ident name ∈ us := by
  induction h with
  | nil => exact hmem
  | access hgroup _ ih =>
      obtain ⟨tokens, rfl, hnames⟩ := hgroup.eq_cons
      rcases List.mem_append.mp hmem with hmem | hmem
      · rcases List.mem_cons.mp hmem with heq | hmem
        · exact absurd (BodyToken.ident.inj heq) hne
        · exact absurd hmem (hnames name)
      · exact List.mem_cons_of_mem _ (ih hmem)
  | kept _ _ ih =>
      rcases List.mem_cons.mp hmem with rfl | hmem
      · exact List.mem_cons_self
      · exact List.mem_cons_of_mem _ (ih hmem)

/-- Only names of elements come. -/
theorem mem_or_element (h : Expanded array length ts us) (hmem : .ident name ∈ us) :
    .ident name ∈ ts ∨ ∃ index < length, name = elementName array index := by
  induction h with
  | nil => exact Or.inl hmem
  | @access index _ _ _ hgroup _ ih =>
      rcases List.mem_cons.mp hmem with heq | hmem
      · obtain ⟨-, -, -, hlt⟩ := hgroup
        exact Or.inr ⟨index, hlt, BodyToken.ident.inj heq⟩
      · exact (ih hmem).imp_left (List.mem_append_right _)
  | kept _ _ ih =>
      rcases List.mem_cons.mp hmem with rfl | hmem
      · exact Or.inl List.mem_cons_self
      · exact (ih hmem).imp_left (List.mem_cons_of_mem _)

end Expanded

theorem references_iff {b : Body} {name : String} :
    b.references name = true ↔ .ident name ∈ b.tokens :=
  List.contains_iff_mem

theorem references_expandIndexed {b : Body} {array name : String} {length : Nat}
    (h : b.references name = true) (hne : name ≠ array) :
    (b.expandIndexed array length).1.references name = true :=
  have hexpanded := expanded_expandFrom array length b.tokens
  references_iff.mpr (hexpanded.mem_of_ne hne (references_iff.mp h))

theorem of_references_expandIndexed {b : Body} {array name : String} {length : Nat}
    (h : (b.expandIndexed array length).1.references name = true) :
    b.references name = true ∨ ∃ index < length, name = elementName array index := by
  rw [references_iff]
  exact (expanded_expandFrom array length b.tokens).mem_or_element (references_iff.mp h)

end ShaderUplift.Body
