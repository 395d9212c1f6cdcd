import ShaderUplift.Lexing.Lexeme

/-! Signs in number literals. A sign stands only in an exponent, where a digit follows it. -/

namespace ShaderUplift.Lexing

open Text

/-- A digit follows every sign. -/
def signsClosed : List Char → Bool
  | [] => true
  | c :: cs => (!isSign c || startsWith Char.isDigit cs) && signsClosed cs

/-- No character is a sign. -/
def Unsigned (cs : List Char) : Prop := ∀ c ∈ cs, isSign c = false

theorem signsClosed_append_of_unsigned {xs : List Char} (h : Unsigned xs) (ys : List Char) :
    signsClosed (xs ++ ys) = signsClosed ys := by
  induction xs with
  | nil => rfl
  | cons c xs ih =>
      rw [List.cons_append, signsClosed, h c List.mem_cons_self,
        ih fun d hd => h d (List.mem_cons_of_mem _ hd)]
      rfl

theorem signsClosed_of_unsigned {cs : List Char} (h : Unsigned cs) : signsClosed cs = true := by
  simpa [signsClosed] using signsClosed_append_of_unsigned h []

theorem signsClosed_append {xs ys : List Char} (hxs : signsClosed xs = true) (hys : Unsigned ys) :
    signsClosed (xs ++ ys) = true := by
  induction xs with
  | nil => exact signsClosed_of_unsigned hys
  | cons c xs ih =>
      simp only [signsClosed, Bool.and_eq_true, Bool.or_eq_true] at hxs
      rw [List.cons_append, signsClosed, ih hxs.2, Bool.and_true, Bool.or_eq_true]
      refine hxs.1.imp_right fun hdigit => ?_
      cases xs with
      | nil => cases hdigit
      | cons d xs => exact hdigit

theorem not_isSign_of_isDigit {c : Char} (h : c.isDigit = true) : isSign c = false := by
  simp only [isSign, Bool.or_eq_false_iff, beq_eq_false_iff_ne]
  constructor <;> rintro rfl <;> exact absurd h (by decide)

theorem unsigned_of_isDigits {cs : List Char} (h : cs.all Char.isDigit = true) : Unsigned cs :=
  fun c hc => not_isSign_of_isDigit (List.all_eq_true.mp h c hc)

theorem not_isSign_of_isExponentMark {c : Char} (h : isExponentMark c = true) :
    isSign c = false := by
  simp only [isExponentMark, Bool.or_eq_true, beq_iff_eq] at h
  rcases h with rfl | rfl <;> decide

theorem isDigits_cases {cs : List Char} (h : isDigits cs = true) :
    startsWith Char.isDigit cs = true ∧ Unsigned cs := by
  simp only [isDigits, Bool.and_eq_true] at h
  refine ⟨?_, unsigned_of_isDigits h.2⟩
  cases cs with
  | nil => cases h.1
  | cons c cs => exact List.all_eq_true.mp h.2 c List.mem_cons_self

/-- An exponent mark, a sign or another character, and digits. -/
theorem signsClosed_mark_digits {c d : Char} {ds : List Char}
    (h : (isExponentMark c && isDigits ds) = true) : signsClosed (c :: d :: ds) = true := by
  obtain ⟨hmark, hdigits⟩ := Bool.and_eq_true_iff.mp h
  obtain ⟨hdigit, hunsigned⟩ := isDigits_cases hdigits
  rw [signsClosed, signsClosed, not_isSign_of_isExponentMark hmark, hdigit,
    signsClosed_of_unsigned hunsigned]
  simp

theorem signsClosed_of_isExponent {cs : List Char} (h : isExponent cs = true) :
    signsClosed cs = true := by
  unfold isExponent at h
  split at h
  · rfl
  · exact signsClosed_mark_digits h
  · exact signsClosed_mark_digits h
  · obtain ⟨hmark, hdigits⟩ := Bool.and_eq_true_iff.mp h
    rw [signsClosed, not_isSign_of_isExponentMark hmark,
      signsClosed_of_unsigned (isDigits_cases hdigits).2]
    rfl

theorem signsClosed_of_isFloat {cs : List Char} (h : isFloat cs = true) :
    signsClosed cs = true := by
  have hwhole : Unsigned (cs.takeWhile Char.isDigit) := unsigned_of_isDigits List.all_takeWhile
  rw [← @List.takeWhile_append_dropWhile _ Char.isDigit cs, signsClosed_append_of_unsigned hwhole]
  unfold isFloat at h
  dsimp only at h
  split at h
  · next rest hrest =>
    have hfraction : Unsigned (rest.takeWhile Char.isDigit) :=
      unsigned_of_isDigits List.all_takeWhile
    have hexponent := signsClosed_of_isExponent (Bool.and_eq_true_iff.mp h).2
    rw [← signsClosed_append_of_unsigned hfraction, List.takeWhile_append_dropWhile] at hexponent
    rw [hrest, signsClosed, hexponent]
    rfl
  · next rest =>
    exact signsClosed_of_isExponent (Bool.and_eq_true_iff.mp h).2

/-- A floating point suffix has no sign. -/
theorem withoutFloatSuffix_append (cs : List Char) :
    ∃ suffix, cs = withoutFloatSuffix cs ++ suffix ∧ Unsigned suffix := by
  have hsplit : ∀ r suffix : List Char, cs.reverse = suffix.reverse ++ r →
      cs = r.reverse ++ suffix := by
    intro r suffix h
    rw [← List.reverse_reverse cs, h, List.reverse_append, List.reverse_reverse]
  unfold withoutFloatSuffix
  split
  · next r h => exact ⟨['l', 'f'], hsplit r _ h, by simp [Unsigned]; decide⟩
  · next r h => exact ⟨['L', 'F'], hsplit r _ h, by simp [Unsigned]; decide⟩
  · next r _ h => exact ⟨['f'], hsplit r _ h, by simp [Unsigned]; decide⟩
  · next r _ h => exact ⟨['F'], hsplit r _ h, by simp [Unsigned]; decide⟩
  · exact ⟨[], (List.append_nil cs).symm, nofun⟩

theorem unsigned_append {xs ys : List Char} (hxs : Unsigned xs) (hys : Unsigned ys) :
    Unsigned (xs ++ ys) := by
  intro c hc
  rcases List.mem_append.mp hc with hc | hc
  · exact hxs c hc
  · exact hys c hc

theorem not_isSign_of_digitValue? {c : Char} {d : Nat} (h : digitValue? c = some d) :
    isSign c = false := by
  have hsigns : digitValue? '+' = none ∧ digitValue? '-' = none := by decide
  simp only [isSign, Bool.or_eq_false_iff, beq_eq_false_iff_ne]
  constructor
  · rintro rfl
    rw [hsigns.1] at h
    cases h
  · rintro rfl
    rw [hsigns.2] at h
    cases h

theorem unsigned_of_digitsIn? {base : Nat} {cs : List Char} {n : Nat}
    (h : digitsIn? base cs = some n) : Unsigned cs := by
  unfold digitsIn? at h
  split at h
  · cases h
  · next hne =>
    clear hne
    generalize (0 : Nat) = start at h
    induction cs generalizing start with
    | nil => nofun
    | cons c cs ih =>
        obtain ⟨next, hnext, h⟩ := Option.bind_eq_some_iff.mp h
        obtain ⟨d, hd, -⟩ := Option.bind_eq_some_iff.mp hnext
        intro e he
        rcases List.mem_cons.mp he with rfl | he
        · exact not_isSign_of_digitValue? hd
        · exact ih next h e he

theorem unsigned_of_magnitude? {cs : List Char} {n : Nat} (h : magnitude? cs = some n) :
    Unsigned cs := by
  unfold magnitude? at h
  split at h
  · exact @unsigned_append ['0', 'x'] _ (by simp [Unsigned]; decide) (unsigned_of_digitsIn? h)
  · exact @unsigned_append ['0', 'X'] _ (by simp [Unsigned]; decide) (unsigned_of_digitsIn? h)
  · exact @unsigned_append ['0'] _ (by simp [Unsigned]; decide) (unsigned_of_digitsIn? h)
  · exact unsigned_of_digitsIn? h

/-- An integer literal has no sign at all. -/
theorem unsigned_of_integer? {cs : List Char} {n : Nat} (h : integer? cs = some n) :
    Unsigned cs := by
  obtain ⟨m, hm, -⟩ := Option.bind_eq_some_iff.mp h
  have hdigits := unsigned_of_magnitude? hm
  split at hdigits
  · next r hr =>
    rw [← List.reverse_reverse cs, hr, List.reverse_cons]
    exact unsigned_append hdigits (by simp [Unsigned]; decide)
  · next r hr =>
    rw [← List.reverse_reverse cs, hr, List.reverse_cons]
    exact unsigned_append hdigits (by simp [Unsigned]; decide)
  · exact hdigits

theorem signsClosed_of_isLiteral {cs : List Char} (h : isLiteral cs = true) :
    signsClosed cs = true := by
  unfold isLiteral at h
  split at h
  · obtain ⟨suffix, hsplit, hunsigned⟩ := withoutFloatSuffix_append cs
    rw [hsplit]
    exact signsClosed_append (signsClosed_of_isFloat h) hunsigned
  · obtain ⟨n, hn⟩ := Option.isSome_iff_exists.mp h
    exact signsClosed_of_unsigned (unsigned_of_integer? hn)

end ShaderUplift.Lexing
