import ShaderUplift.Proofs.Accesses
import ShaderUplift.Proofs.Lexing.Literal
import ShaderUplift.Proofs.Reproduction

/-! The literals of replaced accesses. An index is read as a decimal numeral, while the language reads
a literal that begins with a zero in base 8; the two readings agree below 8 and nowhere above. A
number that can be read as a numeral is always a literal of the body itself and never stands for a
macro, since the name of a macro begins with no digit. -/

namespace ShaderUplift.Lexing

open Text

theorem digitValue?_of_isDigit {c : Char} (h : c.isDigit = true) :
    digitValue? c = some (c.toNat - 48) := by
  obtain ⟨hlow, hhigh⟩ := Char.isDigit_iff_toNat.mp h
  have hrange : ('0' ≤ c && c ≤ '9') = true := by
    rw [Bool.and_eq_true, decide_eq_true_eq, decide_eq_true_eq]
    exact ⟨UInt32.le_iff_toNat_le.mpr hlow, UInt32.le_iff_toNat_le.mpr hhigh⟩
  rw [digitValue?, if_pos hrange]
  rfl

/-- One more digit of a base. -/
def addDigit? (base n : Nat) (c : Char) : Option Nat :=
  (digitValue? c).bind fun d => if d < base then some (base * n + d) else none

theorem digitsIn?_eq {base : Nat} {cs : List Char} (h : isDigits cs = true) :
    digitsIn? base cs = cs.foldlM (addDigit? base) 0 := by
  simp only [isDigits, Bool.and_eq_true, Bool.not_eq_true'] at h
  rw [digitsIn?, if_neg (by simp [h.1])]
  rfl

theorem addDigit?_of_isDigit {base n : Nat} {c : Char} (h : c.isDigit = true) :
    addDigit? base n c =
      if c.toNat - 48 < base then some (base * n + (c.toNat - 48)) else none := by
  rw [addDigit?, digitValue?_of_isDigit h]
  rfl

theorem foldlM_addDigit?_ten {cs : List Char} (h : cs.all Char.isDigit = true) (start : Nat) :
    cs.foldlM (addDigit? 10) start =
      some (cs.foldl (fun n c => 10 * n + (c.toNat - 48)) start) := by
  induction cs generalizing start with
  | nil => rfl
  | cons c cs ih =>
      obtain ⟨hc, hcs⟩ := Bool.and_eq_true_iff.mp h
      have hdigit : c.toNat - 48 < 10 := by
        have hle : c.toNat ≤ 57 := (Char.isDigit_iff_toNat.mp hc).2
        omega
      rw [List.foldlM_cons, addDigit?_of_isDigit hc, if_pos hdigit, List.foldl_cons]
      exact ih hcs _

/-- Read from the same digits on, a number in base 8 stays at or below that in base 10, and they are
equal as long as there is a single digit. -/
theorem foldlM_addDigit?_eight {cs : List Char} (h : cs.all Char.isDigit = true) {octal decimal n : Nat}
    (hle : octal ≤ decimal) (heq : octal = decimal ↔ decimal < 8)
    (hn : cs.foldlM (addDigit? 8) octal = some n) :
    n ≤ cs.foldl (fun n c => 10 * n + (c.toNat - 48)) decimal ∧
      (n = cs.foldl (fun n c => 10 * n + (c.toNat - 48)) decimal ↔
        cs.foldl (fun n c => 10 * n + (c.toNat - 48)) decimal < 8) := by
  induction cs generalizing octal decimal with
  | nil =>
      cases hn
      exact ⟨hle, heq⟩
  | cons c cs ih =>
      obtain ⟨hc, hcs⟩ := Bool.and_eq_true_iff.mp h
      rw [List.foldlM_cons, addDigit?_of_isDigit hc] at hn
      rw [List.foldl_cons]
      split at hn
      · next hdigit =>
        refine ih hcs ?_ ?_ hn
        · omega
        · omega
      · cases hn

theorem digitsIn?_ten {cs : List Char} (h : isDigits cs = true) :
    digitsIn? 10 cs = some (digitsValue cs) := by
  rw [digitsIn?_eq h]
  exact foldlM_addDigit?_ten (Bool.and_eq_true_iff.mp h).2 0

theorem digitsIn?_eight {cs : List Char} {n : Nat} (h : isDigits cs = true)
    (hn : digitsIn? 8 cs = some n) :
    n ≤ digitsValue cs ∧ (n = digitsValue cs ↔ digitsValue cs < 8) := by
  rw [digitsIn?_eq h] at hn
  exact foldlM_addDigit?_eight (Bool.and_eq_true_iff.mp h).2 (Nat.le_refl 0) (by simp) hn

theorem magnitude?_of_isDigits {cs : List Char} {n : Nat} (h : isDigits cs = true)
    (hn : magnitude? cs = some n) :
    n ≤ digitsValue cs ∧ (n = digitsValue cs ↔ cs.head? ≠ some '0' ∨ digitsValue cs < 8) := by
  unfold magnitude? at hn
  split at hn
  · simp [isDigits] at h
  · simp [isDigits] at h
  · next d ds _ _ =>
    have hdigits : isDigits (d :: ds) = true := by
      simp only [isDigits, List.all_cons, Bool.and_eq_true] at h ⊢
      exact ⟨rfl, h.2.2⟩
    have hvalue : digitsValue ('0' :: d :: ds) = digitsValue (d :: ds) := rfl
    rw [hvalue]
    simpa using digitsIn?_eight hdigits hn
  · next hx hX hzero =>
    rw [digitsIn?_ten h] at hn
    cases hn
    refine ⟨Nat.le_refl _, fun _ => ?_, fun _ => rfl⟩
    cases cs with
    | nil => cases h
    | cons c cs =>
        by_cases hc : c = '0'
        · cases cs with
          | nil => exact Or.inr (by rw [hc]; decide)
          | cons d ds => exact absurd (by rw [hc]) (hzero d ds)
        · exact Or.inl (by simpa using hc)

theorem not_mem_numeral {cs : List Char} (h : ∀ c ∈ cs, c.isDigit = true ∨ c = '+') {c : Char}
    (hdigit : c.isDigit = false) (hplus : c ≠ '+') : c ∉ cs := by
  intro hc
  rcases h c hc with hc | hc
  · rw [hdigit] at hc
    cases hc
  · exact hplus hc

/-- A numeral has no character of a floating point number. -/
theorem not_isFloatShaped {cs : List Char} (h : ∀ c ∈ cs, c.isDigit = true ∨ c = '+') :
    isFloatShaped cs = false := by
  have hmarks : cs.any (fun c => c == '.' || isExponentMark c) = false := by
    rw [List.any_eq_false]
    intro c hc hmark
    simp only [isExponentMark, Bool.or_eq_true, beq_iff_eq] at hmark
    rcases hmark with rfl | rfl | rfl
    all_goals exact not_mem_numeral h rfl (by decide) hc
  have hlast : ∀ c : Char, c.isDigit = false → c ≠ '+' → (cs.getLast? == some c) = false := by
    intro c hdigit hplus
    rw [beq_eq_false_iff_ne]
    intro hlast
    exact not_mem_numeral h hdigit hplus (List.mem_of_getLast? hlast)
  rw [isFloatShaped, hmarks, hlast 'f' rfl (by decide), hlast 'F' rfl (by decide)]
  simp

theorem withoutUnsignedSuffix_of_isDigits {cs : List Char} (h : isDigits cs = true) :
    withoutUnsignedSuffix cs = (cs, false) := by
  have hlast : ∀ c r, cs.reverse = c :: r → c.isDigit = true := by
    intro c r hreverse
    have hmem : c ∈ cs.reverse := by rw [hreverse]; exact List.mem_cons_self
    exact List.all_eq_true.mp (Bool.and_eq_true_iff.mp h).2 c (List.mem_reverse.mp hmem)
  unfold withoutUnsignedSuffix
  split
  · next r hreverse => exact absurd (hlast _ r hreverse) (by decide)
  · next r hreverse => exact absurd (hlast _ r hreverse) (by decide)
  · rfl

theorem magnitude?_of_integer? {cs : List Char} {n : Nat} (h : isDigits cs = true)
    (hn : integer? cs = some n) : magnitude? cs = some n := by
  simp only [integer?, withoutUnsignedSuffix_of_isDigits h] at hn
  obtain ⟨m, hm, hfits⟩ := Option.bind_eq_some_iff.mp hn
  rw [hm, (Option.ite_none_right_eq_some.mp hfits).2]

theorem unsignedDigits_of_unsigned {cs : List Char} (h : Unsigned cs) : unsignedDigits cs = cs := by
  unfold unsignedDigits
  split
  · exact absurd (h '+' List.mem_cons_self) (by decide)
  · rfl

theorem isDigit_of_mem_numeral {cs : List Char} {n : Nat} (h : word32? cs = some n) :
    ∀ c ∈ cs, c.isDigit = true ∨ c = '+' := by
  intro c hc
  have hdigits := (word32?_eq_some_iff.mp h).1
  unfold unsignedDigits at hdigits
  split at hdigits
  · rcases List.mem_cons.mp hc with rfl | hc
    · exact Or.inr rfl
    · exact Or.inl (List.all_eq_true.mp (Bool.and_eq_true_iff.mp hdigits).2 c hc)
  · exact Or.inl (List.all_eq_true.mp (Bool.and_eq_true_iff.mp hdigits).2 c hc)

/-- A literal that is also a numeral is an integer of the language. Its value is that of the numeral,
unless the literal begins with a zero and the numeral is 8 or more; then it is less. -/
theorem integer?_of_word32? {cs : List Char} {index : Nat} (hliteral : isLiteral cs = true)
    (h : word32? cs = some index) :
    isDigits cs = true ∧ digitsValue cs = index ∧
      ∃ value, integer? cs = some value ∧ value ≤ index ∧
        (value = index ↔ cs.head? ≠ some '0' ∨ index < 8) := by
  rw [isLiteral, not_isFloatShaped (isDigit_of_mem_numeral h), if_neg Bool.false_ne_true] at hliteral
  obtain ⟨value, hvalue⟩ := Option.isSome_iff_exists.mp hliteral
  obtain ⟨hdigits, hindex, -⟩ := word32?_eq_some_iff.mp h
  rw [unsignedDigits_of_unsigned (unsigned_of_integer? hvalue)] at hdigits hindex
  have hmagnitude := magnitude?_of_isDigits hdigits (magnitude?_of_integer? hdigits hvalue)
  rw [hindex] at hmagnitude
  exact ⟨hdigits, hindex, value, hvalue, hmagnitude⟩

/-- A glyph that is no character has the end of a line in it. -/
theorem lineEnd_of_mem_glyphs {cs : List Char} :
    ∀ g ∈ glyphs cs, g.endsLine = true → '\n' ∈ g.raw ∨ '\r' ∈ g.raw := by
  fun_induction glyphs cs with
  | case1 =>
      intro g hg
      cases hg
  | case10 c cs =>
      rename_i ih
      intro g hg hend
      rcases List.mem_cons.mp hg with rfl | hg
      · cases hend
      · exact ih g hg hend
  | case2 | case3 | case4 | case5 | case6 | case7 | case8 | case9 =>
      rename_i ih
      intro g hg hend
      rcases List.mem_cons.mp hg with rfl | hg
      · simp [Glyph.raw]
      · exact ih g hg hend

theorem Lexeme.cooked_eq_raw {body : List Char} {l : Lexeme} (hl : l ∈ lexemes body)
    (hnewline : '\n' ∉ l.raw) (hreturn : '\r' ∉ l.raw) : l.cooked = l.raw := by
  refine List.flatMap_congr fun g hg => ?_
  cases g with
  | char c => rfl
  | newline cs | splice cs =>
      have hmem : _ ∈ (lexemes body).flatMap Lexeme.glyphs := List.mem_flatMap.mpr ⟨l, hl, hg⟩
      rw [lexemes, flatMap_glyphs_lexemesFrom, List.drop_zero] at hmem
      rcases lineEnd_of_mem_glyphs _ hmem rfl with hraw | hraw
      · exact absurd (List.mem_flatMap.mpr ⟨_, hg, hraw⟩) hnewline
      · exact absurd (List.mem_flatMap.mpr ⟨_, hg, hraw⟩) hreturn

theorem kind_of_token?_number {l : Lexeme} {n : String} (h : l.token? = some (.number n)) :
    l.kind = .number ∧ String.ofList l.cooked = n := by
  unfold Lexeme.token? at h
  split at h <;> simp_all

/-- A token that is no word and is read as a number is a literal. -/
theorem exists_literal_of_classify? {t : Token} (hword : ∀ w, t ≠ .word w)
    (h : t.classify? = some .number) : ∃ n, t = .number n ∧ isLiteral n.toList = true := by
  cases t with
  | word w => exact absurd rfl (hword w)
  | number n =>
      rw [Token.classify?] at h
      split at h
      · next hliteral => exact ⟨n, rfl, hliteral⟩
      · cases h
  | symbol s =>
      unfold Token.classify? at h
      split at h <;> simp_all
  | paste | invalid => cases h

end ShaderUplift.Lexing

namespace ShaderUplift.Body

open Lexing Preprocessing Text

theorem number_not_mem_gap (lit : String) (cs : List Char) : .number lit ∉ gap cs := by
  unfold gap
  split
  · exact List.not_mem_nil
  · split <;> simp

theorem eq_number_of_tokenOf {kind : TokenClass} {afterDot : Bool} {cs : List Char} {lit : String}
    (h : .number lit = tokenOf kind afterDot cs) : kind = .number ∧ cs = lit.toList := by
  cases kind with
  | number =>
      rw [BodyToken.number.inj h, String.toList_ofList]
      exact ⟨rfl, rfl⟩
  | identifier => cases afterDot <;> cases h
  | mark m => cases h
  | other => cases h

/-- A number among the tokens of a text is the span of a reading that is a number. -/
theorem exists_reading_of_number {body : List Char} {rs : List Reading}
    (hrs : ∀ r ∈ rs, r.start ≤ r.stop) {last : Nat} {afterDot : Bool} {lit : String}
    (h : .number lit ∈ (assemble last afterDot (body.drop last) rs).1) :
    ∃ r ∈ rs, r.kind = .number ∧ span body r = lit.toList := by
  induction rs generalizing last afterDot with
  | nil => exact absurd h (number_not_mem_gap lit _)
  | cons r rs ih =>
      obtain ⟨hr, hrs⟩ := List.forall_mem_cons.mp hrs
      have hlater : ∀ {last : Nat} {afterDot : Bool},
          .number lit ∈ (assemble last afterDot (body.drop last) rs).1 →
          ∃ r' ∈ r :: rs, r'.kind = .number ∧ span body r' = lit.toList := by
        intro last afterDot h
        obtain ⟨r', hr', hkind, hspan⟩ := ih hrs h
        exact ⟨r', List.mem_cons_of_mem _ hr', hkind, hspan⟩
      by_cases hstart : r.start < last
      · rw [assemble_cons_of_lt hstart] at h
        exact hlater h
      · rw [assemble_cons_of_le (Nat.not_lt.mp hstart) hr, List.mem_append, List.mem_cons] at h
        rcases h with h | h | h
        · exact absurd h (number_not_mem_gap lit _)
        · obtain ⟨hkind, hspan⟩ := eq_number_of_tokenOf h
          exact ⟨r, List.mem_cons_self, hkind, hspan⟩
        · exact hlater h

/-- A number of a body that can be read as a numeral is a literal of the language. -/
theorem isLiteral_of_number {text lit : String} {index : Nat}
    (h : .number lit ∈ (parse text).1.tokens) (hindex : word32? lit.toList = some index) :
    isLiteral lit.toList = true := by
  obtain ⟨r, hr, hkind, hspan⟩ := @exists_reading_of_number text.toList
    (stream text.toList).readings (fun r hr => start_le_stop_of_mem_stream hr) 0 false lit h
  obtain ⟨t, ⟨l, hl, htoken, hlength, hlead⟩, hstart, hstop, -, halone⟩ :=
    exists_start_of_mem_stream hr
  have hdigits := isDigit_of_mem_numeral hindex
  have hword : ∀ w, t.token ≠ .word w := by
    intro w hw
    rw [hw] at htoken
    have hfirst := (spelled_of_mem_lexemesFrom hl).2 (kind_of_token?_word htoken).1
    have hspelled := raw_prefix_span hstart hstop hlength hlead
    rw [hspan] at hspelled
    cases hraw : l.raw with
    | nil =>
        rw [hraw] at hfirst
        cases hfirst
    | cons c raw =>
        rw [hraw, startsWith] at hfirst
        rw [hraw] at hspelled
        rcases hdigits c (hspelled.subset List.mem_cons_self) with hdigit | rfl
        · rw [not_isWordStart_of_isDigit hdigit] at hfirst
          cases hfirst
        · exact absurd hfirst (by decide)
  obtain ⟨hend, hclass⟩ := halone hword
  obtain ⟨n, hn, hliteral⟩ := exists_literal_of_classify? hword (hkind ▸ hclass)
  rw [hn] at htoken
  have hraw : lit.toList = l.raw := by
    rw [← hspan]
    exact span_eq_raw hstart hend hlength hlead
  rw [hraw] at hdigits
  have hcooked : l.cooked = l.raw := Lexeme.cooked_eq_raw hl
    (not_mem_numeral hdigits rfl (by decide)) (not_mem_numeral hdigits rfl (by decide))
  rw [hraw, ← hcooked, ← @String.toList_ofList l.cooked, (kind_of_token?_number htoken).2]
  exact hliteral

/-- Where an access is replaced, its literal is a run of decimal digits, and the element is the one
that the digits name in base 10. The language gives the literal a value too. It names the same
element exactly when the literal does not begin with a zero or the element is one of the first
eight; in all other cases the value, in base 8, is less. -/
theorem expandIndexed_element_of_literal {text array lit : String} {length index : Nat}
    {before group after : List BodyToken}
    (htokens : (parse text).1.tokens = before ++ group ++ after) (haccess : IsAccess array lit group)
    (hindex : IsIndex length lit index) :
    ((parse text).1.expandIndexed array length).1.tokens =
        (expandIndexed ⟨before⟩ array length).1.tokens ++
          .ident (elementName array index) :: (expandIndexed ⟨after⟩ array length).1.tokens ∧
      isDigits lit.toList = true ∧ digitsValue lit.toList = index ∧
      ∃ value, integer? lit.toList = some value ∧ value ≤ index ∧
        (value = index ↔ lit.toList.head? ≠ some '0' ∨ index < 8) := by
  have hnumber : .number lit ∈ (parse text).1.tokens := by
    obtain ⟨_, ⟨s₁, s₂, s₃, -, rfl⟩, rfl⟩ := haccess
    rw [htokens]
    simp
  constructor
  · have haround := expandFrom_around ⟨lit, haccess, hindex⟩ before after
    rw [← htokens] at haround
    exact haround
  · exact integer?_of_word32? (isLiteral_of_number hnumber hindex.1) hindex.1

theorem element_of_octal_literal :
    (parse "uv[012].x").1.tokens =
        [] ++ [.ident "uv", .punct .openBracket, .number "012", .punct .closeBracket] ++
          [.punct .dot, .field "x"] ∧
      IsAccess "uv" "012" [.ident "uv", .punct .openBracket, .number "012", .punct .closeBracket] ∧
      IsIndex 13 "012" 12 ∧
      ∃ value, integer? "012".toList = some value ∧ value ≤ 12 ∧
        (value = 12 ↔ "012".toList.head? ≠ some '0' ∨ 12 < 8) := by
  have htokens : (parse "uv[012].x").1.tokens =
      [] ++ [.ident "uv", .punct .openBracket, .number "012", .punct .closeBracket] ++
        [.punct .dot, .field "x"] := by
    decide +kernel
  have haccess : IsAccess "uv" "012"
      [.ident "uv", .punct .openBracket, .number "012", .punct .closeBracket] :=
    ⟨_, ⟨[], [], [], nofun, rfl⟩, rfl⟩
  have hindex : IsIndex 13 "012" 12 := ⟨by decide +kernel, by decide⟩
  exact ⟨htokens, haccess, hindex, (expandIndexed_element_of_literal htokens haccess hindex).2.2.2⟩

/-- The language reads the literal `010` as 8, and the element 10 is written for it. -/
theorem octal_index_misread :
    (parse "uv[010]").1.tokens =
        [.ident "uv", .punct .openBracket, .number "010", .punct .closeBracket] ∧
      ((parse "uv[010]").1.expandIndexed "uv" 11).1.tokens = [.ident (elementName "uv" 10)] ∧
      integer? "010".toList = some 8 ∧ elementName "uv" 10 ≠ elementName "uv" 8 := by
  decide +kernel

end ShaderUplift.Body
