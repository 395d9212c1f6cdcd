import ShaderUplift.Lexing.Token
import ShaderUplift.Proofs.Source.CommentFree

/-! Lexemes of a plain text, which has no hash, no backslash and no comment. Each of its lexemes is
spelled as it stands in the text, and a word is never followed by a word character. -/

namespace ShaderUplift.Lexing

open Text Source

/-- A glyph of a plain text. -/
def Glyph.Plain : Glyph → Prop
  | .char c => c ≠ '#' ∧ c ≠ '\\'
  | .newline raw => raw ≠ [] ∧ raw.all isBlank = true
  | .splice _ => False

theorem plain_of_mem_glyphs {cs : List Char} (hhash : '#' ∉ cs) (hback : '\\' ∉ cs) :
    ∀ g ∈ glyphs cs, g.Plain := by
  fun_induction glyphs cs with
  | case1 =>
      intro g hg
      cases hg
  | case2 | case3 | case4 | case5 => exact absurd List.mem_cons_self hback
  | case6 cs ih | case7 cs ih =>
      intro g hg
      simp only [List.mem_cons, not_or] at hhash hback hg
      rcases hg with rfl | hg
      · simp only [Glyph.Plain]; decide
      · exact ih hhash.2.2 hback.2.2 g hg
  | case8 cs _ ih | case9 cs _ ih =>
      intro g hg
      simp only [List.mem_cons, not_or] at hhash hback hg
      rcases hg with rfl | hg
      · simp only [Glyph.Plain]; decide
      · exact ih hhash.2 hback.2 g hg
  | case10 c cs =>
      rename_i ih
      intro g hg
      simp only [List.mem_cons, not_or] at hhash hback hg
      rcases hg with rfl | hg
      · exact ⟨Ne.symm hhash.1, Ne.symm hback.1⟩
      · exact ih hhash.2 hback.2 g hg

@[simp]
theorem flatMap_raw_map_char (cs : List Char) : (cs.map Glyph.char).flatMap Glyph.raw = cs := by
  induction cs with
  | nil => rfl
  | cons c cs ih => rw [List.map_cons, List.flatMap_cons, ih]; rfl

@[simp]
theorem flatMap_cooked_map_char (cs : List Char) :
    (cs.map Glyph.char).flatMap Glyph.cooked = cs := by
  induction cs with
  | nil => rfl
  | cons c cs ih => rw [List.map_cons, List.flatMap_cons, ih]; rfl

/-- The rest of a word is the longest run of word characters. -/
theorem wordTail_run {gs : List Glyph} (hplain : ∀ g ∈ gs, g.Plain) :
    ∃ cs : List Char, gs.take (wordTail gs) = cs.map Glyph.char ∧ cs.all isWordChar = true ∧
      startsWith isWordChar ((gs.drop (wordTail gs)).flatMap Glyph.raw) = false := by
  induction gs with
  | nil => exact ⟨[], rfl, rfl, rfl⟩
  | cons g gs ih =>
      have hg := hplain g List.mem_cons_self
      cases g with
      | splice raw => exact hg.elim
      | newline raw =>
          obtain ⟨hne, hblank⟩ := hg
          obtain ⟨c, raw, rfl⟩ := List.exists_cons_of_ne_nil hne
          rw [List.all_cons, Bool.and_eq_true] at hblank
          refine ⟨[], rfl, rfl, ?_⟩
          simpa [wordTail, Glyph.raw, startsWith] using not_isWordChar_of_isBlank hblank.1
      | char c =>
          rw [wordTail]
          split
          · next hc =>
            obtain ⟨cs, htake, hall, hstop⟩ := ih fun g hg => hplain g (List.mem_cons_of_mem _ hg)
            refine ⟨c :: cs, ?_, ?_, ?_⟩
            · rw [Nat.add_comm, List.take_succ_cons, htake, List.map_cons]
            · rw [List.all_cons, hc, hall]
              rfl
            · rw [Nat.add_comm, List.drop_succ_cons]
              exact hstop
          · next hc =>
            refine ⟨[], rfl, rfl, ?_⟩
            simpa [Glyph.raw, startsWith] using hc

/-- The rest of a number has letters, digits, points and signs. -/
theorem numberTail_run {gs : List Glyph} (hplain : ∀ g ∈ gs, g.Plain) (afterMark : Bool) :
    ∃ cs : List Char, gs.take (numberTail afterMark gs) = cs.map Glyph.char ∧
      ∀ c ∈ cs, c.isAlphanum = true ∨ c = '.' ∨ isSign c = true := by
  induction gs generalizing afterMark with
  | nil => exact ⟨[], rfl, nofun⟩
  | cons g gs ih =>
      have hgs : ∀ g ∈ gs, g.Plain := fun g hg => hplain g (List.mem_cons_of_mem _ hg)
      cases g with
      | splice raw => exact (hplain _ List.mem_cons_self).elim
      | newline raw => exact ⟨[], rfl, nofun⟩
      | char c =>
          rw [numberTail]
          split
          · next hc =>
            obtain ⟨cs, htake, hall⟩ := ih hgs (isExponentMark c)
            refine ⟨c :: cs, ?_, ?_⟩
            · rw [Nat.add_comm, List.take_succ_cons, htake, List.map_cons]
            · intro d hd
              rcases List.mem_cons.mp hd with rfl | hd
              · simp only [Bool.or_eq_true, Bool.and_eq_true, beq_iff_eq] at hc
                rcases hc with (hc | hc) | hc
                · exact Or.inl hc
                · exact Or.inr (Or.inl hc)
                · exact Or.inr (Or.inr hc.2)
              · exact hall d hd
          · exact ⟨[], rfl, nofun⟩

/-- What a lexeme of a plain text is, with the text after it. -/
def Lexeme.Plain (l : Lexeme) (after : List Char) : Prop :=
  match l.kind with
  | .blank | .newline => l.raw.all isBlank = true
  | .word => l.cooked = l.raw ∧ startsWith isWordStart l.raw = true ∧
      l.raw.all isWordChar = true ∧ startsWith isWordChar after = false
  | .number => l.cooked = l.raw ∧ startsWith isWordStart l.raw = false ∧
      ∀ c ∈ l.raw, c.isAlphanum = true ∨ c = '.' ∨ isSign c = true
  | .symbol => l.cooked = l.raw ∧ ∃ s ∈ symbols, l.raw = s.toList
  | .hash | .doubleHash => False
  | .invalid => True

theorem raw_mk_char (kind : LexemeKind) (c : Char) (gs : List Glyph) :
    Lexeme.raw ⟨kind, .char c :: gs⟩ = c :: gs.flatMap Glyph.raw := rfl

theorem cooked_mk_char (kind : LexemeKind) (c : Char) (gs : List Glyph) :
    Lexeme.cooked ⟨kind, .char c :: gs⟩ = c :: gs.flatMap Glyph.cooked := rfl

theorem unlessBackslash_eq {gs : List Glyph} (hplain : ∀ g ∈ gs, g.Plain) (kind : LexemeKind)
    (n : Nat) : unlessBackslash kind n gs = (kind, n) := by
  rw [unlessBackslash, if_neg]
  intro hhead
  have hmem := List.mem_of_mem_drop (List.mem_of_mem_head? hhead)
  exact (hplain _ hmem).2 rfl

theorem plainChars_split (gs : List Glyph) : ∃ rest, gs = (plainChars gs).map Glyph.char ++ rest := by
  fun_induction plainChars gs with
  | case1 c gs ih =>
      obtain ⟨rest, hrest⟩ := ih
      exact ⟨rest, by rw [List.map_cons, List.cons_append, ← hrest]⟩
  | case2 gs => exact ⟨gs, rfl⟩

/-- The character after the first one, when it is not a line end. -/
theorem head?_of_next {gs : List Glyph} {d : Char}
    (h : (plainChars (gs.take 2)).head? = some d) : (gs.flatMap Glyph.raw).head? = some d := by
  cases gs with
  | nil => cases h
  | cons g gs =>
      cases g with
      | char c => simpa [plainChars, Glyph.raw] using h
      | newline raw | splice raw => simp [plainChars] at h

/-- The glyphs of a symbol spell it. -/
theorem take_of_symbol {c : Char} {gs : List Glyph} {s : String} (hs : s ∈ symbols)
    (h : s.toList.isPrefixOf (c :: plainChars (gs.take 2)) = true) :
    ∃ cs : List Char, s.toList = c :: cs ∧ gs.take (s.length - 1) = cs.map Glyph.char := by
  have hne : ∀ s ∈ symbols, s.toList ≠ [] := by decide
  obtain ⟨d, cs, hcs⟩ := List.exists_cons_of_ne_nil (hne s hs)
  rw [hcs, List.isPrefixOf_iff_prefix, List.cons_prefix_cons] at h
  obtain ⟨rfl, more, hmore⟩ := h
  refine ⟨cs, hcs, ?_⟩
  have hlength : s.length - 1 = cs.length := by
    rw [← String.length_toList, hcs, List.length_cons, Nat.add_sub_cancel]
  obtain ⟨rest, hrest⟩ := plainChars_split (gs.take 2)
  rw [← hmore, List.map_append, List.append_assoc] at hrest
  have hgs : gs = cs.map Glyph.char ++ (more.map Glyph.char ++ rest ++ gs.drop 2) := by
    calc gs = gs.take 2 ++ gs.drop 2 := (List.take_append_drop 2 gs).symm
      _ = _ := by rw [hrest, List.append_assoc, List.append_assoc]
  rw [hlength, hgs]
  exact List.take_left' (List.length_map _)

theorem plain_charShape {c : Char} {gs : List Glyph} (hc : c ≠ '#') (hplain : ∀ g ∈ gs, g.Plain)
    (hfree : CommentFree (c :: gs.flatMap Glyph.raw)) :
    Lexeme.Plain ⟨(charShape c gs).1, .char c :: gs.take (charShape c gs).2⟩
      ((gs.drop (charShape c gs).2).flatMap Glyph.raw) := by
  have hcomment : ∀ d, (plainChars (gs.take 2)).head? = some d →
      ¬(c = '/' ∧ (d = '/' ∨ d = '*')) := by
    intro d hd
    exact (List.isChain_cons.mp hfree).1 d (head?_of_next hd)
  unfold charShape
  dsimp only
  split
  · next hblank =>
    simp only [Bool.or_eq_true, beq_iff_eq] at hblank
    simp only [Lexeme.Plain, raw_mk_char, List.take_zero, List.flatMap_nil]
    rcases hblank with (rfl | rfl) | rfl <;> decide
  split
  · next hstart =>
    obtain ⟨cs, htake, hall, hstop⟩ := wordTail_run hplain
    rw [unlessBackslash_eq hplain]
    simp only [Lexeme.Plain, raw_mk_char, cooked_mk_char, htake, flatMap_raw_map_char,
      flatMap_cooked_map_char]
    refine ⟨trivial, hstart, ?_, hstop⟩
    rw [List.all_cons, isWordChar_of_isWordStart hstart, hall]
    rfl
  split
  · next hstart hnumber =>
    obtain ⟨cs, htake, hall⟩ := numberTail_run hplain false
    rw [unlessBackslash_eq hplain]
    simp only [Lexeme.Plain, raw_mk_char, cooked_mk_char, htake, flatMap_raw_map_char,
      flatMap_cooked_map_char, startsWith]
    refine ⟨trivial, by simpa using hstart, ?_⟩
    intro d hd
    rcases List.mem_cons.mp hd with rfl | hd
    · simp only [Bool.or_eq_true, Bool.and_eq_true, beq_iff_eq] at hnumber
      rcases hnumber with hdigit | ⟨hdot, -⟩
      · exact Or.inl (by simp [Char.isAlphanum, hdigit])
      · exact Or.inr (Or.inl hdot)
    · exact hall d hd
  split
  · next hline =>
    simp only [Bool.and_eq_true, beq_iff_eq] at hline
    exact absurd ⟨hline.1, Or.inl rfl⟩ (hcomment '/' hline.2)
  split
  · next hblock =>
    simp only [Bool.and_eq_true, beq_iff_eq] at hblock
    exact absurd ⟨hblock.1, Or.inr rfl⟩ (hcomment '*' hblock.2)
  split
  · next hhash => exact absurd (beq_iff_eq.mp hhash) hc
  split
  · trivial
  split
  · next s hfind =>
    have hs := List.mem_of_find?_eq_some hfind
    have hlead : s.toList.isPrefixOf (c :: plainChars (gs.take 2)) = true := by
      simpa using List.find?_some hfind
    obtain ⟨cs, hcs, htake⟩ := take_of_symbol hs hlead
    simp only [Lexeme.Plain, raw_mk_char, cooked_mk_char, htake, flatMap_raw_map_char,
      flatMap_cooked_map_char]
    exact ⟨trivial, s, hs, hcs.symm⟩
  · trivial

theorem plain_shape {g : Glyph} {gs : List Glyph} (hplain : ∀ h ∈ g :: gs, h.Plain)
    (hfree : CommentFree ((g :: gs).flatMap Glyph.raw)) :
    Lexeme.Plain ⟨(shape g gs).1, g :: gs.take (shape g gs).2⟩
      ((gs.drop (shape g gs).2).flatMap Glyph.raw) := by
  have hg := hplain g List.mem_cons_self
  have hgs : ∀ h ∈ gs, h.Plain := fun h hh => hplain h (List.mem_cons_of_mem _ hh)
  cases g with
  | splice raw => exact hg.elim
  | newline raw => simpa [shape, Lexeme.Plain, Lexeme.raw, Glyph.raw] using hg.2
  | char c => exact plain_charShape hg.1 hgs hfree

/-- Every lexeme is plain, with the text of the lexemes after it. -/
def PlainLexemes : List Lexeme → Prop
  | [] => True
  | l :: ls => l.Plain (ls.flatMap Lexeme.raw) ∧ PlainLexemes ls

theorem plainLexemes_lexemesFrom {gs : List Glyph} (hplain : ∀ g ∈ gs, g.Plain)
    (hfree : CommentFree (gs.flatMap Glyph.raw)) : PlainLexemes (lexemesFrom 0 gs) := by
  -- The next lexeme starts after all glyphs of this one, so the induction is on the length.
  induction hn : gs.length using Nat.strong_induction_on generalizing gs with
  | _ n ih =>
      cases gs with
      | nil => trivial
      | cons g gs =>
          have hrest : (lexemesFrom 0 (g :: gs)) =
              ⟨(shape g gs).1, g :: gs.take (shape g gs).2⟩ ::
                lexemesFrom 0 (gs.drop (shape g gs).2) := by
            rw [← lexemesFrom_eq_drop]
            rfl
          have hsuffix : gs.drop (shape g gs).2 <:+ g :: gs :=
            (List.drop_suffix _ _).trans (List.suffix_cons g gs)
          rw [hrest]
          refine ⟨?_, ih _ ?_ ?_ ?_ rfl⟩
          · rw [flatMap_raw_lexemesFrom]
            exact plain_shape hplain hfree
          · rw [← hn, List.length_drop, List.length_cons]
            omega
          · intro h hh
            exact hplain h (hsuffix.subset hh)
          · obtain ⟨before, hbefore⟩ := hsuffix
            rw [← hbefore, List.flatMap_append] at hfree
            exact (List.isChain_append.mp hfree).2.1

/-- The lexemes of a plain text are plain. -/
theorem plainLexemes_lexemes {cs : List Char} (hhash : '#' ∉ cs) (hback : '\\' ∉ cs)
    (hfree : CommentFree cs) : PlainLexemes (lexemes cs) := by
  refine plainLexemes_lexemesFrom (plain_of_mem_glyphs hhash hback) ?_
  rw [flatMap_raw_glyphs]
  exact hfree

end ShaderUplift.Lexing
