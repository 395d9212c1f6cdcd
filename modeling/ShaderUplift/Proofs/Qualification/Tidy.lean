import ShaderUplift.Proofs.Lexing.Literal
import ShaderUplift.Proofs.Lexing.PlainText
import ShaderUplift.Proofs.Preprocessing.PlainStream
import ShaderUplift.Proofs.Qualification.Exposure

/-! Tidy bodies. The words of a tidy body that are not after a dot are exactly its identifiers, its
keywords and its words for numbers, each a token of its own. A plain text that is read to its end
has a tidy body, and a body stays tidy when array accesses are replaced by the names of elements. -/

namespace ShaderUplift

open Lexing Preprocessing Source Text

/-- A word that a body without macros of its own reads as an identifier. -/
structure Identifier (name : String) : Prop where
  start : startsWith isWordStart name.toList = true
  chars : name.toList.all isWordChar = true
  read : (bareToken (.word name)).classify? = some .identifier

/-- A word that is read as something else, and the text after it. -/
structure OtherWord (word : String) (after : List Char) : Prop where
  isWord : isWord word = true
  read : ¬Identifier word
  stop : startsWith isWordChar after = false

/-- Every run of word characters starts with a digit or comes after a point. -/
def Numeric (cs : List Char) : Prop :=
  startsWith isWordStart cs = false ∧
    cs.IsChain fun c d => isWordStart d = true → isWordChar c = true ∨ c = '.'

/-- The token may stand in a tidy body before the text `after`. -/
def TidyToken (afterDot : Bool) (after : List Char) : BodyToken → Prop
  | .ident name => Identifier name ∧ startsWith isWordChar after = false
  | .field name => afterDot = true ∧ isWord name = true
  | .number text => Numeric text.toList ∨ OtherWord text after
  | .space text => text.toList.all isBlank = true
  | .punct mark => mark = .closeBracket → startsWith isWordChar after = false
  | .text text => text.toList.any isWordChar = false ∨ OtherWord text after

/-- The last token that is not a space is a dot, when `afterDot` tells so of the tokens before. -/
def BodyToken.leavesDot (afterDot : Bool) : BodyToken → Bool
  | .space _ => afterDot
  | .punct .dot => true
  | _ => false

def Tidy (afterDot : Bool) : List BodyToken → Prop
  | [] => True
  | t :: ts => TidyToken afterDot (ts.flatMap BodyToken.chars) t ∧ Tidy (t.leavesDot afterDot) ts

theorem Identifier.isWord {name : String} (h : Identifier name) : isWord name = true := by
  refine isWord_iff.mpr ⟨?_, h.chars⟩
  intro hnil
  have hstart := h.start
  rw [hnil] at hstart
  cases hstart

/-- A literal of letters, digits, points and signs is numeric when it does not start like a word. -/
theorem numeric_of_signsClosed {cs : List Char} (hstart : startsWith isWordStart cs = false)
    (hchars : ∀ c ∈ cs, c.isAlphanum = true ∨ c = '.' ∨ isSign c = true)
    (hsigns : signsClosed cs = true) : Numeric cs := by
  refine ⟨hstart, ?_⟩
  clear hstart
  induction cs with
  | nil => exact List.IsChain.nil
  | cons c cs ih =>
      simp only [signsClosed, Bool.and_eq_true, Bool.or_eq_true, Bool.not_eq_true'] at hsigns
      refine List.isChain_cons.mpr
        ⟨?_, ih (fun d hd => hchars d (List.mem_cons_of_mem _ hd)) hsigns.2⟩
      intro d hd hword
      rcases hchars c List.mem_cons_self with hc | hc | hc
      · exact Or.inl (by simp [isWordChar, hc])
      · exact Or.inr hc
      · have hdigit : startsWith Char.isDigit cs = true := by simpa [hc] using hsigns.1
        obtain ⟨rest, rfl⟩ := List.head?_eq_some_iff.mp hd
        rw [not_isWordStart_of_isDigit hdigit] at hword
        cases hword

theorem classify?_bareToken_word {w : String} {kind : TokenClass}
    (h : (bareToken (.word w)).classify? = some kind) :
    kind = .identifier ∨ kind = .number ∨ kind = .other := by
  rw [bareToken] at h
  cases hbuiltin : builtin? 0 w with
  | none =>
      rw [hbuiltin, Option.elim_none, Token.classify?] at h
      split at h
      · cases h
      split at h
      · exact Or.inr (Or.inl (Option.some.inj h).symm)
      split at h
      · exact Or.inr (Or.inr (Option.some.inj h).symm)
      · exact Or.inl (Option.some.inj h).symm
  | some n =>
      rw [hbuiltin, Option.elim_some, Token.classify?] at h
      split at h
      · exact Or.inr (Or.inl (Option.some.inj h).symm)
      · cases h

theorem classify?_symbol {s : String} {kind : TokenClass}
    (h : (Token.symbol s).classify? = some kind) :
    (∃ m, kind = .mark m ∧ s.toList = [Mark.char m]) ∨ kind = .other := by
  unfold Token.classify? at h
  split at h
  · next heq => cases heq
  · next heq => cases heq
  · next heq =>
    cases heq
    exact Or.inl ⟨.dot, (Option.some.inj h).symm, rfl⟩
  · next heq =>
    cases heq
    exact Or.inl ⟨.openBracket, (Option.some.inj h).symm, rfl⟩
  · next heq =>
    cases heq
    exact Or.inl ⟨.closeBracket, (Option.some.inj h).symm, rfl⟩
  · exact Or.inr (Option.some.inj h).symm
  · cases h
  · cases h

theorem any_isWordChar_of_mem_symbols {s : String} (hs : s ∈ symbols) :
    s.toList.any isWordChar = false := by
  revert s
  decide

theorem tidyToken_word {cs after : List Char} {kind : TokenClass} (afterDot : Bool)
    (hstart : startsWith isWordStart cs = true) (hall : cs.all isWordChar = true)
    (hstop : startsWith isWordChar after = false)
    (hkind : (bareToken (.word (String.ofList cs))).classify? = some kind) :
    TidyToken afterDot after (Body.tokenOf kind afterDot cs) ∧
      (Body.tokenOf kind afterDot cs).chars = cs := by
  have hword : isWord (String.ofList cs) = true := by
    refine isWord_iff.mpr ?_
    rw [String.toList_ofList]
    refine ⟨?_, hall⟩
    rintro rfl
    cases hstart
  have hother : kind ≠ .identifier → OtherWord (String.ofList cs) after := by
    intro hne
    refine ⟨hword, ?_, hstop⟩
    intro hident
    exact hne (Option.some.inj (hkind.symm.trans hident.read))
  rcases classify?_bareToken_word hkind with rfl | rfl | rfl
  · cases afterDot with
    | true => exact ⟨⟨rfl, hword⟩, String.toList_ofList⟩
    | false =>
        refine ⟨⟨⟨?_, ?_, hkind⟩, hstop⟩, String.toList_ofList⟩
        · rw [String.toList_ofList]
          exact hstart
        · rw [String.toList_ofList]
          exact hall
  · exact ⟨Or.inr (hother (by decide)), String.toList_ofList⟩
  · exact ⟨Or.inr (hother (by decide)), String.toList_ofList⟩

theorem tidyToken_number {cs after : List Char} {kind : TokenClass} (afterDot : Bool)
    (hstart : startsWith isWordStart cs = false)
    (hchars : ∀ c ∈ cs, c.isAlphanum = true ∨ c = '.' ∨ isSign c = true)
    (hkind : (Token.number (String.ofList cs)).classify? = some kind) :
    TidyToken afterDot after (Body.tokenOf kind afterDot cs) ∧
      (Body.tokenOf kind afterDot cs).chars = cs := by
  rw [Token.classify?, String.toList_ofList] at hkind
  split at hkind
  · next hliteral =>
    cases hkind
    refine ⟨Or.inl ?_, String.toList_ofList⟩
    rw [String.toList_ofList]
    exact numeric_of_signsClosed hstart hchars (signsClosed_of_isLiteral hliteral)
  · cases hkind

theorem tidyToken_symbol {cs after : List Char} {kind : TokenClass} (afterDot : Bool)
    {s : String} (hs : s ∈ symbols) (hcs : cs = s.toList)
    (hclosed : cs = [']'] → startsWith isWordChar after = false)
    (hkind : (Token.symbol (String.ofList cs)).classify? = some kind) :
    TidyToken afterDot after (Body.tokenOf kind afterDot cs) ∧
      (Body.tokenOf kind afterDot cs).chars = cs := by
  rcases classify?_symbol hkind with ⟨m, rfl, hm⟩ | rfl
  · rw [String.toList_ofList] at hm
    refine ⟨?_, hm.symm⟩
    rintro rfl
    exact hclosed hm
  · refine ⟨Or.inl ?_, String.toList_ofList⟩
    rw [String.toList_ofList, hcs]
    exact any_isWordChar_of_mem_symbols hs

/-- The token of a lexeme of a plain text is tidy and spells the lexeme. -/
theorem tidyToken_tokenOf {l : Lexeme} {after : List Char} {kind : TokenClass} (afterDot : Bool)
    (hplain : l.Plain after) (hclass : bareClass? l = some kind)
    (hclosed : l.raw = [']'] → startsWith isWordChar after = false) :
    TidyToken afterDot after (Body.tokenOf kind afterDot l.raw) ∧
      (Body.tokenOf kind afterDot l.raw).chars = l.raw := by
  obtain ⟨t, htoken, hkind⟩ := Option.bind_eq_some_iff.mp hclass
  unfold Lexeme.token? at htoken
  unfold Lexeme.Plain at hplain
  cases hl : l.kind with
  | blank | newline =>
      rw [hl] at htoken
      cases htoken
  | word =>
      rw [hl] at htoken hplain
      obtain ⟨hcooked, hstart, hall, hstop⟩ := hplain
      cases htoken
      rw [hcooked] at hkind
      exact tidyToken_word afterDot hstart hall hstop hkind
  | number =>
      rw [hl] at htoken hplain
      obtain ⟨hcooked, hstart, hchars⟩ := hplain
      cases htoken
      rw [hcooked] at hkind
      exact tidyToken_number afterDot hstart hchars hkind
  | symbol =>
      rw [hl] at htoken hplain
      obtain ⟨hcooked, s, hs, hraw⟩ := hplain
      cases htoken
      rw [hcooked] at hkind
      exact tidyToken_symbol afterDot hs hraw hclosed hkind
  | hash | doubleHash =>
      rw [hl] at hplain
      exact hplain.elim
  | invalid =>
      rw [hl] at htoken
      cases htoken
      cases hkind

/-- No word follows a closing bracket directly. -/
def BracketsClosed (cs : List Char) : Prop :=
  cs.IsChain fun c d => c = ']' → isWordChar d = false

theorem BracketsClosed.of_append {xs ys : List Char} (h : BracketsClosed (xs ++ ys)) :
    BracketsClosed ys :=
  (List.isChain_append.mp h).2.1

theorem BracketsClosed.startsWith {ys : List Char} (h : BracketsClosed ([']'] ++ ys)) :
    startsWith isWordChar ys = false := by
  cases ys with
  | nil => rfl
  | cons d ys => exact (List.isChain_cons.mp h).1 d rfl rfl

theorem gap_of_blank {pending : List Char} (h : pending.all isBlank = true) :
    (pending = [] ∧ Body.gap pending = []) ∨
      Body.gap pending = [.space (String.ofList pending)] := by
  cases pending with
  | nil => exact Or.inl ⟨rfl, rfl⟩
  | cons c cs => exact Or.inr (by simp [Body.gap, allBlank, h])

theorem tidy_gap_append {pending : List Char} (h : pending.all isBlank = true) {afterDot : Bool}
    {ts : List BodyToken} (hts : Tidy afterDot ts) :
    Tidy afterDot (Body.gap pending ++ ts) ∧
      (Body.gap pending ++ ts).flatMap BodyToken.chars =
        pending ++ ts.flatMap BodyToken.chars := by
  rcases gap_of_blank h with ⟨rfl, hgap⟩ | hgap
  · rw [hgap]
    exact ⟨hts, rfl⟩
  · rw [hgap]
    refine ⟨⟨?_, hts⟩, ?_⟩
    · rw [TidyToken, String.toList_ofList]
      exact h
    · simp [BodyToken.chars]

theorem leavesDot_tokenOf (kind : TokenClass) (afterDot : Bool) (cs : List Char) :
    (Body.tokenOf kind afterDot cs).leavesDot afterDot = decide (kind = .mark .dot) := by
  cases kind with
  | identifier => cases afterDot <;> rfl
  | number | other => rfl
  | mark m => cases m <;> rfl

theorem all_isBlank_of_token?_eq_none {l : Lexeme} {after : List Char} (hplain : l.Plain after)
    (h : l.token? = none) : l.raw.all isBlank = true := by
  unfold Lexeme.token? at h
  unfold Lexeme.Plain at hplain
  cases hl : l.kind with
  | blank | newline =>
      rw [hl] at hplain
      exact hplain
  | word | number | symbol | hash | doubleHash | invalid =>
      rw [hl] at h
      cases h

/-- The tokens of plain lexemes, all of them read, are tidy and spell the lexemes. -/
theorem tidy_tokensFrom {ls : List Lexeme} (hplain : PlainLexemes ls)
    (hread : ∀ l ∈ ls, l.token?.isSome = true → (bareClass? l).isSome = true)
    (hclosed : BracketsClosed (ls.flatMap Lexeme.raw)) {pending : List Char}
    (hpending : pending.all isBlank = true) (afterDot : Bool) :
    Tidy afterDot (Body.tokensFrom pending afterDot ls) ∧
      (Body.tokensFrom pending afterDot ls).flatMap BodyToken.chars =
        pending ++ ls.flatMap Lexeme.raw := by
  induction ls generalizing pending afterDot with
  | nil =>
      have hgap := @tidy_gap_append pending hpending afterDot [] trivial
      simpa [Body.tokensFrom] using hgap
  | cons l ls ih =>
      obtain ⟨hl, hls⟩ := hplain
      obtain ⟨hreadl, hread⟩ := List.forall_mem_cons.mp hread
      rw [List.flatMap_cons] at hclosed ⊢
      have hrest := fun pending => @ih hls hread hclosed.of_append pending
      cases hclass : bareClass? l with
      | none =>
          have htoken : l.token? = none := by
            cases htoken : l.token? with
            | none => rfl
            | some t =>
                rw [htoken, hclass] at hreadl
                exact absurd (hreadl rfl) Bool.false_ne_true
          have hblank : (pending ++ l.raw).all isBlank = true := by
            rw [List.all_append, hpending, all_isBlank_of_token?_eq_none hl htoken]
            rfl
          rw [Body.tokensFrom, hclass]
          simpa using hrest (pending ++ l.raw) hblank afterDot
      | some kind =>
          obtain ⟨htidy, hchars⟩ := hrest [] rfl (kind = .mark .dot)
          rw [List.nil_append] at hchars
          obtain ⟨htoken, hspell⟩ := tidyToken_tokenOf afterDot hl hclass (by
            intro hraw
            rw [hraw] at hclosed
            exact hclosed.startsWith)
          have hcons : Tidy afterDot (Body.tokenOf kind afterDot l.raw ::
              Body.tokensFrom [] (kind = .mark .dot) ls) := by
            refine ⟨?_, ?_⟩
            · rw [hchars]
              exact htoken
            · rw [leavesDot_tokenOf]
              exact htidy
          have hgap := tidy_gap_append hpending hcons
          rw [List.flatMap_cons, hspell, hchars] at hgap
          rw [Body.tokensFrom, hclass]
          exact hgap

/-- A plain text that is read to its end. -/
structure PlainBody (text : String) : Prop where
  hash : '#' ∉ text.toList
  backslash : '\\' ∉ text.toList
  brackets : BracketsClosed text.toList
  complete : (Preprocessing.stream text.toList).complete = true

instance (text : String) : Decidable (PlainBody text) :=
  decidable_of_iff
    (('#' ∉ text.toList ∧ '\\' ∉ text.toList) ∧
      text.toList.IsChain (fun c d => c = ']' → isWordChar d = false) ∧
      (Preprocessing.stream text.toList).complete = true)
    ⟨fun h => ⟨h.1.1, h.1.2, h.2.1, h.2.2⟩,
      fun h => ⟨⟨h.hash, h.backslash⟩, h.brackets, h.complete⟩⟩

theorem kind_ne_hash_of_plainLexemes {ls : List Lexeme} (h : PlainLexemes ls) :
    ∀ l ∈ ls, l.kind ≠ .hash := by
  induction ls with
  | nil => nofun
  | cons l ls ih =>
      refine List.forall_mem_cons.mpr ⟨?_, ih h.2⟩
      intro hhash
      have hl := h.1
      unfold Lexeme.Plain at hl
      rw [hhash] at hl
      exact hl

theorem tidy_parse {text : String} (h : PlainBody text) (hfree : CommentFree text.toList) :
    Tidy false (Body.parse text).1.tokens := by
  have hplain := plainLexemes_lexemes h.hash h.backslash hfree
  obtain ⟨htokens, hread⟩ :=
    Body.tokens_parse (kind_ne_hash_of_plainLexemes hplain) h.complete
  have hclosed : BracketsClosed ((lexemes text.toList).flatMap Lexeme.raw) := by
    rw [flatMap_raw_lexemes]
    exact h.brackets
  rw [htokens]
  exact (tidy_tokensFrom hplain hread hclosed rfl false).1

end ShaderUplift
