import Mathlib.Data.List.DropRight
import ShaderUplift.Proofs.Members

/-! Unqualified words of a text. A word stands in a text where a maximal run of word characters
spells it, and it is qualified there when the last character before it that is not blank is a dot.
`exposes` finds an unqualified word in one pass from left to right; the pass carries only two facts
about the text before, so texts that are written piece by piece are scanned piece by piece. -/

namespace ShaderUplift

open Text

/-- The last character is a word character. -/
def endsInWord (cs : List Char) : Bool := cs.getLast?.any isWordChar

/-- The last character that is not blank is a dot. -/
def endsInDot (cs : List Char) : Bool := (cs.rdropWhile isBlank).getLast? == some '.'

/-- A maximal run of word characters between `before` and `after` spells the word. -/
structure StandsAt (text word before after : List Char) : Prop where
  split : text = before ++ word ++ after
  nonempty : word ≠ []
  chars : word.all isWordChar = true
  start : endsInWord before = false
  stop : startsWith isWordChar after = false

/-- The name stands somewhere in the text without a dot before it. -/
def Unqualified (text name : String) : Prop :=
  ∃ before after, StandsAt text.toList name.toList before after ∧ endsInDot before = false

/-- Some run of the text spells the word and is unqualified. `inWord` tells whether the character
before the text is a word character, `afterDot` whether the last one that is not blank is a dot. -/
def exposes (word : List Char) (inWord afterDot : Bool) : List Char → Bool
  | [] => false
  | c :: cs =>
    (isWordChar c && !inWord && !afterDot && (c :: cs).takeWhile isWordChar == word) ||
      exposes word (isWordChar c) (if isBlank c then afterDot else c == '.') cs

theorem endsInWord_append_singleton (cs : List Char) (c : Char) :
    endsInWord (cs ++ [c]) = isWordChar c := by
  simp [endsInWord]

theorem endsInDot_append_singleton (cs : List Char) (c : Char) :
    endsInDot (cs ++ [c]) = if isBlank c then endsInDot cs else c == '.' := by
  rw [endsInDot, List.rdropWhile_concat]
  split
  · rfl
  · simp

theorem takeWhile_eq_iff {p : Char → Bool} {cs word : List Char} :
    cs.takeWhile p = word ↔
      ∃ after, cs = word ++ after ∧ word.all p = true ∧ startsWith p after = false := by
  constructor
  · rintro rfl
    refine ⟨cs.dropWhile p, List.takeWhile_append_dropWhile.symm, List.all_takeWhile, ?_⟩
    cases hrest : cs.dropWhile p with
    | nil => rfl
    | cons c rest =>
        have hhead := List.head?_dropWhile_not p cs
        rw [hrest] at hhead
        simpa [startsWith] using hhead
  · rintro ⟨after, rfl, hall, hstop⟩
    rw [List.takeWhile_append_of_pos (List.all_eq_true.mp hall)]
    cases after with
    | nil => simp
    | cons c rest =>
        have hc : p c = false := hstop
        simp [hc]

/-- The pass finds the runs that stand in the text after `context`. -/
theorem exposes_iff (word context cs : List Char) :
    exposes word (endsInWord context) (endsInDot context) cs = true ↔
      ∃ before after, StandsAt (context ++ cs) word (context ++ before) after ∧
        endsInDot (context ++ before) = false := by
  induction cs generalizing context with
  | nil =>
      constructor
      · intro h
        cases h
      · rintro ⟨before, after, hstands, -⟩
        have hlength := congrArg List.length hstands.split
        have hword := List.length_pos_iff.mpr hstands.nonempty
        simp only [List.length_append, List.length_nil] at hlength
        omega
  | cons c cs ih =>
      have hrest := ih (context ++ [c])
      rw [endsInWord_append_singleton, endsInDot_append_singleton] at hrest
      simp only [List.append_assoc, List.singleton_append] at hrest
      rw [exposes, Bool.or_eq_true, hrest]
      constructor
      · rintro (hhere | ⟨before, after, hstands, hdot⟩)
        · simp only [Bool.and_eq_true, Bool.not_eq_true', beq_iff_eq] at hhere
          obtain ⟨⟨⟨hc, hstart⟩, hdot⟩, hrun⟩ := hhere
          obtain ⟨after, hsplit, hall, hstop⟩ := takeWhile_eq_iff.mp hrun
          refine ⟨[], after, ⟨?_, ?_, hall, ?_, hstop⟩, ?_⟩
          · rw [List.append_nil, List.append_assoc, ← hsplit]
          · rw [← hrun, List.takeWhile_cons_of_pos hc]
            exact List.cons_ne_nil _ _
          · rw [List.append_nil]
            exact hstart
          · rw [List.append_nil]
            exact hdot
        · exact ⟨c :: before, after, hstands, hdot⟩
      · rintro ⟨before, after, hstands, hdot⟩
        cases before with
        | nil =>
            rw [List.append_nil] at hstands hdot
            have hsplit : c :: cs = word ++ after := by
              have h := hstands.split
              rw [List.append_assoc] at h
              exact List.append_cancel_left h
            have hrun := takeWhile_eq_iff.mpr ⟨after, hsplit, hstands.chars, hstands.stop⟩
            have hc : isWordChar c = true := by
              by_contra hc
              rw [List.takeWhile_cons_of_neg hc] at hrun
              exact hstands.nonempty hrun.symm
            refine Or.inl ?_
            simp only [Bool.and_eq_true, Bool.not_eq_true', beq_iff_eq]
            exact ⟨⟨⟨hc, hstands.start⟩, hdot⟩, hrun⟩
        | cons b before =>
            have hhead : c = b := by
              have h := hstands.split
              simp only [List.append_assoc, List.cons_append] at h
              exact (List.cons.inj (List.append_cancel_left h)).1
            subst hhead
            exact Or.inr ⟨before, after, hstands, hdot⟩

theorem unqualified_iff_exposes {text name : String} :
    Unqualified text name ↔ exposes name.toList false false text.toList = true :=
  (exposes_iff name.toList [] text.toList).symm

instance (text name : String) : Decidable (Unqualified text name) :=
  decidable_of_iff _ unqualified_iff_exposes.symm

theorem ne_dot_of_isWordChar {c : Char} (h : isWordChar c = true) : (c == '.') = false := by
  rw [beq_eq_false_iff_ne]
  rintro rfl
  exact absurd h (by decide)

theorem takeWhile_append_congr {p : Char → Bool} {ys zs : List Char}
    (h : ys.takeWhile p = zs.takeWhile p) (xs : List Char) :
    (xs ++ ys).takeWhile p = (xs ++ zs).takeWhile p := by
  rw [@List.takeWhile_append _ p xs ys, @List.takeWhile_append _ p xs zs, h]

/-- What follows matters to the text before it only through its leading run. -/
theorem exposes_append_congr {word ys zs : List Char}
    (hrun : ys.takeWhile isWordChar = zs.takeWhile isWordChar)
    (hexposes : ∀ a d, exposes word a d ys = exposes word a d zs) (xs : List Char) (a d : Bool) :
    exposes word a d (xs ++ ys) = exposes word a d (xs ++ zs) := by
  induction xs generalizing a d with
  | nil => exact hexposes a d
  | cons c xs ih =>
      have hlead := takeWhile_append_congr hrun (c :: xs)
      simp only [List.cons_append] at hlead ⊢
      rw [exposes, exposes, hlead, ih]

/-- Inside a run nothing begins. -/
theorem exposes_inside_word {word m : List Char} (hm : m.all isWordChar = true) (ys : List Char) :
    exposes word true false (m ++ ys) = exposes word true false ys := by
  induction m with
  | nil => rfl
  | cons c m ih =>
      rw [List.all_cons, Bool.and_eq_true] at hm
      rw [List.cons_append, exposes, hm.1, not_isBlank_of_isWordChar hm.1,
        ne_dot_of_isWordChar hm.1]
      simpa using ih hm.2

/-- A piece of word characters can expose the run that begins with it and nothing else. -/
theorem exposes_word_append {word m : List Char} (hne : m ≠ []) (hm : m.all isWordChar = true)
    (a d : Bool) (ys : List Char) :
    exposes word a d (m ++ ys) =
      ((!a && !d && m ++ ys.takeWhile isWordChar == word) || exposes word true false ys) := by
  cases m with
  | nil => exact absurd rfl hne
  | cons c m =>
      have hrun : (c :: m ++ ys).takeWhile isWordChar = c :: m ++ ys.takeWhile isWordChar :=
        List.takeWhile_append_of_pos (List.all_eq_true.mp hm)
      rw [List.all_cons, Bool.and_eq_true] at hm
      rw [← exposes_inside_word hm.2 ys, ← hrun, List.cons_append, exposes, hm.1,
        not_isBlank_of_isWordChar hm.1, ne_dot_of_isWordChar hm.1]
      simp

/-- After a dot a word is qualified, whatever it is. -/
theorem exposes_dot_word {word m : List Char} (hne : m ≠ []) (hm : m.all isWordChar = true)
    (a d : Bool) (ys : List Char) :
    exposes word a d ('.' :: (m ++ ys)) = exposes word true false ys := by
  have hdot : isWordChar '.' = false ∧ isBlank '.' = false := by decide
  rw [exposes, hdot.1, hdot.2, exposes_word_append hne hm]
  simp

/-- The name is one word. -/
def isWord (name : String) : Bool := !name.toList.isEmpty && name.toList.all isWordChar

theorem isWord_iff {name : String} :
    isWord name = true ↔ name.toList ≠ [] ∧ name.toList.all isWordChar = true := by
  simp [isWord]

theorem startsWith_of_isWord {name : String} (h : isWord name = true) (after : List Char) :
    startsWith isWordChar (name.toList ++ after) = true := by
  obtain ⟨hne, hall⟩ := isWord_iff.mp h
  obtain ⟨c, cs, hcons⟩ := List.exists_cons_of_ne_nil hne
  rw [hcons] at hall ⊢
  exact List.all_eq_true.mp hall c List.mem_cons_self

/-- The identifier is a reference: it is one word and names a uniform that the stage keeps. -/
def isReference (stage : Stage) (uniforms : Table Declaration) (name : String) : Bool :=
  (legacyName? stage name).isNone && uniforms.contains name && isWord name

/-- The token as it is written when every reference is to a member called like the accessor. -/
def hiddenToken (stage : Stage) (uniforms : Table Declaration) (accessor : String) :
    BodyToken → BodyToken
  | .ident name =>
    if isReference stage uniforms name then .ident (accessor ++ "." ++ accessor)
    else writtenToken stage uniforms accessor (.ident name)
  | t => t

theorem hiddenToken_cases (stage : Stage) (uniforms : Table Declaration) (accessor : String)
    (t : BodyToken) :
    hiddenToken stage uniforms accessor t = writtenToken stage uniforms accessor t ∨
      ∃ name, isWord name = true ∧
        writtenToken stage uniforms accessor t = .ident (accessor ++ "." ++ name) ∧
        hiddenToken stage uniforms accessor t = .ident (accessor ++ "." ++ accessor) := by
  cases t with
  | ident name =>
      rw [hiddenToken]
      split
      · next href =>
        refine Or.inr ⟨name, ?_⟩
        simp only [isReference, Bool.and_eq_true, Option.isNone_iff_eq_none] at href
        refine ⟨href.2, ?_, rfl⟩
        rw [writtenToken, href.1.1, href.1.2]
        rfl
      · exact Or.inl rfl
  | field | number | space | punct | text => exact Or.inl rfl

section Hidden

variable (stage : Stage) (uniforms : Table Declaration) {accessor : String}

theorem takeWhile_hidden (T : List BodyToken) (z : List Char) :
    ((T.map (writtenToken stage uniforms accessor)).flatMap BodyToken.chars ++ z).takeWhile
        isWordChar =
      ((T.map (hiddenToken stage uniforms accessor)).flatMap BodyToken.chars ++ z).takeWhile
        isWordChar := by
  induction T with
  | nil => rfl
  | cons t T ih =>
      simp only [List.map_cons, List.flatMap_cons, List.append_assoc]
      rcases hiddenToken_cases stage uniforms accessor t with heq | ⟨name, -, hwritten, hhidden⟩
      · rw [heq]
        exact takeWhile_append_congr ih _
      · rw [hwritten, hhidden]
        simp only [BodyToken.chars, String.toList_append, List.append_assoc]
        refine takeWhile_append_congr ?_ _
        have hdot : isWordChar '.' = false := by decide
        simp [hdot]

theorem exposes_hidden (haccessor : isWord accessor = true) (word : List Char)
    (T : List BodyToken) (z : List Char) (a d : Bool) :
    exposes word a d ((T.map (writtenToken stage uniforms accessor)).flatMap BodyToken.chars ++ z) =
      exposes word a d
        ((T.map (hiddenToken stage uniforms accessor)).flatMap BodyToken.chars ++ z) := by
  induction T generalizing a d with
  | nil => rfl
  | cons t T ih =>
      simp only [List.map_cons, List.flatMap_cons, List.append_assoc]
      rcases hiddenToken_cases stage uniforms accessor t with heq | ⟨name, hname, hwritten, hhidden⟩
      · rw [heq]
        exact exposes_append_congr (takeWhile_hidden stage uniforms T z) (fun a d => ih a d) _ a d
      · obtain ⟨hne, hall⟩ := isWord_iff.mp hname
        obtain ⟨hne', hall'⟩ := isWord_iff.mp haccessor
        rw [hwritten, hhidden]
        simp only [BodyToken.chars, String.toList_append, List.append_assoc]
        have hdot : ".".toList = ['.'] := rfl
        rw [hdot, List.singleton_append, List.singleton_append]
        refine exposes_append_congr ?_ (fun a d => ?_) _ a d
        · have hchar : isWordChar '.' = false := by decide
          simp [hchar]
        · rw [exposes_dot_word hne hall, exposes_dot_word hne' hall', ih]

end Hidden

theorem isWord_accessor (strategy : Strategy) : isWord strategy.accessor = true := by
  cases strategy <;> decide

/-- A name is exposed in a converted entry point exactly when it is exposed with all references
hidden: in the signature, in a new name of a built-in, or in text that is copied from the body. -/
theorem unqualified_hidden_iff (stage : Stage) (uniforms : Table Declaration) (strategy : Strategy)
    (T : List BodyToken) (name : String) :
    Unqualified (entryPointText ⟨T.map (writtenToken stage uniforms strategy.accessor)⟩) name ↔
      Unqualified (entryPointText ⟨T.map (hiddenToken stage uniforms strategy.accessor)⟩) name := by
  rw [unqualified_iff_exposes, unqualified_iff_exposes]
  simp only [entryPointText, Body.toText, String.toList_append, String.toList_ofList,
    List.append_assoc]
  rw [exposes_append_congr (takeWhile_hidden stage uniforms T _)
    (fun a d => exposes_hidden stage uniforms (isWord_accessor strategy) name.toList T _ a d)]

end ShaderUplift
