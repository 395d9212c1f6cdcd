import Mathlib.Data.List.Infix
import ShaderUplift.Proofs.Qualification.Exposure
import ShaderUplift.Proofs.Source.Braces

/-! The search for the entry point. A signature is described apart from the readers: the word `void`,
the name `main`, an empty parameter list and a brace, with blanks between. The search finds the
first signature whose brace is closed; one whose brace is never closed is passed over. Between
`void` and the name there may also be nothing, and then the name is not a word of its own: this is
the only way in which the search finds more than a function named `main`. -/

namespace ShaderUplift.Source

open Text

/-- What stands between the brackets of an empty parameter list: blanks, perhaps around `void`. -/
inductive NoParameters : List Char → Prop
  | blank {gap : List Char} (hgap : allBlank gap = true) : NoParameters gap
  | void {left right : List Char} (hleft : allBlank left = true) (hright : allBlank right = true) :
      NoParameters (left ++ (voidWord ++ right))

/-- An empty parameter list with blanks around it. -/
def EmptyParameters (cs : List Char) : Prop :=
  ∃ lead inner tail, allBlank lead = true ∧ NoParameters inner ∧ allBlank tail = true ∧
    cs = lead ++ '(' :: (inner ++ ')' :: tail)

/-- The text ends in `void`, not as the end of a longer word, and perhaps blanks. -/
def ReturnsVoid (front : List Char) : Prop :=
  ∃ outer gap, front = outer ++ (voidWord ++ gap) ∧ endsInWord outer = false ∧ allBlank gap = true

/-- After `front` the text has the name and the parameters of an entry point, and a brace before
`inside`. -/
structure SignatureAt (text front inside : List Char) : Prop where
  result : ReturnsVoid front
  name : ∃ parameters, EmptyParameters parameters ∧
    text = front ++ (entryName ++ (parameters ++ '\x7b' :: inside))

/-- A brace before `inside` is matched by the one after `body`. -/
def Closes (inside body : List Char) : Prop :=
  Balanced body ∧ ∃ after, inside = body ++ '\x7d' :: after

/-- After `front` the text has an entry point with this body. -/
def EntryAt (text front body : List Char) : Prop :=
  ∃ inside, SignatureAt text front inside ∧ Closes inside body

/-- After `front` the text has an entry point whose name is a word of its own. -/
structure MainAt (text front body : List Char) : Prop where
  word : ∃ rest, StandsAt text entryName front rest
  entry : EntryAt text front body

theorem after?_eq_some_iff {lead cs rest : List Char} :
    after? lead cs = some rest ↔ cs = lead ++ rest := by
  constructor
  · exact eq_append_of_after?
  · rintro rfl
    have hlead : lead.isPrefixOf (lead ++ rest) = true :=
      List.isPrefixOf_iff_prefix.mpr (List.prefix_append lead rest)
    rw [after?, if_pos hlead, List.drop_left]

theorem trimStart_blank_append {gap : List Char} (hgap : allBlank gap = true) {c : Char}
    (hc : isBlank c = false) (cs : List Char) : trimStart (gap ++ c :: cs) = c :: cs := by
  rw [trimStart_append, if_pos hgap, trimStart, List.dropWhile_cons_of_neg (by simp [hc])]

/-- A mark or a word is read after blanks exactly when it stands there. -/
theorem after?_trimStart_eq_some_iff {c : Char} (hc : isBlank c = false)
    {lead cs rest : List Char} :
    after? (c :: lead) (trimStart cs) = some rest ↔
      ∃ gap, allBlank gap = true ∧ cs = gap ++ c :: (lead ++ rest) := by
  rw [after?_eq_some_iff]
  constructor
  · intro h
    refine ⟨cs.takeWhile isBlank, List.all_takeWhile, ?_⟩
    rw [← List.cons_append, ← h]
    exact List.takeWhile_append_dropWhile.symm
  · rintro ⟨gap, hgap, rfl⟩
    exact trimStart_blank_append hgap hc _

theorem after?_mark_eq_some_iff {c : Char} (hc : isBlank c = false) {cs rest : List Char} :
    after? [c] (trimStart cs) = some rest ↔ ∃ gap, allBlank gap = true ∧ cs = gap ++ c :: rest :=
  after?_trimStart_eq_some_iff hc

theorem startsWith_blank_append {gap : List Char} (hgap : allBlank gap = true) {c : Char}
    (hc : isWordChar c = false) (cs : List Char) :
    startsWith isWordChar (gap ++ c :: cs) = false := by
  cases gap with
  | nil => exact hc
  | cons d gap =>
      rw [allBlank, List.all_cons, Bool.and_eq_true] at hgap
      exact not_isWordChar_of_isBlank hgap.1

theorem EmptyParameters.startsWith_eq {parameters : List Char} (h : EmptyParameters parameters)
    (cs : List Char) : startsWith isWordChar (parameters ++ cs) = false := by
  obtain ⟨lead, inner, tail, hlead, -, -, rfl⟩ := h
  rw [List.append_assoc, List.cons_append]
  exact startsWith_blank_append hlead (by decide) _

/-- The closing bracket is read exactly behind what stands in an empty parameter list. -/
theorem after?_skipVoid_eq_some_iff {cs rest : List Char} :
    after? [')'] (skipVoid (trimStart cs)) = some rest ↔
      ∃ inner, NoParameters inner ∧ cs = inner ++ ')' :: rest := by
  constructor
  · intro h
    unfold skipVoid at h
    split at h
    · next more hvoid =>
      obtain ⟨left, hleft, rfl⟩ := (after?_trimStart_eq_some_iff (by decide)).mp hvoid
      split at h
      · rw [trimStart_blank_append hleft (by decide), after?_cons_cons, if_neg (by decide)] at h
        cases h
      · obtain ⟨right, hright, rfl⟩ := (after?_mark_eq_some_iff (by decide)).mp h
        refine ⟨_, NoParameters.void hleft hright, ?_⟩
        simp [voidWord]
    · obtain ⟨gap, hgap, rfl⟩ := (after?_mark_eq_some_iff (by decide)).mp h
      exact ⟨gap, NoParameters.blank hgap, rfl⟩
  · rintro ⟨inner, hinner, rfl⟩
    cases hinner with
    | blank hgap =>
        rw [trimStart_blank_append hgap (by decide)]
        rfl
    | @void left right hleft hright =>
        have hword : startsWith isWordChar (right ++ ')' :: rest) = false :=
          startsWith_blank_append hright (by decide) rest
        have htrim : trimStart (left ++ (voidWord ++ right) ++ ')' :: rest) =
            voidWord ++ (right ++ ')' :: rest) := by
          rw [List.append_assoc, List.append_assoc]
          exact trimStart_blank_append hleft (by decide) _
        have hskip : skipVoid (voidWord ++ (right ++ ')' :: rest)) = ')' :: rest := by
          rw [skipVoid, after?_eq_some_iff.mpr rfl]
          show (if startsWith isWordChar (right ++ ')' :: rest) = true then _ else _) = _
          rw [hword]
          exact trimStart_blank_append hright (by decide) rest
        rw [htrim, hskip]
        rfl

/-- A signature is read behind the name exactly when an empty parameter list and a brace follow. -/
theorem afterSignature_eq_some_iff {cs inside : List Char} :
    afterSignature cs = some inside ↔
      ∃ parameters, EmptyParameters parameters ∧ cs = parameters ++ '\x7b' :: inside := by
  constructor
  · intro h
    obtain ⟨opened, hopen, hrest⟩ := Option.bind_eq_some_iff.mp h
    obtain ⟨closed, hclose, hbrace⟩ := Option.bind_eq_some_iff.mp hrest
    obtain ⟨lead, hlead, rfl⟩ := (after?_mark_eq_some_iff (by decide)).mp hopen
    obtain ⟨inner, hinner, rfl⟩ := after?_skipVoid_eq_some_iff.mp hclose
    obtain ⟨tail, htail, rfl⟩ := (after?_mark_eq_some_iff (by decide)).mp hbrace
    exact ⟨_, ⟨lead, inner, tail, hlead, hinner, htail, rfl⟩, by simp⟩
  · rintro ⟨_, ⟨lead, inner, tail, hlead, hinner, htail, rfl⟩, rfl⟩
    have hsplit : lead ++ '(' :: (inner ++ ')' :: tail) ++ '\x7b' :: inside =
        lead ++ '(' :: (inner ++ ')' :: (tail ++ '\x7b' :: inside)) := by
      simp
    have hopen := (after?_mark_eq_some_iff (by decide)).mpr ⟨lead, hlead, hsplit⟩
    have hclose := after?_skipVoid_eq_some_iff.mpr
      ⟨inner, hinner, Eq.refl (inner ++ ')' :: (tail ++ '\x7b' :: inside))⟩
    rw [afterSignature, hopen, Option.bind_some, hclose, Option.bind_some]
    exact (after?_mark_eq_some_iff (by decide)).mpr ⟨tail, htail, rfl⟩

theorem endsInWord_reverse (cs : List Char) : endsInWord cs.reverse = startsWith isWordChar cs := by
  cases cs with
  | nil => rfl
  | cons c cs => simp [endsInWord, startsWith]

theorem endsInVoid_eq_true_iff {before : List Char} :
    endsInVoid before = true ↔ ∃ rest, after? voidWord.reverse (trimStart before) = some rest ∧
      startsWith isWordChar rest = false := by
  unfold endsInVoid
  split
  · next rest hrest => simp [hrest]
  · next hnone => simp [hnone]

/-- The word `void` is found before the name exactly when it stands there. -/
theorem endsInVoid_reverse_iff {front : List Char} :
    endsInVoid front.reverse = true ↔ ReturnsVoid front := by
  rw [endsInVoid_eq_true_iff]
  constructor
  · rintro ⟨rest, hrest, hstart⟩
    obtain ⟨gap, hgap, hfront⟩ := (after?_trimStart_eq_some_iff (by decide)).mp hrest
    refine ⟨rest.reverse, gap.reverse, ?_, ?_, ?_⟩
    · rw [← List.reverse_reverse front, hfront]
      simp [voidWord]
    · rw [endsInWord_reverse]
      exact hstart
    · rw [allBlank, List.all_reverse]
      exact hgap
  · rintro ⟨outer, gap, rfl, houter, hgap⟩
    refine ⟨outer.reverse, ?_, ?_⟩
    · refine (after?_trimStart_eq_some_iff (by decide)).mpr ⟨gap.reverse, ?_, ?_⟩
      · rw [allBlank, List.all_reverse]
        exact hgap
      · simp [voidWord]
    · rw [← endsInWord_reverse, List.reverse_reverse]
      exact houter

/-- An entry point is read at a name exactly when it stands there. -/
theorem bodyAt_eq_some_iff {front cs body : List Char} :
    bodyAt front.reverse cs = some body ↔ EntryAt (front ++ cs) front body := by
  constructor
  · intro h
    have hvoid := endsInVoid_reverse_iff.mp (endsInVoid_of_bodyAt h)
    obtain ⟨rest, hname, h⟩ := Option.bind_eq_some_iff.mp h
    split at h
    · obtain ⟨inside, hsignature, hbody⟩ := Option.bind_eq_some_iff.mp h
      obtain ⟨parameters, hparameters, rfl⟩ := afterSignature_eq_some_iff.mp hsignature
      rw [after?_eq_some_iff.mp hname]
      exact ⟨inside, ⟨hvoid, parameters, hparameters, rfl⟩, balanced_eq_some_iff.mp hbody⟩
    · cases h
  · rintro ⟨inside, ⟨hvoid, parameters, hparameters, htext⟩, hcloses⟩
    have hcs := List.append_cancel_left htext
    have hword := hparameters.startsWith_eq ('\x7b' :: inside)
    rw [bodyAt, Option.bind_eq_some_iff]
    refine ⟨_, after?_eq_some_iff.mpr hcs, ?_⟩
    rw [endsInVoid_reverse_iff.mpr hvoid, hword,
      afterSignature_eq_some_iff.mpr ⟨parameters, hparameters, rfl⟩]
    exact balanced_eq_some_iff.mpr hcloses

namespace EntryAt

variable {text front front' body body' : List Char}

theorem exists_rest (h : EntryAt text front body) : ∃ rest, text = front ++ (entryName ++ rest) := by
  obtain ⟨inside, ⟨-, parameters, -, htext⟩, -⟩ := h
  exact ⟨_, htext⟩

theorem length_lt (h : EntryAt text front body) : front.length < text.length := by
  obtain ⟨rest, rfl⟩ := h.exists_rest
  simp [entryName]

/-- A place has one entry point at most. -/
theorem unique (h : EntryAt text front body) (h' : EntryAt text front' body')
    (hlength : front.length = front'.length) : body = body' := by
  obtain ⟨rest, htext⟩ := h.exists_rest
  obtain ⟨rest', htext'⟩ := h'.exists_rest
  obtain ⟨rfl, -⟩ := List.append_inj (htext.symm.trans htext') hlength
  rw [htext, ← bodyAt_eq_some_iff] at h h'
  exact Option.some.inj (h.symm.trans h')

/-- Where no entry point is read, none stands. -/
theorem length_ne {cs : List Char} (h : EntryAt (front ++ cs) front' body)
    (hat : bodyAt front.reverse cs = none) : front'.length ≠ front.length := by
  intro hlength
  obtain ⟨rest, hplace⟩ := h.exists_rest
  obtain ⟨rfl, -⟩ := List.append_inj hplace hlength.symm
  rw [← bodyAt_eq_some_iff, hat] at h
  cases h

end EntryAt

/-- The place is the first of its kind, with the body that is read there. -/
def IsFirst (At : List Char → List Char → Prop) (front body : List Char) : Prop :=
  At front body ∧ ∀ front' body', At front' body' → front.length ≤ front'.length

/-- What a search for the first place of a kind has to give for a stage: the body there, or the error
that the stage has no entry point. -/
def Answers (stage : Stage) (At : List Char → List Char → Prop) :
    Except ConversionError String → Prop
  | .ok body => ∃ front, IsFirst At front body.toList
  | .error e => e = .entryPointMissing stage ∧ ∀ front body, ¬At front body

theorem IsFirst.body_eq {text front front' body body' : List Char}
    (h : IsFirst (EntryAt text) front body) (h' : IsFirst (EntryAt text) front' body') :
    body = body' := by
  have hlength : front.length = front'.length :=
    Nat.le_antisymm (h.2 _ _ h'.1) (h'.2 _ _ h.1)
  exact h.1.unique h'.1 hlength

/-- The search from a place on finds the first entry point that is not before it, if there is one. -/
theorem findBody_spec (front cs : List Char) :
    (∀ body, findBody front.reverse cs = some body →
      ∃ place, EntryAt (front ++ cs) place body ∧ ∀ place' body',
        EntryAt (front ++ cs) place' body' → front.length ≤ place'.length →
          place.length ≤ place'.length) ∧
    (findBody front.reverse cs = none → ∀ place body, EntryAt (front ++ cs) place body →
      place.length < front.length) := by
  induction cs generalizing front with
  | nil =>
      refine ⟨fun body h => (by cases h), fun _ place body h => ?_⟩
      have hlength := h.length_lt
      rwa [List.append_nil] at hlength
  | cons c cs ih =>
      cases hat : bodyAt front.reverse (c :: cs) with
      | some here =>
          rw [findBody, hat]
          refine ⟨?_, fun h => (by cases h)⟩
          rintro body ⟨⟩
          exact ⟨front, bodyAt_eq_some_iff.mp hat, fun _ _ _ hle => hle⟩
      | none =>
          have hnext : findBody front.reverse (c :: cs) = findBody (front ++ [c]).reverse cs := by
            rw [findBody_of_none hat, List.reverse_concat]
          have htext : front ++ c :: cs = front ++ [c] ++ cs := by simp
          have hlast : (front ++ [c]).length = front.length + 1 := by simp
          obtain ⟨hfound, hnone⟩ := ih (front ++ [c])
          rw [← htext, hlast] at hfound hnone
          rw [hnext]
          -- An entry point that is not before this place is not before the next one either.
          refine ⟨fun body h => ?_, fun h place body hentry => ?_⟩
          · obtain ⟨place, hentry, hfirst⟩ := hfound body h
            refine ⟨place, hentry, fun place' body' hentry' hle => ?_⟩
            have hne := hentry'.length_ne hat
            exact hfirst place' body' hentry' (by omega)
          · have hlt := hnone h place body hentry
            have hne := hentry.length_ne hat
            omega

/-- The search answers with the first entry point. -/
theorem answers_entryBody (source : String) (stage : Stage) :
    Answers stage (EntryAt source.toList) (entryBody source stage) := by
  obtain ⟨hfound, hnone⟩ := findBody_spec [] source.toList
  cases hbody : findBody [] source.toList with
  | none =>
      rw [entryBody_of_none (by rw [entryBody?, hbody]; rfl)]
      refine ⟨rfl, fun front body hentry => ?_⟩
      exact Nat.not_lt_zero _ (hnone hbody front body hentry)
  | some body =>
      rw [entryBody_eq_ok_iff.mpr (by rw [entryBody?, hbody]; rfl)]
      obtain ⟨front, hentry, hfirst⟩ := hfound body hbody
      refine ⟨front, ?_, fun front' body' h => ?_⟩
      · rw [String.toList_ofList]
        exact hentry
      · exact hfirst front' body' h (Nat.zero_le _)

theorem EntryAt.mainAt {text front body : List Char} (h : EntryAt text front body)
    (hword : endsInWord front = false) : MainAt text front body := by
  obtain ⟨inside, hsignature, hcloses⟩ := h
  obtain ⟨parameters, hparameters, htext⟩ := hsignature.name
  refine ⟨⟨parameters ++ '\x7b' :: inside, ?_⟩, inside, hsignature, hcloses⟩
  have hsplit : text = front ++ entryName ++ (parameters ++ '\x7b' :: inside) := by
    rw [htext, List.append_assoc]
  exact ⟨hsplit, by decide, by decide, hword, hparameters.startsWith_eq _⟩

/-- The name follows `void` directly where it is not a word of its own. -/
theorem EntryAt.infix_of_endsInWord {text front body : List Char} (h : EntryAt text front body)
    (hword : endsInWord front = true) : voidWord ++ entryName <:+: text := by
  obtain ⟨inside, ⟨⟨outer, gap, hfront, -, hgap⟩, parameters, -, htext⟩, -⟩ := h
  rcases List.eq_nil_or_concat' gap with rfl | ⟨gap, c, rfl⟩
  · refine ⟨outer, parameters ++ '\x7b' :: inside, ?_⟩
    rw [htext, hfront]
    simp
  · have hblank : isBlank c = true := List.all_eq_true.mp hgap c (by simp)
    rw [hfront, ← List.append_assoc, ← List.append_assoc, endsInWord_append_singleton,
      not_isWordChar_of_isBlank hblank] at hword
    cases hword

theorem IsFirst.mainAt {text front body : List Char} (h : IsFirst (EntryAt text) front body)
    (hword : endsInWord front = false) : IsFirst (MainAt text) front body :=
  ⟨h.1.mainAt hword, fun front' body' hmain => h.2 front' body' hmain.entry⟩

theorem answers_mainAt_iff (source : String) (stage : Stage) :
    Answers stage (MainAt source.toList) (entryBody source stage) ↔
      ∀ front body, IsFirst (EntryAt source.toList) front body →
        endsInWord front = false ∨ ∃ front', IsFirst (MainAt source.toList) front' body := by
  have hanswer := answers_entryBody source stage
  cases hresult : entryBody source stage with
  | error e =>
      rw [hresult] at hanswer
      obtain ⟨he, hnone⟩ := hanswer
      constructor
      · intro _ front body hfirst
        exact absurd hfirst.1 (hnone front body)
      · intro _
        exact ⟨he, fun front body hmain => hnone front body hmain.entry⟩
  | ok body =>
      rw [hresult] at hanswer
      obtain ⟨front, hfirst⟩ := hanswer
      constructor
      · rintro ⟨front', hmain⟩ place body' hplace
        rw [hplace.body_eq hfirst]
        exact Or.inr ⟨front', hmain⟩
      · intro h
        rcases h front _ hfirst with hword | hmain
        · exact ⟨front, hfirst.mainAt hword⟩
        · exact hmain

/-- The search gives the body of the first entry point. This is the first function named `main`
exactly when the name of the first entry point is a word of its own, or the first function named
`main` happens to have the same body; in particular whenever the text has `voidmain` nowhere. -/
theorem entryBody_finds_main (source : String) (stage : Stage) :
    Answers stage (EntryAt source.toList) (entryBody source stage) ∧
      (Answers stage (MainAt source.toList) (entryBody source stage) ↔
        ∀ front body, IsFirst (EntryAt source.toList) front body →
          endsInWord front = false ∨ ∃ front', IsFirst (MainAt source.toList) front' body) ∧
      (¬voidWord ++ entryName <:+: source.toList →
        Answers stage (MainAt source.toList) (entryBody source stage)) := by
  refine ⟨answers_entryBody source stage, answers_mainAt_iff source stage, fun hglued => ?_⟩
  apply (answers_mainAt_iff source stage).mpr
  intro front body hfirst
  left
  by_contra hword
  have hends : endsInWord front = true := by simpa using hword
  exact hglued (hfirst.1.infix_of_endsInWord hends)

/-- An entry point whose name is the end of a longer word. -/
def gluedSource : String := "voidmain()\x7b\x7d"

/-- A text without a function named `main` has an entry point. -/
theorem glued_name_found :
    entryBody gluedSource .vertex = .ok "" ∧
      (∀ front body, ¬MainAt gluedSource.toList front body) ∧
      ¬Answers .vertex (MainAt gluedSource.toList) (entryBody gluedSource .vertex) := by
  have hbody : entryBody gluedSource .vertex = .ok "" := by decide +kernel
  have hnone : ∀ front body, ¬MainAt gluedSource.toList front body := by
    rintro front body ⟨⟨rest, hstands⟩, -⟩
    have hplaces : ∀ place ∈ gluedSource.toList.inits,
        entryName <+: gluedSource.toList.drop place.length → endsInWord place = true := by
      decide +kernel
    have hfront : front ∈ gluedSource.toList.inits := by
      rw [List.mem_inits, hstands.split, List.append_assoc]
      exact List.prefix_append front _
    have hname : entryName <+: gluedSource.toList.drop front.length := by
      rw [hstands.split, List.append_assoc, List.drop_left]
      exact List.prefix_append entryName rest
    have hstart := hplaces front hfront hname
    rw [hstands.start] at hstart
    cases hstart
  refine ⟨hbody, hnone, ?_⟩
  rw [hbody]
  rintro ⟨front, hfirst⟩
  exact hnone front _ hfirst.1

/-- No part at the start closes a brace that it does not open. -/
def Unclosed (cs : List Char) : Prop :=
  ∀ start, start <+: cs → start.count '\x7d' ≤ start.count '\x7b'

/-- The text is cut at the braces of its entry point into what stands before, the body and what stands
after. Before the brace there is a signature, and an earlier signature opens a brace that the text
never closes. -/
structure CutAtBraces (source before body after : String) (front parameters : List Char) : Prop where
  split : source = before ++ "\x7b" ++ body ++ "\x7d" ++ after
  even : body.toList.count '\x7b' = body.toList.count '\x7d'
  unclosed : Unclosed body.toList
  signature : before.toList = front ++ (entryName ++ parameters)
  result : ReturnsVoid front
  no_parameters : EmptyParameters parameters
  passed_over : ∀ front' inside, SignatureAt source.toList front' inside →
    front'.length < front.length → Unclosed inside

/-- The body that is found ends at the brace that closes it, and every signature before it has a
brace that is never closed. -/
theorem entryBody_cutAtBraces {source body : String} {stage : Stage}
    (h : entryBody source stage = .ok body) :
    ∃ before after front parameters, CutAtBraces source before body after front parameters := by
  have hanswer := answers_entryBody source stage
  rw [h] at hanswer
  obtain ⟨front, ⟨_, ⟨hvoid, parameters, hparameters, htext⟩, hbalanced, after, rfl⟩, hfirst⟩ :=
    hanswer
  refine ⟨String.ofList (front ++ (entryName ++ parameters)), String.ofList after, front, parameters,
    ?_, ?_, ?_, String.toList_ofList, hvoid, hparameters, ?_⟩
  · apply String.toList_inj.mp
    rw [htext]
    simp
  · have hclose := hbalanced.close
    omega
  · intro start hstart
    have hwithin := hbalanced.within start hstart
    omega
  · intro front' inside hsignature hlt
    cases hinside : balanced 0 inside with
    | none =>
        intro start hstart
        have hdepth := balanced_eq_none_iff.mp hinside start hstart
        omega
    | some earlier =>
        have hle := hfirst front' earlier ⟨inside, hsignature, balanced_eq_some_iff.mp hinside⟩
        omega

/-- A source with an entry point inside the body of one that is never closed. -/
def nestedSource : String := "void main()\x7bvoid main ( void )\n\x7bif(a)\x7bb;\x7d\x7d"

theorem nestedSource_cutAtBraces :
    entryBody nestedSource .fragment = .ok "if(a)\x7bb;\x7d" ∧
      ∃ before after front parameters,
        CutAtBraces nestedSource before "if(a)\x7bb;\x7d" after front parameters := by
  have hbody : entryBody nestedSource .fragment = .ok "if(a)\x7bb;\x7d" := by decide +kernel
  exact ⟨hbody, entryBody_cutAtBraces hbody⟩

end ShaderUplift.Source
