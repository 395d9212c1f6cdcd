import ShaderUplift.Proofs.Source.CommentFree
import ShaderUplift.Source.Words

/-! A line put into a source. Comments are removed one character at a time, so what is removed after
the start of a line depends on the text before it only through whether a block comment is open. A
new line therefore comes out as it is, or, inside a comment, as its newline; and the words of all
other lines stay the same, only on later lines. -/

namespace ShaderUplift.Source

open Text

/-- A line starts after this text. -/
def StartsLine (before : List Char) : Prop := ∀ c ∈ before.getLast?, c = '\n'

instance (before : List Char) : Decidable (StartsLine before) :=
  decidable_of_iff (before.getLast?.all (· == '\n') = true) (by
    cases h : before.getLast? <;> simp [StartsLine, h])

theorem startsLine_iff {before : List Char} :
    StartsLine before ↔ before = [] ∨ before.getLast? = some '\n' := by
  cases h : before.getLast? with
  | none => simp [StartsLine, List.getLast?_eq_none_iff.mp h]
  | some c =>
      have hne : before ≠ [] := by
        rintro rfl
        cases h
      simp [StartsLine, h, hne]

/-- The last newline stays the last one when a character before it is taken off. -/
theorem getLast?_of_cons {c : Char} {cs : List Char} (hc : c ≠ '\n')
    (h : (c :: cs).getLast? = some '\n') : cs.getLast? = some '\n' := by
  cases cs with
  | nil => exact absurd (Option.some.inj h) hc
  | cons d cs => rwa [List.getLast?_cons_cons] at h

theorem getLast?_cons_of_getLast? {c d : Char} {cs : List Char} (h : cs.getLast? = some d) :
    (c :: cs).getLast? = some d := by
  cases cs with
  | nil => cases h
  | cons e cs => rwa [List.getLast?_cons_cons]

/-- The text without its comments, read from inside a comment of this kind or from code. -/
def stripFrom : Option CommentKind → List Char → List Char
  | _, [] => []
  | none, '/' :: '/' :: cs => stripFrom (some .line) cs
  | none, '/' :: '*' :: cs => ' ' :: stripFrom (some .block) cs
  | none, c :: cs => c :: stripFrom none cs
  | some .line, '\n' :: cs => '\n' :: stripFrom none cs
  | some .line, _ :: cs => stripFrom (some .line) cs
  | some .block, '*' :: '/' :: cs => stripFrom none cs
  | some .block, '\n' :: cs => '\n' :: stripFrom (some .block) cs
  | some .block, _ :: cs => stripFrom (some .block) cs

theorem stripFrom_code {c : Char} {cs : List Char} (h : opensComment (c :: cs) = none) :
    stripFrom none (c :: cs) = c :: stripFrom none cs := by
  rw [stripFrom]
  · rintro rest rfl rfl
    cases h
  · rintro rest rfl rfl
    cases h

theorem stripFrom_of_cutComment (cs : List Char) :
    (cutComment cs = none → stripFrom none cs = cs) ∧
      ∀ before kind rest, cutComment cs = some (before, kind, rest) →
        stripFrom none cs = before ++
          match kind with
          | .line => stripFrom (some .line) rest
          | .block => ' ' :: stripFrom (some .block) rest := by
  induction cs with
  | nil => exact ⟨fun _ => rfl, fun _ _ _ h => by cases h⟩
  | cons c cs ih =>
      cases hopen : opensComment (c :: cs) with
      | none =>
          rw [cutComment_cons hopen, stripFrom_code hopen]
          refine ⟨fun h => ?_, fun before kind rest h => ?_⟩
          · rw [ih.1 (Option.map_eq_none_iff.mp h)]
          obtain ⟨⟨b, k, r⟩, hcut, heq⟩ := Option.map_eq_some_iff.mp h
          cases heq
          rw [ih.2 _ _ _ hcut, List.cons_append]
      | some kind =>
          rw [cutComment, hopen]
          refine ⟨fun h => (by cases h), fun before kind' rest h => ?_⟩
          cases h
          unfold opensComment at hopen
          split at hopen
          · next heq =>
            cases heq
            cases hopen
            rfl
          · next heq =>
            cases heq
            cases hopen
            rfl
          · cases hopen

theorem stripFrom_line (cs : List Char) :
    stripFrom (some .line) cs = stripFrom none (cs.dropWhile (· ≠ '\n')) := by
  induction cs with
  | nil => rfl
  | cons c cs ih =>
      by_cases hc : c = '\n'
      · subst hc
        rfl
      · rw [stripFrom, ih, List.dropWhile_cons_of_pos (by simpa using hc)]
        exact hc

theorem stripFrom_block (cs : List Char) :
    stripFrom (some .block) cs =
      (cutBlock cs).1.filter (· = '\n') ++ stripFrom none (cutBlock cs).2 := by
  fun_induction cutBlock cs with
  | case1 => rfl
  | case2 cs => rfl
  | case3 c cs hclose inner rest hcut ih =>
      by_cases hc : c = '\n'
      · subst hc
        rw [stripFrom, ih, hcut]
        rfl
      · rw [stripFrom, ih, hcut, List.filter_cons_of_neg (by simpa using hc)]
        · exact hclose
        · exact hc

theorem stripComments_eq_stripFrom (cs : List Char) : stripComments cs = stripFrom none cs := by
  fun_induction stripComments cs with
  | case1 cs hcut => exact ((stripFrom_of_cutComment cs).1 hcut).symm
  | case2 cs before rest hcut ih =>
      rw [(stripFrom_of_cutComment cs).2 _ _ _ hcut, ih]
      exact congrArg _ (stripFrom_line rest).symm
  | case3 cs before rest hcut ih =>
      rw [(stripFrom_of_cutComment cs).2 _ _ _ hcut, ih]
      exact congrArg (before ++ ' ' :: ·) (stripFrom_block rest).symm

theorem toList_normalize (source : String) :
    (normalize source).toList = stripFrom none (expandTabs source.toList) := by
  rw [normalize, String.toList_ofList, stripComments_eq_stripFrom]

/-- After the end of a line no line comment is open, and the rest of the text is read from there. -/
theorem stripFrom_append {xs : List Char} (state : Option CommentKind)
    (h : xs.getLast? = some '\n') :
    ∃ state', state' ≠ some .line ∧ (stripFrom state xs).getLast? = some '\n' ∧
      ∀ ys, stripFrom state (xs ++ ys) = stripFrom state xs ++ stripFrom state' ys := by
  fun_induction stripFrom state xs with
  | case1 => cases h
  | case2 cs ih =>
      exact ih (getLast?_of_cons (by decide) (getLast?_of_cons (by decide) h))
  | case3 cs ih =>
      obtain ⟨state', hne, hlast, happend⟩ :=
        ih (getLast?_of_cons (by decide) (getLast?_of_cons (by decide) h))
      exact ⟨state', hne, getLast?_cons_of_getLast? hlast, fun ys => by simp [stripFrom, happend]⟩
  | case4 c cs hline hblock ih =>
      cases cs with
      | nil =>
          cases h
          exact ⟨none, nofun, rfl, fun ys => rfl⟩
      | cons d cs =>
          rw [List.getLast?_cons_cons] at h
          obtain ⟨state', hne, hlast, happend⟩ := ih h
          refine ⟨state', hne, getLast?_cons_of_getLast? hlast, fun ys => ?_⟩
          have hcode : opensComment (c :: d :: (cs ++ ys)) = none := by
            refine opensComment_eq_none_iff.mpr ?_
            rintro ⟨rfl, rfl | rfl⟩
            · exact hline cs rfl rfl
            · exact hblock cs rfl rfl
          rw [List.cons_append, List.cons_append, stripFrom_code hcode, ← List.cons_append, happend,
            List.cons_append]
  | case5 cs ih =>
      cases cs with
      | nil => exact ⟨none, nofun, rfl, fun ys => rfl⟩
      | cons d cs =>
          rw [List.getLast?_cons_cons] at h
          obtain ⟨state', hne, hlast, happend⟩ := ih h
          exact ⟨state', hne, getLast?_cons_of_getLast? hlast,
            fun ys => congrArg ('\n' :: ·) (happend ys)⟩
  | case6 c cs hc ih =>
      obtain ⟨state', hne, hlast, happend⟩ := ih (getLast?_of_cons hc h)
      refine ⟨state', hne, hlast, fun ys => ?_⟩
      rw [List.cons_append, stripFrom, happend]
      exact hc
  | case7 cs ih =>
      exact ih (getLast?_of_cons (by decide) (getLast?_of_cons (by decide) h))
  | case8 cs ih =>
      cases cs with
      | nil => exact ⟨some .block, nofun, rfl, fun ys => rfl⟩
      | cons d cs =>
          rw [List.getLast?_cons_cons] at h
          obtain ⟨state', hne, hlast, happend⟩ := ih h
          exact ⟨state', hne, getLast?_cons_of_getLast? hlast,
            fun ys => congrArg ('\n' :: ·) (happend ys)⟩
  | case9 c cs hclose hc ih =>
      have hlast := getLast?_of_cons hc h
      obtain ⟨state', hne, hlast', happend⟩ := ih hlast
      refine ⟨state', hne, hlast', fun ys => ?_⟩
      cases cs with
      | nil => cases hlast
      | cons d cs =>
          rw [List.cons_append, stripFrom, happend]
          · rintro rest rfl heq
            cases heq
            exact hclose cs rfl rfl
          · exact hc

/-- Characters that neither open nor close a comment. -/
def NoComment (cs : List Char) : Prop := ∀ c ∈ cs, c ≠ '/' ∧ c ≠ '*'

instance (cs : List Char) : Decidable (NoComment cs) :=
  decidable_of_iff (cs.all (fun c => c != '/' && c != '*') = true) (by simp [NoComment])

theorem stripFrom_code_append {xs : List Char} (h : NoComment xs) (ys : List Char) :
    stripFrom none (xs ++ ys) = xs ++ stripFrom none ys := by
  induction xs with
  | nil => rfl
  | cons c xs ih =>
      obtain ⟨hc, hxs⟩ := List.forall_mem_cons.mp h
      have hcode : opensComment (c :: (xs ++ ys)) = none := by
        unfold opensComment
        split
        · next heq => exact absurd (List.cons.inj heq).1 hc.1
        · next heq => exact absurd (List.cons.inj heq).1 hc.1
        · rfl
      rw [List.cons_append, stripFrom_code hcode, ih hxs, List.cons_append]

theorem stripFrom_block_append {xs : List Char} (h : NoComment xs) (ys : List Char) :
    stripFrom (some .block) (xs ++ ys) =
      xs.filter (· = '\n') ++ stripFrom (some .block) ys := by
  induction xs with
  | nil => rfl
  | cons c xs ih =>
      obtain ⟨hc, hxs⟩ := List.forall_mem_cons.mp h
      by_cases hline : c = '\n'
      · subst hline
        rw [List.cons_append, stripFrom, ih hxs]
        rfl
      · rw [List.cons_append, stripFrom, ih hxs, List.filter_cons_of_neg (by simpa using hline)]
        · exact fun rest heq => absurd heq hc.2
        · exact hline

theorem expandTabs_append (xs ys : List Char) :
    expandTabs (xs ++ ys) = expandTabs xs ++ expandTabs ys := List.flatMap_append

theorem expandTabs_of_forall_ne {cs : List Char} (h : ∀ c ∈ cs, c ≠ '\t') : expandTabs cs = cs := by
  induction cs with
  | nil => rfl
  | cons c cs ih =>
      obtain ⟨hc, hcs⟩ := List.forall_mem_cons.mp h
      have htail := ih hcs
      rw [expandTabs, List.flatMap_cons, if_neg hc]
      exact congrArg (c :: ·) htail

theorem getLast?_expandTabs {cs : List Char} (h : cs.getLast? = some '\n') :
    (expandTabs cs).getLast? = some '\n' := by
  obtain ⟨front, rfl⟩ := List.getLast?_eq_some_iff.mp h
  rw [expandTabs_append]
  exact List.getLast?_append_of_ne_nil _ (by decide)

/-- The source after a line start is normalized to what the text before it is normalized to and a
tail. A line that is put in between comes out unchanged, or as its newline when a block comment is
open there. -/
theorem normalize_insert {before body : String} (after : String)
    (hbefore : StartsLine before.toList)
    (hbody : ∀ c ∈ body.toList, c ≠ '/' ∧ c ≠ '*' ∧ c ≠ '\t' ∧ c ≠ '\n') :
    StartsLine (normalize before).toList ∧ ∃ tail,
      (normalize (before ++ after)).toList = (normalize before).toList ++ tail ∧
      ((normalize (before ++ (body ++ "\n" ++ after))).toList =
          (normalize before).toList ++ (body.toList ++ '\n' :: tail) ∨
        (normalize (before ++ (body ++ "\n" ++ after))).toList =
          (normalize before).toList ++ '\n' :: tail) := by
  have hplain : NoComment (body.toList ++ ['\n']) := by
    intro c hc
    rcases List.mem_append.mp hc with hc | hc
    · exact ⟨(hbody c hc).1, (hbody c hc).2.1⟩
    · rw [List.mem_singleton.mp hc]
      decide
  have hlines : (body.toList ++ ['\n']).filter (· = '\n') = ['\n'] := by
    have hnone : body.toList.filter (· = '\n') = [] :=
      List.filter_eq_nil_iff.mpr fun c hc => by simpa using (hbody c hc).2.2.2
    rw [List.filter_append, hnone]
    rfl
  have htabs : expandTabs (body.toList ++ ['\n']) = body.toList ++ ['\n'] := by
    refine expandTabs_of_forall_ne fun c hc => ?_
    rcases List.mem_append.mp hc with hc | hc
    · exact (hbody c hc).2.2.1
    · rw [List.mem_singleton.mp hc]
      decide
  have hstate : ∃ state, state ≠ some .line ∧
      StartsLine (stripFrom none (expandTabs before.toList)) ∧
      ∀ ys, stripFrom none (expandTabs before.toList ++ ys) =
        stripFrom none (expandTabs before.toList) ++ stripFrom state ys := by
    rcases startsLine_iff.mp hbefore with hnil | hlast
    · rw [hnil]
      exact ⟨none, nofun, nofun, fun ys => rfl⟩
    · obtain ⟨state, hne, hlast, happend⟩ := stripFrom_append none (getLast?_expandTabs hlast)
      exact ⟨state, hne, startsLine_iff.mpr (Or.inr hlast), happend⟩
  obtain ⟨state, hne, hstart, happend⟩ := hstate
  have hinsert : ∀ ys, (body ++ "\n" ++ ys).toList = (body.toList ++ ['\n']) ++ ys.toList := by
    intro ys
    simp
  simp only [toList_normalize, String.toList_append, hinsert, expandTabs_append, htabs, happend]
  refine ⟨hstart, _, rfl, ?_⟩
  cases state with
  | none =>
      left
      rw [stripFrom_code_append hplain, List.append_assoc]
      rfl
  | some kind =>
      cases kind with
      | line => exact absurd rfl hne
      | block =>
          right
          rw [stripFrom_block_append hplain, hlines]
          rfl

theorem lines_ne_nil {cs : List Char} (h : cs ≠ []) : lines cs ≠ [] := by
  fun_cases lines cs with
  | case1 => exact absurd rfl h
  | case2 => exact List.cons_ne_nil _ _
  | case3 => exact List.cons_ne_nil _ _
  | case4 => exact List.cons_ne_nil _ _

/-- The lines after the start of a line do not depend on those before it. -/
theorem lines_append {xs : List Char} (h : StartsLine xs) (ys : List Char) :
    lines (xs ++ ys) = lines xs ++ lines ys := by
  fun_induction lines xs with
  | case1 => rfl
  | case2 cs ih =>
      have hcs : StartsLine cs := by
        rcases startsLine_iff.mp h with hnil | hlast
        · cases hnil
        · cases cs with
          | nil => nofun
          | cons d cs =>
              rw [List.getLast?_cons_cons] at hlast
              exact startsLine_iff.mpr (Or.inr hlast)
      exact congrArg ([] :: ·) (ih hcs)
  | case3 c cs hc hnil ih =>
      have hlast := getLast?_of_cons hc ((startsLine_iff.mp h).resolve_left (List.cons_ne_nil _ _))
      have hne : cs ≠ [] := by
        rintro rfl
        cases hlast
      exact absurd hnil (lines_ne_nil hne)
  | case4 c cs hc l ls hlines ih =>
      have hlast := getLast?_of_cons hc ((startsLine_iff.mp h).resolve_left (List.cons_ne_nil _ _))
      have happend := ih (startsLine_iff.mpr (Or.inr hlast))
      rw [hlines] at happend
      rw [List.cons_append, lines, happend]
      · rfl
      · exact hc

theorem lines_cons {l : List Char} (h : '\n' ∉ l) (after : List Char) :
    lines (l ++ '\n' :: after) = l :: lines after := by
  induction l with
  | nil => rfl
  | cons c l ih =>
      rw [List.mem_cons, not_or] at h
      rw [List.cons_append, lines, ih h.2]
      exact fun heq => h.1 heq.symm

/-- The words of some lines, of which the first has this number. -/
def wordsFrom (line : Nat) (ls : List (List Char)) : List Word :=
  (ls.zipIdx line).flatMap fun (l, i) =>
    (runs l).map fun r => { text := String.ofList r, line := i }

theorem words_eq_wordsFrom (source : String) :
    words source = wordsFrom 0 (lines source.toList) := rfl

theorem wordsFrom_append (line : Nat) (ls ms : List (List Char)) :
    wordsFrom line (ls ++ ms) = wordsFrom line ls ++ wordsFrom (line + ls.length) ms := by
  rw [wordsFrom, List.zipIdx_append, List.flatMap_append]
  rfl

theorem wordsFrom_cons (line : Nat) (l : List Char) (ls : List (List Char)) :
    wordsFrom line (l :: ls) =
      ((runs l).map fun r => { text := String.ofList r, line := line }) ++
        wordsFrom (line + 1) ls := by
  rw [wordsFrom, List.zipIdx_cons, List.flatMap_cons]
  rfl

/-- The word some lines further down. -/
def Word.below (w : Word) (count : Nat) : Word := { w with line := w.line + count }

theorem wordsFrom_below (line count : Nat) (ls : List (List Char)) :
    wordsFrom (line + count) ls = (wordsFrom line ls).map fun w => w.below count := by
  induction ls generalizing line with
  | nil => rfl
  | cons l ls ih =>
      have hnext : line + count + 1 = line + 1 + count := by omega
      rw [wordsFrom_cons, wordsFrom_cons, List.map_append, List.map_map, hnext, ih]
      rfl

theorem line_of_mem_wordsFrom {line : Nat} {ls : List (List Char)} {w : Word}
    (h : w ∈ wordsFrom line ls) : line ≤ w.line ∧ w.line < line + ls.length := by
  obtain ⟨⟨l, i⟩, hl, hw⟩ := List.mem_flatMap.mp h
  obtain ⟨r, -, rfl⟩ := List.mem_map.mp hw
  obtain ⟨hle, hlt, -⟩ := List.mem_zipIdx hl
  exact ⟨hle, by omega⟩

end ShaderUplift.Source
