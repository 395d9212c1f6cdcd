import Mathlib.Data.List.DropRight
import ShaderUplift.Declaration.Statement
import ShaderUplift.Proofs.Qualification.Exposure
import ShaderUplift.Proofs.Source.InsertedLine

/-! The scan for statements, cut in two. Where the scan of some words stands between two statements,
the statements of all words are those of the first part and then those of the second; and of the
lines of the words it matters only which are the same. A declaration on a line of its own is then
one more statement between the two parts. -/

namespace ShaderUplift

open Source Text

/-- The scan of these words, after the first `skipped`, does not stand in the middle of a
declaration: it comes to the end of a statement with the last word, or it has ended before with an
error. -/
def endsBetween (skipped : Nat) : List Word → Bool
  | [] => skipped = 0
  | w :: ws =>
    match skipped with
    | n + 1 => endsBetween n ws
    | 0 =>
      match Storage.ofWord? w.text with
      | some _ =>
        match typeAndName? ws with
        | none => false
        | some (_, name, n) =>
          match splitArray name with
          | .error _ => true
          | .ok _ => endsBetween n ws
      | none =>
        if w.text = "#define" then
          endsBetween (ws.takeWhile fun v => v.line == w.line).length ws
        else endsBetween 0 ws

/-- The statements of two parts, of which the second is not read after an error in the first. -/
def andThen (first second : List Statement × Option ConversionError) :
    List Statement × Option ConversionError :=
  match first.2 with
  | some e => (first.1, some e)
  | none => (first.1 ++ second.1, second.2)

theorem andThen_cons (s : Statement) (first second : List Statement × Option ConversionError) :
    andThen (s :: first.1, first.2) second =
      (s :: (andThen first second).1, (andThen first second).2) := by
  obtain ⟨ss, e⟩ := first
  cases e <;> rfl

theorem typeAndName?_append {ws : List Word} {x : String × List Char × Nat}
    (h : typeAndName? ws = some x) (vs : List Word) : typeAndName? (ws ++ vs) = some x := by
  cases ws with
  | nil => cases h
  | cons w ws =>
      have hlong : ∀ precision, precision ≤ 1 →
          (w :: ws ++ vs).drop precision = (w :: ws).drop precision ++ vs := fun precision hle =>
        List.drop_append_of_le_length (by simp only [List.length_cons]; omega)
      have hprecision : (if (w :: ws).head?.any fun w => precisionQualifiers.contains w.text
          then 1 else 0) ≤ 1 := by
        split <;> omega
      have hhead : (w :: ws ++ vs).head? = (w :: ws).head? := rfl
      unfold typeAndName? at h ⊢
      dsimp only at h ⊢
      rw [hhead, hlong _ hprecision]
      split at h
      · next type name rest hdrop =>
        cases h
        rw [hdrop]
        rfl
      · cases h

/-- A scan that stands between two statements goes on as it would from the start. -/
theorem statementsFrom_append {ws vs : List Word} {skipped : Nat}
    (hends : endsBetween skipped ws = true) (hlines : ∀ w ∈ ws, ∀ v ∈ vs, w.line ≠ v.line) :
    statementsFrom skipped (ws ++ vs) =
      andThen (statementsFrom skipped ws) (statementsFrom 0 vs) := by
  induction ws generalizing skipped with
  | nil =>
      rw [endsBetween, decide_eq_true_eq] at hends
      subst hends
      rfl
  | cons w ws ih =>
      obtain ⟨hw, hws⟩ := List.forall_mem_cons.mp hlines
      cases skipped with
      | succ n => exact ih hends hws
      | zero =>
          rw [List.cons_append, statementsFrom, statementsFrom]
          rw [endsBetween] at hends
          dsimp only at hends ⊢
          cases hstorage : Storage.ofWord? w.text with
          | some storage =>
              simp only [hstorage] at hends ⊢
              cases htype : typeAndName? ws with
              | none => simp [htype] at hends
              | some x =>
                  obtain ⟨type, name, n⟩ := x
                  simp only [htype, typeAndName?_append htype] at hends ⊢
                  cases hsplit : splitArray name with
                  | error e => rfl
                  | ok y =>
                      simp only [hsplit] at hends ⊢
                      rw [ih hends hws, andThen_cons]
          | none =>
              simp only [hstorage] at hends ⊢
              by_cases hdefine : w.text = "#define"
              · have hline : (ws ++ vs).takeWhile (fun v => v.line == w.line) =
                    ws.takeWhile fun v => v.line == w.line := by
                  rw [List.takeWhile_append]
                  split
                  · next hall =>
                    have hnone : vs.takeWhile (fun v => v.line == w.line) = [] := by
                      cases vs with
                      | nil => rfl
                      | cons v vs =>
                          have hne : (v.line == w.line) = false := by
                            simpa using (hw v List.mem_cons_self).symm
                          exact List.takeWhile_cons_of_neg (by simp [hne])
                    rw [hnone, List.append_nil, (List.takeWhile_prefix _).eq_of_length hall]
                  · rfl
                simp only [hdefine, if_true] at hends ⊢
                rw [hline, ih hends hws]
                cases defineOf (ws.takeWhile fun v => v.line == w.line) with
                | none => rfl
                | some d => exact (andThen_cons _ _ _).symm
              · simp only [hdefine, if_false] at hends ⊢
                exact ih hends hws

theorem typeAndName?_below (ws : List Word) (count : Nat) :
    typeAndName? (ws.map fun w => w.below count) = typeAndName? ws := by
  have hhead : ((ws.map fun w => w.below count).head?.any fun w =>
      precisionQualifiers.contains w.text) =
        ws.head?.any fun w => precisionQualifiers.contains w.text := by
    cases ws <;> rfl
  unfold typeAndName?
  dsimp only
  rw [hhead, ← List.map_drop]
  match ws.drop _ with
  | [] => rfl
  | [_] => rfl
  | _ :: _ :: _ => rfl

theorem defineOf_below (ws : List Word) (count : Nat) :
    defineOf (ws.map fun w => w.below count) = defineOf ws := by
  cases ws with
  | nil => rfl
  | cons w ws =>
      rw [List.map_cons, defineOf, defineOf, List.map_map]
      rfl

/-- The statements do not depend on how far down the words stand. -/
theorem statementsFrom_below (ws : List Word) (skipped count : Nat) :
    statementsFrom skipped (ws.map fun w => w.below count) = statementsFrom skipped ws := by
  induction ws generalizing skipped with
  | nil => rfl
  | cons w ws ih =>
      have htext : (w.below count).text = w.text := rfl
      have hline : (ws.map fun w => w.below count).takeWhile
          (fun v => v.line == (w.below count).line) =
            (ws.takeWhile fun v => v.line == w.line).map fun w => w.below count := by
        rw [List.takeWhile_map]
        refine congrArg (fun p => (ws.takeWhile p).map _) (funext fun v => ?_)
        simp [Word.below]
      cases skipped with
      | succ n => exact ih n
      | zero =>
          rw [List.map_cons, statementsFrom, statementsFrom]
          dsimp only
          rw [htext, hline, typeAndName?_below, defineOf_below, List.length_map]
          simp only [ih]

/-- A run ends where the rest does not go on with it. -/
theorem runs_append {w rest : List Char} (hne : w ≠ []) (h : ∀ c ∈ w, isBlank c = false)
    (hrest : startsWith (fun d => !isBlank d) rest = false) :
    runs (w ++ rest) = w :: runs rest := by
  induction w with
  | nil => exact absurd rfl hne
  | cons c w ih =>
      obtain ⟨hc, hw⟩ := List.forall_mem_cons.mp h
      cases w with
      | nil => simp [runs, hc, hrest]
      | cons d w =>
          have hd := hw d List.mem_cons_self
          rw [List.cons_append, runs, ih (List.cons_ne_nil d w) hw]
          simp [hc, hd, startsWith]

/-- Words with a space between them are the runs of their line. -/
theorem runs_intercalate_append {ws : List (List Char)} {rest : List Char} (hws : ws ≠ [])
    (h : ∀ w ∈ ws, w ≠ [] ∧ ∀ c ∈ w, isBlank c = false)
    (hrest : startsWith (fun d => !isBlank d) rest = false) :
    runs ([' '].intercalate ws ++ rest) = ws ++ runs rest := by
  induction ws with
  | nil => exact absurd rfl hws
  | cons w ws ih =>
      obtain ⟨⟨hne, hblank⟩, hall⟩ := List.forall_mem_cons.mp h
      cases ws with
      | nil => rw [List.intercalate_singleton, runs_append hne hblank hrest, List.singleton_append]
      | cons v ws =>
          rw [List.intercalate_cons_cons, List.append_assoc, List.append_assoc,
            runs_append hne hblank rfl]
          exact congrArg (w :: ·) (ih (List.cons_ne_nil v ws) hall)

theorem mem_intercalate {ws : List (List Char)} {c : Char} (h : c ∈ [' '].intercalate ws) :
    c = ' ' ∨ ∃ w ∈ ws, c ∈ w := by
  induction ws with
  | nil => cases h
  | cons w ws ih =>
      cases ws with
      | nil => exact Or.inr ⟨w, List.mem_cons_self, by rwa [List.intercalate_singleton] at h⟩
      | cons v ws =>
          rw [List.intercalate_cons_cons, List.mem_append, List.mem_append, List.mem_singleton] at h
          rcases h with (h | h) | h
          · exact Or.inr ⟨w, List.mem_cons_self, h⟩
          · exact Or.inl h
          · exact (ih h).imp_right fun ⟨u, hu, hc⟩ => ⟨u, List.mem_cons_of_mem _ hu, hc⟩

def Storage.word : Storage → String
  | .attribute => "attribute"
  | .uniform => "uniform"
  | .varying => "varying"

theorem Storage.ofWord?_word (s : Storage) : Storage.ofWord? s.word = some s := by
  cases s <;> rfl

theorem trimEndOf_eq_rdropWhile (c : Char) (cs : List Char) :
    trimEndOf c cs = cs.rdropWhile (· == c) := rfl

/-- A line that declares one name and no array. -/
structure DeclarationLine where
  storage : Storage
  precision : Option String
  type : String
  name : String
  precision_mem : ∀ p ∈ precision, p ∈ precisionQualifiers
  type_word : isWord type = true
  type_not_mem : type ∉ precisionQualifiers
  name_word : isWord name = true

namespace DeclarationLine

/-- The words before the name. -/
def lead (line : DeclarationLine) : List String :=
  line.storage.word :: (line.precision.toList ++ [line.type])

/-- The text of the line, without its newline and without the semicolon before it. -/
def front (line : DeclarationLine) : String := " ".intercalate line.lead ++ " " ++ line.name

/-- The text of the line without its newline. -/
def text (line : DeclarationLine) : String := line.front ++ ";"

def kind (line : DeclarationLine) : DeclarationKind := line.storage.kind line.type

def declaration (line : DeclarationLine) : Declaration := ⟨line.kind, line.type, line.name, none⟩

variable (line : DeclarationLine)

theorem isWord_of_mem_lead {w : String} (h : w ∈ line.lead) : isWord w = true := by
  have hprecision : ∀ p ∈ precisionQualifiers, isWord p = true := by decide
  rcases List.mem_cons.mp h with rfl | h
  · cases line.storage <;> decide
  rcases List.mem_append.mp h with h | h
  · exact hprecision w (line.precision_mem w (Option.mem_toList.mp h))
  · rw [List.mem_singleton.mp h]
    exact line.type_word

theorem toList_front :
    line.front.toList =
      [' '].intercalate (line.lead.map String.toList) ++ ' ' :: line.name.toList := by
  simp [front, String.toList_intercalate]

theorem toList_text : line.text.toList = line.front.toList ++ [';'] := String.toList_append

theorem exists_toList_text :
    ∃ rest, line.text.toList = line.storage.word.toList ++ ' ' :: rest := by
  obtain ⟨w, ws, hrest⟩ : ∃ w ws, line.precision.toList ++ [line.type] = w :: ws := by
    cases line.precision <;> exact ⟨_, _, rfl⟩
  rw [toList_text, toList_front, lead, hrest, List.map_cons, List.map_cons,
    List.intercalate_cons_cons, List.append_assoc, List.append_assoc, List.append_assoc]
  exact ⟨_, rfl⟩

theorem mem_front {c : Char} (h : c ∈ line.front.toList) : isWordChar c = true ∨ c = ' ' := by
  have hword : ∀ {w : String}, isWord w = true → c ∈ w.toList → isWordChar c = true :=
    fun hw hc => List.all_eq_true.mp (isWord_iff.mp hw).2 c hc
  rw [toList_front, List.mem_append, List.mem_cons] at h
  rcases h with h | h | h
  · rcases mem_intercalate h with rfl | ⟨cs, hcs, hc⟩
    · exact Or.inr rfl
    · obtain ⟨w, hw, rfl⟩ := List.mem_map.mp hcs
      exact Or.inl (hword (line.isWord_of_mem_lead hw) hc)
  · exact Or.inr h
  · exact Or.inl (hword line.name_word h)

theorem runs_text :
    runs line.text.toList = (line.lead ++ [line.name ++ ";"]).map String.toList := by
  have hword : ∀ {w : String}, isWord w = true →
      w.toList ≠ [] ∧ ∀ c ∈ w.toList, isBlank c = false := by
    intro w hw
    obtain ⟨hne, hall⟩ := isWord_iff.mp hw
    exact ⟨hne, fun c hc => not_isBlank_of_isWordChar (List.all_eq_true.mp hall c hc)⟩
  have hlead : ∀ cs ∈ line.lead.map String.toList, cs ≠ [] ∧ ∀ c ∈ cs, isBlank c = false := by
    intro cs hcs
    obtain ⟨w, hw, rfl⟩ := List.mem_map.mp hcs
    exact hword (line.isWord_of_mem_lead hw)
  have hlast : ∀ c ∈ line.name.toList ++ [';'], isBlank c = false := by
    intro c hc
    rcases List.mem_append.mp hc with hc | hc
    · exact (hword line.name_word).2 c hc
    · rw [List.mem_singleton.mp hc]
      decide
  have hname : runs (line.name.toList ++ [';']) = [line.name.toList ++ [';']] := by
    have hrun : runs (line.name.toList ++ [';'] ++ []) = (line.name.toList ++ [';']) :: runs [] :=
      runs_append (by simp) hlast rfl
    rwa [List.append_nil] at hrun
  rw [toList_text, toList_front, List.append_assoc,
    runs_intercalate_append (by simp [lead]) hlead rfl, List.cons_append, runs,
    if_pos (by decide), hname, List.map_append]
  simp

theorem trimEndOf_name : trimEndOf ';' (line.name.toList ++ [';']) = line.name.toList := by
  rw [trimEndOf_eq_rdropWhile, List.rdropWhile_concat_pos _ _ _ (by decide),
    List.rdropWhile_eq_self_iff]
  intro hne hmark
  have hword := List.all_eq_true.mp (isWord_iff.mp line.name_word).2 _ (List.getLast_mem hne)
  rw [beq_iff_eq.mp hmark] at hword
  exact absurd hword (by decide)

theorem splitArray_name : splitArray line.name.toList = .ok (line.name, none) := by
  have hall : ∀ c ∈ line.name.toList, (c != '[') = true := by
    intro c hc
    have hword := List.all_eq_true.mp (isWord_iff.mp line.name_word).2 c hc
    rw [bne_iff_ne]
    rintro rfl
    exact absurd hword (by decide)
  rw [splitArray, List.dropWhile_eq_nil_iff.mpr hall, List.takeWhile_eq_self_iff.mpr hall,
    String.ofList_toList]

theorem typeAndName?_line (number : Nat) (ws : List Word) :
    typeAndName? ((line.precision.toList ++ [line.type, line.name ++ ";"]).map
        (fun text => ⟨text, number⟩) ++ ws) =
      some (line.type, line.name.toList, line.precision.toList.length + 2) := by
  cases hprecision : line.precision with
  | none => simp [typeAndName?, line.type_not_mem, line.trimEndOf_name]
  | some p => simp [typeAndName?, line.precision_mem p hprecision, line.trimEndOf_name]

/-- The words of the line are read as its declaration, and the scan goes on after them. -/
theorem statementsFrom_line (number : Nat) (ws : List Word) :
    statementsFrom 0 ((line.lead ++ [line.name ++ ";"]).map (fun text => ⟨text, number⟩) ++ ws) =
      (.declare line.declaration :: (statementsFrom 0 ws).1, (statementsFrom 0 ws).2) := by
  have hskip : statementsFrom (line.precision.toList.length + 2)
      ((line.precision.toList ++ [line.type, line.name ++ ";"]).map
        (fun text => ⟨text, number⟩) ++ ws) = statementsFrom 0 ws := by
    cases line.precision <;> rfl
  rw [lead, List.cons_append, List.append_assoc, List.singleton_append, List.map_cons,
    List.cons_append, statementsFrom]
  simp only [Storage.ofWord?_word, typeAndName?_line, splitArray_name, hskip]
  rfl

theorem mem_text {c : Char} (h : c ∈ line.text.toList) :
    isWordChar c = true ∨ c = ' ' ∨ c = ';' := by
  rw [toList_text, List.mem_append, List.mem_singleton] at h
  exact h.elim (fun h => (line.mem_front h).imp_right Or.inl) fun h => Or.inr (Or.inr h)

/-- Of the special characters a line has the space and the semicolon only. -/
theorem ne_of_mem_text {c d : Char} (h : c ∈ line.text.toList)
    (hd : isWordChar d = false ∧ d ≠ ' ' ∧ d ≠ ';') : c ≠ d := by
  rintro rfl
  rcases line.mem_text h with hc | hc | hc
  · exact absurd hc (by simp [hd.1])
  · exact hd.2.1 hc
  · exact hd.2.2 hc

end DeclarationLine

/-- What is put in at the start of a line, where the scan stands between two statements, comes
between their statements. An empty line has no statement. -/
theorem statements_insert {before : List Char} (after : List Char) (hbefore : StartsLine before)
    (hends : endsBetween 0 (words (String.ofList before)) = true) (line : DeclarationLine) :
    ∃ first second,
      statements (words (String.ofList (before ++ after))) = andThen first second ∧
      statements (words (String.ofList (before ++ '\n' :: after))) = andThen first second ∧
      statements (words (String.ofList (before ++ (line.text.toList ++ '\n' :: after)))) =
        andThen first (.declare line.declaration :: second.1, second.2) := by
  have hwords : ∀ ys, words (String.ofList (before ++ ys)) =
      words (String.ofList before) ++ wordsFrom (lines before).length (lines ys) := by
    intro ys
    rw [words_eq_wordsFrom, words_eq_wordsFrom, String.toList_ofList, String.toList_ofList,
      lines_append hbefore, wordsFrom_append, Nat.zero_add]
  have hnumber : ∀ w ∈ words (String.ofList before), w.line < (lines before).length := by
    intro w hw
    rw [words_eq_wordsFrom, String.toList_ofList] at hw
    simpa using (line_of_mem_wordsFrom hw).2
  have hscan : ∀ ys, statements (words (String.ofList (before ++ ys))) =
      andThen (statements (words (String.ofList before)))
        (statementsFrom 0 (wordsFrom (lines before).length (lines ys))) := by
    intro ys
    rw [hwords]
    refine statementsFrom_append hends fun w hw v hv => ?_
    have hv := (line_of_mem_wordsFrom hv).1
    have hw := hnumber w hw
    omega
  have hbelow : statementsFrom 0 (wordsFrom ((lines before).length + 1) (lines after)) =
      statementsFrom 0 (wordsFrom (lines before).length (lines after)) := by
    rw [wordsFrom_below, statementsFrom_below]
  refine ⟨_, _, hscan after, ?_, ?_⟩
  · rw [hscan, lines, wordsFrom_cons, runs, List.map_nil, List.nil_append, hbelow]
  · have hplain : '\n' ∉ line.text.toList := fun h => line.ne_of_mem_text h (by decide) rfl
    rw [hscan, lines_cons hplain, wordsFrom_cons, line.runs_text, List.map_map, ← hbelow,
      ← line.statementsFrom_line (lines before).length]
    simp [Function.comp_def]

end ShaderUplift
