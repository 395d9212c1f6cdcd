import ShaderUplift.Document
import ShaderUplift.Proofs.Comments.Symbols
import ShaderUplift.Proofs.Outcome
import ShaderUplift.Proofs.Scanning
import ShaderUplift.Proofs.Source.WordPlaces

/-! Definitions that are written on lines of their own and read again. Reading cuts the first word of
a definition at its first parenthesis and puts a single space between the words of its value; writing
puts the two parts of the first word together again and leaves out an empty value. What is written
is therefore the words of the original line with single spaces between them, and a definition read
from them is the one that they were written from. -/

namespace ShaderUplift

open Source Text

/-- The definition is made from words, each without a blank. -/
def Define.FromWords (d : Define) : Prop :=
  ∃ ws : List Word, (∀ w ∈ ws, IsRun w.text.toList) ∧ defineOf ws = some d

/-- The lines of all definitions, one after the other. -/
def definesText (t : Table Define) : String := String.join (t.entries.map Document.defineLine)

/-- The definitions among the statements, the first of each name. No name is reserved, and none has
to be used. -/
def definesOf (ss : List Statement) : Table Define :=
  ss.foldl (fun t s => match s with
    | .define d => t.insertNew d
    | .declare _ => t) .empty

/-- Only the texts of the words matter. -/
theorem defineOf_congr {ws vs : List Word} (h : ws.map Word.text = vs.map Word.text) :
    defineOf ws = defineOf vs := by
  cases ws with
  | nil =>
      cases vs with
      | nil => rfl
      | cons v vs => cases h
  | cons w ws =>
      cases vs with
      | nil => cases h
      | cons v vs =>
          rw [List.map_cons, List.map_cons, List.cons.injEq] at h
          rw [defineOf, defineOf, h.1, h.2]

theorem prefix_intercalate (w : List Char) (ws : List (List Char)) :
    w <+: [' '].intercalate (w :: ws) := by
  cases ws with
  | nil => exact ⟨[], by rw [List.intercalate_singleton, List.append_nil]⟩
  | cons v ws =>
      rw [List.intercalate_cons_cons, List.append_assoc]
      exact List.prefix_append _ _

/-- The line of a definition has its words with single spaces between them. -/
theorem toList_defineLine {ws : List Word} (hws : ∀ w ∈ ws, IsRun w.text.toList) {d : Define}
    (h : defineOf ws = some d) :
    (Document.defineLine d).toList =
      [' '].intercalate ("#define".toList :: ws.map fun w => w.text.toList) ++ ['\n'] := by
  cases ws with
  | nil => cases h
  | cons w ws =>
      obtain ⟨hhead, hvalue⟩ := defineOf_cons h
      have hline : (Document.defineLine d).toList =
          "#define ".toList ++ (w.text.toList ++
            ((if d.value.isEmpty then "" else " " ++ d.value).toList ++ ['\n'])) := by
        rw [← hhead]
        simp [Document.defineLine]
      cases ws with
      | nil =>
          have hempty : d.value = "" := hvalue
          rw [hline, hempty]
          simp
      | cons v ws =>
          have hchars : d.value.toList =
              [' '].intercalate ((v :: ws).map fun w => w.text.toList) := by
            rw [hvalue, String.toList_intercalate, List.map_map]
            rfl
          have hempty : d.value.isEmpty = false := by
            rw [← Bool.not_eq_true, String.isEmpty_iff]
            intro hnil
            have hlead := prefix_intercalate v.text.toList (ws.map fun w => w.text.toList)
            rw [List.map_cons, hnil] at hchars
            rw [← hchars] at hlead
            exact (hws v (by simp)).1 (List.prefix_nil.mp hlead)
          rw [hline, hempty]
          simp [hchars, List.intercalate_cons_cons]

theorem statementsFrom_length_append (ws vs : List Word) :
    statementsFrom ws.length (ws ++ vs) = statementsFrom 0 vs := by
  induction ws with
  | nil => rfl
  | cons w ws ih => exact ih

/-- The words of a definition, when they are the first on a line, are read as that definition, and the
scan goes on after the line. -/
theorem statementsFrom_define {ws : List Word} {d : Define} (h : defineOf ws = some d) {line : Nat}
    {vs : List Word} (hvs : ∀ v ∈ vs, v.line ≠ line) :
    statementsFrom 0 (⟨"#define", line⟩ :: (ws.map fun w => ⟨w.text, line⟩) ++ vs) =
      (.define d :: (statementsFrom 0 vs).1, (statementsFrom 0 vs).2) := by
  have hline : ((ws.map fun w => (⟨w.text, line⟩ : Word)) ++ vs).takeWhile
      (fun v => v.line == line) = ws.map fun w => ⟨w.text, line⟩ := by
    have hother : vs.takeWhile (fun v => v.line == line) = [] := by
      cases vs with
      | nil => rfl
      | cons v vs => exact List.takeWhile_cons_of_neg (by simpa using hvs v List.mem_cons_self)
    rw [List.takeWhile_append_of_pos (by simp), hother, List.append_nil]
  have hsame : defineOf (ws.map fun w => ⟨w.text, line⟩) = some d := by
    rw [← h]
    exact defineOf_congr (by simp [Function.comp_def])
  rw [List.cons_append, statementsFrom]
  simp only [show Storage.ofWord? "#define" = none from rfl, if_true]
  rw [hline, statementsFrom_length_append, hsame]

/-- The words of a line are its runs, and it has no newline among them. -/
theorem runs_defineLine {ws : List Word} (hws : ∀ w ∈ ws, IsRun w.text.toList) :
    runs ([' '].intercalate ("#define".toList :: ws.map fun w => w.text.toList)) =
        "#define".toList :: ws.map (fun w => w.text.toList) ∧
      '\n' ∉ [' '].intercalate ("#define".toList :: ws.map fun w => w.text.toList) := by
  have hdirective : IsRun "#define".toList := by
    have hall : "#define".toList.all (fun c => !isBlank c) = true := by decide
    refine ⟨by decide, fun c hc => ?_⟩
    simpa using List.all_eq_true.mp hall c hc
  have hall : ∀ cs ∈ "#define".toList :: ws.map (fun w => w.text.toList), IsRun cs := by
    refine List.forall_mem_cons.mpr ⟨hdirective, fun cs hcs => ?_⟩
    obtain ⟨w, hw, rfl⟩ := List.mem_map.mp hcs
    exact hws w hw
  constructor
  · have hruns := @runs_intercalate_append _ [] (List.cons_ne_nil _ _) hall rfl
    rwa [List.append_nil, runs, List.append_nil] at hruns
  · intro hmem
    rcases mem_intercalate hmem with heq | ⟨cs, hcs, hmem⟩
    · exact absurd heq (by decide)
    · exact absurd ((hall cs hcs).2 _ hmem) (by decide)

/-- The lines of definitions are read as these definitions and nothing else. -/
theorem statementsFrom_defineLines {ds : List Define} (h : ∀ d ∈ ds, d.FromWords) (line : Nat) :
    statementsFrom 0 (wordsFrom line (lines (String.join (ds.map Document.defineLine)).toList)) =
      (ds.map .define, none) := by
  induction ds generalizing line with
  | nil => rfl
  | cons d ds ih =>
      obtain ⟨⟨ws, hws, hd⟩, hds⟩ := List.forall_mem_cons.mp h
      obtain ⟨hruns, hplain⟩ := runs_defineLine hws
      have hnext : ∀ v ∈ wordsFrom (line + 1)
          (lines (String.join (ds.map Document.defineLine)).toList), v.line ≠ line := by
        intro v hv
        have hv := (line_of_mem_wordsFrom hv).1
        omega
      have hread := statementsFrom_define hd hnext
      rw [ih hds (line + 1)] at hread
      rw [List.map_cons, String.join_cons, String.toList_append, toList_defineLine hws hd,
        List.append_assoc, List.singleton_append, lines_cons hplain, wordsFrom_cons, hruns,
        List.map_cons, List.map_map]
      simpa [Function.comp_def] using hread

namespace Classification

/-- A definition goes into the table when its name passes the two tests and is new. -/
theorem defines_define (c : Classification) (d : Define) :
    (c.define d).symbols.defines =
      if d.name ∉ reservedDefines ∧ c.body.references d.name = true then
        c.symbols.defines.insertNew d
      else c.symbols.defines := by
  have hcontains : c.symbols.defines.contains d.name = true ↔
      Named.name d ∈ c.symbols.defines.names := Table.contains_iff
  unfold define
  by_cases hreserved : d.name ∈ reservedDefines
  · rw [if_pos (by simpa using hreserved), if_neg fun h => h.1 hreserved]
  rw [if_neg (by simpa using hreserved)]
  by_cases hold : Named.name d ∈ c.symbols.defines.names
  · rw [if_pos (hcontains.mpr hold), Table.insertNew, dif_pos hold, ite_self]
  rw [if_neg (mt hcontains.mp hold)]
  by_cases href : c.body.references d.name = true
  · rw [if_pos href, if_pos ⟨hreserved, href⟩]
    exact if_neg hold
  · rw [if_neg href, if_neg fun h => href h.2]

/-- Definitions whose names pass the tests are read one after the other into the table. -/
theorem foldl_define {ds : List Define} (hnames : ∀ d ∈ ds, d.name ∉ reservedDefines)
    {c : Classification} (hrefs : ∀ d ∈ ds, c.body.references d.name = true) :
    ((ds.map Statement.define).foldl step c).symbols.defines =
      ds.foldl Table.insertNew c.symbols.defines := by
  induction ds generalizing c with
  | nil => rfl
  | cons d ds ih =>
      obtain ⟨hname, hnames⟩ := List.forall_mem_cons.mp hnames
      obtain ⟨href, hrefs⟩ := List.forall_mem_cons.mp hrefs
      have hbody : (c.define d).body = c.body := (c.define_frame d).2.1
      rw [List.map_cons, List.foldl_cons, List.foldl_cons, step, ih hnames (hbody ▸ hrefs),
        defines_define, if_pos ⟨hname, href⟩]

end Classification

/-- Entries with new names go to the end of a table, in their order. -/
theorem Table.entries_foldl_insertNew {α : Type} [Named α] {later : List α} {t : Table α}
    (h : ((t.entries ++ later).map Named.name).Nodup) :
    (later.foldl Table.insertNew t).entries = t.entries ++ later := by
  induction later generalizing t with
  | nil => rw [List.foldl_nil, List.append_nil]
  | cons a later ih =>
      have hnew : Named.name a ∉ t.names := by
        rw [List.map_append, List.nodup_append] at h
        exact fun hold => h.2.2 _ hold _ List.mem_cons_self rfl
      have hnext : (t.insertNew a).entries = t.entries ++ [a] := by
        rw [Table.insertNew, dif_neg hnew]
      have hnodup : (((t.insertNew a).entries ++ later).map Named.name).Nodup := by
        rwa [hnext, List.append_assoc, List.singleton_append]
      rw [List.foldl_cons, ih hnodup, hnext, List.append_assoc, List.singleton_append]

theorem Table.eq_of_entries_eq {α : Type} [Named α] {s t : Table α} (h : s.entries = t.entries) :
    s = t := by
  cases s
  cases t
  cases h
  rfl

/-- Putting the entries of a table into an empty one, in their order, gives the table back. -/
theorem Table.foldl_insertNew_entries {α : Type} [Named α] (t : Table α) :
    t.entries.foldl Table.insertNew Table.empty = t :=
  Table.eq_of_entries_eq (Table.entries_foldl_insertNew t.nodup)

/-- The definitions of a stage are made from words, and their names are not reserved. -/
theorem fromWords_of_parse {source : String} {stage : Stage} {unit : ShaderUnit}
    (h : (ShaderUnit.parse source stage).1 = .ok unit) :
    ∀ d ∈ unit.symbols.defines.entries, d.FromWords ∧ d.name ∉ reservedDefines := by
  obtain ⟨c, hc, rfl⟩ := ShaderUnit.parse_induction
    (P := fun c => ∀ d ∈ c.symbols.defines.entries, d.FromWords ∧ d.name ∉ reservedDefines) h
    (fun _ _ d hd => by cases hd)
    (fun c s hs hc d hd => by
      rcases Classification.mem_defines_step hd with hold | rfl
      · exact hc d hold
      · by_cases hreserved : d.name ∈ reservedDefines
        · rw [Classification.step, Classification.defines_define,
            if_neg fun htests => htests.1 hreserved] at hd
          exact hc d hd
        · obtain ⟨ws, hws, hmade⟩ := exists_madeFrom_of_mem_statementsFrom hs
          cases hmade with
          | define hdefine =>
              exact ⟨⟨ws, fun w hw => isRun_of_mem_words (hws hw), hdefine⟩, hreserved⟩)
  exact hc

/-- The lines of the definitions of a stage, one after the other, are read as these definitions and
nothing else, in the same order and with the same names, parameters and values. The table made from
them is the table of the stage, whether the tests on reserved names and on uses are left out or made
with a body that uses all the names. -/
theorem ShaderUnit.parse_defines_read_back {source : String} {stage : Stage} {unit : ShaderUnit}
    (h : (ShaderUnit.parse source stage).1 = .ok unit) :
    statements (words (definesText unit.symbols.defines)) =
      (unit.symbols.defines.entries.map .define, none) ∧
    definesOf (statements (words (definesText unit.symbols.defines))).1 = unit.symbols.defines ∧
    ∀ c : Classification, c.symbols.defines = .empty →
      (∀ name ∈ unit.symbols.defines.names, c.body.references name = true) →
      ((statements (words (definesText unit.symbols.defines))).1.foldl Classification.step
        c).symbols.defines = unit.symbols.defines := by
  have hmade := fromWords_of_parse h
  have hread : statements (words (definesText unit.symbols.defines)) =
      (unit.symbols.defines.entries.map .define, none) :=
    statementsFrom_defineLines (fun d hd => (hmade d hd).1) 0
  refine ⟨hread, ?_, fun c hempty hrefs => ?_⟩
  · rw [hread, definesOf, List.foldl_map]
    exact Table.foldl_insertNew_entries unit.symbols.defines
  · rw [hread, Classification.foldl_define (fun d hd => (hmade d hd).2), hempty]
    · exact Table.foldl_insertNew_entries unit.symbols.defines
    · intro d hd
      exact hrefs d.name (List.mem_map_of_mem hd)

/-- A stage with definitions that have wide spaces, parameters in several words, no value, and a value
in parentheses. -/
def defineSample : String :=
  "#define  S   2.0\n#define M(a, b) a +\tb\r\n #define F\n#define P (x)\n#define S 3\n" ++
    "void main()\x7bS*M(F,P);\x7d"

theorem defineSample_read_back :
    ∃ unit, (ShaderUnit.parse defineSample .vertex).1 = .ok unit ∧
      unit.symbols.defines.entries =
        [⟨"S", none, "2.0"⟩, ⟨"M", some "(a,", "b) a + b"⟩, ⟨"F", none, ""⟩, ⟨"P", none, "(x)"⟩] ∧
      statements (words (definesText unit.symbols.defines)) =
        (unit.symbols.defines.entries.map .define, none) ∧
      definesOf (statements (words (definesText unit.symbols.defines))).1 =
        unit.symbols.defines ∧
      ((statements (words (definesText unit.symbols.defines))).1.foldl Classification.step
        (.start .vertex unit.body [])).symbols.defines = unit.symbols.defines := by
  have hok : ((ShaderUnit.parse defineSample .vertex).1.toOption.any fun unit =>
      unit.symbols.defines.entries =
        [⟨"S", none, "2.0"⟩, ⟨"M", some "(a,", "b) a + b"⟩, ⟨"F", none, ""⟩, ⟨"P", none, "(x)"⟩] ∧
      ∀ name ∈ unit.symbols.defines.names, unit.body.references name = true) = true := by
    decide +kernel
  obtain ⟨unit, hunit, hfacts⟩ := exists_ok_of_any hok
  obtain ⟨hentries, hrefs⟩ := of_decide_eq_true hfacts
  obtain ⟨hread, htable, hagain⟩ := ShaderUnit.parse_defines_read_back hunit
  exact ⟨unit, hunit, hentries, hread, htable, hagain _ rfl hrefs⟩

end ShaderUplift
