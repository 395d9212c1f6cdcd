import Mathlib.Data.List.Forall2
import Mathlib.Data.List.TakeWhile
import ShaderUplift.Proofs.Source.InsertedLine

/-! The words of a text with their places. A word is a maximal run of characters that are not blank,
and a newline is blank, so cutting the text into lines first makes no difference to the words; the
line of a word is the number of newlines before it. A carriage return is blank as well, so it may
stay at the end of a line or be cut off with the newline. -/

namespace ShaderUplift.Source

open Text

/-- The text goes on with a character that is not blank. -/
def goesOn (cs : List Char) : Bool := startsWith (fun d => !isBlank d) cs

/-- `run` stands at the place `start` of the text, has no blank in it, and cannot be made longer on
either side. -/
structure MaximalRun (text : List Char) (start : Nat) (run : List Char) : Prop where
  ne_nil : run ≠ []
  stands : run <+: text.drop start
  no_blank : ∀ c ∈ run, isBlank c = false
  left_end : ∀ c ∈ (text.take start).getLast?, isBlank c = true
  right_end : ∀ c ∈ (text.drop (start + run.length)).head?, isBlank c = true

/-- The places seen from one character further to the left. -/
def shifted (ps : List (Nat × List Char)) : List (Nat × List Char) :=
  ps.map fun p => (p.1 + 1, p.2)

/-- The runs of a text, each with the place where it starts. -/
def placedRuns : List Char → List (Nat × List Char)
  | [] => []
  | c :: cs =>
    if isBlank c then shifted (placedRuns cs)
    else if goesOn cs then
      match shifted (placedRuns cs) with
      | [] => [(0, [c])]
      | p :: ps => (0, c :: p.2) :: ps
    else (0, [c]) :: shifted (placedRuns cs)

/-- The word for a run, when `line` lines end before the text. -/
def wordAt (line : Nat) (text : List Char) (p : Nat × List Char) : Word :=
  ⟨String.ofList p.2, line + (text.take p.1).count '\n'⟩

theorem goesOn_cons (c : Char) (cs : List Char) : goesOn (c :: cs) = !isBlank c := by
  rw [goesOn, startsWith]

/-- At the start of a text a maximal run is all that comes before the first blank. -/
theorem maximalRun_zero_iff {text run : List Char} :
    MaximalRun text 0 run ↔
      goesOn text = true ∧ run = text.takeWhile fun d => !isBlank d := by
  constructor
  · intro h
    obtain ⟨rest, hrest⟩ := h.stands
    rw [List.drop_zero] at hrest
    have hplain : ∀ d ∈ run, (!isBlank d) = true := fun d hd => by simp [h.no_blank d hd]
    have hstop : goesOn rest = false := by
      have hright := h.right_end
      rw [← hrest, Nat.zero_add, List.drop_left] at hright
      cases rest with
      | nil => rfl
      | cons d rest => simp [goesOn_cons, hright d rfl]
    constructor
    · cases hrun : run with
      | nil => exact absurd hrun h.ne_nil
      | cons d run =>
          rw [← hrest, hrun, List.cons_append, goesOn_cons]
          exact hplain d (hrun ▸ List.mem_cons_self)
    · rw [← hrest, List.takeWhile_append_of_pos hplain, takeWhile_eq_nil_of_startsWith hstop,
        List.append_nil]
  · rintro ⟨hgoes, rfl⟩
    refine ⟨?_, List.takeWhile_prefix _, fun c hc => ?_, nofun, fun c hc => ?_⟩
    · cases text with
      | nil => cases hgoes
      | cons c cs =>
          rw [List.takeWhile_cons_of_pos (by simpa [goesOn_cons] using hgoes)]
          exact List.cons_ne_nil _ _
    · simpa using List.mem_takeWhile_imp hc
    · have hdrop : text.drop (0 + (text.takeWhile fun d => !isBlank d).length) =
          text.dropWhile fun d => !isBlank d := by
        rw [Nat.zero_add]
        exact (congrArg _ List.takeWhile_append_dropWhile.symm).trans List.drop_left
      rw [hdrop] at hc
      have hhead := List.head?_dropWhile_not (fun d => !isBlank d) text
      rw [Option.mem_def.mp hc] at hhead
      simpa using hhead

/-- Behind its first character a text has the maximal runs of the rest, except for one that goes on
from that character. -/
theorem maximalRun_succ_iff {c : Char} {cs run : List Char} {start : Nat} :
    MaximalRun (c :: cs) (start + 1) run ↔
      MaximalRun cs start run ∧ (start = 0 → isBlank c = true) := by
  have hright : (c :: cs).drop (start + 1 + run.length) = cs.drop (start + run.length) := by
    rw [Nat.add_right_comm]
    rfl
  have hlast : 0 < start → run ≠ [] → run <+: cs.drop start →
      ((c :: cs).take (start + 1)).getLast? = (cs.take start).getLast? := by
    intro hpos hne hstands
    have hlong : start < cs.length := by
      by_contra hshort
      rw [List.drop_eq_nil_of_le (by omega), List.prefix_nil] at hstands
      exact hne hstands
    rw [List.take_succ_cons]
    cases htake : cs.take start with
    | nil =>
        have hlength := congrArg List.length htake
        rw [List.length_take, List.length_nil] at hlength
        omega
    | cons d ds => exact List.getLast?_cons_cons
  constructor
  · intro h
    have hstands : run <+: cs.drop start := h.stands
    refine ⟨⟨h.ne_nil, hstands, h.no_blank, fun d hd => ?_, hright ▸ h.right_end⟩, ?_⟩
    · cases start with
      | zero => cases hd
      | succ n =>
          apply h.left_end d
          rw [hlast (Nat.succ_pos n) h.ne_nil hstands]
          exact hd
    · rintro rfl
      exact h.left_end c rfl
  · rintro ⟨h, hblank⟩
    refine ⟨h.ne_nil, h.stands, h.no_blank, fun d hd => ?_, hright.symm ▸ h.right_end⟩
    cases start with
    | zero =>
        cases hd
        exact hblank rfl
    | succ n =>
        rw [hlast (Nat.succ_pos n) h.ne_nil h.stands] at hd
        exact h.left_end d hd

theorem zero_not_mem_shifted (run : List Char) (ps : List (Nat × List Char)) :
    (0, run) ∉ shifted ps := by
  intro hmem
  obtain ⟨p, -, heq⟩ := List.mem_map.mp hmem
  cases (Prod.mk.inj heq).1

theorem succ_mem_shifted_iff {n : Nat} {run : List Char} {ps : List (Nat × List Char)} :
    (n + 1, run) ∈ shifted ps ↔ (n, run) ∈ ps := by
  simp [shifted]

theorem pos_of_mem_placedRuns {cs : List Char} (h : goesOn cs = false) {p : Nat × List Char}
    (hp : p ∈ placedRuns cs) : 0 < p.1 := by
  cases cs with
  | nil => cases hp
  | cons c cs =>
      have hblank : isBlank c = true := by simpa [goesOn_cons] using h
      rw [placedRuns, if_pos hblank] at hp
      obtain ⟨q, -, rfl⟩ := List.mem_map.mp hp
      exact Nat.succ_pos q.1

/-- A text that starts with a run has it first. -/
theorem placedRuns_of_goesOn {cs : List Char} (h : goesOn cs = true) :
    ∃ ps, placedRuns cs = (0, cs.takeWhile fun d => !isBlank d) :: ps := by
  induction cs with
  | nil => cases h
  | cons c cs ih =>
      have hc : isBlank c = false := by simpa [goesOn_cons] using h
      rw [placedRuns, if_neg (by simp [hc]), List.takeWhile_cons_of_pos (by simp [hc])]
      cases hgoes : goesOn cs with
      | true =>
          obtain ⟨ps, hps⟩ := ih hgoes
          rw [hps]
          exact ⟨_, rfl⟩
      | false =>
          rw [takeWhile_eq_nil_of_startsWith hgoes]
          exact ⟨_, rfl⟩

/-- Between two runs there is a blank at least. -/
theorem pairwise_placedRuns (cs : List Char) :
    (placedRuns cs).Pairwise fun p q => p.1 + p.2.length < q.1 := by
  induction cs with
  | nil => exact List.Pairwise.nil
  | cons c cs ih =>
      have hlater : (shifted (placedRuns cs)).Pairwise fun p q => p.1 + p.2.length < q.1 := by
        rw [shifted, List.pairwise_map]
        refine ih.imp fun hpq => ?_
        dsimp only
        omega
      rw [placedRuns]
      by_cases hc : isBlank c = true
      · rwa [if_pos hc]
      rw [if_neg hc]
      cases hgoes : goesOn cs with
      | true =>
          obtain ⟨ps, hps⟩ := placedRuns_of_goesOn hgoes
          rw [hps, shifted, List.map_cons, List.pairwise_cons] at hlater
          rw [hps]
          refine List.pairwise_cons.mpr ⟨fun q hq => ?_, hlater.2⟩
          have hafter := hlater.1 q hq
          simp only [List.length_cons] at hafter ⊢
          omega
      | false =>
          refine List.pairwise_cons.mpr ⟨fun q hq => ?_, hlater⟩
          obtain ⟨p, hp, rfl⟩ := List.mem_map.mp hq
          have hpos := pos_of_mem_placedRuns hgoes hp
          simp only [List.length_singleton]
          omega

/-- The runs that are placed are the maximal runs of the text. -/
theorem mem_placedRuns_iff {cs run : List Char} {start : Nat} :
    (start, run) ∈ placedRuns cs ↔ MaximalRun cs start run := by
  induction cs generalizing start run with
  | nil =>
      refine ⟨nofun, fun h => ?_⟩
      have hstands := h.stands
      rw [List.drop_nil, List.prefix_nil] at hstands
      exact absurd hstands h.ne_nil
  | cons c cs ih =>
      rw [placedRuns]
      by_cases hc : isBlank c = true
      · rw [if_pos hc]
        cases start with
        | zero => simp [zero_not_mem_shifted, maximalRun_zero_iff, goesOn_cons, hc]
        | succ n => rw [succ_mem_shifted_iff, ih, maximalRun_succ_iff, and_iff_left fun _ => hc]
      rw [if_neg hc]
      have hrest : ∀ n, MaximalRun (c :: cs) (n + 1) run ↔ 0 < n ∧ (n, run) ∈ placedRuns cs := by
        intro n
        rw [maximalRun_succ_iff, ih, and_comm]
        refine and_congr_left fun _ => ⟨fun h => ?_, fun hn hzero => by omega⟩
        by_contra hn
        exact hc (h (by omega))
      cases hgoes : goesOn cs with
      | true =>
          obtain ⟨ps, hps⟩ := placedRuns_of_goesOn hgoes
          have hpairs := pairwise_placedRuns cs
          rw [hps, List.pairwise_cons] at hpairs
          cases start with
          | zero =>
              have hshifted := zero_not_mem_shifted run ps
              simp_all [shifted, maximalRun_zero_iff, goesOn_cons]
          | succ n =>
              rw [hrest, hps, shifted, List.map_cons, ← shifted]
              simp only [if_true, List.mem_cons, Prod.mk.injEq, Nat.succ_ne_zero, false_and,
                false_or, succ_mem_shifted_iff]
              refine ⟨fun hmem => ?_, fun ⟨hn, hmem⟩ => ?_⟩
              · have hafter := hpairs.1 _ hmem
                exact ⟨by omega, Or.inr hmem⟩
              · exact hmem.resolve_left fun heq => by omega
      | false =>
          cases start with
          | zero =>
              simp [zero_not_mem_shifted, maximalRun_zero_iff, goesOn_cons, hc,
                takeWhile_eq_nil_of_startsWith hgoes]
          | succ n =>
              rw [hrest]
              simp only [Bool.false_eq_true, if_false, List.mem_cons, Prod.mk.injEq,
                Nat.succ_ne_zero, false_and, false_or, succ_mem_shifted_iff]
              exact ⟨fun hmem => ⟨pos_of_mem_placedRuns hgoes hmem, hmem⟩, And.right⟩

theorem runs_eq_placedRuns (cs : List Char) : runs cs = (placedRuns cs).map Prod.snd := by
  induction cs with
  | nil => rfl
  | cons c cs ih =>
      have hlater : (shifted (placedRuns cs)).map Prod.snd = runs cs := by
        rw [ih, shifted, List.map_map]
        rfl
      rw [runs, placedRuns, ← goesOn]
      by_cases hblank : isBlank c = true
      · rw [if_pos hblank, if_pos hblank, hlater]
      rw [if_neg hblank, if_neg hblank]
      cases hgoes : goesOn cs with
      | true =>
          obtain ⟨ps, hps⟩ := placedRuns_of_goesOn hgoes
          rw [hps, shifted, List.map_cons, List.map_cons] at hlater
          simp only [if_true, ← hlater, hps, shifted, List.map_cons]
      | false => simp only [Bool.false_eq_true, if_false, List.map_cons, hlater]

theorem wordAt_succ (line : Nat) (c : Char) (text : List Char) (p : Nat × List Char) :
    wordAt line (c :: text) (p.1 + 1, p.2) = wordAt (line + if c = '\n' then 1 else 0) text p := by
  rw [wordAt, wordAt, List.take_succ_cons, List.count_cons]
  simp only [beq_iff_eq]
  rw [Nat.add_assoc, Nat.add_comm ((text.take p.1).count '\n')]

/-- The first line goes on where the text does. -/
theorem goesOn_of_lines {cs l : List Char} {ls : List (List Char)} (h : lines cs = l :: ls) :
    goesOn l = goesOn cs := by
  cases cs with
  | nil => cases h
  | cons c cs =>
      by_cases hc : c = '\n'
      · subst hc
        cases h
        rfl
      · rw [lines] at h
        · split at h <;> cases h <;> rfl
        · exact hc

/-- The words of the lines are the runs of the text, each on the line on which it starts. -/
theorem wordsFrom_eq_placedRuns (line : Nat) (cs : List Char) :
    wordsFrom line (lines cs) = (placedRuns cs).map (wordAt line cs) := by
  fun_induction lines cs generalizing line with
  | case1 => rfl
  | case2 cs ih =>
      rw [wordsFrom_cons, ih, placedRuns, if_pos (by decide), shifted, List.map_map]
      refine List.map_congr_left fun p _ => ?_
      exact (wordAt_succ line '\n' cs p).symm
  | case3 c cs hc hnil ih =>
      have hcs : cs = [] := by
        by_contra hne
        exact lines_ne_nil hne hnil
      subst hcs
      cases hblank : isBlank c <;>
        simp [wordsFrom, runs, placedRuns, shifted, hblank, goesOn, startsWith, wordAt]
  | case4 c cs hc l ls hlines ih =>
      have hlater : ∀ ps, (shifted ps).map (wordAt line (c :: cs)) = ps.map (wordAt line cs) := by
        intro ps
        rw [shifted, List.map_map]
        refine List.map_congr_left fun p _ => ?_
        rw [Function.comp_apply, wordAt_succ, if_neg hc, Nat.add_zero]
      have hline := ih line
      rw [hlines, wordsFrom_cons] at hline
      rw [wordsFrom_cons, runs, placedRuns, ← goesOn, goesOn_of_lines hlines]
      by_cases hblank : isBlank c = true
      · rw [if_pos hblank, if_pos hblank, hlater, hline]
      rw [if_neg hblank, if_neg hblank]
      cases hgoes : goesOn cs with
      | true =>
          obtain ⟨ps, hps⟩ := placedRuns_of_goesOn hgoes
          obtain ⟨rs, hrs⟩ : ∃ rs, runs l = (l.takeWhile fun d => !isBlank d) :: rs := by
            obtain ⟨qs, hqs⟩ := placedRuns_of_goesOn ((goesOn_of_lines hlines).trans hgoes)
            rw [runs_eq_placedRuns, hqs]
            exact ⟨_, rfl⟩
          rw [hrs, hps, List.map_cons, List.map_cons, List.cons_append, List.cons.injEq] at hline
          obtain ⟨hfirst, htail⟩ := hline
          have hrun := String.ofList_injective (congrArg Word.text hfirst)
          rw [hrs, hps, shifted, List.map_cons, ← shifted]
          simp only [if_true, List.map_cons, List.cons_append, hlater, htail, hrun]
          rfl
      | false =>
          simp only [Bool.false_eq_true, if_false, List.map_cons, List.cons_append, hline, hlater]
          rfl

theorem words_eq_placedRuns (source : String) :
    words source = (placedRuns source.toList).map (wordAt 0 source.toList) := by
  rw [words_eq_wordsFrom, wordsFrom_eq_placedRuns]

/-- The text is one word: it has a character, and none of its characters is blank. -/
def IsRun (cs : List Char) : Prop := cs ≠ [] ∧ ∀ c ∈ cs, isBlank c = false

theorem isRun_of_mem_words {source : String} {w : Word} (h : w ∈ words source) :
    IsRun w.text.toList := by
  rw [words_eq_placedRuns] at h
  obtain ⟨⟨start, run⟩, hp, rfl⟩ := List.mem_map.mp h
  have hrun := mem_placedRuns_iff.mp hp
  rw [wordAt, String.toList_ofList]
  exact ⟨hrun.ne_nil, hrun.no_blank⟩

/-- The line with or without the carriage return at its end. -/
def CutAtReturn (line cut : List Char) : Prop := cut = line ∨ cut ++ ['\r'] = line

theorem runs_concat_blank {c : Char} (hc : isBlank c = true) (l : List Char) :
    runs (l ++ [c]) = runs l := by
  induction l with
  | nil => simp [runs, hc]
  | cons d l ih =>
      have hgoes : startsWith (fun d => !isBlank d) (l ++ [c]) =
          startsWith (fun d => !isBlank d) l := by
        cases l with
        | nil => simp [startsWith, hc]
        | cons e l => rfl
      rw [List.cons_append, runs, runs, hgoes, ih]

theorem wordsFrom_of_cutAtReturn {ls cuts : List (List Char)}
    (h : List.Forall₂ CutAtReturn ls cuts) (line : Nat) :
    wordsFrom line cuts = wordsFrom line ls := by
  induction h generalizing line with
  | nil => rfl
  | cons hcut _ ih =>
      rw [wordsFrom_cons, wordsFrom_cons, ih]
      rcases hcut with rfl | rfl
      · rfl
      · rw [runs_concat_blank (by decide)]

/-- The words of a text are its maximal runs of characters that are not blank, in their order, and the
line of each is the number of newlines before it, so that lines never decrease. It makes no
difference whether a line loses the carriage return at its end. -/
theorem words_are_maximal_runs (source : String) :
    (∃ places : List (Nat × List Char),
      (∀ start run, (start, run) ∈ places ↔ MaximalRun source.toList start run) ∧
      places.Pairwise (fun p q => p.1 + p.2.length < q.1) ∧
      words source = places.map fun (start, run) =>
        ⟨String.ofList run, (source.toList.take start).count '\n'⟩) ∧
    ((words source).map Word.line).Pairwise (· ≤ ·) ∧
    ∀ cuts, List.Forall₂ CutAtReturn (lines source.toList) cuts →
      wordsFrom 0 cuts = words source := by
  have hwords := words_eq_placedRuns source
  have hpairs := pairwise_placedRuns source.toList
  refine ⟨⟨placedRuns source.toList, fun _ _ => mem_placedRuns_iff, hpairs, ?_⟩, ?_, ?_⟩
  · rw [hwords]
    refine List.map_congr_left fun p _ => ?_
    rw [wordAt, Nat.zero_add]
  · rw [hwords, List.map_map, List.pairwise_map]
    refine hpairs.imp fun {p q} hpq => ?_
    have htake : source.toList.take p.1 <+: source.toList.take q.1 :=
      List.take_prefix_take_left (by omega)
    exact Nat.add_le_add_left (htake.sublist.count_le '\n') 0
  · intro cuts hcuts
    exact wordsFrom_of_cutAtReturn hcuts 0

example : words "a\rb\r\n\n c d" = [⟨"a", 0⟩, ⟨"b", 0⟩, ⟨"c", 2⟩, ⟨"d", 2⟩] := by decide +kernel

end ShaderUplift.Source
