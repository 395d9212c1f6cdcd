import Mathlib.Tactic.Choose
import ShaderUplift.Proofs.Files.Effects
import ShaderUplift.Proofs.Outcome

/-! The order in which the pairs of a folder are converted. The results are listed in the order of
names whatever order they come in. The main statement says when the order does not matter at all,
neither for the summary nor for what is in the store at the end: exactly when no pair, converted
alone, leaves a file where another one, converted alone, leaves a folder. Otherwise the one of the
two that comes second fails. -/

namespace ShaderUplift.Files

open Std (TransCmp OrientedCmp)

/-- Results in the order of their names. -/
def byName (results : List (Path × PairResult)) : List (Path × PairResult) :=
  results.mergeSort fun a b => (a.1.compare b.1).isLE

theorem byName_eq {results sorted : List (Path × PairResult)} (hperm : results.Perm sorted)
    (hsorted : sorted.Pairwise fun a b => a.1.compare b.1 = .lt) : byName results = sorted := by
  have hsort : (byName results).Pairwise fun a b => (a.1.compare b.1).isLE = true := by
    apply List.pairwise_mergeSort
    · intro a b c
      exact TransCmp.isLE_trans
    · intro a b
      have hswap : b.1.compare a.1 = (a.1.compare b.1).swap := OrientedCmp.eq_swap
      rw [Bool.or_eq_true, hswap]
      cases a.1.compare b.1 <;> decide
  have hsorted' : sorted.Pairwise fun a b => (a.1.compare b.1).isLE = true :=
    hsorted.imp fun hlt => by rw [hlt]; rfl
  have hsame : (byName results).Perm sorted := (List.mergeSort_perm results _).trans hperm
  refine List.Perm.eq_of_pairwise (fun a b ha hb hab hba => ?_) hsort hsorted' hsame
  exact eq_of_compare_eq hsorted (hsame.mem_iff.mp ha) hb (OrientedCmp.isLE_antisymm hab hba)

theorem mem_failed_iff {results : List (Path × PairResult)} {name : Path} {e : PairError} :
    (name, e) ∈ (Summary.ofResults (byName results)).failed ↔
      ∃ r, (name, r) ∈ results ∧ r.error? = some e := by
  have hmem : ∀ r, r ∈ byName results ↔ r ∈ results :=
    fun r => (List.mergeSort_perm results _).mem_iff
  simp only [Summary.ofResults, List.mem_filterMap, hmem, Option.map_eq_some_iff]
  constructor
  · rintro ⟨⟨other, r⟩, hr, e', he, heq⟩
    obtain ⟨rfl, rfl⟩ := Prod.mk.inj heq
    exact ⟨r, hr, he⟩
  · rintro ⟨r, hr, he⟩
    exact ⟨(name, r), hr, e, he, rfl⟩

/-- Converted alone, the pair leaves the node at the place. -/
def LeavesAlone (store : Store) (input output : Path) (pair : Path × PairPaths) (l : Place)
    (n : Node) : Prop :=
  ∃ after result, convertNamed store input output {} pair = .ok (after, result) ∧
    after.get? l = some n

section Alone

variable {store : Store} {input output : Path} {i o : Place} {pair : Path × PairPaths}
  {es : List (Place × Node)} {r : PairResult}

theorem Apart.takes (h : Apart store input output i o)
    (hes : ∀ e ∈ es, Store.isBelow o e.1 = true) : store.Takes es := by
  intro e he n hn
  rw [h.get?_eq_none (hes e he)] at hn
  cases hn

theorem Effect.alone (he : Effect store output i o pair es r) (h : Apart store input output i o) :
    ∃ after, convertNamed store (Store.pathOf i) output {} pair = .ok (after, r) ∧
      Overlaid store es after :=
  he.taken store (fun _ _ => rfl) (h.takes he.below)

theorem Effect.leavesAlone (he : Effect store output i o pair es r)
    (h : Apart store input output i o) {l : Place} {n : Node} (hl : (l, n) ∈ es) :
    LeavesAlone store (Store.pathOf i) output pair l n := by
  obtain ⟨after, hconvert, hover⟩ := he.alone h
  exact ⟨after, r, hconvert, hover.entry _ hl⟩

theorem Effect.mem_of_leavesAlone (he : Effect store output i o pair es r)
    (h : Apart store input output i o) {l : Place} {n : Node}
    (hl : LeavesAlone store (Store.pathOf i) output pair l n) :
    (l, n) ∈ es ∨ store.get? l = some n := by
  obtain ⟨after, hconvert, hover⟩ := he.alone h
  obtain ⟨after', result, hconvert', hget⟩ := hl
  rw [hconvert] at hconvert'
  cases hconvert'
  by_cases hentry : ∃ e ∈ es, e.1 = l
  · obtain ⟨⟨l', n'⟩, hmem, rfl⟩ := hentry
    rw [hover.entry _ hmem] at hget
    cases hget
    exact .inl hmem
  · push Not at hentry
    rw [hover.other l hentry] at hget
    exact .inr hget

/-- Where one pair leaves a file and another one a folder, both were put there. -/
theorem Effect.mem_of_leave_apart {a b : Path × PairPaths} {esA esB : List (Place × Node)}
    {rA rB : PairResult} (ha : Effect store output i o a esA rA)
    (hb : Effect store output i o b esB rB) (h : Apart store input output i o) {l : Place}
    {bytes : ByteArray} (hfile : LeavesAlone store (Store.pathOf i) output a l (.file bytes))
    (hfolder : LeavesAlone store (Store.pathOf i) output b l .folder) :
    (l, .file bytes) ∈ esA ∧ (l, .folder) ∈ esB := by
  rcases ha.mem_of_leavesAlone h hfile with hfile | hfile <;>
    rcases hb.mem_of_leavesAlone h hfolder with hfolder | hfolder
  · exact ⟨hfile, hfolder⟩
  · rw [h.get?_eq_none (ha.below _ hfile)] at hfolder
    cases hfolder
  · rw [h.get?_eq_none (hb.below _ hfolder)] at hfile
    cases hfile
  · rw [hfile] at hfolder
    cases hfolder

end Alone

section Run

variable {store : Store} {input output : Path} {i o : Place} {pairs : Pairs}
  {es : Path × PairPaths → List (Place × Node)} {r : Path × PairPaths → PairResult}

/-- Pairs whose entries agree have their effects one after the other. -/
theorem convertAll_of_agreeing (h : Apart store input output i o) {order : Pairs}
    {done : List (Place × Node)} {s : Store}
    (heffect : ∀ pair ∈ order, Effect store output i o pair (es pair) (r pair))
    (hs : Overlaid store done s) (hdone : ∀ e ∈ done, Store.isBelow o e.1 = true)
    (hagree : Agreeing (done ++ order.flatMap es)) :
    ∃ final, convertAll s (Store.pathOf i) output {} order =
        .ok (final, order.map fun pair => (pair.1, r pair)) ∧
      Overlaid store (done ++ order.flatMap es) final := by
  -- What is laid over the first store grows by the entries of each pair.
  induction order generalizing done s with
  | nil =>
      refine ⟨s, rfl, ?_⟩
      rw [List.flatMap_nil, List.append_nil]
      exact hs
  | cons pair order ih =>
      have hpair := heffect pair List.mem_cons_self
      rw [List.flatMap_cons, ← List.append_assoc] at hagree ⊢
      have hfirst : Agreeing (done ++ es pair) := hagree.of_subset (List.subset_append_left _ _)
      have hbelow : ∀ e ∈ done ++ es pair, Store.isBelow o e.1 = true :=
        fun e he => (List.mem_append.mp he).elim (hdone e) (hpair.below e)
      have htakes : s.Takes (es pair) := (h.takes hbelow).after hfirst hs
      obtain ⟨t, hnamed, hover⟩ := hpair.taken s (hs.beside hdone) htakes
      obtain ⟨final, hrest, hfinal⟩ := ih (fun pair hmem => heffect pair (List.mem_cons_of_mem _ hmem))
        (hs.trans hover hfirst) hbelow hagree
      exact ⟨final, convertAll_cons_eq_ok_iff.mpr ⟨t, r pair, _, hnamed, hrest, rfl⟩, hfinal⟩

/-- No two pairs write the same file, so their entries agree unless the file of one is the folder of
another. -/
theorem agreeing_of_no_file_for_folder {ps : List Path}
    (hholds : pairs.Holds {} ps)
    (heffect : ∀ pair ∈ pairs, Effect store output i o pair (es pair) (r pair))
    (hapart : ∀ a ∈ pairs, ∀ b ∈ pairs, ∀ l bytes, (l, .file bytes) ∈ es a → (l, .folder) ∉ es b) :
    Agreeing (pairs.flatMap es) := by
  rintro ⟨l, n⟩ he ⟨l', n'⟩ he' heq
  obtain ⟨a, ha, hea⟩ := List.mem_flatMap.mp he
  obtain ⟨b, hb, heb⟩ := List.mem_flatMap.mp he'
  obtain rfl : l = l' := heq
  cases n with
  | folder =>
      cases n' with
      | folder => rfl
      | file bytes => exact absurd hea (hapart b hb a ha l bytes heb)
  | file bytes =>
      cases n' with
      | folder => exact absurd heb (hapart a ha b hb l bytes hea)
      | file bytes' =>
          obtain ⟨stage, p, dirs, name, stem, n, hsource, hat, hn, hl⟩ :=
            (heffect a ha).file l bytes hea
          obtain ⟨stage', p', dirs', name', stem', n', hsource', hat', hn', hl'⟩ :=
            (heffect b hb).file l bytes' heb
          obtain ⟨rfl, rfl⟩ := hat.eq_of_result hat' hn hn' (hl.symm.trans hl')
          have hab : a = b := hholds.eq_of_source ha hb hsource hsource'
          subst hab
          exact (heffect a ha).agreeing _ hea _ heb rfl

/-- A pair that comes after one that leaves a file in the place of its folder fails. -/
theorem exists_failed_after (h : Apart store input output i o) {a b : Path × PairPaths}
    {rest : Pairs} (ha : Effect store output i o a (es a) (r a))
    (hb : Effect store output i o b (es b) (r b)) {l : Place} {bytes : ByteArray}
    (hfile : (l, .file bytes) ∈ es a) (hfolder : (l, .folder) ∈ es b) {final : Store}
    {results : List (Path × PairResult)}
    (hrun : convertAll store (Store.pathOf i) output {} (a :: b :: rest) = .ok (final, results)) :
    ∃ r' e, (b.1, r') ∈ results ∧ r'.error? = some e ∧ (r b).error? ≠ some e := by
  obtain ⟨next, ra, results', hnamed, hrest, rfl⟩ := convertAll_cons_eq_ok_iff.mp hrun
  obtain ⟨after, hnamed', hover⟩ := ha.alone h
  rw [hnamed'] at hnamed
  obtain ⟨rfl, -⟩ := Prod.mk.inj (Except.ok.inj hnamed)
  obtain ⟨t, r', e, hblocked, herror, hne⟩ :=
    hb.blocked after (hover.beside ha.below) l bytes hfolder (hover.entry _ hfile)
  obtain ⟨next, rb, results', hnamed, -, rfl⟩ := convertAll_cons_eq_ok_iff.mp hrest
  rw [hblocked] at hnamed
  cases hnamed
  exact ⟨r', e, by simp, herror, hne⟩

/-- The pair that comes first has its own result. -/
theorem result_of_first (h : Apart store input output i o) {b : Path × PairPaths} {rest : Pairs}
    (hb : Effect store output i o b (es b) (r b)) (hnodup : ((b :: rest).map Prod.fst).Nodup)
    {final : Store} {results : List (Path × PairResult)}
    (hrun : convertAll store (Store.pathOf i) output {} (b :: rest) = .ok (final, results))
    {r' : PairResult} (hr : (b.1, r') ∈ results) : r' = r b := by
  obtain ⟨next, rb, results', hnamed, hrest, rfl⟩ := convertAll_cons_eq_ok_iff.mp hrun
  obtain ⟨after, hnamed', -⟩ := hb.alone h
  rw [hnamed'] at hnamed
  cases hnamed
  rcases List.mem_cons.mp hr with heq | hlater
  · exact (Prod.mk.inj heq).2
  · have hname : b.1 ∈ rest.map Prod.fst := by
      rw [← (turns_of_convertAll hrest).names]
      exact List.mem_map_of_mem hlater
    rw [List.map_cons, List.nodup_cons] at hnodup
    exact absurd hname hnodup.1

/-- Pairs whose entries agree have the same results and leave the same store in any order. -/
theorem convertAll_of_perm (h : Apart store input output i o)
    (heffect : ∀ pair ∈ pairs, Effect store output i o pair (es pair) (r pair))
    (hagree : Agreeing (pairs.flatMap es)) {order : Pairs} (hperm : order.Perm pairs) :
    ∃ final, convertAll store (Store.pathOf i) output {} order =
        .ok (final, order.map fun pair => (pair.1, r pair)) ∧
      Overlaid store (order.flatMap es) final := by
  have hmem : order.flatMap es ⊆ pairs.flatMap es := (hperm.flatMap_right es).subset
  exact convertAll_of_agreeing h (fun pair hpair => heffect pair (hperm.subset hpair))
    (Overlaid.refl store) nofun (hagree.of_subset hmem)

/-- Two pairs of which one leaves a file in the place of the other's folder have another result when
they change places. -/
theorem failed_of_swap (h : Apart store input output i o) (hascending : pairs.Ascending)
    {a b : Path × PairPaths} {rest : Pairs} (hperm : (b :: a :: rest).Perm pairs)
    (ha : Effect store output i o a (es a) (r a)) (hb : Effect store output i o b (es b) (r b))
    {l : Place} {bytes : ByteArray} (hfile : (l, .file bytes) ∈ es a)
    (hfolder : (l, .folder) ∈ es b) {final final' : Store}
    {results results' : List (Path × PairResult)}
    (hrun : convertAll store (Store.pathOf i) output {} (a :: b :: rest) = .ok (final, results))
    (hrun' : convertAll store (Store.pathOf i) output {} (b :: a :: rest) = .ok (final', results')) :
    (Summary.ofResults (byName results)).failed ≠ (Summary.ofResults (byName results')).failed := by
  intro heq
  obtain ⟨r', e, hmem, herror, hne⟩ := exists_failed_after h ha hb hfile hfolder hrun
  have hfailed := mem_failed_iff.mpr ⟨r', hmem, herror⟩
  rw [heq, mem_failed_iff] at hfailed
  obtain ⟨r'', hmem', herror'⟩ := hfailed
  have hnodup : ((b :: a :: rest).map Prod.fst).Nodup :=
    (hperm.map Prod.fst).nodup_iff.mpr hascending.nodup_names
  rw [result_of_first h hb hnodup hrun' hmem'] at herror'
  exact hne herror'

end Run

/-- The order of the pairs does not matter exactly when no pair, converted alone, leaves a file where
another one, converted alone, leaves a folder. -/
theorem pairs_independent_iff {store : Store} {input output : Path} {i o : Place} {pairs : Pairs}
    {unreadable : Option FileError} (h : Apart store input output i o)
    (hfound : findPairs store (canonical store input) {} = .ok (pairs, unreadable))
    (hsource : ∀ pair ∈ pairs, pair.2.HasSource) :
    ∃ outcome, convertFolder store input output {} = .ok outcome ∧
      ((∀ order, order.Perm pairs → ∃ final results,
          convertAll store (canonical store input) output {} order = .ok (final, results) ∧
          Summary.ofResults (byName results) = outcome.summary ∧
          final.get? = outcome.store.get?) ↔
        ∀ a ∈ pairs, ∀ b ∈ pairs, ∀ l bytes,
          LeavesAlone store (canonical store input) output a l (.file bytes) →
            ¬ LeavesAlone store (canonical store input) output b l .folder) := by
  obtain ⟨⟨last, results⟩, hall⟩ :=
    (exists_convertAll_iff store (canonical store input) output {} pairs).mpr hsource
  obtain ⟨outcome, hfolder, rfl, hsummary⟩ := exists_outcome hfound hall
  have hholds := holds_of_findPairs hfound
  rw [h.canonical_input] at hholds hall ⊢
  have hresult : Nonempty PairResult := ⟨⟨[], .ok ()⟩⟩
  choose! es r heffect using fun pair hpair => exists_effect h hholds hpair (hsource pair hpair)
  refine ⟨outcome, hfolder, ?_, ?_⟩
  · intro hsame a ha b hb l bytes hfile hfolder
    obtain ⟨hfile, hfolder⟩ :=
      (heffect a ha).mem_of_leave_apart (heffect b hb) h hfile hfolder
    have hne : b ≠ a := by
      rintro rfl
      cases (heffect b hb).agreeing _ hfile _ hfolder rfl
    have hperm : (a :: b :: (pairs.erase a).erase b).Perm pairs := by
      have hb' : b ∈ pairs.erase a := (List.mem_erase_of_ne hne).mpr hb
      exact ((List.perm_cons_erase hb').symm.cons a).trans (List.perm_cons_erase ha).symm
    have hperm' := (List.Perm.swap a b _).trans hperm
    obtain ⟨final, first, hrun, heq, -⟩ := hsame _ hperm
    obtain ⟨final', second, hrun', heq', -⟩ := hsame _ hperm'
    apply failed_of_swap h hholds.ascending hperm' (heffect a ha) (heffect b hb) hfile hfolder
      hrun hrun'
    rw [heq, heq']
  · intro hapart order hperm
    have hagree : Agreeing (pairs.flatMap es) := by
      apply agreeing_of_no_file_for_folder hholds heffect
      intro a ha b hb l bytes hfile hfolder
      exact hapart a ha b hb l bytes ((heffect a ha).leavesAlone h hfile)
        ((heffect b hb).leavesAlone h hfolder)
    obtain ⟨final, hrun, hover⟩ := convertAll_of_perm h heffect hagree hperm
    obtain ⟨final', hrun', hover'⟩ := convertAll_of_perm h heffect hagree (List.Perm.refl pairs)
    rw [hall] at hrun'
    obtain ⟨rfl, rfl⟩ := Prod.mk.inj (Except.ok.inj hrun')
    refine ⟨final, _, hrun, ?_, ?_⟩
    · rw [hsummary, byName_eq (hperm.map _)]
      exact List.pairwise_map.mpr hholds.ascending
    · exact hover.get?_eq hover' fun e => (hperm.flatMap_right es).mem_iff

def plainSource : Node := .file "void main() \x7b\x7d".toUTF8

/-- A folder with a pair, and with another pair in a folder that has the name of the first pair's
vertex result. -/
def crossingStore : Store :=
  ⟨[(["in"], .folder), (["out"], .folder),
    (["in", "a.vsh"], plainSource), (["in", "a.psh"], plainSource),
    (["in", "a.vert"], .folder),
    (["in", "a.vert", "b.vsh"], plainSource), (["in", "a.vert", "b.psh"], plainSource)]⟩

def crossingPairs : Pairs :=
  [(⟨"/in/a"⟩, { vertex := some ⟨"/in/a.vsh"⟩, fragment := some ⟨"/in/a.psh"⟩ }),
    (⟨"/in/a.vert/b"⟩,
      { vertex := some ⟨"/in/a.vert/b.vsh"⟩, fragment := some ⟨"/in/a.vert/b.psh"⟩ })]

theorem apart_crossing : Apart crossingStore ⟨"in"⟩ ⟨"out"⟩ ["in"] ["out"] where
  named := by decide +kernel
  resolveInput := by decide +kernel
  resolveOutput := by decide +kernel
  folder := by decide +kernel
  empty := by decide +kernel
  inputNotAbove := by decide
  outputNotAbove := by decide

theorem findPairs_crossing :
    findPairs crossingStore (canonical crossingStore ⟨"in"⟩) {} = .ok (crossingPairs, none) := by
  decide +kernel

theorem hasSource_crossing : ∀ pair ∈ crossingPairs, pair.2.HasSource := by decide

theorem pairs_independent_iff_crossing :
    Apart crossingStore ⟨"in"⟩ ⟨"out"⟩ ["in"] ["out"] ∧
      findPairs crossingStore (canonical crossingStore ⟨"in"⟩) {} = .ok (crossingPairs, none) ∧
      (∀ pair ∈ crossingPairs, pair.2.HasSource) ∧
      ∃ outcome, convertFolder crossingStore ⟨"in"⟩ ⟨"out"⟩ {} = .ok outcome ∧
        ((∀ order, order.Perm crossingPairs → ∃ final results,
            convertAll crossingStore (canonical crossingStore ⟨"in"⟩) ⟨"out"⟩ {} order =
              .ok (final, results) ∧
            Summary.ofResults (byName results) = outcome.summary ∧
            final.get? = outcome.store.get?) ↔
          ∀ a ∈ crossingPairs, ∀ b ∈ crossingPairs, ∀ l bytes,
            LeavesAlone crossingStore (canonical crossingStore ⟨"in"⟩) ⟨"out"⟩ a l (.file bytes) →
              ¬ LeavesAlone crossingStore (canonical crossingStore ⟨"in"⟩) ⟨"out"⟩ b l .folder) :=
  ⟨apart_crossing, findPairs_crossing, hasSource_crossing,
    pairs_independent_iff apart_crossing findPairs_crossing hasSource_crossing⟩

/-- The pair of a name is among those that failed in a run. -/
def failsIn (name : Path) : Except FolderError (Store × List (Path × PairResult)) → Bool
  | .ok (_, results) => results.any fun r => decide (r.1 = name) && r.2.error?.isSome
  | .error _ => false

theorem failsIn_ok_iff {name : Path} {final : Store} {results : List (Path × PairResult)} :
    failsIn name (.ok (final, results)) = true ↔
      ∃ e, (name, e) ∈ (Summary.ofResults (byName results)).failed := by
  simp only [mem_failed_iff, failsIn, List.any_eq_true, Bool.and_eq_true, decide_eq_true_eq,
    Option.isSome_iff_exists]
  constructor
  · rintro ⟨⟨other, r⟩, hr, rfl, e, he⟩
    exact ⟨e, r, hr, he⟩
  · rintro ⟨e, r, hr, he⟩
    exact ⟨(name, r), hr, rfl, e, he⟩

/-- The pair that comes second finds the result of the other one in the place of its folder, or its
folder in the place of its own result, and fails. -/
theorem order_of_crossing_pairs_matters :
    ¬ ∀ (store : Store) (input output : Path) (i o : Place) (pairs : Pairs)
        (unreadable : Option FileError), Apart store input output i o →
      findPairs store (canonical store input) {} = .ok (pairs, unreadable) →
      (∀ pair ∈ pairs, pair.2.HasSource) →
        ∃ outcome, convertFolder store input output {} = .ok outcome ∧
          ∀ order, order.Perm pairs → ∃ final results,
            convertAll store (canonical store input) output {} order = .ok (final, results) ∧
            Summary.ofResults (byName results) = outcome.summary ∧
            final.get? = outcome.store.get? := by
  intro hall
  obtain ⟨outcome, -, hsame⟩ := hall crossingStore ⟨"in"⟩ ⟨"out"⟩ ["in"] ["out"] crossingPairs none
    apart_crossing findPairs_crossing hasSource_crossing
  obtain ⟨final, results, hrun, hsummary, -⟩ := hsame crossingPairs (List.Perm.refl _)
  obtain ⟨final', results', hrun', hsummary', -⟩ :=
    hsame crossingPairs.reverse (List.reverse_perm _)
  have hfirst : failsIn ⟨"/in/a"⟩ (convertAll crossingStore (canonical crossingStore ⟨"in"⟩)
      ⟨"out"⟩ {} crossingPairs) = false := by
    decide +kernel
  have hsecond : failsIn ⟨"/in/a"⟩ (convertAll crossingStore (canonical crossingStore ⟨"in"⟩)
      ⟨"out"⟩ {} crossingPairs.reverse) = true := by
    decide +kernel
  rw [hrun, ← Bool.not_eq_true, failsIn_ok_iff, hsummary] at hfirst
  rw [hrun', failsIn_ok_iff, hsummary'] at hsecond
  exact hfirst hsecond

end ShaderUplift.Files
