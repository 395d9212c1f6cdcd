import Mathlib.Data.List.Basic
import Mathlib.Data.List.Pairwise
import ShaderUplift.Files.Batch
import ShaderUplift.Proofs.Files.Places

/-! The pairs that are found below a folder. They stand in the strict order of their names, every
path is in the pair of its name, and what a pair holds for a stage is a path of that stage. A path is
found by the ending of its file name, but its stage is told by its extension, so a pair can be found
that holds nothing. The main statement says for which paths this does not happen. -/

namespace ShaderUplift.Files

open Std (TransCmp OrientedCmp LawfulEqCmp)

def Component.name : Component → String
  | .normal name => name
  | _ => ""

theorem Component.compare_eq :
    Component.compare = compareLex (compareOn Component.rank) (compareOn Component.name) := by
  funext a b
  cases a <;> cases b <;> rfl

instance : TransCmp Component.compare := by
  rw [Component.compare_eq]
  infer_instance

instance : LawfulEqCmp Component.compare where
  eq_of_compare {a b} h := by
    rw [Component.compare_eq, compareLex, Ordering.then_eq_eq] at h
    have hrank : a.rank = b.rank := Std.LawfulEqOrd.eq_of_compare h.1
    have hname : a.name = b.name := Std.LawfulEqOrd.eq_of_compare h.2
    cases a with
    | normal name =>
        cases b with
        | normal other => exact congrArg Component.normal hname
        | _ => cases hrank
    | _ => cases b <;> first | rfl | cases hrank

theorem compareComponents_eq : compareComponents = List.compareLex Component.compare := by
  funext as bs
  fun_induction compareComponents as bs with
  | case1 => rfl
  | case2 => rfl
  | case3 => rfl
  | case4 a as b bs ih => rw [List.compareLex_cons_cons, ih]

instance : TransCmp Path.compare where
  eq_swap {a b} := by
    simp only [Path.compare, compareComponents_eq]
    exact OrientedCmp.eq_swap
  isLE_trans {a b c} := by
    simp only [Path.compare, compareComponents_eq]
    exact TransCmp.isLE_trans

theorem Path.compare_eq_iff {p q : Path} : p.compare q = .eq ↔ p.components = q.components := by
  rw [Path.compare, compareComponents_eq]
  exact LawfulEqCmp.compare_eq_iff_eq

/-- The two paths have the same name, which is all of a path but its extension. -/
def SameName (p q : Path) : Prop := (p.withExtension []).compare (q.withExtension []) = .eq

instance (p q : Path) : Decidable (SameName p q) := by
  unfold SameName
  infer_instance

/-- In well-named folders, paths have the same name when they are in the same folder and their file
names are the same without their extensions. -/
theorem sameName_iff {dirs dirs' : Place} {name name' : String}
    (h : ∀ n ∈ dirs ++ [name], ValidName n) (h' : ∀ n ∈ dirs' ++ [name'], ValidName n) :
    SameName (Store.pathOf (dirs ++ [name])) (Store.pathOf (dirs' ++ [name'])) ↔
      dirs = dirs' ∧ bareName name.toList = bareName name'.toList := by
  rw [SameName, Path.compare_eq_iff, components_withoutExtension h, components_withoutExtension h']
  constructor
  · intro heq
    obtain ⟨hdirs, hlast⟩ := List.append_inj' heq rfl
    exact ⟨map_normal_injective (List.cons.inj hdirs).2,
      componentOf_injective (List.cons.inj hlast).1⟩
  · rintro ⟨rfl, hbare⟩
    rw [hbare]

section Change

variable {name : Path} {f : PairPaths → PairPaths} {pairs : Pairs} {pair : Path × PairPaths}

/-- A pair after a change was there before, or is the changed pair of the name. -/
theorem Pairs.of_mem_change (h : pair ∈ pairs.change name f) :
    pair ∈ pairs ∨ ∃ paths, pair.2 = f paths ∧ name.compare pair.1 = .eq ∧
      ((pair.1, paths) ∈ pairs ∨ pair.1 = name ∧ paths = {}) := by
  have hself : name.compare name = .eq := Std.ReflCmp.compare_self
  fun_induction Pairs.change name f pairs with
  | case1 =>
      rw [List.mem_singleton] at h
      subst h
      exact .inr ⟨{}, rfl, hself, .inr ⟨rfl, rfl⟩⟩
  | case2 other paths rest hlt =>
      rcases List.mem_cons.mp h with rfl | h
      · exact .inr ⟨{}, rfl, hself, .inr ⟨rfl, rfl⟩⟩
      · exact .inl h
  | case3 other paths rest heq =>
      rcases List.mem_cons.mp h with rfl | h
      · exact .inr ⟨paths, rfl, heq, .inl List.mem_cons_self⟩
      · exact .inl (List.mem_cons_of_mem _ h)
  | case4 other paths rest hgt ih =>
      rcases List.mem_cons.mp h with rfl | h
      · exact .inl List.mem_cons_self
      · rcases ih h with hold | ⟨paths', hpaths, hname, hold | hnew⟩
        · exact .inl (List.mem_cons_of_mem _ hold)
        · exact .inr ⟨paths', hpaths, hname, .inl (List.mem_cons_of_mem _ hold)⟩
        · exact .inr ⟨paths', hpaths, hname, .inr hnew⟩

theorem Pairs.exists_mem_change (name : Path) (f : PairPaths → PairPaths) (pairs : Pairs) :
    ∃ other paths, (other, f paths) ∈ pairs.change name f ∧ name.compare other = .eq := by
  have hself : name.compare name = .eq := Std.ReflCmp.compare_self
  fun_induction Pairs.change name f pairs with
  | case1 => exact ⟨name, {}, List.mem_cons_self, hself⟩
  | case2 other paths rest hlt => exact ⟨name, {}, List.mem_cons_self, hself⟩
  | case3 other paths rest heq => exact ⟨other, paths, List.mem_cons_self, heq⟩
  | case4 other paths rest hgt ih =>
      obtain ⟨other', paths', hmem, heq⟩ := ih
      exact ⟨other', paths', List.mem_cons_of_mem _ hmem, heq⟩

/-- A pair stays as it is or is changed. -/
theorem Pairs.mem_change_of_mem (h : pair ∈ pairs) :
    pair ∈ pairs.change name f ∨ (pair.1, f pair.2) ∈ pairs.change name f := by
  fun_induction Pairs.change name f pairs with
  | case1 => cases h
  | case2 other paths rest hlt => exact .inl (List.mem_cons_of_mem _ h)
  | case3 other paths rest heq =>
      rcases List.mem_cons.mp h with rfl | h
      · exact .inr List.mem_cons_self
      · exact .inl (List.mem_cons_of_mem _ h)
  | case4 other paths rest hgt ih =>
      rcases List.mem_cons.mp h with rfl | h
      · exact .inl List.mem_cons_self
      · exact (ih h).imp (List.mem_cons_of_mem _) (List.mem_cons_of_mem _)

end Change

/-- The names of the pairs are in strict order. -/
def Pairs.Ascending (pairs : Pairs) : Prop := pairs.Pairwise fun a b => a.1.compare b.1 = .lt

/-- In a list in the strict order of names, no name stands twice. -/
theorem eq_of_compare_eq {α : Type} {xs : List (Path × α)}
    (h : xs.Pairwise fun a b => a.1.compare b.1 = .lt) {a b : Path × α} (ha : a ∈ xs) (hb : b ∈ xs)
    (heq : a.1.compare b.1 = .eq) : a = b := by
  have hne : xs.Pairwise fun a b => a.1.compare b.1 ≠ .eq := by
    refine h.imp fun hlt heq => ?_
    rw [hlt] at heq
    cases heq
  have hsymm : Std.Symm fun a b : Path × α => a.1.compare b.1 ≠ .eq :=
    ⟨fun _ _ hab hba => hab (OrientedCmp.eq_symm hba)⟩
  by_contra hab
  exact hne.forall ha hb hab heq

theorem Pairs.Ascending.change {pairs : Pairs} (h : pairs.Ascending) (name : Path)
    (f : PairPaths → PairPaths) : (pairs.change name f).Ascending := by
  fun_induction Pairs.change name f pairs with
  | case1 => exact List.pairwise_singleton _ _
  | case2 other paths rest hlt =>
      refine List.pairwise_cons.mpr ⟨fun pair hpair => ?_, h⟩
      rcases List.mem_cons.mp hpair with rfl | hrest
      · exact hlt
      · exact TransCmp.lt_trans hlt (List.rel_of_pairwise_cons h hrest)
  | case3 other paths rest heq =>
      exact List.pairwise_cons.mpr ⟨fun pair hpair => List.rel_of_pairwise_cons h hpair, h.of_cons⟩
  | case4 other paths rest hgt ih =>
      refine List.pairwise_cons.mpr ⟨fun pair hpair => ?_, ih h.of_cons⟩
      have hother : other.compare name = .lt := OrientedCmp.gt_iff_lt.mp hgt
      rcases Pairs.of_mem_change hpair with hold | ⟨_, _, heq, _⟩
      · exact List.rel_of_pairwise_cons h hold
      · exact TransCmp.lt_of_lt_of_eq hother heq

theorem Pairs.Ascending.nodup_names {pairs : Pairs} (h : pairs.Ascending) : (pairs.map Prod.fst).Nodup := by
  rw [List.Nodup, List.pairwise_map]
  refine h.imp fun {a b} hlt heq => ?_
  have hself : b.1.compare b.1 = .eq := Std.ReflCmp.compare_self
  rw [heq, hself] at hlt
  cases hlt

namespace PairPaths

def source? (paths : PairPaths) : Stage → Option Path
  | .vertex => paths.vertex
  | .fragment => paths.fragment

/-- The pair holds a path for at least one stage. -/
def HasSource (paths : PairPaths) : Prop := paths.vertex.isSome ∨ paths.fragment.isSome

instance (paths : PairPaths) : Decidable paths.HasSource := by
  unfold HasSource
  infer_instance

/-- Puts a path in the place of its stage. -/
def place (options : Options) (p : Path) (paths : PairPaths) : PairPaths :=
  match stageOf? options p with
  | some .vertex => { paths with vertex := some p }
  | some .fragment => { paths with fragment := some p }
  | none => paths

theorem source?_place (options : Options) (p : Path) (paths : PairPaths) (stage : Stage) :
    (paths.place options p).source? stage =
      if stageOf? options p = some stage then some p else paths.source? stage := by
  unfold place
  split <;> cases stage <;> simp_all [source?]

end PairPaths

theorem Pairs.add_eq (options : Options) (pairs : Pairs) (p : Path) :
    pairs.add options p = pairs.change (p.withExtension []) (PairPaths.place options p) := rfl

/-- The pairs are those of the paths: every name is the name of a path, every path is in the pair of
its name, and a pair holds nothing else. -/
structure Pairs.Holds (options : Options) (ps : List Path) (pairs : Pairs) : Prop where
  ascending : pairs.Ascending
  named : ∀ pair ∈ pairs, ∃ p ∈ ps, p.withExtension [] = pair.1
  placed : ∀ p ∈ ps, ∃ pair ∈ pairs, (p.withExtension []).compare pair.1 = .eq ∧
    ∀ stage, stageOf? options p = some stage → (pair.2.source? stage).isSome
  source : ∀ pair ∈ pairs, ∀ stage p, pair.2.source? stage = some p →
    p ∈ ps ∧ stageOf? options p = some stage ∧ (p.withExtension []).compare pair.1 = .eq

namespace Pairs.Holds

variable {options : Options} {ps : List Path} {pairs : Pairs}

theorem nil (options : Options) : Holds options [] [] where
  ascending := List.Pairwise.nil
  named := nofun
  placed := nofun
  source := nofun

theorem add (h : Holds options ps pairs) (p : Path) :
    Holds options (ps ++ [p]) (pairs.add options p) := by
  rw [Pairs.add_eq]
  refine ⟨h.ascending.change _ _, fun pair hpair => ?_, fun q hq => ?_, fun pair hpair => ?_⟩
  · have hold : ∀ paths, (pair.1, paths) ∈ pairs → ∃ q ∈ ps ++ [p], q.withExtension [] = pair.1 := by
      intro paths hmem
      obtain ⟨q, hq, hname⟩ := h.named _ hmem
      exact ⟨q, List.mem_append_left _ hq, hname⟩
    rcases of_mem_change hpair with hmem | ⟨paths, -, -, hmem | ⟨hname, -⟩⟩
    · exact hold pair.2 hmem
    · exact hold paths hmem
    · exact ⟨p, by simp, hname.symm⟩
  · rcases List.mem_append.mp hq with hq | hq
    · obtain ⟨pair, hpair, heq, hset⟩ := h.placed q hq
      rcases mem_change_of_mem hpair with hmem | hmem
      · exact ⟨pair, hmem, heq, hset⟩
      · refine ⟨_, hmem, heq, fun stage hstage => ?_⟩
        rw [PairPaths.source?_place]
        split
        · rfl
        · exact hset stage hstage
    · rw [List.mem_singleton.mp hq]
      obtain ⟨other, paths, hmem, heq⟩ :=
        exists_mem_change (p.withExtension []) (PairPaths.place options p) pairs
      refine ⟨_, hmem, heq, fun stage hstage => ?_⟩
      rw [PairPaths.source?_place, if_pos hstage]
      rfl
  · have hold : ∀ paths, (pair.1, paths) ∈ pairs → ∀ stage q, paths.source? stage = some q →
        q ∈ ps ++ [p] ∧ stageOf? options q = some stage ∧
          (q.withExtension []).compare pair.1 = .eq := by
      intro paths hmem stage q hq
      obtain ⟨hps, hstage, hname⟩ := h.source _ hmem stage q hq
      exact ⟨List.mem_append_left _ hps, hstage, hname⟩
    intro stage q hq
    rcases of_mem_change hpair with hmem | ⟨paths, hplace, hname, hpaths⟩
    · exact hold pair.2 hmem stage q hq
    · rw [hplace, PairPaths.source?_place] at hq
      split at hq
      · next hstage =>
        cases hq
        exact ⟨by simp, hstage, hname⟩
      · rcases hpaths with hmem | ⟨-, rfl⟩
        · exact hold paths hmem stage q hq
        · cases stage <;> cases hq

theorem foldl (h : Holds options ps pairs) (qs : List Path) :
    Holds options (ps ++ qs) (qs.foldl (Pairs.add options) pairs) := by
  induction qs generalizing ps pairs with
  | nil =>
      rw [List.append_nil]
      exact h
  | cons q qs ih =>
      have hstep := ih (h.add q)
      rwa [List.append_assoc, List.singleton_append] at hstep

/-- A source is in one pair only. -/
theorem eq_of_source (h : Holds options ps pairs) {a b : Path × PairPaths} (ha : a ∈ pairs)
    (hb : b ∈ pairs) {stage : Stage} {p : Path} (hpa : a.2.source? stage = some p)
    (hpb : b.2.source? stage = some p) : a = b := by
  have hkey := (h.source a ha stage p hpa).2.2
  have hkey' := (h.source b hb stage p hpb).2.2
  exact eq_of_compare_eq h.ascending ha hb (TransCmp.eq_trans (OrientedCmp.eq_symm hkey) hkey')

end Pairs.Holds

/-- The paths that are found below the input; there are none when the input cannot be read. -/
def foundPaths (store : Store) (input : Path) (options : Options) : List Path :=
  match store.resolve input with
  | .ok folder => candidates store folder options
  | .error _ => []

/-- A found path is that of a place below the input. -/
theorem exists_place_of_mem_foundPaths {store : Store} {input : Path} {options : Options}
    (hstore : store.WellNamed) {p : Path} (hp : p ∈ foundPaths store input options) :
    ∃ (i dirs : Place) (name : String), store.resolve input = .ok i ∧
      (∀ n ∈ i ++ (dirs ++ [name]), ValidName n) ∧ p = Store.pathOf (i ++ (dirs ++ [name])) := by
  unfold foundPaths at hp
  split at hp
  · next i hi =>
    obtain ⟨l, hl, rfl⟩ := List.mem_map.mp hp
    obtain ⟨hmem, hbelow⟩ := List.mem_filter.mp (List.mem_filter.mp hl).1
    obtain ⟨e, he, rfl⟩ := List.mem_map.mp hmem
    rw [Store.isBelow, Bool.and_eq_true, List.isPrefixOf_iff_prefix, decide_eq_true_eq] at hbelow
    obtain ⟨⟨names, hnames⟩, hlength⟩ := hbelow
    have hne : names ≠ [] := by
      rintro rfl
      rw [← hnames, List.append_nil] at hlength
      exact Nat.lt_irrefl _ hlength
    obtain ⟨dirs, name, rfl⟩ := (List.eq_nil_or_concat' names).resolve_left hne
    exact ⟨i, dirs, name, hi, hnames ▸ hstore e he, by rw [hnames]⟩
  · cases hp

theorem holds_of_findPairs {store : Store} {input : Path} {options : Options} {pairs : Pairs}
    {unreadable : Option FileError} (h : findPairs store input options = .ok (pairs, unreadable)) :
    pairs.Holds options (foundPaths store input options) := by
  unfold findPairs at h
  split at h
  · unfold foundPaths
    cases hfolder : store.resolve input with
    | ok folder =>
        rw [hfolder] at h
        cases h
        exact (Pairs.Holds.nil options).foldl _
    | error e =>
        rw [hfolder] at h
        cases h
        exact Pairs.Holds.nil options
  · cases h

theorem exists_convertNamed_iff {store : Store} {input output : Path} {options : Options}
    {pair : Path × PairPaths} :
    (∃ done, convertNamed store input output options pair = .ok done) ↔ pair.2.HasSource := by
  obtain ⟨name, vertex, fragment⟩ := pair
  cases vertex <;> cases fragment <;> simp [convertNamed, PairPaths.HasSource]

/-- A run over pairs is the treatment of the first one and a run over the others. -/
theorem convertAll_cons_eq_ok_iff {store final : Store} {input output : Path} {options : Options}
    {pair : Path × PairPaths} {pairs : Pairs} {results : List (Path × PairResult)} :
    convertAll store input output options (pair :: pairs) = .ok (final, results) ↔
      ∃ next result rest, convertNamed store input output options pair = .ok (next, result) ∧
        convertAll next input output options pairs = .ok (final, rest) ∧
          results = (pair.1, result) :: rest := by
  rw [convertAll]
  cases hnamed : convertNamed store input output options pair with
  | error e => simp
  | ok done =>
      obtain ⟨next, result⟩ := done
      cases hrest : convertAll next input output options pairs with
      | error e => simp [Except.map, hrest]
      | ok done =>
          obtain ⟨final', rest⟩ := done
          simp [Except.map, hrest, eq_comm]

theorem exists_convertAll_iff (store : Store) (input output : Path) (options : Options)
    (pairs : Pairs) :
    (∃ done, convertAll store input output options pairs = .ok done) ↔
      ∀ pair ∈ pairs, pair.2.HasSource := by
  induction pairs generalizing store with
  | nil => exact ⟨nofun, fun _ => ⟨_, rfl⟩⟩
  | cons pair pairs ih =>
      rw [List.forall_mem_cons]
      constructor
      · rintro ⟨⟨final, results⟩, hdone⟩
        obtain ⟨next, result, rest, hnamed, hrest, -⟩ := convertAll_cons_eq_ok_iff.mp hdone
        exact ⟨exists_convertNamed_iff.mp ⟨_, hnamed⟩, (ih next).mp ⟨_, hrest⟩⟩
      · rintro ⟨hpair, hpairs⟩
        obtain ⟨⟨next, result⟩, hnamed⟩ := exists_convertNamed_iff.mpr hpair
        obtain ⟨⟨final, rest⟩, hrest⟩ := (ih next).mpr hpairs
        exact ⟨_, convertAll_cons_eq_ok_iff.mpr ⟨next, result, rest, hnamed, hrest, rfl⟩⟩

end ShaderUplift.Files
