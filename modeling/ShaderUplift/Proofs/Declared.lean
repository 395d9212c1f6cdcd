import Mathlib.Data.List.Induction
import ShaderUplift.Proofs.Classification

/-! Declarations of one kind among the statements of a source, and what is known about them after
some of the statements. Every statement brings at most one declaration whose kind and name are new;
`fresh` lists it, and a step adds it to what is seen and, when the body does not use it, to the
reports. A declaration is kept when it is the first of its kind and name and is not reported. -/

namespace ShaderUplift

open Source

/-- The declarations of one kind, in the order of the statements. -/
def declaredAs (kind : DeclarationKind) (ss : List Statement) : List Declaration :=
  ss.filterMap fun
    | .declare d => if d.kind = kind then some d else none
    | .define _ => none

/-- The names of the declarations of one kind, with repetitions. -/
def namesAs (kind : DeclarationKind) (ss : List Statement) : List String :=
  (declaredAs kind ss).map Declaration.name

/-- The names that are reported for one kind. -/
def reportedAs (kind : DeclarationKind) (gs : List Diagnostic) : List String :=
  (gs.filter fun g => g.kind = kind).map Diagnostic.name

/-- The declaration is the first of its kind and name among the statements, and it is not
reported. -/
def Kept (kind : DeclarationKind) (ss : List Statement) (gs : List Diagnostic) (d : Declaration) :
    Prop :=
  (declaredAs kind ss).find? (fun e => e.name = d.name) = some d ∧ d.name ∉ reportedAs kind gs

/-- A varying array of `length` elements that is kept among the statements. -/
def KeptArray (ss : List Statement) (gs : List Diagnostic) (a : Declaration) (length : Nat) :
    Prop :=
  Kept .varying ss gs a ∧ a.arrayLength = some length

/-- The statements of a source. -/
def scanned (source : String) : List Statement := (statements (words (normalize source))).1

theorem declaredAs_append (kind : DeclarationKind) (ss ss' : List Statement) :
    declaredAs kind (ss ++ ss') = declaredAs kind ss ++ declaredAs kind ss' :=
  List.filterMap_append

theorem namesAs_append (kind : DeclarationKind) (ss ss' : List Statement) :
    namesAs kind (ss ++ ss') = namesAs kind ss ++ namesAs kind ss' := by
  rw [namesAs, declaredAs_append, List.map_append]
  rfl

theorem mem_declaredAs {kind : DeclarationKind} {ss : List Statement} {d : Declaration} :
    d ∈ declaredAs kind ss ↔ .declare d ∈ ss ∧ d.kind = kind := by
  rw [declaredAs, List.mem_filterMap]
  constructor
  · rintro ⟨s, hs, heq⟩
    cases s with
    | define e => cases heq
    | declare e =>
        dsimp only at heq
        split at heq
        · next hkind =>
          cases heq
          exact ⟨hs, hkind⟩
        · cases heq
  · rintro ⟨hs, hkind⟩
    exact ⟨.declare d, hs, if_pos hkind⟩

theorem find?_eq_none_of_not_mem {kind : DeclarationKind} {ss : List Statement} {name : String}
    (h : name ∉ namesAs kind ss) : (declaredAs kind ss).find? (fun e => e.name = name) = none := by
  rw [List.find?_eq_none]
  intro e he heq
  exact h (List.mem_map.mpr ⟨e, he, of_decide_eq_true heq⟩)

theorem exists_find?_of_mem {kind : DeclarationKind} {ss : List Statement} {name : String}
    (h : name ∈ namesAs kind ss) :
    ∃ d, (declaredAs kind ss).find? (fun e => e.name = name) = some d ∧ d.name = name := by
  obtain ⟨e, he, hname⟩ := List.mem_map.mp h
  have hsome : ((declaredAs kind ss).find? fun e => e.name = name).isSome = true :=
    List.find?_isSome.mpr ⟨e, he, by simpa using hname⟩
  obtain ⟨d, hd⟩ := Option.isSome_iff_exists.mp hsome
  exact ⟨d, hd, by simpa using List.find?_some hd⟩

namespace Kept

variable {kind : DeclarationKind} {ss : List Statement} {gs : List Diagnostic} {d : Declaration}

theorem mem (h : Kept kind ss gs d) : d ∈ declaredAs kind ss := List.mem_of_find?_eq_some h.1

theorem name_mem (h : Kept kind ss gs d) : d.name ∈ namesAs kind ss := List.mem_map_of_mem h.mem

end Kept

namespace Classification

/-- The declaration of this kind that a statement brings, when its name is new. -/
def fresh (c : Classification) (kind : DeclarationKind) (s : Statement) : List Declaration :=
  (declaredAs kind [s]).filter fun d => (kind, d.name) ∉ c.seen

/-- Those of the declarations that the body uses. -/
def used (c : Classification) (ds : List Declaration) : List Declaration :=
  ds.filter fun d => c.body.references d.name

/-- Those of the declarations that the body does not use. -/
def unused (c : Classification) (ds : List Declaration) : List Declaration :=
  ds.filter fun d => !c.body.references d.name

theorem mem_fresh {c : Classification} {kind : DeclarationKind} {s : Statement} {d : Declaration} :
    d ∈ c.fresh kind s ↔ s = .declare d ∧ d.kind = kind ∧ (kind, d.name) ∉ c.seen := by
  rw [fresh, List.mem_filter, mem_declaredAs, List.mem_singleton, decide_eq_true_eq, and_assoc,
    eq_comm]

theorem fresh_declare (c : Classification) (d : Declaration) (kind : DeclarationKind) :
    c.fresh kind (.declare d) =
      if d.kind = kind ∧ (kind, d.name) ∉ c.seen then [d] else [] := by
  by_cases hkind : d.kind = kind
  · by_cases hseen : (kind, d.name) ∈ c.seen <;> simp [fresh, declaredAs, hkind, hseen]
  · simp [fresh, declaredAs, hkind]

theorem fresh_of_seen {c : Classification} {d : Declaration} (h : (d.kind, d.name) ∈ c.seen)
    (kind : DeclarationKind) : c.fresh kind (.declare d) = [] := by
  rw [fresh_declare, if_neg]
  rintro ⟨rfl, hnew⟩
  exact hnew h

theorem reportedAs_append (kind : DeclarationKind) (gs gs' : List Diagnostic) :
    reportedAs kind (gs ++ gs') = reportedAs kind gs ++ reportedAs kind gs' := by
  simp [reportedAs]

/-- A step reports the new declaration when the body does not use it. -/
theorem reportedAs_step (c : Classification) (kind : DeclarationKind) (s : Statement) :
    reportedAs kind (c.step s).diagnostics =
      reportedAs kind c.diagnostics ++ (c.unused (c.fresh kind s)).map Declaration.name := by
  cases s with
  | define d =>
      rw [step, (c.define_frame d).2.2.2.1]
      simp [fresh, declaredAs, unused]
  | declare d =>
      rw [step, unused]
      rcases c.declare_cases d with
        ⟨heq, hseen⟩ | ⟨hnew, ⟨href, heq⟩ | ⟨href, -, heq⟩ | ⟨_, href, -, -, heq⟩⟩
      · rw [heq, fresh_of_seen hseen]
        simp
      · rw [heq, fresh_declare]
        dsimp only
        rw [reportedAs_append]
        refine congrArg _ ?_
        by_cases hkind : d.kind = kind
        · subst hkind
          simp [reportedAs, hnew, href]
        · simp [reportedAs, hkind]
      · rw [heq, fresh_declare]
        split <;> simp [href]
      · rw [heq, fresh_declare]
        split <;> simp [href]

theorem mem_seen_step {c : Classification} {kind : DeclarationKind} {s : Statement}
    {name : String} :
    (kind, name) ∈ (c.step s).seen ↔
      (kind, name) ∈ c.seen ∨ name ∈ (c.fresh kind s).map Declaration.name := by
  cases s with
  | define d =>
      rw [step, (c.define_frame d).2.2.1]
      simp [fresh, declaredAs]
  | declare d =>
      have hstep : (d.kind, d.name) ∈ c.seen ∧ c.declare d = c ∨
          (d.kind, d.name) ∉ c.seen ∧ (c.declare d).seen = c.seen ++ [(d.kind, d.name)] := by
        rcases c.declare_cases d with
          ⟨heq, hseen⟩ | ⟨hnew, ⟨-, heq⟩ | ⟨-, -, heq⟩ | ⟨_, -, -, -, heq⟩⟩
        · exact Or.inl ⟨hseen, heq⟩
        all_goals exact Or.inr ⟨hnew, by rw [heq]⟩
      have hfresh : name ∈ (c.fresh kind (.declare d)).map Declaration.name ↔
          (d.kind, d.name) = (kind, name) ∧ (kind, name) ∉ c.seen := by
        rw [List.mem_map]
        constructor
        · rintro ⟨e, he, rfl⟩
          obtain ⟨heq, rfl, hnew⟩ := mem_fresh.mp he
          cases heq
          exact ⟨rfl, hnew⟩
        · rintro ⟨heq, hnew⟩
          cases heq
          exact ⟨d, mem_fresh.mpr ⟨rfl, rfl, hnew⟩, rfl⟩
      rw [step, hfresh]
      rcases hstep with ⟨hseen, heq⟩ | ⟨hnew, heq⟩
      · rw [heq]
        refine ⟨Or.inl, fun h => h.elim id ?_⟩
        rintro ⟨heq, -⟩
        exact heq ▸ hseen
      · rw [heq, List.mem_append, List.mem_singleton, eq_comm (a := (kind, name))]
        refine or_congr_right ⟨fun h => ⟨h, h ▸ hnew⟩, And.left⟩

/-- A step replaces the accesses to a varying array that it keeps, and nothing else. -/
theorem body_step (c : Classification) (s : Statement) :
    (c.step s).body = c.body ∨
      ∃ a length, a ∈ c.used (c.fresh .varying s) ∧ a.arrayLength = some length ∧
        (c.step s).body = (c.body.expandIndexed a.name length).1 := by
  cases s with
  | define d => exact Or.inl (c.define_frame d).2.1
  | declare d =>
      rw [step]
      rcases c.declare_cases d with
        ⟨heq, -⟩ | ⟨hnew, ⟨-, heq⟩ | ⟨-, -, heq⟩ | ⟨length, href, hkind, hlength, heq⟩⟩
      · exact Or.inl (by rw [heq])
      · exact Or.inl (by rw [heq])
      · exact Or.inl (by rw [heq])
      · refine Or.inr ⟨d, length, List.mem_filter.mpr ⟨?_, href⟩, hlength, by rw [heq]⟩
        exact mem_fresh.mpr ⟨rfl, hkind, hkind ▸ hnew⟩

/-- What is seen are the names of the statements so far, and only they are reported. -/
structure Tracks (ss : List Statement) (c : Classification) : Prop where
  seen : ∀ kind name, (kind, name) ∈ c.seen ↔ name ∈ namesAs kind ss
  reported : ∀ kind, ∀ name ∈ reportedAs kind c.diagnostics, name ∈ namesAs kind ss

/-- What holds of the start and is kept by each statement after those before it holds of every
list of statements. -/
theorem run_induction {P : List Statement → Classification → Prop} {start : Classification}
    (hstart : P [] start) (hstep : ∀ ss c s, P ss c → P (ss ++ [s]) (c.step s))
    (ss : List Statement) : P ss (ss.foldl step start) := by
  induction ss using List.reverseRecOn with
  | nil => exact hstart
  | append_singleton ss s ih =>
      rw [List.foldl_append]
      exact hstep ss _ s ih

namespace Tracks

variable {ss : List Statement} {c : Classification}

theorem fresh_eq (h : Tracks ss c) (kind : DeclarationKind) (s : Statement) :
    c.fresh kind s = (declaredAs kind [s]).filter fun d => d.name ∉ namesAs kind ss := by
  simp only [fresh, h.seen]

theorem start (stage : Stage) (body : Body) (notices : List Notice) :
    Tracks [] (.start stage body notices) :=
  ⟨fun _ _ => ⟨nofun, nofun⟩, fun _ _ => nofun⟩

theorem step (h : Tracks ss c) (s : Statement) : Tracks (ss ++ [s]) (c.step s) := by
  constructor
  · intro kind name
    rw [mem_seen_step, h.seen, h.fresh_eq, namesAs_append, List.mem_append]
    refine ⟨Or.imp_right fun hname => ?_, fun hname => ?_⟩
    · exact (List.filter_sublist.map _).subset hname
    · by_cases hold : name ∈ namesAs kind ss
      · exact Or.inl hold
      · obtain ⟨d, hd, rfl⟩ := List.mem_map.mp (hname.resolve_left hold)
        exact Or.inr (List.mem_map_of_mem (List.mem_filter.mpr ⟨hd, by simpa using hold⟩))
  · intro kind name hname
    rw [reportedAs_step, List.mem_append] at hname
    rw [namesAs_append, List.mem_append]
    refine hname.imp (h.reported kind name) fun hname => ?_
    exact ((List.filter_sublist.trans List.filter_sublist).map _).subset hname

theorem run (stage : Stage) (body : Body) (notices : List Notice) (ss : List Statement) :
    Tracks ss (ss.foldl Classification.step (.start stage body notices)) :=
  run_induction (Tracks.start stage body notices) (fun _ _ s h => h.step s) ss

/-- The distinct names grow by the new one. -/
theorem eraseDups_step (h : Tracks ss c) (kind : DeclarationKind) (s : Statement) :
    (namesAs kind (ss ++ [s])).eraseDups =
      (namesAs kind ss).eraseDups ++ (c.fresh kind s).map Declaration.name := by
  have hshort : (c.fresh kind s).length ≤ 1 :=
    Nat.le_trans (List.length_filter_le _ _) (List.length_filterMap_le _ _)
  have hremove : (namesAs kind [s]).removeAll (namesAs kind ss) =
      (c.fresh kind s).map Declaration.name := by
    rw [h.fresh_eq, List.removeAll, namesAs.eq_1 kind [s], List.filter_map]
    simp [Function.comp_def]
  rw [namesAs_append, List.eraseDups_append, hremove]
  refine congrArg _ ?_
  match c.fresh kind s, hshort with
  | [], _ => rfl
  | [d], _ => rfl

/-- A step keeps what was kept, and the new declaration when the body uses it. -/
theorem kept_step (h : Tracks ss c) {kind : DeclarationKind} {s : Statement} {d : Declaration} :
    Kept kind (ss ++ [s]) (c.step s).diagnostics d ↔
      Kept kind ss c.diagnostics d ∨ d ∈ c.used (c.fresh kind s) := by
  have hunused : d.name ∈ (c.unused (c.fresh kind s)).map Declaration.name →
      d.name ∉ namesAs kind ss := by
    intro hmem
    obtain ⟨e, he, hname⟩ := List.mem_map.mp hmem
    rw [← hname, ← h.seen]
    exact (mem_fresh.mp (List.mem_filter.mp he).1).2.2
  rw [Kept, Kept, declaredAs_append, List.find?_append, reportedAs_step, List.mem_append]
  by_cases hold : d.name ∈ namesAs kind ss
  · obtain ⟨e, he, -⟩ := exists_find?_of_mem hold
    have hfresh : d ∉ c.used (c.fresh kind s) := fun hd =>
      (mem_fresh.mp (List.mem_filter.mp hd).1).2.2 ((h.seen kind d.name).mpr hold)
    have hreport : d.name ∉ (c.unused (c.fresh kind s)).map Declaration.name :=
      fun hmem => hunused hmem hold
    rw [he, Option.some_or]
    simp only [hfresh, hreport, or_false]
  · have hreported : d.name ∉ reportedAs kind c.diagnostics := fun hr => hold (h.reported _ _ hr)
    rw [find?_eq_none_of_not_mem hold, Option.none_or]
    simp only [reduceCtorEq, false_and, false_or, hreported]
    constructor
    · rintro ⟨hfind, hreport⟩
      have hfresh : d ∈ c.fresh kind s := by
        rw [h.fresh_eq]
        exact List.mem_filter.mpr ⟨List.mem_of_find?_eq_some hfind, by simpa using hold⟩
      refine List.mem_filter.mpr ⟨hfresh, ?_⟩
      by_contra href
      exact hreport (List.mem_map_of_mem (List.mem_filter.mpr ⟨hfresh, by simpa using href⟩))
    · intro hd
      obtain ⟨hfresh, href⟩ := List.mem_filter.mp hd
      obtain ⟨rfl, hkind, -⟩ := mem_fresh.mp hfresh
      refine ⟨by simp [declaredAs, hkind], fun hreport => ?_⟩
      obtain ⟨e, he, -⟩ := List.mem_map.mp hreport
      obtain ⟨he, hunref⟩ := List.mem_filter.mp he
      cases (mem_fresh.mp he).1
      simp [href] at hunref

/-- Later statements report no name that is seen already. -/
theorem mem_reportedAs_later {kind : DeclarationKind} {name : String}
    (hseen : (kind, name) ∈ c.seen) (after : List Statement) :
    name ∈ reportedAs kind (after.foldl Classification.step c).diagnostics ↔
      name ∈ reportedAs kind c.diagnostics := by
  induction after generalizing c with
  | nil => rfl
  | cons s after ih =>
      rw [List.foldl_cons, ih (mem_seen_step.mpr (Or.inl hseen)), reportedAs_step, List.mem_append,
        or_iff_left]
      intro hmem
      obtain ⟨d, hd, rfl⟩ := List.mem_map.mp hmem
      exact (mem_fresh.mp (List.mem_filter.mp hd).1).2.2 hseen

theorem kept_later (h : Tracks ss c) {kind : DeclarationKind} {d : Declaration}
    (after : List Statement) :
    Kept kind ss (after.foldl Classification.step c).diagnostics d ↔
      Kept kind ss c.diagnostics d := by
  refine and_congr_right fun hfirst => ?_
  have hname : d.name ∈ namesAs kind ss := List.mem_map_of_mem (List.mem_of_find?_eq_some hfirst)
  rw [mem_reportedAs_later ((h.seen kind d.name).mpr hname)]

/-- The first declaration of a kind and name is reported exactly when the body, as it is then, does
not use it. -/
theorem mem_reportedAs_iff (h : Tracks ss c) {d : Declaration} (hnew : d.name ∉ namesAs d.kind ss)
    (after : List Statement) :
    d.name ∈ reportedAs d.kind ((.declare d :: after).foldl Classification.step c).diagnostics ↔
      c.body.references d.name = false := by
  have hunseen : (d.kind, d.name) ∉ c.seen := fun hseen => hnew ((h.seen _ _).mp hseen)
  have hfresh : c.fresh d.kind (.declare d) = [d] := by
    rw [fresh_declare, if_pos ⟨rfl, hunseen⟩]
  have hseen : (d.kind, d.name) ∈ (c.step (.declare d)).seen :=
    mem_seen_step.mpr (Or.inr (by simp [hfresh]))
  have hreported : d.name ∉ reportedAs d.kind c.diagnostics := fun hr => hnew (h.reported _ _ hr)
  rw [List.foldl_cons, mem_reportedAs_later hseen, reportedAs_step, List.mem_append, hfresh]
  cases href : c.body.references d.name <;> simp [unused, href, hreported]

end Tracks

end Classification

end ShaderUplift
