import Mathlib.Logic.Function.Basic
import ShaderUplift.Conversion
import ShaderUplift.Proofs.Declared
import ShaderUplift.Proofs.Expansion
import ShaderUplift.Proofs.Outcome
import ShaderUplift.Proofs.Source.EntryPosition

/-! A declaration that is not used has no influence. Two runs are compared: one on some sources, and
one on the same sources with a declaration more. The body of the entry point, the tables and the
remarks are the same after every statement, and the second run has seen and reported at most one
declaration more; all that comes after reading uses the body and the tables only. -/

namespace ShaderUplift

open Source

/-- No element of a varying array among the statements has this name. -/
def NoElement (name : String) (ss : List Statement) : Prop :=
  ∀ a ∈ declaredAs .varying ss, ∀ length, a.arrayLength = some length →
    ∀ index < length, name ≠ Body.elementName a.name index

theorem noElement_append {name : String} {ss ss' : List Statement} :
    NoElement name (ss ++ ss') ↔ NoElement name ss ∧ NoElement name ss' := by
  rw [NoElement, declaredAs_append]
  exact List.forall_mem_append

namespace Classification

/-- The body does not use the name of the declaration, and it is reported once it is seen. -/
structure Spares (d : Declaration) (c : Classification) : Prop where
  unused : c.body.references d.name = false
  reported : (d.kind, d.name) ∈ c.seen → ⟨c.stage, d.kind, d.name⟩ ∈ c.diagnostics

namespace Spares

variable {d : Declaration} {c : Classification}

theorem step (h : Spares d c) {s : Statement} (hs : NoElement d.name [s]) :
    Spares d (c.step s) := by
  constructor
  · rcases c.body_step s with heq | ⟨a, length, ha, hlength, heq⟩
    · rw [heq]
      exact h.unused
    · obtain ⟨rfl, hkind, -⟩ := mem_fresh.mp (List.mem_filter.mp ha).1
      have hmem : a ∈ declaredAs .varying [.declare a] :=
        mem_declaredAs.mpr ⟨List.mem_singleton_self _, hkind⟩
      rw [heq, Bool.eq_false_iff]
      intro href
      rcases Body.of_references_expandIndexed href with href | ⟨index, hlt, hname⟩
      · exact absurd href (by simp [h.unused])
      · exact hs a hmem length hlength index hlt hname
  · cases s with
    | define e =>
        obtain ⟨hstage, -, hseen, hdiagnostics, -⟩ := c.define_frame e
        rw [Classification.step, hstage, hseen, hdiagnostics]
        exact h.reported
    | declare e =>
        rw [Classification.step]
        have hother : c.body.references e.name = true → (d.kind, d.name) ≠ (e.kind, e.name) := by
          intro href heq
          rw [← (Prod.mk.inj heq).2, h.unused] at href
          cases href
        rcases c.declare_cases e with
          ⟨heq, -⟩ | ⟨-, ⟨-, heq⟩ | ⟨href, -, heq⟩ | ⟨_, href, -, -, heq⟩⟩
        · rw [heq]
          exact h.reported
        · rw [heq]
          dsimp only
          intro hseen
          rcases List.mem_append.mp hseen with hseen | hseen
          · exact List.mem_append_left _ (h.reported hseen)
          · obtain ⟨hkind, hname⟩ := Prod.mk.inj (List.mem_singleton.mp hseen)
            rw [hkind, hname]
            exact List.mem_append_right _ List.mem_cons_self
        all_goals
          rw [heq]
          intro hseen
          refine h.reported ((List.mem_append.mp hseen).resolve_right fun hnew => ?_)
          exact hother href (List.mem_singleton.mp hnew)

theorem run (h : Spares d c) {ss : List Statement} (hss : NoElement d.name ss) :
    Spares d (ss.foldl Classification.step c) := by
  induction ss generalizing c with
  | nil => exact h
  | cons s ss ih =>
      obtain ⟨hs, hss⟩ := noElement_append.mp (show NoElement d.name ([s] ++ ss) from hss)
      exact ih (h.step hs) hss

end Spares

theorem stage_foldl (stage : Stage) (body : Body) (notices : List Notice) (ss : List Statement) :
    (ss.foldl step (.start stage body notices)).stage = stage := by
  refine run_induction (P := fun _ c => c.stage = stage) rfl (fun _ c s hc => ?_) ss
  rw [← hc]
  cases s with
  | define d => exact (c.define_frame d).1
  | declare d =>
      rcases c.declare_cases d with ⟨heq, -⟩ | ⟨-, ⟨-, heq⟩ | ⟨-, -, heq⟩ | ⟨_, -, -, -, heq⟩⟩ <;>
        rw [step, heq]

/-! ### Two runs

The run with the declaration more is the run without it, except for what it has seen and reported. No
statement looks at the reports, and of what is seen only the declaration itself matters. -/

theorem retain_with (c : Classification) (d : Declaration) (seen : List (DeclarationKind × String))
    (gs : List Diagnostic) :
    ({ c with seen := seen, diagnostics := gs } : Classification).retain d =
      { c.retain d with seen := seen, diagnostics := gs } := by
  unfold retain
  split <;> rfl

theorem define_with (c : Classification) (d : Define) (seen : List (DeclarationKind × String))
    (gs : List Diagnostic) :
    ({ c with seen := seen, diagnostics := gs } : Classification).define d =
      { c.define d with seen := seen, diagnostics := gs } := by
  unfold define
  split
  · rfl
  · split
    · rfl
    · split <;> rfl

theorem stage_retain (c : Classification) (d : Declaration) : (c.retain d).stage = c.stage := by
  unfold retain
  split <;> rfl

theorem declare_of_seen {c : Classification} {d : Declaration} (h : (d.kind, d.name) ∈ c.seen) :
    c.declare d = c :=
  if_pos (by simpa using h)

theorem declare_of_unused {c : Classification} {d : Declaration} (hnew : (d.kind, d.name) ∉ c.seen)
    (h : c.body.references d.name = false) :
    c.declare d = { c with
      seen := c.seen ++ [(d.kind, d.name)]
      diagnostics := c.diagnostics ++ [⟨c.stage, d.kind, d.name⟩] } := by
  rw [declare, if_neg (by simpa using hnew)]
  dsimp only
  rw [if_neg (by simp [h])]

theorem declare_of_used {c : Classification} {d : Declaration} (hnew : (d.kind, d.name) ∉ c.seen)
    (h : c.body.references d.name = true) :
    c.declare d = { c.retain d with
      seen := c.seen ++ [(d.kind, d.name)]
      diagnostics := c.diagnostics } := by
  rw [declare, if_neg (by simpa using hnew)]
  dsimp only
  rw [if_pos h]
  exact retain_with c d (c.seen ++ [(d.kind, d.name)]) c.diagnostics

/-- The second run has also seen and reported the declaration, and is the same otherwise. -/
structure Twin (d : Declaration) (c c' : Classification) : Prop where
  frame : c' = { c with seen := c'.seen, diagnostics := c'.diagnostics }
  seen : ∀ key, key ∈ c'.seen ↔ key ∈ c.seen ∨ key = (d.kind, d.name)
  diagnostics : ∀ g, g ∈ c'.diagnostics ↔ g ∈ c.diagnostics ∨ g = ⟨c.stage, d.kind, d.name⟩

namespace Twin

variable {d : Declaration} {c c' : Classification}

theorem start (h : Spares d c) : Twin d c (c.declare d) := by
  by_cases hseen : (d.kind, d.name) ∈ c.seen
  · rw [declare_of_seen hseen]
    refine ⟨rfl, fun key => ⟨Or.inl, ?_⟩, fun g => ⟨Or.inl, ?_⟩⟩
    · rintro (hkey | rfl)
      · exact hkey
      · exact hseen
    · rintro (hg | rfl)
      · exact hg
      · exact h.reported hseen
  · rw [declare_of_unused hseen h.unused]
    exact ⟨rfl, fun key => by simp, fun g => by simp⟩

theorem declare (h : Twin d c c') (hunused : c.body.references d.name = false) (e : Declaration) :
    Twin d (c.declare e) (c'.declare e) := by
  have hstage : c'.stage = c.stage := by rw [h.frame]
  have hbody : c'.body = c.body := by rw [h.frame]
  have hother := h.seen (e.kind, e.name)
  by_cases hold : (e.kind, e.name) ∈ c.seen
  · rw [declare_of_seen hold, declare_of_seen (hother.mpr (Or.inl hold))]
    exact h
  by_cases hkey : (e.kind, e.name) = (d.kind, d.name)
  · obtain ⟨hkind, hname⟩ := Prod.mk.inj hkey
    rw [declare_of_unused hold (hname ▸ hunused), declare_of_seen (hother.mpr (Or.inr hkey))]
    refine ⟨h.frame, fun key => ?_, fun g => ?_⟩
    · rw [h.seen, List.mem_append, List.mem_singleton, hkey, or_assoc, or_self]
    · rw [h.diagnostics, List.mem_append, List.mem_singleton, hkind, hname, or_assoc, or_self]
  have hnew : (e.kind, e.name) ∉ c'.seen := fun hmem => (hother.mp hmem).elim hold hkey
  cases href : c.body.references e.name with
  | false =>
      rw [declare_of_unused hold href, declare_of_unused hnew (hbody ▸ href), hstage]
      refine ⟨by rw [h.frame], fun key => ?_, fun g => ?_⟩
      · rw [List.mem_append, List.mem_append, h.seen, or_right_comm]
      · rw [List.mem_append, List.mem_append, h.diagnostics, or_right_comm]
  | true =>
      have hretain := retain_with c e c'.seen c'.diagnostics
      rw [← h.frame] at hretain
      rw [declare_of_used hold href, declare_of_used hnew (hbody ▸ href), hretain]
      refine ⟨rfl, fun key => ?_, fun g => ?_⟩
      · rw [List.mem_append, List.mem_append, h.seen, or_right_comm]
      · rw [h.diagnostics, stage_retain]

theorem step (h : Twin d c c') (hunused : c.body.references d.name = false) (s : Statement) :
    Twin d (c.step s) (c'.step s) := by
  cases s with
  | declare e => exact h.declare hunused e
  | define e =>
      obtain ⟨hstage, -, hseen, hdiagnostics, -⟩ := c.define_frame e
      have hdefine := define_with c e c'.seen c'.diagnostics
      rw [← h.frame] at hdefine
      rw [Classification.step, Classification.step, hdefine]
      refine ⟨rfl, ?_, ?_⟩
      · rw [hseen]
        exact h.seen
      · rw [hdiagnostics, hstage]
        exact h.diagnostics

theorem run (h : Twin d c c') (hspares : Spares d c) {ss : List Statement}
    (hss : NoElement d.name ss) :
    Twin d (ss.foldl Classification.step c) (ss.foldl Classification.step c') := by
  induction ss generalizing c c' with
  | nil => exact h
  | cons s ss ih =>
      obtain ⟨hs, hss⟩ := noElement_append.mp (show NoElement d.name ([s] ++ ss) from hss)
      exact ih (h.step hspares.unused s) (hspares.step hs) hss

end Twin

/-- The runs without and with the declaration between two parts of the statements. -/
theorem twin_of_foldl {d : Declaration} {c : Classification} (h : Spares d c)
    {first second : List Statement} (hno : NoElement d.name (first ++ second)) :
    Twin d ((first ++ second).foldl step c) ((first ++ .declare d :: second).foldl step c) := by
  obtain ⟨hfirst, hsecond⟩ := noElement_append.mp hno
  have hspares := h.run hfirst
  rw [List.foldl_append, List.foldl_append, List.foldl_cons]
  exact (Twin.start hspares).run hspares hsecond

end Classification

/-- The same error, or two results that are related. -/
inductive SameResult {α : Type} (R : α → α → Prop) :
    Except ConversionError α → Except ConversionError α → Prop
  | error (e : ConversionError) : SameResult R (.error e) (.error e)
  | ok {a b : α} (h : R a b) : SameResult R (.ok a) (.ok b)

/-- The second list has the reports of the first, and perhaps one more. -/
structure MayGain (g : Diagnostic) (gs gs' : List Diagnostic) : Prop where
  keeps : gs ⊆ gs'
  gains : gs' ⊆ g :: gs

/-- The stages differ in their source and their reports only. -/
def SameUnit (g : Diagnostic) (unit unit' : ShaderUnit) : Prop :=
  unit' = { unit with source := unit'.source, diagnostics := unit'.diagnostics } ∧
    MayGain g unit.diagnostics unit'.diagnostics

/-- The pairs differ in their reports only. -/
def SamePair (g : Diagnostic) (pair pair' : ConvertedPair) : Prop :=
  pair' = { pair with diagnostics := pair'.diagnostics } ∧
    MayGain g pair.diagnostics pair'.diagnostics

namespace MayGain

variable {g : Diagnostic}

theorem refl (gs : List Diagnostic) : MayGain g gs gs :=
  ⟨List.Subset.refl gs, List.subset_cons_self g gs⟩

theorem append {gs gs' hs hs' : List Diagnostic} (h : MayGain g gs gs') (h' : MayGain g hs hs') :
    MayGain g (gs ++ hs) (gs' ++ hs') := by
  refine ⟨List.append_subset.mpr ⟨?_, ?_⟩, List.append_subset.mpr ⟨?_, ?_⟩⟩
  · exact List.Subset.trans h.keeps (List.subset_append_left _ _)
  · exact List.Subset.trans h'.keeps (List.subset_append_right _ _)
  · exact List.Subset.trans h.gains (List.cons_subset_cons g (List.subset_append_left _ _))
  · exact List.Subset.trans h'.gains (List.cons_subset_cons g (List.subset_append_right _ _))

end MayGain

theorem Classification.Twin.exists_mayGain {d : Declaration} {c c' : Classification}
    (h : Twin d c c') :
    ∃ seen gs, MayGain ⟨c.stage, d.kind, d.name⟩ c.diagnostics gs ∧
      c' = { c with seen := seen, diagnostics := gs } := by
  refine ⟨_, _, ⟨fun g hg => (h.diagnostics g).mpr (Or.inl hg), fun g hg => ?_⟩, h.frame⟩
  exact List.mem_cons.mpr ((h.diagnostics g).mp hg).symm

/-- What is converted does not depend on the sources and the reports of the stages. -/
theorem convertUnits_with (vertex fragment : ShaderUnit) (options : Options)
    (source source' : String) (gs gs' : List Diagnostic) :
    convertUnits { vertex with source := source, diagnostics := gs }
        { fragment with source := source', diagnostics := gs' } options =
      ((convertUnits vertex fragment options).1.map fun pair =>
          { pair with diagnostics := gs ++ gs' },
        (convertUnits vertex fragment options).2) := by
  have hstage : ∀ planner (unit : ShaderUnit) interface source gs,
      convertStage options.version planner { unit with source := source, diagnostics := gs }
        interface = convertStage options.version planner unit interface := fun _ _ _ _ _ => rfl
  simp only [convertUnits, hstage]
  cases Planner.new vertex.symbols fragment.symbols options.pushConstantLimit ⟨0, 0⟩ with
  | error e => rfl
  | ok start =>
      dsimp only
      split
      · rfl
      · split
        · rfl
        · split <;> rfl

theorem convertUnits_same {g : Diagnostic} {vertex vertex' fragment fragment' : ShaderUnit}
    (hvertex : SameUnit g vertex vertex') (hfragment : SameUnit g fragment fragment')
    (options : Options) :
    SameResult (SamePair g) (convertUnits vertex fragment options).1
        (convertUnits vertex' fragment' options).1 ∧
      (convertUnits vertex' fragment' options).2 = (convertUnits vertex fragment options).2 := by
  have hself := convertUnits_with vertex fragment options vertex.source fragment.source
    vertex.diagnostics fragment.diagnostics
  rw [hvertex.1, hfragment.1, convertUnits_with vertex fragment options vertex'.source]
  refine ⟨?_, rfl⟩
  cases hresult : (convertUnits vertex fragment options).1 with
  | error e => exact .error e
  | ok pair =>
      have hpair : pair.diagnostics = vertex.diagnostics ++ fragment.diagnostics := by
        have hok := congrArg Prod.fst hself
        dsimp only at hok
        rw [hresult] at hok
        exact congrArg ConvertedPair.diagnostics (Except.ok.inj hok)
      refine .ok ⟨rfl, ?_⟩
      rw [hpair]
      exact hvertex.2.append hfragment.2

/-- The source with the line between its two parts. -/
def DeclarationLine.insert (line : DeclarationLine) (before after : String) : String :=
  before ++ (line.text ++ "\n" ++ after)

/-- The line may stand between the two parts of a source, before its entry point and not inside a
statement, and the stage does not use what it declares. -/
structure UnusedLine (before after : String) (line : DeclarationLine) : Prop where
  line_start : StartsLine before.toList
  before_entry : ∀ front, entryFront? (normalize (before ++ after)).toList = some front →
    (normalize before).toList.length ≤ front.length
  between : endsBetween 0 (words (normalize before)) = true
  unused : ∀ text, entryBody? (normalize (before ++ after)) = some text →
    (Body.parse text).1.references line.name = false
  no_element : NoElement line.name (scanned (before ++ after))

namespace UnusedLine

variable {before after : String} {line : DeclarationLine}

theorem exists_added (h : UnusedLine before after line) :
    StartsLine (normalize before).toList ∧ ∃ added tail, LeftBy line added ∧
      (normalize (before ++ after)).toList = (normalize before).toList ++ tail ∧
      (normalize (line.insert before after)).toList =
        (normalize before).toList ++ (added ++ tail) := by
  have hplain : ∀ c ∈ line.text.toList, c ≠ '/' ∧ c ≠ '*' ∧ c ≠ '\t' ∧ c ≠ '\n' := fun c hc =>
    ⟨line.ne_of_mem_text hc (by decide), line.ne_of_mem_text hc (by decide),
      line.ne_of_mem_text hc (by decide), line.ne_of_mem_text hc (by decide)⟩
  obtain ⟨hstart, tail, hold, hnew⟩ := normalize_insert after h.line_start hplain
  refine ⟨hstart, ?_⟩
  rcases hnew with hnew | hnew
  · refine ⟨_, tail, Or.inr rfl, hold, ?_⟩
    rw [DeclarationLine.insert, hnew, List.append_assoc, List.singleton_append]
  · exact ⟨_, tail, Or.inl rfl, hold, hnew⟩

theorem entryBody?_insert (h : UnusedLine before after line) :
    entryBody? (normalize (line.insert before after)) =
      entryBody? (normalize (before ++ after)) := by
  obtain ⟨hstart, added, tail, hadded, hold, hnew⟩ := h.exists_added
  have hfront := h.before_entry
  rw [hold] at hfront
  rw [entryBody?, entryBody?, hold, hnew, findBody_insert hadded hstart hfront]

/-- The statements are the same, or there is the declaration between two parts of them. -/
theorem statements_insert (h : UnusedLine before after line) :
    ∃ first second,
      statements (words (normalize (before ++ after))) = andThen first second ∧
      (statements (words (normalize (line.insert before after))) = andThen first second ∨
        statements (words (normalize (line.insert before after))) =
          andThen first (.declare line.declaration :: second.1, second.2)) := by
  obtain ⟨hstart, added, tail, hadded, hold, hnew⟩ := h.exists_added
  have hbetween : endsBetween 0 (words (String.ofList (normalize before).toList)) = true := by
    rw [String.ofList_toList]
    exact h.between
  obtain ⟨first, second, hsame, hempty, hline⟩ :=
    ShaderUplift.statements_insert tail hstart hbetween line
  have hofList : ∀ {s : String} {cs : List Char}, s.toList = cs → s = String.ofList cs := by
    rintro s _ rfl
    exact String.ofList_toList.symm
  refine ⟨first, second, by rw [hofList hold, hsame], ?_⟩
  rw [hofList hnew]
  rcases hadded with rfl | rfl
  · exact Or.inl hempty
  · rw [List.append_assoc]
    exact Or.inr hline

end UnusedLine

/-- After all statements the two runs differ in what is seen and reported only. -/
theorem UnusedLine.foldl_insert {before after text : String} {line : DeclarationLine}
    (h : UnusedLine before after line)
    (htext : entryBody? (normalize (before ++ after)) = some text) (stage : Stage) :
    (statements (words (normalize (line.insert before after)))).2 =
        (statements (words (normalize (before ++ after)))).2 ∧
      ∀ c, c = (scanned (before ++ after)).foldl Classification.step
          (.start stage (Body.parse text).1 (Body.parse text).2) →
        ∃ seen gs, MayGain ⟨stage, line.kind, line.name⟩ c.diagnostics gs ∧
          (scanned (line.insert before after)).foldl Classification.step
            (.start stage (Body.parse text).1 (Body.parse text).2) =
              { c with seen := seen, diagnostics := gs } := by
  obtain ⟨⟨ss, error⟩, second, hold, hnew⟩ := h.statements_insert
  have hno := h.no_element
  simp only [scanned, hold] at hno ⊢
  rcases hnew with hnew | hnew
  · rw [hnew]
    refine ⟨rfl, ?_⟩
    rintro c rfl
    exact ⟨_, _, .refl _, rfl⟩
  rw [hnew]
  cases error with
  | some e =>
      refine ⟨rfl, ?_⟩
      rintro c rfl
      exact ⟨_, _, .refl _, rfl⟩
  | none =>
      refine ⟨rfl, ?_⟩
      rintro c rfl
      have hspares : Classification.Spares line.declaration
          (.start stage (Body.parse text).1 (Body.parse text).2) := ⟨h.unused text htext, nofun⟩
      obtain ⟨seen, gs, hgain, hrun⟩ :=
        (Classification.twin_of_foldl hspares hno).exists_mayGain
      rw [Classification.stage_foldl] at hgain
      exact ⟨seen, gs, hgain, hrun⟩

/-- A stage with an entry point, as it is read. -/
theorem ShaderUnit.parse_of_entryBody? {source text : String}
    (h : entryBody? (normalize source) = some text) (stage : Stage) :
    ShaderUnit.parse source stage =
      let c := (scanned source).foldl Classification.step
        (.start stage (Body.parse text).1 (Body.parse text).2)
      (match (statements (words (normalize source))).2 with
        | some e => .error e
        | none => .ok ⟨stage, normalize source, c.body, c.symbols, c.diagnostics⟩, c.notices) := by
  unfold ShaderUnit.parse
  dsimp only
  rw [entryBody_eq_ok_iff.mpr h]
  dsimp only
  rw [scanned]
  cases (statements (words (normalize source))).2 <;> rfl

theorem ShaderUnit.parse_of_none {source : String} (h : entryBody? (normalize source) = none)
    (stage : Stage) : ShaderUnit.parse source stage = (.error (.entryPointMissing stage), []) := by
  unfold ShaderUnit.parse
  dsimp only
  rw [entryBody_of_none h]

/-- A stage is read with the line as it is without it, up to one report. -/
theorem ShaderUnit.parse_insert {before after : String} {line : DeclarationLine}
    (h : UnusedLine before after line) (stage : Stage) :
    SameResult (SameUnit ⟨stage, line.kind, line.name⟩)
        (ShaderUnit.parse (before ++ after) stage).1
        (ShaderUnit.parse (line.insert before after) stage).1 ∧
      (ShaderUnit.parse (line.insert before after) stage).2 =
        (ShaderUnit.parse (before ++ after) stage).2 := by
  have hbody := h.entryBody?_insert
  cases htext : entryBody? (normalize (before ++ after)) with
  | none =>
      rw [ShaderUnit.parse_of_none htext, ShaderUnit.parse_of_none (hbody.trans htext)]
      exact ⟨.error _, rfl⟩
  | some text =>
      obtain ⟨herror, hruns⟩ := h.foldl_insert htext stage
      obtain ⟨seen, gs, hgain, hrun⟩ := hruns _ rfl
      rw [ShaderUnit.parse_of_entryBody? htext,
        ShaderUnit.parse_of_entryBody? (hbody.trans htext)]
      dsimp only
      rw [hrun, herror]
      refine ⟨?_, rfl⟩
      cases (statements (words (normalize (before ++ after)))).2 with
      | some e => exact .error e
      | none => exact .ok ⟨rfl, hgain⟩

theorem SameUnit.refl (g : Diagnostic) (unit : ShaderUnit) : SameUnit g unit unit :=
  ⟨rfl, .refl _⟩

/-- Pairs whose stages are read alike are converted alike. -/
theorem convertPair_same {g : Diagnostic} {sources sources' : Stage → String}
    (h : ∀ stage, SameResult (SameUnit g) (ShaderUnit.parse (sources stage) stage).1
        (ShaderUnit.parse (sources' stage) stage).1 ∧
      (ShaderUnit.parse (sources' stage) stage).2 = (ShaderUnit.parse (sources stage) stage).2)
    (options : Options) :
    SameResult (SamePair g) (convertPair (sources .vertex) (sources .fragment) options).1
        (convertPair (sources' .vertex) (sources' .fragment) options).1 ∧
      (convertPair (sources' .vertex) (sources' .fragment) options).2 =
        (convertPair (sources .vertex) (sources .fragment) options).2 := by
  obtain ⟨hvertex, hfirst⟩ := h .vertex
  obtain ⟨hfragment, hsecond⟩ := h .fragment
  unfold convertPair
  generalize ShaderUnit.parse (sources .vertex) .vertex = vertex at hvertex hfirst ⊢
  generalize ShaderUnit.parse (sources' .vertex) .vertex = vertex' at hvertex hfirst ⊢
  generalize ShaderUnit.parse (sources .fragment) .fragment = fragment at hfragment hsecond ⊢
  generalize ShaderUnit.parse (sources' .fragment) .fragment = fragment' at hfragment hsecond ⊢
  obtain ⟨vertex, first⟩ := vertex
  obtain ⟨vertex', first'⟩ := vertex'
  obtain ⟨fragment, second⟩ := fragment
  obtain ⟨fragment', second'⟩ := fragment'
  dsimp only at hvertex hfirst hfragment hsecond
  subst hfirst hsecond
  cases hvertex with
  | error e => exact ⟨.error e, rfl⟩
  | ok hvertex =>
      cases hfragment with
      | error e => exact ⟨.error e, rfl⟩
      | ok hfragment =>
          obtain ⟨hresult, hthird⟩ := convertUnits_same hvertex hfragment options
          exact ⟨hresult, congrArg (first' ++ second' ++ ·) hthird⟩

/-- A line that declares what its stage does not use can be put in before the entry point without
any influence: the pair is refused with the same error, or it is converted to the same texts,
interfaces and layouts with the same strategy and size, and only the declaration may be reported
more. -/
theorem convertPair_unused_declaration {sources : Stage → String} {stage : Stage}
    {before after : String} (hsource : sources stage = before ++ after) {line : DeclarationLine}
    (h : UnusedLine before after line) (options : Options) {sources' : Stage → String}
    (hsources' : sources' = Function.update sources stage (line.insert before after)) :
    SameResult (SamePair ⟨stage, line.kind, line.name⟩)
        (convertPair (sources .vertex) (sources .fragment) options).1
        (convertPair (sources' .vertex) (sources' .fragment) options).1 ∧
      (convertPair (sources' .vertex) (sources' .fragment) options).2 =
        (convertPair (sources .vertex) (sources .fragment) options).2 := by
  refine convertPair_same (fun other => ?_) options
  subst hsources'
  by_cases hstage : other = stage
  · subst hstage
    rw [Function.update_self, hsource]
    exact ShaderUnit.parse_insert h other
  · rw [Function.update_of_ne hstage]
    refine ⟨?_, rfl⟩
    cases (ShaderUnit.parse (sources other) other).1 with
    | error e => exact .error e
    | ok unit => exact .ok (.refl _ unit)

def plainBefore : String := "uniform vec4 t;\n"

def plainAfter : String := "void main()\x7bt;\x7d"

def plainSources : Stage → String
  | .vertex => plainBefore ++ plainAfter
  | .fragment => "void main()\x7b\x7d"

def unusedLine : DeclarationLine where
  storage := .uniform
  precision := some "highp"
  type := "mat3"
  name := "n"
  precision_mem := by decide
  type_word := by decide
  type_not_mem := by decide
  name_word := by decide

theorem unusedLine_plain : UnusedLine plainBefore plainAfter unusedLine := by
  have hfront : (entryFront? (normalize (plainBefore ++ plainAfter)).toList).all (fun front =>
      (normalize plainBefore).toList.length ≤ front.length) = true := by
    decide +kernel
  have hunused : (entryBody? (normalize (plainBefore ++ plainAfter))).all (fun text =>
      !(Body.parse text).1.references unusedLine.name) = true := by
    decide +kernel
  have hplain : declaredAs .varying (scanned (plainBefore ++ plainAfter)) = [] := by
    decide +kernel
  refine ⟨by decide, ?_, by decide +kernel, ?_, ?_⟩
  · intro front h
    simpa [h] using hfront
  · intro text h
    simpa [h] using hunused
  · rw [NoElement, hplain]
    exact nofun

theorem plain_unused_declaration :
    ∃ pair pair',
      (convertPair (plainSources .vertex) (plainSources .fragment) {}).1 = .ok pair ∧
      (convertPair (unusedLine.insert plainBefore plainAfter) (plainSources .fragment) {}).1 =
        .ok pair' ∧
      SamePair ⟨.vertex, .uniform, "n"⟩ pair pair' := by
  have hok : ((convertPair (plainSources .vertex) (plainSources .fragment) {}).1.toOption.any
      fun _ => true) = true := by
    decide +kernel
  obtain ⟨pair, hpair, -⟩ := exists_ok_of_any hok
  have hsource : plainSources .vertex = plainBefore ++ plainAfter := rfl
  have hsame := (convertPair_unused_declaration hsource unusedLine_plain {} rfl).1
  rw [hpair, Function.update_self, Function.update_of_ne (by decide)] at hsame
  generalize (convertPair (unusedLine.insert _ _) _ _).1 = result at hsame
  cases hsame with
  | ok h => exact ⟨pair, _, hpair, rfl, h⟩

end ShaderUplift
