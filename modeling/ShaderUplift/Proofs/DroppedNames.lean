import ShaderUplift.Proofs.Accesses
import ShaderUplift.Proofs.Retention
import ShaderUplift.Proofs.VaryingNames

/-! Names that are reported as unused and come up in the body after all. A declaration is reported
when the body, as it is then, does not use its name; later the body gains the names of the elements
of varying arrays, and no others. Every array that brings such a name into the body brings it into
the table of varyings in the same step, and the names of that table are never lost, so the body uses
no reported name that is not a varying. -/

namespace ShaderUplift

open Source

/-- No name that the body of the stage uses is lost to a report. The stage is read from the
classification `start`. -/
structure NoneLost (source : String) (start : Classification) (unit : ShaderUnit) : Prop where
  reported : ∀ g ∈ unit.diagnostics, unit.body.references g.name = true →
    g.name ∈ unit.symbols.varyings.names
  elements : ∀ a length, KeptArray (scanned source) unit.diagnostics a length →
    ∀ index < length, Body.elementName a.name index ∈ unit.symbols.varyings.names
  /-- Each statement leaves the body as it is, or replaces the accesses to an array that is kept; what
  is written for an access is a varying. -/
  written : ∀ before s after, scanned source = before ++ s :: after →
    ∀ c, c = before.foldl Classification.step start → (c.step s).body = c.body ∨
      ∃ a length, s = .declare a ∧ KeptArray (scanned source) unit.diagnostics a length ∧
        Body.Expanded a.name length c.body.tokens (c.step s).body.tokens ∧
        ∀ index group, Body.Replaceable a.name length index group → group <:+: c.body.tokens →
          Body.elementName a.name index ∈ unit.symbols.varyings.names
  new_names : ∀ name, unit.body.references name = true →
    start.body.references name = true ∨ name ∈ unit.symbols.varyings.names

namespace Classification

theorem mem_names_foldl_insertNew {t : Table Declaration} {d : Declaration} {is : List Nat}
    {name : String} :
    name ∈ (is.foldl (fun t i => t.insertNew (element d i)) t).names ↔
      name ∈ t.names ∨ ∃ i ∈ is, name = Body.elementName d.name i := by
  induction is generalizing t with
  | nil => simp
  | cons i is ih =>
      rw [List.foldl_cons, ih, Table.mem_names_insertNew, or_assoc, List.exists_mem_cons_iff]
      rfl

/-- The body uses a reported name only if it is the name of a varying. -/
def Grounded (c : Classification) : Prop :=
  ∀ g ∈ c.diagnostics, c.body.references g.name = true → g.name ∈ c.symbols.varyings.names

theorem grounded_start (stage : Stage) (body : Body) (notices : List Notice) :
    (start stage body notices).Grounded := nofun

theorem Grounded.step {c : Classification} (h : c.Grounded) (s : Statement) :
    (c.step s).Grounded := by
  cases s with
  | define d =>
      obtain ⟨-, hbody, -, hdiagnostics, hsymbols⟩ := c.define_frame d
      rw [Classification.step, Grounded, hbody, hdiagnostics, hsymbols]
      exact h
  | declare d =>
      rw [Classification.step]
      rcases c.declare_cases d with
        ⟨heq, -⟩ | ⟨-, ⟨hunused, heq⟩ | ⟨-, -, heq⟩ | ⟨length, -, -, -, heq⟩⟩
      · rw [heq]
        exact h
      · rw [heq]
        intro g hg href
        rcases List.mem_append.mp hg with hg | hg
        · exact h g hg href
        · cases List.mem_singleton.mp hg
          exact absurd href (by simp [hunused])
      · rw [heq]
        intro g hg href
        have hold := h g hg href
        dsimp only
        rw [varyings_insert]
        split
        · exact Table.mem_names_insert.mpr (Or.inl hold)
        · exact hold
      · rw [heq]
        intro g hg href
        apply mem_names_foldl_insertNew.mpr
        rcases Body.of_references_expandIndexed href with href | ⟨index, hindex, hname⟩
        · exact Or.inl (h g hg href)
        · exact Or.inr ⟨index, List.mem_range.mpr hindex, hname⟩

/-- The elements of a kept array are varyings, if not of that array then of their own. -/
theorem Puts.elementName_mem {ss : List Statement} {c : Classification} (h : Puts ss c)
    {a : Declaration} {length index : Nat} (ha : KeptArray ss c.diagnostics a length)
    (hindex : index < length) : Body.elementName a.name index ∈ c.symbols.varyings.names := by
  have helement : KeptElement ss c.diagnostics (element a index) :=
    ⟨a, length, ha, index, hindex, rfl⟩
  by_cases htaken : ∃ d, KeptSingle ss c.diagnostics d ∧ d.name = Body.elementName a.name index
  · obtain ⟨d, hd, hname⟩ := htaken
    exact hname ▸ List.mem_map_of_mem ((h.entry_iff d).mpr (Or.inl hd))
  · have hfree : ∀ d, KeptSingle ss c.diagnostics d → d.name ≠ (element a index).name :=
      fun d hd hname => htaken ⟨d, hd, hname⟩
    exact List.mem_map_of_mem ((h.entry_iff (element a index)).mpr (Or.inr ⟨helement, hfree⟩))

/-- What is kept stays kept. -/
theorem Tracks.kept_append {ss : List Statement} {c : Classification} (h : Tracks ss c)
    {kind : DeclarationKind} {d : Declaration} (hd : Kept kind ss c.diagnostics d)
    (after : List Statement) :
    Kept kind (ss ++ after) (after.foldl Classification.step c).diagnostics d := by
  induction after generalizing ss c with
  | nil => rwa [List.append_nil]
  | cons s after ih =>
      have hlater := ih (h.step s) (h.kept_step.mpr (Or.inl hd))
      rwa [List.append_assoc, List.singleton_append] at hlater

/-- A statement that changes the body declares an array that is kept, and replaces the accesses to
it. -/
theorem Tracks.expanded_step {ss : List Statement} {c : Classification} (h : Tracks ss c)
    (s : Statement) (after : List Statement) :
    (c.step s).body = c.body ∨ ∃ a length, s = .declare a ∧
      KeptArray (ss ++ s :: after) ((s :: after).foldl Classification.step c).diagnostics a length ∧
      Body.Expanded a.name length c.body.tokens (c.step s).body.tokens := by
  rcases c.body_step s with hsame | ⟨a, length, ha, hlength, heq⟩
  · exact Or.inl hsame
  · obtain ⟨hfresh, -⟩ := List.mem_filter.mp ha
    have hkept := (h.step s).kept_append (h.kept_step.mpr (Or.inr ha)) after
    rw [List.append_assoc, List.singleton_append] at hkept
    refine Or.inr ⟨a, length, (mem_fresh.mp hfresh).1, ⟨hkept, hlength⟩, ?_⟩
    rw [heq]
    exact Body.expanded_expandFrom a.name length c.body.tokens

end Classification

/-- Dropping a declaration never leaves the body without it: a name that the final body of a stage
uses and that is reported, for whatever kind, is a varying of the stage. All elements of a varying
array that is kept are varyings, so every name that is written for an access, and every name that
the body gains, is one. -/
theorem ShaderUnit.parse_none_lost {source : String} {stage : Stage} {unit : ShaderUnit}
    (h : (ShaderUnit.parse source stage).1 = .ok unit) :
    ∃ text, entryBody? (normalize source) = some text ∧
      NoneLost source (.start stage (Body.parse text).1 (Body.parse text).2) unit := by
  obtain ⟨text, htext, -, c, hrun, rfl⟩ := ShaderUnit.parse_eq_ok h
  have hgrounded : c.Grounded := by
    rw [hrun]
    exact Classification.run_induction (P := fun _ c => c.Grounded)
      (Classification.grounded_start _ _ _) (fun _ _ s hc => hc.step s) _
  have hputs : Classification.Puts (scanned source) c := hrun ▸ Classification.Puts.run ..
  have hfollows : Classification.Follows (Body.parse text).1 (scanned source) c :=
    hrun ▸ Classification.Follows.run ..
  have helements : ∀ a length, KeptArray (scanned source) c.diagnostics a length →
      ∀ index < length, Body.elementName a.name index ∈ c.symbols.varyings.names :=
    fun a length ha index hindex => hputs.elementName_mem ha hindex
  refine ⟨text, htext, hgrounded, helements, ?_, ?_⟩
  · rintro before s after hsplit _ rfl
    have htracks := Classification.Tracks.run stage (Body.parse text).1 (Body.parse text).2 before
    rcases htracks.expanded_step s after with hsame | ⟨a, length, hs, ha, hexpanded⟩
    · exact Or.inl hsame
    · rw [← List.foldl_append, ← hsplit, scanned, ← hrun] at ha
      refine Or.inr ⟨a, length, hs, ha, hexpanded, ?_⟩
      rintro index group ⟨lit, -, -, hindex⟩ -
      exact helements a length ha index hindex
  · intro name href
    refine (hfollows.comes name href).imp_right ?_
    rintro ⟨a, length, ha, index, hindex, rfl⟩
    exact helements a length ha index hindex

/-- A stage with a uniform and a sampler that are reported before a varying array with elements of
their names is read. -/
def lateSample : String :=
  "uniform float w_1;\nuniform sampler2D w_0;\nuniform float u;\nvarying vec2 w[3];\n" ++
    "void main()\x7bw[1]+w[ 0 ];\x7d"

theorem lateSample_none_lost :
    ∃ unit, (ShaderUnit.parse lateSample .fragment).1 = .ok unit ∧
      unit.diagnostics.map Diagnostic.name = ["w_1", "w_0", "u"] ∧
      unit.body.references "w_1" = true ∧ unit.body.references "w_0" = true ∧
      unit.symbols.varyings.names = ["w_0", "w_1", "w_2"] ∧
      ∃ text, entryBody? (normalize lateSample) = some text ∧
        NoneLost lateSample (.start .fragment (Body.parse text).1 (Body.parse text).2) unit := by
  have hok : ((ShaderUnit.parse lateSample .fragment).1.toOption.any fun unit =>
      unit.diagnostics.map Diagnostic.name = ["w_1", "w_0", "u"] ∧
      unit.body.references "w_1" = true ∧ unit.body.references "w_0" = true ∧
      unit.symbols.varyings.names = ["w_0", "w_1", "w_2"]) = true := by
    decide +kernel
  obtain ⟨unit, hunit, hfacts⟩ := exists_ok_of_any hok
  obtain ⟨hreports, hfirst, hsecond, hkeys⟩ := of_decide_eq_true hfacts
  exact ⟨unit, hunit, hreports, hfirst, hsecond, hkeys, ShaderUnit.parse_none_lost hunit⟩

end ShaderUplift
