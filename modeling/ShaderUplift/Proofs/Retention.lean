import Mathlib.Data.List.Nodup
import ShaderUplift.Proofs.Declared
import ShaderUplift.Proofs.Expansion
import ShaderUplift.Proofs.Outcome

/-! Which attributes, uniforms and samplers of a stage are retained. The distinct names of each kind
are divided between its table and its reports. The body that decides is the one of the entry point
with the accesses to all varying arrays kept so far replaced, so what it uses differs from what the
entry point uses by the names of these arrays and of their elements only. -/

namespace ShaderUplift

open Source

/-- The distinct names are divided into two lists, each in order of first occurrence. -/
structure Divided (names kept dropped : List String) : Prop where
  covers : ∀ name, name ∈ names ↔ name ∈ kept ∨ name ∈ dropped
  disjoint : ∀ name ∈ kept, name ∉ dropped
  kept_once : kept.Nodup
  dropped_once : dropped.Nodup
  kept_order : kept.Sublist names.eraseDups
  dropped_order : dropped.Sublist names.eraseDups

/-- How a stage with this body at its entry point retains the declarations of one kind. -/
structure Retains (source : String) (body : Body) (unit : ShaderUnit) (kind : DeclarationKind) :
    Prop where
  divided : Divided (namesAs kind (scanned source)) (unit.symbols.table kind).names
    (reportedAs kind unit.diagnostics)
  first : ∀ e ∈ (unit.symbols.table kind).entries,
    (declaredAs kind (scanned source)).find? (fun d => d.name = e.name) = some e
  retained : ∀ before d after, scanned source = before ++ .declare d :: after → d.kind = kind →
    d.name ∉ namesAs kind before → body.references d.name = true →
    (∀ a length, KeptArray before unit.diagnostics a length → a.name ≠ d.name) →
      d.name ∈ (unit.symbols.table kind).names
  dropped : ∀ before d after, scanned source = before ++ .declare d :: after → d.kind = kind →
    d.name ∉ namesAs kind before → body.references d.name = false →
    (∀ a length, KeptArray before unit.diagnostics a length →
      ∀ index < length, d.name ≠ Body.elementName a.name index) →
      d.name ∈ reportedAs kind unit.diagnostics

theorem nodup_eraseDups (names : List String) : names.eraseDups.Nodup := by
  induction names using List.reverseRecOn with
  | nil => exact List.nodup_nil
  | append_singleton names name ih =>
      rw [List.eraseDups_append]
      by_cases hname : name ∈ names
      · simpa [List.removeAll, hname] using ih
      · have hremove : ([name].removeAll names).eraseDups = [name] := by
          simp [List.removeAll, hname, List.eraseDups_cons]
        rw [hremove, ← List.concat_eq_append]
        exact ih.concat fun h => hname (List.mem_eraseDups.mp h)

namespace Classification

/-- A table other than that of the varyings grows by the new declaration when the body uses it. -/
theorem table_step {c : Classification} {kind : DeclarationKind} {s : Statement}
    (hkind : kind ≠ .varying)
    (hseen : ∀ name ∈ (c.symbols.table kind).names, (kind, name) ∈ c.seen) :
    ((c.step s).symbols.table kind).entries =
      (c.symbols.table kind).entries ++ c.used (c.fresh kind s) := by
  cases s with
  | define d =>
      rw [step, (c.define_frame d).2.2.2.2]
      cases kind <;> simp [Symbols.table, fresh, declaredAs, used]
  | declare d =>
      rw [step, used]
      rcases c.declare_cases d with
        ⟨heq, hold⟩ | ⟨hnew, ⟨href, heq⟩ | ⟨href, -, heq⟩ | ⟨_, -, hvarying, -, heq⟩⟩
      · rw [heq, fresh_of_seen hold]
        simp
      · rw [heq, fresh_declare]
        split <;> simp [href]
      · rw [heq, fresh_declare]
        dsimp only
        rw [table_insert]
        by_cases hsame : d.kind = kind
        · subst hsame
          have hname : Named.name d ∉ (c.symbols.table d.kind).names := fun h => hnew (hseen _ h)
          rw [if_pos rfl, Table.entries_insert hname]
          simp [hnew, href]
        · simp [hsame]
      · have hother : d.kind ≠ kind := fun h => hkind (h ▸ hvarying)
        rw [heq, fresh_declare, if_neg fun h => hother h.1]
        cases kind with
        | varying => exact absurd rfl hkind
        | _ => simp [Symbols.table]

/-- The table of a kind holds what is kept, and table and reports follow the distinct names. -/
structure Sorts (kind : DeclarationKind) (ss : List Statement) (c : Classification) : Prop where
  tracks : Tracks ss c
  entry_iff : ∀ e, e ∈ (c.symbols.table kind).entries ↔ Kept kind ss c.diagnostics e
  table_order : (c.symbols.table kind).names.Sublist (namesAs kind ss).eraseDups
  report_order : (reportedAs kind c.diagnostics).Sublist (namesAs kind ss).eraseDups

namespace Sorts

variable {kind : DeclarationKind} {ss : List Statement} {c : Classification}

theorem step (h : Sorts kind ss c) (hkind : kind ≠ .varying) (s : Statement) :
    Sorts kind (ss ++ [s]) (c.step s) := by
  have hseen : ∀ name ∈ (c.symbols.table kind).names, (kind, name) ∈ c.seen := by
    intro name hname
    obtain ⟨e, he, rfl⟩ := List.mem_map.mp hname
    exact (h.tracks.seen kind e.name).mpr ((h.entry_iff e).mp he).name_mem
  have htable := table_step (s := s) hkind hseen
  refine ⟨h.tracks.step s, fun e => ?_, ?_, ?_⟩
  · rw [htable, List.mem_append, h.entry_iff, h.tracks.kept_step]
  · rw [Table.names, htable, List.map_append, h.tracks.eraseDups_step]
    exact h.table_order.append (List.filter_sublist.map _)
  · rw [reportedAs_step, h.tracks.eraseDups_step]
    exact h.report_order.append (List.filter_sublist.map _)

theorem run (hkind : kind ≠ .varying) (stage : Stage) (body : Body) (notices : List Notice)
    (ss : List Statement) :
    Sorts kind ss (ss.foldl Classification.step (.start stage body notices)) := by
  refine run_induction ⟨.start stage body notices, fun e => ?_, ?_, ?_⟩
    (fun _ _ s h => h.step hkind s) ss
  · cases kind <;> exact ⟨nofun, fun h => nomatch h.1⟩
  · cases kind <;> exact List.Sublist.slnil
  · exact List.Sublist.slnil

theorem divided (h : Sorts kind ss c) :
    Divided (namesAs kind ss) (c.symbols.table kind).names (reportedAs kind c.diagnostics) := by
  refine ⟨fun name => ⟨fun hname => ?_, ?_⟩, ?_, (c.symbols.table kind).nodup,
    (nodup_eraseDups _).sublist h.report_order, h.table_order, h.report_order⟩
  · obtain ⟨d, hfirst, rfl⟩ := exists_find?_of_mem hname
    by_cases hreported : d.name ∈ reportedAs kind c.diagnostics
    · exact Or.inr hreported
    · exact Or.inl (List.mem_map_of_mem ((h.entry_iff d).mpr ⟨hfirst, hreported⟩))
  · rintro (hname | hname)
    · exact List.mem_eraseDups.mp (h.table_order.subset hname)
    · exact h.tracks.reported kind name hname
  · intro name hname
    obtain ⟨e, he, rfl⟩ := List.mem_map.mp hname
    exact ((h.entry_iff e).mp he).2

end Sorts

/-- The body uses what it used at the start, up to the kept arrays and their elements. -/
structure Follows (body : Body) (ss : List Statement) (c : Classification) : Prop where
  tracks : Tracks ss c
  stays : ∀ name, body.references name = true →
    (∀ a length, KeptArray ss c.diagnostics a length → a.name ≠ name) →
      c.body.references name = true
  comes : ∀ name, c.body.references name = true → body.references name = true ∨
    ∃ a length, KeptArray ss c.diagnostics a length ∧
      ∃ index < length, name = Body.elementName a.name index

namespace Follows

variable {body : Body} {ss : List Statement} {c : Classification}

theorem step (h : Follows body ss c) (s : Statement) : Follows body (ss ++ [s]) (c.step s) := by
  have hlater : ∀ {a length}, KeptArray ss c.diagnostics a length →
      KeptArray (ss ++ [s]) (c.step s).diagnostics a length :=
    fun ha => ⟨h.tracks.kept_step.mpr (Or.inl ha.1), ha.2⟩
  refine ⟨h.tracks.step s, fun name href harrays => ?_, fun name href => ?_⟩
  · have hbefore := h.stays name href fun a length ha => harrays a length (hlater ha)
    rcases c.body_step s with heq | ⟨a, length, ha, hlength, heq⟩
    · rw [heq]
      exact hbefore
    · rw [heq]
      have hkept : KeptArray (ss ++ [s]) (c.step s).diagnostics a length :=
        ⟨h.tracks.kept_step.mpr (Or.inr ha), hlength⟩
      exact Body.references_expandIndexed hbefore (harrays a length hkept).symm
  · have hold : c.body.references name = true → body.references name = true ∨
        ∃ a length, KeptArray (ss ++ [s]) (c.step s).diagnostics a length ∧
          ∃ index < length, name = Body.elementName a.name index := fun href =>
      (h.comes name href).imp_right fun ⟨a, length, ha, helement⟩ =>
        ⟨a, length, hlater ha, helement⟩
    rcases c.body_step s with heq | ⟨a, length, ha, hlength, heq⟩
    · exact hold (heq ▸ href)
    · rw [heq] at href
      rcases Body.of_references_expandIndexed href with href | helement
      · exact hold href
      · exact Or.inr ⟨a, length, ⟨h.tracks.kept_step.mpr (Or.inr ha), hlength⟩, helement⟩

theorem run (stage : Stage) (body : Body) (notices : List Notice) (ss : List Statement) :
    Follows body ss (ss.foldl Classification.step (.start stage body notices)) :=
  run_induction ⟨.start stage body notices, fun _ href _ => href, fun _ href => Or.inl href⟩
    (fun _ _ s h => h.step s) ss

/-- Where the first declaration of a kind and name stands, only the kept arrays of that name and the
elements of kept arrays make a difference to the entry point. -/
theorem mem_reportedAs (h : Follows body ss c) {d : Declaration} (hnew : d.name ∉ namesAs d.kind ss)
    {after : List Statement} {last : Classification}
    (hlast : last = (.declare d :: after).foldl Classification.step c) :
    (body.references d.name = true →
      (∀ a length, KeptArray ss last.diagnostics a length → a.name ≠ d.name) →
        d.name ∉ reportedAs d.kind last.diagnostics) ∧
    (body.references d.name = false →
      (∀ a length, KeptArray ss last.diagnostics a length →
        ∀ index < length, d.name ≠ Body.elementName a.name index) →
        d.name ∈ reportedAs d.kind last.diagnostics) := by
  subst hlast
  rw [h.tracks.mem_reportedAs_iff hnew]
  have hkept : ∀ {a length}, KeptArray ss c.diagnostics a length →
      KeptArray ss ((.declare d :: after).foldl Classification.step c).diagnostics a length :=
    fun ha => ⟨(h.tracks.kept_later _).mpr ha.1, ha.2⟩
  refine ⟨fun href harrays => ?_, fun href harrays => ?_⟩
  · have hstays := h.stays d.name href fun a length ha => harrays a length (hkept ha)
    simp [hstays]
  · by_contra huses
    rcases h.comes d.name (by simpa using huses) with hbody | ⟨a, length, ha, index, hlt, hname⟩
    · simp [href] at hbody
    · exact harrays a length (hkept ha) index hlt hname

end Follows

end Classification

/-- Of the attributes, uniforms and samplers of a stage that is read, the distinct names are divided
between the table and the reports of their kind, both in order of first occurrence, and each entry
is the first declaration of its name. A name that the entry point uses is retained unless a varying
array of that name was kept before it; a name that the entry point does not use is reported unless
it is the name of an element of a varying array kept before it. -/
theorem ShaderUnit.parse_retains {source : String} {stage : Stage} {unit : ShaderUnit}
    (h : (ShaderUnit.parse source stage).1 = .ok unit) {kind : DeclarationKind}
    (hkind : kind ≠ .varying) :
    ∃ text, entryBody? (normalize source) = some text ∧
      Retains source (Body.parse text).1 unit kind := by
  obtain ⟨text, htext, -, c, hrun, rfl⟩ := ShaderUnit.parse_eq_ok h
  have hsorts : Classification.Sorts kind (scanned source) c :=
    hrun ▸ Classification.Sorts.run hkind ..
  have hfollows := Classification.Follows.run stage (Body.parse text).1 (Body.parse text).2
  have hlast : ∀ {before d after}, scanned source = before ++ .declare d :: after →
      c = (.declare d :: after).foldl Classification.step
        (before.foldl Classification.step (.start stage (Body.parse text).1 (Body.parse text).2)) :=
    fun hsplit => by rw [hrun, ← List.foldl_append, ← hsplit, scanned]
  refine ⟨text, htext, hsorts.divided, fun e he => ((hsorts.entry_iff e).mp he).1, ?_, ?_⟩
  · rintro before d after hsplit rfl hnew href harrays
    have hmem : d.name ∈ namesAs d.kind (scanned source) := by
      refine List.mem_map_of_mem (mem_declaredAs.mpr ⟨?_, rfl⟩)
      rw [hsplit]
      exact List.mem_append_right _ List.mem_cons_self
    refine ((hsorts.divided.covers d.name).mp hmem).resolve_right ?_
    exact ((hfollows before).mem_reportedAs hnew (hlast hsplit)).1 href harrays
  · rintro before d after hsplit rfl hnew href harrays
    exact ((hfollows before).mem_reportedAs hnew (hlast hsplit)).2 href harrays

/-- A stage with a uniform that is declared twice, one that only an element of a varying array makes
used, and one that is not used. -/
def uniformSample : String :=
  "varying vec2 w[2];\nuniform vec4 t;\nuniform float w_1;\nuniform float s;\nuniform vec2 t;\n" ++
    "void main()\x7bt*w[1];\x7d"

theorem uniformSample_retains :
    ∃ unit, (ShaderUnit.parse uniformSample .vertex).1 = .ok unit ∧
      unit.symbols.uniforms.names = ["t", "w_1"] ∧ reportedAs .uniform unit.diagnostics = ["s"] ∧
      ∃ text, entryBody? (normalize uniformSample) = some text ∧
        Retains uniformSample (Body.parse text).1 unit .uniform := by
  have hok : ((ShaderUnit.parse uniformSample .vertex).1.toOption.any fun unit =>
      unit.symbols.uniforms.names = ["t", "w_1"] ∧
        reportedAs .uniform unit.diagnostics = ["s"]) = true := by
    decide +kernel
  obtain ⟨unit, hunit, hnames⟩ := exists_ok_of_any hok
  obtain ⟨hkept, hreported⟩ := of_decide_eq_true hnames
  exact ⟨unit, hunit, hkept, hreported, ShaderUnit.parse_retains hunit (by decide)⟩

end ShaderUplift
