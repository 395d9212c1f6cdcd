import ShaderUplift.Proofs.Declared
import ShaderUplift.Proofs.Outcome

/-! Which varyings a stage has, and where their types come from. A varying that is kept puts itself
into the table and takes the place of an element of that name; an array that is kept puts in its
elements unless their names are taken. The name of an element tells its array and its index, so two
arrays never share one, and the first declaration of a name counts for every name that is not both
declared and the name of an element. -/

namespace ShaderUplift

open Source

/-- The names that a varying declares: those of its elements when it is an array. -/
def Declaration.varyingNames (d : Declaration) : List String :=
  match d.arrayLength with
  | none => [d.name]
  | some length => (List.range length).map (Body.elementName d.name)

/-- The name is that of a declaration, and of an element of an array that is declared. -/
def DeclaredTwoWays (ds : List Declaration) (name : String) : Prop :=
  name ∈ ds.map Declaration.name ∧
    ∃ a ∈ ds, ∃ length, a.arrayLength = some length ∧
      ∃ index < length, name = Body.elementName a.name index

/-- A varying that is kept and is not an array. -/
def KeptSingle (ss : List Statement) (gs : List Diagnostic) (d : Declaration) : Prop :=
  Kept .varying ss gs d ∧ d.arrayLength = none

/-- The varying is an element of an array that is kept. -/
def KeptElement (ss : List Statement) (gs : List Diagnostic) (e : Declaration) : Prop :=
  ∃ a length, KeptArray ss gs a length ∧ ∃ index < length, e = Classification.element a index

/-- How the varyings of a stage follow from its statements and reports. -/
structure VaryingsOf (ss : List Statement) (gs : List Diagnostic) (t : Table Declaration) :
    Prop where
  /-- An element stays out when a varying of its name is kept. -/
  entry_iff : ∀ e, e ∈ t.entries ↔
    KeptSingle ss gs e ∨ (KeptElement ss gs e ∧ ∀ d, KeptSingle ss gs d → d.name ≠ e.name)
  reported_iff : ∀ name ∈ reportedAs .varying gs,
    (name ∈ t.names ↔ ∃ e, KeptElement ss gs e ∧ e.name = name)
  unreported : ∀ name ∈ reportedAs .varying gs,
    ¬DeclaredTwoWays (declaredAs .varying ss) name → name ∉ t.names
  first : ∀ e ∈ t.entries, ¬DeclaredTwoWays (declaredAs .varying ss) e.name →
    ∃ d, (declaredAs .varying ss).find? (fun d => e.name ∈ d.varyingNames) = some d ∧
      e.type = d.type

theorem Body.elementName_inj {a b : String} {i j : Nat} :
    elementName a i = elementName b j ↔ a = b ∧ i = j := by
  refine ⟨fun h => ?_, fun ⟨ha, hi⟩ => by rw [ha, hi]⟩
  have hdigits : ∀ n, '_' ∉ Nat.toDigits 10 n := fun n hmem =>
    absurd (Nat.isDigit_of_mem_toDigits (by decide) (by decide) hmem) (by decide)
  have hchars : ∀ c n, (elementName c n).toList = c.toList ++ '_' :: Nat.toDigits 10 n := by
    intro c n
    simp [elementName]
  have heq := congrArg String.toList h
  rw [hchars, hchars, List.append_eq_append_iff] at heq
  -- The underscore before the digits is the last one, so neither array reaches beyond it.
  have hsame : a.toList = b.toList ∧ Nat.toDigits 10 i = Nat.toDigits 10 j := by
    rcases heq with ⟨cs, hb, hcs⟩ | ⟨cs, ha, hcs⟩
    · cases cs with
      | nil => exact ⟨by simpa using hb.symm, by simpa using hcs⟩
      | cons c cs =>
          rw [List.cons_append, List.cons.injEq] at hcs
          exact absurd (hcs.2 ▸ List.mem_append_right _ List.mem_cons_self) (hdigits i)
    · cases cs with
      | nil => exact ⟨by simpa using ha, by simpa using hcs.symm⟩
      | cons c cs =>
          rw [List.cons_append, List.cons.injEq] at hcs
          exact absurd (hcs.2 ▸ List.mem_append_right _ List.mem_cons_self) (hdigits j)
  refine ⟨String.toList_inj.mp hsame.1, ?_⟩
  have hvalue := congrArg (fun cs => Nat.ofDigitChars 10 cs 0) hsame.2
  simpa using hvalue

theorem mem_varyingNames {d : Declaration} {name : String} :
    name ∈ d.varyingNames ↔ (d.arrayLength = none ∧ name = d.name) ∨
      ∃ length, d.arrayLength = some length ∧
        ∃ index < length, name = Body.elementName d.name index := by
  unfold Declaration.varyingNames
  split
  · next h => simp [h]
  · next length h => simp [h, eq_comm]

namespace Classification

/-- The elements of an array go into the table where their names are free. -/
theorem mem_foldl_insertNew_iff {t : Table Declaration} {d e : Declaration} {is : List Nat}
    (his : is.Nodup) :
    e ∈ (is.foldl (fun t i => t.insertNew (element d i)) t).entries ↔
      e ∈ t.entries ∨ (e.name ∉ t.names ∧ ∃ i ∈ is, e = element d i) := by
  induction is generalizing t with
  | nil => simp
  | cons i is ih =>
      obtain ⟨hi, his⟩ := List.nodup_cons.mp his
      have hother : ∀ j ∈ is, (element d j).name ≠ (element d i).name := by
        intro j hj heq
        exact hi ((Body.elementName_inj.mp heq).2 ▸ hj)
      rw [List.foldl_cons, ih his, Table.mem_insertNew_iff]
      constructor
      · rintro ((he | ⟨hfree, rfl⟩) | ⟨hfree, j, hj, rfl⟩)
        · exact Or.inl he
        · exact Or.inr ⟨hfree, i, List.mem_cons_self, rfl⟩
        · refine Or.inr ⟨fun hname => hfree ?_, j, List.mem_cons_of_mem _ hj, rfl⟩
          exact Table.mem_names_insertNew.mpr (Or.inl hname)
      · rintro (he | ⟨hfree, j, hj, rfl⟩)
        · exact Or.inl (Or.inl he)
        · rcases List.mem_cons.mp hj with rfl | hj
          · exact Or.inl (Or.inr ⟨hfree, rfl⟩)
          · refine Or.inr ⟨fun hname => ?_, j, hj, rfl⟩
            exact (Table.mem_names_insertNew.mp hname).elim hfree (hother j hj)

/-- A step puts the new varying into the table when the body uses it, or its elements. -/
theorem varyings_step (c : Classification) (s : Statement) :
    (c.used (c.fresh .varying s) = [] ∧ (c.step s).symbols.varyings = c.symbols.varyings) ∨
    ∃ d, c.used (c.fresh .varying s) = [d] ∧
      ((d.arrayLength = none ∧ (c.step s).symbols.varyings = c.symbols.varyings.insert d) ∨
        ∃ length, d.arrayLength = some length ∧ (c.step s).symbols.varyings =
          (List.range length).foldl (fun t i => t.insertNew (element d i)) c.symbols.varyings) := by
  cases s with
  | define d =>
      refine Or.inl ⟨by simp [used, fresh, declaredAs], ?_⟩
      rw [step, (c.define_frame d).2.2.2.2]
  | declare d =>
      rw [step, used]
      rcases c.declare_cases d with ⟨heq, hold⟩ |
        ⟨hnew, ⟨href, heq⟩ | ⟨href, hsingle, heq⟩ | ⟨length, href, hkind, hlength, heq⟩⟩
      · refine Or.inl ⟨?_, by rw [heq]⟩
        rw [fresh_of_seen hold, List.filter_nil]
      · refine Or.inl ⟨?_, by rw [heq]⟩
        rw [fresh_declare]
        split <;> simp [href]
      · by_cases hkind : d.kind = .varying
        · refine Or.inr ⟨d, ?_, Or.inl ⟨hsingle hkind, ?_⟩⟩
          · simp [fresh_declare, hkind, hkind ▸ hnew, href]
          · rw [heq]
            exact (varyings_insert _ _).trans (if_pos hkind)
        · refine Or.inl ⟨by simp [fresh_declare, hkind], ?_⟩
          rw [heq]
          exact (varyings_insert _ _).trans (if_neg hkind)
      · refine Or.inr ⟨d, ?_, Or.inr ⟨length, hlength, by rw [heq]⟩⟩
        simp [fresh_declare, hkind, hkind ▸ hnew, href]

theorem Tracks.keptSingle_step {ss : List Statement} {c : Classification} (h : Tracks ss c)
    {s : Statement} {e : Declaration} :
    KeptSingle (ss ++ [s]) (c.step s).diagnostics e ↔
      KeptSingle ss c.diagnostics e ∨ (e ∈ c.used (c.fresh .varying s) ∧ e.arrayLength = none) := by
  rw [KeptSingle, h.kept_step, or_and_right, KeptSingle]

theorem Tracks.keptElement_step {ss : List Statement} {c : Classification} (h : Tracks ss c)
    {s : Statement} {e : Declaration} :
    KeptElement (ss ++ [s]) (c.step s).diagnostics e ↔
      KeptElement ss c.diagnostics e ∨ ∃ a ∈ c.used (c.fresh .varying s), ∃ length,
        a.arrayLength = some length ∧ ∃ index < length, e = element a index := by
  constructor
  · rintro ⟨a, length, ⟨ha, hlength⟩, helement⟩
    rcases h.kept_step.mp ha with ha | ha
    · exact Or.inl ⟨a, length, ⟨ha, hlength⟩, helement⟩
    · exact Or.inr ⟨a, ha, length, hlength, helement⟩
  · rintro (⟨a, length, ⟨ha, hlength⟩, helement⟩ | ⟨a, ha, length, hlength, helement⟩)
    · exact ⟨a, length, ⟨h.kept_step.mpr (Or.inl ha), hlength⟩, helement⟩
    · exact ⟨a, length, ⟨h.kept_step.mpr (Or.inr ha), hlength⟩, helement⟩

/-- The table of varyings holds the kept varyings, and the elements of kept arrays that they leave
free. -/
structure Puts (ss : List Statement) (c : Classification) : Prop where
  tracks : Tracks ss c
  entry_iff : ∀ e, e ∈ c.symbols.varyings.entries ↔ KeptSingle ss c.diagnostics e ∨
    (KeptElement ss c.diagnostics e ∧ ∀ d, KeptSingle ss c.diagnostics d → d.name ≠ e.name)

namespace Puts

variable {ss : List Statement} {c : Classification} {s : Statement} {d : Declaration}

theorem name_not_mem (h : Puts ss c) (hused : c.used (c.fresh .varying s) = [d]) :
    d.name ∉ namesAs .varying ss := by
  have hd : d ∈ c.fresh .varying s := by
    have hmem : d ∈ c.used (c.fresh .varying s) := by simp [hused]
    exact (List.mem_filter.mp hmem).1
  rw [← h.tracks.seen]
  exact (mem_fresh.mp hd).2.2

/-- A varying that is no array takes the place of an element of its name. -/
theorem step_single (h : Puts ss c) (hused : c.used (c.fresh .varying s) = [d])
    (hlength : d.arrayLength = none)
    (heq : (c.step s).symbols.varyings = c.symbols.varyings.insert d) :
    Puts (ss ++ [s]) (c.step s) := by
  refine ⟨h.tracks.step s, fun e => ?_⟩
  have hsingle : ∀ x, KeptSingle (ss ++ [s]) (c.step s).diagnostics x ↔
      KeptSingle ss c.diagnostics x ∨ x = d := by
    intro x
    rw [h.tracks.keptSingle_step, hused, List.mem_singleton]
    exact or_congr_right (and_iff_left_of_imp fun hx => hx ▸ hlength)
  have helement : KeptElement (ss ++ [s]) (c.step s).diagnostics e ↔
      KeptElement ss c.diagnostics e := by
    rw [h.tracks.keptElement_step, hused]
    simp [hlength]
  rw [heq, Table.mem_insert_iff, h.entry_iff, hsingle, helement]
  constructor
  · rintro (rfl | ⟨he | ⟨he, hfree⟩, hne⟩)
    · exact Or.inl (Or.inr rfl)
    · exact Or.inl (Or.inl he)
    · refine Or.inr ⟨he, fun x hx => ?_⟩
      rcases (hsingle x).mp hx with hx | rfl
      · exact hfree x hx
      · exact hne.symm
  · rintro ((he | rfl) | ⟨he, hfree⟩)
    · have hne : e.name ≠ d.name := fun hname => h.name_not_mem hused (hname ▸ he.1.name_mem)
      exact Or.inr ⟨Or.inl he, hne⟩
    · exact Or.inl rfl
    · refine Or.inr ⟨Or.inr ⟨he, fun x hx => hfree x ((hsingle x).mpr (Or.inl hx))⟩, ?_⟩
      exact (hfree d ((hsingle d).mpr (Or.inr rfl))).symm

/-- The elements of an array go where no kept varying has their name. -/
theorem step_array (h : Puts ss c) (hused : c.used (c.fresh .varying s) = [d]) {length : Nat}
    (hlength : d.arrayLength = some length)
    (heq : (c.step s).symbols.varyings =
      (List.range length).foldl (fun t i => t.insertNew (element d i)) c.symbols.varyings) :
    Puts (ss ++ [s]) (c.step s) := by
  refine ⟨h.tracks.step s, fun e => ?_⟩
  have hsingle : ∀ x, KeptSingle (ss ++ [s]) (c.step s).diagnostics x ↔
      KeptSingle ss c.diagnostics x := by
    intro x
    rw [h.tracks.keptSingle_step, hused, List.mem_singleton, or_iff_left]
    rintro ⟨rfl, hnone⟩
    rw [hlength] at hnone
    cases hnone
  have helement : KeptElement (ss ++ [s]) (c.step s).diagnostics e ↔
      KeptElement ss c.diagnostics e ∨ ∃ index < length, e = element d index := by
    rw [h.tracks.keptElement_step, hused]
    simp [hlength]
  rw [heq, mem_foldl_insertNew_iff List.nodup_range, helement]
  simp only [hsingle, List.mem_range]
  constructor
  · rintro (he | ⟨hfree, hindex⟩)
    · exact ((h.entry_iff e).mp he).imp_right fun ⟨he, hfree⟩ => ⟨Or.inl he, hfree⟩
    · refine Or.inr ⟨Or.inr hindex, fun x hx hname => hfree ?_⟩
      exact List.mem_map.mpr ⟨x, (h.entry_iff x).mpr (Or.inl hx), hname⟩
  · rintro (he | ⟨he | ⟨index, hlt, rfl⟩, hfree⟩)
    · exact Or.inl ((h.entry_iff e).mpr (Or.inl he))
    · exact Or.inl ((h.entry_iff e).mpr (Or.inr ⟨he, hfree⟩))
    · refine Or.inr ⟨fun hname => ?_, index, hlt, rfl⟩
      obtain ⟨x, hx, hname⟩ := List.mem_map.mp hname
      rcases (h.entry_iff x).mp hx with hx | ⟨⟨a, _, ha, j, -, rfl⟩, -⟩
      · exact hfree x hx hname
      · have harray : a.name = d.name := (Body.elementName_inj.mp hname).1
        exact h.name_not_mem hused (harray ▸ ha.1.name_mem)

theorem step (h : Puts ss c) (s : Statement) : Puts (ss ++ [s]) (c.step s) := by
  rcases c.varyings_step s with
    ⟨hused, heq⟩ | ⟨d, hused, ⟨hlength, heq⟩ | ⟨length, hlength, heq⟩⟩
  · refine ⟨h.tracks.step s, fun e => ?_⟩
    simp only [heq, h.entry_iff, h.tracks.keptSingle_step, h.tracks.keptElement_step, hused,
      List.not_mem_nil, false_and, exists_false, or_false]
  · exact h.step_single hused hlength heq
  · exact h.step_array hused hlength heq

theorem run (stage : Stage) (body : Body) (notices : List Notice) (ss : List Statement) :
    Puts ss (ss.foldl Classification.step (.start stage body notices)) := by
  refine run_induction ⟨.start stage body notices, fun e => ⟨nofun, ?_⟩⟩
    (fun _ _ s h => h.step s) ss
  rintro (⟨⟨hfind, -⟩, -⟩ | ⟨⟨a, _, ⟨⟨hfind, -⟩, -⟩, -⟩, -⟩)
  · cases hfind
  · cases hfind

theorem mem_names_iff (h : Puts ss c) {name : String}
    (hname : name ∈ reportedAs .varying c.diagnostics) :
    name ∈ c.symbols.varyings.names ↔ ∃ e, KeptElement ss c.diagnostics e ∧ e.name = name := by
  constructor
  · intro hkey
    obtain ⟨e, he, rfl⟩ := List.mem_map.mp hkey
    rcases (h.entry_iff e).mp he with he | ⟨he, -⟩
    · exact absurd hname he.1.2
    · exact ⟨e, he, rfl⟩
  · rintro ⟨e, he, rfl⟩
    have hfree : ∀ d, KeptSingle ss c.diagnostics d → d.name ≠ e.name := fun d hd heq =>
      hd.1.2 (heq ▸ hname)
    exact List.mem_map_of_mem ((h.entry_iff e).mpr (Or.inr ⟨he, hfree⟩))

/-- Before the kept varying no declaration declares its name. -/
theorem find?_single {gs : List Diagnostic} {e : Declaration} (he : KeptSingle ss gs e)
    (hclear : ¬DeclaredTwoWays (declaredAs .varying ss) e.name) :
    (declaredAs .varying ss).find? (fun d => e.name ∈ d.varyingNames) = some e := by
  obtain ⟨-, before, after, hsplit, hbefore⟩ := List.find?_eq_some_iff_append.mp he.1.1
  refine List.find?_eq_some_iff_append.mpr ⟨?_, before, after, hsplit, fun x hx => ?_⟩
  · simp [mem_varyingNames, he.2]
  · have hxs : x ∈ declaredAs .varying ss := by
      rw [hsplit]
      exact List.mem_append_left _ hx
    have hne : x.name ≠ e.name := by simpa using hbefore x hx
    have hnot : e.name ∉ x.varyingNames := fun hmem => by
      rcases mem_varyingNames.mp hmem with ⟨-, heq⟩ | hindex
      · exact hne heq.symm
      · exact hclear ⟨he.1.name_mem, x, hxs, hindex⟩
    simp [hnot]

/-- Before the kept array no declaration declares the name of its element. -/
theorem find?_array {gs : List Diagnostic} {a : Declaration} {length index : Nat}
    (ha : KeptArray ss gs a length) (hindex : index < length)
    (hclear : ¬DeclaredTwoWays (declaredAs .varying ss) (Body.elementName a.name index)) :
    (declaredAs .varying ss).find? (fun d => Body.elementName a.name index ∈ d.varyingNames) =
      some a := by
  obtain ⟨-, before, after, hsplit, hbefore⟩ := List.find?_eq_some_iff_append.mp ha.1.1
  refine List.find?_eq_some_iff_append.mpr ⟨?_, before, after, hsplit, fun x hx => ?_⟩
  · rw [decide_eq_true_eq, mem_varyingNames]
    exact Or.inr ⟨length, ha.2, index, hindex, rfl⟩
  · have hxs : x ∈ declaredAs .varying ss := by
      rw [hsplit]
      exact List.mem_append_left _ hx
    have hne : x.name ≠ a.name := by simpa using hbefore x hx
    have hnot : Body.elementName a.name index ∉ x.varyingNames := fun hmem => by
      rcases mem_varyingNames.mp hmem with ⟨-, heq⟩ | ⟨_, -, _, -, heq⟩
      · exact hclear ⟨List.mem_map.mpr ⟨x, hxs, heq.symm⟩,
          a, ha.1.mem, length, ha.2, index, hindex, rfl⟩
      · exact hne (Body.elementName_inj.mp heq).1.symm
    simp [hnot]

theorem varyingsOf (h : Puts ss c) : VaryingsOf ss c.diagnostics c.symbols.varyings := by
  refine ⟨h.entry_iff, fun _ hname => h.mem_names_iff hname, ?_, ?_⟩
  · intro name hname hclear hkey
    obtain ⟨e, ⟨a, length, ha, index, hlt, rfl⟩, rfl⟩ := (h.mem_names_iff hname).mp hkey
    exact hclear ⟨h.tracks.reported _ _ hname, a, ha.1.mem, length, ha.2, index, hlt, rfl⟩
  · intro e he hclear
    rcases (h.entry_iff e).mp he with he | ⟨⟨a, length, ha, index, hlt, rfl⟩, -⟩
    · exact ⟨e, find?_single he hclear, rfl⟩
    · exact ⟨a, find?_array ha hlt hclear, rfl⟩

end Puts

end Classification

/-- The varyings of a stage that is read are the kept ones that are not arrays, and the elements of
the kept arrays whose names these leave free. A reported name is a key exactly when it is that of an
element of a kept array. For every name that is not both declared and the name of an element of a
declared array, a report excludes a key, and a key has the type of the first declaration. -/
theorem ShaderUnit.parse_varyings {source : String} {stage : Stage} {unit : ShaderUnit}
    (h : (ShaderUnit.parse source stage).1 = .ok unit) :
    VaryingsOf (scanned source) unit.diagnostics unit.symbols.varyings := by
  obtain ⟨text, -, -, c, hrun, rfl⟩ := ShaderUnit.parse_eq_ok h
  have hputs : Classification.Puts (scanned source) c := hrun ▸ Classification.Puts.run ..
  exact hputs.varyingsOf

/-- A stage with a varying that is declared twice, an array, and a varying that is not used. -/
def varyingSample : String :=
  "varying vec2 w[2];\nvarying vec4 c;\nvarying float c;\nvarying vec3 n;\n" ++
    "void main()\x7bc*w[1];\x7d"

theorem varyingSample_varyings :
    ∃ unit, (ShaderUnit.parse varyingSample .vertex).1 = .ok unit ∧
      unit.symbols.varyings.names = ["w_0", "w_1", "c"] ∧
      reportedAs .varying unit.diagnostics = ["n"] ∧
      VaryingsOf (scanned varyingSample) unit.diagnostics unit.symbols.varyings := by
  have hok : ((ShaderUnit.parse varyingSample .vertex).1.toOption.any fun unit =>
      unit.symbols.varyings.names = ["w_0", "w_1", "c"] ∧
        reportedAs .varying unit.diagnostics = ["n"]) = true := by
    decide +kernel
  obtain ⟨unit, hunit, hnames⟩ := exists_ok_of_any hok
  obtain ⟨hkeys, hreported⟩ := of_decide_eq_true hnames
  exact ⟨unit, hunit, hkeys, hreported, ShaderUnit.parse_varyings hunit⟩

/-- A varying after an array that has an element of its name. -/
def arrayFirst : String :=
  "varying vec2 uv[2];\nvarying float uv_0;\nvoid main()\x7bgl_Position=uv[0];\x7d"

/-- The same declarations the other way round. -/
def arrayLast : String :=
  "varying float uv_0;\nvarying vec2 uv[2];\nvoid main()\x7bgl_Position=uv[0];\x7d"

/-- For a name that is declared in both ways the first declaration does not count: a varying takes
the place of the element of an array before it, and a varying that is reported because the body uses
only the array has its name among the keys after all. -/
theorem first_varying_lost :
    (∃ unit, (ShaderUnit.parse arrayFirst .vertex).1 = .ok unit ∧
      (unit.symbols.varyings.get? "uv_0").map Declaration.type = some "float" ∧
      ((declaredAs .varying (scanned arrayFirst)).find? fun d => "uv_0" ∈ d.varyingNames).map
        Declaration.type = some "vec2") ∧
    ∃ unit, (ShaderUnit.parse arrayLast .vertex).1 = .ok unit ∧
      "uv_0" ∈ reportedAs .varying unit.diagnostics ∧ "uv_0" ∈ unit.symbols.varyings.names := by
  have hfirst : ((ShaderUnit.parse arrayFirst .vertex).1.toOption.any fun unit =>
      (unit.symbols.varyings.get? "uv_0").map Declaration.type = some "float") = true := by
    decide +kernel
  have hlast : ((ShaderUnit.parse arrayLast .vertex).1.toOption.any fun unit =>
      "uv_0" ∈ reportedAs .varying unit.diagnostics ∧ "uv_0" ∈ unit.symbols.varyings.names) =
      true := by
    decide +kernel
  obtain ⟨unit, hunit, hfloat⟩ := exists_ok_of_any hfirst
  obtain ⟨unit', hunit', hfacts⟩ := exists_ok_of_any hlast
  exact ⟨⟨unit, hunit, of_decide_eq_true hfloat, by decide +kernel⟩,
    unit', hunit', of_decide_eq_true hfacts⟩

end ShaderUplift
