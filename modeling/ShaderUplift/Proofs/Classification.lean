import ShaderUplift.ShaderUnit

/-! What reading the statements of a stage can do to its classification. A declaration is ignored,
dropped, kept, or, for a varying array, divided into elements; a definition touches only the table of
definitions. `ShaderUnit.parse_induction` turns a fact about the start and about each statement into
a fact about every stage that is read. -/

namespace ShaderUplift

open Source

/-- The table of one kind. -/
def Symbols.table (s : Symbols) : DeclarationKind → Table Declaration
  | .attribute => s.attributes
  | .uniform => s.uniforms
  | .varying => s.varyings
  | .sampler => s.samplers

namespace Classification

/-- Everything that a declaration can do. -/
theorem declare_cases (c : Classification) (d : Declaration) :
    (c.declare d = c ∧ (d.kind, d.name) ∈ c.seen) ∨
    ((d.kind, d.name) ∉ c.seen ∧
      ((c.body.references d.name = false ∧
        c.declare d = { c with
          seen := c.seen ++ [(d.kind, d.name)]
          diagnostics := c.diagnostics ++ [⟨c.stage, d.kind, d.name⟩] }) ∨
      (c.body.references d.name = true ∧ (d.kind = .varying → d.arrayLength = none) ∧
        c.declare d = { c with
          seen := c.seen ++ [(d.kind, d.name)]
          symbols := c.symbols.insert d }) ∨
      (∃ length, c.body.references d.name = true ∧ d.kind = .varying ∧
        d.arrayLength = some length ∧
        c.declare d = { c with
          seen := c.seen ++ [(d.kind, d.name)]
          body := (c.body.expandIndexed d.name length).1
          symbols := { c.symbols with
            varyings := (List.range length).foldl (fun t i => t.insertNew (element d i))
              c.symbols.varyings }
          notices := c.notices ++ (c.body.expandIndexed d.name length).2 }))) := by
  unfold declare
  split
  · next hseen =>
    exact Or.inl ⟨rfl, by simpa using hseen⟩
  · next hseen =>
    refine Or.inr ⟨by simpa using hseen, ?_⟩
    dsimp only
    split
    · next href =>
      unfold retain
      split
      · next length hkind hlength =>
        exact Or.inr (Or.inr ⟨length, href, hkind, hlength, rfl⟩)
      · next hother =>
        refine Or.inr (Or.inl ⟨href, ?_, rfl⟩)
        intro hkind
        cases hlength : d.arrayLength with
        | none => rfl
        | some length => exact (hother length hkind hlength).elim
    · next href =>
      exact Or.inl ⟨by simpa using href, rfl⟩

/-- A definition changes the definitions and the remarks only. -/
theorem define_frame (c : Classification) (d : Define) :
    (c.define d).stage = c.stage ∧ (c.define d).body = c.body ∧ (c.define d).seen = c.seen ∧
      (c.define d).diagnostics = c.diagnostics ∧
      (c.define d).symbols = { c.symbols with defines := (c.define d).symbols.defines } := by
  unfold define
  split
  · exact ⟨rfl, rfl, rfl, rfl, rfl⟩
  · split
    · exact ⟨rfl, rfl, rfl, rfl, rfl⟩
    · split <;> exact ⟨rfl, rfl, rfl, rfl, rfl⟩

theorem table_insert (symbols : Symbols) (d : Declaration) (kind : DeclarationKind) :
    (symbols.insert d).table kind =
      if d.kind = kind then (symbols.table kind).insert d else symbols.table kind := by
  cases hkind : d.kind <;> cases kind <;> simp [Symbols.insert, Symbols.table, hkind]

theorem uniforms_insert (symbols : Symbols) (d : Declaration) :
    (symbols.insert d).uniforms =
      if d.kind = .uniform then symbols.uniforms.insert d else symbols.uniforms :=
  table_insert symbols d .uniform

/-- A uniform enters the table through its own declaration, when the body uses it. -/
theorem mem_uniforms_step {c : Classification} {s : Statement} {e : Declaration}
    (h : e ∈ (c.step s).symbols.uniforms.entries) :
    e ∈ c.symbols.uniforms.entries ∨
      (s = .declare e ∧ e.kind = .uniform ∧ c.body.references e.name = true) := by
  cases s with
  | define d =>
      have hframe := (c.define_frame d).2.2.2.2
      rw [step, hframe] at h
      exact Or.inl h
  | declare d =>
      rw [step] at h
      rcases c.declare_cases d with ⟨heq, -⟩ | ⟨-, ⟨-, heq⟩ | ⟨href, -, heq⟩ | ⟨_, -, -, -, heq⟩⟩
      · rw [heq] at h
        exact Or.inl h
      · rw [heq] at h
        exact Or.inl h
      · rw [heq] at h
        dsimp only at h
        rw [uniforms_insert] at h
        split at h
        · next hkind =>
          rcases Table.mem_insert h with rfl | h
          · exact Or.inr ⟨rfl, hkind, href⟩
          · exact Or.inl h
        · exact Or.inl h
      · rw [heq] at h
        exact Or.inl h

theorem varyings_insert (symbols : Symbols) (d : Declaration) :
    (symbols.insert d).varyings =
      if d.kind = .varying then symbols.varyings.insert d else symbols.varyings :=
  table_insert symbols d .varying

theorem mem_foldl_insertNew {t : Table Declaration} {d e : Declaration} {is : List Nat}
    (h : e ∈ (is.foldl (fun t i => t.insertNew (element d i)) t).entries) :
    e ∈ t.entries ∨ ∃ i ∈ is, e = element d i := by
  induction is generalizing t with
  | nil => exact Or.inl h
  | cons i is ih =>
      rw [List.foldl_cons] at h
      rcases ih h with h | ⟨j, hj, rfl⟩
      · rcases Table.mem_insertNew h with rfl | h
        · exact Or.inr ⟨i, List.mem_cons_self, rfl⟩
        · exact Or.inl h
      · exact Or.inr ⟨j, List.mem_cons_of_mem _ hj, rfl⟩

/-- A varying enters the table through its own declaration or as an element of a declared array,
when the body uses the declared name. -/
theorem mem_varyings_step {c : Classification} {s : Statement} {e : Declaration}
    (h : e ∈ (c.step s).symbols.varyings.entries) :
    e ∈ c.symbols.varyings.entries ∨
      ∃ d, s = .declare d ∧ d.kind = .varying ∧ c.body.references d.name = true ∧
        ((d.arrayLength = none ∧ e = d) ∨
          ∃ length i, d.arrayLength = some length ∧ i < length ∧ e = element d i) := by
  cases s with
  | define d =>
      have hframe := (c.define_frame d).2.2.2.2
      rw [step, hframe] at h
      exact Or.inl h
  | declare d =>
      rw [step] at h
      rcases c.declare_cases d with
        ⟨heq, -⟩ | ⟨-, ⟨-, heq⟩ | ⟨href, hsingle, heq⟩ | ⟨length, href, hkind, hlength, heq⟩⟩
      · rw [heq] at h
        exact Or.inl h
      · rw [heq] at h
        exact Or.inl h
      · rw [heq] at h
        dsimp only at h
        rw [varyings_insert] at h
        split at h
        · next hkind =>
          rcases Table.mem_insert h with rfl | h
          · exact Or.inr ⟨e, rfl, hkind, href, Or.inl ⟨hsingle hkind, rfl⟩⟩
          · exact Or.inl h
        · exact Or.inl h
      · rw [heq] at h
        rcases mem_foldl_insertNew h with h | ⟨i, hi, rfl⟩
        · exact Or.inl h
        · exact Or.inr ⟨d, rfl, hkind, href,
            Or.inr ⟨length, i, hlength, List.mem_range.mp hi, rfl⟩⟩

/-- An entry of a table comes from its own declaration or from that of its array. -/
theorem mem_table_step {c : Classification} {s : Statement} {kind : DeclarationKind}
    {e : Declaration} (h : e ∈ ((c.step s).symbols.table kind).entries) :
    e ∈ (c.symbols.table kind).entries ∨
      ∃ d, s = .declare d ∧ (e = d ∨ ∃ index, e = element d index) := by
  by_cases hkind : kind = .varying
  · subst hkind
    refine (mem_varyings_step h).imp_right ?_
    rintro ⟨d, rfl, -, -, ⟨-, rfl⟩ | ⟨_, index, -, -, rfl⟩⟩
    · exact ⟨_, rfl, Or.inl rfl⟩
    · exact ⟨d, rfl, Or.inr ⟨index, rfl⟩⟩
  · cases s with
    | define d =>
        rw [step, (c.define_frame d).2.2.2.2] at h
        left
        cases kind <;> exact h
    | declare d =>
        rw [step] at h
        rcases c.declare_cases d with ⟨heq, -⟩ | ⟨-, ⟨-, heq⟩ | ⟨-, -, heq⟩ | ⟨_, -, -, -, heq⟩⟩
        · rw [heq] at h
          exact Or.inl h
        · rw [heq] at h
          exact Or.inl h
        · rw [heq] at h
          dsimp only at h
          rw [table_insert] at h
          split at h
          · rcases Table.mem_insert h with rfl | h
            · exact Or.inr ⟨_, rfl, Or.inl rfl⟩
            · exact Or.inl h
          · exact Or.inl h
        · rw [heq] at h
          left
          cases kind with
          | varying => exact absurd rfl hkind
          | _ => exact h

end Classification

theorem ShaderUnit.parse_eq_ok {source : String} {stage : Stage} {unit : ShaderUnit}
    (h : (ShaderUnit.parse source stage).1 = .ok unit) :
    ∃ text, entryBody? (normalize source) = some text ∧
      (statements (words (normalize source))).2 = none ∧
      ∃ c, c = (statements (words (normalize source))).1.foldl Classification.step
          (.start stage (Body.parse text).1 (Body.parse text).2) ∧
        unit = ⟨stage, normalize source, c.body, c.symbols, c.diagnostics⟩ := by
  unfold ShaderUnit.parse at h
  dsimp only at h
  split at h
  · cases h
  · next text htext =>
    split at h
    · cases h
    · next herror =>
      cases h
      exact ⟨text, entryBody_eq_ok_iff.mp htext, herror, _, rfl, rfl⟩

/-- What holds of the start and is kept by each statement holds of a stage that is read. -/
theorem ShaderUnit.parse_induction {P : Classification → Prop} {source : String} {stage : Stage}
    {unit : ShaderUnit} (h : (ShaderUnit.parse source stage).1 = .ok unit)
    (hstart : ∀ text, entryBody? (normalize source) = some text →
      P (.start stage (Body.parse text).1 (Body.parse text).2))
    (hstep : ∀ c s, s ∈ (statements (words (normalize source))).1 → P c → P (c.step s)) :
    ∃ c, P c ∧ unit = ⟨stage, normalize source, c.body, c.symbols, c.diagnostics⟩ := by
  obtain ⟨text, htext, -, c, rfl, hunit⟩ := ShaderUnit.parse_eq_ok h
  refine ⟨_, ?_, hunit⟩
  exact List.foldlRecOn _ _ (hstart text htext) fun c hc s hs => hstep c s hs hc

/-- The length of an array is from one to the largest supported one. -/
def ValidLength (length : Option Nat) : Prop := ∀ n, length = some n → 0 < n ∧ n ≤ maxArrayLength

theorem validLength_splitArray {cs : List Char} {name : String} {length : Option Nat}
    (h : splitArray cs = .ok (name, length)) : ValidLength length := by
  unfold splitArray at h
  dsimp only at h
  split at h
  · cases h
    intro n hn
    cases hn
  · split at h
    · split at h
      · next hbound =>
        cases h
        intro n hn
        cases hn
        exact hbound
      · cases h
    · cases h

/-- The statement is made from these words: from a type and a name with its length, or from the words
of a definition. -/
inductive MadeFrom (vs : List Word) : Statement → Prop
  | declare {storage : Storage} {type name : String} {cs : List Char} {n : Nat}
      {length : Option Nat} (htype : typeAndName? vs = some (type, cs, n))
      (hsplit : splitArray cs = .ok (name, length)) :
      MadeFrom vs (.declare ⟨storage.kind type, type, name, length⟩)
  | define {d : Define} (hdefine : defineOf vs = some d) : MadeFrom vs (.define d)

/-- A statement among the words of a source is made from some of them. -/
theorem exists_madeFrom_of_mem_statementsFrom {ws : List Word} {skipped : Nat} {s : Statement}
    (h : s ∈ (statementsFrom skipped ws).1) : ∃ vs ⊆ ws, MadeFrom vs s := by
  induction ws generalizing skipped with
  | nil => simp [statementsFrom] at h
  | cons w ws ih =>
      have hlater : ∀ {n : Nat}, s ∈ (statementsFrom n ws).1 → ∃ vs ⊆ w :: ws, MadeFrom vs s := by
        intro n h
        obtain ⟨vs, hvs, hmade⟩ := ih h
        exact ⟨vs, List.Subset.trans hvs (List.subset_cons_self w ws), hmade⟩
      cases skipped with
      | succ n => exact hlater h
      | zero =>
          rw [statementsFrom] at h
          dsimp only at h
          split at h
          · split at h
            · cases h
            · next htype =>
              split at h
              · cases h
              · next hsplit =>
                rcases List.mem_cons.mp h with rfl | h
                · exact ⟨ws, List.subset_cons_self w ws, .declare htype hsplit⟩
                · exact hlater h
          · split at h
            · split at h
              · next hdefine =>
                rcases List.mem_cons.mp h with rfl | h
                · refine ⟨_, ?_, .define hdefine⟩
                  exact List.Subset.trans (List.takeWhile_prefix _).subset
                    (List.subset_cons_self w ws)
                · exact hlater h
              · exact hlater h
            · exact hlater h

/-- A declaration among the words of a source has a valid length. -/
theorem validLength_of_mem_statementsFrom {ws : List Word} {skipped : Nat} {d : Declaration}
    (h : .declare d ∈ (statementsFrom skipped ws).1) : ValidLength d.arrayLength := by
  obtain ⟨vs, -, hmade⟩ := exists_madeFrom_of_mem_statementsFrom h
  cases hmade with
  | declare _ hsplit => exact validLength_splitArray hsplit

/-- A varying that is kept is never an array. -/
theorem arrayLength_of_mem_varyings {source : String} {stage : Stage} {unit : ShaderUnit}
    (h : (ShaderUnit.parse source stage).1 = .ok unit) {d : Declaration}
    (hd : d ∈ unit.symbols.varyings.entries) : d.arrayLength = none := by
  obtain ⟨c, hc, rfl⟩ := ShaderUnit.parse_induction
    (P := fun c => ∀ d ∈ c.symbols.varyings.entries, d.arrayLength = none) h
    (fun _ _ d hd => by cases hd)
    (fun c s _ hc d hd => by
      rcases Classification.mem_varyings_step hd with
        hd | ⟨e, -, -, -, ⟨hsingle, rfl⟩ | ⟨_, i, -, -, rfl⟩⟩
      · exact hc d hd
      · exact hsingle
      · rfl)
  exact hc d hd

/-- A declaration that is kept has a valid length, in whatever table it is. -/
theorem validLength_of_mem_table {source : String} {stage : Stage} {unit : ShaderUnit}
    (h : (ShaderUnit.parse source stage).1 = .ok unit) (kind : DeclarationKind) {d : Declaration}
    (hd : d ∈ (unit.symbols.table kind).entries) : ValidLength d.arrayLength := by
  obtain ⟨c, hc, rfl⟩ := ShaderUnit.parse_induction
    (P := fun c => ∀ d ∈ (c.symbols.table kind).entries, ValidLength d.arrayLength) h
    (fun _ _ d hd => by cases kind <;> cases hd)
    (fun c s hs hc d hd => by
      rcases Classification.mem_table_step hd with hd | ⟨e, rfl, rfl | ⟨_, rfl⟩⟩
      · exact hc d hd
      · exact validLength_of_mem_statementsFrom hs
      · nofun)
  exact hc d hd

theorem validLength_of_mem_uniforms {source : String} {stage : Stage} {unit : ShaderUnit}
    (h : (ShaderUnit.parse source stage).1 = .ok unit) {d : Declaration}
    (hd : d ∈ unit.symbols.uniforms.entries) : ValidLength d.arrayLength :=
  validLength_of_mem_table h .uniform hd

end ShaderUplift
