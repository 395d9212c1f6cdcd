import ShaderUplift.Proofs.Comments.Replacement

/-! The declarations and definitions of a stage open no comment. A word is a part of the source
without comments; types, names and the head of a definition are parts of words, a value is made of
words with a space between them, and the name of an element goes on with an underscore. -/

namespace ShaderUplift

open Source Text

namespace Source

/-- The texts are parts of `cs`, and the first of them is its start. -/
def StartingParts (cs : List Char) (parts : List (List Char)) : Prop :=
  (∀ p ∈ parts.head?, p <+: cs) ∧ ∀ p ∈ parts, p <:+: cs

theorem startingParts_nil (cs : List Char) : StartingParts cs [] := by
  constructor
  · intro p hp
    cases hp
  · intro p hp
    cases hp

theorem startingParts_cons {cs first : List Char} {rest : List (List Char)} (hfirst : first <+: cs)
    (hrest : ∀ p ∈ rest, p <:+: cs) : StartingParts cs (first :: rest) := by
  refine ⟨fun p hp => ?_, List.forall_mem_cons.mpr ⟨hfirst.isInfix, hrest⟩⟩
  cases hp
  exact hfirst

theorem startingParts_lines (cs : List Char) : StartingParts cs (lines cs) := by
  fun_induction lines cs with
  | case1 => exact startingParts_nil []
  | case2 cs ih =>
      exact startingParts_cons List.nil_prefix fun l hl => List.infix_cons (ih.2 l hl)
  | case3 c cs hc hnil ih =>
      exact startingParts_cons (List.prefix_append [c] cs) (startingParts_nil _).2
  | case4 c cs hc l ls hlines ih =>
      rw [hlines] at ih
      refine startingParts_cons (List.cons_prefix_cons.mpr ⟨rfl, ih.1 l rfl⟩) fun m hm => ?_
      exact List.infix_cons (ih.2 m (List.mem_cons_of_mem l hm))

/-- The first run is the start of a text only if that is not blank. -/
theorem parts_runs (cs : List Char) :
    (startsWith (fun d => !isBlank d) cs = true → StartingParts cs (runs cs)) ∧
      ∀ r ∈ runs cs, r <:+: cs := by
  fun_induction runs cs with
  | case1 => exact ⟨fun _ => startingParts_nil [], (startingParts_nil []).2⟩
  | case2 c cs hblank ih =>
      refine ⟨fun hstart => ?_, fun r hr => List.infix_cons (ih.2 r hr)⟩
      simp [startsWith, hblank] at hstart
  | case3 c cs hc hgoes hnil ih =>
      have hparts : StartingParts (c :: cs) [[c]] :=
        startingParts_cons (List.prefix_append [c] cs) (startingParts_nil _).2
      exact ⟨fun _ => hparts, hparts.2⟩
  | case4 c cs hc hgoes r rs hruns ih =>
      rw [hruns] at ih
      have hparts : StartingParts (c :: cs) ((c :: r) :: rs) := by
        refine startingParts_cons (List.cons_prefix_cons.mpr ⟨rfl, ?_⟩) fun s hs => ?_
        · exact (ih.1 hgoes).1 r rfl
        · exact List.infix_cons (ih.2 s (List.mem_cons_of_mem r hs))
      exact ⟨fun _ => hparts, hparts.2⟩
  | case5 c cs hc hends ih =>
      have hparts : StartingParts (c :: cs) ([c] :: runs cs) :=
        startingParts_cons (List.prefix_append [c] cs) fun s hs => List.infix_cons (ih.2 s hs)
      exact ⟨fun _ => hparts, hparts.2⟩

/-- A word of the source without its comments opens none. -/
theorem commentFree_of_mem_words {source : String} {w : Word} (h : w ∈ words (normalize source)) :
    CommentFree w.text.toList := by
  obtain ⟨⟨l, i⟩, hl, hw⟩ := List.mem_flatMap.mp h
  obtain ⟨r, hr, rfl⟩ := List.mem_map.mp hw
  have hline : l <:+: (normalize source).toList :=
    (startingParts_lines _).2 l (List.fst_mem_of_mem_zipIdx hl)
  have hrun : r <:+: l := (parts_runs l).2 r hr
  rw [String.toList_ofList]
  exact List.IsChain.infix (commentFree_normalize source) (hrun.trans hline)

theorem commentFree_intercalate {ws : List (List Char)} (h : ∀ w ∈ ws, CommentFree w) :
    CommentFree ([' '].intercalate ws) := by
  induction ws with
  | nil => exact List.IsChain.nil
  | cons w ws ih =>
      obtain ⟨hw, hws⟩ := List.forall_mem_cons.mp h
      cases ws with
      | nil => simpa using hw
      | cons v vs =>
          rw [List.intercalate_cons_cons, List.append_assoc]
          exact hw.append_between (by decide) (List.cons_ne_nil _ _) (ih hws)

end Source

/-- The type and the name of the declaration open no comment. -/
structure Declaration.Uncommented (d : Declaration) : Prop where
  type : CommentFree d.type.toList
  name : CommentFree d.name.toList

/-- The head and the value of the definition open no comment. -/
structure Define.Uncommented (d : Define) : Prop where
  head : CommentFree (d.name ++ d.parameters.getD "").toList
  value : CommentFree d.value.toList

def Statement.Uncommented : Statement → Prop
  | .declare d => d.Uncommented
  | .define d => d.Uncommented

structure Symbols.Uncommented (symbols : Symbols) : Prop where
  tables : ∀ kind, ∀ d ∈ (symbols.table kind).entries, d.Uncommented
  defines : ∀ d ∈ symbols.defines.entries, d.Uncommented

theorem typeAndName?_eq_some {ws : List Word} {type : String} {name : List Char} {n : Nat}
    (h : typeAndName? ws = some (type, name, n)) :
    (∃ w ∈ ws, w.text = type) ∧ ∃ w ∈ ws, name <+: w.text.toList := by
  unfold typeAndName? at h
  dsimp only at h
  split at h
  · next first second rest hdrop =>
    cases h
    have hmem : ∀ w ∈ first :: second :: rest, w ∈ ws := fun w hw =>
      List.mem_of_mem_drop (hdrop ▸ hw)
    refine ⟨⟨first, hmem _ List.mem_cons_self, rfl⟩, second, hmem _ (by simp), ?_⟩
    have htrim := List.dropWhile_suffix (· == ';') (l := second.text.toList.reverse)
    rwa [← List.reverse_prefix, List.reverse_reverse] at htrim
  · cases h

theorem isPrefix_of_splitArray {cs : List Char} {name : String} {length : Option Nat}
    (h : splitArray cs = .ok (name, length)) : name.toList <+: cs := by
  have hname : name = String.ofList (cs.takeWhile (· != '[')) := by
    unfold splitArray at h
    dsimp only at h
    split at h
    · cases h
      rfl
    · split at h
      · split at h
        · cases h
          rfl
        · cases h
      · cases h
  rw [hname, String.toList_ofList]
  exact List.takeWhile_prefix _

/-- The first word of a line is divided into name and parameters without a loss. -/
theorem defineOf_cons {w : Word} {ws : List Word} {d : Define} (h : defineOf (w :: ws) = some d) :
    d.name ++ d.parameters.getD "" = w.text ∧ d.value = " ".intercalate (ws.map Word.text) := by
  cases h
  refine ⟨String.toList_inj.mp ?_, rfl⟩
  have hword : w.text.toList.takeWhile (· != '(') ++ w.text.toList.dropWhile (· != '(') =
      w.text.toList := List.takeWhile_append_dropWhile
  rw [String.toList_append, String.toList_ofList]
  refine (congrArg _ ?_).trans hword
  dsimp only
  split
  · next hempty =>
    rw [List.isEmpty_iff.mp hempty]
    rfl
  · rw [Option.getD_some, String.toList_ofList]

theorem uncommented_of_defineOf {ws : List Word} (hws : ∀ w ∈ ws, CommentFree w.text.toList)
    {d : Define} (h : defineOf ws = some d) : d.Uncommented := by
  cases ws with
  | nil => cases h
  | cons w ws =>
      obtain ⟨hw, hws⟩ := List.forall_mem_cons.mp hws
      obtain ⟨hhead, hvalue⟩ := defineOf_cons h
      constructor
      · rw [hhead]
        exact hw
      · rw [hvalue, String.toList_intercalate, List.map_map]
        refine commentFree_intercalate fun cs hcs => ?_
        obtain ⟨v, hv, rfl⟩ := List.mem_map.mp hcs
        exact hws v hv

theorem uncommented_of_mem_statementsFrom {ws : List Word}
    (hws : ∀ w ∈ ws, CommentFree w.text.toList) {skipped : Nat} {s : Statement}
    (h : s ∈ (statementsFrom skipped ws).1) : s.Uncommented := by
  obtain ⟨vs, hvs, hmade⟩ := exists_madeFrom_of_mem_statementsFrom h
  cases hmade with
  | declare htype hsplit =>
      obtain ⟨⟨v, hv, rfl⟩, u, hu, hprefix⟩ := typeAndName?_eq_some htype
      have hname := (isPrefix_of_splitArray hsplit).trans hprefix
      exact ⟨hws v (hvs hv), List.IsChain.infix (hws u (hvs hu)) hname.isInfix⟩
  | define hdefine => exact uncommented_of_defineOf (fun v hv => hws v (hvs hv)) hdefine

theorem Declaration.Uncommented.element {d : Declaration} (h : d.Uncommented) (index : Nat) :
    (Classification.element d index).Uncommented := by
  refine ⟨h.type, ?_⟩
  have hname : (Classification.element d index).name.toList =
      d.name.toList ++ (['_'] ++ (toString index).toList) := by
    simp [Classification.element, Body.elementName]
  rw [hname]
  exact h.name.append_noComment (NoComment.append (by decide) (noComment_toString index))

namespace Classification

theorem mem_defines_step {c : Classification} {s : Statement} {e : Define}
    (h : e ∈ (c.step s).symbols.defines.entries) :
    e ∈ c.symbols.defines.entries ∨ s = .define e := by
  cases s with
  | declare d =>
      left
      rw [step] at h
      rcases c.declare_cases d with ⟨heq, -⟩ | ⟨-, ⟨-, heq⟩ | ⟨-, -, heq⟩ | ⟨_, -, -, -, heq⟩⟩
      · rwa [heq] at h
      · rwa [heq] at h
      · rw [heq] at h
        cases hkind : d.kind <;> simpa [Symbols.insert, hkind] using h
      · rwa [heq] at h
  | define d =>
      rw [step, define] at h
      split at h
      · exact Or.inl h
      · split at h
        · exact Or.inl h
        · split at h
          · rcases Table.mem_insert h with rfl | h
            · exact Or.inr rfl
            · exact Or.inl h
          · exact Or.inl h

theorem uncommented_symbols_step {c : Classification} (h : c.symbols.Uncommented) {s : Statement}
    (hs : s.Uncommented) : (c.step s).symbols.Uncommented := by
  constructor
  · intro kind e he
    rcases mem_table_step he with he | ⟨d, rfl, rfl | ⟨index, rfl⟩⟩
    · exact h.tables kind e he
    · exact hs
    · exact Declaration.Uncommented.element hs index
  · intro e he
    rcases mem_defines_step he with he | rfl
    · exact h.defines e he
    · exact hs

end Classification

theorem Symbols.uncommented_empty : Symbols.empty.Uncommented := by
  constructor
  · intro kind d hd
    cases kind <;> cases hd
  · intro d hd
    cases hd

theorem uncommented_symbols_of_parse {source : String} {stage : Stage} {unit : ShaderUnit}
    (h : (ShaderUnit.parse source stage).1 = .ok unit) : unit.symbols.Uncommented := by
  obtain ⟨c, hc, rfl⟩ := ShaderUnit.parse_induction (P := fun c => c.symbols.Uncommented) h
    (fun _ _ => Symbols.uncommented_empty)
    (fun c s hs hc => Classification.uncommented_symbols_step hc
      (uncommented_of_mem_statementsFrom (fun w hw => commentFree_of_mem_words hw) hs))
  exact hc

end ShaderUplift
