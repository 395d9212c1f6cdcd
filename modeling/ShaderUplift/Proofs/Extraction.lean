import ShaderUplift.Proofs.Comments.Replacement
import ShaderUplift.Proofs.Source.Braces

/-! The entry point of a converted stage, read again. A body comes out of the braces of its source,
so its text is balanced. Replacing accesses and names changes no brace, so the converted body is
found again when reading the body has lost no brace. One can be lost only in the invocation of a
macro that is written as a mark. -/

namespace ShaderUplift

open Lexing Preprocessing Source Text

instance (p : Part) : Decidable p.Faithful :=
  inferInstanceAs (Decidable (p.token.chars = p.text))

namespace Source

theorem braces_append (xs ys : List Char) : braces (xs ++ ys) = braces xs ++ braces ys :=
  List.filter_append ..

theorem braces_cons_of_not {c : Char} (h : isBrace c = false) (cs : List Char) :
    braces (c :: cs) = braces cs :=
  List.filter_cons_of_neg (by simp [h])

theorem braces_eq_nil_iff {cs : List Char} : braces cs = [] ↔ ∀ c ∈ cs, isBrace c = false := by
  simp [braces, List.filter_eq_nil_iff]

theorem braces_flatMap {α : Type} (f : α → List Char) (as : List α) :
    braces (as.flatMap f) = as.flatMap fun a => braces (f a) :=
  List.filter_flatMap ..

theorem braces_flatMap_congr {α : Type} {f g : α → List Char} {as : List α}
    (h : ∀ a ∈ as, braces (f a) = braces (g a)) :
    braces (as.flatMap f) = braces (as.flatMap g) := by
  rw [braces_flatMap, braces_flatMap]
  exact congrArg List.flatten (List.map_congr_left h)

/-- A text of one class of characters, to which the braces do not belong. -/
theorem braces_of_all {p : Char → Bool} (hopen : p '\x7b' = false) (hclose : p '\x7d' = false)
    {cs : List Char} (h : ∀ c ∈ cs, p c = true) : braces cs = [] := by
  rw [braces_eq_nil_iff]
  intro c hc
  have hne : c ≠ '\x7b' ∧ c ≠ '\x7d' := by
    constructor
    · rintro rfl
      exact absurd (h _ hc) (by simp [hopen])
    · rintro rfl
      exact absurd (h _ hc) (by simp [hclose])
  simp [isBrace, hne]

theorem braces_of_allBlank {cs : List Char} (h : allBlank cs = true) : braces cs = [] :=
  braces_of_all (by decide) (by decide) (List.all_eq_true.mp h)

theorem braces_toString (n : Nat) : braces (toString n).toList = [] := by
  refine braces_of_all (p := Char.isDigit) (by decide) (by decide) fun c hc => ?_
  rw [Nat.toString_eq_ofList_toDigits, String.toList_ofList] at hc
  exact Nat.isDigit_of_mem_toDigits (by decide) (by decide) hc

theorem braces_of_isWord {name : String} (h : isWord name = true) : braces name.toList = [] :=
  braces_of_all (by decide) (by decide) (List.all_eq_true.mp (isWord_iff.mp h).2)

/-- A numeral is a run of digits behind an optional plus. -/
theorem braces_of_word32? {cs : List Char} (h : (word32? cs).isSome = true) : braces cs = [] := by
  obtain ⟨n, hn⟩ := Option.isSome_iff_exists.mp h
  have hdigits := (word32?_eq_some_iff.mp hn).1
  have hrun : braces (unsignedDigits cs) = [] := by
    rw [isDigits, Bool.and_eq_true] at hdigits
    exact braces_of_all (by decide) (by decide) (List.all_eq_true.mp hdigits.2)
  unfold unsignedDigits at hrun
  split at hrun
  · rw [braces_cons_of_not (by decide)]
    exact hrun
  · exact hrun

end Source

namespace Body

/-- No space of the body hides a brace. -/
def SpacesPlain (ts : List BodyToken) : Prop := ∀ s, .space s ∈ ts → braces s.toList = []

theorem spacesPlain_gap (cs : List Char) : SpacesPlain (gap cs) := by
  intro s hs
  unfold gap at hs
  split at hs
  · cases hs
  · split at hs
    · next hblank =>
      cases List.mem_singleton.mp hs
      rw [String.toList_ofList]
      exact braces_of_allBlank hblank
    · cases List.mem_singleton.mp hs

theorem spacesPlain_assemble (last : Nat) (afterDot : Bool) (rest : List Char)
    (rs : List Reading) : SpacesPlain (assemble last afterDot rest rs).1 := by
  induction rs generalizing last afterDot rest with
  | nil => exact spacesPlain_gap rest
  | cons r rs ih =>
      rw [assemble]
      split
      · exact ih last afterDot rest
      · intro s hs
        simp only [List.mem_append, List.mem_cons] at hs
        rcases hs with hs | hs | hs
        · exact spacesPlain_gap _ s hs
        · cases hkind : r.kind <;> simp [tokenOf, hkind] at hs
          split at hs <;> cases hs
        · exact ih _ _ _ s hs

/-- No brace stands between the name of an array and the bracket that closes its index. -/
theorem braces_index {ts : List BodyToken} (hspaces : SpacesPlain ts)
    (h : ∀ t ∈ ts, IsIndexPart t) : braces (ts.flatMap BodyToken.chars) = [] := by
  rw [braces_flatMap, List.flatMap_eq_nil_iff]
  intro t ht
  rcases h t ht with hspace | rfl | ⟨n, rfl, hnumber⟩
  · cases t <;> simp [isSpace] at hspace
    exact hspaces _ ht
  · rfl
  · exact braces_of_word32? hnumber

theorem braces_elementName (array : String) (index : Nat) :
    braces (elementName array index).toList = braces array.toList := by
  rw [elementName, String.toList_append, String.toList_append, braces_append, braces_append,
    braces_toString]
  exact (List.append_nil _).trans (List.append_nil _)

/-- Replacing the accesses to an array changes no brace. -/
theorem Expanded.braces_eq {array : String} {length : Nat} {ts us : List BodyToken}
    (h : Expanded array length ts us) (hspaces : SpacesPlain ts) :
    SpacesPlain us ∧
      braces (us.flatMap BodyToken.chars) = braces (ts.flatMap BodyToken.chars) := by
  induction h with
  | nil => exact ⟨hspaces, rfl⟩
  | access hgroup _ ih =>
      obtain ⟨before, rfl, hparts⟩ := hgroup.split
      obtain ⟨hrest, hsame⟩ := ih fun s hs => hspaces s (List.mem_append_right _ hs)
      have hbefore : SpacesPlain before := fun s hs => hspaces s (by simp [hs])
      refine ⟨fun s hs => hrest s ((List.mem_cons.mp hs).resolve_left nofun), ?_⟩
      have haccess : braces ((.ident array :: (before ++ [.punct .closeBracket])).flatMap
          BodyToken.chars) = braces array.toList := by
        rw [List.flatMap_cons, List.flatMap_append, braces_append, braces_append,
          braces_index hbefore hparts]
        exact List.append_nil _
      rw [List.flatMap_cons, List.flatMap_append, braces_append, braces_append, hsame, haccess]
      exact congrArg (· ++ _) (braces_elementName _ _)
  | kept _ _ ih =>
      obtain ⟨hrest, hsame⟩ := ih fun s hs => hspaces s (List.mem_cons_of_mem _ hs)
      refine ⟨fun s hs => ?_, ?_⟩
      · rcases List.mem_cons.mp hs with rfl | hs
        · exact hspaces s List.mem_cons_self
        · exact hrest s hs
      · rw [List.flatMap_cons, List.flatMap_cons, braces_append, braces_append, hsame]

theorem braces_renamed (stage : Stage) (fields : List Field) (strategy : Strategy)
    (name : String) :
    braces (renamed (newNames stage fields strategy.accessor) name).toList =
      braces name.toList := by
  rw [renamed_newNames]
  split
  · next new hnew =>
    have hboth : ∀ p ∈ fragmentBuiltins, braces p.2.toList = braces p.1.toList := by decide
    exact hboth (name, new) (mem_fragmentBuiltins hnew)
  · split
    · rw [String.toList_append, String.toList_append, braces_append, braces_append,
        braces_of_isWord (isWord_accessor strategy)]
      rfl
    · rfl

/-- New names change no brace. -/
theorem braces_qualify (b : Body) (stage : Stage) (fields : List Field) (strategy : Strategy) :
    braces (b.qualify stage fields strategy.accessor).toText.toList = braces b.toText.toList := by
  rw [toList_toText, toList_toText, qualify, rename, List.flatMap_map]
  refine braces_flatMap_congr fun t _ => ?_
  cases t with
  | ident name => exact braces_renamed stage fields strategy name
  | field | number | space | punct | text => rfl

theorem braces_mark {body : List Char} {p : Part} (h : p.MarksInvocation body) :
    braces p.token.chars = [] := by
  obtain ⟨m, hm, -⟩ := h
  rw [hm]
  cases m <;> rfl

/-- Reading a body loses the braces of the invocations that are written as a mark, and no other. -/
theorem braces_parts {body : List Char} {parts : List Part}
    (hparts : ∀ p ∈ parts, p.Faithful ∨ p.MarksInvocation body) :
    braces (parts.flatMap fun p => p.token.chars) =
      braces ((parts.filter fun p => decide p.Faithful).flatMap Part.text) := by
  induction parts with
  | nil => rfl
  | cons p parts ih =>
      obtain ⟨hp, hparts⟩ := List.forall_mem_cons.mp hparts
      rw [List.flatMap_cons, braces_append, ih hparts]
      by_cases hfaithful : p.Faithful
      · have hchars : p.token.chars = p.text := hfaithful
        rw [List.filter_cons_of_pos (by simpa using hfaithful), List.flatMap_cons, braces_append,
          hchars]
      · rw [List.filter_cons_of_neg (by simpa using hfaithful),
          braces_mark (hp.resolve_left hfaithful), List.nil_append]

end Body

/-- The body of a stage has the braces that its text is left with when it is read. -/
theorem braces_of_parse {source : String} {stage : Stage} {unit : ShaderUnit}
    (h : (ShaderUnit.parse source stage).1 = .ok unit) :
    ∃ text, entryBody? (normalize source) = some text ∧
      braces unit.body.toText.toList = braces (Body.parse text).1.toText.toList := by
  obtain ⟨c, ⟨text, htext, -, hsame⟩, rfl⟩ := ShaderUnit.parse_induction
    (P := fun c => ∃ text, entryBody? (normalize source) = some text ∧
      Body.SpacesPlain c.body.tokens ∧
      braces c.body.toText.toList = braces (Body.parse text).1.toText.toList) h
    (fun text htext => ⟨text, htext, Body.spacesPlain_assemble _ _ _ _, rfl⟩)
    (by
      rintro c s - ⟨text, htext, hspaces, hsame⟩
      refine ⟨text, htext, ?_⟩
      rcases c.body_step s with heq | ⟨a, length, -, -, heq⟩
      · rw [heq]
        exact ⟨hspaces, hsame⟩
      · obtain ⟨hspaces', hbraces⟩ :=
          (Body.expanded_expandFrom a.name length c.body.tokens).braces_eq hspaces
        rw [heq, ← hsame, Body.toList_toText, Body.toList_toText]
        exact ⟨hspaces', hbraces⟩)
  exact ⟨text, htext, hsame⟩

/-- The body is what is found in the entry point that is written for it. -/
def ReadBack (b : Body) : Prop := entryBody? (entryPointText b) = some b.toText

instance (b : Body) : Decidable (ReadBack b) :=
  inferInstanceAs (Decidable (entryBody? (entryPointText b) = some b.toText))

theorem readBack_iff {b : Body} : ReadBack b ↔ Balanced b.toText.toList := by
  have hchars : (entryPointText b).toList = entryPointChars b.toText.toList := by
    rw [entryPointText, String.toList_append, String.toList_append]
    rfl
  rw [ReadBack, entryBody?, hchars, Option.map_eq_some_iff, ← findBody_entryPointChars]
  constructor
  · rintro ⟨body, hbody, heq⟩
    rw [hbody, ← heq, String.toList_ofList]
  · intro hbody
    exact ⟨_, hbody, String.ofList_toList⟩

theorem balanced_entryBody {source text : String} (h : entryBody? source = some text) :
    Balanced text.toList := by
  obtain ⟨body, hbody, rfl⟩ := Option.map_eq_some_iff.mp h
  rw [String.toList_ofList]
  exact balanced_of_findBody hbody

/-- The entry point of a converted stage gives its body back exactly when the text of the body is
balanced without the invocations that are written as a mark. So it does when no such invocation has
a brace in it, and whenever the body defines no macro. -/
theorem ShaderUnit.entryPoint_read_back {source : String} {stage : Stage} {unit : ShaderUnit}
    (h : (ShaderUnit.parse source stage).1 = .ok unit) (fields : List Field)
    (strategy : Strategy) :
    ∃ (text : String) (parts : List Part), entryBody? (normalize source) = some text ∧
      (Body.parse text).1.tokens = parts.map Part.token ∧
      parts.flatMap Part.text = text.toList ∧
      (∀ p ∈ parts, p.Faithful ∨ p.MarksInvocation text.toList) ∧
      (ReadBack (unit.body.qualify stage fields strategy.accessor) ↔
        Balanced ((parts.filter fun p => decide p.Faithful).flatMap Part.text)) ∧
      ((∀ p ∈ parts, p.MarksInvocation text.toList → braces p.text = []) →
        ReadBack (unit.body.qualify stage fields strategy.accessor)) ∧
      (definedNames text.toList = [] →
        ReadBack (unit.body.qualify stage fields strategy.accessor)) := by
  obtain ⟨text, htext, hsame⟩ := braces_of_parse h
  obtain ⟨parts, htokens, hwhole, hparts⟩ := Body.parse_parts text
  have hchars : braces (unit.body.qualify stage fields strategy.accessor).toText.toList =
      braces (parts.flatMap fun p => p.token.chars) := by
    rw [Body.braces_qualify, hsame, Body.toList_toText, htokens, List.flatMap_map]
  have hiff := readBack_iff.trans (balanced_congr (hchars.trans (Body.braces_parts hparts)))
  have hnone : (∀ p ∈ parts, p.MarksInvocation text.toList → braces p.text = []) →
      ReadBack (unit.body.qualify stage fields strategy.accessor) := by
    intro hlost
    have hkept : braces (parts.flatMap fun p => p.token.chars) = braces text.toList := by
      rw [← hwhole]
      refine braces_flatMap_congr fun p hp => ?_
      rcases hparts p hp with hfaithful | hmark
      · exact congrArg braces hfaithful
      · rw [Body.braces_mark hmark, hlost p hp hmark]
    exact readBack_iff.mpr ((balanced_congr (hchars.trans hkept)).mpr (balanced_entryBody htext))
  refine ⟨text, parts, htext, htokens, hwhole, hparts, hiff, hnone, fun hdefined => ?_⟩
  refine hnone ?_
  rintro p - ⟨m, -, l, -, -, hname, -⟩
  rw [hdefined] at hname
  cases hname

/-- A stage with nested braces and an array that is divided. -/
def bracedSource : String :=
  "uniform vec4 t;\nvarying vec2 w[2];\nvoid main()\x7bif(t)\x7bw[1];\x7d\x7d"

/-- The offset of the only uniform. -/
def bracedField : Field := ⟨"t", .vec4, none, 0⟩

theorem bracedSource_read_back :
    ∃ unit, (ShaderUnit.parse bracedSource .vertex).1 = .ok unit ∧
      bracedField.name ∈ unit.symbols.uniforms.names ∧
      ReadBack (unit.body.qualify .vertex [bracedField] Strategy.pushConstant.accessor) := by
  have hok : ((ShaderUnit.parse bracedSource .vertex).1.toOption.any fun unit =>
      bracedField.name ∈ unit.symbols.uniforms.names) = true := by
    decide +kernel
  have hnone : ((entryBody? (normalize bracedSource)).all fun text =>
      definedNames text.toList = []) = true := by
    decide +kernel
  obtain ⟨unit, hunit, hname⟩ := exists_ok_of_any hok
  obtain ⟨text, _, htext, -, -, -, -, -, hread⟩ :=
    ShaderUnit.entryPoint_read_back hunit [bracedField] .pushConstant
  rw [htext] at hnone
  exact ⟨unit, hunit, of_decide_eq_true hname, hread (of_decide_eq_true hnone)⟩

/-- A stage whose body has a brace in the argument of a macro for a dot. -/
def dottedSource : String := "void main()\x7b\n#define F(x) .\nF(\x7b)\x7d\x7d"

/-- The brace is lost, so the last brace of the body closes its entry point. -/
theorem lost_brace_not_read_back :
    ∃ unit, (ShaderUnit.parse dottedSource .vertex).1 = .ok unit ∧
      unit.body.toText = "\n#define F(x) .\n.\x7d" ∧
      entryBody? (entryPointText (unit.body.qualify .vertex [] Strategy.pushConstant.accessor)) =
        some "\n#define F(x) .\n." ∧
      ¬ReadBack (unit.body.qualify .vertex [] Strategy.pushConstant.accessor) := by
  have hok : ((ShaderUnit.parse dottedSource .vertex).1.toOption.any fun unit =>
      unit.body.toText = "\n#define F(x) .\n.\x7d" ∧
      entryBody? (entryPointText (unit.body.qualify .vertex [] Strategy.pushConstant.accessor)) =
        some "\n#define F(x) .\n." ∧
      ¬ReadBack (unit.body.qualify .vertex [] Strategy.pushConstant.accessor)) = true := by
    decide +kernel
  obtain ⟨unit, hunit, hfacts⟩ := exists_ok_of_any hok
  exact ⟨unit, hunit, of_decide_eq_true hfacts⟩

end ShaderUplift
