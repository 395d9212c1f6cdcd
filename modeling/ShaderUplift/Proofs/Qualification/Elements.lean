import ShaderUplift.Proofs.Declared
import ShaderUplift.Proofs.Expansion
import ShaderUplift.Proofs.Qualification.Tidy

/-! Names of array elements in tidy bodies. No word of the language ends in an index, so the name of
an element is an identifier, and replacing accesses by such names keeps a body tidy through the
whole classification of a stage. -/

namespace ShaderUplift

open Lexing Preprocessing Source Text

/-- The words that a body without macros of its own does not read as identifiers. -/
def vocabulary : List String :=
  reservedWords ++ truthValues ++ keywords ++ typeNames ++ builtinNames ++
    "GL_core_profile" :: extensionNames

theorem read_of_not_mem_vocabulary {w : String} (h : w ∉ vocabulary) :
    (bareToken (.word w)).classify? = some .identifier := by
  simp only [vocabulary, List.mem_append, List.mem_cons, not_or] at h
  obtain ⟨⟨⟨⟨⟨hreserved, htruth⟩, hkeyword⟩, htype⟩, hbuiltin⟩, hcore, hextension⟩ := h
  simp only [builtinNames, List.mem_cons, List.not_mem_nil, or_false, not_or] at hbuiltin
  have hnone : builtin? 0 w = none := by
    simp [builtin?, hbuiltin.1, hbuiltin.2.1, hbuiltin.2.2, hcore, hextension]
  simp [bareToken, hnone, Token.classify?, hreserved, htruth, hkeyword, htype]

/-! ### Words that end in an index

The test reads the bytes of a word, which evaluate much faster than its characters. -/

def bytesOf (w : String) : List UInt8 := w.toByteArray.data.toList

def isDigitByte (b : UInt8) : Bool := 48 ≤ b && b ≤ 57

/-- The word ends in an underscore and digits. -/
def endsInIndex (w : String) : Bool :=
  (bytesOf w).reverse.head?.any isDigitByte &&
    ((bytesOf w).reverse.dropWhile isDigitByte).head? == some 95

theorem not_endsInIndex_of_mem_vocabulary {w : String} (h : w ∈ vocabulary) :
    endsInIndex w = false := by
  revert w
  decide +kernel

theorem bytesOf_append (a b : String) : bytesOf (a ++ b) = bytesOf a ++ bytesOf b := by
  simp [bytesOf]

theorem bytesOf_ofList_cons {c : Char} (h : c.isDigit = true) (cs : List Char) :
    ∃ b, isDigitByte b = true ∧
      bytesOf (String.ofList (c :: cs)) = b :: bytesOf (String.ofList cs) := by
  simp only [Char.isDigit, Bool.and_eq_true, decide_eq_true_eq, ge_iff_le, UInt32.le_iff_toNat_le]
    at h
  have hbounds : 48 ≤ c.val.toNat ∧ c.val.toNat ≤ 57 := h
  have hsize : c.utf8Size = 1 := by
    rw [Char.utf8Size_eq_one_iff, UInt32.le_iff_toNat_le]
    exact hbounds.2.trans (by decide)
  refine ⟨c.val.toUInt8, ?_, ?_⟩
  · have hbyte : c.val.toUInt8.toNat = c.val.toNat := by
      rw [UInt32.toNat_toUInt8, Nat.mod_eq_of_lt (by omega)]
    simp only [isDigitByte, Bool.and_eq_true, decide_eq_true_eq, UInt8.le_iff_toNat_le, hbyte]
    exact hbounds
  · simp only [bytesOf, String.toByteArray_ofList]
    rw [List.utf8Encode_cons, List.utf8Encode_singleton, String.utf8EncodeChar_eq_singleton hsize]
    simp

theorem bytesOf_digits {cs : List Char} (h : ∀ c ∈ cs, c.isDigit = true) :
    (bytesOf (String.ofList cs)).length = cs.length ∧
      ∀ b ∈ bytesOf (String.ofList cs), isDigitByte b = true := by
  induction cs with
  | nil => exact ⟨rfl, nofun⟩
  | cons c cs ih =>
      obtain ⟨hlength, hdigits⟩ := ih fun d hd => h d (List.mem_cons_of_mem _ hd)
      obtain ⟨b, hb, hbytes⟩ := bytesOf_ofList_cons (h c List.mem_cons_self) cs
      rw [hbytes]
      exact ⟨congrArg (· + 1) hlength, List.forall_mem_cons.mpr ⟨hb, hdigits⟩⟩

theorem endsInIndex_elementName (array : String) (index : Nat) :
    endsInIndex (Body.elementName array index) = true := by
  have hchars : ∀ c ∈ Nat.toDigits 10 index, c.isDigit = true :=
    fun c hc => Nat.isDigit_of_mem_toDigits (by decide) (by decide) hc
  obtain ⟨hlength, hdigits⟩ := bytesOf_digits hchars
  rw [← Nat.toString_eq_ofList_toDigits] at hlength hdigits
  have hbytes : (bytesOf (Body.elementName array index)).reverse =
      (bytesOf (toString index)).reverse ++ 95 :: (bytesOf array).reverse := by
    rw [Body.elementName, bytesOf_append, bytesOf_append, List.reverse_append, List.reverse_append]
    rfl
  have hne : (bytesOf (toString index)).reverse ≠ [] := by
    rw [← List.length_pos_iff, List.length_reverse, hlength]
    exact Nat.length_toDigits_pos
  obtain ⟨b, bs, hcons⟩ := List.exists_cons_of_ne_nil hne
  have hb : isDigitByte b = true :=
    hdigits b (List.mem_reverse.mp (by rw [hcons]; exact List.mem_cons_self))
  have hdrop : ((bytesOf (toString index)).reverse ++ 95 :: (bytesOf array).reverse).dropWhile
      isDigitByte = 95 :: (bytesOf array).reverse := by
    rw [List.dropWhile_append_of_pos fun b hb => hdigits b (List.mem_reverse.mp hb)]
    rfl
  rw [endsInIndex, hbytes, hdrop, hcons]
  simpa using hb

theorem Identifier.elementName {array : String} (h : Identifier array) (index : Nat) :
    Identifier (Body.elementName array index) := by
  have hdigits : ∀ c ∈ (toString index).toList, isWordChar c = true := by
    intro c hc
    rw [Nat.toString_eq_ofList_toDigits, String.toList_ofList] at hc
    have hdigit := Nat.isDigit_of_mem_toDigits (by decide) (by decide) hc
    simp [isWordChar, Char.isAlphanum, hdigit]
  have hsplit : (Body.elementName array index).toList =
      array.toList ++ ('_' :: (toString index).toList) := by
    simp [Body.elementName]
  refine ⟨?_, ?_, ?_⟩
  · rw [hsplit]
    have hstart := h.start
    cases harray : array.toList with
    | nil =>
        rw [harray] at hstart
        cases hstart
    | cons c cs =>
        rw [harray] at hstart
        exact hstart
  · rw [hsplit, List.all_append, h.chars, List.all_cons, List.all_eq_true.mpr hdigits]
    rfl
  · refine read_of_not_mem_vocabulary fun hmem => ?_
    have hindex := endsInIndex_elementName array index
    rw [not_endsInIndex_of_mem_vocabulary hmem] at hindex
    cases hindex

theorem Tidy.of_append {xs ys : List BodyToken} {afterDot : Bool} (h : Tidy afterDot (xs ++ ys)) :
    ∃ afterDot', Tidy afterDot' ys := by
  induction xs generalizing afterDot with
  | nil => exact ⟨afterDot, h⟩
  | cons t xs ih => exact ih h.2

theorem Tidy.identifier {ts : List BodyToken} {afterDot : Bool} (h : Tidy afterDot ts)
    {name : String} (hname : .ident name ∈ ts) : Identifier name := by
  induction ts generalizing afterDot with
  | nil => cases hname
  | cons t ts ih =>
      rcases List.mem_cons.mp hname with rfl | hname
      · exact h.1.1
      · exact ih h.2 hname

theorem Tidy.startsWith_expanded {array : String} {length : Nat} {ts us : List BodyToken}
    {afterDot : Bool} (h : Tidy afterDot ts) (hexpanded : Body.Expanded array length ts us) :
    startsWith isWordChar (us.flatMap BodyToken.chars) =
      startsWith isWordChar (ts.flatMap BodyToken.chars) := by
  induction hexpanded generalizing afterDot with
  | nil => rfl
  | @access index _ _ _ hgroup _ _ =>
      obtain ⟨before, rfl, -⟩ := hgroup.split
      have helement := startsWith_of_isWord (h.1.1.elementName index).isWord
      exact (helement _).trans (startsWith_of_isWord h.1.1.isWord _).symm
  | @kept t _ _ _ _ ih =>
      rw [List.flatMap_cons, List.flatMap_cons]
      exact startsWith_append_congr (ih h.2) t.chars

/-- Of the text after a token only its first character matters. -/
theorem TidyToken.congr {afterDot : Bool} {after after' : List Char} {t : BodyToken}
    (h : TidyToken afterDot after t)
    (hafter : startsWith isWordChar after' = startsWith isWordChar after) :
    TidyToken afterDot after' t := by
  have hother : ∀ {w}, OtherWord w after → OtherWord w after' :=
    fun hw => ⟨hw.isWord, hw.read, hafter.trans hw.stop⟩
  cases t with
  | ident name => exact ⟨h.1, hafter.trans h.2⟩
  | field name => exact h
  | number text => exact Or.imp_right hother h
  | space text => exact h
  | punct mark => exact fun hmark => hafter.trans (h hmark)
  | text text => exact Or.imp_right hother h

theorem Tidy.expanded {array : String} {length : Nat} {ts us : List BodyToken} {afterDot : Bool}
    (h : Tidy afterDot ts) (hexpanded : Body.Expanded array length ts us) : Tidy afterDot us := by
  induction hexpanded generalizing afterDot with
  | nil => trivial
  | access hgroup hrest ih =>
      obtain ⟨before, rfl, -⟩ := hgroup.split
      rw [List.cons_append, List.append_assoc] at h
      obtain ⟨_, hbracket, hts⟩ := h.2.of_append
      refine ⟨⟨h.1.1.elementName _, ?_⟩, ih hts⟩
      rw [hts.startsWith_expanded hrest]
      exact hbracket rfl
  | kept _ hrest ih => exact ⟨h.1.congr (h.2.startsWith_expanded hrest), ih h.2⟩

/-- The body is tidy, and every uniform that is kept has an identifier for its name. -/
structure Classification.IsTidy (c : Classification) : Prop where
  body : Tidy false c.body.tokens
  uniforms : ∀ d ∈ c.symbols.uniforms.entries, Identifier d.name

theorem Classification.IsTidy.step {c : Classification} (h : c.IsTidy) (s : Statement) :
    (c.step s).IsTidy := by
  constructor
  · rcases c.body_step s with heq | ⟨a, length, -, -, heq⟩
    · rw [heq]
      exact h.body
    · rw [heq]
      exact h.body.expanded (Body.expanded_expandFrom a.name length c.body.tokens)
  · intro d hd
    rcases Classification.mem_uniforms_step hd with hd | ⟨-, -, href⟩
    · exact h.uniforms d hd
    · exact h.body.identifier (List.contains_iff_mem.mp href)

/-- A stage whose entry point has a plain body is tidy. -/
theorem isTidy_of_parse {source : String} {stage : Stage} {unit : ShaderUnit}
    (h : (ShaderUnit.parse source stage).1 = .ok unit)
    (hplain : ∀ text, entryBody? (normalize source) = some text → PlainBody text) :
    Tidy false unit.body.tokens ∧ ∀ d ∈ unit.symbols.uniforms.entries, Identifier d.name := by
  obtain ⟨c, hc, rfl⟩ := ShaderUnit.parse_induction (P := Classification.IsTidy) h
    (fun text htext => ⟨tidy_parse (hplain text htext) (commentFree_entryBody htext), nofun⟩)
    (fun c s _ hc => hc.step s)
  exact ⟨hc.body, hc.uniforms⟩

end ShaderUplift
