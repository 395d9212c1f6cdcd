import ShaderUplift.Error
import ShaderUplift.Text.Blank

/-! The entry point of a source text: the word `void`, the name `main`, an empty parameter list and
a body in balanced braces. The first `main` that reads so is the entry point; one whose brace is
never closed is passed over. -/

namespace ShaderUplift.Source

open Text

def entryName : List Char := ['m', 'a', 'i', 'n']

def voidWord : List Char := ['v', 'o', 'i', 'd']

/-- The text, given in reverse, ends in the word `void` and perhaps blanks. -/
def endsInVoid (before : List Char) : Bool :=
  match after? voidWord.reverse (trimStart before) with
  | some rest => !startsWith isWordChar rest
  | none => false

/-- Skips the word `void`, and blanks after it, inside a parameter list. -/
def skipVoid (cs : List Char) : List Char :=
  match after? voidWord cs with
  | some rest => if startsWith isWordChar rest then cs else trimStart rest
  | none => cs

/-- The text after an empty parameter list and an opening brace. -/
def afterSignature (cs : List Char) : Option (List Char) :=
  (after? ['('] (trimStart cs)).bind fun inside =>
    (after? [')'] (skipVoid (trimStart inside))).bind fun rest =>
      after? ['\x7b'] (trimStart rest)

/-- The text before the brace that closes `depth + 1` open ones. -/
def balanced : Nat → List Char → Option (List Char)
  | _, [] => none
  | depth, '\x7b' :: cs => (balanced (depth + 1) cs).map ('\x7b' :: ·)
  | 0, '\x7d' :: _ => some []
  | depth + 1, '\x7d' :: cs => (balanced depth cs).map ('\x7d' :: ·)
  | depth, c :: cs => (balanced depth cs).map (c :: ·)

/-- The body when the text after `before` is an entry point from its name on. -/
def bodyAt (before cs : List Char) : Option (List Char) :=
  (after? entryName cs).bind fun rest =>
    if endsInVoid before && !startsWith isWordChar rest then
      (afterSignature rest).bind (balanced 0)
    else none

/-- Looks for the entry point from `cs` on; `before` is the text before it in reverse. -/
def findBody (before : List Char) : List Char → Option (List Char)
  | [] => none
  | c :: cs =>
    match bodyAt before (c :: cs) with
    | some body => some body
    | none => findBody (c :: before) cs

/-- The text between the braces of the entry point. -/
def entryBody? (source : String) : Option String :=
  (findBody [] source.toList).map String.ofList

/-- The text between the braces of the entry point of a stage, which must have one. -/
def entryBody (source : String) (stage : Stage) : Except ConversionError String :=
  match entryBody? source with
  | some text => .ok text
  | none => .error (.entryPointMissing stage)

theorem entryBody_eq_ok_iff {source text : String} {stage : Stage} :
    entryBody source stage = .ok text ↔ entryBody? source = some text := by
  unfold entryBody
  split <;> simp_all

theorem entryBody_of_none {source : String} (h : entryBody? source = none) (stage : Stage) :
    entryBody source stage = .error (.entryPointMissing stage) := by
  rw [entryBody, h]

end ShaderUplift.Source
