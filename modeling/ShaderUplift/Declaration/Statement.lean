import ShaderUplift.Declaration.Basic
import ShaderUplift.Error
import ShaderUplift.Source.Words
import ShaderUplift.Text.Numeral

/-! Declarations and definitions as they are found among the words of a source. A storage qualifier
is followed by an optional precision, a type and a name; a definition takes the words of its own
line. Everything else is passed over, so no grammar of the language is needed. -/

namespace ShaderUplift

open Source Text

/-- Precision qualifiers, and macros used in their place. -/
def precisionQualifiers : List String :=
  ["lowp", "mediump", "highp", "PRECISION_LOW", "PRECISION_MEDIUM", "PRECISION_HIGH",
   "PLATFORM_PRECISION"]

/-- Uniform types that are bound as combined image samplers. -/
def samplerTypes : List String :=
  ["sampler1D", "sampler2D", "sampler3D", "samplerCube", "sampler2DShadow", "samplerCubeShadow",
   "sampler2DArray"]

def maxArrayLength : Nat := 4096

inductive Statement where
  | declare (d : Declaration)
  | define (d : Define)
  deriving DecidableEq, Repr

inductive Storage where
  | attribute
  | uniform
  | varying
  deriving DecidableEq, Repr

def Storage.ofWord? : String → Option Storage
  | "attribute" => some .attribute
  | "uniform" => some .uniform
  | "varying" => some .varying
  | _ => none

/-- The kind of a declaration with this storage qualifier and type. -/
def Storage.kind (s : Storage) (type : String) : DeclarationKind :=
  match s with
  | .attribute => .attribute
  | .uniform => if samplerTypes.contains type then .sampler else .uniform
  | .varying => .varying

/-- The type and the name after a storage qualifier, the name without trailing semicolons, and the
number of words they take up. -/
def typeAndName? (ws : List Word) : Option (String × List Char × Nat) :=
  let precision := if ws.head?.any fun w => precisionQualifiers.contains w.text then 1 else 0
  match ws.drop precision with
  | type :: name :: _ => some (type.text, trimEndOf ';' name.text.toList, precision + 2)
  | _ => none

/-- Divides `name[length]` into the name and the length, which is from 1 to `maxArrayLength`. -/
def splitArray (cs : List Char) : Except ConversionError (String × Option Nat) :=
  let base := String.ofList (cs.takeWhile (· != '['))
  match cs.dropWhile (· != '[') with
  | [] => .ok (base, none)
  | _ :: rest =>
    let length := trimEndOf ']' rest
    match word32? length with
    | some n =>
      if 0 < n ∧ n ≤ maxArrayLength then .ok (base, some n)
      else .error (.invalidArrayLength base (String.ofList length))
    | none => .error (.invalidArrayLength base (String.ofList length))

/-- The definition made by the words after `#define` on its line. -/
def defineOf : List Word → Option Define
  | [] => none
  | head :: value =>
    let cs := head.text.toList
    let parameters := cs.dropWhile (· != '(')
    some
      { name := String.ofList (cs.takeWhile (· != '('))
        parameters := if parameters.isEmpty then none else some (String.ofList parameters)
        value := " ".intercalate (value.map Word.text) }

/-- The statements among the words after the first `skipped`, up to the end or to a declaration with
an invalid length. -/
def statementsFrom (skipped : Nat) : List Word → List Statement × Option ConversionError
  | [] => ([], none)
  | w :: ws =>
    match skipped with
    | n + 1 => statementsFrom n ws
    | 0 =>
      match Storage.ofWord? w.text with
      | some storage =>
        match typeAndName? ws with
        | none => ([], none)
        | some (type, name, n) =>
          match splitArray name with
          | .error e => ([], some e)
          | .ok (name, length) =>
            let (rest, e) := statementsFrom n ws
            (.declare ⟨storage.kind type, type, name, length⟩ :: rest, e)
      | none =>
        if w.text = "#define" then
          let line := ws.takeWhile fun v => v.line == w.line
          let (rest, e) := statementsFrom line.length ws
          match defineOf line with
          | some d => (.define d :: rest, e)
          | none => (rest, e)
        else statementsFrom 0 ws

/-- The statements of a source, and the error at which they end early. -/
def statements (ws : List Word) : List Statement × Option ConversionError := statementsFrom 0 ws

end ShaderUplift
