import ShaderUplift.Lexing.Token
import ShaderUplift.Table

/-! Macros and the expansion of token lists. A macro is not expanded inside its own expansion. A
macro with parameters is expanded when a bracketed argument list follows its name in the same list;
without one the name stands for itself, and at the end of the list it is an error. -/

namespace ShaderUplift.Preprocessing

open Lexing

structure Macro where
  name : String
  /-- Absent for a macro that takes no argument list. -/
  parameters : Option (List String)
  body : List Token
  deriving DecidableEq, Repr

instance : Named Macro := ⟨Macro.name⟩

/-- A macro without parameters for one number. -/
def numberMacro (name : String) (value : Nat) : Macro :=
  ⟨name, none, [.number (toString value)]⟩

/-- The version of the language that a body announces for itself. -/
def languageVersion : Nat := 110

def builtinNames : List String := ["__LINE__", "__FILE__", "__VERSION__"]

/-- The name begins like those that the language keeps for itself. -/
def isLanguageName (name : String) : Bool := ['G', 'L', '_'].isPrefixOf name.toList

/-- A name that a body may neither define nor undefine. -/
def isProtected (name : String) : Bool := builtinNames.contains name || isLanguageName name

/-- The value of a macro that is defined from the start, on a zero-based line. -/
def builtin? (line : Nat) (name : String) : Option Nat :=
  match name with
  | "__LINE__" => some (line + 1)
  | "__FILE__" => some 0
  | "__VERSION__" => some languageVersion
  | _ =>
    if isLanguageName name && (name = "GL_core_profile" || extensionNames.contains name) then some 1
    else none

/-- The macros in force on a line of a body. -/
structure Macros where
  /-- The zero-based line. -/
  line : Nat
  /-- The macros that the body defines itself. -/
  defined : Table Macro

namespace Macros

def initial : Macros := ⟨0, .empty⟩

def get? (ms : Macros) (name : String) : Option Macro :=
  match ms.defined.get? name with
  | some m => some m
  | none => (builtin? ms.line name).map (numberMacro name)

def contains (ms : Macros) (name : String) : Bool := (ms.get? name).isSome

def define (ms : Macros) (m : Macro) : Macros := { ms with defined := ms.defined.insert m }

def undefine (ms : Macros) (name : String) : Macros :=
  { ms with defined := ms.defined.erase name }

end Macros

/-- Splits the tokens after an opening bracket at its top-level commas, up to the bracket that
closes it; gives the arguments and the tokens after the list. `depth` counts brackets open inside
the list, and `current` is the argument read so far. -/
def arguments (depth : Nat) (current : List Token) :
    List Token → Option (List (List Token) × List Token)
  | [] => none
  | t :: ts =>
    if t = .symbol "(" then arguments (depth + 1) (current ++ [t]) ts
    else if t = .symbol ")" then
      match depth with
      | 0 => some ([current], ts)
      | d + 1 => arguments d (current ++ [t]) ts
    else if t = .symbol "," ∧ depth = 0 then
      (arguments 0 [] ts).map fun (args, rest) => (current :: args, rest)
    else arguments depth (current ++ [t]) ts

/-- What follows the name of a macro with parameters. -/
inductive Call where
  /-- Some other token than an opening bracket. -/
  | absent
  /-- The tokens end before the list opens or closes. -/
  | broken
  | call (args : List (List Token)) (rest : List Token)
  deriving Repr

def callAt : List Token → Call
  | [] => .broken
  | .symbol "(" :: ts =>
    match arguments 0 [] ts with
    | some (args, rest) => .call args rest
    | none => .broken
  | _ => .absent

/-- The arguments for the parameters; a single empty argument also serves a macro without any. -/
def matchArity (parameters : List String) (args : List (List Token)) : Option (List (List Token)) :=
  if parameters.length = args.length then some args
  else if parameters = [] ∧ args = [[]] then some []
  else none

/-- The body with arguments for parameters: as written next to the paste operator, and expanded
elsewhere. -/
def substitute (parameters : List String) (written expanded : List (List Token))
    (afterPaste : Bool) : List Token → List Token
  | [] => []
  | t :: ts =>
    let args := if afterPaste || ts.head? = some .paste then written else expanded
    let here :=
      match t with
      | .word w => (parameters.idxOf? w).elim [t] fun i => args.getD i []
      | _ => [t]
    here ++ substitute parameters written expanded (t = .paste) ts

/-- The token spelled by two neighbours of the paste operator. -/
def glue : Token → Token → Token
  | .word a, .word b => .word (a ++ b)
  | .word a, .number b => if b.toList.all Text.isWordChar then .word (a ++ b) else .invalid
  | .number a, .number b => .number (a ++ b)
  | .number a, .word b => .number (a ++ b)
  | .symbol a, .symbol b => if symbols.contains (a ++ b) then .symbol (a ++ b) else .invalid
  | _, _ => .invalid

def pasteFrom (first : Token) : List Token → List Token
  | [] => [first]
  | .paste :: t :: ts => pasteFrom (glue first t) ts
  | t :: ts => first :: pasteFrom t ts

def pasted : List Token → List Token
  | [] => []
  | t :: ts => pasteFrom t ts

/-- Expands a list of at most `fuel` tokens; `rescan` expands what a macro is replaced by, given the
macros that are hidden in it. -/
def expandWith (macros : Macros) (rescan : List String → List Token → List Token)
    (hidden : List String) : Nat → List Token → List Token
  | 0, ts => ts
  | _, [] => []
  | fuel + 1, t :: ts =>
    match t with
    | .word w =>
      match if hidden.contains w then none else macros.get? w with
      | none => t :: expandWith macros rescan hidden fuel ts
      | some m =>
        match m.parameters with
        | none => rescan (w :: hidden) (pasted m.body) ++ expandWith macros rescan hidden fuel ts
        | some parameters =>
          match callAt ts with
          | .absent => t :: expandWith macros rescan hidden fuel ts
          | .broken => [.invalid]
          | .call args rest =>
            match matchArity parameters args with
            | none => [.invalid]
            | some args =>
              let expanded := args.map (expandWith macros rescan hidden fuel)
              rescan (w :: hidden) (pasted (substitute parameters args expanded false m.body)) ++
                expandWith macros rescan hidden fuel rest
    | _ => t :: expandWith macros rescan hidden fuel ts

/-- Expands through `depth` levels of macros. -/
def expandTo (macros : Macros) : Nat → List String → List Token → List Token
  | 0, _, ts => ts
  | depth + 1, hidden, ts => expandWith macros (expandTo macros depth) hidden (ts.length + 1) ts

/-- The tokens with all macros expanded; an error in an expansion is an invalid token in its place.
Every level hides one more macro of the body, and what is built in expands to a number, so the
levels suffice. -/
def expand (macros : Macros) (ts : List Token) : List Token :=
  expandTo macros (macros.defined.size + 2) [] ts

end ShaderUplift.Preprocessing
