import ShaderUplift.Preprocessing.Condition

/-! Directives and the state they change: the macros in force and the conditional groups that are
open. A directive in a group that is masked does nothing, except that conditionals nest. -/

namespace ShaderUplift.Preprocessing

open Lexing

/-- An open conditional. -/
structure Frame where
  /-- The text around the conditional is read. -/
  enclosing : Bool
  /-- The text of the current group is read. -/
  active : Bool
  /-- Some group so far was read. -/
  taken : Bool
  /-- The last group has begun. -/
  last : Bool
  deriving DecidableEq, Repr

structure State where
  macros : Macros
  /-- Open conditionals, innermost first. -/
  frames : List Frame

namespace State

def initial : State := ⟨.initial, []⟩

/-- The text here is read and not masked. -/
def active (s : State) : Bool := s.frames.head?.all Frame.active

def openGroup (s : State) (holds : Bool) : State :=
  let active := s.active && holds
  { s with frames := ⟨s.active, active, active, false⟩ :: s.frames }

end State

/-- The names of a parameter list after its opening bracket, and the tokens after the list. -/
def parameterList : List Token → Option (List String × List Token)
  | .word w :: .symbol "," :: ts => (parameterList ts).map fun (ws, rest) => (w :: ws, rest)
  | .word w :: .symbol ")" :: ts => some ([w], ts)
  | _ => none

/-- The macro that a definition gives; an opening bracket right after the name starts a parameter
list. -/
def definition? : List Located → Option Macro
  | ⟨.word name, _, stop⟩ :: rest =>
    if isProtected name then none
    else
      match rest with
      | ⟨.symbol "(", start, _⟩ :: inside =>
        if start = stop then
          match inside.map Located.token with
          | .symbol ")" :: body => some ⟨name, some [], body⟩
          | ts => (parameterList ts).map fun (ws, body) => ⟨name, some ws, body⟩
        else some ⟨name, none, rest.map Located.token⟩
      | _ => some ⟨name, none, rest.map Located.token⟩
  | _ => none

def behaviours : List String := ["require", "enable", "warn", "disable"]

/-- The extension is known, and a switch for all of them only warns or disables. -/
def isExtensionSwitch : List Token → Bool
  | [.word name, .symbol ":", .word behaviour] =>
    if name = "all" then behaviour = "warn" || behaviour = "disable"
    else extensionNames.contains name && behaviours.contains behaviour
  | _ => false

def isInteger : Token → Bool
  | .number n => !isFloatShaped n.toList && (integer? n.toList).isSome
  | _ => false

/-- A line number and perhaps a source number. -/
def isLineNumber (ts : List Token) : Bool :=
  (ts.length = 1 || ts.length = 2) && ts.all isInteger

def profiles : List String := ["core", "compatibility", "es"]

/-- A version number and perhaps a profile. -/
def isVersion : List Token → Bool
  | [n] => isInteger n
  | [n, .word profile] => isInteger n && profiles.contains profile
  | _ => false

/-- Runs a directive that is no conditional, in text that is read. -/
def State.runPlain (s : State) (word : String) (operands : List Located) : Option State :=
  let ts := operands.map Located.token
  match word with
  | "define" => (definition? operands).map fun m => { s with macros := s.macros.define m }
  | "undef" =>
    match ts with
    | [.word name] =>
      if isProtected name then none else some { s with macros := s.macros.undefine name }
    | _ => none
  | "pragma" => some s
  | "line" => if isLineNumber (expand s.macros ts) then some s else none
  | "version" => if isVersion ts then some s else none
  | "extension" => if isExtensionSwitch ts then some s else none
  | _ => none

/-- Opens a conditional; its condition is looked at only in text that is read. -/
def State.beginIf? (s : State) (condition : Option Bool) : Option State :=
  if s.active then condition.map s.openGroup else some (s.openGroup false)

def isDefined? (macros : Macros) : List Token → Option Bool
  | [.word name] => some (macros.contains name)
  | _ => none

/-- Begins the next group of the innermost conditional. A condition that holds makes it active even
after an active group. -/
def State.beginElseIf? (s : State) (condition : Option Bool) : Option State :=
  match s.frames with
  | [] => none
  | f :: fs =>
    if f.last then none
    else if f.enclosing then
      condition.map fun holds =>
        { s with frames := { f with active := holds, taken := f.taken || holds } :: fs }
    else some s

/-- Begins the last group of the innermost conditional. -/
def State.beginElse? (s : State) (bare : Bool) : Option State :=
  match s.frames with
  | [] => none
  | f :: fs =>
    if f.last || (f.active && !bare) then none
    else
      some { s with
        frames := { f with active := f.enclosing && !f.taken, last := true } :: fs }

def State.endIf? (s : State) (bare : Bool) : Option State :=
  match s.frames with
  | [] => none
  | f :: fs => if f.active && !bare then none else some { s with frames := fs }

/-- Runs a directive on the zero-based line `line`, given the tokens after its hash; none when it
is an error. -/
def State.run? (s : State) (line : Nat) (ts : List Located) : Option State :=
  let macros := { s.macros with line := line }
  match ts with
  | [] => some s
  | ⟨.word word, _, _⟩ :: operands =>
    let rest := operands.map Located.token
    match word with
    | "if" => s.beginIf? (holds? macros rest)
    | "ifdef" => s.beginIf? (isDefined? macros rest)
    | "ifndef" => s.beginIf? ((isDefined? macros rest).map not)
    | "elif" => s.beginElseIf? (holds? macros rest)
    | "else" => s.beginElse? rest.isEmpty
    | "endif" => s.endIf? rest.isEmpty
    | _ => if s.active then s.runPlain word operands else some s
  | _ => if s.active then none else some s

end ShaderUplift.Preprocessing
