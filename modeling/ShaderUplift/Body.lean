import ShaderUplift.Notice
import ShaderUplift.Preprocessing.Stream
import ShaderUplift.Text.Numeral

/-! The body of an entry point as a list of tokens. Names are found and replaced on whole
identifiers; all other text is kept as it is. -/

namespace ShaderUplift

open Lexing Text

inductive BodyToken where
  /-- A name that stands on its own, such as `mvp` in `mvp * position`. -/
  | ident (name : String)
  /-- A name after a dot, such as `xy` in `uv.xy`. -/
  | field (name : String)
  /-- A number or a truth value. -/
  | number (text : String)
  | space (text : String)
  | punct (mark : Mark)
  /-- Anything else: keywords, operators, directives, and text after an error. -/
  | text (text : String)
  deriving DecidableEq, Repr

def BodyToken.chars : BodyToken → List Char
  | .ident s | .field s | .number s | .space s | .text s => s.toList
  | .punct m => [m.char]

structure Body where
  tokens : List BodyToken
  deriving DecidableEq, Repr

namespace Body

/-- The token for text that the lexer passes over. -/
def gap (cs : List Char) : List BodyToken :=
  if cs.isEmpty then []
  else if allBlank cs then [.space (String.ofList cs)]
  else [.text (String.ofList cs)]

/-- The token for a reading whose text is `cs`. -/
def tokenOf (kind : TokenClass) (afterDot : Bool) (cs : List Char) : BodyToken :=
  match kind with
  | .identifier => if afterDot then .field (String.ofList cs) else .ident (String.ofList cs)
  | .number => .number (String.ofList cs)
  | .mark m => .punct m
  | .other => .text (String.ofList cs)

/-- Lays the readings over the text `rest` that follows the first `last` characters of the body.
A reading that starts before `last` is passed over. Gives the tokens and the end of the last
reading that counts. -/
def assemble (last : Nat) (afterDot : Bool) (rest : List Char) :
    List Preprocessing.Reading → List BodyToken × Nat
  | [] => (gap rest, last)
  | r :: rs =>
    if r.start < last then assemble last afterDot rest rs
    else
      let skipped := r.start - last
      let length := r.stop - r.start
      let tail := rest.drop skipped
      let (tokens, stop) := assemble r.stop (r.kind = .mark .dot) (tail.drop length) rs
      (gap (rest.take skipped) ++ tokenOf r.kind afterDot (tail.take length) :: tokens, stop)

/-- Reads the text of a body; an error in it leaves the rest as one text token and is remarked
on. -/
def parse (text : String) : Body × List Notice :=
  let cs := text.toList
  let stream := Preprocessing.stream cs
  let (tokens, last) := assemble 0 false cs stream.readings
  (⟨tokens⟩, if stream.complete then [] else [.bodyCutShort (utf8Length (cs.take last))])

def toText (b : Body) : String := String.ofList (b.tokens.flatMap BodyToken.chars)

/-- The name occurs as a whole identifier that is not a field. -/
def references (b : Body) (name : String) : Bool := b.tokens.contains (.ident name)

def isSpace : BodyToken → Bool
  | .space _ => true
  | _ => false

def skipSpace (ts : List BodyToken) : List BodyToken := ts.dropWhile isSpace

/-- The index of `[ index ]`, when the tokens start with a constant one, and the tokens after it. -/
def constantIndex? (ts : List BodyToken) : Option (Nat × List BodyToken) :=
  match skipSpace ts with
  | .punct .openBracket :: ts =>
    match skipSpace ts with
    | .number n :: ts =>
      match skipSpace ts with
      | .punct .closeBracket :: rest => (word32? n.toList).map fun index => (index, rest)
      | _ => none
    | _ => none
  | _ => none

/-- The name of an element of an array that is split into separate variables. -/
def elementName (array : String) (index : Nat) : String := array ++ "_" ++ toString index

/-- The access at the start of the tokens after the name of an array of `length` elements: its
index, and the number of tokens it takes up. -/
def access? (length : Nat) (ts : List BodyToken) : Option (Nat × Nat) :=
  match constantIndex? ts with
  | some (index, rest) => if index < length then some (index, ts.length - rest.length) else none
  | none => none

/-- Replaces accesses with a constant index by element names, after the first `skipped` tokens, and
remarks on every use of the array that stays. -/
def expandFrom (array : String) (length : Nat) (skipped : Nat) :
    List BodyToken → List BodyToken × List Notice
  | [] => ([], [])
  | t :: ts =>
    match skipped with
    | n + 1 => expandFrom array length n ts
    | 0 =>
      if t = .ident array then
        match access? length ts with
        | some (index, n) =>
          let (tokens, notices) := expandFrom array length n ts
          (.ident (elementName array index) :: tokens, notices)
        | none =>
          let (tokens, notices) := expandFrom array length 0 ts
          (t :: tokens, .accessNotConstant array :: notices)
      else
        let (tokens, notices) := expandFrom array length 0 ts
        (t :: tokens, notices)

/-- Replaces `array[index]` by the name of the element for each constant index below `length`. -/
def expandIndexed (b : Body) (array : String) (length : Nat) : Body × List Notice :=
  let (tokens, notices) := expandFrom array length 0 b.tokens
  (⟨tokens⟩, notices)

/-- The new name of `name`; of two pairs for one name the last counts. -/
def renamed (pairs : List (String × String)) (name : String) : String :=
  (pairs.reverse.lookup name).getD name

def renameToken (pairs : List (String × String)) : BodyToken → BodyToken
  | .ident name => .ident (renamed pairs name)
  | t => t

/-- Replaces all identifiers at once, so a new name is never replaced again. -/
def rename (b : Body) (pairs : List (String × String)) : Body :=
  ⟨b.tokens.map (renameToken pairs)⟩

end Body

end ShaderUplift
