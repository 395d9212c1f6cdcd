import ShaderUplift.Lexing.Lexeme
import ShaderUplift.Lexing.Literal
import ShaderUplift.Lexing.Vocabulary

/-! Tokens: lexemes without blanks and line ends, as directives and macros handle them, and what
a token is for a reader of the body. -/

namespace ShaderUplift.Lexing

inductive Token where
  | word (text : String)
  | number (text : String)
  | symbol (text : String)
  /-- The operator that glues its two neighbours in the text of a macro. -/
  | paste
  | invalid
  deriving DecidableEq, Repr

/-- The token of a lexeme; a separator has none. -/
def Lexeme.token? (l : Lexeme) : Option Token :=
  match l.kind with
  | .blank | .newline => none
  | .word => some (.word (String.ofList l.cooked))
  | .number => some (.number (String.ofList l.cooked))
  | .symbol => some (.symbol (String.ofList l.cooked))
  | .doubleHash => some .paste
  | .hash | .invalid => some .invalid

/-- The marks that matter to member and element access. -/
inductive Mark where
  | dot
  | openBracket
  | closeBracket
  deriving DecidableEq, Repr

def Mark.char : Mark → Char
  | .dot => '.'
  | .openBracket => '['
  | .closeBracket => ']'

inductive TokenClass where
  | identifier
  | number
  | mark (m : Mark)
  | other
  deriving DecidableEq, Repr

/-- What a token is for a reader of the body; a reserved word, a malformed number and an invalid
token are nothing. -/
def Token.classify? : Token → Option TokenClass
  | .word w =>
    if reservedWords.contains w then none
    else if truthValues.contains w then some .number
    else if keywords.contains w || typeNames.contains w then some .other
    else some .identifier
  | .number n => if isLiteral n.toList then some .number else none
  | .symbol "." => some (.mark .dot)
  | .symbol "[" => some (.mark .openBracket)
  | .symbol "]" => some (.mark .closeBracket)
  | .symbol _ => some .other
  | .paste | .invalid => none

/-- A token with the characters of the body it stands for, from `start` up to `stop`. -/
structure Located where
  token : Token
  start : Nat
  stop : Nat
  deriving DecidableEq, Repr

end ShaderUplift.Lexing
