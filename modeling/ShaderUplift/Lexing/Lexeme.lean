import ShaderUplift.Lexing.Glyph
import ShaderUplift.Lexing.Literal
import ShaderUplift.Text.Blank

/-! The division of a body into lexemes, before any directive or macro is looked at. Every glyph is
in exactly one lexeme, so the lexemes in order spell the body. -/

namespace ShaderUplift.Lexing

open Text

inductive LexemeKind where
  /-- Spaces, comments and splices: nothing but a separator inside a line. -/
  | blank
  | newline
  | word
  | number
  | symbol
  | hash
  | doubleHash
  | invalid
  deriving DecidableEq, Repr

structure Lexeme where
  kind : LexemeKind
  glyphs : List Glyph
  deriving DecidableEq, Repr

namespace Lexeme

/-- The text of the lexeme as it stands in the body. -/
def raw (l : Lexeme) : List Char := l.glyphs.flatMap Glyph.raw

/-- The text of the lexeme without splices. -/
def cooked (l : Lexeme) : List Char := l.glyphs.flatMap Glyph.cooked

def lineEnds (l : Lexeme) : Nat := l.glyphs.countP Glyph.endsLine

end Lexeme

/-- Operators and brackets, longer ones first. -/
def symbols : List String :=
  ["<<=", ">>=", "++", "--", "+=", "-=", "*=", "/=", "%=", "<<", ">>", "<=", ">=", "==", "!=",
   "&&", "||", "^^", "&=", "|=", "^=", ".", "+", "-", "/", "*", "%", "<", ">", "[", "]", "(", ")",
   "\x7b", "\x7d", "^", "|", "&", "~", "=", "!", ":", ";", ",", "?"]

/-- The number of glyphs that continue a word. -/
def wordTail : List Glyph → Nat
  | .splice _ :: gs => 1 + wordTail gs
  | .char c :: gs => if isWordChar c then 1 + wordTail gs else 0
  | _ => 0

def isSign (c : Char) : Bool := c == '+' || c == '-'

/-- The number of glyphs that continue a number; a sign belongs to it right after an exponent
mark. -/
def numberTail (afterMark : Bool) : List Glyph → Nat
  | .splice _ :: gs => 1 + numberTail afterMark gs
  | .char c :: gs =>
    if c.isAlphanum || c == '.' || (afterMark && isSign c) then
      1 + numberTail (isExponentMark c) gs
    else 0
  | _ => 0

/-- The number of glyphs up to the end of a block comment, which is included. -/
def blockTail : List Glyph → Option Nat
  | [] => none
  | .char '*' :: .char '/' :: _ => some 2
  | _ :: gs => (blockTail gs).map (1 + ·)

/-- The number of glyphs up to a closing double quote on the same line, which is included. -/
def stringTail : List Glyph → Nat
  | [] => 0
  | .newline _ :: _ => 0
  | .char '"' :: _ => 1
  | _ :: gs => 1 + stringTail gs

/-- A word or number of `n + 1` glyphs; a backslash right after it makes it invalid. -/
def unlessBackslash (kind : LexemeKind) (n : Nat) (rest : List Glyph) : LexemeKind × Nat :=
  if (rest.drop n).head? = some (.char '\\') then (.invalid, n + 1) else (kind, n)

/-- The kind of the lexeme that starts with the character `c`, and the number of glyphs after `c`
that belong to it. -/
def charShape (c : Char) (rest : List Glyph) : LexemeKind × Nat :=
  let next := (plainChars (rest.take 2)).head?
  if c == ' ' || c == '\t' || c == '\x0c' then (.blank, 0)
  else if isWordStart c then unlessBackslash .word (wordTail rest) rest
  else if c.isDigit || (c == '.' && next.any Char.isDigit) then
    unlessBackslash .number (numberTail false rest) rest
  else if c == '/' && next == some '/' then
    (.blank, (rest.takeWhile fun g => !g.isNewline).length)
  else if c == '/' && next == some '*' then
    match blockTail (rest.drop 1) with
    | some n => (.blank, n + 1)
    | none => (.invalid, rest.length)
  else if c == '#' then
    if next == some '#' then (.doubleHash, 1) else (.hash, 0)
  else if c == '"' then (.invalid, stringTail rest)
  else
    match symbols.find? fun s => s.toList.isPrefixOf (c :: plainChars (rest.take 2)) with
    | some s => (.symbol, s.length - 1)
    | none => (.invalid, 0)

def shape : Glyph → List Glyph → LexemeKind × Nat
  | .newline _, _ => (.newline, 0)
  | .splice _, _ => (.blank, 0)
  | .char c, rest => charShape c rest

/-- The lexemes after the first `skipped` glyphs. -/
def lexemesFrom (skipped : Nat) : List Glyph → List Lexeme
  | [] => []
  | g :: gs =>
    match skipped with
    | n + 1 => lexemesFrom n gs
    | 0 =>
      match shape g gs with
      | (kind, n) => ⟨kind, g :: gs.take n⟩ :: lexemesFrom n gs

theorem lexemesFrom_eq_drop (n : Nat) (gs : List Glyph) :
    lexemesFrom n gs = lexemesFrom 0 (gs.drop n) := by
  induction gs generalizing n with
  | nil => simp [lexemesFrom]
  | cons g gs ih =>
    cases n with
    | zero => rfl
    | succ n => simpa [lexemesFrom] using ih n

/-- The lexemes spell the glyphs they were cut from. -/
theorem flatMap_glyphs_lexemesFrom (n : Nat) (gs : List Glyph) :
    (lexemesFrom n gs).flatMap Lexeme.glyphs = gs.drop n := by
  induction gs generalizing n with
  | nil => simp [lexemesFrom]
  | cons g gs ih =>
    cases n with
    | zero => simp [lexemesFrom, ih]
    | succ n => simpa [lexemesFrom] using ih n

theorem flatMap_raw_lexemesFrom (gs : List Glyph) :
    (lexemesFrom 0 gs).flatMap Lexeme.raw = gs.flatMap Glyph.raw := by
  calc (lexemesFrom 0 gs).flatMap Lexeme.raw
      = ((lexemesFrom 0 gs).flatMap Lexeme.glyphs).flatMap Glyph.raw := by
        rw [List.flatMap_assoc]; rfl
    _ = gs.flatMap Glyph.raw := by rw [flatMap_glyphs_lexemesFrom, List.drop_zero]

def lexemes (cs : List Char) : List Lexeme := lexemesFrom 0 (glyphs cs)

theorem flatMap_raw_lexemes (cs : List Char) : (lexemes cs).flatMap Lexeme.raw = cs := by
  rw [lexemes, flatMap_raw_lexemesFrom, flatMap_raw_glyphs]

end ShaderUplift.Lexing
