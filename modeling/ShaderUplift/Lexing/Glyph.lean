/-! Characters of an entry point body as the lexer sees them. A line ends with a newline, a carriage
return, or both in either order; a backslash right before a line end joins two lines and is a
single glyph, the splice. -/

namespace ShaderUplift.Lexing

inductive Glyph where
  | char (c : Char)
  | newline (raw : List Char)
  | splice (raw : List Char)
  deriving DecidableEq, Repr

namespace Glyph

/-- The characters the glyph stands for in the text. -/
def raw : Glyph → List Char
  | .char c => [c]
  | .newline cs | .splice cs => cs

/-- The character the glyph adds to a token; a splice adds none. -/
def cooked : Glyph → List Char
  | .char c => [c]
  | .newline _ | .splice _ => []

def isNewline : Glyph → Bool
  | .newline _ => true
  | _ => false

def endsLine : Glyph → Bool
  | .char _ => false
  | _ => true

end Glyph

def glyphs : List Char → List Glyph
  | [] => []
  | '\\' :: '\r' :: '\n' :: cs => .splice ['\\', '\r', '\n'] :: glyphs cs
  | '\\' :: '\n' :: '\r' :: cs => .splice ['\\', '\n', '\r'] :: glyphs cs
  | '\\' :: '\n' :: cs => .splice ['\\', '\n'] :: glyphs cs
  | '\\' :: '\r' :: cs => .splice ['\\', '\r'] :: glyphs cs
  | '\r' :: '\n' :: cs => .newline ['\r', '\n'] :: glyphs cs
  | '\n' :: '\r' :: cs => .newline ['\n', '\r'] :: glyphs cs
  | '\n' :: cs => .newline ['\n'] :: glyphs cs
  | '\r' :: cs => .newline ['\r'] :: glyphs cs
  | c :: cs => .char c :: glyphs cs

theorem flatMap_raw_glyphs (cs : List Char) : (glyphs cs).flatMap Glyph.raw = cs := by
  fun_induction glyphs cs <;> simp_all [Glyph.raw]

/-- The leading glyphs that are characters. -/
def plainChars : List Glyph → List Char
  | .char c :: gs => c :: plainChars gs
  | _ => []

end ShaderUplift.Lexing
