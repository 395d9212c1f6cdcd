import ShaderUplift.Text.Blank
import ShaderUplift.Text.Numeral

/-! Number literals. A literal is read as a floating point number when it has a point, an exponent
mark or a floating point suffix and is not hexadecimal; every other literal is an integer in base
16, 8 or 10 that fits 32 bits, signed unless it has the unsigned suffix. -/

namespace ShaderUplift.Lexing

open Text

def isExponentMark (c : Char) : Bool := c == 'e' || c == 'E'

def isHexadecimal : List Char → Bool
  | '0' :: 'x' :: _ => true
  | '0' :: 'X' :: _ => true
  | _ => false

def isFloatShaped (cs : List Char) : Bool :=
  !isHexadecimal cs &&
    (cs.any (fun c => c == '.' || isExponentMark c) ||
      cs.getLast? == some 'f' || cs.getLast? == some 'F')

/-- The literal without its floating point suffix `lf`, `LF`, `f` or `F`. -/
def withoutFloatSuffix (cs : List Char) : List Char :=
  match cs.reverse with
  | 'f' :: 'l' :: r => r.reverse
  | 'F' :: 'L' :: r => r.reverse
  | 'f' :: r => r.reverse
  | 'F' :: r => r.reverse
  | _ => cs

/-- Nothing, or an exponent mark with an optional sign and at least one digit. -/
def isExponent : List Char → Bool
  | [] => true
  | c :: '+' :: ds => isExponentMark c && isDigits ds
  | c :: '-' :: ds => isExponentMark c && isDigits ds
  | c :: ds => isExponentMark c && isDigits ds

/-- Digits with an optional point among them, at least one digit in all, and an optional
exponent. -/
def isFloat (cs : List Char) : Bool :=
  let whole := cs.takeWhile Char.isDigit
  match cs.dropWhile Char.isDigit with
  | '.' :: rest =>
    let fraction := rest.takeWhile Char.isDigit
    !(whole.isEmpty && fraction.isEmpty) && isExponent (rest.dropWhile Char.isDigit)
  | rest => !whole.isEmpty && isExponent rest

/-- The value of a digit of a base up to 16. -/
def digitValue? (c : Char) : Option Nat :=
  if '0' ≤ c && c ≤ '9' then some (c.toNat - '0'.toNat)
  else if 'a' ≤ c && c ≤ 'f' then some (c.toNat - 'a'.toNat + 10)
  else if 'A' ≤ c && c ≤ 'F' then some (c.toNat - 'A'.toNat + 10)
  else none

/-- The value of digits of a base, most significant first; there is at least one. -/
def digitsIn? (base : Nat) (cs : List Char) : Option Nat :=
  if cs.isEmpty then none
  else
    cs.foldlM (fun n c => (digitValue? c).bind fun d =>
      if d < base then some (base * n + d) else none) 0

/-- The literal without its unsigned suffix, and whether it has one. -/
def withoutUnsignedSuffix (cs : List Char) : List Char × Bool :=
  match cs.reverse with
  | 'u' :: r => (r.reverse, true)
  | 'U' :: r => (r.reverse, true)
  | _ => (cs, false)

/-- The value of an integer literal without suffix. -/
def magnitude? : List Char → Option Nat
  | '0' :: 'x' :: ds => digitsIn? 16 ds
  | '0' :: 'X' :: ds => digitsIn? 16 ds
  | '0' :: d :: ds => digitsIn? 8 (d :: ds)
  | ds => digitsIn? 10 ds

/-- The value of an integer literal that fits its type. -/
def integer? (cs : List Char) : Option Nat :=
  let (digits, unsigned) := withoutUnsignedSuffix cs
  (magnitude? digits).bind fun n =>
    if n < (if unsigned then wordBound else wordBound / 2) then some n else none

/-- The literal is a number of the language. -/
def isLiteral (cs : List Char) : Bool :=
  if isFloatShaped cs then isFloat (withoutFloatSuffix cs) else (integer? cs).isSome

end ShaderUplift.Lexing
