import ShaderUplift.Preprocessing.Macro

/-! The expressions of conditional directives: 32 bit signed integers, where words that name no
macro are zero, and `defined`. An expression has no value when it is malformed or when an operation
leaves the range, divides by zero or shifts by an amount outside 0 to 31. -/

namespace ShaderUplift.Preprocessing

open Lexing

inductive UnaryOp where
  | plus
  | minus
  | complement
  | not
  deriving DecidableEq, Repr

inductive BinaryOp where
  | mul | div | mod
  | add | sub
  | shiftLeft | shiftRight
  | less | greater | lessEq | greaterEq
  | eq | notEq
  | bitAnd
  | bitXor
  | bitOr
  | and
  | or
  deriving DecidableEq, Repr

inductive Condition where
  | value (n : Int)
  | defined (name : String)
  | unary (op : UnaryOp) (e : Condition)
  | binary (op : BinaryOp) (left right : Condition)
  deriving Repr

def UnaryOp.ofSymbol? : String → Option UnaryOp
  | "+" => some .plus
  | "-" => some .minus
  | "~" => some .complement
  | "!" => some .not
  | _ => none

def BinaryOp.ofSymbol? : String → Option BinaryOp
  | "*" => some .mul
  | "/" => some .div
  | "%" => some .mod
  | "+" => some .add
  | "-" => some .sub
  | "<<" => some .shiftLeft
  | ">>" => some .shiftRight
  | "<" => some .less
  | ">" => some .greater
  | "<=" => some .lessEq
  | ">=" => some .greaterEq
  | "==" => some .eq
  | "!=" => some .notEq
  | "&" => some .bitAnd
  | "^" => some .bitXor
  | "|" => some .bitOr
  | "&&" => some .and
  | "||" => some .or
  | _ => none

/-- How tightly an operator binds; operators of one level associate to the left. -/
def BinaryOp.level : BinaryOp → Nat
  | .or => 1
  | .and => 2
  | .bitOr => 3
  | .bitXor => 4
  | .bitAnd => 5
  | .eq | .notEq => 6
  | .less | .greater | .lessEq | .greaterEq => 7
  | .shiftLeft | .shiftRight => 8
  | .add | .sub => 9
  | .mul | .div | .mod => 10

/-- The number, when it is a signed 32 bit integer. -/
def inRange (n : Int) : Option Int := if -2147483648 ≤ n ∧ n ≤ 2147483647 then some n else none

def truth (b : Bool) : Option Int := some (if b then 1 else 0)

def UnaryOp.apply : UnaryOp → Int → Option Int
  | .plus, a => some a
  | .minus, a => inRange (-a)
  | .complement, a => some (-a - 1)
  | .not, a => truth (a == 0)

/-- An operation on the 32 bits of each number. -/
def onBits (f : BitVec 32 → BitVec 32 → BitVec 32) (a b : Int) : Int :=
  (f (BitVec.ofInt 32 a) (BitVec.ofInt 32 b)).toInt

def isShift (b : Int) : Bool := 0 ≤ b && b < 32

def BinaryOp.apply : BinaryOp → Int → Int → Option Int
  | .mul, a, b => inRange (a * b)
  | .div, a, b => if b = 0 then none else inRange (a.tdiv b)
  | .mod, a, b => if b = 0 then none else (inRange (a.tdiv b)).map fun _ => a.tmod b
  | .add, a, b => inRange (a + b)
  | .sub, a, b => inRange (a - b)
  | .shiftLeft, a, b => if isShift b then some ((a * Int.pow 2 b.toNat).bmod 4294967296) else none
  | .shiftRight, a, b => if isShift b then some (a.fdiv (Int.pow 2 b.toNat)) else none
  | .less, a, b => truth (a < b)
  | .greater, a, b => truth (b < a)
  | .lessEq, a, b => truth (a ≤ b)
  | .greaterEq, a, b => truth (b ≤ a)
  | .eq, a, b => truth (a == b)
  | .notEq, a, b => truth (a != b)
  | .bitAnd, a, b => some (onBits (· &&& ·) a b)
  | .bitXor, a, b => some (onBits (· ^^^ ·) a b)
  | .bitOr, a, b => some (onBits (· ||| ·) a b)
  | .and, a, b => truth (a != 0 && b != 0)
  | .or, a, b => truth (a != 0 || b != 0)

/-- Both operands are evaluated, whatever the first one is. -/
def Condition.eval (macros : Macros) : Condition → Option Int
  | .value n => some n
  | .defined name => truth (macros.contains name)
  | .unary op e => (e.eval macros).bind op.apply
  | .binary op l r => (l.eval macros).bind fun a => (r.eval macros).bind fun b => op.apply a b

/-- The value of a number in an expression; a floating point number has none. -/
def conditionNumber? (cs : List Char) : Option Int :=
  if isFloatShaped cs then none else (integer? cs).bind fun n => inRange n

mutual

/-- Reads an operand with its unary operators. Every call uses up one unit of fuel. -/
def readOperand : Nat → List Token → Option (Condition × List Token)
  | 0, _ => none
  | _, [] => none
  | fuel + 1, t :: ts =>
    match t with
    | .number n => (conditionNumber? n.toList).map fun v => (.value v, ts)
    | .word "defined" =>
      match ts with
      | .word w :: rest => some (.defined w, rest)
      | .symbol "(" :: .word w :: .symbol ")" :: rest => some (.defined w, rest)
      | _ => none
    | .word _ => some (.value 0, ts)
    | .symbol "(" =>
      match readExpression fuel 0 ts with
      | some (e, .symbol ")" :: rest) => some (e, rest)
      | _ => none
    | .symbol s =>
      (UnaryOp.ofSymbol? s).bind fun op =>
        (readOperand fuel ts).map fun (e, rest) => (.unary op e, rest)
    | _ => none

/-- Reads an expression of operators that bind at least as tightly as `least`. -/
def readExpression : Nat → Nat → List Token → Option (Condition × List Token)
  | 0, _, _ => none
  | fuel + 1, least, ts =>
    (readOperand fuel ts).bind fun (left, rest) => readOperators fuel least left rest

/-- Reads the operators that follow the operand `left`. -/
def readOperators : Nat → Nat → Condition → List Token → Option (Condition × List Token)
  | 0, _, _, _ => none
  | fuel + 1, least, left, ts =>
    match ts with
    | .symbol s :: rest =>
      match BinaryOp.ofSymbol? s with
      | some op =>
        if least ≤ op.level then
          (readExpression fuel (op.level + 1) rest).bind fun (right, rest) =>
            readOperators fuel least (.binary op left right) rest
        else some (left, ts)
      | none => some (left, ts)
    | _ => some (left, ts)

end

/-- The expression that the tokens spell, all of them. -/
def Condition.ofTokens? (ts : List Token) : Option Condition :=
  match readExpression (3 * ts.length + 3) 0 ts with
  | some (e, []) => some e
  | _ => none

/-- Expands the tokens of an expression, apart from the operands of `defined`; `pending` holds the
tokens since the last such operand. -/
def expandCondition (macros : Macros) (pending : List Token) : List Token → List Token
  | [] => expand macros pending
  | .word "defined" :: .symbol "(" :: t :: ts =>
    expand macros pending ++ [.word "defined", .symbol "(", t] ++ expandCondition macros [] ts
  | .word "defined" :: t :: ts =>
    expand macros pending ++ [.word "defined", t] ++ expandCondition macros [] ts
  | t :: ts => expandCondition macros (pending ++ [t]) ts

/-- Whether the condition holds; none when it has no value. -/
def holds? (macros : Macros) (ts : List Token) : Option Bool :=
  (Condition.ofTokens? (expandCondition macros [] ts)).bind fun e =>
    (e.eval macros).map fun n => n != 0

end ShaderUplift.Preprocessing
