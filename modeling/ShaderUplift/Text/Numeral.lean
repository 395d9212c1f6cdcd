/-! Unsigned decimal numerals of at most 32 bits. A numeral is a non-empty run of ASCII digits
with an optional leading plus; leading zeros are allowed and do not change the base. -/

namespace ShaderUplift.Text

/-- The number of values of an unsigned 32 bit word. -/
def wordBound : Nat := 4294967296

/-- The value of a run of decimal digits. -/
def digitsValue (cs : List Char) : Nat := cs.foldl (fun n c => 10 * n + (c.toNat - 48)) 0

def isDigits (cs : List Char) : Bool := !cs.isEmpty && cs.all Char.isDigit

/-- The digits of an unsigned numeral, without its optional plus. -/
def unsignedDigits : List Char → List Char
  | '+' :: cs => cs
  | cs => cs

/-- Reads an unsigned 32 bit numeral; there is none when a character is not a digit, when there is
no digit, or when the value does not fit. -/
def word32? (cs : List Char) : Option Nat :=
  let digits := unsignedDigits cs
  if isDigits digits && digitsValue digits < wordBound then some (digitsValue digits) else none

theorem word32?_eq_some_iff {cs : List Char} {n : Nat} :
    word32? cs = some n ↔
      isDigits (unsignedDigits cs) = true ∧ digitsValue (unsignedDigits cs) = n ∧ n < wordBound := by
  simp only [word32?]
  split
  · next hc =>
    simp only [Bool.and_eq_true, decide_eq_true_eq] at hc
    simp only [Option.some.injEq]
    constructor
    · rintro rfl
      exact ⟨hc.1, rfl, hc.2⟩
    · exact fun h => h.2.1
  · next hc =>
    simp only [Bool.and_eq_true, decide_eq_true_eq, not_and] at hc
    constructor
    · nofun
    · rintro ⟨hdigits, rfl, hlt⟩
      exact absurd hlt (hc hdigits)

/-- Adds two words, unless the exact sum does not fit. -/
def checkedAdd (a b : Nat) : Option Nat := if a + b < wordBound then some (a + b) else none

/-- Multiplies two words, unless the exact product does not fit. -/
def checkedMul (a b : Nat) : Option Nat := if a * b < wordBound then some (a * b) else none

theorem checkedAdd_eq_some {a b n : Nat} :
    checkedAdd a b = some n ↔ n = a + b ∧ a + b < wordBound := by
  unfold checkedAdd; split <;> simp_all [eq_comm]

theorem checkedMul_eq_some {a b n : Nat} :
    checkedMul a b = some n ↔ n = a * b ∧ a * b < wordBound := by
  unfold checkedMul; split <;> simp_all [eq_comm]

end ShaderUplift.Text
