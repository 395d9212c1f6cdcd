/-! Blank characters, word characters and trimming, on lists of characters. A blank is any
character with the Unicode property White_Space; a word character is an ASCII letter, an ASCII
digit or the underscore. -/

namespace ShaderUplift.Text

/-- The 25 characters with the Unicode property White_Space. -/
def isBlank (c : Char) : Bool :=
  let n := c.toNat
  (9 ≤ n && n ≤ 13) || n == 0x20 || n == 0x85 || n == 0xA0 || n == 0x1680 ||
    (0x2000 ≤ n && n ≤ 0x200A) || n == 0x2028 || n == 0x2029 || n == 0x202F || n == 0x205F ||
    n == 0x3000

def isWordStart (c : Char) : Bool := c.isAlpha || c == '_'

def isWordChar (c : Char) : Bool := c.isAlphanum || c == '_'

theorem isAlpha_iff {c : Char} :
    c.isAlpha = true ↔ (65 ≤ c.toNat ∧ c.toNat ≤ 90) ∨ (97 ≤ c.toNat ∧ c.toNat ≤ 122) := by
  have hupper : c.isUpper = decide ('A'.val ≤ c.val ∧ c.val ≤ 'Z'.val) := rfl
  have hlower : c.isLower = (decide ('a'.val ≤ c.val) && decide (c.val ≤ 'z'.val)) := rfl
  have halpha : c.isAlpha = (c.isUpper || c.isLower) := rfl
  rw [halpha, hupper, hlower, Bool.or_eq_true, Bool.and_eq_true, decide_eq_true_eq,
    decide_eq_true_eq, decide_eq_true_eq]
  simp only [UInt32.le_iff_toNat_le]
  rfl

theorem not_isWordStart_of_isDigit {c : Char} (h : c.isDigit = true) : isWordStart c = false := by
  obtain ⟨hlow, hhigh⟩ : 48 ≤ c.toNat ∧ c.toNat ≤ 57 := Char.isDigit_iff_toNat.mp h
  rw [isWordStart, Bool.or_eq_false_iff, beq_eq_false_iff_ne, ← Bool.not_eq_true, isAlpha_iff]
  refine ⟨by omega, ?_⟩
  rintro rfl
  exact absurd h (by decide)

theorem not_isBlank_of_isWordChar {c : Char} (h : isWordChar c = true) : isBlank c = false := by
  have hword : isWordChar c = (c.isAlpha || c.isDigit || c == '_') := rfl
  rw [hword, Bool.or_eq_true, Bool.or_eq_true, isAlpha_iff, Char.isDigit_iff_toNat, beq_iff_eq] at h
  rcases h with h | rfl
  · simp only [show '0'.toNat = 48 from rfl, show '9'.toNat = 57 from rfl] at h
    simp only [isBlank, Bool.or_eq_false_iff, Bool.and_eq_false_iff, decide_eq_false_iff_not,
      beq_eq_false_iff_ne, ne_eq]
    omega
  · decide

theorem not_isWordChar_of_isBlank {c : Char} (h : isBlank c = true) : isWordChar c = false := by
  cases hc : isWordChar c with
  | false => rfl
  | true => exact absurd h (by simp [not_isBlank_of_isWordChar hc])

theorem isWordChar_of_isWordStart {c : Char} (h : isWordStart c = true) : isWordChar c = true := by
  simp only [isWordStart, isWordChar, Char.isAlphanum, Bool.or_eq_true] at h ⊢
  exact h.imp_left Or.inl

def trimStart (cs : List Char) : List Char := cs.dropWhile isBlank

def allBlank (cs : List Char) : Bool := cs.all isBlank

/-- Drops every trailing `c`. -/
def trimEndOf (c : Char) (cs : List Char) : List Char := (cs.reverse.dropWhile (· == c)).reverse

/-- The number of bytes of the UTF-8 encoding. -/
def utf8Length (cs : List Char) : Nat := cs.foldl (fun n c => n + c.utf8Size) 0

/-- What follows `lead` when the text starts with it. -/
def after? (lead : List Char) (cs : List Char) : Option (List Char) :=
  if lead.isPrefixOf cs then some (cs.drop lead.length) else none

/-- The text starts with a character of the class. -/
def startsWith (p : Char → Bool) : List Char → Bool
  | [] => false
  | c :: _ => p c

theorem startsWith_append_congr {p : Char → Bool} {ys zs : List Char}
    (h : startsWith p ys = startsWith p zs) (xs : List Char) :
    startsWith p (xs ++ ys) = startsWith p (xs ++ zs) := by
  cases xs with
  | nil => exact h
  | cons c xs => rfl

theorem takeWhile_eq_nil_of_startsWith {p : Char → Bool} {cs : List Char}
    (h : startsWith p cs = false) : cs.takeWhile p = [] := by
  cases cs with
  | nil => rfl
  | cons c cs => exact List.takeWhile_cons_of_neg (by simpa [startsWith] using h)

theorem trimStart_eq_nil_iff {cs : List Char} : trimStart cs = [] ↔ allBlank cs = true := by
  induction cs with
  | nil => simp [trimStart, allBlank]
  | cons c cs ih =>
    by_cases h : isBlank c <;> simp_all [trimStart, allBlank]

end ShaderUplift.Text
