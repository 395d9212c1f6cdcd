import ShaderUplift.Text.Blank

/-! Words of a source text with their lines. A line ends at a newline and a word is a maximal run
of characters that are not blank. -/

namespace ShaderUplift.Source

open Text

structure Word where
  text : String
  /-- The zero-based line. -/
  line : Nat
  deriving DecidableEq, Repr

/-- The lines of a text, without their newlines; a text that ends in a newline has no line after
it. -/
def lines : List Char → List (List Char)
  | [] => []
  | '\n' :: cs => [] :: lines cs
  | c :: cs =>
    match lines cs with
    | [] => [[c]]
    | l :: ls => (c :: l) :: ls

/-- The maximal runs of characters that are not blank. -/
def runs : List Char → List (List Char)
  | [] => []
  | c :: cs =>
    if isBlank c then runs cs
    else if startsWith (fun d => !isBlank d) cs then
      match runs cs with
      | [] => [[c]]
      | r :: rs => (c :: r) :: rs
    else [c] :: runs cs

def words (source : String) : List Word :=
  (lines source.toList).zipIdx.flatMap fun (l, i) =>
    (runs l).map fun r => { text := String.ofList r, line := i }

end ShaderUplift.Source
