/-! Source text without tabs and comments. A tab becomes four spaces. A block comment ends at the
first `*/` after its opener and leaves one space and its newlines, so later text keeps its line; a
comment that is never closed reaches to the end of the text. A line comment ends before its
newline. -/

namespace ShaderUplift.Source

def expandTabs (cs : List Char) : List Char :=
  cs.flatMap fun c => if c = '\t' then [' ', ' ', ' ', ' '] else [c]

inductive CommentKind where
  | line
  | block
  deriving DecidableEq, Repr

/-- The kind of comment that opens at the start of the text. -/
def opensComment : List Char → Option CommentKind
  | '/' :: '/' :: _ => some .line
  | '/' :: '*' :: _ => some .block
  | _ => none

/-- Cuts the text at its first comment: what stands before it, its kind, and what follows the two
characters that open it. -/
def cutComment : List Char → Option (List Char × CommentKind × List Char)
  | [] => none
  | c :: cs =>
    match opensComment (c :: cs) with
    | some kind => some ([], kind, cs.drop 1)
    | none => (cutComment cs).map fun (before, rest) => (c :: before, rest)

/-- Cuts the inside of a block comment off at the first `*/`; without one it is the whole text. -/
def cutBlock : List Char → List Char × List Char
  | [] => ([], [])
  | '*' :: '/' :: cs => ([], cs)
  | c :: cs => let (inner, rest) := cutBlock cs; (c :: inner, rest)

theorem length_cutBlock (cs : List Char) : (cutBlock cs).2.length ≤ cs.length := by
  fun_induction cutBlock cs <;> simp_all <;> omega

theorem length_cutComment {cs before rest : List Char} {kind : CommentKind}
    (h : cutComment cs = some (before, kind, rest)) : rest.length < cs.length := by
  induction cs generalizing before with
  | nil => simp [cutComment] at h
  | cons c cs ih =>
    rw [cutComment] at h
    split at h
    · simp only [Option.some.injEq, Prod.mk.injEq] at h
      rw [← h.2.2, List.length_drop, List.length_cons]
      omega
    · simp only [Option.map_eq_some_iff, Prod.mk.injEq, Prod.exists] at h
      obtain ⟨b, k, r, hb, _, rfl, rfl⟩ := h
      have := ih hb
      rw [List.length_cons]
      omega

def stripComments (cs : List Char) : List Char :=
  match _h : cutComment cs with
  | none => cs
  | some (before, .line, rest) => before ++ stripComments (rest.dropWhile (· ≠ '\n'))
  | some (before, .block, rest) =>
    before ++ ' ' :: ((cutBlock rest).1.filter (· = '\n') ++ stripComments (cutBlock rest).2)
termination_by cs.length
decreasing_by
  · have := length_cutComment _h
    have := (List.dropWhile_sublist (l := rest) (fun c => decide (c ≠ '\n'))).length_le
    omega
  · have := length_cutComment _h
    have := length_cutBlock rest
    omega

/-- The source without tabs and comments. -/
def normalize (source : String) : String :=
  String.ofList (stripComments (expandTabs source.toList))

end ShaderUplift.Source
