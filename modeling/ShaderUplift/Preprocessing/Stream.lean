import ShaderUplift.Preprocessing.Directive

/-! The tokens of a body after directives and macros. Every token of a macro's expansion stands for
the whole invocation in the body. The stream ends early at the first error. -/

namespace ShaderUplift.Preprocessing

open Lexing

/-- A part of a body that is read at once. -/
inductive Piece where
  | token (t : Located)
  /-- A directive on the zero-based line `line`, with the tokens after its hash. -/
  | directive (line : Nat) (tokens : List Located)
  deriving DecidableEq, Repr

/-- Where the reader is in the current line. -/
inductive LinePlace where
  | start
  | text
  | directive (line : Nat) (tokens : List Located)
  deriving DecidableEq, Repr

def LinePlace.flush : LinePlace → List Piece
  | .directive line ts => [.directive line ts]
  | _ => []

/-- The pieces of the lexemes, of which the first starts at the character `start` on the line
`line`. A hash that is the first token of its line makes the line a directive. -/
def pieces (place : LinePlace) (start line : Nat) : List Lexeme → List Piece
  | [] => place.flush
  | l :: ls =>
    let stop := start + l.raw.length
    let line' := line + l.lineEnds
    match l.token? with
    | none =>
      if l.kind = .newline then place.flush ++ pieces .start stop line' ls
      else pieces place stop line' ls
    | some t =>
      match place with
      | .directive first ts => pieces (.directive first (ts ++ [⟨t, start, stop⟩])) stop line' ls
      | .start =>
        if l.kind = .hash then pieces (.directive line []) stop line' ls
        else .token ⟨t, start, stop⟩ :: pieces .text stop line' ls
      | .text => .token ⟨t, start, stop⟩ :: pieces .text stop line' ls

/-- A token of the body for its reader, with the characters it stands for. -/
structure Reading where
  kind : TokenClass
  start : Nat
  stop : Nat
  deriving DecidableEq, Repr

/-- The readings of a body up to its end or its first error. -/
structure Stream where
  readings : List Reading
  complete : Bool
  deriving DecidableEq, Repr

/-- The stream that begins with tokens for one place of the body. -/
def Stream.prepend (start stop : Nat) (s : Stream) : List Token → Stream
  | [] => s
  | t :: ts =>
    match t.classify? with
    | none => ⟨[], false⟩
    | some kind =>
      let rest := Stream.prepend start stop s ts
      { rest with readings := ⟨kind, start, stop⟩ :: rest.readings }

/-- The tokens up to the next directive. -/
def leadingTokens : List Piece → List Located
  | .token t :: ps => t :: leadingTokens ps
  | _ => []

/-- What an active token stands for: the number of pieces after it that belong to it, and the
tokens that replace it. -/
def replacement (macros : Macros) (t : Token) (ps : List Piece) : Nat × List Token :=
  match t with
  | .word w =>
    match macros.get? w with
    | none => (0, [t])
    | some m =>
      let next := (leadingTokens ps).map Located.token
      match m.parameters with
      | none => (0, expand macros [t])
      | some _ =>
        match callAt next with
        | .absent => (0, [t])
        | .broken => if next.isEmpty && !ps.isEmpty then (0, [t]) else (0, [.invalid])
        | .call _ rest =>
          let n := next.length - rest.length
          (n, expand macros (t :: next.take n))
  | _ => (0, [t])

/-- Reads the pieces after the first `skipped` ones. -/
def streamFrom (s : State) (skipped : Nat) : List Piece → Stream
  | [] => ⟨[], true⟩
  | p :: ps =>
    match skipped with
    | n + 1 => streamFrom s n ps
    | 0 =>
      match p with
      | .directive line ts =>
        match s.run? line ts with
        | some s' => streamFrom s' 0 ps
        | none => ⟨[], false⟩
      | .token t =>
        if s.active then
          let (n, ts) := replacement s.macros t.token ps
          let stop := (leadingTokens (ps.take n)).getLast?.elim t.stop Located.stop
          Stream.prepend t.start stop (streamFrom s n ps) ts
        else streamFrom s 0 ps

/-- The readings of a body. -/
def stream (body : List Char) : Stream :=
  streamFrom State.initial 0 (pieces .start 0 0 (lexemes body))

end ShaderUplift.Preprocessing
