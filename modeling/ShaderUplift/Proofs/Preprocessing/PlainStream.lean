import ShaderUplift.Body

/-! Bodies without directives. Nothing is masked and the only macros are those of the language
itself, so every token is read once and stands for its own text. -/

namespace ShaderUplift.Preprocessing

open Lexing

/-- What a token stands for when the body defines no macro. -/
def bareToken : Token → Token
  | .word w => (builtin? 0 w).elim (.word w) fun n => .number (toString n)
  | t => t

theorem get?_initial (name : String) :
    Macros.initial.get? name = (builtin? 0 name).map (numberMacro name) := rfl

theorem expand_initial_of_builtin? {name : String} {n : Nat} (h : builtin? 0 name = some n) :
    expand Macros.initial [.word name] = [.number (toString n)] := by
  have hget : Macros.initial.get? name = some (numberMacro name n) := by
    rw [get?_initial, h]
    rfl
  have hsize : Macros.initial.defined.size + 2 = 2 := rfl
  rw [expand, hsize]
  simp [expandTo, expandWith, hget, numberMacro, pasted, pasteFrom]

theorem replacement_initial (t : Token) (ps : List Piece) :
    replacement State.initial.macros t ps = (0, [bareToken t]) := by
  have hmacros : State.initial.macros = Macros.initial := rfl
  rw [hmacros]
  cases t with
  | word w =>
      cases hbuiltin : builtin? 0 w with
      | none => simp [replacement, bareToken, get?_initial, hbuiltin]
      | some n =>
          simp [replacement, bareToken, get?_initial, hbuiltin, numberMacro,
            expand_initial_of_builtin? hbuiltin]
  | number | symbol | paste | invalid => rfl

/-- What a lexeme is for a reader of a body without directives; a separator is nothing. -/
def bareClass? (l : Lexeme) : Option TokenClass :=
  l.token?.bind fun t => (bareToken t).classify?

/-- The readings of lexemes of which the first starts at the character `start`. -/
def readingsFrom (start : Nat) : List Lexeme → List Reading
  | [] => []
  | l :: ls =>
    (bareClass? l).toList.map (⟨·, start, start + l.raw.length⟩) ++
      readingsFrom (start + l.raw.length) ls

theorem prepend_singleton_complete {start stop : Nat} {s : Stream} {t : Token}
    (h : (Stream.prepend start stop s [t]).complete = true) :
    ∃ kind, t.classify? = some kind ∧ s.complete = true ∧
      (Stream.prepend start stop s [t]).readings = ⟨kind, start, stop⟩ :: s.readings := by
  cases hkind : t.classify? with
  | none => simp [Stream.prepend, hkind] at h
  | some kind =>
      simp only [Stream.prepend, hkind] at h ⊢
      exact ⟨kind, rfl, h, rfl⟩

/-- In text that is read, the first piece gives one reading with its own span. -/
theorem streamFrom_token (t : Located) (ps : List Piece) :
    streamFrom State.initial 0 (.token t :: ps) =
      Stream.prepend t.start t.stop (streamFrom State.initial 0 ps) [bareToken t.token] := by
  have hactive : State.initial.active = true := rfl
  rw [streamFrom]
  simp [hactive, replacement_initial, leadingTokens]

/-- A body without hashes that is read to its end has one reading for each token. -/
theorem streamFrom_pieces {ls : List Lexeme} (hhash : ∀ l ∈ ls, l.kind ≠ .hash)
    {place : LinePlace} (hplace : place.flush = []) {start line : Nat}
    (h : (streamFrom State.initial 0 (pieces place start line ls)).complete = true) :
    (streamFrom State.initial 0 (pieces place start line ls)).readings = readingsFrom start ls ∧
      ∀ l ∈ ls, l.token?.isSome = true → (bareClass? l).isSome = true := by
  induction ls generalizing place start line with
  | nil =>
      rw [pieces, hplace]
      exact ⟨rfl, nofun⟩
  | cons l ls ih =>
      have hls : ∀ l ∈ ls, l.kind ≠ .hash := fun l hl => hhash l (List.mem_cons_of_mem _ hl)
      cases htoken : l.token? with
      | none =>
          have hclass : bareClass? l = none := by rw [bareClass?, htoken]; rfl
          have hrest : ∃ place' : LinePlace, place'.flush = [] ∧
              pieces place start line (l :: ls) =
                pieces place' (start + l.raw.length) (line + l.lineEnds) ls := by
            rw [pieces, htoken]
            dsimp only
            split
            · exact ⟨.start, rfl, by rw [hplace]; rfl⟩
            · exact ⟨place, hplace, rfl⟩
          obtain ⟨place', hplace', hpieces⟩ := hrest
          rw [hpieces] at h ⊢
          obtain ⟨hreadings, hall⟩ := ih hls hplace' h
          refine ⟨?_, List.forall_mem_cons.mpr ⟨?_, hall⟩⟩
          · rw [hreadings, readingsFrom, hclass]
            rfl
          · rw [htoken]
            nofun
      | some t =>
          have hpieces : pieces place start line (l :: ls) =
              .token ⟨t, start, start + l.raw.length⟩ ::
                pieces .text (start + l.raw.length) (line + l.lineEnds) ls := by
            rw [pieces, htoken]
            cases place with
            | start => simp [hhash l List.mem_cons_self]
            | text => rfl
            | directive first ts => cases hplace
          rw [hpieces, streamFrom_token] at h ⊢
          obtain ⟨kind, hkind, hcomplete, hreadings⟩ := prepend_singleton_complete h
          have hclass : bareClass? l = some kind := by rw [bareClass?, htoken]; exact hkind
          have hflush : LinePlace.text.flush = [] := rfl
          obtain ⟨hrest, hall⟩ := ih hls hflush hcomplete
          refine ⟨?_, List.forall_mem_cons.mpr ⟨?_, hall⟩⟩
          · rw [hreadings, hrest, readingsFrom, hclass]
            rfl
          · intro _
            rw [hclass]
            rfl

end ShaderUplift.Preprocessing

namespace ShaderUplift.Body

open Lexing Preprocessing

/-- The tokens of lexemes; `pending` is the text of the separators right before them. -/
def tokensFrom (pending : List Char) (afterDot : Bool) : List Lexeme → List BodyToken
  | [] => gap pending
  | l :: ls =>
    match bareClass? l with
    | none => tokensFrom (pending ++ l.raw) afterDot ls
    | some kind =>
      gap pending ++ tokenOf kind afterDot l.raw :: tokensFrom [] (kind = .mark .dot) ls

theorem assemble_readingsFrom (ls : List Lexeme) (last : Nat) (afterDot : Bool)
    (pending : List Char) :
    (assemble last afterDot (pending ++ ls.flatMap Lexeme.raw)
      (readingsFrom (last + pending.length) ls)).1 = tokensFrom pending afterDot ls := by
  induction ls generalizing last afterDot pending with
  | nil => simp [readingsFrom, assemble, tokensFrom]
  | cons l ls ih =>
      cases hclass : bareClass? l with
      | none =>
          have hrest := ih last afterDot (pending ++ l.raw)
          rw [List.length_append, List.append_assoc, ← Nat.add_assoc] at hrest
          simpa [readingsFrom, hclass, tokensFrom] using hrest
      | some kind =>
          have hstart : ¬last + pending.length < last := by omega
          have hrest := ih (last + pending.length + l.raw.length) (kind = .mark .dot) []
          rw [List.length_nil, Nat.add_zero, List.nil_append] at hrest
          simp only [readingsFrom, hclass, Option.toList_some, List.map_cons, List.map_nil,
            List.singleton_append, assemble, if_neg hstart, tokensFrom, Nat.add_sub_cancel_left,
            List.flatMap_cons, List.take_left, List.drop_left, hrest]

/-- The tokens of a body without hashes that is read to its end. -/
theorem tokens_parse {text : String} (hhash : ∀ l ∈ lexemes text.toList, l.kind ≠ .hash)
    (h : (stream text.toList).complete = true) :
    (parse text).1.tokens = tokensFrom [] false (lexemes text.toList) ∧
      ∀ l ∈ lexemes text.toList, l.token?.isSome = true → (bareClass? l).isSome = true := by
  have hflush : LinePlace.start.flush = [] := rfl
  obtain ⟨hreadings, hall⟩ := streamFrom_pieces hhash hflush h
  refine ⟨?_, hall⟩
  have htokens := assemble_readingsFrom (lexemes text.toList) 0 false []
  rw [List.nil_append, flatMap_raw_lexemes] at htokens
  rw [← htokens]
  exact congrArg (fun rs => (assemble 0 false text.toList rs).1) hreadings

end ShaderUplift.Body
