import ShaderUplift.Preprocessing.Stream
import ShaderUplift.Proofs.Lexing.PlainText

/-! Where the readings of a body come from, for any body. Every reading starts at a lexeme of the
body and reaches at least to its end. A reading that is a mark stands for the mark itself, unless its
lexeme is the name of a macro that the body defines. -/

namespace ShaderUplift.Lexing

open Text

/-- A symbol stands in the text as it is read, since it holds no splice, and a word begins with a
letter or an underscore. -/
def Lexeme.Spelled (l : Lexeme) : Prop :=
  (l.kind = .symbol → l.raw = l.cooked) ∧
    (l.kind = .word → startsWith isWordStart l.raw = true)

theorem Lexeme.spelled_of_kind {l : Lexeme} (hsymbol : l.kind ≠ .symbol) (hword : l.kind ≠ .word) :
    l.Spelled :=
  ⟨fun h => absurd h hsymbol, fun h => absurd h hword⟩

theorem unlessBackslash_fst (kind : LexemeKind) (n : Nat) (gs : List Glyph) :
    (unlessBackslash kind n gs).1 = kind ∨ (unlessBackslash kind n gs).1 = .invalid := by
  unfold unlessBackslash
  split
  · exact Or.inr rfl
  · exact Or.inl rfl

theorem spelled_charShape (c : Char) (gs : List Glyph) :
    Lexeme.Spelled ⟨(charShape c gs).1, .char c :: gs.take (charShape c gs).2⟩ := by
  unfold charShape
  dsimp only
  split
  · exact Lexeme.spelled_of_kind (by simp) (by simp)
  split
  · next hstart =>
    refine ⟨?_, fun _ => hstart⟩
    intro hkind
    rcases unlessBackslash_fst .word (wordTail gs) gs with h | h <;> simp [h] at hkind
  split
  · rcases unlessBackslash_fst .number (numberTail false gs) gs with h | h <;>
      exact Lexeme.spelled_of_kind (by simp [h]) (by simp [h])
  split
  · exact Lexeme.spelled_of_kind (by simp) (by simp)
  split
  · split <;> exact Lexeme.spelled_of_kind (by simp) (by simp)
  split
  · split <;> exact Lexeme.spelled_of_kind (by simp) (by simp)
  split
  · exact Lexeme.spelled_of_kind (by simp) (by simp)
  split
  · next s hfind =>
    have hlead : s.toList.isPrefixOf (c :: plainChars (gs.take 2)) = true := by
      simpa using List.find?_some hfind
    obtain ⟨cs, -, htake⟩ := take_of_symbol (List.mem_of_find?_eq_some hfind) hlead
    refine ⟨fun _ => ?_, nofun⟩
    simp only [raw_mk_char, cooked_mk_char, htake, flatMap_raw_map_char, flatMap_cooked_map_char]
  · exact Lexeme.spelled_of_kind (by simp) (by simp)

theorem spelled_of_mem_lexemesFrom {gs : List Glyph} {n : Nat} {l : Lexeme}
    (h : l ∈ lexemesFrom n gs) : l.Spelled := by
  induction gs generalizing n with
  | nil => cases h
  | cons g gs ih =>
      cases n with
      | succ n => exact ih (n := n) (by simpa [lexemesFrom] using h)
      | zero =>
          rw [lexemesFrom] at h
          rcases List.mem_cons.mp h with rfl | h
          · cases g with
            | char c => exact spelled_charShape c gs
            | newline raw | splice raw =>
                exact Lexeme.spelled_of_kind (fun h => by cases h) (fun h => by cases h)
          · exact ih h

/-- Only the symbol of a mark is read as the mark. -/
theorem eq_symbol_of_classify? {t : Token} {m : Mark} (h : t.classify? = some (.mark m)) :
    t = .symbol (String.singleton m.char) := by
  cases t with
  | word w =>
      simp only [Token.classify?] at h
      split at h
      · cases h
      · split at h
        · cases h
        · split at h <;> cases h
  | number n =>
      simp only [Token.classify?] at h
      split at h <;> cases h
  | symbol s =>
      unfold Token.classify? at h
      split at h <;> simp_all <;> subst h <;> rfl
  | paste | invalid => cases h

theorem kind_of_token?_word {l : Lexeme} {w : String} (h : l.token? = some (.word w)) :
    l.kind = .word ∧ String.ofList l.cooked = w := by
  unfold Lexeme.token? at h
  split at h <;> simp_all

theorem kind_of_token?_symbol {l : Lexeme} {s : String} (h : l.token? = some (.symbol s)) :
    l.kind = .symbol ∧ String.ofList l.cooked = s := by
  unfold Lexeme.token? at h
  split at h <;> simp_all

end ShaderUplift.Lexing

namespace ShaderUplift.Preprocessing

open Lexing

/-- The token is that of a lexeme of the body, which stands there from `start` to `stop`. -/
def Stands (body : List Char) (t : Located) : Prop :=
  ∃ l ∈ lexemes body, l.token? = some t.token ∧ t.stop = t.start + l.raw.length ∧
    l.raw <+: body.drop t.start

/-- What `pieces` does with one lexeme: it stays silent, ends a directive, or gives the token of the
lexeme. -/
theorem pieces_cons (place : LinePlace) (start line : Nat) (l : Lexeme) (ls : List Lexeme) :
    ∃ first place' line', pieces place start line (l :: ls) =
        first ++ pieces place' (start + l.raw.length) line' ls ∧
      ((∀ t, .token t ∉ first) ∨
        ∃ t, first = [.token t] ∧ l.token? = some t.token ∧ t.start = start ∧
          t.stop = start + l.raw.length) := by
  have hflush : ∀ t, .token t ∉ place.flush := by
    cases place <;> simp [LinePlace.flush]
  rw [pieces]
  split
  · split
    · exact ⟨place.flush, _, _, rfl, Or.inl hflush⟩
    · exact ⟨[], _, _, rfl, Or.inl nofun⟩
  · next t htoken =>
    split
    · exact ⟨[], _, _, rfl, Or.inl nofun⟩
    · split
      · exact ⟨[], _, _, rfl, Or.inl nofun⟩
      · exact ⟨[_], _, _, rfl, Or.inr ⟨_, rfl, htoken, rfl, rfl⟩⟩
    · exact ⟨[_], _, _, rfl, Or.inr ⟨_, rfl, htoken, rfl, rfl⟩⟩

theorem stands_of_mem_pieces {body front : List Char} {ls : List Lexeme}
    (hbody : body = front ++ ls.flatMap Lexeme.raw) (hls : ∀ l ∈ ls, l ∈ lexemes body)
    {place : LinePlace} {line : Nat} {t : Located}
    (h : .token t ∈ pieces place front.length line ls) : Stands body t := by
  induction ls generalizing front place line with
  | nil => cases place <;> simp [pieces, LinePlace.flush] at h
  | cons l ls ih =>
      obtain ⟨first, place', line', heq, hfirst⟩ := pieces_cons place front.length line l ls
      rw [heq, List.mem_append] at h
      rcases h with h | h
      · rcases hfirst with hnone | ⟨u, rfl, htoken, hstart, hstop⟩
        · exact absurd h (hnone t)
        · cases List.mem_singleton.mp h
          refine ⟨l, hls l List.mem_cons_self, htoken, by rw [hstop, hstart], ?_⟩
          rw [hstart, hbody, List.drop_left, List.flatMap_cons]
          exact List.prefix_append _ _
      · rw [← List.length_append] at h
        refine ih ?_ (fun m hm => hls m (List.mem_cons_of_mem _ hm)) h
        rw [hbody, List.flatMap_cons, List.append_assoc]

theorem start_le_of_mem_pieces {place : LinePlace} {start line : Nat} {ls : List Lexeme}
    {t : Located} (h : .token t ∈ pieces place start line ls) : start ≤ t.stop := by
  induction ls generalizing place start line with
  | nil => cases place <;> simp [pieces, LinePlace.flush] at h
  | cons l ls ih =>
      obtain ⟨first, place', line', heq, hfirst⟩ := pieces_cons place start line l ls
      rw [heq, List.mem_append] at h
      rcases h with h | h
      · rcases hfirst with hnone | ⟨u, rfl, -, -, hstop⟩
        · exact absurd h (hnone t)
        · cases List.mem_singleton.mp h
          omega
      · have := ih h
        omega

/-- Of two tokens the one that comes later ends later. -/
def Piece.EndsBefore (p q : Piece) : Prop :=
  ∀ t u, p = .token t → q = .token u → t.stop ≤ u.stop

theorem pairwise_pieces (place : LinePlace) (start line : Nat) (ls : List Lexeme) :
    (pieces place start line ls).Pairwise Piece.EndsBefore := by
  induction ls generalizing place start line with
  | nil => cases place <;> simp [pieces, LinePlace.flush]
  | cons l ls ih =>
      obtain ⟨first, place', line', heq, hfirst⟩ := pieces_cons place start line l ls
      rw [heq]
      have hwithin : first.Pairwise Piece.EndsBefore := by
        rcases hfirst with hnone | ⟨t, rfl, -⟩
        · exact List.pairwise_of_forall_mem_list fun p hp q _ t u ht => absurd (ht ▸ hp) (hnone t)
        · exact List.pairwise_singleton _ _
      refine List.pairwise_append.mpr ⟨hwithin, ih _ _ _, ?_⟩
      rintro p hp q hq t u rfl rfl
      rcases hfirst with hnone | ⟨v, rfl, -, -, hstop⟩
      · exact absurd hp (hnone t)
      · cases List.mem_singleton.mp hp
        rw [hstop]
        exact start_le_of_mem_pieces hq

/-- The name that a piece defines as a macro. -/
def definedName? : Piece → Option String
  | .directive _ (⟨.word "define", _, _⟩ :: operands) => (definition? operands).map Macro.name
  | _ => none

/-- The names that the directives of a body define, masked ones included. -/
def definedNames (body : List Char) : List String :=
  (pieces .start 0 0 (lexemes body)).filterMap definedName?

theorem macros_beginIf? {s s' : State} {condition : Option Bool}
    (h : s.beginIf? condition = some s') : s'.macros = s.macros := by
  unfold State.beginIf? at h
  split at h
  · obtain ⟨holds, -, rfl⟩ := Option.map_eq_some_iff.mp h
    rfl
  · cases h
    rfl

theorem macros_beginElseIf? {s s' : State} {condition : Option Bool}
    (h : s.beginElseIf? condition = some s') : s'.macros = s.macros := by
  unfold State.beginElseIf? at h
  split at h
  · cases h
  · split at h
    · cases h
    · split at h
      · obtain ⟨holds, -, rfl⟩ := Option.map_eq_some_iff.mp h
        rfl
      · cases h
        rfl

theorem macros_beginElse? {s s' : State} {bare : Bool} (h : s.beginElse? bare = some s') :
    s'.macros = s.macros := by
  unfold State.beginElse? at h
  split at h
  · cases h
  · split at h
    · cases h
    · cases h
      rfl

theorem macros_endIf? {s s' : State} {bare : Bool} (h : s.endIf? bare = some s') :
    s'.macros = s.macros := by
  unfold State.endIf? at h
  split at h
  · cases h
  · split at h
    · cases h
    · cases h
      rfl

/-- A directive that is no conditional adds at most the name it defines. -/
theorem mem_names_runPlain {s s' : State} {word : String} {operands : List Located}
    (h : s.runPlain word operands = some s') {name : String}
    (hname : name ∈ s'.macros.defined.names) :
    name ∈ s.macros.defined.names ∨
      word = "define" ∧ (definition? operands).map Macro.name = some name := by
  have hunchanged : ∀ {test : Bool}, (if test then some s else none) = some s' →
      name ∈ s.macros.defined.names := by
    intro test htest
    cases test with
    | true => exact Option.some.inj htest ▸ hname
    | false => cases htest
  unfold State.runPlain at h
  dsimp only at h
  split at h
  · obtain ⟨m, hm, rfl⟩ := Option.map_eq_some_iff.mp h
    rw [Macros.define, Table.names_insert] at hname
    split at hname
    · exact Or.inl hname
    · rcases List.mem_append.mp hname with hname | hname
      · exact Or.inl hname
      · rw [hm, List.mem_singleton.mp hname]
        exact Or.inr ⟨rfl, rfl⟩
  · split at h
    · split at h
      · cases h
      · cases h
        exact Or.inl ((List.filter_sublist.map _).subset hname)
    · cases h
  · cases h
    exact Or.inl hname
  · exact Or.inl (hunchanged h)
  · exact Or.inl (hunchanged h)
  · exact Or.inl (hunchanged h)
  · cases h

theorem mem_names_run? {s s' : State} {line : Nat} {ts : List Located}
    (h : s.run? line ts = some s') {name : String} (hname : name ∈ s'.macros.defined.names) :
    name ∈ s.macros.defined.names ∨ definedName? (.directive line ts) = some name := by
  unfold State.run? at h
  dsimp only at h
  split at h
  · cases h
    exact Or.inl hname
  · next word first stop operands =>
    split at h
    · exact Or.inl (macros_beginIf? h ▸ hname)
    · exact Or.inl (macros_beginIf? h ▸ hname)
    · exact Or.inl (macros_beginIf? h ▸ hname)
    · exact Or.inl (macros_beginElseIf? h ▸ hname)
    · exact Or.inl (macros_beginElse? h ▸ hname)
    · exact Or.inl (macros_endIf? h ▸ hname)
    · split at h
      · rcases mem_names_runPlain h hname with hold | ⟨rfl, hdef⟩
        · exact Or.inl hold
        · exact Or.inr hdef
      · cases h
        exact Or.inl hname
  · split at h
    · cases h
    · cases h
      exact Or.inl hname

/-- A macro of the language is a number, whatever the body defines. -/
theorem expand_builtin {macros : Macros} {name : String} {n : Nat}
    (hdefined : macros.defined.get? name = none) (h : builtin? macros.line name = some n) :
    expand macros [.word name] = [.number (toString n)] := by
  have hget : macros.get? name = some (numberMacro name n) := by
    rw [Macros.get?, hdefined, h]
    rfl
  simp [expand, expandTo, expandWith, hget, numberMacro, pasted, pasteFrom]

/-- A token is replaced by itself, by a number or by an error, unless it names a macro that the body
defines. -/
theorem replacement_cases (macros : Macros) (t : Token) (ps : List Piece) :
    (∃ w ∈ macros.defined.names, t = .word w) ∨
      ∃ u, replacement macros t ps = (0, [u]) ∧ (u = t ∨ u = .invalid ∨ ∃ n, u = .number n) := by
  cases t with
  | word w =>
      cases hdefined : macros.defined.get? w with
      | some m =>
          obtain ⟨hm, rfl⟩ := Table.get?_eq_some_iff.mp hdefined
          exact Or.inl ⟨_, List.mem_map_of_mem hm, rfl⟩
      | none =>
          refine Or.inr ?_
          cases hbuiltin : builtin? macros.line w with
          | none =>
              refine ⟨.word w, ?_, Or.inl rfl⟩
              simp [replacement, Macros.get?, hdefined, hbuiltin]
          | some n =>
              refine ⟨.number (toString n), ?_, Or.inr (Or.inr ⟨_, rfl⟩)⟩
              simp [replacement, Macros.get?, hdefined, hbuiltin, numberMacro,
                expand_builtin hdefined hbuiltin]
  | number | symbol | paste | invalid => exact Or.inr ⟨_, rfl, Or.inl rfl⟩

theorem mem_readings_prepend {start stop : Nat} {s : Stream} {ts : List Token} {r : Reading}
    (h : r ∈ (Stream.prepend start stop s ts).readings) :
    r ∈ s.readings ∨ r.start = start ∧ r.stop = stop ∧ ∃ t ∈ ts, t.classify? = some r.kind := by
  induction ts with
  | nil => exact Or.inl h
  | cons t ts ih =>
      rw [Stream.prepend] at h
      split at h
      · cases h
      · next kind hkind =>
        rcases List.mem_cons.mp h with rfl | h
        · exact Or.inr ⟨rfl, rfl, t, List.mem_cons_self, hkind⟩
        · rcases ih h with h | ⟨hstart, hstop, u, hu, hclass⟩
          · exact Or.inl h
          · exact Or.inr ⟨hstart, hstop, u, List.mem_cons_of_mem _ hu, hclass⟩

theorem token_mem_of_mem_leadingTokens {ps : List Piece} {t : Located}
    (h : t ∈ leadingTokens ps) : .token t ∈ ps := by
  fun_induction leadingTokens ps with
  | case1 u ps ih =>
      rcases List.mem_cons.mp h with rfl | h
      · exact List.mem_cons_self
      · exact List.mem_cons_of_mem _ (ih h)
  | case2 => cases h

/-- The reading starts at the token `t` and reaches at least to its end. If it is a mark then `t` is
the mark, or `t` is one of `names`. If `t` is no word then the reading is that of `t` alone. -/
structure Reading.StartsAt (r : Reading) (names : List String) (t : Located) : Prop where
  start_eq : r.start = t.start
  stop_le : t.stop ≤ r.stop
  mark : ∀ m, r.kind = .mark m →
    r.stop = t.stop ∧ t.token = .symbol (String.singleton m.char) ∨ ∃ w ∈ names, t.token = .word w
  alone : (∀ w, t.token ≠ .word w) → r.stop = t.stop ∧ t.token.classify? = some r.kind

theorem replacement_of_not_word {t : Token} (h : ∀ w, t ≠ .word w) (macros : Macros)
    (ps : List Piece) : replacement macros t ps = (0, [t]) := by
  cases t with
  | word w => exact absurd rfl (h w)
  | number | symbol | paste | invalid => rfl

/-- The readings that an active token gives. -/
theorem startsAt_of_replacement {macros : Macros} {names : List String}
    (hnames : ∀ w ∈ macros.defined.names, w ∈ names) {t : Located} {ps : List Piece}
    (hlater : ∀ p ∈ ps, (Piece.token t).EndsBefore p) {n : Nat} {ts : List Token}
    (hreplaced : replacement macros t.token ps = (n, ts)) {r : Reading} (hstart : r.start = t.start)
    (hstop : r.stop = (leadingTokens (ps.take n)).getLast?.elim t.stop Located.stop)
    (hkind : ∃ u ∈ ts, u.classify? = some r.kind) : r.StartsAt names t := by
  have halone : (∀ w, t.token ≠ .word w) →
      r.stop = t.stop ∧ t.token.classify? = some r.kind := by
    intro hword
    rw [replacement_of_not_word hword] at hreplaced
    cases hreplaced
    obtain ⟨v, hv, hclass⟩ := hkind
    rw [List.mem_singleton.mp hv] at hclass
    exact ⟨hstop, hclass⟩
  rcases replacement_cases macros t.token ps with ⟨w, hw, htoken⟩ | ⟨u, heq, hu⟩
  · refine ⟨hstart, ?_, fun _ _ => Or.inr ⟨w, hnames w hw, htoken⟩, halone⟩
    -- An argument list ends at the last of its tokens, which comes after the name.
    cases hlast : (leadingTokens (ps.take n)).getLast? with
    | none => rw [hstop, hlast]; exact Nat.le_refl _
    | some v =>
        rw [hstop, hlast]
        have hv := token_mem_of_mem_leadingTokens (List.mem_of_getLast? hlast)
        exact hlater _ (List.mem_of_mem_take hv) t v rfl rfl
  · rw [heq] at hreplaced
    cases hreplaced
    have hend : r.stop = t.stop := hstop
    refine ⟨hstart, Nat.le_of_eq hend.symm, fun m hm => Or.inl ⟨hend, ?_⟩, halone⟩
    obtain ⟨v, hv, hclass⟩ := hkind
    rw [List.mem_singleton.mp hv, hm] at hclass
    have hsymbol := eq_symbol_of_classify? hclass
    rcases hu with rfl | rfl | ⟨k, rfl⟩
    · exact hsymbol
    · cases hsymbol
    · cases hsymbol

theorem startsAt_of_mem_streamFrom {names : List String} {ps : List Piece}
    (hascending : ps.Pairwise Piece.EndsBefore)
    (hps : ∀ p ∈ ps, ∀ w, definedName? p = some w → w ∈ names) {s : State}
    (hs : ∀ w ∈ s.macros.defined.names, w ∈ names) {skipped : Nat} {r : Reading}
    (h : r ∈ (streamFrom s skipped ps).readings) :
    ∃ t, .token t ∈ ps ∧ r.StartsAt names t := by
  induction ps generalizing s skipped with
  | nil => cases h
  | cons p ps ih =>
      obtain ⟨hlater, hascending⟩ := List.pairwise_cons.mp hascending
      have hps' : ∀ p ∈ ps, ∀ w, definedName? p = some w → w ∈ names :=
        fun p hp => hps p (List.mem_cons_of_mem _ hp)
      have hrest : ∀ {s' : State} {n : Nat}, (∀ w ∈ s'.macros.defined.names, w ∈ names) →
          r ∈ (streamFrom s' n ps).readings → ∃ t, .token t ∈ p :: ps ∧ r.StartsAt names t := by
        intro s' n hs' h
        obtain ⟨t, ht, hr⟩ := ih hascending hps' hs' h
        exact ⟨t, List.mem_cons_of_mem _ ht, hr⟩
      cases skipped with
      | succ n => exact hrest hs (by simpa [streamFrom] using h)
      | zero =>
          cases p with
          | directive line ts =>
              rw [streamFrom] at h
              split at h
              · next s' hrun =>
                refine hrest ?_ h
                intro w hw
                rcases mem_names_run? hrun hw with hw | hw
                · exact hs w hw
                · exact hps _ List.mem_cons_self w hw
              · cases h
          | token t =>
              rw [streamFrom] at h
              split at h
              · rcases mem_readings_prepend h with h | ⟨hstart, hstop, hkind⟩
                · exact hrest hs h
                · exact ⟨t, List.mem_cons_self,
                    startsAt_of_replacement hs hlater rfl hstart hstop hkind⟩
              · exact hrest hs h

/-- Every reading of a body starts at a token that stands in it. -/
theorem exists_start_of_mem_stream {body : List Char} {r : Reading}
    (h : r ∈ (stream body).readings) :
    ∃ t, Stands body t ∧ r.StartsAt (definedNames body) t := by
  have hnames : ∀ p ∈ pieces .start 0 0 (lexemes body), ∀ w, definedName? p = some w →
      w ∈ definedNames body := fun p hp w hw => List.mem_filterMap.mpr ⟨p, hp, hw⟩
  have hbody : body = [] ++ (lexemes body).flatMap Lexeme.raw := (flatMap_raw_lexemes body).symm
  obtain ⟨t, ht, hr⟩ := startsAt_of_mem_streamFrom (pairwise_pieces _ _ _ _) hnames
    (fun w hw => by cases hw) h
  exact ⟨t, stands_of_mem_pieces hbody (fun _ hl => hl) ht, hr⟩

end ShaderUplift.Preprocessing
