import ShaderUplift.Body
import ShaderUplift.Proofs.Preprocessing.Origins

/-! The tokens of a body and its text. The tokens divide the text into parts, and a token is written
as its part with one exception: a mark that a macro of the body expands to is written as the mark and
not as the invocation. So a body is reproduced exactly when no mark stands for an invocation, and
always when the body defines no macro. -/

namespace ShaderUplift

open Lexing Preprocessing Text

/-- A token with the part of the text that it stands for. -/
structure Part where
  text : List Char
  token : BodyToken

namespace Part

/-- The token is written as its part of the text. -/
def Faithful (p : Part) : Prop := p.token.chars = p.text

/-- The text begins with the name of a macro that the body defines. -/
def IsInvocation (body cs : List Char) : Prop :=
  ∃ l ∈ lexemes body, l.kind = .word ∧ String.ofList l.cooked ∈ definedNames body ∧ l.raw <+: cs

/-- The token is a mark, and its part of the text is the invocation of a macro. -/
def MarksInvocation (body : List Char) (p : Part) : Prop :=
  ∃ m, p.token = .punct m ∧ IsInvocation body p.text

end Part

namespace Body

theorem chars_gap (cs : List Char) : (gap cs).flatMap BodyToken.chars = cs := by
  unfold gap
  split
  · next h => rw [List.isEmpty_iff.mp h]; rfl
  · split <;> simp [BodyToken.chars]

theorem chars_tokenOf {kind : TokenClass} (h : ∀ m, kind ≠ .mark m) (afterDot : Bool)
    (cs : List Char) : (tokenOf kind afterDot cs).chars = cs := by
  cases kind with
  | identifier => cases afterDot <;> exact String.toList_ofList
  | number | other => exact String.toList_ofList
  | mark m => exact absurd rfl (h m)

/-- The characters of the body that a reading stands for. -/
def span (body : List Char) (r : Reading) : List Char :=
  (body.drop r.start).take (r.stop - r.start)

theorem drop_drop_sub (cs : List Char) {m n : Nat} (h : m ≤ n) :
    (cs.drop m).drop (n - m) = cs.drop n := by
  rw [List.drop_drop, Nat.add_sub_cancel' h]

/-- A reading that is not passed over gives the text before it, and a token for its span. -/
theorem assemble_cons_of_le {body : List Char} {r : Reading} {last : Nat} (hstart : last ≤ r.start)
    (hstop : r.start ≤ r.stop) (afterDot : Bool) (rs : List Reading) :
    (assemble last afterDot (body.drop last) (r :: rs)).1 =
      gap ((body.drop last).take (r.start - last)) ++ tokenOf r.kind afterDot (span body r) ::
        (assemble r.stop (r.kind = .mark .dot) (body.drop r.stop) rs).1 := by
  rw [assemble, if_neg (Nat.not_lt.mpr hstart)]
  simp only [drop_drop_sub body hstart, drop_drop_sub body hstop]
  rfl

theorem assemble_cons_of_lt {rest : List Char} {r : Reading} {last : Nat} (h : r.start < last)
    (afterDot : Bool) (rs : List Reading) :
    assemble last afterDot rest (r :: rs) = assemble last afterDot rest rs := by
  rw [assemble, if_pos h]

/-- The tokens laid over a text divide it into parts; only a mark may differ from its part, which is
then the span of its reading. -/
theorem assemble_parts {body : List Char} {rs : List Reading} (hrs : ∀ r ∈ rs, r.start ≤ r.stop)
    (last : Nat) (afterDot : Bool) :
    ∃ parts : List Part, (assemble last afterDot (body.drop last) rs).1 = parts.map Part.token ∧
      parts.flatMap Part.text = body.drop last ∧
      ∀ p ∈ parts, p.Faithful ∨
        ∃ r ∈ rs, ∃ m, r.kind = .mark m ∧ p = ⟨span body r, .punct m⟩ := by
  have hgap : ∀ cs : List Char, ∃ parts : List Part, gap cs = parts.map Part.token ∧
      parts.flatMap Part.text = cs ∧ ∀ p ∈ parts, p.Faithful := by
    intro cs
    refine ⟨(gap cs).map fun t => ⟨t.chars, t⟩, ?_, ?_, ?_⟩
    · rw [List.map_map]
      exact (List.map_id _).symm
    · rw [List.flatMap_map]
      exact chars_gap cs
    · intro p hp
      obtain ⟨t, -, rfl⟩ := List.mem_map.mp hp
      rfl
  induction rs generalizing last afterDot with
  | nil =>
      obtain ⟨parts, htokens, htext, hfaithful⟩ := hgap (body.drop last)
      exact ⟨parts, htokens, htext, fun p hp => Or.inl (hfaithful p hp)⟩
  | cons r rs ih =>
      have hrs' : ∀ r ∈ rs, r.start ≤ r.stop := fun r hr => hrs r (List.mem_cons_of_mem _ hr)
      have hstop := hrs r List.mem_cons_self
      by_cases hstart : r.start < last
      · obtain ⟨parts, htokens, htext, hparts⟩ := ih hrs' last afterDot
        rw [assemble_cons_of_lt hstart]
        refine ⟨parts, htokens, htext, fun p hp => (hparts p hp).imp_right ?_⟩
        rintro ⟨r', hr', hmark⟩
        exact ⟨r', List.mem_cons_of_mem _ hr', hmark⟩
      · obtain ⟨parts, htokens, htext, hparts⟩ := ih hrs' r.stop (r.kind = .mark .dot)
        obtain ⟨before, hbefore, hbeforeText, hfaithful⟩ :=
          hgap ((body.drop last).take (r.start - last))
        have hle : last ≤ r.start := Nat.not_lt.mp hstart
        rw [assemble_cons_of_le hle hstop]
        refine ⟨before ++ ⟨span body r, tokenOf r.kind afterDot (span body r)⟩ :: parts, ?_, ?_, ?_⟩
        · rw [hbefore, htokens, List.map_append, List.map_cons]
        · simp only [List.flatMap_append, List.flatMap_cons, hbeforeText, htext]
          rw [span, ← drop_drop_sub body hstop, List.take_append_drop, ← drop_drop_sub body hle,
            List.take_append_drop]
        · intro p hp
          simp only [List.mem_append, List.mem_cons] at hp
          rcases hp with hp | rfl | hp
          · exact Or.inl (hfaithful p hp)
          · by_cases hmark : ∃ m, r.kind = .mark m
            · obtain ⟨m, hm⟩ := hmark
              exact Or.inr ⟨r, List.mem_cons_self, m, hm, by rw [hm]; rfl⟩
            · exact Or.inl (chars_tokenOf (fun m hm => hmark ⟨m, hm⟩) afterDot _)
          · refine (hparts p hp).imp_right ?_
            rintro ⟨r', hr', hmark⟩
            exact ⟨r', List.mem_cons_of_mem _ hr', hmark⟩

/-- A lexeme that a reading starts with is the start of its span. -/
theorem raw_prefix_span {body : List Char} {r : Reading} {t : Located} {l : Lexeme}
    (hstart : r.start = t.start) (hstop : t.stop ≤ r.stop)
    (hlength : t.stop = t.start + l.raw.length) (hlead : l.raw <+: body.drop t.start) :
    l.raw <+: span body r := by
  rw [span, hstart]
  refine List.prefix_take_iff.mpr ⟨hlead, ?_⟩
  omega

theorem span_eq_raw {body : List Char} {r : Reading} {t : Located} {l : Lexeme}
    (hstart : r.start = t.start) (hstop : r.stop = t.stop)
    (hlength : t.stop = t.start + l.raw.length) (hlead : l.raw <+: body.drop t.start) :
    span body r = l.raw := by
  rw [span, hstart, hstop, hlength, Nat.add_sub_cancel_left]
  exact (List.prefix_iff_eq_take.mp hlead).symm

/-- A reading that is a mark spans the mark, or an invocation. -/
theorem span_of_mark {body : List Char} {r : Reading} (h : r ∈ (stream body).readings) {m : Mark}
    (hm : r.kind = .mark m) : span body r = [m.char] ∨ Part.IsInvocation body (span body r) := by
  obtain ⟨t, ⟨l, hl, htoken, hlength, hlead⟩, hstart, hstop, hmark, -⟩ :=
    exists_start_of_mem_stream h
  rcases hmark m hm with ⟨hend, hsymbol⟩ | ⟨w, hw, hword⟩
  · left
    rw [hsymbol] at htoken
    obtain ⟨hkind, hcooked⟩ := kind_of_token?_symbol htoken
    rw [span_eq_raw hstart hend hlength hlead, (spelled_of_mem_lexemesFrom hl).1 hkind,
      ← @String.toList_ofList l.cooked, hcooked, String.toList_singleton]
  · right
    rw [hword] at htoken
    obtain ⟨hkind, hcooked⟩ := kind_of_token?_word htoken
    exact ⟨l, hl, hkind, hcooked ▸ hw, raw_prefix_span hstart hstop hlength hlead⟩

theorem start_le_stop_of_mem_stream {body : List Char} {r : Reading}
    (h : r ∈ (stream body).readings) : r.start ≤ r.stop := by
  obtain ⟨t, ⟨l, -, -, hlength, -⟩, hstart, hstop, -⟩ := exists_start_of_mem_stream h
  omega

/-- An invocation is no shorter than a mark and does not begin with one. -/
theorem mark_ne_of_isInvocation {body cs : List Char} (h : Part.IsInvocation body cs) (m : Mark) :
    1 ≤ cs.length ∧ cs ≠ [m.char] := by
  obtain ⟨l, hl, hkind, -, hlead⟩ := h
  have hstart := (spelled_of_mem_lexemesFrom hl).2 hkind
  cases hraw : l.raw with
  | nil =>
      rw [hraw] at hstart
      cases hstart
  | cons c raw =>
      rw [hraw, startsWith] at hstart
      rw [hraw] at hlead
      obtain ⟨rest, rfl⟩ := hlead
      refine ⟨Nat.le_add_left _ _, ?_⟩
      intro heq
      rw [List.cons_append] at heq
      rw [(List.cons.inj heq).1] at hstart
      cases m <;> simp [Mark.char, isWordStart] at hstart

/-- The tokens of a body divide its text into parts; a token is written as its part or is a mark for
an invocation. -/
theorem parse_parts (text : String) :
    ∃ parts : List Part, (parse text).1.tokens = parts.map Part.token ∧
      parts.flatMap Part.text = text.toList ∧
      ∀ p ∈ parts, p.Faithful ∨ p.MarksInvocation text.toList := by
  obtain ⟨parts, htokens, htext, hparts⟩ := @assemble_parts text.toList
    (stream text.toList).readings (fun r hr => start_le_stop_of_mem_stream hr) 0 false
  refine ⟨parts, htokens, htext, ?_⟩
  intro p hp
  rcases hparts p hp with hp | ⟨r, hr, m, hm, rfl⟩
  · exact Or.inl hp
  · rcases span_of_mark hr hm with hspan | hspan
    · exact Or.inl hspan.symm
    · exact Or.inr ⟨m, rfl, hspan⟩

end Body

namespace Part

theorem not_faithful_of_marksInvocation {body : List Char} {p : Part}
    (h : p.MarksInvocation body) : ¬p.Faithful := by
  obtain ⟨m, hm, hinvocation⟩ := h
  intro hp
  rw [Faithful, hm] at hp
  exact (Body.mark_ne_of_isInvocation hinvocation m).2 hp.symm

theorem length_chars_le {body : List Char} {p : Part}
    (h : p.Faithful ∨ p.MarksInvocation body) : p.token.chars.length ≤ p.text.length := by
  rcases h with h | ⟨m, hm, hinvocation⟩
  · rw [Faithful] at h
    rw [h]
  · rw [hm]
    exact (Body.mark_ne_of_isInvocation hinvocation m).1

/-- No token is longer than its part, so the texts agree only if every token is its part. -/
theorem faithful_of_flatMap_eq {body : List Char} {parts : List Part}
    (hparts : ∀ p ∈ parts, p.Faithful ∨ p.MarksInvocation body)
    (h : parts.flatMap (fun p => p.token.chars) = parts.flatMap Part.text) :
    ∀ p ∈ parts, p.Faithful := by
  have hshorter : ∀ ps : List Part, (∀ p ∈ ps, p.Faithful ∨ p.MarksInvocation body) →
      (ps.flatMap fun p => p.token.chars).length ≤ (ps.flatMap Part.text).length := by
    intro ps hps
    induction ps with
    | nil => exact Nat.le_refl _
    | cons p ps ih =>
        obtain ⟨hp, hps⟩ := List.forall_mem_cons.mp hps
        have hhead := length_chars_le hp
        have htail := ih hps
        simp only [List.flatMap_cons, List.length_append]
        omega
  induction parts with
  | nil => nofun
  | cons p parts ih =>
      obtain ⟨hp, hparts⟩ := List.forall_mem_cons.mp hparts
      rw [List.flatMap_cons, List.flatMap_cons] at h
      have hlength : p.token.chars.length = p.text.length := by
        have htotal := congrArg List.length h
        have hhead := length_chars_le hp
        have htail := hshorter parts hparts
        simp only [List.length_append] at htotal
        omega
      obtain ⟨hhere, hrest⟩ := List.append_inj h hlength
      exact List.forall_mem_cons.mpr ⟨hhere, ih hparts hrest⟩

end Part

namespace Body

/-- The tokens of a body divide its text into parts. A token is written as its part, unless it is a
mark for the invocation of a macro that the body defines; the body is reproduced exactly when there
is no such mark, and so whenever it defines no macro. -/
theorem parse_reproduces_text (text : String) :
    ∃ parts : List Part, (parse text).1.tokens = parts.map Part.token ∧
      parts.flatMap Part.text = text.toList ∧
      (∀ p ∈ parts, p.Faithful ∨ p.MarksInvocation text.toList) ∧
      ((parse text).1.toText = text ↔ ∀ p ∈ parts, ¬p.MarksInvocation text.toList) ∧
      (definedNames text.toList = [] → (parse text).1.toText = text) := by
  obtain ⟨parts, htokens, htext, hparts⟩ := parse_parts text
  have hchars : (parse text).1.toText =
      String.ofList (parts.flatMap fun p => p.token.chars) := by
    rw [toText, htokens, List.flatMap_map]
  have hiff : (parse text).1.toText = text ↔ ∀ p ∈ parts, ¬p.MarksInvocation text.toList := by
    rw [hchars]
    constructor
    · intro h p hp hmark
      refine Part.not_faithful_of_marksInvocation hmark ?_
      refine Part.faithful_of_flatMap_eq hparts ?_ p hp
      rw [htext, ← h, String.toList_ofList]
    · intro h
      have hfaithful : ∀ p ∈ parts, p.token.chars = p.text :=
        fun p hp => (hparts p hp).resolve_right (h p hp)
      rw [← String.toList_inj, String.toList_ofList, ← htext]
      exact congrArg List.flatten (List.map_congr_left hfaithful)
  refine ⟨parts, htokens, htext, hparts, hiff, ?_⟩
  intro hnone
  rw [hiff]
  rintro p - ⟨m, -, l, -, -, hname, -⟩
  rw [hnone] at hname
  cases hname

/-- A body with a conditional and an error, but no macro of its own. -/
def maskedText : String := "#ifdef A\nuv[0].x\n#else\nuv[1] . y @ z\n#endif"

theorem parse_reproduces_masked :
    definedNames maskedText.toList = [] ∧ (parse maskedText).1.toText = maskedText := by
  have hnone : definedNames maskedText.toList = [] := by decide +kernel
  obtain ⟨_, -, -, -, -, hsame⟩ := parse_reproduces_text maskedText
  exact ⟨hnone, hsame hnone⟩

/-- The name of a macro for a dot is written as the dot. -/
theorem macro_dot_not_reproduced :
    (parse "#define DOT .\nuv DOT x").1.toText = "#define DOT .\nuv . x" ∧
      (parse "#define DOT .\nuv DOT x").1.toText ≠ "#define DOT .\nuv DOT x" := by
  decide +kernel

end Body

end ShaderUplift
