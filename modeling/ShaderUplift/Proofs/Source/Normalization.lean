import ShaderUplift.Proofs.Source.InsertedLine

/-! What normalization leaves of a source. A reader that sees one character at a time, and remembers
where it is and half of a mark at most, writes the normalized text. Every newline is written once,
inside comments too, and no tab and no comment is left, so a second run finds nothing to do. -/

namespace ShaderUplift.Source

/-- Where a reader of single characters is in a text. -/
inductive CommentState where
  | code
  /-- In code after a slash, which is not written before the next character is known. -/
  | slash
  | line
  | block
  /-- In a block comment after a star, which may be the first half of its end. -/
  | star
  deriving DecidableEq, Repr

namespace CommentState

/-- The state after a character, and what is written for it. -/
def step : CommentState → Char → CommentState × List Char
  | .code, '/' => (.slash, [])
  | .code, c => (.code, [c])
  | .slash, '/' => (.line, [])
  | .slash, '*' => (.block, [' '])
  | .slash, c => (.code, ['/', c])
  | .line, '\n' => (.code, ['\n'])
  | .line, _ => (.line, [])
  | .block, '*' => (.star, [])
  | .block, '\n' => (.block, ['\n'])
  | .block, _ => (.block, [])
  | .star, '/' => (.code, [])
  | .star, '*' => (.star, [])
  | .star, '\n' => (.block, ['\n'])
  | .star, _ => (.block, [])

/-- What is still to be written when the text ends. -/
def rest : CommentState → List Char
  | .slash => ['/']
  | .code | .line | .block | .star => []

/-- The text that is written from a state on. -/
def run : CommentState → List Char → List Char
  | s, [] => s.rest
  | s, c :: cs => (s.step c).2 ++ run (s.step c).1 cs

/-- The comment that the reader is in. -/
def comment : CommentState → Option CommentKind
  | .code | .slash => none
  | .line => some .line
  | .block | .star => some .block

/-- The half of a mark that the reader has seen. -/
def half : CommentState → List Char
  | .slash => ['/']
  | .star => ['*']
  | .code | .line | .block => []

/-- One character is read as it is with the half of a mark before it. -/
theorem stripFrom_step (s : CommentState) (c : Char) (cs : List Char) :
    stripFrom s.comment (s.half ++ c :: cs) =
      (s.step c).2 ++ stripFrom (s.step c).1.comment ((s.step c).1.half ++ cs) := by
  cases s with
  | code =>
      by_cases hslash : c = '/'
      · subst hslash
        rfl
      · simp [step, comment, half, stripFrom, hslash]
  | slash =>
      by_cases hslash : c = '/'
      · subst hslash
        rfl
      by_cases hstar : c = '*'
      · subst hstar
        rfl
      · simp [step, comment, half, stripFrom, hslash, hstar]
  | line =>
      by_cases hline : c = '\n'
      · subst hline
        rfl
      · simp [step, comment, half, stripFrom]
  | block =>
      by_cases hstar : c = '*'
      · subst hstar
        rfl
      by_cases hline : c = '\n'
      · subst hline
        rfl
      · simp [step, comment, half, stripFrom, hstar]
  | star =>
      by_cases hslash : c = '/'
      · subst hslash
        rfl
      by_cases hstar : c = '*'
      · subst hstar
        rfl
      by_cases hline : c = '\n'
      · subst hline
        rfl
      · simp [step, comment, half, stripFrom, hslash, hstar]

theorem run_eq_stripFrom (s : CommentState) (cs : List Char) :
    s.run cs = stripFrom s.comment (s.half ++ cs) := by
  induction cs generalizing s with
  | nil => cases s <;> rfl
  | cons c cs ih => rw [run, ih, stripFrom_step]

end CommentState

/-- A source is normalized with each tab written as four spaces, and then as by a reader of single
characters: as one that knows only whether it is in code, in a line comment or in a block comment and
looks one character ahead, and as one that remembers half of a mark instead. -/
theorem normalize_by_character (source : String) :
    expandTabs source.toList =
        source.toList.flatMap (fun c => if c = '\t' then [' ', ' ', ' ', ' '] else [c]) ∧
      (normalize source).toList = stripFrom none (expandTabs source.toList) ∧
      (normalize source).toList = CommentState.code.run (expandTabs source.toList) := by
  refine ⟨rfl, toList_normalize source, ?_⟩
  rw [CommentState.run_eq_stripFrom]
  exact toList_normalize source

example : CommentState.code.run "a/*/b*/c//*\n/".toList = "a c\n/".toList := by decide

/-- A text without tabs and comments. -/
structure Normal (cs : List Char) : Prop where
  no_tab : '\t' ∉ cs
  free : CommentFree cs

/-- Two slashes, or a slash and a star, stand nowhere in a text that opens no comment. -/
theorem CommentFree.not_isInfix {cs : List Char} (h : CommentFree cs) {d : Char}
    (hd : d = '/' ∨ d = '*') : ¬['/', d] <:+: cs := by
  intro hinfix
  have hpair := List.IsChain.infix h hinfix
  rw [List.isChain_pair] at hpair
  exact hpair ⟨rfl, hd⟩

theorem stripFrom_of_commentFree {cs : List Char} (h : CommentFree cs) :
    stripFrom none cs = cs := by
  induction cs with
  | nil => rfl
  | cons c cs ih =>
      have hopen : opensComment (c :: cs) = none := by
        cases cs with
        | nil => simp [opensComment]
        | cons d cs => exact opensComment_eq_none_iff.mpr (List.isChain_cons_cons.mp h).1
      rw [stripFrom_code hopen, ih h.tail]

/-- A normal text is normalized to itself. -/
theorem Normal.normalize_eq {source : String} (h : Normal source.toList) :
    normalize source = source := by
  have htabs : ∀ c ∈ source.toList, c ≠ '\t' := by
    rintro c hc rfl
    exact h.no_tab hc
  rw [normalize, expandTabs_of_forall_ne htabs, stripComments_eq_stripFrom,
    stripFrom_of_commentFree h.free, String.ofList_toList]

/-- Nothing but the space for a block comment is written that is not read. -/
theorem mem_of_mem_stripFrom {state : Option CommentKind} {cs : List Char} {c : Char}
    (h : c ∈ stripFrom state cs) : c ∈ cs ∨ c = ' ' := by
  fun_induction stripFrom state cs with
  | case1 => cases h
  | case2 cs ih | case7 cs ih =>
      exact (ih h).imp_left fun hc => List.mem_cons_of_mem _ (List.mem_cons_of_mem _ hc)
  | case3 cs ih =>
      rcases List.mem_cons.mp h with rfl | h
      · exact Or.inr rfl
      · exact (ih h).imp_left fun hc => List.mem_cons_of_mem _ (List.mem_cons_of_mem _ hc)
  | case4 d cs hline hblock ih | case5 cs ih | case8 cs ih =>
      rcases List.mem_cons.mp h with rfl | h
      · exact Or.inl List.mem_cons_self
      · exact (ih h).imp_left (List.mem_cons_of_mem _)
  | case6 d cs hd ih | case9 d cs hclose hd ih =>
      exact (ih h).imp_left (List.mem_cons_of_mem _)

theorem tab_not_mem_expandTabs (cs : List Char) : '\t' ∉ expandTabs cs := by
  intro h
  obtain ⟨c, -, hc⟩ := List.mem_flatMap.mp h
  by_cases htab : c = '\t'
  · simp [htab] at hc
  · rw [if_neg htab, List.mem_singleton] at hc
    exact htab hc.symm

theorem normal_normalize (source : String) : Normal (normalize source).toList := by
  refine ⟨?_, commentFree_normalize source⟩
  rw [toList_normalize]
  intro htab
  rcases mem_of_mem_stripFrom htab with hmem | hspace
  · exact tab_not_mem_expandTabs _ hmem
  · exact absurd hspace (by decide)

/-- Every newline is written once, whatever comment it is in. -/
theorem count_newline_stripFrom (state : Option CommentKind) (cs : List Char) :
    (stripFrom state cs).count '\n' = cs.count '\n' := by
  fun_induction stripFrom state cs with
  | case1 => rfl
  | case2 cs ih | case3 cs ih | case7 cs ih => simpa using ih
  | case4 c cs hline hblock ih => rw [List.count_cons, List.count_cons, ih]
  | case5 cs ih | case8 cs ih => simpa using ih
  | case6 c cs hc ih => rw [ih, List.count_cons_of_ne hc]
  | case9 c cs hclose hc ih => rw [ih, List.count_cons_of_ne hc]

theorem count_newline_expandTabs (cs : List Char) :
    (expandTabs cs).count '\n' = cs.count '\n' := by
  induction cs with
  | nil => rfl
  | cons c cs ih =>
      have hcons : expandTabs (c :: cs) = expandTabs [c] ++ expandTabs cs :=
        expandTabs_append [c] cs
      have hone : (expandTabs [c]).count '\n' = [c].count '\n' := by
        by_cases htab : c = '\t'
        · subst htab
          rfl
        · rw [expandTabs_of_forall_ne (List.forall_mem_singleton.mpr htab)]
      rw [hcons, List.count_append, hone, ih, ← List.count_append]
      rfl

/-- A normalized source has no tab and no comment left, keeps its lines, and is normalized to
itself. -/
theorem normalize_settles (source : String) :
    '\t' ∉ (normalize source).toList ∧ ¬['/', '/'] <:+: (normalize source).toList ∧
      ¬['/', '*'] <:+: (normalize source).toList ∧
      (normalize source).toList.count '\n' = source.toList.count '\n' ∧
      normalize (normalize source) = normalize source := by
  have hnormal := normal_normalize source
  refine ⟨hnormal.no_tab, hnormal.free.not_isInfix (Or.inl rfl),
    hnormal.free.not_isInfix (Or.inr rfl), ?_, hnormal.normalize_eq⟩
  calc (normalize source).toList.count '\n'
      = (stripFrom none (expandTabs source.toList)).count '\n' := by
        rw [toList_normalize]
    _ = (expandTabs source.toList).count '\n' := count_newline_stripFrom _ _
    _ = source.toList.count '\n' := count_newline_expandTabs _

end ShaderUplift.Source
