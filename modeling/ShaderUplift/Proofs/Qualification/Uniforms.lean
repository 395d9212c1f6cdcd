import ShaderUplift.Proofs.Qualification.Elements

/-! Uniforms in converted entry points. A reference is always qualified, so a retained uniform is
unqualified only where its name stands in other text, and nowhere when the body is plain. The
arguments of a macro are copied, so a uniform that is passed to a macro of the body stays
unqualified. -/

namespace ShaderUplift

open Lexing Preprocessing Source Text

/-- A whole word exposes no other word. -/
theorem exposes_whole_word {word m ys : List Char} (hne : m ≠ []) (hm : m.all isWordChar = true)
    (hword : m ≠ word) (hstop : startsWith isWordChar ys = false) (a d : Bool) :
    exposes word a d (m ++ ys) = exposes word true false ys := by
  have hrun : (m ++ ys.takeWhile isWordChar == word) = false := by
    rw [takeWhile_eq_nil_of_startsWith hstop, List.append_nil]
    exact beq_eq_false_iff_ne.mpr hword
  rw [exposes_word_append hne hm, hrun]
  simp

theorem exposes_no_word {word m ys : List Char} (hm : m.any isWordChar = false)
    (hys : ∀ a d, exposes word a d ys = false) (a d : Bool) :
    exposes word a d (m ++ ys) = false := by
  induction m generalizing a d with
  | nil => exact hys a d
  | cons c m ih =>
      rw [List.any_cons, Bool.or_eq_false_iff] at hm
      rw [List.cons_append, exposes, hm.1, ih hm.2]
      rfl

/-- Blanks keep a dot before them in force. -/
theorem exposes_blank {word m ys : List Char} {d : Bool} (hm : m.all isBlank = true)
    (hys : ∀ a, exposes word a d ys = false) (a : Bool) :
    exposes word a d (m ++ ys) = false := by
  induction m generalizing a with
  | nil => exact hys a
  | cons c m ih =>
      rw [List.all_cons, Bool.and_eq_true] at hm
      rw [List.cons_append, exposes, not_isWordChar_of_isBlank hm.1, if_pos hm.1, ih hm.2]
      rfl

theorem exposes_numeric_from {word m ys : List Char} (hword : startsWith isWordStart word = true)
    (hys : ∀ a d, exposes word a d ys = false)
    (hm : m.IsChain fun c d => isWordStart d = true → isWordChar c = true ∨ c = '.') {a d : Bool}
    (hstart : startsWith isWordStart m = true → a = true ∨ d = true) :
    exposes word a d (m ++ ys) = false := by
  induction m generalizing a d with
  | nil => exact hys a d
  | cons c m ih =>
      obtain ⟨hnext, hm⟩ := List.isChain_cons.mp hm
      have hrest : exposes word (isWordChar c) (if isBlank c then d else c == '.') (m ++ ys) =
          false := by
        refine ih hm ?_
        intro hm'
        cases m with
        | nil => cases hm'
        | cons e m =>
            rcases hnext e rfl hm' with hc | rfl
            · exact Or.inl hc
            · have hblank : isBlank '.' = false := by decide
              rw [hblank]
              exact Or.inr rfl
      have hhere : (isWordChar c && !a && !d &&
          (c :: (m ++ ys)).takeWhile isWordChar == word) = false := by
        cases hc : isWordStart c with
        | true =>
            rcases hstart hc with rfl | rfl <;> simp
        | false =>
            rw [Bool.and_eq_false_iff]
            refine Or.inr (beq_eq_false_iff_ne.mpr ?_)
            rintro rfl
            rw [List.takeWhile_cons] at hword
            split at hword
            · rw [startsWith, hc] at hword
              cases hword
            · cases hword
      rw [List.cons_append, exposes, hhere, hrest]
      rfl

theorem exposes_numeric {word m ys : List Char} (hword : startsWith isWordStart word = true)
    (hm : Numeric m) (hys : ∀ a d, exposes word a d ys = false) (a d : Bool) :
    exposes word a d (m ++ ys) = false := by
  refine exposes_numeric_from hword hys hm.2 ?_
  rw [hm.1]
  nofun

theorem mem_fragmentBuiltins {stage : Stage} {old new : String}
    (h : legacyName? stage old = some new) : (old, new) ∈ fragmentBuiltins := by
  cases stage with
  | vertex => cases h
  | fragment =>
      obtain ⟨before, after, hsplit, -⟩ := List.lookup_eq_some_iff.mp h
      rw [hsplit]
      exact List.mem_append_right _ List.mem_cons_self

/-- The new name of an old built-in is one word. -/
theorem isWord_of_legacyName? {stage : Stage} {old new : String}
    (h : legacyName? stage old = some new) : isWord new = true := by
  have hall : ∀ p ∈ fragmentBuiltins, isWord p.2 = true := by decide
  exact hall (old, new) (mem_fragmentBuiltins h)

section Written

variable {stage : Stage} {uniforms : Table Declaration} {accessor : String}

theorem startsWith_written_ident (haccessor : isWord accessor = true) {name : String}
    (hname : isWord name = true) (after : List Char) :
    startsWith isWordChar
      ((writtenToken stage uniforms accessor (.ident name)).chars ++ after) = true := by
  rw [writtenToken]
  split
  · next new hnew => exact startsWith_of_isWord (isWord_of_legacyName? hnew) after
  · split
    · simp only [BodyToken.chars, String.toList_append, List.append_assoc]
      exact startsWith_of_isWord haccessor _
    · exact startsWith_of_isWord hname after

/-- Writing a body keeps the kind of its first character. -/
theorem startsWith_written (haccessor : isWord accessor = true) {tail : List Char}
    (htail : startsWith isWordChar tail = false) {ts : List BodyToken} {afterDot : Bool}
    (h : Tidy afterDot ts) :
    startsWith isWordChar
        ((ts.map (writtenToken stage uniforms accessor)).flatMap BodyToken.chars ++ tail) =
      startsWith isWordChar (ts.flatMap BodyToken.chars) := by
  induction ts generalizing afterDot with
  | nil => exact htail
  | cons t ts ih =>
      rw [List.map_cons, List.flatMap_cons, List.flatMap_cons, List.append_assoc]
      cases t with
      | ident name =>
          rw [startsWith_written_ident haccessor h.1.1.isWord]
          exact (startsWith_of_isWord h.1.1.isWord _).symm
      | field | number | space | punct | text => exact startsWith_append_congr (ih h.2) _

/-- The name of a retained uniform that the converter writes in references only. -/
structure Unshared (stage : Stage) (uniforms : Table Declaration) (accessor name : String) :
    Prop where
  identifier : Identifier name
  kept : uniforms.contains name = true
  current : legacyName? stage name = none
  fresh : ∀ old, legacyName? stage old ≠ some name
  ne_accessor : name ≠ accessor

theorem exposes_written_ident (haccessor : isWord accessor = true) {name : String}
    (hname : Unshared stage uniforms accessor name) {other : String}
    (hother : isWord other = true) {ys : List Char} (hstop : startsWith isWordChar ys = false)
    (a d : Bool) :
    exposes name.toList a d
        ((writtenToken stage uniforms accessor (.ident other)).chars ++ ys) =
      exposes name.toList true false ys := by
  have hwhole : ∀ {w : String}, isWord w = true → w ≠ name → ∀ {ys : List Char},
      startsWith isWordChar ys = false →
        exposes name.toList a d (w.toList ++ ys) = exposes name.toList true false ys := by
    intro w hw hne ys hys
    obtain ⟨hnonempty, hall⟩ := isWord_iff.mp hw
    exact exposes_whole_word hnonempty hall (fun heq => hne (String.toList_inj.mp heq)) hys a d
  rw [writtenToken]
  split
  · next new hnew =>
    apply hwhole (isWord_of_legacyName? hnew) _ hstop
    rintro rfl
    exact hname.fresh other hnew
  · split
    · obtain ⟨hnonempty, hall⟩ := isWord_iff.mp hother
      simp only [BodyToken.chars, String.toList_append, List.append_assoc]
      rw [hwhole haccessor (Ne.symm hname.ne_accessor) rfl]
      exact exposes_dot_word hnonempty hall true false ys
    · next hnot =>
      apply hwhole hother _ hstop
      rintro rfl
      exact hnot hname.kept

theorem exposes_other_word {name word : String} {after ys : List Char} (hname : Identifier name)
    (hword : OtherWord word after) (hys : startsWith isWordChar ys = startsWith isWordChar after)
    (a d : Bool) :
    exposes name.toList a d (word.toList ++ ys) = exposes name.toList true false ys := by
  obtain ⟨hne, hall⟩ := isWord_iff.mp hword.isWord
  refine exposes_whole_word hne hall ?_ (hys.trans hword.stop) a d
  intro heq
  rw [String.toList_inj.mp heq] at hword
  exact hword.read hname

/-- A tidy body exposes no uniform when it is written: every token is passed over in turn. -/
theorem not_exposes_written (haccessor : isWord accessor = true) {name : String}
    (hname : Unshared stage uniforms accessor name) {tail : List Char}
    (htail : tail.any isWordChar = false) {ts : List BodyToken} {afterDot : Bool}
    (h : Tidy afterDot ts) {a d : Bool} (hdot : afterDot = true → d = true) :
    exposes name.toList a d
      ((ts.map (writtenToken stage uniforms accessor)).flatMap BodyToken.chars ++ tail) = false := by
  have hstop : startsWith isWordChar tail = false := by
    cases tail with
    | nil => rfl
    | cons c tail => exact (Bool.or_eq_false_iff.mp htail).1
  have hclear : ∀ {e : Bool}, false = true → e = true := fun h => absurd h Bool.false_ne_true
  induction ts generalizing afterDot a d with
  | nil =>
      have hend := @exposes_no_word name.toList tail [] htail (fun _ _ => rfl) a d
      simpa using hend
  | cons t ts ih =>
      have hfirst := @startsWith_written stage uniforms accessor haccessor tail hstop ts _ h.2
      rw [List.map_cons, List.flatMap_cons, List.append_assoc]
      cases t with
      | ident other =>
          rw [exposes_written_ident haccessor hname h.1.1.isWord (hfirst.trans h.1.2)]
          exact ih h.2 hclear
      | field other =>
          obtain ⟨hafter, hword⟩ := h.1
          obtain ⟨hne, hall⟩ := isWord_iff.mp hword
          rw [writtenToken, BodyToken.chars, exposes_word_append hne hall, hdot hafter, ih h.2 hclear]
          · simp
          · exact fun name heq => by cases heq
      | number text =>
          rcases h.1 with hnumeric | hword
          · exact exposes_numeric hname.identifier.start hnumeric (fun a d => ih h.2 hclear) a d
          · refine (exposes_other_word hname.identifier hword hfirst a d).trans ?_
            exact ih h.2 hclear
      | space text => exact exposes_blank h.1 (fun a => ih h.2 hdot) a
      | punct mark =>
          have hmark : isWordChar mark.char = false ∧ isBlank mark.char = false := by
            cases mark <;> decide
          have hleaves : BodyToken.leavesDot afterDot (.punct mark) = true →
              (mark.char == '.') = true := by
            cases mark with
            | dot => exact fun _ => rfl
            | openBracket | closeBracket => exact hclear
          show exposes name.toList a d (mark.char :: _) = false
          rw [exposes, hmark.1, hmark.2, Bool.false_and, Bool.false_and, Bool.false_and,
            Bool.false_or, if_neg Bool.false_ne_true]
          exact ih h.2 hleaves
      | text text =>
          rcases h.1 with hnone | hword
          · exact exposes_no_word hnone (fun a d => ih h.2 hclear) a d
          · refine (exposes_other_word hname.identifier hword hfirst a d).trans ?_
            exact ih h.2 hclear

end Written

theorem not_unqualified_of_tidy {stage : Stage} {uniforms : Table Declaration}
    {strategy : Strategy} {ts : List BodyToken} (h : Tidy false ts) {name : String}
    (hname : Unshared stage uniforms strategy.accessor name) (hmain : name ≠ "main") :
    ¬Unqualified (entryPointText ⟨ts.map (writtenToken stage uniforms strategy.accessor)⟩) name := by
  have hvoid : ¬Identifier "void" := fun hident => absurd hident.read (by decide)
  have hsignature : "void main()\n\x7b".toList =
      "void".toList ++ ([' '] ++ ("main".toList ++ ['(', ')', '\n', '\x7b'])) := by decide
  have htail : "\x7d\n".toList.any isWordChar = false := by decide
  have hbody := fun a d => @not_exposes_written stage uniforms strategy.accessor
    (isWord_accessor strategy) name hname _ htail ts false h a d nofun
  rw [unqualified_iff_exposes, Bool.not_eq_true]
  simp only [entryPointText, Body.toText, String.toList_append, String.toList_ofList, hsignature,
    List.append_assoc]
  rw [exposes_whole_word (by decide) (by decide) _ rfl]
  · apply exposes_no_word (by decide)
    intro a d
    rw [exposes_whole_word (by decide) (by decide) _ rfl]
    · exact exposes_no_word (by decide) hbody true false
    · exact fun heq => hmain (String.toList_inj.mp heq).symm
  · intro heq
    rw [String.toList_inj.mp heq] at hvoid
    exact hvoid hname.identifier

/-- The converted entry point of a stage. -/
def entryText (stage : Stage) (unit : ShaderUnit) (strategy : Strategy) : String :=
  entryPointText
    ⟨unit.body.tokens.map (writtenToken stage unit.symbols.uniforms strategy.accessor)⟩

/-- The converted entry point of a stage with all references hidden. -/
def hiddenText (stage : Stage) (unit : ShaderUnit) (strategy : Strategy) : String :=
  entryPointText
    ⟨unit.body.tokens.map (hiddenToken stage unit.symbols.uniforms strategy.accessor)⟩

/-- The text of a stage ends in an entry point in which a retained uniform is unqualified exactly
when it still is with all references hidden. When the body is plain and the converter does not write
the name itself, it is unqualified nowhere. -/
def QualifiedStage (stage : Stage) (unit : ShaderUnit) (strategy : Strategy) (text : String) :
    Prop :=
  ∃ front, text = front ++ entryText stage unit strategy ∧
    ∀ name ∈ unit.symbols.uniforms.names, name ≠ strategy.accessor →
      legacyName? stage name = none →
        (Unqualified (entryText stage unit strategy) name ↔
          Unqualified (hiddenText stage unit strategy) name) ∧
        ((∃ body, entryBody? unit.source = some body ∧ PlainBody body) → name ≠ "main" →
          (∀ old, legacyName? stage old ≠ some name) →
            ¬Unqualified (entryText stage unit strategy) name)

theorem qualifiedStage_of_written {source : String} {stage : Stage} {unit : ShaderUnit}
    {strategy : Strategy} {text : String} (hparse : (ShaderUnit.parse source stage).1 = .ok unit)
    (hwritten : WrittenStage stage unit strategy text) :
    QualifiedStage stage unit strategy text := by
  obtain ⟨front, htext, -⟩ := hwritten
  refine ⟨front, htext, ?_⟩
  intro name hname haccessor hlegacy
  refine ⟨unqualified_hidden_iff stage unit.symbols.uniforms strategy unit.body.tokens name, ?_⟩
  rintro ⟨body, hbody, hplain⟩ hmain hfresh
  have hsource : unit.source = normalize source := by
    obtain ⟨_, -, -, _, -, rfl⟩ := ShaderUnit.parse_eq_ok hparse
    rfl
  have hplainBody : ∀ text, entryBody? (normalize source) = some text → PlainBody text := by
    intro text htext
    rw [hsource, htext] at hbody
    exact Option.some.inj hbody ▸ hplain
  obtain ⟨htidy, hidentifiers⟩ := isTidy_of_parse hparse hplainBody
  obtain ⟨d, hd, rfl⟩ := List.mem_map.mp hname
  apply not_unqualified_of_tidy htidy _ hmain
  exact ⟨hidentifiers d hd, Table.contains_iff.mpr hname, hlegacy, hfresh, haccessor⟩

/-- In a converted pair a retained uniform is unqualified exactly when its name is in text that is no
reference: in a directive, in masked text, in the arguments of a macro, after an error. In a stage
with a plain body every occurrence of it is qualified. -/
theorem convertPair_uniforms_qualified {vertexSource fragmentSource : String} {options : Options}
    {pair : ConvertedPair} (h : (convertPair vertexSource fragmentSource options).1 = .ok pair) :
    ∃ vertex fragment, (ShaderUnit.parse vertexSource .vertex).1 = .ok vertex ∧
      (ShaderUnit.parse fragmentSource .fragment).1 = .ok fragment ∧
      QualifiedStage .vertex vertex pair.strategy pair.vertex.text ∧
      QualifiedStage .fragment fragment pair.strategy pair.fragment.text := by
  obtain ⟨run⟩ := pairRun_of_convertPair h
  exact ⟨run.vertex, run.fragment, run.parse_vertex, run.parse_fragment,
    qualifiedStage_of_written run.parse_vertex run.written_vertex,
    qualifiedStage_of_written run.parse_fragment run.written_fragment⟩

theorem sample_uniforms_qualified :
    ∃ pair fragment, (convertPair sampleVertex sampleFragment {}).1 = .ok pair ∧
      (ShaderUnit.parse sampleFragment .fragment).1 = .ok fragment ∧
      "t" ∈ fragment.symbols.uniforms.names ∧
      ¬Unqualified (entryText .fragment fragment pair.strategy) "t" := by
  obtain ⟨pair, hpair⟩ := exists_sample_pair
  obtain ⟨_, fragment, -, hfragment, -, front, -, hstage⟩ := convertPair_uniforms_qualified hpair
  have hsample : ((ShaderUnit.parse sampleFragment .fragment).1.toOption.any fun unit =>
      unit.symbols.uniforms.contains "t" &&
        (entryBody? unit.source).any fun body => decide (PlainBody body)) = true := by
    decide +kernel
  obtain ⟨unit, hunit, htest⟩ := exists_ok_of_any hsample
  rw [hfragment] at hunit
  cases hunit
  obtain ⟨hkept, hbody⟩ := Bool.and_eq_true_iff.mp htest
  obtain ⟨body, hbody, hplain⟩ := (Option.any_eq_true _ _).mp hbody
  have hname := Table.contains_iff.mp hkept
  have haccessor : "t" ≠ pair.strategy.accessor := by
    cases pair.strategy <;> decide
  have hfresh : ∀ old, legacyName? .fragment old ≠ some "t" := by
    intro old hold
    have hall : ∀ p ∈ fragmentBuiltins, p.2 ≠ "t" := by decide
    exact hall (old, "t") (mem_fragmentBuiltins hold) rfl
  refine ⟨pair, fragment, hpair, hfragment, hname, ?_⟩
  exact (hstage "t" hname haccessor (by decide)).2 ⟨body, hbody, of_decide_eq_true hplain⟩
    (by decide) hfresh

def macroVertex : String := "void main() \x7b\x7d\n"

def macroFragment : String :=
  "uniform vec4 tint;\nvoid main() \x7b\n#define SHADE(c) (c * 0.5)\n" ++
    " gl_FragColor = SHADE(tint) + tint;\n\x7d\n"

/-- The argument of the macro is copied, so the uniform stays unqualified in it. -/
theorem macro_argument_unqualified :
    ∃ pair fragment, (convertPair macroVertex macroFragment {}).1 = .ok pair ∧
      (ShaderUnit.parse macroFragment .fragment).1 = .ok fragment ∧
      "tint" ∈ fragment.symbols.uniforms.names ∧ "tint" ≠ pair.strategy.accessor ∧
      legacyName? .fragment "tint" = none ∧
      ∃ front, pair.fragment.text = front ++ entryText .fragment fragment pair.strategy ∧
        Unqualified (entryText .fragment fragment pair.strategy) "tint" := by
  have hpair : ((convertPair macroVertex macroFragment {}).1.toOption.any fun pair =>
      decide (pair.strategy = .pushConstant)) = true := by
    decide +kernel
  have hunit : ((ShaderUnit.parse macroFragment .fragment).1.toOption.any fun unit =>
      unit.symbols.uniforms.contains "tint" &&
        decide (Unqualified (entryText .fragment unit .pushConstant) "tint")) = true := by
    decide +kernel
  obtain ⟨pair, hpair, hstrategy⟩ := exists_ok_of_any hpair
  obtain ⟨fragment, hfragment, htest⟩ := exists_ok_of_any hunit
  obtain ⟨hkept, hstray⟩ := Bool.and_eq_true_iff.mp htest
  have hstrategy : pair.strategy = .pushConstant := of_decide_eq_true hstrategy
  obtain ⟨run⟩ := pairRun_of_convertPair hpair
  obtain ⟨front, htext, -⟩ := run.written_fragment
  have hsame : run.fragment = fragment :=
    Except.ok.inj (run.parse_fragment.symm.trans hfragment)
  rw [hsame] at htext
  refine ⟨pair, fragment, hpair, hfragment, Table.contains_iff.mp hkept, ?_, by decide, front,
    htext, ?_⟩
  · rw [hstrategy]
    decide
  · rw [hstrategy]
    exact of_decide_eq_true hstray

end ShaderUplift
