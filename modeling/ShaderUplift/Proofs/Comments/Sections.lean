import ShaderUplift.Document
import ShaderUplift.Proofs.Source.InsertedLine

/-! A document as a header and sections, each under its banner. When the header and the contents of
the sections are lines of code, the comments of the whole text are exactly the banners: an opener
stands nowhere but at the start of a section, and removing the comments removes the banners up to
their line ends and nothing else. -/

namespace ShaderUplift

open Source

/-- A part of a document under its banner. -/
structure Section where
  title : String
  content : String

def Section.text (s : Section) : String := Document.banner s.title ++ s.content

namespace Document

/-- The titles of all banners. -/
def bannerTitles : List String :=
  ["Vertex shader", "Fragment shader", "Defines", "Input", "Samplers", "Push constants",
   "Uniform buffer", "Varying variables", "Vertex output", "Fragment output", "Main function"]

/-- The section of some lines, which is left out when there are none. -/
def lineSections (title : String) (lines : List String) : List Section :=
  if lines.isEmpty then [] else [⟨title, String.join lines ++ "\n"⟩]

def blockSections : Option UniformBlock → List Section
  | none => []
  | some (.pushConstant members) =>
    [⟨"Push constants",
      "layout(push_constant) uniform PushConstants \x7b\n" ++ members ++ "\x7d pc;\n\n"⟩]
  | some (.uniformBuffer b members) =>
    [⟨"Uniform buffer",
      bindingText b ++ " uniform UniformBuffer \x7b\n" ++ members ++ "\x7d ub;\n\n"⟩]

def declarationSections (d : Document) : List Section :=
  let samplers := lineSections "Samplers" (d.interface.samplers.map samplerLine)
  match d.stage with
  | .vertex =>
    lineSections "Input" (d.interface.inputs.map (locationLine "in")) ++ samplers ++
      blockSections d.block ++
      lineSections "Varying variables" (d.interface.outputs.map (locationLine "out")) ++
      [⟨"Vertex output", "out gl_PerVertex \x7b\n    vec4 gl_Position;\n\x7d;\n\n"⟩]
  | .fragment =>
    lineSections "Varying variables" (d.interface.inputs.map (locationLine "in")) ++ samplers ++
      blockSections d.block ++
      [⟨"Fragment output", "layout(location = 0) out vec4 " ++ fragmentOutput ++ ";\n\n"⟩]

def stageTitle : Stage → String
  | .vertex => "Vertex shader"
  | .fragment => "Fragment shader"

/-- The sections of a document in their order. -/
def sections (d : Document) : List Section :=
  [⟨stageTitle d.stage, "\n"⟩] ++ lineSections "Defines" (d.defines.entries.map defineLine) ++
    d.declarationSections ++ [⟨"Main function", d.entryPoint⟩]

/-- The text of some sections, one after the other. -/
def sectionsText (ss : List Section) : String := String.join (ss.map Section.text)

@[simp]
theorem sectionsText_append (ss ss' : List Section) :
    sectionsText (ss ++ ss') = sectionsText ss ++ sectionsText ss' := by
  rw [sectionsText, List.map_append, String.join_append]
  rfl

@[simp]
theorem sectionsText_singleton (title content : String) :
    sectionsText [⟨title, content⟩] = banner title ++ content := by
  simp [sectionsText, Section.text]

@[simp]
theorem sectionsText_lineSections (title : String) (lines : List String) :
    sectionsText (lineSections title lines) = titled title lines := by
  unfold lineSections titled
  split
  · rfl
  · rw [sectionsText_singleton, String.append_assoc]

@[simp]
theorem sectionsText_blockSections (block : Option UniformBlock) :
    sectionsText (blockSections block) = blockText block := by
  cases block with
  | none => rfl
  | some block =>
      cases block <;> simp only [blockSections, sectionsText_singleton, blockText,
        String.append_assoc]

theorem sectionsText_declarationSections (d : Document) :
    sectionsText d.declarationSections = d.declarations := by
  unfold declarationSections declarations
  cases d.stage <;>
    simp only [sectionsText_append, sectionsText_lineSections, sectionsText_blockSections,
      sectionsText_singleton, vertexOutput, fragmentOutputText, String.append_assoc]

/-- A document is its header and its sections. -/
theorem text_eq_sections (d : Document) : d.text = header d.version ++ sectionsText d.sections := by
  have hstage : stageBanner d.stage = banner (stageTitle d.stage) ++ "\n" := by
    cases d.stage <;> rfl
  rw [text, hstage, sections]
  simp only [sectionsText_append, sectionsText_lineSections, sectionsText_declarationSections,
    sectionsText_singleton, String.append_assoc]

end Document

/-- The text is made of whole lines and opens no comment. -/
structure CodeLines (text : String) : Prop where
  free : CommentFree text.toList
  ends : StartsLine text.toList

namespace CodeLines

theorem append {a b : String} (ha : CodeLines a) (hb : CodeLines b) : CodeLines (a ++ b) := by
  constructor
  · rw [String.toList_append]
    refine commentFree_append ha.free hb.free ?_
    rintro c hc d - ⟨rfl, -⟩
    exact absurd (ha.ends _ hc) (by decide)
  · intro c hc
    rw [String.toList_append, List.getLast?_append] at hc
    cases hlast : b.toList.getLast? with
    | none =>
        rw [hlast, Option.none_or] at hc
        exact ha.ends c hc
    | some d =>
        rw [hlast, Option.some_or] at hc
        cases hc
        exact hb.ends _ hlast

theorem join {lines : List String} (h : ∀ l ∈ lines, CodeLines l) :
    CodeLines (String.join lines) := by
  induction lines with
  | nil => exact ⟨List.IsChain.nil, nofun⟩
  | cons l lines ih =>
      obtain ⟨hl, hlines⟩ := List.forall_mem_cons.mp h
      rw [String.join_cons]
      exact hl.append (ih hlines)

end CodeLines

/-- An opener after lines of code stands after all of them. -/
theorem exists_of_append_eq {code : String} (h : CodeLines code) {d : Char}
    (hd : d = '/' ∨ d = '*') {rest before after : List Char}
    (heq : code.toList ++ rest = before ++ '/' :: d :: after) :
    ∃ between, before = code.toList ++ between ∧ rest = between ++ '/' :: d :: after := by
  rcases List.append_eq_append_iff.mp heq with ⟨between, hbefore, hrest⟩ | ⟨tail, hcode, hrest⟩
  · exact ⟨between, hbefore, hrest⟩
  · match tail, hcode, hrest with
    | [], hcode, hrest =>
        rw [List.append_nil] at hcode
        exact ⟨[], by rw [hcode, List.append_nil], hrest.symm⟩
    | [c], hcode, hrest =>
        obtain ⟨rfl, -⟩ := List.cons.inj hrest
        have hlast : code.toList.getLast? = some '/' := by
          rw [hcode, List.getLast?_concat]
        exact absurd (h.ends _ hlast) (by decide)
    | c :: e :: tail, hcode, hrest =>
        simp only [List.cons_append, List.cons.injEq] at hrest
        obtain ⟨rfl, rfl, -⟩ := hrest
        have hfree := h.free
        rw [hcode] at hfree
        obtain ⟨-, htail, -⟩ := List.isChain_append.mp hfree
        exact absurd ⟨rfl, hd⟩ (List.isChain_cons_cons.mp htail).1

/-- Lines of code come out as they are when comments are removed. -/
theorem stripFrom_append_of_code {xs : List Char} (hfree : CommentFree xs) (hends : StartsLine xs)
    (ys : List Char) : stripFrom none (xs ++ ys) = xs ++ stripFrom none ys := by
  induction xs with
  | nil => rfl
  | cons c xs ih =>
      obtain ⟨hnext, hxs⟩ := List.isChain_cons.mp hfree
      cases xs with
      | nil =>
          cases hends c rfl
          exact stripFrom_code (by cases ys <;> rfl)
      | cons d xs =>
          have hcode : opensComment (c :: d :: (xs ++ ys)) = none :=
            opensComment_eq_none_iff.mpr (hnext d rfl)
          have hrest : StartsLine (d :: xs) := fun e he =>
            hends e (by rwa [List.getLast?_cons_cons])
          have htail := ih hxs hrest
          rw [List.cons_append] at htail
          rw [List.cons_append, List.cons_append, stripFrom_code hcode, htail]
          rfl

/-- A section under one of the banners, whose content is lines of code. -/
structure Section.IsCode (s : Section) : Prop where
  title : s.title ∈ Document.bannerTitles
  content : CodeLines s.content

namespace Section

theorem plain_title {title : String} (h : title ∈ Document.bannerTitles) :
    NoComment title.toList ∧ '\n' ∉ title.toList := by
  have hall : ∀ t ∈ Document.bannerTitles, NoComment t.toList ∧ '\n' ∉ t.toList := by decide
  exact hall title h

/-- A section from the second slash of its banner on. -/
def afterSlash (s : Section) : String := "/ " ++ s.title ++ "\n" ++ s.content

theorem toList_text (s : Section) : s.text.toList = '/' :: s.afterSlash.toList := by
  simp [text, afterSlash, Document.banner]

theorem toList_afterSlash (s : Section) :
    s.afterSlash.toList = '/' :: (' ' :: s.title.toList ++ '\n' :: s.content.toList) := by
  simp [afterSlash]

/-- The first slash of a banner makes a comment of it, the second one does not. -/
theorem IsCode.codeLines_afterSlash {s : Section} (h : s.IsCode) : CodeLines s.afterSlash := by
  have hlead : CodeLines ("/ " ++ s.title ++ "\n") := by
    have hline : ("/ " ++ s.title ++ "\n").toList = ('/' :: ' ' :: s.title.toList) ++ ['\n'] := by
      simp
    constructor
    · rw [hline, List.cons_append]
      refine List.isChain_cons.mpr ⟨?_, ?_⟩
      · intro d hd hopen
        cases hd
        exact absurd hopen (by decide)
      · refine commentFree_of_forall_ne fun c hc => ?_
        simp only [List.cons_append, List.mem_cons, List.mem_append, List.not_mem_nil,
          or_false] at hc
        rcases hc with rfl | hc | rfl
        · decide
        · exact ((plain_title h.title).1 c hc).1
        · decide
    · intro c hc
      rw [hline, List.getLast?_concat] at hc
      exact (Option.some.inj hc).symm
  exact hlead.append h.content

theorem IsCode.stripFrom_text {s : Section} (h : s.IsCode) (ys : List Char) :
    stripFrom none (s.text.toList ++ ys) = '\n' :: s.content.toList ++ stripFrom none ys := by
  have hline : CodeLines ("\n" ++ s.content) := CodeLines.append ⟨by decide, by decide⟩ h.content
  have hcontent : ("\n" ++ s.content).toList = '\n' :: s.content.toList := by simp
  have htitle : ∀ c ∈ ' ' :: s.title.toList, decide (c ≠ '\n') = true := by
    intro c hc
    rw [decide_eq_true_eq]
    rintro rfl
    rcases List.mem_cons.mp hc with hc | hc
    · cases hc
    · exact (plain_title h.title).2 hc
  calc stripFrom none (s.text.toList ++ ys)
      = stripFrom (some .line) (' ' :: s.title.toList ++ ('\n' :: s.content.toList ++ ys)) := by
        rw [toList_text, toList_afterSlash, List.cons_append, List.cons_append, stripFrom]
        simp only [List.append_assoc, List.cons_append]
    _ = stripFrom none ('\n' :: s.content.toList ++ ys) := by
        rw [stripFrom_line, List.dropWhile_append_of_pos htitle]
        rfl
    _ = '\n' :: s.content.toList ++ stripFrom none ys := by
        rw [← hcontent]
        exact stripFrom_append_of_code hline.free hline.ends ys

end Section

namespace Document

theorem toList_sectionsText_cons (s : Section) (ss : List Section) :
    (sectionsText (s :: ss)).toList = s.text.toList ++ (sectionsText ss).toList := by
  rw [sectionsText, List.map_cons, String.join_cons, String.toList_append]
  rfl

/-- Every opener in lines of code and sections is the banner of one of the sections. -/
theorem exists_section_of_opener {code : String} (hcode : CodeLines code) {ss : List Section}
    (hss : ∀ s ∈ ss, s.IsCode) {d : Char} (hd : d = '/' ∨ d = '*') {before after : List Char}
    (heq : code.toList ++ (sectionsText ss).toList = before ++ '/' :: d :: after) :
    d = '/' ∧ ∃ earlier s later, ss = earlier ++ s :: later ∧
      before = code.toList ++ (sectionsText earlier).toList := by
  induction ss generalizing code before with
  | nil =>
      obtain ⟨between, -, hrest⟩ := exists_of_append_eq hcode hd heq
      exact absurd hrest (by simp [sectionsText])
  | cons s ss ih =>
      obtain ⟨hs, hss⟩ := List.forall_mem_cons.mp hss
      obtain ⟨between, rfl, hrest⟩ := exists_of_append_eq hcode hd heq
      rw [toList_sectionsText_cons, s.toList_text, List.cons_append] at hrest
      cases between with
      | nil =>
          rw [s.toList_afterSlash] at hrest
          simp only [List.nil_append, List.cons_append, List.cons.injEq, true_and] at hrest
          exact ⟨hrest.1.symm, [], s, ss, rfl, rfl⟩
      | cons c between =>
          rw [List.cons_append, List.cons.injEq] at hrest
          obtain ⟨rfl, hrest⟩ := hrest
          obtain ⟨hslash, earlier, t, later, rfl, rfl⟩ :=
            ih hs.codeLines_afterSlash hss hrest
          refine ⟨hslash, s :: earlier, t, later, rfl, ?_⟩
          rw [toList_sectionsText_cons, s.toList_text]
          rfl

theorem stripFrom_sectionsText {ss : List Section} (hss : ∀ s ∈ ss, s.IsCode) :
    stripFrom none (sectionsText ss).toList =
      ss.flatMap fun s => '\n' :: s.content.toList := by
  induction ss with
  | nil => rfl
  | cons s ss ih =>
      obtain ⟨hs, hss⟩ := List.forall_mem_cons.mp hss
      rw [toList_sectionsText_cons, hs.stripFrom_text, ih hss, List.flatMap_cons]

/-- The comments of the text are the banners of the document: it has no block comment, every opener
of a line comment starts a section, and without its comments the text is the header and the contents
of all sections. -/
structure OnlyBanners (d : Document) (text : String) : Prop where
  divided : text = header d.version ++ sectionsText d.sections
  titles : ∀ s ∈ d.sections, s.title ∈ bannerTitles
  no_block_comment : ¬['/', '*'] <:+: text.toList
  line_comment : ∀ before after, text.toList = before ++ '/' :: '/' :: after →
    ∃ earlier s later, d.sections = earlier ++ s :: later ∧
      before = (header d.version ++ sectionsText earlier).toList
  without_comments : stripComments text.toList =
    (header d.version).toList ++ d.sections.flatMap fun s => '\n' :: s.content.toList

theorem onlyBanners_of_isCode {d : Document} (hheader : CodeLines (header d.version))
    (hsections : ∀ s ∈ d.sections, s.IsCode) : d.OnlyBanners d.text := by
  have htext : d.text.toList = (header d.version).toList ++ (sectionsText d.sections).toList := by
    rw [text_eq_sections, String.toList_append]
  refine ⟨d.text_eq_sections, fun s hs => (hsections s hs).title, ?_, ?_, ?_⟩
  · rintro ⟨before, after, heq⟩
    rw [htext, List.append_assoc] at heq
    have hopener := exists_section_of_opener hheader hsections (Or.inr rfl) heq.symm
    exact absurd hopener.1 (by decide)
  · intro before after heq
    rw [htext] at heq
    obtain ⟨-, earlier, s, later, hsplit, hbefore⟩ :=
      exists_section_of_opener hheader hsections (Or.inl rfl) heq
    exact ⟨earlier, s, later, hsplit, by rw [hbefore, String.toList_append]⟩
  · rw [stripComments_eq_stripFrom, htext,
      stripFrom_append_of_code hheader.free hheader.ends, stripFrom_sectionsText hsections]

end Document

end ShaderUplift
