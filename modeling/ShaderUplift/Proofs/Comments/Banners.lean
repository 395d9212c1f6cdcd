import ShaderUplift.Proofs.Bindings
import ShaderUplift.Proofs.Comments.Sections
import ShaderUplift.Proofs.Comments.Symbols

/-! The comments of a converted pair are the banners of its sections. Everything between the banners
is written from numbers, fixed words, and the types, names, values and bodies of the two stages,
which open no comment and never meet without something harmless between them. -/

namespace ShaderUplift

open Source

/-- A text and a line end after it. -/
theorem codeLines_append {front stop : String} (hfront : CommentFree front.toList)
    (hstop : NoComment stop.toList) (hends : stop.toList.getLast? = some '\n') :
    CodeLines (front ++ stop) := by
  constructor
  · rw [String.toList_append]
    exact hfront.append_noComment hstop
  · intro c hc
    rw [String.toList_append, List.getLast?_append, hends, Option.some_or] at hc
    exact (Option.some.inj hc).symm

theorem commentFree_arrayedName {name : String} (h : CommentFree name.toList)
    (length : Option Nat) : CommentFree (arrayedName name length).toList := by
  cases length with
  | none => exact h
  | some n =>
      have hsuffix : (arrayedName name (some n)).toList =
          name.toList ++ ('[' :: ((toString n).toList ++ [']'])) := by
        simp [arrayedName]
      have hplain : NoComment ('[' :: ((toString n).toList ++ [']'])) :=
        List.forall_mem_cons.mpr ⟨by decide, (noComment_toString n).append (by decide)⟩
      rw [hsuffix]
      exact h.append_noComment hplain

/-- A line that declares a name with its type. -/
theorem codeLines_declaring {lead type name : String} (hlead : NoComment lead.toList)
    (htype : CommentFree type.toList) (hname : CommentFree name.toList) (length : Option Nat) :
    CodeLines (lead ++ type ++ " " ++ arrayedName name length ++ ";\n") := by
  refine codeLines_append ?_ (by decide) (by decide)
  have hfront : (lead ++ type ++ " " ++ arrayedName name length).toList =
      lead.toList ++ (type.toList ++ ([' '] ++ (arrayedName name length).toList)) := by
    simp
  rw [hfront]
  exact hlead.append_commentFree (htype.append_between (by decide) (List.cons_ne_nil _ _)
    (commentFree_arrayedName hname length))

/-- The characters of fixed words with a number between them. -/
theorem noComment_around (n : Nat) {front stop : String} (hfront : NoComment front.toList)
    (hstop : NoComment stop.toList) : NoComment (front ++ toString n ++ stop).toList := by
  rw [String.toList_append, String.toList_append]
  exact (hfront.append (noComment_toString n)).append hstop

theorem codeLines_member (strategy : Strategy) {f : Field} (h : CommentFree f.name.toList) :
    CodeLines (f.member strategy) := by
  have htype : CommentFree f.type.name.toList := by cases f.type <;> decide
  have hline : ∀ lead : String, NoComment lead.toList → CodeLines (lead ++ f.declared ++ ";\n") := by
    intro lead hlead
    rw [Field.declared, ← String.append_assoc, ← String.append_assoc]
    exact codeLines_declaring hlead htype h f.arrayLength
  cases strategy with
  | pushConstant => exact hline _ (noComment_around f.offset (by decide) (by decide))
  | uniformBuffer => exact hline _ (by decide)

theorem codeLines_memberText (strategy : Strategy) {fields : List Field}
    (h : ∀ f ∈ fields, CommentFree f.name.toList) : CodeLines (memberText strategy fields) := by
  refine CodeLines.join fun line hline => ?_
  obtain ⟨f, hf, rfl⟩ := List.mem_map.mp hline
  exact codeLines_member strategy (h f hf)

theorem codeLines_entryPoint {b : Body} (h : b.Uncommented) : CodeLines (entryPointText b) := by
  refine codeLines_append ?_ (by decide) (by decide)
  rw [String.toList_append]
  exact NoComment.append_commentFree (by decide) h

namespace Document

theorem codeLines_header (version : Nat) : CodeLines (header version) := by
  refine codeLines_append ?_ (by decide) (by decide)
  rw [String.toList_append]
  exact NoComment.append_commentFree (by decide) (noComment_toString version).commentFree

theorem codeLines_defineLine {d : Define} (h : d.Uncommented) : CodeLines (defineLine d) := by
  have hlead : NoComment "#define ".toList := by decide
  have hhead := hlead.append_commentFree h.head
  rw [← String.toList_append, ← String.append_assoc] at hhead
  refine codeLines_append ?_ (by decide) (by decide)
  split
  · rw [String.append_empty]
    exact hhead
  · have hspace : NoComment " ".toList ∧ " ".toList ≠ [] := by decide
    have hwhole := hhead.append_between hspace.1 hspace.2 h.value
    rwa [← String.toList_append, ← String.toList_append] at hwhole

theorem noComment_bindingText (b : Binding) : NoComment (bindingText b).toList := by
  refine noComment_around b.binding ?_ (by decide)
  exact noComment_around b.set (by decide) (by decide)

theorem codeLines_locationLine {direction : String} (hdirection : NoComment direction.toList)
    {slot : Slot Nat} (h : slot.declaration.Uncommented) :
    CodeLines (locationLine direction slot) := by
  refine codeLines_declaring ?_ h.type h.name slot.declaration.arrayLength
  rw [String.toList_append, String.toList_append]
  exact ((noComment_around slot.index (by decide) (by decide)).append hdirection).append (by decide)

theorem codeLines_samplerLine {slot : Slot Binding} (h : slot.declaration.Uncommented) :
    CodeLines (samplerLine slot) := by
  refine codeLines_declaring ?_ h.type h.name slot.declaration.arrayLength
  rw [String.toList_append]
  exact (noComment_bindingText slot.index).append (by decide)

end Document

/-- The lines between the braces of the block. -/
def UniformBlock.members : UniformBlock → String
  | .pushConstant members => members
  | .uniformBuffer _ members => members

/-- The declarations of all slots. -/
def Interface.declarations (i : Interface) : List Declaration :=
  (i.inputs ++ i.outputs).map Slot.declaration ++ i.samplers.map Slot.declaration

namespace Document

/-- Nothing that the document is written from opens a comment. -/
structure Uncommented (d : Document) : Prop where
  defines : ∀ e ∈ d.defines.entries, e.Uncommented
  slots : ∀ e ∈ d.interface.declarations, e.Uncommented
  block : ∀ b ∈ d.block, CodeLines b.members
  entryPoint : CodeLines d.entryPoint

theorem isCode_lineSections {title : String} (htitle : title ∈ bannerTitles) {lines : List String}
    (h : ∀ l ∈ lines, CodeLines l) : ∀ s ∈ lineSections title lines, s.IsCode := by
  intro s hs
  unfold lineSections at hs
  split at hs
  · cases hs
  · cases List.mem_singleton.mp hs
    exact ⟨htitle, (CodeLines.join h).append ⟨by decide, by decide⟩⟩

theorem isCode_blockSections {block : Option UniformBlock}
    (h : ∀ b ∈ block, CodeLines b.members) : ∀ s ∈ blockSections block, s.IsCode := by
  intro s hs
  cases block with
  | none => cases hs
  | some b =>
      have hmembers := h b rfl
      cases b with
      | pushConstant members =>
          cases List.mem_singleton.mp hs
          refine ⟨?_, CodeLines.append (CodeLines.append ?_ hmembers) ?_⟩
          · show "Push constants" ∈ bannerTitles
            decide
          · exact ⟨by decide, by decide⟩
          · exact ⟨by decide, by decide⟩
      | uniformBuffer binding members =>
          cases List.mem_singleton.mp hs
          refine ⟨?_, CodeLines.append (CodeLines.append ?_ hmembers) ?_⟩
          · show "Uniform buffer" ∈ bannerTitles
            decide
          · exact codeLines_append (noComment_bindingText binding).commentFree (by decide)
              (by decide)
          · exact ⟨by decide, by decide⟩

namespace Uncommented

variable {d : Document}

theorem isCode_locations (h : d.Uncommented) {title direction : String}
    (htitle : title ∈ bannerTitles) (hdirection : NoComment direction.toList)
    {slots : List (Slot Nat)} (hslots : slots ⊆ d.interface.inputs ++ d.interface.outputs) :
    ∀ s ∈ lineSections title (slots.map (locationLine direction)), s.IsCode := by
  refine isCode_lineSections htitle fun line hline => ?_
  obtain ⟨slot, hslot, rfl⟩ := List.mem_map.mp hline
  refine codeLines_locationLine hdirection (h.slots _ ?_)
  exact List.mem_append_left _ (List.mem_map_of_mem (hslots hslot))

theorem isCode_samplers (h : d.Uncommented) :
    ∀ s ∈ lineSections "Samplers" (d.interface.samplers.map samplerLine), s.IsCode := by
  refine isCode_lineSections (by decide) fun line hline => ?_
  obtain ⟨slot, hslot, rfl⟩ := List.mem_map.mp hline
  exact codeLines_samplerLine (h.slots _ (List.mem_append_right _ (List.mem_map_of_mem hslot)))

theorem isCode_defines (h : d.Uncommented) :
    ∀ s ∈ lineSections "Defines" (d.defines.entries.map defineLine), s.IsCode := by
  refine isCode_lineSections (by decide) fun line hline => ?_
  obtain ⟨e, he, rfl⟩ := List.mem_map.mp hline
  exact codeLines_defineLine (h.defines e he)

theorem isCode_declarations (h : d.Uncommented) : ∀ s ∈ d.declarationSections, s.IsCode := by
  have hinputs := List.subset_append_left d.interface.inputs d.interface.outputs
  have houtputs := List.subset_append_right d.interface.inputs d.interface.outputs
  intro s hs
  unfold declarationSections at hs
  cases hstage : d.stage with
  | vertex =>
      simp only [hstage, List.mem_append, List.mem_singleton] at hs
      rcases hs with (((hs | hs) | hs) | hs) | rfl
      · exact h.isCode_locations (by decide) (by decide) hinputs s hs
      · exact h.isCode_samplers s hs
      · exact isCode_blockSections h.block s hs
      · exact h.isCode_locations (by decide) (by decide) houtputs s hs
      · exact ⟨by decide, by decide, by decide⟩
  | fragment =>
      simp only [hstage, List.mem_append, List.mem_singleton] at hs
      rcases hs with ((hs | hs) | hs) | rfl
      · exact h.isCode_locations (by decide) (by decide) hinputs s hs
      · exact h.isCode_samplers s hs
      · exact isCode_blockSections h.block s hs
      · exact ⟨by decide, by decide, by decide⟩

theorem onlyBanners (h : d.Uncommented) : d.OnlyBanners d.text := by
  refine onlyBanners_of_isCode (codeLines_header d.version) fun s hs => ?_
  simp only [sections, List.mem_append, List.mem_singleton] at hs
  rcases hs with ((rfl | hs) | hs) | rfl
  · have hnewline : CodeLines "\n" := ⟨by decide, by decide⟩
    exact ⟨by cases d.stage <;> decide, hnewline⟩
  · exact h.isCode_defines s hs
  · exact h.isCode_declarations s hs
  · have htitle : "Main function" ∈ bannerTitles := by decide
    exact ⟨htitle, h.entryPoint⟩

end Uncommented

end Document

/-- The document that a converted stage is written from. -/
def stageDocument (options : Options) (unit : ShaderUnit) (strategy : Strategy)
    (shader : ConvertedShader) : Document where
  stage := unit.stage
  version := options.version
  defines := unit.symbols.defines
  interface := shader.interface
  block := shader.layout.block
  entryPoint := entryPointText
    (unit.body.qualify unit.stage shader.layout.fields strategy.accessor)

/-- A block lists fields of its planner. -/
theorem Planner.codeLines_members {p : Planner} (hcarries : p.Carries)
    (h : ∀ f ∈ p.fields, CommentFree f.name.toList) {fields : List Field}
    (hfields : fields ⊆ p.fields) : ∀ b ∈ p.block? fields, CodeLines b.members := by
  intro b hb
  unfold block? at hb
  split at hb
  · next binding _ hbuffer =>
    split at hb
    · cases hb
    · cases hb
      have hcarried : p.carried = memberText p.strategy p.fields :=
        hcarries (by rw [hbuffer]; rfl)
      rw [UniformBlock.members, hcarried]
      exact codeLines_memberText p.strategy h
  · split at hb
    · cases hb
    · cases hb
      exact codeLines_memberText p.strategy fun f hf => h f (hfields hf)

theorem Symbols.Uncommented.of_mem_names {symbols : Symbols} (h : symbols.Uncommented)
    {name : String} (hname : name ∈ symbols.uniforms.names) : CommentFree name.toList := by
  obtain ⟨d, hd, rfl⟩ := List.mem_map.mp hname
  exact (h.tables .uniform d hd).name

/-- A stage that is read from a source, with the slots of its own declarations and fields with
harmless names, is written from nothing that opens a comment. -/
theorem uncommented_stageDocument {source : String} {stage : Stage} {unit : ShaderUnit}
    (hparse : (ShaderUnit.parse source stage).1 = .ok unit) {p : Planner} (hcarries : p.Carries)
    (hnames : ∀ f ∈ p.fields, CommentFree f.name.toList) {shader : ConvertedShader}
    (hfields : shader.layout.fields ⊆ p.fields)
    (hblock : shader.layout.block = p.block? shader.layout.fields)
    (hslots : ∀ d ∈ shader.interface.declarations, ∃ kind, d ∈ (unit.symbols.table kind).entries)
    (options : Options) (strategy : Strategy) :
    (stageDocument options unit strategy shader).Uncommented := by
  have hsymbols := uncommented_symbols_of_parse hparse
  have hbody := uncommented_body_of_parse hparse
  constructor
  · exact hsymbols.defines
  · intro d hd
    obtain ⟨kind, hd⟩ := hslots d hd
    exact hsymbols.tables kind d hd
  · show ∀ b ∈ shader.layout.block, CodeLines b.members
    rw [hblock]
    exact Planner.codeLines_members hcarries hnames hfields
  · exact codeLines_entryPoint ((unit.body.keepsFree_qualify _ _ strategy).commentFree hbody)

namespace PairRun

variable {vertexSource fragmentSource : String} {options : Options} {pair : ConvertedPair}

theorem mem_vertex_table (run : PairRun vertexSource fragmentSource options pair) {d : Declaration}
    (h : d ∈ pair.vertex.interface.declarations) :
    ∃ kind, d ∈ (run.vertex.symbols.table kind).entries := by
  obtain ⟨hinputs, houtputs⟩ := run.vertex_numbered
  rw [Interface.declarations, List.map_append, hinputs.declared, houtputs.declared,
    run.vertex_samplers_eq, (bindAll_spec _ _).1, List.mem_append, List.mem_append] at h
  rcases h with (h | h) | h
  · exact ⟨.attribute, h⟩
  · exact ⟨.varying, h⟩
  · exact ⟨.sampler, h⟩

theorem fragment_outputs_eq (run : PairRun vertexSource fragmentSource options pair) :
    pair.fragment.interface.outputs = [] := by
  have hinterface := run.interface_fragment
  unfold fragmentInterface at hinterface
  split at hinterface
  · cases hinterface
  · have hok := Except.ok.inj hinterface
    rw [← (Prod.mk.inj hok).1]

theorem mem_fragment_table (run : PairRun vertexSource fragmentSource options pair)
    {d : Declaration} (h : d ∈ pair.fragment.interface.declarations) :
    ∃ kind, d ∈ (run.fragment.symbols.table kind).entries := by
  rw [Interface.declarations, run.fragment_outputs_eq, List.append_nil,
    (fragmentInterface_eq_ok run.interface_fragment).1, run.fragment_samplers_eq,
    (bindAll_spec _ _).1, List.mem_append] at h
  rcases h with h | h
  · exact ⟨.varying, h⟩
  · exact ⟨.sampler, h⟩

/-- Every placed field has the name of a uniform of one of the sources. -/
theorem commentFree_name (run : PairRun vertexSource fragmentSource options pair) {f : Field}
    (hf : f ∈ run.last.fields) : CommentFree f.name.toList := by
  have hvertex := uncommented_symbols_of_parse run.parse_vertex
  have hfragment := uncommented_symbols_of_parse run.parse_fragment
  exact ((run.mem_last_names f.name).mp (List.mem_map_of_mem hf)).elim hvertex.of_mem_names
    hfragment.of_mem_names

theorem uncommented_vertex (run : PairRun vertexSource fragmentSource options pair) :
    (stageDocument options run.vertex pair.strategy pair.vertex).Uncommented := by
  obtain ⟨v⟩ := run.vertexPlan
  obtain ⟨s⟩ := run.fragmentPlan
  have hnames : ∀ f ∈ run.middle.fields, CommentFree f.name.toList := by
    intro f hf
    refine run.commentFree_name ?_
    rw [s.fields_eq]
    exact List.mem_append_left _ hf
  exact uncommented_stageDocument run.parse_vertex
    (v.carries run.bound_start run.carries_start) hnames (fun f => v.mem_fields) v.layout_block
    (fun d => run.mem_vertex_table) options pair.strategy

theorem uncommented_fragment (run : PairRun vertexSource fragmentSource options pair) :
    (stageDocument options run.fragment pair.strategy pair.fragment).Uncommented := by
  obtain ⟨v⟩ := run.vertexPlan
  obtain ⟨s⟩ := run.fragmentPlan
  have hmiddle := v.carries run.bound_start run.carries_start
  exact uncommented_stageDocument run.parse_fragment (s.carries (v.bound run.bound_start) hmiddle)
    (fun f => run.commentFree_name) (fun f => s.mem_fields) s.layout_block
    (fun d => run.mem_fragment_table) options pair.strategy

end PairRun

/-- The comments of a converted pair are the banners of its sections. No stage has a block comment,
every two slashes in a row start the banner of a section, and without its comments a stage is its
header and the contents of all its sections. -/
theorem convertPair_only_banners {vertexSource fragmentSource : String} {options : Options}
    {pair : ConvertedPair} (h : (convertPair vertexSource fragmentSource options).1 = .ok pair) :
    ∃ vertex fragment, (ShaderUnit.parse vertexSource .vertex).1 = .ok vertex ∧
      (ShaderUnit.parse fragmentSource .fragment).1 = .ok fragment ∧
      (stageDocument options vertex pair.strategy pair.vertex).OnlyBanners pair.vertex.text ∧
      (stageDocument options fragment pair.strategy pair.fragment).OnlyBanners
        pair.fragment.text := by
  obtain ⟨run⟩ := pairRun_of_convertPair h
  refine ⟨run.vertex, run.fragment, run.parse_vertex, run.parse_fragment, ?_, ?_⟩
  · rw [run.writtenWith_vertex.2]
    exact run.uncommented_vertex.onlyBanners
  · rw [run.writtenWith_fragment.2]
    exact run.uncommented_fragment.onlyBanners

/-- Sources with comments of both kinds beside divisions, in a definition and in a body. -/
def commentedVertex : String :=
  "attribute vec2 p;// /*\n#define HALF(x) x/ /* // */2.0\nvoid main()\x7bHALF(p)/ /**/p;\x7d"

def commentedFragment : String := "void main()\x7b\x7d//"

theorem commented_only_banners :
    ∃ pair, (convertPair commentedVertex commentedFragment {}).1 = .ok pair ∧
      ∃ vertex fragment, (ShaderUnit.parse commentedVertex .vertex).1 = .ok vertex ∧
        (ShaderUnit.parse commentedFragment .fragment).1 = .ok fragment ∧
        (stageDocument {} vertex pair.strategy pair.vertex).OnlyBanners pair.vertex.text ∧
        (stageDocument {} fragment pair.strategy pair.fragment).OnlyBanners
          pair.fragment.text := by
  have hok : ((convertPair commentedVertex commentedFragment {}).1.toOption.any fun _ => true) =
      true := by
    decide +kernel
  obtain ⟨pair, hpair, -⟩ := exists_ok_of_any hok
  exact ⟨pair, hpair, convertPair_only_banners hpair⟩

end ShaderUplift
