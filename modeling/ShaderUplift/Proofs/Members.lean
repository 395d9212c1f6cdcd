import ShaderUplift.Proofs.Layout.OneBlock

/-! References of a converted stage and the members of its uniform block. The body is written token
by token, and every retained uniform that is written through the accessor is a member of the block
in the same text: the accessor, the kind of the block and its members all follow the strategy of the
pair. -/

namespace ShaderUplift

/-- The new name of an old built-in of the stage. -/
def legacyName? : Stage → String → Option String
  | .vertex, _ => none
  | .fragment, name => fragmentBuiltins.lookup name

/-- How a token of a body stands in the converted entry point. -/
def writtenToken (stage : Stage) (uniforms : Table Declaration) (accessor : String) :
    BodyToken → BodyToken
  | .ident name =>
    match legacyName? stage name with
    | some new => .ident new
    | none =>
      if uniforms.contains name then .ident (accessor ++ "." ++ name) else .ident name
  | t => t

theorem lookup_map_fields (fields : List Field) (new : String → String) (name : String) :
    ((fields.map fun f => (f.name, new f.name)).lookup name) =
      if name ∈ fields.map Field.name then some (new name) else none := by
  induction fields with
  | nil => rfl
  | cons f fields ih =>
      rw [List.map_cons, List.lookup_cons, ih]
      by_cases hname : name = f.name
      · simp [hname]
      · simp [hname, beq_eq_false_iff_ne.mpr hname]

/-- The four names are distinct, so it does not matter from which end they are searched. -/
theorem lookup_reverse_fragmentBuiltins (name : String) :
    fragmentBuiltins.reverse.lookup name = fragmentBuiltins.lookup name := by
  simp only [fragmentBuiltins, List.reverse_cons, List.reverse_nil, List.nil_append,
    List.cons_append, List.lookup_cons, List.lookup_nil]
  by_cases h1 : name = "texture2D"
  · subst h1; decide
  by_cases h2 : name = "texture2DProj"
  · subst h2; decide
  by_cases h3 : name = "textureCube"
  · subst h3; decide
  by_cases h4 : name = "gl_FragColor"
  · subst h4; decide
  simp [beq_eq_false_iff_ne.mpr h1, beq_eq_false_iff_ne.mpr h2, beq_eq_false_iff_ne.mpr h3,
    beq_eq_false_iff_ne.mpr h4]

theorem renamed_newNames (stage : Stage) (fields : List Field) (accessor name : String) :
    Body.renamed (newNames stage fields accessor) name =
      match legacyName? stage name with
      | some new => new
      | none => if name ∈ fields.map Field.name then accessor ++ "." ++ name else name := by
  have hfields : (fields.map fun f => (f.name, accessor ++ "." ++ f.name)).reverse.lookup name =
      if name ∈ fields.map Field.name then some (accessor ++ "." ++ name) else none := by
    rw [← List.map_reverse, lookup_map_fields fields.reverse (accessor ++ "." ++ ·) name]
    simp
  rw [Body.renamed, newNames.eq_def, List.reverse_append, List.lookup_append]
  cases stage with
  | vertex =>
      simp only [List.reverse_nil, List.lookup_nil, legacyName?, Option.none_or, hfields]
      split <;> rfl
  | fragment =>
      simp only [lookup_reverse_fragmentBuiltins, legacyName?, hfields]
      cases fragmentBuiltins.lookup name with
      | some new => rfl
      | none => simp only [Option.none_or]; split <;> rfl

/-- The body of a converted stage is the pointwise image of its tokens. -/
theorem qualify_eq_map (b : Body) (stage : Stage) (uniforms : Table Declaration)
    (fields : List Field) (accessor : String)
    (hnames : ∀ name, name ∈ fields.map Field.name ↔ name ∈ uniforms.names) :
    b.qualify stage fields accessor = ⟨b.tokens.map (writtenToken stage uniforms accessor)⟩ := by
  rw [Body.qualify, Body.rename]
  refine congrArg Body.mk (List.map_congr_left fun t _ => ?_)
  cases t with
  | ident name =>
      rw [Body.renameToken, renamed_newNames, writtenToken]
      simp only [hnames, Table.contains_iff]
      split
      · rfl
      · split <;> rfl
  | field | number | space | punct | text => rfl

/-- What stands before the opening brace of a uniform block. -/
def blockOpening (strategy : Strategy) (binding : Binding) : String :=
  match strategy with
  | .pushConstant => "layout(push_constant) uniform PushConstants"
  | .uniformBuffer => Document.bindingText binding ++ " uniform UniformBuffer"

/-- The text has a uniform block of the strategy, named by its accessor, in which exactly one member
has the declared name, and this member has the declared type and array suffix. -/
def DeclaresMember (text : String) (strategy : Strategy) (d : Declaration) : Prop :=
  ∃ before binding members after,
    text = before ++ blockOpening strategy binding ++ " \x7b\n" ++ memberText strategy members ++
      "\x7d " ++ strategy.accessor ++ ";\n\n" ++ after ∧
    ∃ f, (members.filter fun g => g.name = d.name) = [f] ∧ f.declared = d.type ++ " " ++ d.arrayed

/-- The text of a stage ends in its entry point, with a body written token by token, and declares all
retained uniforms of the stage before it. -/
def WrittenStage (stage : Stage) (unit : ShaderUnit) (strategy : Strategy) (text : String) : Prop :=
  ∃ front, text = front ++ ("void main()\n\x7b" ++
      Body.toText ⟨unit.body.tokens.map
        (writtenToken stage unit.symbols.uniforms strategy.accessor)⟩ ++ "\x7d\n") ∧
    ∀ d ∈ unit.symbols.uniforms.entries, DeclaresMember front strategy d

/-- The text of a document around its uniform block. -/
theorem Document.text_split (d : Document) : ∃ before after,
    d.text = before ++ Document.blockText d.block ++ after ++ d.entryPoint := by
  cases hstage : d.stage with
  | vertex =>
      refine ⟨header d.version ++ stageBanner .vertex ++
          titled "Defines" (d.defines.entries.map defineLine) ++
          titled "Input" (d.interface.inputs.map (locationLine "in")) ++
          titled "Samplers" (d.interface.samplers.map samplerLine),
        titled "Varying variables" (d.interface.outputs.map (locationLine "out")) ++
          vertexOutput ++ banner "Main function", ?_⟩
      simp only [Document.text, declarations, hstage, String.append_assoc]
  | fragment =>
      refine ⟨header d.version ++ stageBanner .fragment ++
          titled "Defines" (d.defines.entries.map defineLine) ++
          titled "Varying variables" (d.interface.inputs.map (locationLine "in")) ++
          titled "Samplers" (d.interface.samplers.map samplerLine),
        fragmentOutputText ++ banner "Main function", ?_⟩
      simp only [Document.text, declarations, hstage, String.append_assoc]

namespace Planner

theorem memberText_append (strategy : Strategy) (fs gs : List Field) :
    memberText strategy (fs ++ gs) = memberText strategy fs ++ memberText strategy gs := by
  rw [memberText, List.map_append, String.join_append]
  rfl

theorem member_ne_empty (strategy : Strategy) (f : Field) : f.member strategy ≠ "" := by
  intro h
  have hend : (";\n" : String) = "" := by
    cases strategy with
    | pushConstant => exact (String.append_eq_empty_iff.mp h).2
    | uniformBuffer => exact (String.append_eq_empty_iff.mp h).2
  exact absurd hend (by simp)

theorem memberText_ne_empty (strategy : Strategy) {fs : List Field} {f : Field} (hf : f ∈ fs) :
    memberText strategy fs ≠ "" := by
  cases fs with
  | nil => cases hf
  | cons g gs =>
      rw [memberText, List.map_cons, String.join_cons]
      intro h
      exact member_ne_empty strategy g (String.append_eq_empty_iff.mp h).1

/-- A planner with a buffer carries the lines of all its fields. -/
def Carries (p : Planner) : Prop :=
  p.buffer.isSome = true → p.carried = memberText p.strategy p.fields

/-- The planner has a binding exactly when it plans a buffer. -/
def Bound (p : Planner) : Prop := p.buffer.isSome = true ↔ p.strategy = .uniformBuffer

namespace StagePlan

variable {p q : Planner} {symbols : Symbols} {layout : StageLayout}

theorem bound (s : StagePlan p symbols q layout) (hp : p.Bound) : q.Bound := by
  unfold Bound
  rw [s.buffer_eq, s.strategy_eq]
  exact hp

theorem carries (s : StagePlan p symbols q layout) (hb : p.Bound) (hp : p.Carries) :
    q.Carries := by
  intro hbuffer
  rw [s.buffer_eq] at hbuffer
  have hstrategy := hb.mp hbuffer
  obtain ⟨binding, hbinding⟩ := Option.isSome_iff_exists.mp hbuffer
  have hadded : p.carriedBy s.placement = memberText p.strategy s.placement.added := by
    rw [carriedBy, hstrategy, hbinding]
  rw [s.carried_eq, hadded, hp hbuffer, s.strategy_eq, s.fields_eq, memberText_append]

theorem layout_block (s : StagePlan p symbols q layout) : layout.block = q.block? layout.fields := by
  rw [s.layout_fields]
  exact congrArg StageLayout.block s.layout_eq

/-- The block of a stage with uniforms names the accessor of the strategy and lists fields with
distinct names, those of the stage among them. -/
theorem blockText_eq (s : StagePlan p symbols q layout) (hpacked : p.Packed) (hb : p.Bound)
    (hp : p.Carries) (hne : layout.fields ≠ []) :
    ∃ banner binding members, (members.map Field.name).Nodup ∧
      (∀ f ∈ layout.fields, f ∈ members) ∧
      Document.blockText layout.block = banner ++ blockOpening q.strategy binding ++ " \x7b\n" ++
        memberText q.strategy members ++ "\x7d " ++ q.strategy.accessor ++ ";\n\n" := by
  rw [s.layout_block, block?]
  cases hstrategy : q.strategy with
  | pushConstant =>
      refine ⟨Document.banner "Push constants", ⟨0, 0⟩, layout.fields, s.names_nodup,
        fun f hf => hf, ?_⟩
      have hempty : layout.fields.isEmpty = false := by simpa using hne
      simp only [hempty, Document.blockText, blockOpening, Strategy.accessor,
        String.append_assoc]
      rfl
  | uniformBuffer =>
      have hbuffer := (s.bound hb).mpr hstrategy
      obtain ⟨binding, hbinding⟩ := Option.isSome_iff_exists.mp hbuffer
      have hcarried := s.carries hb hp hbuffer
      obtain ⟨f, hf⟩ := List.exists_mem_of_ne_nil _ hne
      have hempty : q.carried.isEmpty = false := by
        rw [hcarried]
        simpa using memberText_ne_empty q.strategy (s.mem_fields hf)
      refine ⟨Document.banner "Uniform buffer", binding, q.fields, (s.packed hpacked).distinct,
        fun f hf => s.mem_fields hf, ?_⟩
      rw [hcarried, hstrategy] at hempty
      simp only [hbinding, hcarried, hstrategy, hempty, Document.blockText, blockOpening,
        Strategy.accessor, String.append_assoc]
      rfl

theorem declaresMember (s : StagePlan p symbols q layout) (hpacked : p.Packed) (hb : p.Bound)
    (hp : p.Carries) {d : Declaration} (hd : d ∈ symbols.uniforms.entries)
    (before after : String) :
    DeclaresMember (before ++ Document.blockText layout.block ++ after) q.strategy d := by
  obtain ⟨f, hf, hname, htype, hlength⟩ := s.exists_field hd
  obtain ⟨banner, binding, members, hnodup, hmem, hblock⟩ :=
    s.blockText_eq hpacked hb hp (List.ne_nil_of_mem hf)
  refine ⟨before ++ banner, binding, members, after, ?_, f, ?_, ?_⟩
  · rw [hblock]
    simp only [String.append_assoc]
  · rw [← hname]
    exact filter_name_eq_singleton hnodup (hmem f hf)
  · rw [Field.declared, htype, hname, hlength]
    rfl

theorem writtenStage (s : StagePlan p symbols q layout) (hpacked : p.Packed) (hb : p.Bound)
    (hp : p.Carries) {unit : ShaderUnit} (hsymbols : unit.symbols = symbols) (version : Nat)
    (interface : Interface) :
    WrittenStage unit.stage unit q.strategy
      (convertedShader version q.strategy unit interface layout).text := by
  subst hsymbols
  have hbody := qualify_eq_map unit.body unit.stage unit.symbols.uniforms layout.fields
    q.strategy.accessor fun name => s.names_perm.mem_iff
  obtain ⟨before, after, htext⟩ := Document.text_split
    { stage := unit.stage
      version := version
      defines := unit.symbols.defines
      interface := interface
      block := layout.block
      entryPoint := entryPointText
        (unit.body.qualify unit.stage layout.fields q.strategy.accessor) }
  refine ⟨before ++ Document.blockText layout.block ++ after, ?_, ?_⟩
  · rw [← hbody]
    exact htext
  · intro d hd
    exact s.declaresMember hpacked hb hp hd before after

end StagePlan

end Planner

theorem ShaderUnit.stage_of_parse {source : String} {stage : Stage} {unit : ShaderUnit}
    (h : (ShaderUnit.parse source stage).1 = .ok unit) : unit.stage = stage := by
  obtain ⟨_, -, -, _, -, rfl⟩ := ShaderUnit.parse_eq_ok h
  rfl

namespace PairRun

variable {vertexSource fragmentSource : String} {options : Options} {pair : ConvertedPair}

theorem bound_start (run : PairRun vertexSource fragmentSource options pair) : run.start.Bound :=
  (Planner.new_eq_ok run.new_eq).2.2.2

theorem carries_start (run : PairRun vertexSource fragmentSource options pair) :
    run.start.Carries := by
  obtain ⟨-, hfields, hcarried, -⟩ := Planner.new_eq_ok run.new_eq
  intro _
  rw [hfields, hcarried]
  rfl

theorem written_vertex (run : PairRun vertexSource fragmentSource options pair) :
    WrittenStage .vertex run.vertex pair.strategy pair.vertex.text := by
  obtain ⟨v⟩ := run.vertexPlan
  have hwritten := v.writtenStage run.packed_start run.bound_start run.carries_start rfl
    options.version pair.vertex.interface
  rw [← run.vertex_eq, run.strategies.2.1, ShaderUnit.stage_of_parse run.parse_vertex] at hwritten
  exact hwritten

theorem written_fragment (run : PairRun vertexSource fragmentSource options pair) :
    WrittenStage .fragment run.fragment pair.strategy pair.fragment.text := by
  obtain ⟨v⟩ := run.vertexPlan
  obtain ⟨f⟩ := run.fragmentPlan
  have hwritten := f.writtenStage run.packed_middle (v.bound run.bound_start)
    (v.carries run.bound_start run.carries_start) rfl options.version pair.fragment.interface
  rw [← run.fragment_eq, run.strategies.2.2,
    ShaderUnit.stage_of_parse run.parse_fragment] at hwritten
  exact hwritten

end PairRun

end ShaderUplift
