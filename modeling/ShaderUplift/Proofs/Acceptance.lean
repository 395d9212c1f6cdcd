import ShaderUplift.Proofs.Layout.OneBlock
import ShaderUplift.Proofs.Layout.Room
import ShaderUplift.Proofs.Locations

/-! Which pairs are converted, and what the others are refused for. The requirements of a pair are
listed in the order in which they are checked, each with its error, and only with what the stages
declare: known types and exact sums of sizes for each stage and for both, a place for the end of the
vertex stage, a vertex output for each fragment input, and for each fragment uniform, larger types
first, the agreement with the vertex stage or a place of its own. -/

namespace ShaderUplift

open Text

/-- The uniforms that the vertex stage has not declared. -/
def newUniforms (vertex : Symbols) (ds : List Declaration) : List Declaration :=
  ds.filter fun d => d.name ∉ vertex.uniforms.names

/-- The end of a block after the vertex stage and these uniforms of the fragment stage. -/
def blockEnd (vertex : Symbols) (ds : List Declaration) : Nat :=
  roundUp (blockBytes vertex.uniforms.entries) + blockBytes (newUniforms vertex ds)

/-- A uniform of both stages is declared alike, and a new one ends at a word. -/
def uniformRequirement (vertex : Symbols) (earlier : List Declaration) (d : Declaration) :
    Option ConversionError :=
  match vertex.uniforms.get? d.name with
  | some e =>
    require (e.type = d.type ∧ e.arrayLength = d.arrayLength)
      (.conflictingUniform d.name (e.type ++ " " ++ e.arrayed) (d.type ++ " " ++ d.arrayed))
  | none => require (blockEnd vertex (earlier ++ [d]) < wordBound) (.blockTooLarge d.name)

/-- The requirements on the sizes of both stages. -/
def sumRequirements (vertex fragment : Symbols) : List (Option ConversionError) :=
  sizeRequirements vertex.uniforms.entries ++ (sizeRequirements fragment.uniforms.entries ++
    [require
      (blockBytes vertex.uniforms.entries + blockBytes fragment.uniforms.entries < wordBound)
      (.blockTooLarge (Planner.lastName fragment.uniforms.names))])

/-- The requirement on the end of the vertex stage. -/
def vertexRequirement (vertex : Symbols) : Option ConversionError :=
  require (roundUp (blockBytes vertex.uniforms.entries) < wordBound)
    (.blockTooLarge
      (Planner.lastName ((byDescendingType vertex.uniforms.entries).map Declaration.name)))

/-- The requirements on the varyings of the fragment stage. -/
def varyingRequirements (vertex fragment : Symbols) : List (Option ConversionError) :=
  fragment.varyings.entries.map fun d =>
    require (d.name ∈ vertex.varyings.names) (.varyingNotWritten d.name)

/-- The requirements on the uniforms of the fragment stage. -/
def uniformRequirements (vertex fragment : Symbols) : List (Option ConversionError) :=
  let order := byDescendingType fragment.uniforms.entries
  eachAfter (uniformRequirement vertex) [] order ++
    [require (roundUp (blockEnd vertex order) < wordBound)
      (.blockTooLarge (Planner.lastName ((newUniforms vertex order).map Declaration.name)))]

/-- The requirements on two stages that are read. -/
def symbolRequirements (vertex fragment : Symbols) : List (Option ConversionError) :=
  sumRequirements vertex fragment ++ ([vertexRequirement vertex] ++
    (varyingRequirements vertex fragment ++ uniformRequirements vertex fragment))

/-- What a source declares, or nothing when it cannot be read. -/
def symbolsOf (source : String) (stage : Stage) : Symbols :=
  (ShaderUnit.parse source stage).1.toOption.elim .empty ShaderUnit.symbols

/-- The requirements on the sources of a pair. -/
def requirements (vertexSource fragmentSource : String) : List (Option ConversionError) :=
  [refusal? (ShaderUnit.parse vertexSource .vertex).1] ++
    ([refusal? (ShaderUnit.parse fragmentSource .fragment).1] ++
      symbolRequirements (symbolsOf vertexSource .vertex) (symbolsOf fragmentSource .fragment))

theorem symbolsOf_eq {source : String} {stage : Stage} {unit : ShaderUnit}
    (h : (ShaderUnit.parse source stage).1 = .ok unit) : symbolsOf source stage = unit.symbols := by
  rw [symbolsOf, h]
  rfl

/-- A uniform of a known type takes up some room, since no array is empty. -/
theorem bytes_pos_of_typed {source : String} {stage : Stage} {unit : ShaderUnit}
    (hparse : (ShaderUnit.parse source stage).1 = .ok unit) {us : List TypedUniform}
    (htyped : typedUniforms unit.symbols = .ok us) :
    ∀ d ∈ unit.symbols.uniforms.entries, 0 < d.bytes := by
  intro d hd
  have hvalid := validLength_of_mem_uniforms hparse hd
  obtain ⟨hdeclared, htypes⟩ := typedUniforms_eq_ok htyped
  rw [← hdeclared] at hd
  obtain ⟨u, hu, rfl⟩ := List.mem_map.mp hd
  rw [bytes_of_typed (htypes u hu)]
  refine Nat.mul_pos u.2.size_pos ?_
  cases hlength : u.1.arrayLength with
  | none => decide
  | some n => exact (hvalid n hlength).1

theorem settles_totalBytes (vertex fragment : Symbols) :
    Settles (sumRequirements vertex fragment) (Planner.totalBytes vertex fragment) := by
  refine (settles_usedBytes vertex).bind fun v hv =>
    (settles_usedBytes fragment).bind fun f hf => ?_
  rw [settles_singleton, (usedBytes_eq_ok hv).1, (usedBytes_eq_ok hf).1, checkedAdd, require]
  by_cases hword :
      blockBytes vertex.uniforms.entries + blockBytes fragment.uniforms.entries < wordBound
  · simp only [if_pos hword]
    rfl
  · simp only [if_neg hword]
    rfl

theorem totalBytes_eq_ok {vertex fragment : Symbols} {n : Nat}
    (h : Planner.totalBytes vertex fragment = .ok n) :
    blockBytes vertex.uniforms.entries < wordBound ∧
      (∃ us, typedUniforms vertex = .ok us) ∧ ∃ us, typedUniforms fragment = .ok us := by
  obtain ⟨v, hv, h⟩ := bind_eq_ok.mp h
  obtain ⟨f, hf, -⟩ := bind_eq_ok.mp h
  obtain ⟨rfl, hword, hus⟩ := usedBytes_eq_ok hv
  exact ⟨hword, hus, (usedBytes_eq_ok hf).2.2⟩

namespace Planner

theorem newOnes_of_nil {p : Planner} (h : p.fields = []) (us : List TypedUniform) :
    p.newOnes us = us.map Prod.fst := by
  simp [newOnes, lookup, h]

/-- A planner that has placed nothing needs no more than room for the rounded end. -/
theorem settles_firstStage {p : Planner} {symbols : Symbols} {us : List TypedUniform}
    (hp : p.Packed) (hfields : p.fields = []) (hoffset : p.offset = 0)
    (htyped : typedUniforms symbols = .ok us)
    (hpos : ∀ d ∈ symbols.uniforms.entries, 0 < d.bytes)
    (hword : blockBytes symbols.uniforms.entries < wordBound) :
    Settles [vertexRequirement symbols] (p.planStage symbols).2 := by
  obtain ⟨hdeclared, htypes⟩ := typedUniforms_eq_ok htyped
  have horder := map_fst_byRank htypes
  have hbytes : blockBytes (byDescendingType symbols.uniforms.entries) =
      blockBytes symbols.uniforms.entries := by
    rw [← hdeclared]
    exact blockBytes_perm (byDescendingType_perm htypes)
  have hall := settles_planStage htyped hp (by rw [hoffset]; rfl) hpos
  rw [stageRequirements, newOnes_of_nil hfields, horder, hdeclared, hoffset, Nat.zero_add,
    hbytes] at hall
  refine hall.of_append (forall_mem_eachAfter fun before u after heq => ?_)
  have hsub : (before ++ [u]).Sublist (byRank us) := by
    rw [heq]
    exact List.Sublist.append_left (List.singleton_sublist.mpr List.mem_cons_self) before
  have hle := blockBytes_sublist (hsub.map Prod.fst)
  rw [horder, hdeclared, hbytes] at hle
  have hnone : p.lookup u.1.name = none := by simp [lookup, hfields]
  rw [List.nil_append, placeRequirement, hnone, newOnes_of_nil hfields, hoffset]
  exact require_eq_none_iff.mpr (by omega)

namespace StagePlan

variable {p q : Planner} {symbols : Symbols} {layout : StageLayout}

theorem offset_eq (s : StagePlan p symbols q layout) (hfields : p.fields = [])
    (hoffset : p.offset = 0) : q.offset = roundUp (blockBytes symbols.uniforms.entries) := by
  obtain ⟨hall, hnames⟩ := byRank_spec s.typed_eq
  have hperm : (byRank s.uniforms).Perm s.uniforms := List.mergeSort_perm _ _
  have hplaced := (s.places.added_eq_newOnes (fun u hu => (hall u hu).2) hnames).2
  rw [newOnes_of_nil hfields, hoffset, Nat.zero_add, blockBytes_perm (hperm.map Prod.fst),
    (typedUniforms_eq_ok s.typed_eq).1] at hplaced
  rw [s.ended, hplaced]

/-- After the first stage a name is found exactly when the stage declares it, and as declared. -/
theorem lookup_eq (s : StagePlan p symbols q layout) (hfields : p.fields = []) (name : String) :
    (q.lookup name = none ↔ symbols.uniforms.get? name = none) ∧
      ∀ f d, q.lookup name = some f → symbols.uniforms.get? name = some d →
        f.name = d.name ∧ f.type.name = d.type ∧ f.arrayLength = d.arrayLength := by
  have hlayout : ∀ f ∈ q.fields, f ∈ layout.fields := by
    intro f hf
    rw [s.fields_eq, hfields, List.nil_append] at hf
    exact s.perm_placement.mem_iff.mpr (s.places.added_subset hf)
  have hnames : ∀ n, n ∈ q.fields.map Field.name ↔ n ∈ symbols.uniforms.names := by
    intro n
    rw [← s.names_perm.mem_iff, List.mem_map, List.mem_map]
    exact ⟨fun ⟨f, hf, hn⟩ => ⟨f, hlayout f hf, hn⟩, fun ⟨f, hf, hn⟩ => ⟨f, s.mem_fields hf, hn⟩⟩
  refine ⟨?_, ?_⟩
  · rw [lookup_eq_none_iff, hnames, Table.get?_eq_none_iff]
  · intro f d hf hd
    have hname : f.name = name := by simpa using List.find?_some hf
    obtain ⟨e, he, hshape⟩ := s.exists_declaration (hlayout f (List.mem_of_find?_eq_some hf))
    obtain ⟨hmem, hdname⟩ := Table.get?_eq_some_iff.mp hd
    have heq : e = d := Table.eq_of_name_eq he hmem ((hshape.1.symm.trans hname).trans hdname.symm)
    exact heq ▸ hshape

theorem newOnes_eq (s : StagePlan p symbols q layout) (hfields : p.fields = [])
    (us : List TypedUniform) : q.newOnes us = newUniforms symbols (us.map Prod.fst) := by
  rw [newOnes, newUniforms, List.filter_map]
  refine congrArg (List.map Prod.fst) (List.filter_congr fun u _ => ?_)
  have hnone := (s.lookup_eq hfields u.1.name).1
  rw [Table.get?_eq_none_iff, ← Option.isNone_iff_eq_none] at hnone
  simp only [Function.comp_apply, ← hnone, Bool.decide_eq_true]

theorem blockEnd_eq (s : StagePlan p symbols q layout) (hfields : p.fields = [])
    (hoffset : p.offset = 0) (us : List TypedUniform) :
    q.offset + blockBytes (q.newOnes us) = blockEnd symbols (us.map Prod.fst) := by
  rw [s.offset_eq hfields hoffset, s.newOnes_eq hfields, blockEnd]

theorem placeRequirement_eq (s : StagePlan p symbols q layout) (hfields : p.fields = [])
    (hoffset : p.offset = 0) (earlier : List TypedUniform) {u : TypedUniform}
    (hu : u.2.name = u.1.type) :
    q.placeRequirement earlier u = uniformRequirement symbols (earlier.map Prod.fst) u.1 := by
  obtain ⟨hnone, hsome⟩ := s.lookup_eq hfields u.1.name
  rw [placeRequirement, uniformRequirement]
  cases hfield : q.lookup u.1.name with
  | none =>
      rw [hnone.mp hfield]
      simp only
      rw [s.blockEnd_eq hfields hoffset, List.map_append]
      rfl
  | some f =>
      cases hget : symbols.uniforms.get? u.1.name with
      | none =>
          rw [hnone.mpr hget] at hfield
          cases hfield
      | some d =>
          obtain ⟨hname, htype, hlength⟩ := hsome f d hfield hget
          refine require_congr ?_ fun _ => ?_
          · rw [agrees_iff, hlength, ← htype, ← hu, ValueType.name_inj]
          · rw [conflict, Field.declared, hu, htype, hname, hlength]
            rfl

/-- What the planner requires of a later stage, in terms of the declarations of the first. -/
theorem stageRequirements_eq (s : StagePlan p symbols q layout) (hfields : p.fields = [])
    (hoffset : p.offset = 0) {fragment : Symbols} {us : List TypedUniform}
    (htyped : typedUniforms fragment = .ok us) :
    q.stageRequirements (byRank us) = uniformRequirements symbols fragment := by
  obtain ⟨hdeclared, htypes⟩ := typedUniforms_eq_ok htyped
  have horder : (byRank us).map Prod.fst = byDescendingType fragment.uniforms.entries := by
    rw [map_fst_byRank htypes, hdeclared]
  have heach : eachAfter (uniformRequirement symbols) [] ((byRank us).map Prod.fst) =
      eachAfter q.placeRequirement [] (byRank us) := by
    refine eachAfter_map [] fun before u after heq => s.placeRequirement_eq hfields hoffset _ ?_
    refine ((byRank_spec htyped).1 u ?_).2
    rw [heq]
    exact List.mem_append_right _ List.mem_cons_self
  rw [Planner.stageRequirements, uniformRequirements, s.blockEnd_eq hfields hoffset,
    s.newOnes_eq hfields, ← heach, horder]

end StagePlan

end Planner

theorem mem_names_record {ls : Locations} {outputs : List (Slot Nat)} {name : String} :
    name ∈ (ls.record outputs).names ↔
      name ∈ ls.names ∨ name ∈ outputs.map fun s => s.declaration.name := by
  induction outputs generalizing ls with
  | nil => simp [Locations.record]
  | cons s outputs ih =>
      rw [Locations.record, List.foldl_cons, List.map_cons, List.mem_cons, ← or_assoc]
      exact ih.trans (or_congr_left Table.mem_names_insert)

theorem refusal?_matchVarying (locations : Locations) (d : Declaration) :
    refusal? (matchVarying locations d) =
      require (d.name ∈ locations.names) (.varyingNotWritten d.name) := by
  rw [matchVarying, Locations.find?, require]
  cases hfind : locations.get? d.name with
  | none => rw [if_neg (Table.get?_eq_none_iff.mp hfind)]; rfl
  | some l =>
      have hmem : d.name ∈ locations.names := by
        obtain ⟨hl, hname⟩ := Table.get?_eq_some_iff.mp hfind
        exact hname ▸ List.mem_map_of_mem hl
      rw [if_pos hmem]
      rfl

theorem fragmentInterface_eq_map (symbols : Symbols) (locations : Locations)
    (descriptors : Descriptors) :
    fragmentInterface symbols locations descriptors =
      (symbols.varyings.entries.mapM (matchVarying locations)).map fun inputs =>
        let (samplers, descriptors) := bindAll descriptors symbols.samplers.entries
        (⟨inputs, [], samplers⟩, descriptors) := by
  rw [fragmentInterface]
  cases symbols.varyings.entries.mapM (matchVarying locations) <;> rfl

theorem settles_fragmentInterface (vertex fragment : Symbols) (descriptors : Descriptors) :
    Settles (varyingRequirements vertex fragment)
      (fragmentInterface fragment (.record .empty (numbered vertex.varyings)) descriptors) := by
  rw [fragmentInterface_eq_map]
  refine Settles.map (settles_mapM (fun d => ?_) _) _
  rw [refusal?_matchVarying]
  refine require_congr ?_ fun _ => rfl
  have hnames : (numbered vertex.varyings).map (fun s => s.declaration.name) =
      vertex.varyings.names := by
    rw [Table.names, ← map_declaration_numbered, List.map_map]
    rfl
  refine mem_names_record.trans ?_
  rw [hnames, Table.names_empty]
  simp

theorem refusal?_convertStage (version : Nat) (p : Planner) (unit : ShaderUnit)
    (interface : Interface) :
    refusal? (convertStage version p unit interface) = refusal? (p.planStage unit.symbols).2 := by
  rw [convertStage]
  rcases p.planStage unit.symbols with ⟨q, e | layout⟩ <;> rfl

theorem convertPair_fst (vertexSource fragmentSource : String) (options : Options) :
    (convertPair vertexSource fragmentSource options).1 =
      (ShaderUnit.parse vertexSource .vertex).1.bind fun vertex =>
        (ShaderUnit.parse fragmentSource .fragment).1.bind fun fragment =>
          (convertUnits vertex fragment options).1 := by
  rw [convertPair]
  rcases ShaderUnit.parse vertexSource .vertex with ⟨e | vertex, first⟩
  · rfl
  · rcases ShaderUnit.parse fragmentSource .fragment with ⟨e | fragment, second⟩ <;> rfl

theorem convertUnits_fst (vertex fragment : ShaderUnit) (options : Options) :
    (convertUnits vertex fragment options).1 =
      (Planner.new vertex.symbols fragment.symbols options.pushConstantLimit ⟨0, 0⟩).bind
        fun (start, descriptors) =>
          let (interface, locations, descriptors) :=
            vertexInterface vertex.symbols .empty descriptors
          (convertStage options.version start vertex interface).bind fun (first, middle) =>
            (fragmentInterface fragment.symbols locations descriptors).bind fun (interface, _) =>
              (convertStage options.version middle fragment interface).map fun (second, last) =>
                { vertex := first
                  fragment := second
                  strategy := last.strategy
                  size := last.offset
                  diagnostics := vertex.diagnostics ++ fragment.diagnostics } := by
  rw [convertUnits]
  rcases Planner.new vertex.symbols fragment.symbols options.pushConstantLimit ⟨0, 0⟩ with
    e | ⟨start, descriptors⟩
  · rfl
  rcases hinterface : vertexInterface vertex.symbols .empty descriptors with
    ⟨interface, locations, descriptors'⟩
  simp only [Except.bind, hinterface]
  rcases convertStage options.version start vertex interface with e | ⟨first, middle⟩
  · rfl
  simp only
  rcases fragmentInterface fragment.symbols locations descriptors' with e | ⟨interface', final⟩
  · rfl
  simp only
  rcases convertStage options.version middle fragment interface' with e | ⟨second, last⟩ <;> rfl

/-- Two stages that are read are converted when their requirements are met. -/
theorem settles_convertUnits {vertexSource fragmentSource : String} {vertex fragment : ShaderUnit}
    (hvertex : (ShaderUnit.parse vertexSource .vertex).1 = .ok vertex)
    (hfragment : (ShaderUnit.parse fragmentSource .fragment).1 = .ok fragment)
    (options : Options) :
    Settles (symbolRequirements vertex.symbols fragment.symbols)
      (convertUnits vertex fragment options).1 := by
  rw [convertUnits_fst]
  refine ((settles_totalBytes _ _).map _).bind ?_
  rintro ⟨start, descriptors⟩ hnew
  obtain ⟨total, htotal, -⟩ := map_eq_ok.mp hnew
  obtain ⟨hword, ⟨vs, hvs⟩, ⟨fs, hfs⟩⟩ := totalBytes_eq_ok htotal
  obtain ⟨hoffset, hfields, -, -⟩ := Planner.new_eq_ok hnew
  have hpacked := Planner.packed_of_new hnew
  have hfirst := Planner.settles_firstStage hpacked hfields hoffset hvs
    (bytes_pos_of_typed hvertex hvs) hword
  refine Settles.bind (by rw [Settles, refusal?_convertStage]; exact hfirst) ?_
  rintro ⟨first, middle⟩ hstage
  obtain ⟨plan⟩ := Planner.stagePlan_of_planStage (convertStage_eq_ok hstage).1
  refine (settles_fragmentInterface _ _ _).bind ?_
  rintro ⟨interface, _⟩ -
  refine Settles.map ?_ _
  rw [Settles, refusal?_convertStage, ← plan.stageRequirements_eq hfields hoffset hfs]
  exact Planner.settles_planStage hfs (plan.packed hpacked) plan.offset_mod
    (bytes_pos_of_typed hfragment hfs)

/-- A pair is converted exactly when all its requirements are met, and otherwise it is refused with
the error of the first that is not. -/
theorem convertPair_first_refusal (vertexSource fragmentSource : String) (options : Options) :
    ((∃ pair, (convertPair vertexSource fragmentSource options).1 = .ok pair) ↔
        ∀ r ∈ requirements vertexSource fragmentSource, r = none) ∧
      ∀ e, (convertPair vertexSource fragmentSource options).1 = .error e ↔
        ∃ before after, requirements vertexSource fragmentSource = before ++ some e :: after ∧
          ∀ r ∈ before, r = none := by
  have h : Settles (requirements vertexSource fragmentSource)
      (convertPair vertexSource fragmentSource options).1 := by
    rw [convertPair_fst]
    refine (settles_singleton.mpr rfl).bind fun vertex hvertex =>
      (settles_singleton.mpr rfl).bind fun fragment hfragment => ?_
    rw [symbolsOf_eq hvertex, symbolsOf_eq hfragment]
    exact settles_convertUnits hvertex hfragment options
  exact ⟨h.ok_iff, fun e => h.error_iff⟩

end ShaderUplift
