import ShaderUplift.Proofs.Files.Slots

/-! The results of sources below an input folder. The place of a result below the output folder is that
of its source below the input folder, and its name is the stem of the source with the output extension.
The main statement says which sources this fails for: those whose stem is a single dot, since two dots
are left when their extension is taken away, which are no name. It also says which different sources
have the same result: two such sources of one folder. -/

namespace ShaderUplift.Files

/-- Something that can stand after the last dot of a file name. -/
structure PlainExtension (ext : String) : Prop where
  nonempty : ext ≠ ""
  dot : '.' ∉ ext.toList
  slash : '/' ∉ ext.toList

instance (ext : String) : Decidable (PlainExtension ext) :=
  decidable_of_iff (ext ≠ "" ∧ '.' ∉ ext.toList ∧ '/' ∉ ext.toList)
    ⟨fun h => ⟨h.1, h.2.1, h.2.2⟩, fun h => ⟨h.nonempty, h.dot, h.slash⟩⟩

/-- The path is somewhere below the input and has a stage. -/
structure IsSource (options : Options) (input p : Path) : Prop where
  below : ∃ names : List String, names ≠ [] ∧ p.components = input.components ++ names.map .normal
  staged : HasStage options p

/-- A source below the input, by the folders it is in, its stem and its stage. -/
structure SourceBelow (options : Options) (input p : Path) (dirs : List String) (stem : String)
    (stage : Stage) : Prop where
  components : p.components =
    input.components ++ (dirs ++ [stem ++ "." ++ inputExtension options stage]).map .normal
  stage : stageOf? options p = some stage

/-- Where the result of a source is written. -/
def resultOf (options : Options) (input output p : Path) : Path :=
  p.outputPath input output ((stageOf? options p).elim "" (outputExtension options))

/-- The result of the source is at the same place below the output, under its stem with the output
extension of its stage. -/
def Mirrored (options : Options) (input output p : Path) : Prop :=
  ∃ dirs stem stage, SourceBelow options input p dirs stem stage ∧
    (resultOf options input output p).components =
      output.components ++ (dirs ++ [stem ++ "." ++ outputExtension options stage]).map .normal

theorem toList_dotted (stem ext : String) :
    (stem ++ "." ++ ext).toList = stem.toList ++ '.' :: ext.toList := by
  simp

section Source

variable {options : Options} {input p q : Path} {dirs dirs' : List String} {stem stem' : String}
  {stage stage' : Stage}

theorem IsSource.exists_sourceBelow (h : IsSource options input p) :
    ∃ dirs stem stage, SourceBelow options input p dirs stem stage := by
  obtain ⟨names, hne, hcomponents⟩ := h.below
  obtain ⟨stage, hstage⟩ := h.staged.exists_stageOf?
  obtain ⟨dirs, name, rfl⟩ := (List.eq_nil_or_concat' names).resolve_left hne
  have hext := extension?_of_stageOf? hstage
  have hlast : p.components = (input.components ++ dirs.map .normal) ++ [.normal name] := by
    rw [hcomponents, List.map_append, List.append_assoc]
    rfl
  rw [Path.extension?_of_components hlast] at hext
  have hname := (eq_append_of_splitExtension (Prod.ext rfl hext)).1
  refine ⟨dirs, String.ofList (splitExtension name.toList).1, stage, ?_, hstage⟩
  have heq : name = String.ofList (splitExtension name.toList).1 ++ "." ++
      inputExtension options stage := by
    rw [← String.toList_inj, toList_dotted, String.toList_ofList]
    exact hname
  rw [← heq]
  exact hcomponents

theorem SourceBelow.components_eq (h : SourceBelow options input p dirs stem stage) :
    p.components = (input.components ++ dirs.map .normal) ++
      [.normal (stem ++ "." ++ inputExtension options stage)] := by
  rw [h.components, List.map_append, List.append_assoc]
  rfl

theorem SourceBelow.split (h : SourceBelow options input p dirs stem stage) :
    splitExtension (stem ++ "." ++ inputExtension options stage).toList =
      (stem.toList, some (inputExtension options stage).toList) := by
  have hext := extension?_of_stageOf? h.stage
  rw [Path.extension?_of_components h.components_eq] at hext
  have hname := (eq_append_of_splitExtension (Prod.ext rfl hext)).1
  rw [toList_dotted] at hname hext ⊢
  exact Prod.ext (List.append_cancel_right hname).symm hext

/-- A source has its parts in one way only. -/
theorem SourceBelow.parts_eq (h : SourceBelow options input p dirs stem stage)
    (h' : SourceBelow options input p dirs' stem' stage') :
    dirs = dirs' ∧ stem = stem' ∧ stage = stage' := by
  obtain rfl : stage = stage' := Option.some.inj (h.stage.symm.trans h'.stage)
  have hnames := List.append_cancel_left (h.components.symm.trans h'.components)
  obtain ⟨hdirs, hlast⟩ := List.append_inj' (map_normal_injective hnames) rfl
  have hchars := congrArg String.toList (List.cons.inj hlast).1
  rw [toList_dotted, toList_dotted] at hchars
  exact ⟨hdirs, String.toList_inj.mp (List.append_cancel_right hchars), rfl⟩

theorem SourceBelow.components_resultOf (h : SourceBelow options input p dirs stem stage)
    (hplain : PlainExtension (outputExtension options stage)) (output : Path) :
    (resultOf options input output p).components =
      output.components ++ dirs.map .normal ++
        [if stem = "." then .parent
          else .normal (stem ++ "." ++ outputExtension options stage)] := by
  rw [resultOf, h.stage, Option.elim_some,
    components_outputPath h.components h.split hplain.nonempty hplain.slash]
  have hdot : stem.toList = ['.'] ↔ stem = "." := by
    rw [← String.toList_inj]
    rfl
  simp only [hdot]
  congr 4
  rw [← String.toList_inj, toList_dotted, String.toList_ofList]

/-- Only a stem that is a single dot leaves a result elsewhere. -/
theorem SourceBelow.mirrored_iff (h : SourceBelow options input p dirs stem stage)
    (hplain : PlainExtension (outputExtension options stage)) (output : Path) :
    Mirrored options input output p ↔ stem ≠ "." := by
  have hresult := h.components_resultOf hplain output
  constructor
  · rintro ⟨dirs', stem', stage', h', hresult'⟩ hdot
    rw [if_pos hdot] at hresult
    rw [hresult, List.map_append, ← List.append_assoc] at hresult'
    cases (List.cons.inj (List.append_inj' hresult' rfl).2).1
  · intro hdot
    refine ⟨dirs, stem, stage, h, ?_⟩
    rw [hresult, if_neg hdot, List.map_append, List.append_assoc]
    rfl

theorem eq_of_outputExtension_eq (hne : options.vertexOutput ≠ options.fragmentOutput)
    (h : outputExtension options stage = outputExtension options stage') : stage = stage' := by
  cases stage <;> cases stage'
  · rfl
  · exact absurd h hne
  · exact absurd h.symm hne
  · rfl

/-- The name of a result tells the stem and the stage of its source. -/
theorem SourceBelow.eq_of_resultName (h : SourceBelow options input p dirs stem stage)
    (h' : SourceBelow options input q dirs' stem' stage')
    (hplain : ∀ stage, PlainExtension (outputExtension options stage))
    (hne : options.vertexOutput ≠ options.fragmentOutput)
    (heq : stem ++ "." ++ outputExtension options stage =
      stem' ++ "." ++ outputExtension options stage') : stem = stem' ∧ stage = stage' := by
  have hstem := (eq_append_of_splitExtension h.split).2.2
  have hstem' := (eq_append_of_splitExtension h'.split).2.2
  have hchars := congrArg String.toList heq
  rw [toList_dotted, toList_dotted] at hchars
  have hsplit := congrArg splitExtension hchars
  rw [splitExtension_append hstem (hplain stage).dot,
    splitExtension_append hstem' (hplain stage').dot] at hsplit
  obtain ⟨hstems, hexts⟩ := Prod.mk.inj hsplit
  exact ⟨String.toList_inj.mp hstems,
    eq_of_outputExtension_eq hne (String.toList_inj.mp (Option.some.inj hexts))⟩

/-- Two sources have the same result only when both of them are in the same folder and have a single
dot for their stem. -/
theorem SourceBelow.same_result_iff (h : SourceBelow options input p dirs stem stage)
    (h' : SourceBelow options input q dirs' stem' stage')
    (hplain : ∀ stage, PlainExtension (outputExtension options stage))
    (hne : options.vertexOutput ≠ options.fragmentOutput) (hpq : p.components ≠ q.components)
    (output : Path) :
    (resultOf options input output p).components = (resultOf options input output q).components ↔
      dirs = dirs' ∧ stem = "." ∧ stem' = "." := by
  rw [h.components_resultOf (hplain stage), h'.components_resultOf (hplain stage')]
  constructor
  · intro heq
    obtain ⟨hfolders, hlast⟩ := List.append_inj' heq rfl
    obtain rfl : dirs = dirs' :=
      map_normal_injective (List.append_cancel_left hfolders)
    have hlast := (List.cons.inj hlast).1
    split at hlast <;> split at hlast
    · next hdot hdot' => exact ⟨rfl, hdot, hdot'⟩
    · cases hlast
    · cases hlast
    · obtain ⟨rfl, rfl⟩ := h.eq_of_resultName h' hplain hne (Component.normal.inj hlast)
      exact absurd (h.components.trans h'.components.symm) hpq
  · rintro ⟨rfl, rfl, rfl⟩
    rw [if_pos rfl, if_pos rfl]

end Source

theorem isSource_of_mem_foundPaths {store : Store} {input p : Path} {options : Options}
    (hstore : store.WellNamed) (hp : p ∈ foundPaths store input options)
    (hstage : HasStage options p) : IsSource options (canonical store input) p := by
  obtain ⟨i, dirs, name, hi, hvalid, rfl⟩ := exists_place_of_mem_foundPaths hstore hp
  refine ⟨⟨dirs ++ [name], by simp, ?_⟩, hstage⟩
  rw [canonical, hi, components_pathOf hvalid,
    components_pathOf fun n hn => hvalid n (List.mem_append_left _ hn), List.map_append]
  rfl

theorem plainExtension_output {options : Options} (hvertex : PlainExtension options.vertexOutput)
    (hfragment : PlainExtension options.fragmentOutput) (stage : Stage) :
    PlainExtension (outputExtension options stage) := by
  cases stage with
  | vertex => exact hvertex
  | fragment => exact hfragment

/-- A result is at the place of its source below the output folder, under the stem of its source with
the output extension, exactly when the stem is not a single dot. Different sources have different
results, except for sources of one folder that both have a single dot for their stem. -/
theorem results_mirror_sources {options : Options} {input : Path} (output : Path)
    (hvertex : PlainExtension options.vertexOutput)
    (hfragment : PlainExtension options.fragmentOutput)
    (hne : options.vertexOutput ≠ options.fragmentOutput) {sources : Set Path}
    (hsources : ∀ p ∈ sources, IsSource options input p) :
    (∀ p ∈ sources, Mirrored options input output p ↔
      ¬ ∃ dirs stage, SourceBelow options input p dirs "." stage) ∧
    ∀ p ∈ sources, ∀ q ∈ sources, p.components ≠ q.components →
      ((resultOf options input output p).components =
          (resultOf options input output q).components ↔
        ∃ dirs stage stage', SourceBelow options input p dirs "." stage ∧
          SourceBelow options input q dirs "." stage') := by
  have hplain := plainExtension_output hvertex hfragment
  constructor
  · intro p hp
    obtain ⟨dirs, stem, stage, hparts⟩ := (hsources p hp).exists_sourceBelow
    rw [hparts.mirrored_iff (hplain stage)]
    refine not_congr ⟨?_, ?_⟩
    · rintro rfl
      exact ⟨dirs, stage, hparts⟩
    · rintro ⟨dirs', stage', hdot⟩
      exact (hparts.parts_eq hdot).2.1
  · intro p hp q hq hpq
    obtain ⟨dirs, stem, stage, hparts⟩ := (hsources p hp).exists_sourceBelow
    obtain ⟨dirs', stem', stage', hparts'⟩ := (hsources q hq).exists_sourceBelow
    rw [hparts.same_result_iff hparts' hplain hne hpq]
    constructor
    · rintro ⟨rfl, rfl, rfl⟩
      exact ⟨dirs, stage, stage', hparts, hparts'⟩
    · rintro ⟨dirs'', _, _, hdot, hdot'⟩
      obtain ⟨rfl, rfl, -⟩ := hparts.parts_eq hdot
      obtain ⟨rfl, rfl, -⟩ := hparts'.parts_eq hdot'
      exact ⟨rfl, rfl, rfl⟩

/-- Among the sources of the folder, one has two dots for its stem and another one has a single dot. -/
theorem dotted_results_mirror_sources :
    (∀ p ∈ foundPaths dottedStore ⟨"in"⟩ {}, HasStage {} p →
        IsSource {} (canonical dottedStore ⟨"in"⟩) p) ∧
      Mirrored {} (canonical dottedStore ⟨"in"⟩) ⟨"out/"⟩ ⟨"/in/...vsh"⟩ ∧
      ¬ Mirrored {} (canonical dottedStore ⟨"in"⟩) ⟨"out/"⟩ ⟨"/in/..psh"⟩ ∧
      (resultOf {} (canonical dottedStore ⟨"in"⟩) ⟨"out/"⟩ ⟨"/in/...vsh"⟩).components ≠
        (resultOf {} (canonical dottedStore ⟨"in"⟩) ⟨"out/"⟩ ⟨"/in/..psh"⟩).components := by
  have hstore : dottedStore.WellNamed := by decide +kernel
  have hsources : ∀ p ∈ {p | p ∈ foundPaths dottedStore ⟨"in"⟩ {} ∧ HasStage {} p},
      IsSource {} (canonical dottedStore ⟨"in"⟩) p :=
    fun p hp => isSource_of_mem_foundPaths hstore hp.1 hp.2
  obtain ⟨hmirrored, hresults⟩ := results_mirror_sources ⟨"out/"⟩ (by decide +kernel)
    (by decide +kernel) (by decide +kernel) hsources
  have hvertex : SourceBelow {} (canonical dottedStore ⟨"in"⟩) ⟨"/in/...vsh"⟩ [] ".." .vertex :=
    ⟨by decide +kernel, by decide +kernel⟩
  have hfragment : SourceBelow {} (canonical dottedStore ⟨"in"⟩) ⟨"/in/..psh"⟩ [] "." .fragment :=
    ⟨by decide +kernel, by decide +kernel⟩
  have hvertexSource : (⟨"/in/...vsh"⟩ : Path) ∈
      {p | p ∈ foundPaths dottedStore ⟨"in"⟩ {} ∧ HasStage {} p} :=
    ⟨by decide +kernel, hasStage_of_stageOf? hvertex.stage⟩
  have hfragmentSource : (⟨"/in/..psh"⟩ : Path) ∈
      {p | p ∈ foundPaths dottedStore ⟨"in"⟩ {} ∧ HasStage {} p} :=
    ⟨by decide +kernel, hasStage_of_stageOf? hfragment.stage⟩
  have hdots : ∀ {dirs stage}, ¬ SourceBelow {} (canonical dottedStore ⟨"in"⟩) ⟨"/in/...vsh"⟩ dirs
      "." stage :=
    fun h => absurd (h.parts_eq hvertex).2.1 (by decide)
  refine ⟨fun p hp hstage => hsources p ⟨hp, hstage⟩, ?_, ?_, ?_⟩
  · exact (hmirrored _ hvertexSource).mpr fun ⟨_, _, h⟩ => hdots h
  · exact fun h => (hmirrored _ hfragmentSource).mp h ⟨_, _, hfragment⟩
  · intro heq
    obtain ⟨_, _, _, h, -⟩ :=
      (hresults _ hvertexSource _ hfragmentSource (by decide +kernel)).mp heq
    exact hdots h

/-- Sources of both stages that have a single dot for their stem have the folder above the output for
their result. -/
theorem dot_stems_share_result :
    IsSource {} ⟨"/in"⟩ ⟨"/in/..vsh"⟩ ∧ IsSource {} ⟨"/in"⟩ ⟨"/in/..psh"⟩ ∧
      resultOf {} ⟨"/in"⟩ ⟨"/out"⟩ ⟨"/in/..vsh"⟩ = ⟨"/out/.."⟩ ∧
      resultOf {} ⟨"/in"⟩ ⟨"/out"⟩ ⟨"/in/..psh"⟩ = ⟨"/out/.."⟩ ∧
      ¬ Mirrored {} ⟨"/in"⟩ ⟨"/out"⟩ ⟨"/in/..vsh"⟩ := by
  have hresult : resultOf {} ⟨"/in"⟩ ⟨"/out"⟩ ⟨"/in/..vsh"⟩ = ⟨"/out/.."⟩ := by decide +kernel
  refine ⟨⟨⟨["..vsh"], by simp, by decide +kernel⟩, .vertex, by decide +kernel⟩,
    ⟨⟨["..psh"], by simp, by decide +kernel⟩, .fragment, by decide +kernel⟩,
    hresult, by decide +kernel, ?_⟩
  rintro ⟨dirs, stem, stage, -, hmirrored⟩
  have hparent : (⟨"/out/.."⟩ : Path).components = [.root, .normal "out"] ++ [.parent] := by
    decide +kernel
  rw [hresult, hparent, List.map_append, ← List.append_assoc] at hmirrored
  cases (List.cons.inj (List.append_inj' hmirrored rfl).2).1

end ShaderUplift.Files
