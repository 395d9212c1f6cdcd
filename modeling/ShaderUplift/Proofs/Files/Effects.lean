import ShaderUplift.Proofs.Files.Entries
import ShaderUplift.Proofs.Files.Turns

/-! What the conversion of one pair does, whatever was written for other pairs before. The input and
an empty output folder lie apart, so the sources of a pair are read as they were at first, and the
effect of the pair is fixed beforehand: entries below the output folder, and a result. It has this
effect in every store that takes the entries. A file in the place of one of its folders makes the
pair fail, in a way that it does not fail otherwise. -/

namespace ShaderUplift.Files

/-- The second store has what the first one has, except below the folder. -/
def Beside (o : Place) (s t : Store) : Prop := ∀ l, Store.isBelow o l = false → t.get? l = s.get? l

theorem Beside.trans {o : Place} {s t u : Store} (hst : Beside o s t) (htu : Beside o t u) :
    Beside o s u :=
  fun l hl => (htu l hl).trans (hst l hl)

theorem Overlaid.beside {o : Place} {s t : Store} {es : List (Place × Node)}
    (h : Overlaid s es t) (hes : ∀ e ∈ es, Store.isBelow o e.1 = true) : Beside o s t := by
  intro l hl
  apply h.other
  rintro e he rfl
  rw [hes e he] at hl
  cases hl

theorem isBelow_append {o names : Place} (hne : names ≠ []) : Store.isBelow o (o ++ names) = true := by
  have hlength := List.length_pos_iff.mpr hne
  rw [Store.isBelow, Bool.and_eq_true, List.isPrefixOf_iff_prefix]
  refine ⟨List.prefix_append o names, ?_⟩
  simpa using hlength

theorem isBelow_of_mem_writtenEntries {o dirs : Place} {name : Option String} {text : String}
    {e : Place × Node} (h : e ∈ writtenEntries o dirs name text) : Store.isBelow o e.1 = true := by
  rcases mem_writtenEntries h with ⟨hway, -⟩ | ⟨n, -, rfl⟩
  · obtain ⟨front, hne, -, heq⟩ := mem_way hway
    rw [heq]
    exact isBelow_append hne
  · rw [List.append_assoc]
    exact isBelow_append (by simp)

theorem follow_names_congr {s t : Store} (here : Place) (names : List String)
    (h : ∀ l, l <+: here ++ names → t.get? l = s.get? l) :
    t.follow here (names.map .normal) = s.follow here (names.map .normal) := by
  induction names generalizing here with
  | nil => rfl
  | cons name names ih =>
      have hhere := h here (List.prefix_append _ _)
      have hnext := h (here ++ [name]) (by simp)
      have hrest := ih (here ++ [name]) fun l hl => h l (by simpa using hl)
      rw [List.map_cons, Store.follow, Store.follow, hhere, hnext, hrest]

theorem eq_of_follow_names {s : Store} {here l : Place} {names : List String}
    (h : s.follow here (names.map .normal) = .ok l) : l = here ++ names := by
  induction names generalizing here with
  | nil =>
      cases h
      simp
  | cons name names ih =>
      rw [List.map_cons, Store.follow] at h
      split at h
      · rw [ih h, List.append_assoc, List.singleton_append]
      · cases h
      · cases h

theorem resolve_pathOf {s : Store} {l : Place} (hl : ∀ name ∈ l, ValidName name) :
    s.resolve (Store.pathOf l) = s.follow [] (l.map .normal) := by
  rw [Store.resolve, components_pathOf hl]
  rfl

/-- What is read from a place depends on the way to it only. -/
theorem readText_congr {s t : Store} {l : Place} (hl : ∀ name ∈ l, ValidName name)
    (h : ∀ k, k <+: l → t.get? k = s.get? k) :
    t.readText (Store.pathOf l) = s.readText (Store.pathOf l) := by
  rw [Store.readText, Store.readText, resolve_pathOf hl, resolve_pathOf hl,
    follow_names_congr [] l h]
  cases hfollow : s.follow [] (l.map .normal) with
  | error e => rfl
  | ok k =>
      have hk : k = l := eq_of_follow_names hfollow
      subst hk
      simp only [Except.bind, h k (List.prefix_refl k)]

theorem validNames_of_get? {s : Store} (hs : s.WellNamed) {l : Place} {n : Node}
    (h : s.get? l = some n) : ∀ name ∈ l, ValidName name := by
  unfold Store.get? at h
  split at h
  · next hnil =>
    rw [hnil]
    nofun
  · obtain ⟨e, he, heq⟩ := List.lookup_isSome_iff.mp (Option.isSome_iff_exists.mpr ⟨n, h⟩)
    rw [beq_iff_eq] at heq
    rw [heq]
    exact hs e he

theorem validNames_of_follow {s : Store} (hs : s.WellNamed) {here l : Place} {cs : List Component}
    (hhere : ∀ name ∈ here, ValidName name) (h : s.follow here cs = .ok l) :
    ∀ name ∈ l, ValidName name := by
  induction cs generalizing here with
  | nil =>
      cases h
      exact hhere
  | cons c cs ih =>
      cases c with
      | root => exact ih (by simp) h
      | current => exact ih hhere h
      | parent =>
          rw [Store.follow] at h
          split at h
          · exact ih (fun name hname => hhere name (List.dropLast_subset _ hname)) h
          · cases h
      | normal name =>
          rw [Store.follow] at h
          split at h
          · next hnext => exact ih (validNames_of_get? hs hnext) h
          · cases h
          · cases h

theorem validNames_of_resolve {s : Store} (hs : s.WellNamed) {p : Path} {l : Place}
    (h : s.resolve p = .ok l) : ∀ name ∈ l, ValidName name := by
  unfold Store.resolve at h
  split at h
  · cases h
  · exact validNames_of_follow hs (by simp) h

/-- An input at a place, and an empty folder for the output that lies apart from it. -/
structure Apart (store : Store) (input output : Path) (i o : Place) : Prop where
  named : store.WellNamed
  resolveInput : store.resolve input = .ok i
  resolveOutput : store.resolve output = .ok o
  folder : store.get? o = some .folder
  empty : store.placesBelow o = []
  inputNotAbove : ¬ i <+: o
  outputNotAbove : ¬ o <+: i

section Setting

variable {store : Store} {input output : Path} {i o : Place}

theorem Apart.canonical_input (h : Apart store input output i o) :
    canonical store input = Store.pathOf i := by
  rw [canonical, h.resolveInput]

theorem Apart.get?_eq_none (h : Apart store input output i o) {l : Place}
    (hl : Store.isBelow o l = true) : store.get? l = none := by
  unfold Store.get?
  split
  · next hnil =>
    rw [hnil, Store.isBelow, Bool.and_eq_true, decide_eq_true_eq] at hl
    exact absurd hl.2 (Nat.not_lt_zero _)
  · rw [← Option.not_isSome_iff_eq_none, List.lookup_isSome_iff]
    rintro ⟨e, he, heq⟩
    rw [beq_iff_eq] at heq
    subst heq
    have hmem : e.1 ∈ store.placesBelow o :=
      List.mem_filter.mpr ⟨List.mem_map_of_mem he, hl⟩
    rw [h.empty] at hmem
    cases hmem

theorem Apart.validInput (h : Apart store input output i o) : ∀ name ∈ i, ValidName name :=
  validNames_of_resolve h.named h.resolveInput

/-- Whatever is written below the output folder, the output path leads to it. -/
theorem Apart.makeFolders_output (h : Apart store input output i o) {s : Store}
    (hs : Beside o store s) : s.makeFolders [] output.components = .ok (s, o) := by
  refine makeFolders_of_resolve (s := store) (fun l hl => ?_) h.resolveOutput h.folder
  rw [hs l, hl]
  rw [← Bool.not_eq_true]
  intro hbelow
  rw [h.get?_eq_none hbelow] at hl
  cases hl

/-- Whatever is written below the output folder, a source is read as it was. -/
theorem Apart.readText_source (h : Apart store input output i o) {s : Store}
    (hs : Beside o store s) {names : Place} (hnames : ∀ name ∈ i ++ names, ValidName name) :
    s.readText (Store.pathOf (i ++ names)) = store.readText (Store.pathOf (i ++ names)) := by
  refine readText_congr hnames fun k hk => hs k ?_
  rw [← Bool.not_eq_true, Store.isBelow, Bool.and_eq_true, List.isPrefixOf_iff_prefix]
  rintro ⟨hbelow, -⟩
  rcases List.prefix_or_prefix_of_prefix (hbelow.trans hk) (List.prefix_append i names) with hle | hle
  · exact h.outputNotAbove hle
  · exact h.inputNotAbove hle

end Setting

def inputExtension (options : Options) : Stage → String
  | .vertex => options.vertexInput
  | .fragment => options.fragmentInput

def outputExtension (options : Options) : Stage → String
  | .vertex => options.vertexOutput
  | .fragment => options.fragmentOutput

theorem extension?_of_stageOf? {options : Options} {p : Path} {stage : Stage}
    (h : stageOf? options p = some stage) :
    p.extension? = some (inputExtension options stage).toList := by
  unfold stageOf? at h
  split at h
  · cases h
  · next ext hext =>
    rw [hext]
    split at h
    · next heq =>
      cases h
      rw [heq]
      rfl
    · split at h
      · next heq =>
        cases h
        rw [heq]
        rfl
      · cases h

/-- A source below the input: the folders it is in, its file name, and the stem of that. -/
structure SourceAt (i : Place) (stage : Stage) (p : Path) (dirs : Place) (name : String)
    (stem : List Char) : Prop where
  path : p = Store.pathOf (i ++ (dirs ++ [name]))
  valid : ∀ n ∈ i ++ (dirs ++ [name]), ValidName n
  split : splitExtension name.toList = (stem, some (inputExtension {} stage).toList)

/-- The file name of the result of a source; a stem that is a single dot gives none. -/
def resultName (stage : Stage) (stem : List Char) : Option String :=
  if stem = ['.'] then none
  else some (String.ofList (stem ++ '.' :: (outputExtension {} stage).toList))

theorem length_outputExtension (stage : Stage) :
    (outputExtension {} stage).toList.length = 4 := by
  cases stage <;> decide +kernel

/-- The name of a result tells the stage and the stem of its source. -/
theorem resultName_inj {stage stage' : Stage} {stem stem' : List Char} {n : String}
    (h : resultName stage stem = some n) (h' : resultName stage' stem' = some n) :
    stage = stage' ∧ stem = stem' := by
  unfold resultName at h h'
  split at h
  · cases h
  · split at h'
    · cases h'
    · have hchars : stem ++ '.' :: (outputExtension {} stage).toList =
          stem' ++ '.' :: (outputExtension {} stage').toList :=
        String.ofList_injective ((Option.some.inj h).trans (Option.some.inj h').symm)
      have hlength : ('.' :: (outputExtension {} stage).toList).length =
          ('.' :: (outputExtension {} stage').toList).length := by
        rw [List.length_cons, List.length_cons, length_outputExtension, length_outputExtension]
      obtain ⟨hstem, hext⟩ := List.append_inj' hchars hlength
      refine ⟨?_, hstem⟩
      have hext : outputExtension {} stage = outputExtension {} stage' :=
        String.toList_inj.mp (List.cons.inj hext).2
      cases stage <;> cases stage' <;> first | rfl | exact absurd hext (by decide)

/-- Where the result of a source is written. -/
def resultPath (i : Place) (output : Path) (stage : Stage) (p : Path) : Path :=
  p.outputPath (Store.pathOf i) output (outputExtension {} stage)

section Sources

variable {store : Store} {input output : Path} {i o : Place} {pairs : Pairs}
  {pair : Path × PairPaths}

theorem exists_sourceAt (h : Apart store input output i o)
    (hholds : pairs.Holds {} (foundPaths store (Store.pathOf i) {})) (hpair : pair ∈ pairs)
    (stage : Stage) {p : Path} (hp : pair.2.source? stage = some p) :
    ∃ dirs name stem, SourceAt i stage p dirs name stem := by
  obtain ⟨hmem, hstage, -⟩ := hholds.source pair hpair stage p hp
  obtain ⟨folder, dirs, name, hfolder, hvalid, rfl⟩ := exists_place_of_mem_foundPaths h.named hmem
  rw [resolve_pathOf h.validInput] at hfolder
  obtain rfl : folder = i := eq_of_follow_names hfolder
  have hextension := extension?_of_stageOf? hstage
  rw [← List.append_assoc, extension?_pathOf (by rwa [List.append_assoc])] at hextension
  exact ⟨dirs, name, (splitExtension name.toList).1, rfl, hvalid, by rw [← hextension]⟩

theorem SourceAt.components_result {stage : Stage} {p : Path} {dirs : Place} {name : String}
    {stem : List Char} (h : SourceAt i stage p dirs name stem) (output : Path) :
    (resultPath i output stage p).components =
      output.components ++ dirs.map .normal ++ [lastComponent (resultName stage stem)] := by
  have hi : ∀ n ∈ i, ValidName n := fun n hn => h.valid n (List.mem_append_left _ hn)
  have hne : outputExtension {} stage ≠ "" := by cases stage <;> decide
  have hslash : '/' ∉ (outputExtension {} stage).toList := by cases stage <;> decide
  have hbelow : p.components = (Store.pathOf i).components ++ (dirs ++ [name]).map .normal := by
    rw [h.path, components_pathOf h.valid, components_pathOf hi, List.map_append, List.cons_append]
  rw [resultPath, components_outputPath hbelow h.split hne hslash, resultName]
  split <;> rfl

/-- The sources of one pair are in the same folder. -/
theorem SourceAt.dirs_eq {stage stage' : Stage} {p p' : Path} {dirs dirs' : Place}
    {name name' : String} {stem stem' : List Char} (h : SourceAt i stage p dirs name stem)
    (h' : SourceAt i stage' p' dirs' name' stem') (hname : SameName p p') : dirs = dirs' := by
  have hvalid := h.valid
  have hvalid' := h'.valid
  rw [← List.append_assoc] at hvalid hvalid'
  rw [h.path, h'.path, ← List.append_assoc, ← List.append_assoc, sameName_iff hvalid hvalid']
    at hname
  exact List.append_cancel_left hname.1

/-- The place of a result tells its source. -/
theorem SourceAt.eq_of_result {stage stage' : Stage} {p p' : Path} {dirs dirs' : Place}
    {name name' n n' : String} {stem stem' : List Char} (h : SourceAt i stage p dirs name stem)
    (h' : SourceAt i stage' p' dirs' name' stem') (hn : resultName stage stem = some n)
    (hn' : resultName stage' stem' = some n') (heq : o ++ dirs ++ [n] = o ++ dirs' ++ [n']) :
    stage = stage' ∧ p = p' := by
  obtain ⟨hdirs, hlast⟩ := List.append_inj' heq rfl
  obtain rfl : dirs = dirs' := List.append_cancel_left hdirs
  obtain rfl : n = n' := (List.cons.inj hlast).1
  obtain ⟨rfl, rfl⟩ := resultName_inj hn hn'
  have hname : name = name' := by
    rw [← String.toList_inj, (eq_append_of_splitExtension h.split).1,
      (eq_append_of_splitExtension h'.split).1]
  exact ⟨rfl, by rw [h.path, h'.path, hname]⟩

end Sources

/-- What the two writes of a pair put into the store. The second result is not written when the
first one has no name. -/
def pairEntries (o dirs : Place) (vertexName fragmentName : Option String)
    (vertexText fragmentText : String) : List (Place × Node) :=
  writtenEntries o dirs vertexName vertexText ++
    if vertexName.isSome then writtenEntries o dirs fragmentName fragmentText else []

/-- How the two writes of a pair end when nothing is in their way. -/
def pairWritten (vertex fragment : Path) :
    Option String → Option String → Except PairError Unit
  | none, _ => .error (.unwritable vertex .isFolder)
  | some _, none => .error (.unwritable fragment .isFolder)
  | some _, some _ => .ok ()

/-- Nothing but a folder in the place of a result is complained about then. -/
theorem error?_pairWritten_ne {vertex fragment p : Path} {vertexName fragmentName : Option String}
    {diagnostics : List (Path × Diagnostic)} {e : FileError} (hne : e ≠ .isFolder) :
    (PairResult.mk diagnostics (pairWritten vertex fragment vertexName fragmentName)).error? ≠
      some (.unwritable p e) := by
  intro heq
  cases vertexName with
  | none =>
      cases heq
      exact hne rfl
  | some n =>
      cases fragmentName with
      | none =>
          cases heq
          exact hne rfl
      | some n' => cases heq

section WritePair

variable {o dirs : Place} {vertexName fragmentName : Option String}
  {vertexText fragmentText : String} {s : Store} {front : List Component} {vertex fragment : Path}

theorem mem_pairEntries {e : Place × Node}
    (h : e ∈ pairEntries o dirs vertexName fragmentName vertexText fragmentText) :
    e.1 ∈ way o dirs ∧ e.2 = .folder ∨
      (∃ n ∈ vertexName, e = (o ++ dirs ++ [n], .file vertexText.toUTF8)) ∨
        ∃ n ∈ fragmentName, e = (o ++ dirs ++ [n], .file fragmentText.toUTF8) := by
  rcases List.mem_append.mp h with h | h
  · exact (mem_writtenEntries h).imp_right .inl
  · split at h
    · exact (mem_writtenEntries h).imp_right .inr
    · cases h

theorem isBelow_of_mem_pairEntries {e : Place × Node}
    (h : e ∈ pairEntries o dirs vertexName fragmentName vertexText fragmentText) :
    Store.isBelow o e.1 = true := by
  rcases List.mem_append.mp h with h | h
  · exact isBelow_of_mem_writtenEntries h
  · split at h
    · exact isBelow_of_mem_writtenEntries h
    · cases h

theorem agreeing_pairEntries (hne : ∀ n ∈ vertexName, n ∉ fragmentName) :
    Agreeing (pairEntries o dirs vertexName fragmentName vertexText fragmentText) := by
  have hname : ∀ {n n' : String}, o ++ dirs ++ [n] = o ++ dirs ++ [n'] → n = n' :=
    fun heq => (List.cons.inj (List.append_cancel_left heq)).1
  intro e he e' he' heq
  rcases mem_pairEntries he with ⟨hway, hnode⟩ | ⟨n, hn, rfl⟩ | ⟨n, hn, rfl⟩ <;>
    rcases mem_pairEntries he' with ⟨hway', hnode'⟩ | ⟨n', hn', rfl⟩ | ⟨n', hn', rfl⟩
  · rw [hnode, hnode']
  · exact absurd heq (ne_of_mem_way hway n')
  · exact absurd heq (ne_of_mem_way hway n')
  · exact absurd heq.symm (ne_of_mem_way hway' n)
  · rfl
  · exact absurd (hname heq ▸ hn') (hne n hn)
  · exact absurd heq.symm (ne_of_mem_way hway' n)
  · exact absurd (hname heq ▸ hn) (hne n' hn')
  · rfl

theorem writePair_of_takes (hfront : ∀ t, Beside o s t → t.makeFolders [] front = .ok (t, o))
    (hvertex : vertex.components = front ++ dirs.map .normal ++ [lastComponent vertexName])
    (hfragment : fragment.components = front ++ dirs.map .normal ++ [lastComponent fragmentName])
    (hne : ∀ n ∈ vertexName, n ∉ fragmentName)
    (htakes : s.Takes (pairEntries o dirs vertexName fragmentName vertexText fragmentText)) :
    ∃ t, writePair s (vertex, vertexText) (fragment, fragmentText) =
        (t, pairWritten vertex fragment vertexName fragmentName) ∧
      Overlaid s (pairEntries o dirs vertexName fragmentName vertexText fragmentText) t := by
  have hagree :
      Agreeing (pairEntries o dirs vertexName fragmentName vertexText fragmentText) :=
    agreeing_pairEntries hne
  obtain ⟨t, hwrite, hfirst⟩ := writeText_of_takes (hfront s fun _ _ => rfl) hvertex
    (htakes.of_subset (List.subset_append_left _ _))
  cases vertexName with
  | none =>
      refine ⟨t, ?_, ?_⟩
      · simp only [writePair, writeOutput, hwrite]
        rfl
      · rw [pairEntries, Option.isSome_none, if_neg (by decide), List.append_nil]
        exact hfirst
  | some n =>
      have hbeside : Beside o s t := hfirst.beside fun e he => isBelow_of_mem_writtenEntries he
      obtain ⟨u, hwrite', hsecond⟩ := writeText_of_takes (hfront t hbeside) hfragment
        (htakes.after hagree hfirst)
      refine ⟨u, ?_, hfirst.trans hsecond hagree⟩
      simp only [writePair, writeOutput, hwrite, Option.isSome_some, if_true, hwrite']
      cases fragmentName <;> rfl

theorem writePair_of_file (hfront : s.makeFolders [] front = .ok (s, o))
    (hvertex : vertex.components = front ++ dirs.map .normal ++ [lastComponent vertexName])
    {l : Place} {bytes : ByteArray} (hl : l ∈ way o dirs) (hfile : s.get? l = some (.file bytes))
    (vertexText : String) (fragment : Path) (fragmentText : String) :
    ∃ e, writePair s (vertex, vertexText) (fragment, fragmentText) =
        (s, .error (.unwritable vertex e)) ∧ e ≠ .isFolder := by
  obtain ⟨e, hwrite, hne⟩ := writeText_of_file hfront hvertex hl hfile vertexText
  refine ⟨e, ?_, hne⟩
  simp only [writePair, writeOutput, hwrite]

end WritePair

/-- What the conversion of a pair does, whatever was written below the output folder before: it lays
its entries over the store and ends with its result, unless something else is in their way. -/
structure Effect (store : Store) (output : Path) (i o : Place) (pair : Path × PairPaths)
    (es : List (Place × Node)) (r : PairResult) : Prop where
  below : ∀ e ∈ es, Store.isBelow o e.1 = true
  agreeing : Agreeing es
  taken : ∀ s, Beside o store s → s.Takes es →
    ∃ t, convertNamed s (Store.pathOf i) output {} pair = .ok (t, r) ∧ Overlaid s es t
  blocked : ∀ s, Beside o store s → ∀ l bytes, (l, .folder) ∈ es → s.get? l = some (.file bytes) →
    ∃ t r' e, convertNamed s (Store.pathOf i) output {} pair = .ok (t, r') ∧
      r'.error? = some e ∧ r.error? ≠ some e
  file : ∀ l bytes, (l, .file bytes) ∈ es → ∃ stage p dirs name stem n,
    pair.2.source? stage = some p ∧ SourceAt i stage p dirs name stem ∧
      resultName stage stem = some n ∧ l = o ++ dirs ++ [n]

section Effects

variable {store : Store} {input output : Path} {i o : Place} {pairs : Pairs}
  {pair : Path × PairPaths}

/-- A pair that does not come to writing has no entries. -/
theorem effect_of_unchanged {r : PairResult}
    (h : ∀ s, Beside o store s → convertNamed s (Store.pathOf i) output {} pair = .ok (s, r)) :
    Effect store output i o pair [] r where
  below := nofun
  agreeing := nofun
  taken s hs _ := ⟨s, h s hs, .refl s⟩
  blocked := nofun
  file := nofun

theorem resultName_ne {stem stem' : List Char} :
    ∀ n ∈ resultName .vertex stem, n ∉ resultName .fragment stem' := by
  intro n hn hn'
  cases (resultName_inj hn hn').1

theorem convertNamed_of_reads {s : Store} {vertex fragment : Path}
    {vertexText fragmentText : String} {converted : ConvertedPair}
    (hreads : pair.2.Reads s vertex fragment vertexText fragmentText)
    (hconvert : (convertPair vertexText fragmentText {}).1 = .ok converted) {t : Store}
    {result : Except PairError Unit}
    (hwrite : writePair s (resultPath i output .vertex vertex, converted.vertex.text)
      (resultPath i output .fragment fragment, converted.fragment.text) = (t, result)) :
    convertNamed s (Store.pathOf i) output {} pair =
      .ok (t, ⟨pairDiagnostics vertex fragment vertexText fragmentText, result⟩) := by
  have hfiles := convertFiles_of_reads hreads (Store.pathOf i) output {}
  have hwrite' : writePair s
      (vertex.outputPath (Store.pathOf i) output "vert", converted.vertex.text)
      (fragment.outputPath (Store.pathOf i) output "frag", converted.fragment.text) =
        (t, result) := hwrite
  rw [convertNamed, hreads.hasVertex, hreads.hasFragment]
  simp only [hfiles, hconvert, hwrite']

theorem effect_of_conversion (h : Apart store input output i o) {vertex fragment : Path}
    {dirs : Place} {vertexName fragmentName : String} {vertexStem fragmentStem : List Char}
    {vertexText fragmentText : String} {converted : ConvertedPair}
    (hvertex : SourceAt i .vertex vertex dirs vertexName vertexStem)
    (hfragment : SourceAt i .fragment fragment dirs fragmentName fragmentStem)
    (hreads : ∀ s, Beside o store s → pair.2.Reads s vertex fragment vertexText fragmentText)
    (hconvert : (convertPair vertexText fragmentText {}).1 = .ok converted) :
    Effect store output i o pair
      (pairEntries o dirs (resultName .vertex vertexStem) (resultName .fragment fragmentStem)
        converted.vertex.text converted.fragment.text)
      ⟨pairDiagnostics vertex fragment vertexText fragmentText,
        pairWritten (resultPath i output .vertex vertex) (resultPath i output .fragment fragment)
          (resultName .vertex vertexStem) (resultName .fragment fragmentStem)⟩ := by
  refine ⟨fun e he => isBelow_of_mem_pairEntries he, agreeing_pairEntries resultName_ne, ?_, ?_, ?_⟩
  · intro s hs htakes
    obtain ⟨t, hwrite, hover⟩ := writePair_of_takes
      (fun t ht => h.makeFolders_output (hs.trans ht)) (hvertex.components_result output)
      (hfragment.components_result output) resultName_ne htakes
    exact ⟨t, convertNamed_of_reads (hreads s hs) hconvert hwrite, hover⟩
  · intro s hs l bytes hl hfile
    have hway : l ∈ way o dirs := by
      rcases mem_pairEntries hl with ⟨hway, -⟩ | ⟨n, -, heq⟩ | ⟨n, -, heq⟩
      · exact hway
      · cases heq
      · cases heq
    obtain ⟨e, hwrite, hne⟩ := writePair_of_file (h.makeFolders_output hs)
      (hvertex.components_result output) hway hfile converted.vertex.text
      (resultPath i output .fragment fragment) converted.fragment.text
    exact ⟨s, _, .unwritable (resultPath i output .vertex vertex) e,
      convertNamed_of_reads (hreads s hs) hconvert hwrite, rfl, error?_pairWritten_ne hne⟩
  · have hsources := hreads store fun _ _ => rfl
    intro l bytes hl
    rcases mem_pairEntries hl with ⟨-, hnode⟩ | ⟨n, hn, heq⟩ | ⟨n, hn, heq⟩
    · cases hnode
    · exact ⟨.vertex, vertex, dirs, vertexName, vertexStem, n, hsources.hasVertex, hvertex, hn,
        (Prod.mk.inj heq).1⟩
    · exact ⟨.fragment, fragment, dirs, fragmentName, fragmentStem, n, hsources.hasFragment,
        hfragment, hn, (Prod.mk.inj heq).1⟩

theorem exists_effect_of_sources (h : Apart store input output i o) {vertex fragment : Path}
    {dirs : Place} {vertexName fragmentName : String} {vertexStem fragmentStem : List Char}
    (hpaths : pair.2 = ⟨some vertex, some fragment⟩)
    (hvertex : SourceAt i .vertex vertex dirs vertexName vertexStem)
    (hfragment : SourceAt i .fragment fragment dirs fragmentName fragmentStem) :
    ∃ es r, Effect store output i o pair es r := by
  have hreadVertex : ∀ s, Beside o store s → s.readText vertex = store.readText vertex := by
    intro s hs
    rw [hvertex.path, h.readText_source hs hvertex.valid]
  have hreadFragment : ∀ s, Beside o store s → s.readText fragment = store.readText fragment := by
    intro s hs
    rw [hfragment.path, h.readText_source hs hfragment.valid]
  cases hfirst : store.readText vertex with
  | error e =>
      refine ⟨_, ⟨[], .error (.unreadable vertex e)⟩, effect_of_unchanged fun s hs => ?_⟩
      simp only [convertNamed, hpaths, convertFiles, readPair, hreadVertex s hs, hfirst]
  | ok vertexText =>
      cases hsecond : store.readText fragment with
      | error e =>
          refine ⟨_, ⟨[], .error (.unreadable fragment e)⟩, effect_of_unchanged fun s hs => ?_⟩
          simp only [convertNamed, hpaths, convertFiles, readPair, hreadVertex s hs, hfirst,
            hreadFragment s hs, hsecond]
      | ok fragmentText =>
          have hreads : ∀ s, Beside o store s →
              pair.2.Reads s vertex fragment vertexText fragmentText := by
            intro s hs
            rw [hpaths]
            exact ⟨rfl, rfl, (hreadVertex s hs).trans hfirst, (hreadFragment s hs).trans hsecond⟩
          cases hconvert : (convertPair vertexText fragmentText {}).1 with
          | error e =>
              refine ⟨_, ⟨pairDiagnostics vertex fragment vertexText fragmentText,
                .error (.notConverted vertex fragment e)⟩, effect_of_unchanged fun s hs => ?_⟩
              simp only [convertNamed, hpaths, convertFiles_of_reads (hreads s hs), hconvert]
          | ok converted =>
              exact ⟨_, _, effect_of_conversion h hvertex hfragment hreads hconvert⟩

/-- Every found pair with a source has an effect. -/
theorem exists_effect (h : Apart store input output i o)
    (hholds : pairs.Holds {} (foundPaths store (Store.pathOf i) {})) (hpair : pair ∈ pairs)
    (hsource : pair.2.HasSource) : ∃ es r, Effect store output i o pair es r := by
  obtain ⟨name, vertex, fragment⟩ := pair
  cases vertex with
  | none =>
      cases fragment with
      | none => rcases hsource with hnone | hnone <;> cases hnone
      | some fragment => exact ⟨_, _, effect_of_unchanged fun s _ => rfl⟩
  | some vertex =>
      cases fragment with
      | none => exact ⟨_, _, effect_of_unchanged fun s _ => rfl⟩
      | some fragment =>
          obtain ⟨dirs, vertexName, vertexStem, hvertex⟩ :=
            exists_sourceAt h hholds hpair .vertex rfl
          obtain ⟨dirs', fragmentName, fragmentStem, hfragment⟩ :=
            exists_sourceAt h hholds hpair .fragment rfl
          have hkey := (hholds.source _ hpair .vertex vertex rfl).2.2
          have hkey' := (hholds.source _ hpair .fragment fragment rfl).2.2
          have hsame : SameName vertex fragment :=
            Std.TransCmp.eq_trans hkey (Std.OrientedCmp.eq_symm hkey')
          have hdirs : dirs = dirs' := hvertex.dirs_eq hfragment hsame
          subst hdirs
          exact exists_effect_of_sources h rfl hvertex hfragment

end Effects

end ShaderUplift.Files
