import ShaderUplift.Proofs.Files.Found

/-! A folder is converted pair by pair. What may happen in the turn of one pair is listed once, in
terms of the reading of its two sources, the conversion of their texts and the writing of its two
results: a turn that does not come to writing leaves the store as it is. The main statement says that
the conversion of a folder is a sequence of such turns, one for each pair in the order of their
names, and that its summary is what the turns add up to. -/

namespace ShaderUplift.Files

/-- Converting two stages that were read one by one is converting their pair. -/
theorem convertParsed_parse (vertex fragment : String) (options : Options) :
    convertParsed (ShaderUnit.parse vertex .vertex).1 (ShaderUnit.parse fragment .fragment).1
      options = (convertPair vertex fragment options).1 := by
  unfold convertPair
  obtain ⟨vertexUnit, vertexNotices⟩ := ShaderUnit.parse vertex .vertex
  obtain ⟨fragmentUnit, fragmentNotices⟩ := ShaderUnit.parse fragment .fragment
  cases vertexUnit with
  | error e => rfl
  | ok v =>
      cases fragmentUnit with
      | error e => rfl
      | ok f => rfl

/-- The pair has both of its sources, and these are the texts in them. -/
structure PairPaths.Reads (paths : PairPaths) (store : Store) (vertex fragment : Path)
    (vertexText fragmentText : String) : Prop where
  hasVertex : paths.vertex = some vertex
  hasFragment : paths.fragment = some fragment
  readVertex : store.readText vertex = .ok vertexText
  readFragment : store.readText fragment = .ok fragmentText

/-- The unused declarations of the stages of a pair that can be read, those of the vertex stage
first. -/
def pairDiagnostics (vertex fragment : Path) (vertexText fragmentText : String) :
    List (Path × Diagnostic) :=
  stageDiagnostics vertex (ShaderUnit.parse vertexText .vertex).1 ++
    stageDiagnostics fragment (ShaderUnit.parse fragmentText .fragment).1

/-- What may happen in the turn of a pair, with the store before it and after it. -/
inductive Turn (input output : Path) (options : Options) (store : Store) (paths : PairPaths) :
    PairResult → Store → Prop
  | alone {path : Path}
      (h : paths = { vertex := some path } ∨ paths = { fragment := some path }) :
      Turn input output options store paths ⟨[], .error (.partnerMissing path)⟩ store
  | vertexUnreadable {vertex fragment : Path} {e : FileError}
      (hvertex : paths.vertex = some vertex) (hfragment : paths.fragment = some fragment)
      (hread : store.readText vertex = .error e) :
      Turn input output options store paths ⟨[], .error (.unreadable vertex e)⟩ store
  | fragmentUnreadable {vertex fragment : Path} {vertexText : String} {e : FileError}
      (hvertex : paths.vertex = some vertex) (hfragment : paths.fragment = some fragment)
      (hfirst : store.readText vertex = .ok vertexText)
      (hread : store.readText fragment = .error e) :
      Turn input output options store paths ⟨[], .error (.unreadable fragment e)⟩ store
  | refused {vertex fragment : Path} {vertexText fragmentText : String} {e : ConversionError}
      (hreads : paths.Reads store vertex fragment vertexText fragmentText)
      (hconvert : (convertPair vertexText fragmentText options).1 = .error e) :
      Turn input output options store paths
        ⟨pairDiagnostics vertex fragment vertexText fragmentText,
          .error (.notConverted vertex fragment e)⟩ store
  | vertexUnwritable {vertex fragment : Path} {vertexText fragmentText : String}
      {pair : ConvertedPair} {next : Store} {e : FileError}
      (hreads : paths.Reads store vertex fragment vertexText fragmentText)
      (hconvert : (convertPair vertexText fragmentText options).1 = .ok pair)
      (hwrite : store.writeText (vertex.outputPath input output options.vertexOutput)
        pair.vertex.text = (next, .error e)) :
      Turn input output options store paths
        ⟨pairDiagnostics vertex fragment vertexText fragmentText,
          .error (.unwritable (vertex.outputPath input output options.vertexOutput) e)⟩ next
  | fragmentUnwritable {vertex fragment : Path} {vertexText fragmentText : String}
      {pair : ConvertedPair} {next last : Store} {e : FileError}
      (hreads : paths.Reads store vertex fragment vertexText fragmentText)
      (hconvert : (convertPair vertexText fragmentText options).1 = .ok pair)
      (hfirst : store.writeText (vertex.outputPath input output options.vertexOutput)
        pair.vertex.text = (next, .ok ()))
      (hwrite : next.writeText (fragment.outputPath input output options.fragmentOutput)
        pair.fragment.text = (last, .error e)) :
      Turn input output options store paths
        ⟨pairDiagnostics vertex fragment vertexText fragmentText,
          .error (.unwritable (fragment.outputPath input output options.fragmentOutput) e)⟩ last
  | converted {vertex fragment : Path} {vertexText fragmentText : String}
      {pair : ConvertedPair} {next last : Store}
      (hreads : paths.Reads store vertex fragment vertexText fragmentText)
      (hconvert : (convertPair vertexText fragmentText options).1 = .ok pair)
      (hfirst : store.writeText (vertex.outputPath input output options.vertexOutput)
        pair.vertex.text = (next, .ok ()))
      (hwrite : next.writeText (fragment.outputPath input output options.fragmentOutput)
        pair.fragment.text = (last, .ok ())) :
      Turn input output options store paths
        ⟨pairDiagnostics vertex fragment vertexText fragmentText, .ok ()⟩ last

/-- Turns of pairs one after the other, each in the store that the one before it left. -/
inductive Turns (input output : Path) (options : Options) :
    Store → Pairs → List (Path × PairResult) → Store → Prop
  | nil {store : Store} : Turns input output options store [] [] store
  | cons {store next last : Store} {pair : Path × PairPaths} {pairs : Pairs} {result : PairResult}
      {results : List (Path × PairResult)} (hturn : Turn input output options store pair.2 result next)
      (hturns : Turns input output options next pairs results last) :
      Turns input output options store (pair :: pairs) ((pair.1, result) :: results) last

/-- The first result is written before the second one, which is not tried when the first one
fails. -/
theorem writePair_cases {store next : Store} {vertex fragment : Path}
    {vertexText fragmentText : String} {result : Except PairError Unit}
    (h : writePair store (vertex, vertexText) (fragment, fragmentText) = (next, result)) :
    (∃ e, store.writeText vertex vertexText = (next, .error e) ∧
      result = .error (.unwritable vertex e)) ∨
    ∃ middle, store.writeText vertex vertexText = (middle, .ok ()) ∧
      ((∃ e, middle.writeText fragment fragmentText = (next, .error e) ∧
        result = .error (.unwritable fragment e)) ∨
      middle.writeText fragment fragmentText = (next, .ok ()) ∧ result = .ok ()) := by
  simp only [writePair, writeOutput] at h
  cases hfirst : store.writeText vertex vertexText with
  | mk middle first =>
      rw [hfirst] at h
      cases first with
      | error e =>
          cases h
          exact .inl ⟨e, rfl, rfl⟩
      | ok done =>
          refine .inr ⟨middle, rfl, ?_⟩
          dsimp only at h
          cases hsecond : middle.writeText fragment fragmentText with
          | mk last second =>
              rw [hsecond] at h
              cases second with
              | error e =>
                  cases h
                  exact .inl ⟨e, rfl, rfl⟩
              | ok done =>
                  cases h
                  exact .inr ⟨rfl, rfl⟩

section Run

variable {store : Store} {input output : Path} {options : Options}

theorem convertFiles_of_reads {paths : PairPaths} {vertex fragment : Path}
    {vertexText fragmentText : String}
    (h : paths.Reads store vertex fragment vertexText fragmentText) (input output : Path)
    (options : Options) :
    convertFiles store vertex fragment input output options =
      match (convertPair vertexText fragmentText options).1 with
      | .error e =>
        (store, ⟨pairDiagnostics vertex fragment vertexText fragmentText,
          .error (.notConverted vertex fragment e)⟩)
      | .ok pair =>
        let (store, result) :=
          writePair store
            (vertex.outputPath input output options.vertexOutput, pair.vertex.text)
            (fragment.outputPath input output options.fragmentOutput, pair.fragment.text)
        (store, ⟨pairDiagnostics vertex fragment vertexText fragmentText, result⟩) := by
  unfold convertFiles readPair pairDiagnostics
  rewrite [h.readVertex, h.readFragment]
  dsimp only
  rewrite [convertParsed_parse]
  cases (convertPair vertexText fragmentText options).1 <;> rfl

theorem turn_of_convertFiles {paths : PairPaths} {vertex fragment : Path}
    (hvertex : paths.vertex = some vertex) (hfragment : paths.fragment = some fragment)
    {next : Store} {result : PairResult}
    (h : convertFiles store vertex fragment input output options = (next, result)) :
    Turn input output options store paths result next := by
  cases hfirst : store.readText vertex with
  | error e =>
      simp only [convertFiles, readPair, hfirst, Prod.mk.injEq] at h
      obtain ⟨rfl, rfl⟩ := h
      exact .vertexUnreadable hvertex hfragment hfirst
  | ok vertexText =>
      cases hsecond : store.readText fragment with
      | error e =>
          simp only [convertFiles, readPair, hfirst, hsecond, Prod.mk.injEq] at h
          obtain ⟨rfl, rfl⟩ := h
          exact .fragmentUnreadable hvertex hfragment hfirst hsecond
      | ok fragmentText =>
          have hreads : paths.Reads store vertex fragment vertexText fragmentText :=
            ⟨hvertex, hfragment, hfirst, hsecond⟩
          rw [convertFiles_of_reads hreads input output options] at h
          cases hconvert : (convertPair vertexText fragmentText options).1 with
          | error e =>
              simp only [hconvert, Prod.mk.injEq] at h
              obtain ⟨rfl, rfl⟩ := h
              exact .refused hreads hconvert
          | ok pair =>
              simp only [hconvert] at h
              generalize hwrites : writePair store _ _ = written at h
              obtain ⟨rfl, rfl⟩ := Prod.mk.inj h
              rcases writePair_cases hwrites with ⟨e, hwrite, hresult⟩ |
                ⟨middle, hwrite, ⟨e, hsecond, hresult⟩ | ⟨hsecond, hresult⟩⟩
              · rw [hresult]
                exact .vertexUnwritable hreads hconvert hwrite
              · rw [hresult]
                exact .fragmentUnwritable hreads hconvert hwrite hsecond
              · rw [hresult]
                exact .converted hreads hconvert hwrite hsecond

theorem turn_of_convertNamed {pair : Path × PairPaths} {next : Store} {result : PairResult}
    (h : convertNamed store input output options pair = .ok (next, result)) :
    Turn input output options store pair.2 result next := by
  obtain ⟨name, vertex, fragment⟩ := pair
  cases vertex with
  | none =>
      cases fragment with
      | none => cases h
      | some path =>
          cases h
          exact .alone (.inr rfl)
  | some vertex =>
      cases fragment with
      | none =>
          cases h
          exact .alone (.inl rfl)
      | some fragment => exact turn_of_convertFiles rfl rfl (Except.ok.inj h)

theorem turns_of_convertAll {pairs : Pairs} {last : Store} {results : List (Path × PairResult)}
    (h : convertAll store input output options pairs = .ok (last, results)) :
    Turns input output options store pairs results last := by
  induction pairs generalizing store results with
  | nil =>
      cases h
      exact .nil
  | cons pair pairs ih =>
      obtain ⟨next, result, rest, hnamed, hrest, rfl⟩ := convertAll_cons_eq_ok_iff.mp h
      exact .cons (turn_of_convertNamed hnamed) (ih hrest)

theorem Turns.names {pairs : Pairs} {last : Store} {results : List (Path × PairResult)}
    (h : Turns input output options store pairs results last) :
    results.map Prod.fst = pairs.map Prod.fst := by
  induction h with
  | nil => rfl
  | cons _ _ ih => rw [List.map_cons, List.map_cons, ih]

end Run

theorem exists_outcome {store last : Store} {input output : Path} {options : Options}
    {pairs : Pairs} {unreadable : Option FileError} {results : List (Path × PairResult)}
    (hfound : findPairs store (canonical store input) options = .ok (pairs, unreadable))
    (hall : convertAll store (canonical store input) output options pairs = .ok (last, results)) :
    ∃ outcome, convertFolder store input output options = .ok outcome ∧
      outcome.store = last ∧ outcome.summary = Summary.ofResults results := by
  simp [convertFolder, hfound, hall, Except.map]

end ShaderUplift.Files
