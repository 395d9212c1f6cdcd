import ShaderUplift.Files.Pairs

/-! The conversion of all pairs of a folder. Pairs are converted one by one in the order of their
paths, and an error in one of them does not stop the others. -/

namespace ShaderUplift.Files

open Text (quoted)

inductive PairError where
  | partnerMissing (path : Path)
  | unreadable (path : Path) (cause : FileError)
  | unwritable (path : Path) (cause : FileError)
  | notConverted (vertex fragment : Path) (cause : ConversionError)
  deriving DecidableEq, Repr

namespace PairError

def message : PairError → String
  | .partnerMissing path => "expected a paired shader file for " ++ quoted path.text
  | .unreadable path _ => "error reading " ++ quoted path.text
  | .unwritable path _ => "error writing " ++ quoted path.text
  | .notConverted vertex fragment _ =>
    "error converting " ++ quoted vertex.text ++ " and " ++ quoted fragment.text

/-- The message with its cause. -/
def fullMessage (e : PairError) : String :=
  match e with
  | .partnerMissing _ => e.message
  | .unreadable _ cause | .unwritable _ cause => e.message ++ ": " ++ cause.message
  | .notConverted _ _ cause => e.message ++ ": " ++ cause.message

end PairError

/-- What became of one pair: the unused declarations of the stages that could be read, with their
sources, and whether both results were written. -/
structure PairResult where
  diagnostics : List (Path × Diagnostic)
  result : Except PairError Unit

structure Summary where
  converted : Nat
  failed : List (Path × PairError)
  /-- Unused declarations with the sources they are in. -/
  diagnostics : List (Path × Diagnostic)
  deriving DecidableEq, Repr

def PairResult.isConverted (r : PairResult) : Bool := r.result.isOk

def PairResult.error? (r : PairResult) : Option PairError :=
  match r.result with
  | .ok () => none
  | .error e => some e

/-- The summary of the results of named pairs. -/
def Summary.ofResults (rs : List (Path × PairResult)) : Summary where
  converted := rs.countP fun r => r.2.isConverted
  failed := rs.filterMap fun r => r.2.error?.map fun e => (r.1, e)
  diagnostics := rs.flatMap fun r => r.2.diagnostics

/-- What is remarked on while a folder is converted. -/
inductive Event where
  | inputUnreadable (input : Path) (cause : FileError)
  | unused (source : Path) (diagnostic : Diagnostic)
  | failed (error : PairError)
  | finished (summary : Summary)
  deriving DecidableEq, Repr

namespace Event

def level : Event → Level
  | .inputUnreadable _ _ | .failed _ => .error
  | .unused _ _ => .warn
  | .finished _ => .info

def text : Event → String
  | .inputUnreadable input cause =>
    "Error reading " ++ quoted input.text ++ ": IO error for operation on " ++ input.text ++ ": " ++
      cause.message
  | .unused source d => d.text ++ " (" ++ quoted source.text ++ ")"
  | .failed e => e.fullMessage
  | .finished s =>
    "Converted " ++ toString s.converted ++ " shader pairs with " ++ toString s.failed.length ++
      " failures and " ++ toString s.diagnostics.length ++ " unused declarations"

end Event

/-- The two texts of a pair; a vertex source that cannot be read is reported first. -/
def readPair (store : Store) (vertex fragment : Path) : Except PairError (String × String) :=
  match store.readText vertex, store.readText fragment with
  | .ok v, .ok f => .ok (v, f)
  | .error e, _ => .error (.unreadable vertex e)
  | _, .error e => .error (.unreadable fragment e)

def writeOutput (store : Store) (path : Path) (text : String) : Store × Except PairError Unit :=
  match store.writeText path text with
  | (store, .ok ()) => (store, .ok ())
  | (store, .error e) => (store, .error (.unwritable path e))

/-- Writes the vertex text and then the fragment text. -/
def writePair (store : Store) (vertex fragment : Path × String) : Store × Except PairError Unit :=
  match writeOutput store vertex.1 vertex.2 with
  | (store, .error e) => (store, .error e)
  | (store, .ok ()) => writeOutput store fragment.1 fragment.2

/-- The diagnostics of a stage with its source, when the stage could be read. -/
def stageDiagnostics (source : Path) :
    Except ConversionError ShaderUnit → List (Path × Diagnostic)
  | .ok unit => unit.diagnostics.map fun d => (source, d)
  | .error _ => []

/-- Converts two units, of which the vertex error goes first. -/
def convertParsed (vertex fragment : Except ConversionError ShaderUnit) (options : Options) :
    Except ConversionError ConvertedPair :=
  match vertex, fragment with
  | .error e, _ => .error e
  | _, .error e => .error e
  | .ok v, .ok f => (convertUnits v f options).1

/-- Converts the two sources of a pair and writes the results. -/
def convertFiles (store : Store) (vertex fragment input output : Path) (options : Options) :
    Store × PairResult :=
  match readPair store vertex fragment with
  | .error e => (store, ⟨[], .error e⟩)
  | .ok (vertexText, fragmentText) =>
    let vertexUnit := (ShaderUnit.parse vertexText .vertex).1
    let fragmentUnit := (ShaderUnit.parse fragmentText .fragment).1
    let diagnostics := stageDiagnostics vertex vertexUnit ++ stageDiagnostics fragment fragmentUnit
    match convertParsed vertexUnit fragmentUnit options with
    | .error e => (store, ⟨diagnostics, .error (.notConverted vertex fragment e)⟩)
    | .ok pair =>
      let (store, result) :=
        writePair store
          (vertex.outputPath input output options.vertexOutput, pair.vertex.text)
          (fragment.outputPath input output options.fragmentOutput, pair.fragment.text)
      (store, ⟨diagnostics, result⟩)

/-- Why a folder is not converted at all. -/
inductive FolderError where
  | invalidPattern
  /-- A file has one of the endings, but neither of the extensions. -/
  | nameWithoutSources (name : Path)
  deriving DecidableEq, Repr

/-- Converts the pair of a name. -/
def convertNamed (store : Store) (input output : Path) (options : Options)
    (pair : Path × PairPaths) : Except FolderError (Store × PairResult) :=
  match pair.2.vertex, pair.2.fragment with
  | some vertex, some fragment =>
    .ok (convertFiles store vertex fragment input output options)
  | some path, none | none, some path => .ok (store, ⟨[], .error (.partnerMissing path)⟩)
  | none, none => .error (.nameWithoutSources pair.1)

/-- Converts pairs one after the other. -/
def convertAll (store : Store) (input output : Path) (options : Options) :
    Pairs → Except FolderError (Store × List (Path × PairResult))
  | [] => .ok (store, [])
  | pair :: pairs =>
    match convertNamed store input output options pair with
    | .error e => .error e
    | .ok (store, result) =>
      (convertAll store input output options pairs).map fun (store, results) =>
        (store, (pair.1, result) :: results)

def PairResult.events (r : PairResult) : List Event :=
  r.diagnostics.map (fun d => .unused d.1 d.2) ++ (r.error?.map Event.failed).toList

/-- A folder after its conversion. -/
structure FolderOutcome where
  store : Store
  summary : Summary
  events : List Event

/-- The absolute path of what is there, and otherwise the path as it is. -/
def canonical (store : Store) (p : Path) : Path :=
  match store.resolve p with
  | .ok l => Store.pathOf l
  | .error _ => p

/-- Converts every pair below `input` and writes the results to the same places below `output`. -/
def convertFolder (store : Store) (input output : Path) (options : Options) :
    Except FolderError FolderOutcome :=
  let input := canonical store input
  match findPairs store input options with
  | .error _ => .error .invalidPattern
  | .ok (pairs, unreadable) =>
    (convertAll store input output options pairs).map fun (store, results) =>
      let summary := Summary.ofResults results
      { store := store
        summary := summary
        events :=
          (unreadable.map (Event.inputUnreadable input)).toList ++
            results.flatMap (fun r => r.2.events) ++ [.finished summary] }

end ShaderUplift.Files
