import ShaderUplift.Conversion
import ShaderUplift.Files.Store

/-! The shader pairs of a folder: files whose paths differ only in their extension. -/

namespace ShaderUplift.Files

structure PairPaths where
  vertex : Option Path := none
  fragment : Option Path := none
  deriving DecidableEq, Repr

/-- Pairs by name, in the order of paths. -/
abbrev Pairs := List (Path × PairPaths)

/-- Changes the pair of a name, which is empty when it is new. -/
def Pairs.change (name : Path) (f : PairPaths → PairPaths) : Pairs → Pairs
  | [] => [(name, f {})]
  | (other, paths) :: rest =>
    match name.compare other with
    | .lt => (name, f {}) :: (other, paths) :: rest
    | .eq => (other, f paths) :: rest
    | .gt => (other, paths) :: Pairs.change name f rest

/-- The characters of an extension form a valid file pattern: brackets are closed, and no brace is
closed that was not opened. -/
def isPattern (inBrackets : Bool) (braces : Nat) : List Char → Bool
  | [] => !inBrackets && braces == 0
  | c :: cs =>
    if inBrackets then isPattern (c != ']') braces cs
    else if c = '[' then isPattern true braces cs
    else if c = '\x7b' then isPattern false (braces + 1) cs
    else if c = '\x7d' then 0 < braces && isPattern false (braces - 1) cs
    else isPattern false braces cs

/-- The file name ends in a dot and the extension. -/
def hasEnding (extension : String) (name : String) : Bool :=
  ('.' :: extension.toList).isSuffixOf name.toList

def isCandidate (options : Options) (name : String) : Bool :=
  hasEnding options.vertexInput name || hasEnding options.fragmentInput name

/-- The stage of a source by its extension; the vertex extension is tried first. -/
def stageOf? (options : Options) (p : Path) : Option Stage :=
  match p.extension? with
  | none => none
  | some extension =>
    if extension = options.vertexInput.toList then some .vertex
    else if extension = options.fragmentInput.toList then some .fragment
    else none

/-- Puts a path into the pair of its name. -/
def Pairs.add (options : Options) (pairs : Pairs) (p : Path) : Pairs :=
  pairs.change (p.withExtension []) fun paths =>
    match stageOf? options p with
    | some .vertex => { paths with vertex := some p }
    | some .fragment => { paths with fragment := some p }
    | none => paths

/-- An extension of the options is no valid pattern. -/
structure InvalidPattern where
  deriving DecidableEq, Repr

/-- The paths below a folder that have one of the extensions; a file has nothing below it. -/
def candidates (store : Store) (folder : Place) (options : Options) : List Path :=
  ((store.placesBelow folder).filter fun l => l.getLast?.any (isCandidate options)).map
    Store.pathOf

/-- The pairs below a path, and why the path cannot be read, if so. -/
def findPairs (store : Store) (input : Path) (options : Options) :
    Except InvalidPattern (Pairs × Option FileError) :=
  if isPattern false 0 options.vertexInput.toList && isPattern false 0 options.fragmentInput.toList
  then
    match store.resolve input with
    | .ok folder => .ok ((candidates store folder options).foldl (Pairs.add options) [], none)
    | .error e => .ok ([], some e)
  else .error ⟨⟩

end ShaderUplift.Files
