import ShaderUplift.Text.Blank

/-! File paths as text. Slashes divide a path into pieces; empty pieces and single dots count for
nothing, except that a leading slash is the root and a leading dot is a component of its own. The
text of a path is kept as it was written wherever an operation does not have to change it. -/

namespace ShaderUplift.Files

structure Path where
  text : String
  deriving DecidableEq, Repr

inductive Component where
  | root
  | current
  | parent
  | normal (name : String)
  deriving DecidableEq, Repr

def Component.rank : Component → Nat
  | .root => 0
  | .current => 1
  | .parent => 2
  | .normal _ => 3

/-- The order of components: the root first, names last and by their characters. -/
def Component.compare : Component → Component → Ordering
  | .normal a, .normal b => Ord.compare a b
  | a, b => Ord.compare a.rank b.rank

/-- Lists of components are ordered by the first place where they differ. -/
def compareComponents : List Component → List Component → Ordering
  | [], [] => .eq
  | [], _ :: _ => .lt
  | _ :: _, [] => .gt
  | a :: as, b :: bs => (a.compare b).then (compareComponents as bs)

/-- The piece counts for nothing inside a path. -/
def isIdle (piece : List Char) : Bool := piece = [] || piece = ['.']

def componentOf (piece : List Char) : Component :=
  if piece = ['.', '.'] then .parent else .normal (String.ofList piece)

/-- The components of pieces that are not at the start of a path. -/
def bodyComponents (ps : List (List Char)) : List Component :=
  (ps.filter fun p => !isIdle p).map componentOf

/-- The root or leading dot of a path, and the pieces after it. -/
def leading : List (List Char) → Option Component × List (List Char)
  | [] :: p :: ps => (some .root, p :: ps)
  | ['.'] :: ps => (some .current, ps)
  | ps => (none, ps)

/-- The pieces without idle ones at their end. -/
def trimIdleEnd (ps : List (List Char)) : List (List Char) := (ps.reverse.dropWhile isIdle).reverse

/-- The pieces after the given components, all of which they must start with. -/
def stripBody : List Component → List (List Char) → Option (List (List Char))
  | [], ps => some ps
  | _ :: _, [] => none
  | c :: cs, p :: ps =>
    if isIdle p then stripBody (c :: cs) ps
    else if componentOf p = c then stripBody cs ps
    else none

/-- The name without its extension, and the extension: what follows the last dot, unless that dot is
the first character. -/
def splitExtension (name : List Char) : List Char × Option (List Char) :=
  match name.reverse.dropWhile (· != '.') with
  | [] => (name, none)
  | [_] => (name, none)
  | _ :: stem => (stem.reverse, some ((name.reverse.takeWhile (· != '.')).reverse))

namespace Path

def chars (p : Path) : List Char := p.text.toList

def ofChars (cs : List Char) : Path := ⟨String.ofList cs⟩

/-- The pieces between slashes; there is always at least one. -/
def pieces (p : Path) : List (List Char) := p.chars.splitOn '/'

def components (p : Path) : List Component :=
  let (lead, body) := leading p.pieces
  lead.toList ++ bodyComponents body

/-- Paths are ordered by their components. -/
def compare (a b : Path) : Ordering := compareComponents a.components b.components

def isAbsolute (p : Path) : Bool := p.chars.head? = some '/'

/-- The path without idle pieces at its end; its root or leading dot stays. -/
def withoutTail (p : Path) : Path :=
  match leading p.pieces with
  | (none, body) => ofChars (['/'].intercalate (trimIdleEnd body))
  | (some .root, body) => ofChars ('/' :: ['/'].intercalate (trimIdleEnd body))
  | (some _, body) => ofChars (['/'].intercalate (['.'] :: trimIdleEnd body))

/-- The part of a path below a folder, when it is below it; idle pieces at its ends are dropped. -/
def below? (p base : Path) : Option Path :=
  let (lead, body) := leading p.pieces
  let rest :=
    match lead, base.components with
    | some l, c :: cs => if l = c then stripBody cs body else none
    | none, c :: cs => stripBody (c :: cs) body
    | _, [] => none
  if base.components.isEmpty then some p.withoutTail
  else rest.map fun ps => ofChars (['/'].intercalate (trimIdleEnd (ps.dropWhile isIdle)))

/-- A path inside a folder; an absolute path stays as it is. -/
def join (folder p : Path) : Path :=
  if p.isAbsolute then p
  else if folder.chars.getLast?.all (· == '/') then ofChars (folder.chars ++ p.chars)
  else ofChars (folder.chars ++ '/' :: p.chars)

/-- The last component, when it is a name. -/
def fileName? (p : Path) : Option (List Char) :=
  match (trimIdleEnd p.pieces).getLast? with
  | none => none
  | some name => if name = ['.', '.'] then none else some name

def extension? (p : Path) : Option (List Char) := p.fileName?.bind fun n => (splitExtension n).2

/-- Puts the extension after the stem of the file name; nothing follows it then. A path without a
file name stays as it is. -/
def setExtension (p : Path) (extension : List Char) : Path :=
  match p.fileName? with
  | none => p
  | some name =>
    let kept := (trimIdleEnd p.pieces).dropLast ++ [(splitExtension name).1]
    ofChars (['/'].intercalate kept ++ if extension.isEmpty then [] else '.' :: extension)

/-- Replaces the extension. The old one is cut off before the new one is set, so what is left of a
name such as `..x` is no file name and gets none. -/
def withExtension (p : Path) (extension : List Char) : Path :=
  let old := p.extension?.getD []
  (ofChars (p.chars.take (p.chars.length - old.length))).setExtension extension

/-- The place for the result of a source: where the source is below `input`, but below `output`, and
with another extension. -/
def outputPath (source input output : Path) (extension : String) : Path :=
  (output.join ((source.below? input).getD source)).withExtension extension.toList

end Path

end ShaderUplift.Files
