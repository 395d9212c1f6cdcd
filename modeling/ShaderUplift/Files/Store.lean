import ShaderUplift.Files.Path

/-! Files and folders in memory. A place is the list of names that leads to a file or folder from
the top, which is also where relative paths start. -/

namespace ShaderUplift.Files

inductive Node where
  | folder
  | file (bytes : ByteArray)

instance : DecidableEq Node
  | .folder, .folder => .isTrue rfl
  | .folder, .file _ => .isFalse Node.noConfusion
  | .file _, .folder => .isFalse Node.noConfusion
  | .file a, .file b =>
    match ByteArray.decEq a b with
    | .isTrue h => .isTrue (congrArg Node.file h)
    | .isFalse h => .isFalse fun heq => h (Node.file.inj heq)

abbrev Place := List String

/-- Why a file or folder cannot be used. -/
inductive FileError where
  | missing
  | exists
  | notFolder
  | isFolder
  | notText
  deriving DecidableEq, Repr

def FileError.message : FileError → String
  | .missing => "No such file or directory (os error 2)"
  | .exists => "File exists (os error 17)"
  | .notFolder => "Not a directory (os error 20)"
  | .isFolder => "Is a directory (os error 21)"
  | .notText => "stream did not contain valid UTF-8"

/-- What is below the top folder, which always exists. -/
structure Store where
  nodes : List (Place × Node)
  deriving DecidableEq

namespace Store

def empty : Store := ⟨[]⟩

def get? (s : Store) (l : Place) : Option Node :=
  if l = [] then some .folder else s.nodes.lookup l

/-- Puts a node at a place, in place of what is there. -/
def put (s : Store) (l : Place) (n : Node) : Store :=
  if (s.nodes.lookup l).isSome then
    ⟨s.nodes.map fun e => if e.1 = l then (l, n) else e⟩
  else ⟨s.nodes ++ [(l, n)]⟩

/-- Follows components from a place; everything on the way must exist. -/
def follow (s : Store) (here : Place) : List Component → Except FileError Place
  | [] => .ok here
  | .root :: cs => s.follow [] cs
  | .current :: cs => s.follow here cs
  | .parent :: cs =>
    match s.get? here with
    | some .folder => s.follow here.dropLast cs
    | _ => .error .notFolder
  | .normal name :: cs =>
    match s.get? here, s.get? (here ++ [name]) with
    | some .folder, some _ => s.follow (here ++ [name]) cs
    | some .folder, none => .error .missing
    | _, _ => .error .notFolder

/-- The place of a path that exists. -/
def resolve (s : Store) (p : Path) : Except FileError Place :=
  if p.components.isEmpty then .error .missing else s.follow [] p.components

/-- Makes the folders on the way of the components. A file in the place of the last one exists
already; one before that is not a folder. -/
def makeFolders (s : Store) (here : Place) : List Component → Except FileError (Store × Place)
  | [] => .ok (s, here)
  | .root :: cs => s.makeFolders [] cs
  | .current :: cs => s.makeFolders here cs
  | .parent :: cs => s.makeFolders here.dropLast cs
  | .normal name :: cs =>
    match s.get? (here ++ [name]) with
    | some .folder => s.makeFolders (here ++ [name]) cs
    | some (.file _) => .error (if cs.isEmpty then .exists else .notFolder)
    | none => (s.put (here ++ [name]) .folder).makeFolders (here ++ [name]) cs

def readText (s : Store) (p : Path) : Except FileError String :=
  (s.resolve p).bind fun l =>
    match s.get? l with
    | some .folder => .error .isFolder
    | some (.file bytes) =>
      match String.fromUTF8? bytes with
      | some text => .ok text
      | none => .error .notText
    | none => .error .missing

/-- Writes a file, making the folders it is in. Folders stay made when the file cannot be
written. -/
def writeBytes (s : Store) (p : Path) (bytes : ByteArray) : Store × Except FileError Unit :=
  match s.makeFolders [] p.components.dropLast with
  | .error e => (s, .error e)
  | .ok (t, here) =>
    match p.components.getLast? with
    | some (.normal name) =>
      match t.get? (here ++ [name]) with
      | some .folder => (t, .error .isFolder)
      | _ => (t.put (here ++ [name]) (.file bytes), .ok ())
    | _ => (t, .error .isFolder)

def writeText (s : Store) (p : Path) (text : String) : Store × Except FileError Unit :=
  s.writeBytes p text.toUTF8

/-- The absolute path of a place. -/
def pathOf (l : Place) : Path := ⟨"/" ++ "/".intercalate l⟩

def isBelow (folder l : Place) : Bool := folder.isPrefixOf l && folder.length < l.length

/-- The places of everything below a folder, at any depth. -/
def placesBelow (s : Store) (folder : Place) : List Place :=
  (s.nodes.map Prod.fst).filter (isBelow folder)

/-- The files below a folder with their bytes, in order of their paths. -/
def filesBelow (s : Store) (folder : Place) : List (Path × ByteArray) :=
  let files := s.nodes.filterMap fun (l, n) =>
    match n with
    | .file bytes => if isBelow folder l then some (pathOf l, bytes) else none
    | .folder => none
  files.mergeSort fun a b => a.1.text ≤ b.1.text

end Store

end ShaderUplift.Files
