import ShaderUplift.Body
import ShaderUplift.Declaration.Statement
import ShaderUplift.Source.Comments
import ShaderUplift.Source.EntryPoint

/-! One stage of a pair after reading: its body, and the declarations that the body uses. Of two
declarations of one kind and name the first counts. A varying array is divided into one varying for
each element, and its accesses in the body are replaced by their names. -/

namespace ShaderUplift

/-- Macros of the language itself; a source cannot define them. -/
def reservedDefines : List String :=
  ["GL_ES", "GL_FRAGMENT_PRECISION_HIGH", "VULKAN", "__VERSION__", "__LINE__", "__FILE__"]

/-- What is known about a stage after some of its statements. -/
structure Classification where
  stage : Stage
  body : Body
  symbols : Symbols
  diagnostics : List Diagnostic
  /-- The kinds and names declared so far, used or not. -/
  seen : List (DeclarationKind × String)
  notices : List Notice

namespace Classification

def start (stage : Stage) (body : Body) (notices : List Notice) : Classification :=
  ⟨stage, body, .empty, [], [], notices⟩

/-- The varying for one element of an array. -/
def element (d : Declaration) (index : Nat) : Declaration :=
  { d with name := Body.elementName d.name index, arrayLength := none }

/-- Adds a declaration that the body uses. -/
def retain (c : Classification) (d : Declaration) : Classification :=
  match d.kind, d.arrayLength with
  | .varying, some length =>
    let (body, notices) := c.body.expandIndexed d.name length
    let varyings :=
      (List.range length).foldl (fun t i => t.insertNew (element d i)) c.symbols.varyings
    { c with
      body := body
      symbols := { c.symbols with varyings := varyings }
      notices := c.notices ++ notices }
  | _, _ => { c with symbols := c.symbols.insert d }

def declare (c : Classification) (d : Declaration) : Classification :=
  if c.seen.contains (d.kind, d.name) then c
  else
    let c := { c with seen := c.seen ++ [(d.kind, d.name)] }
    if c.body.references d.name then c.retain d
    else { c with diagnostics := c.diagnostics ++ [⟨c.stage, d.kind, d.name⟩] }

def define (c : Classification) (d : Define) : Classification :=
  if reservedDefines.contains d.name then
    { c with notices := c.notices ++ [.reservedDefine d.name] }
  else if c.symbols.defines.contains d.name then c
  else if c.body.references d.name then
    { c with symbols := { c.symbols with defines := c.symbols.defines.insert d } }
  else { c with notices := c.notices ++ [.unusedDefine d.name c.stage] }

def step (c : Classification) : Statement → Classification
  | .declare d => c.declare d
  | .define d => c.define d

end Classification

structure ShaderUnit where
  stage : Stage
  /-- The source without tabs and comments. -/
  source : String
  body : Body
  symbols : Symbols
  diagnostics : List Diagnostic
  deriving DecidableEq

/-- Reads one stage. A missing entry point is reported before an invalid declaration. -/
def ShaderUnit.parse (source : String) (stage : Stage) :
    Except ConversionError ShaderUnit × List Notice :=
  let source := Source.normalize source
  match Source.entryBody source stage with
  | .error e => (.error e, [])
  | .ok text =>
    let (body, notices) := Body.parse text
    let (found, error) := statements (Source.words source)
    let c := found.foldl Classification.step (.start stage body notices)
    match error with
    | some e => (.error e, c.notices)
    | none => (.ok ⟨stage, source, c.body, c.symbols, c.diagnostics⟩, c.notices)

end ShaderUplift
