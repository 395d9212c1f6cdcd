import ShaderUplift.Stage
import ShaderUplift.Table
import ShaderUplift.Text.Quoted

/-! Global declarations of a stage, the definitions of macros it keeps, and the report on a
declaration that it does not use. -/

namespace ShaderUplift

inductive DeclarationKind where
  | attribute
  | uniform
  | varying
  | sampler
  deriving DecidableEq, Repr

def DeclarationKind.name : DeclarationKind → String
  | .attribute => "attribute"
  | .uniform => "uniform"
  | .varying => "varying"
  | .sampler => "sampler"

/-- A name as it is declared: with its length in square brackets when it is an array. -/
def arrayedName (name : String) : Option Nat → String
  | none => name
  | some length => name ++ "[" ++ toString length ++ "]"

structure Declaration where
  kind : DeclarationKind
  type : String
  name : String
  arrayLength : Option Nat
  deriving DecidableEq, Repr

def Declaration.arrayed (d : Declaration) : String := arrayedName d.name d.arrayLength

instance : Named Declaration := ⟨Declaration.name⟩

/-- A definition such as `#define SCALE(x) (x * 2.0)`. -/
structure Define where
  name : String
  /-- The parameter list with its brackets, as far as the first word of the line goes. -/
  parameters : Option String
  value : String
  deriving DecidableEq, Repr

instance : Named Define := ⟨Define.name⟩

/-- What a stage declares and uses, in order of first occurrence. -/
structure Symbols where
  attributes : Table Declaration
  uniforms : Table Declaration
  varyings : Table Declaration
  samplers : Table Declaration
  defines : Table Define
  deriving DecidableEq

namespace Symbols

def empty : Symbols := ⟨.empty, .empty, .empty, .empty, .empty⟩

def insert (s : Symbols) (d : Declaration) : Symbols :=
  match d.kind with
  | .attribute => { s with attributes := s.attributes.insert d }
  | .uniform => { s with uniforms := s.uniforms.insert d }
  | .varying => { s with varyings := s.varyings.insert d }
  | .sampler => { s with samplers := s.samplers.insert d }

end Symbols

/-- A declaration that was left out because the entry point never uses it. -/
structure Diagnostic where
  stage : Stage
  kind : DeclarationKind
  name : String
  deriving DecidableEq, Repr

def Diagnostic.text (d : Diagnostic) : String :=
  "unused " ++ d.kind.name ++ " " ++ Text.quoted d.name ++ " in " ++ d.stage.name ++ " shader"

end ShaderUplift
