import ShaderUplift.Declaration.Basic
import ShaderUplift.Interface
import ShaderUplift.Text.Numeral

/-! Value types of uniforms, their sizes, and the members of a uniform block. Sizes and offsets are
numbers of bytes below `Text.wordBound`. -/

namespace ShaderUplift

open Text

inductive ValueType where
  | int
  | float
  | vec2
  | vec3
  | vec4
  | mat2
  | mat3
  | mat4
  deriving DecidableEq, Repr

namespace ValueType

def name : ValueType → String
  | .int => "int"
  | .float => "float"
  | .vec2 => "vec2"
  | .vec3 => "vec3"
  | .vec4 => "vec4"
  | .mat2 => "mat2"
  | .mat3 => "mat3"
  | .mat4 => "mat4"

def all : List ValueType := [.int, .float, .vec2, .vec3, .vec4, .mat2, .mat3, .mat4]

def ofName? (name : String) : Option ValueType := all.find? fun t => t.name == name

/-- The size in bytes, without padding. -/
def size : ValueType → Nat
  | .int => 4
  | .float => 4
  | .vec2 => 8
  | .vec3 => 12
  | .vec4 => 16
  | .mat2 => 16
  | .mat3 => 36
  | .mat4 => 64

/-- Types of a higher rank are placed first. -/
def rank : ValueType → Nat
  | .int => 0
  | .float => 1
  | .vec2 => 2
  | .vec3 => 3
  | .vec4 => 4
  | .mat2 => 5
  | .mat3 => 6
  | .mat4 => 7

theorem ofName?_name (t : ValueType) : ofName? t.name = some t := by cases t <;> decide

/-- The size of an array, or of a single value when there is no length. -/
def arraySize? (t : ValueType) (length : Option Nat) : Option Nat :=
  checkedMul t.size (length.getD 1)

end ValueType

/-- How the uniforms of a pair are handed to its shaders. -/
inductive Strategy where
  | pushConstant
  | uniformBuffer
  deriving DecidableEq, Repr

/-- The name through which members are used, as in `pc.mvp`. -/
def Strategy.accessor : Strategy → String
  | .pushConstant => "pc"
  | .uniformBuffer => "ub"

/-- Push constants are used as long as all uniforms fit the limit. -/
def Strategy.choose (total limit : Nat) : Strategy :=
  if total ≤ limit then .pushConstant else .uniformBuffer

/-- A uniform at its place in the block. -/
structure Field where
  name : String
  type : ValueType
  arrayLength : Option Nat
  offset : Nat
  deriving DecidableEq, Repr

namespace Field

def size? (f : Field) : Option Nat := f.type.arraySize? f.arrayLength

/-- The offset right after the field. -/
def stop? (f : Field) : Option Nat := f.size?.bind (checkedAdd f.offset)

/-- The field as it is declared, such as `vec4 tint[2]`. -/
def declared (f : Field) : String := f.type.name ++ " " ++ arrayedName f.name f.arrayLength

/-- The line of the field in a block; only push constants state their offset. -/
def member (strategy : Strategy) (f : Field) : String :=
  match strategy with
  | .pushConstant => "    layout(offset = " ++ toString f.offset ++ ") " ++ f.declared ++ ";\n"
  | .uniformBuffer => "    " ++ f.declared ++ ";\n"

end Field

/-- The lines of some fields, one after the other. -/
def memberText (strategy : Strategy) (fields : List Field) : String :=
  String.join (fields.map (Field.member strategy))

inductive UniformBlock where
  | pushConstant (members : String)
  | uniformBuffer (binding : Binding) (members : String)
  deriving DecidableEq, Repr

/-- The uniforms of one stage in order of their offsets, and the block that the stage declares. -/
structure StageLayout where
  fields : List Field
  block : Option UniformBlock
  deriving DecidableEq, Repr

/-- The alignment of the end of a stage's uniforms. -/
def stageAlignment : Nat := 16

/-- The least multiple of the alignment that is not less. -/
def roundUp (n : Nat) : Nat := (n + (stageAlignment - 1)) / stageAlignment * stageAlignment

theorem le_roundUp (n : Nat) : n ≤ roundUp n := by simp only [roundUp, stageAlignment]; omega

theorem roundUp_lt (n : Nat) : roundUp n < n + stageAlignment := by
  simp only [roundUp, stageAlignment]; omega

theorem roundUp_mod (n : Nat) : roundUp n % stageAlignment = 0 := by simp [roundUp]

end ShaderUplift
