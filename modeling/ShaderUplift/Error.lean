import ShaderUplift.Stage
import ShaderUplift.Text.Quoted

/-! Why a pair of shaders cannot be converted. Each constructor is one cause, and `message` is the
only place where it is put into words. -/

namespace ShaderUplift

inductive ConversionError where
  | entryPointMissing (stage : Stage)
  | varyingNotWritten (name : String)
  | unknownType (name type : String)
  /-- The two declarations are given as they stand in their stages, such as `vec4 tint[2]`. -/
  | conflictingUniform (name vertex fragment : String)
  | blockTooLarge (name : String)
  | invalidArrayLength (name length : String)
  deriving DecidableEq, Repr

open Text (quoted)

def ConversionError.message : ConversionError → String
  | .entryPointMissing stage =>
    "failed to find entry point `void main()` in " ++ stage.name ++ " shader"
  | .varyingNotWritten name =>
    "fragment varying " ++ quoted name ++ " is not written by the vertex shader"
  | .unknownType name type => "uniform " ++ quoted name ++ " has unsupported type " ++ quoted type
  | .conflictingUniform name vertex fragment =>
    "uniform " ++ quoted name ++ " is declared as " ++ quoted vertex ++
      " in vertex shader but " ++ quoted fragment ++ " in fragment shader"
  | .blockTooLarge name => "uniform " ++ quoted name ++ " does not fit in a uniform block"
  | .invalidArrayLength name length =>
    "declaration " ++ quoted name ++ " has invalid array length " ++ quoted length

end ShaderUplift
