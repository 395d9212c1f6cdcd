import ShaderUplift.Stage
import ShaderUplift.Text.Quoted

/-! Remarks made while shaders are read and converted. They never change a result. -/

namespace ShaderUplift

inductive Level where
  | error
  | warn
  | info
  | debug
  | trace
  deriving DecidableEq, Repr

/-- The rank of a level; a filter lets through every rank up to its own. -/
def Level.rank : Level → Nat
  | .error => 1
  | .warn => 2
  | .info => 3
  | .debug => 4
  | .trace => 5

def Level.label : Level → String
  | .error => "ERROR"
  | .warn => "WARN"
  | .info => "INFO"
  | .debug => "DEBUG"
  | .trace => "TRACE"

inductive Notice where
  /-- The body has no more tokens after this byte because of an error in it. -/
  | bodyCutShort (byte : Nat)
  | accessNotConstant (array : String)
  | reservedDefine (name : String)
  | unusedDefine (name : String) (stage : Stage)
  | attributesIgnored (count : Nat)
  deriving DecidableEq, Repr

open Text (quoted)

def Notice.level : Notice → Level
  | .bodyCutShort _ | .accessNotConstant _ => .warn
  | .reservedDefine _ | .unusedDefine _ _ | .attributesIgnored _ => .debug

def Notice.text : Notice → String
  | .bodyCutShort byte => "Unable to lex entry point body after byte " ++ toString byte
  | .accessNotConstant array =>
    "Unable to expand access to array " ++ quoted array ++ " with a non constant index"
  | .reservedDefine name => "Skipping reserved define " ++ quoted name
  | .unusedDefine name stage =>
    "Skipping unused define " ++ quoted name ++ " in " ++ stage.name ++ " shader"
  | .attributesIgnored count =>
    "Ignoring " ++ toString count ++ " attributes in fragment shader"

end ShaderUplift
