/-! The two programmable stages of a pipeline. -/

namespace ShaderUplift

inductive Stage where
  | vertex
  | fragment
  deriving DecidableEq, Repr, Inhabited

def Stage.name : Stage → String
  | .vertex => "vertex"
  | .fragment => "fragment"

end ShaderUplift
