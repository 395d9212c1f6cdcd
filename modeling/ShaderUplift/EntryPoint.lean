import ShaderUplift.Body
import ShaderUplift.Layout.Basic

/-! The entry point of a converted stage: uniforms are used through their block, and the fragment
stage has new names for old built-in functions and its output. -/

namespace ShaderUplift

/-- The output variable of a fragment stage. -/
def fragmentOutput : String := "outputFragColor"

/-- Old built-in names of the fragment stage and their new ones. -/
def fragmentBuiltins : List (String × String) :=
  [("texture2D", "texture"), ("texture2DProj", "textureProj"), ("textureCube", "texture"),
   ("gl_FragColor", fragmentOutput)]

/-- The new names of a stage; built-ins go before uniforms of the same name. -/
def newNames (stage : Stage) (uniforms : List Field) (accessor : String) :
    List (String × String) :=
  uniforms.map (fun f => (f.name, accessor ++ "." ++ f.name)) ++
    match stage with
    | .vertex => []
    | .fragment => fragmentBuiltins

/-- The body with its new names. -/
def Body.qualify (b : Body) (stage : Stage) (uniforms : List Field) (accessor : String) : Body :=
  b.rename (newNames stage uniforms accessor)

def entryPointText (b : Body) : String := "void main()\n\x7b" ++ b.toText ++ "\x7d\n"

end ShaderUplift
