import ShaderUplift.EntryPoint
import ShaderUplift.Interface
import ShaderUplift.Layout.Basic

/-! The text of a converted stage: version, definitions, inputs, samplers, uniform block, outputs
and entry point, each section under its banner. A section without lines is left out. -/

namespace ShaderUplift

structure Document where
  stage : Stage
  version : Nat
  defines : Table Define
  interface : Interface
  block : Option UniformBlock
  entryPoint : String

namespace Document

def defineLine (d : Define) : String :=
  "#define " ++ d.name ++ d.parameters.getD "" ++
    (if d.value.isEmpty then "" else " " ++ d.value) ++ "\n"

def locationLine (direction : String) (slot : Slot Nat) : String :=
  "layout(location = " ++ toString slot.index ++ ") " ++ direction ++ " " ++
    slot.declaration.type ++ " " ++ slot.declaration.arrayed ++ ";\n"

def bindingText (b : Binding) : String :=
  "layout(set = " ++ toString b.set ++ ", binding = " ++ toString b.binding ++ ")"

def samplerLine (slot : Slot Binding) : String :=
  bindingText slot.index ++ " uniform " ++ slot.declaration.type ++ " " ++
    slot.declaration.arrayed ++ ";\n"

def banner (title : String) : String := "// " ++ title ++ "\n"

def titled (title : String) (lines : List String) : String :=
  if lines.isEmpty then "" else banner title ++ String.join lines ++ "\n"

def blockText : Option UniformBlock → String
  | none => ""
  | some (.pushConstant members) =>
    banner "Push constants" ++ "layout(push_constant) uniform PushConstants \x7b\n" ++ members ++
      "\x7d pc;\n\n"
  | some (.uniformBuffer b members) =>
    banner "Uniform buffer" ++ bindingText b ++ " uniform UniformBuffer \x7b\n" ++ members ++
      "\x7d ub;\n\n"

def header (version : Nat) : String :=
  "#version " ++ toString version ++ "\n#extension GL_ARB_separate_shader_objects : enable\n\n"

def vertexOutput : String :=
  banner "Vertex output" ++ "out gl_PerVertex \x7b\n    vec4 gl_Position;\n\x7d;\n\n"

def fragmentOutputText : String :=
  banner "Fragment output" ++ "layout(location = 0) out vec4 " ++ fragmentOutput ++ ";\n\n"

/-- The sections between the definitions and the entry point. -/
def declarations (d : Document) : String :=
  let samplers := titled "Samplers" (d.interface.samplers.map samplerLine)
  match d.stage with
  | .vertex =>
    titled "Input" (d.interface.inputs.map (locationLine "in")) ++ samplers ++
      blockText d.block ++
      titled "Varying variables" (d.interface.outputs.map (locationLine "out")) ++ vertexOutput
  | .fragment =>
    titled "Varying variables" (d.interface.inputs.map (locationLine "in")) ++ samplers ++
      blockText d.block ++ fragmentOutputText

def stageBanner : Stage → String
  | .vertex => banner "Vertex shader" ++ "\n"
  | .fragment => banner "Fragment shader" ++ "\n"

def text (d : Document) : String :=
  header d.version ++ stageBanner d.stage ++
    titled "Defines" (d.defines.entries.map defineLine) ++ d.declarations ++
    banner "Main function" ++ d.entryPoint

end Document

end ShaderUplift
