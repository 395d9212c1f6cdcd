import ShaderUplift.Document
import ShaderUplift.Layout.Planner
import ShaderUplift.ShaderUnit

/-! The conversion of a vertex and a fragment shader that are used together. The vertex stage goes
first, since the fragment stage takes its locations and continues its block. -/

namespace ShaderUplift

structure Options where
  pushConstantLimit : Nat := 128
  version : Nat := 450
  vertexInput : String := "vsh"
  fragmentInput : String := "psh"
  vertexOutput : String := "vert"
  fragmentOutput : String := "frag"
  deriving DecidableEq, Repr

structure ConvertedShader where
  text : String
  interface : Interface
  layout : StageLayout
  deriving DecidableEq, Repr

structure ConvertedPair where
  vertex : ConvertedShader
  fragment : ConvertedShader
  strategy : Strategy
  /-- The size of the uniform block in bytes. -/
  size : Nat
  diagnostics : List Diagnostic
  deriving DecidableEq, Repr

/-- A stage whose layout is planned. -/
def convertedShader (version : Nat) (strategy : Strategy) (unit : ShaderUnit)
    (interface : Interface) (layout : StageLayout) : ConvertedShader :=
  let body := unit.body.qualify unit.stage layout.fields strategy.accessor
  let document : Document :=
    { stage := unit.stage
      version := version
      defines := unit.symbols.defines
      interface := interface
      block := layout.block
      entryPoint := entryPointText body }
  ⟨document.text, interface, layout⟩

/-- Plans and writes one stage. -/
def convertStage (version : Nat) (planner : Planner) (unit : ShaderUnit) (interface : Interface) :
    Except ConversionError (ConvertedShader × Planner) :=
  match planner.planStage unit.symbols with
  | (_, .error e) => .error e
  | (planner, .ok layout) =>
    .ok (convertedShader version planner.strategy unit interface layout, planner)

/-- Converts two stages that are read already. -/
def convertUnits (vertex fragment : ShaderUnit) (options : Options) :
    Except ConversionError ConvertedPair × List Notice :=
  match Planner.new vertex.symbols fragment.symbols options.pushConstantLimit ⟨0, 0⟩ with
  | .error e => (.error e, [])
  | .ok (planner, descriptors) =>
    let (interface, locations, descriptors) :=
      vertexInterface vertex.symbols .empty descriptors
    match convertStage options.version planner vertex interface with
    | .error e => (.error e, [])
    | .ok (vertexShader, planner) =>
      let notices := fragmentNotices fragment.symbols
      match fragmentInterface fragment.symbols locations descriptors with
      | .error e => (.error e, notices)
      | .ok (interface, _) =>
        match convertStage options.version planner fragment interface with
        | .error e => (.error e, notices)
        | .ok (fragmentShader, planner) =>
          (.ok
            { vertex := vertexShader
              fragment := fragmentShader
              strategy := planner.strategy
              size := planner.offset
              diagnostics := vertex.diagnostics ++ fragment.diagnostics },
            notices)

/-- Converts the sources of a pair. -/
def convertPair (vertex fragment : String) (options : Options) :
    Except ConversionError ConvertedPair × List Notice :=
  match ShaderUnit.parse vertex .vertex with
  | (.error e, notices) => (.error e, notices)
  | (.ok vertex, first) =>
    match ShaderUnit.parse fragment .fragment with
    | (.error e, notices) => (.error e, first ++ notices)
    | (.ok fragment, second) =>
      let (result, third) := convertUnits vertex fragment options
      (result, first ++ second ++ third)

end ShaderUplift
