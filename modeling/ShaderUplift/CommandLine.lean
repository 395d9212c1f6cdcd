import ShaderUplift.Files.Batch

/-! The command line: its options, and a run as a function of the arguments and the files. -/

namespace ShaderUplift.CommandLine

open Files Text

/-- An option that takes a value. -/
inductive Flag where
  | input
  | output
  | limit
  | level
  | vertexInput
  | fragmentInput
  | vertexOutput
  | fragmentOutput
  deriving DecidableEq, Repr

def Flag.ofLong? : String → Option Flag
  | "ifolder" => some .input
  | "ofolder" => some .output
  | "push-constant-limit" => some .limit
  | "log-level" => some .level
  | "vertex-ext" => some .vertexInput
  | "fragment-ext" => some .fragmentInput
  | "vertex-out-ext" => some .vertexOutput
  | "fragment-out-ext" => some .fragmentOutput
  | _ => none

def Flag.ofShort? : Char → Option Flag
  | 'i' => some .input
  | 'o' => some .output
  | _ => none

/-- A 32 bit number with an optional sign; a minus is only fine before zero. -/
def limit? : List Char → Option Nat
  | '-' :: cs => if isDigits cs && digitsValue cs == 0 then some 0 else none
  | cs => word32? cs

/-- The least severe level that is printed; none when nothing is. -/
abbrev Filter := Option Level

def filter? (name : String) : Option Filter :=
  match (name.map Char.toLower) with
  | "off" => some none
  | "error" => some (some .error)
  | "warn" => some (some .warn)
  | "info" => some (some .info)
  | "debug" => some (some .debug)
  | "trace" => some (some .trace)
  | _ => none

def passes (f : Filter) (level : Level) : Bool := f.any fun most => level.rank ≤ most.rank

/-- The value can be read as what the option needs. -/
def Flag.accepts (flag : Flag) (value : String) : Bool :=
  match flag with
  | .limit => (limit? value.toList).isSome
  | .level => (filter? value).isSome
  | _ => true

/-- One argument on its own. -/
inductive Argument where
  /-- An option, with its value when that is in the same argument. -/
  | option (flag : Flag) (value : Option String)
  /-- A request for help or the version. -/
  | information
  /-- The end of the options. -/
  | escape
  | unknown
  deriving DecidableEq, Repr

/-- An argument after two dashes. -/
def longArgument (cs : List Char) : Argument :=
  let name := String.ofList (cs.takeWhile (· != '='))
  let value :=
    match cs.dropWhile (· != '=') with
    | [] => none
    | _ :: v => some (String.ofList v)
  if name = "help" || name = "version" then if value.isNone then .information else .unknown
  else
    match Flag.ofLong? name with
    | some flag => .option flag value
    | none => .unknown

/-- An argument after one dash; a value may follow the letter directly or after an equals sign. -/
def shortArgument (c : Char) (cs : List Char) : Argument :=
  if c = 'h' || c = 'V' then .information
  else
    match Flag.ofShort? c, cs with
    | none, _ => .unknown
    | some flag, [] => .option flag none
    | some flag, '=' :: v => .option flag (some (String.ofList v))
    | some flag, v => .option flag (some (String.ofList v))

def Argument.read (arg : String) : Argument :=
  match arg.toList with
  | ['-', '-'] => .escape
  | '-' :: '-' :: cs => longArgument cs
  | '-' :: c :: cs => shortArgument c cs
  | _ => .unknown

/-- The argument can be the value of the option before it. -/
def isValue (arg : String) : Bool :=
  match arg.toList with
  | '-' :: _ :: _ => false
  | _ => true

/-- What the arguments ask for. -/
structure Request where
  input : String
  output : String
  options : Options
  filter : Filter
  deriving DecidableEq, Repr

inductive Invocation where
  | run (r : Request)
  | information
  | usageError
  deriving DecidableEq, Repr

abbrev Values := List (Flag × String)

/-- The request of the values; both folders are needed. -/
def Values.request? (vs : Values) : Option Request :=
  match vs.lookup .input, vs.lookup .output with
  | some input, some output =>
    let standard : Options := {}
    some
      { input := input
        output := output
        options :=
          { standard with
            pushConstantLimit :=
              ((vs.lookup .limit).bind fun v => limit? v.toList).getD standard.pushConstantLimit
            vertexInput := (vs.lookup .vertexInput).getD standard.vertexInput
            fragmentInput := (vs.lookup .fragmentInput).getD standard.fragmentInput
            vertexOutput := (vs.lookup .vertexOutput).getD standard.vertexOutput
            fragmentOutput := (vs.lookup .fragmentOutput).getD standard.fragmentOutput }
        filter := ((vs.lookup .level).bind filter?).getD (some .warn) }
  | _, _ => none

/-- The values with one more; an option is given once and with a value it accepts. -/
def Values.add? (vs : Values) (flag : Flag) (value : String) : Option Values :=
  if (vs.lookup flag).isSome || !flag.accepts value then none else some (vs ++ [(flag, value)])

def Values.invocation (vs : Values) : Invocation :=
  match vs.request? with
  | some r => .run r
  | none => .usageError

/-- Reads the arguments from left to right; `waiting` is an option whose value comes next. -/
def readFrom (vs : Values) (waiting : Option Flag) : List String → Invocation
  | [] => if waiting.isSome then .usageError else vs.invocation
  | arg :: args =>
    match waiting with
    | some flag =>
      if isValue arg then
        match vs.add? flag arg with
        | some vs => readFrom vs none args
        | none => .usageError
      else .usageError
    | none =>
      match Argument.read arg with
      | .option flag none => readFrom vs (some flag) args
      | .option flag (some value) =>
        match vs.add? flag value with
        | some vs => readFrom vs none args
        | none => .usageError
      | .information => .information
      | .escape => if args.isEmpty then vs.invocation else .usageError
      | .unknown => .usageError

def invocation (args : List String) : Invocation := readFrom [] none args

/-- A short description of the options. -/
def usage : String :=
  "Usage: -i <FOLDER> -o <FOLDER> [--push-constant-limit <BYTES>] [--log-level <LEVEL>]\n" ++
  "       [--vertex-ext <EXT>] [--fragment-ext <EXT>] [--vertex-out-ext <EXT>]\n" ++
  "       [--fragment-out-ext <EXT>]"

structure Outcome where
  exitCode : Nat
  summary : Option String
  log : List (Level × String)
  deriving DecidableEq, Repr

def summaryLine (s : Summary) : String :=
  "Converted " ++ toString s.converted ++ " shader pairs with " ++ toString s.failed.length ++
    " failures"

/-- The exit code of a folder that is not converted. -/
def failureCode : FolderError → Nat
  | .invalidPattern => 1
  | .nameWithoutSources _ => 101

/-- Runs the program on the files of a store. -/
def run (store : Store) (args : List String) : Outcome × Store :=
  match invocation args with
  | .usageError => (⟨2, none, []⟩, store)
  | .information => (⟨0, none, []⟩, store)
  | .run r =>
    match convertFolder store ⟨r.input⟩ ⟨r.output⟩ r.options with
    | .error e => (⟨failureCode e, none, []⟩, store)
    | .ok p =>
      let shown := p.events.filter fun e => passes r.filter e.level
      (⟨if p.summary.failed.isEmpty then 0 else 1, some (summaryLine p.summary),
        shown.map fun e => (e.level, e.text)⟩, p.store)

end ShaderUplift.CommandLine
