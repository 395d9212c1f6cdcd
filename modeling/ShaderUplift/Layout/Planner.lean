import ShaderUplift.Error
import ShaderUplift.Layout.Basic

/-! Offsets for the uniforms of a pair. Stages are planned one after the other: larger types of a
stage come first, a uniform that an earlier stage placed keeps its place, and each stage ends at a
multiple of the alignment. A stage that fails keeps the fields placed before the failure. -/

namespace ShaderUplift

open Text

abbrev TypedUniform := Declaration × ValueType

def typed (d : Declaration) : Except ConversionError TypedUniform :=
  match ValueType.ofName? d.type with
  | some t => .ok (d, t)
  | none => .error (.unknownType d.name d.type)

/-- The uniforms of a stage with their value types, in declaration order. -/
def typedUniforms (symbols : Symbols) : Except ConversionError (List TypedUniform) :=
  symbols.uniforms.entries.mapM typed

/-- Adds the size of a uniform to a total. -/
def addSize (total : Nat) (u : TypedUniform) : Except ConversionError Nat :=
  match (u.2.arraySize? u.1.arrayLength).bind (checkedAdd total) with
  | some n => .ok n
  | none => .error (.blockTooLarge u.1.name)

/-- The size of all uniforms of a stage, without padding. -/
def usedBytes (symbols : Symbols) : Except ConversionError Nat :=
  (typedUniforms symbols).bind fun us => us.foldlM addSize 0

structure Planner where
  strategy : Strategy
  /-- The binding of the uniform buffer, when there is one. -/
  buffer : Option Binding
  /-- The end of what is planned so far, which is the size of the block. -/
  offset : Nat
  /-- All placed fields in order of their offsets. -/
  fields : List Field
  /-- The members that uniform buffers of earlier stages declare. -/
  carried : String
  deriving DecidableEq, Repr

namespace Planner

/-- The last name of a list, for an error about their sum. -/
def lastName (names : List String) : String := names.getLast?.getD ""

/-- The size of the uniforms of both stages together. -/
def totalBytes (vertex fragment : Symbols) : Except ConversionError Nat :=
  (usedBytes vertex).bind fun v =>
    (usedBytes fragment).bind fun f =>
      match checkedAdd v f with
      | some n => .ok n
      | none => .error (.blockTooLarge (lastName fragment.uniforms.names))

/-- A planner for the stages of a pair. A uniform buffer takes its binding at once, before any
sampler. -/
def new (vertex fragment : Symbols) (limit : Nat) (descriptors : Descriptors) :
    Except ConversionError (Planner × Descriptors) :=
  (totalBytes vertex fragment).map fun total =>
    let strategy := Strategy.choose total limit
    if strategy = .uniformBuffer ∧ 0 < total then
      let (binding, descriptors) := descriptors.allocate
      (⟨strategy, some binding, 0, [], ""⟩, descriptors)
    else (⟨strategy, none, 0, [], ""⟩, descriptors)

/-- Asks for a planner where the descriptors are shared: whatever is taken from them before a failure
stays taken. -/
def request (vertex fragment : Symbols) (limit : Nat) :
    ExceptT ConversionError (StateM Descriptors) Planner := do
  let total ← ofExcept (totalBytes vertex fragment)
  let strategy := Strategy.choose total limit
  let buffer ←
    if strategy = .uniformBuffer ∧ 0 < total then some <$> modifyGet Descriptors.allocate
    else pure none
  return ⟨strategy, buffer, 0, [], ""⟩

/-- The planner is the one that is made with descriptors of its own, and a failure takes nothing. -/
theorem run_request (vertex fragment : Symbols) (limit : Nat) (descriptors : Descriptors) :
    (request vertex fragment limit).run.run descriptors =
      match new vertex fragment limit descriptors with
      | .ok (p, after) => (.ok p, after)
      | .error e => (.error e, descriptors) := by
  rw [request, new]
  cases htotal : totalBytes vertex fragment with
  | error e => rfl
  | ok total =>
      have hpure : (ofExcept (Except.ok total) : ExceptT ConversionError (StateM Descriptors) Nat) =
          pure total := rfl
      rw [hpure, pure_bind]
      by_cases hbuffer : Strategy.choose total limit = .uniformBuffer ∧ 0 < total
      · simp only [Except.map, if_pos hbuffer]
        rfl
      · simp only [Except.map, if_neg hbuffer]
        rfl

/-- The uniforms with larger types first; those of one type keep their order. -/
def byRank (us : List TypedUniform) : List TypedUniform :=
  us.mergeSort fun a b => b.2.rank ≤ a.2.rank

def byOffset (fs : List Field) : List Field := fs.mergeSort fun a b => a.offset ≤ b.offset

/-- What placing the uniforms of a stage gives: the field of each, and those that are new. -/
structure Placement where
  fields : List Field
  added : List Field
  deriving DecidableEq, Repr

/-- The field of a uniform that is placed already agrees with its declaration. -/
def agrees (f : Field) (u : TypedUniform) : Bool :=
  f.type = u.2 && f.arrayLength = u.1.arrayLength

def conflict (f : Field) (u : TypedUniform) : ConversionError :=
  .conflictingUniform u.1.name f.declared (u.2.name ++ " " ++ u.1.arrayed)

def fieldFor (p : Planner) (u : TypedUniform) : Field :=
  ⟨u.1.name, u.2, u.1.arrayLength, p.offset⟩

def place (p : Planner) : List TypedUniform → Planner × Except ConversionError Placement
  | [] => (p, .ok ⟨[], []⟩)
  | u :: us =>
    match p.fields.find? fun f => f.name == u.1.name with
    | some f =>
      if agrees f u then
        let (q, result) := p.place us
        (q, result.map fun r => { r with fields := f :: r.fields })
      else (p, .error (conflict f u))
    | none =>
      let f := p.fieldFor u
      match f.stop? with
      | some stop =>
        let (q, result) := { p with offset := stop, fields := p.fields ++ [f] }.place us
        (q, result.map fun r => ⟨f :: r.fields, f :: r.added⟩)
      | none => (p, .error (.blockTooLarge u.1.name))

/-- The block that a stage with these fields declares. A buffer declares the members of all stages
so far. -/
def block? (p : Planner) (fields : List Field) : Option UniformBlock :=
  match p.strategy, p.buffer with
  | .uniformBuffer, some binding =>
    if p.carried.isEmpty then none else some (.uniformBuffer binding p.carried)
  | _, _ =>
    if fields.isEmpty then none else some (.pushConstant (memberText p.strategy fields))

/-- Ends a stage whose uniforms are placed. -/
def finish (p : Planner) (placement : Placement) : Planner × Except ConversionError StageLayout :=
  let fields := byOffset placement.fields
  if roundUp p.offset < wordBound then
    let added :=
      match p.strategy, p.buffer with
      | .uniformBuffer, some _ => memberText p.strategy placement.added
      | _, _ => ""
    let q := { p with offset := roundUp p.offset, carried := p.carried ++ added }
    (q, .ok ⟨fields, q.block? fields⟩)
  else (p, .error (.blockTooLarge (lastName (fields.map Field.name))))

/-- Plans the uniforms of the next stage. -/
def planStage (p : Planner) (symbols : Symbols) : Planner × Except ConversionError StageLayout :=
  match typedUniforms symbols with
  | .error e => (p, .error e)
  | .ok us =>
    match p.place (byRank us) with
    | (q, .error e) => (q, .error e)
    | (q, .ok placement) => q.finish placement

end Planner

end ShaderUplift
