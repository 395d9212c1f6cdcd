import ShaderUplift.Declaration.Basic
import ShaderUplift.Error
import ShaderUplift.Notice

/-! Locations and descriptor bindings. The vertex stage numbers its inputs and outputs from zero in
declaration order; a fragment input takes the location of the vertex output of its name. Samplers of
both stages share one count of bindings. -/

namespace ShaderUplift

structure Binding where
  set : Nat
  binding : Nat
  deriving DecidableEq, Repr

/-- The next free binding of a descriptor set. -/
structure Descriptors where
  set : Nat
  next : Nat
  deriving DecidableEq, Repr

def Descriptors.allocate (d : Descriptors) : Binding × Descriptors :=
  (⟨d.set, d.next⟩, { d with next := d.next + 1 })

/-- A declaration with its location or binding. -/
structure Slot (ι : Type) where
  index : ι
  declaration : Declaration
  deriving DecidableEq, Repr

structure Interface where
  /-- Attributes of the vertex stage, varyings of the fragment stage. -/
  inputs : List (Slot Nat)
  /-- Varyings of the vertex stage. -/
  outputs : List (Slot Nat)
  samplers : List (Slot Binding)
  deriving DecidableEq, Repr

/-- The location of a vertex output. -/
structure Location where
  name : String
  index : Nat
  deriving DecidableEq, Repr

instance : Named Location := ⟨Location.name⟩

abbrev Locations := Table Location

def Locations.find? (ls : Locations) (name : String) : Option Nat :=
  (ls.get? name).map Location.index

/-- Slots from zero on, in table order. -/
def numbered (t : Table Declaration) : List (Slot Nat) :=
  t.entries.zipIdx.map fun (d, i) => ⟨i, d⟩

/-- Gives each declaration the next binding. -/
def bindAll (descriptors : Descriptors) :
    List Declaration → List (Slot Binding) × Descriptors
  | [] => ([], descriptors)
  | d :: ds =>
    let (binding, descriptors) := descriptors.allocate
    let (slots, descriptors) := bindAll descriptors ds
    (⟨binding, d⟩ :: slots, descriptors)

/-- The locations with those of the outputs put in. -/
def Locations.record (ls : Locations) (outputs : List (Slot Nat)) : Locations :=
  outputs.foldl (fun t slot => t.insert ⟨slot.declaration.name, slot.index⟩) ls

def vertexInterface (symbols : Symbols) (locations : Locations) (descriptors : Descriptors) :
    Interface × Locations × Descriptors :=
  let outputs := numbered symbols.varyings
  let (samplers, descriptors) := bindAll descriptors symbols.samplers.entries
  (⟨numbered symbols.attributes, outputs, samplers⟩, locations.record outputs, descriptors)

/-- The slot of a fragment input. -/
def matchVarying (locations : Locations) (d : Declaration) : Except ConversionError (Slot Nat) :=
  match locations.find? d.name with
  | some index => .ok ⟨index, d⟩
  | none => .error (.varyingNotWritten d.name)

/-- No binding is taken when a varying has no location. -/
def fragmentInterface (symbols : Symbols) (locations : Locations) (descriptors : Descriptors) :
    Except ConversionError (Interface × Descriptors) :=
  match symbols.varyings.entries.mapM (matchVarying locations) with
  | .error e => .error e
  | .ok inputs =>
    let (samplers, descriptors) := bindAll descriptors symbols.samplers.entries
    .ok (⟨inputs, [], samplers⟩, descriptors)

/-- The remark on attributes of a fragment stage, which have no slot. -/
def fragmentNotices (symbols : Symbols) : List Notice :=
  if symbols.attributes.entries.isEmpty then []
  else [.attributesIgnored symbols.attributes.size]

end ShaderUplift
