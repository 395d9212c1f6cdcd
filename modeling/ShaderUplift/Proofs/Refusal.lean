import ShaderUplift.Proofs.Outcome

/-! Computations that may fail, compared with what they require. A requirement is a condition with
the error that reports it; a computation settles a list of requirements when it succeeds exactly if
all of them are met, and fails with the error of the first that is not. Computations that run one
after the other settle their requirements one after the other. -/

namespace ShaderUplift

/-- Nothing when the condition is met, and the error that reports it otherwise. -/
def require {ε : Type} (met : Prop) [Decidable met] (e : ε) : Option ε :=
  if met then none else some e

theorem require_eq_none_iff {ε : Type} {met : Prop} [Decidable met] {e : ε} :
    require met e = none ↔ met := by
  simp [require]

theorem require_eq_some_iff {ε : Type} {met : Prop} [Decidable met] {e e' : ε} :
    require met e = some e' ↔ ¬met ∧ e = e' := by
  simp [require]

theorem require_congr {ε : Type} {met met' : Prop} [Decidable met] [Decidable met'] {e e' : ε}
    (hmet : met ↔ met') (he : ¬met → e = e') : require met e = require met' e' := by
  by_cases h : met
  · rw [require, require, if_pos h, if_pos (hmet.mp h)]
  · rw [require, require, if_neg h, if_neg (hmet.not.mp h), he h]

/-- The error of a computation that fails. -/
def refusal? {ε α : Type} : Except ε α → Option ε
  | .ok _ => none
  | .error e => some e

/-- The computation succeeds when all requirements are met, and fails with the error of the first
that is not. -/
def Settles {ε α : Type} (requirements : List (Option ε)) (x : Except ε α) : Prop :=
  refusal? x = requirements.findSome? id

theorem refusal?_eq_none_iff {ε α : Type} {x : Except ε α} :
    refusal? x = none ↔ ∃ a, x = .ok a := by
  cases x <;> simp [refusal?]

theorem refusal?_eq_some_iff {ε α : Type} {x : Except ε α} {e : ε} :
    refusal? x = some e ↔ x = .error e := by
  cases x <;> simp [refusal?]

namespace Settles

variable {ε α β : Type} {rs : List (Option ε)} {x : Except ε α}

theorem ok_iff (h : Settles rs x) : (∃ a, x = .ok a) ↔ ∀ r ∈ rs, r = none := by
  rw [← refusal?_eq_none_iff, h]
  exact List.findSome?_eq_none_iff

theorem error_iff (h : Settles rs x) {e : ε} :
    x = .error e ↔ ∃ before after, rs = before ++ some e :: after ∧ ∀ r ∈ before, r = none := by
  rw [← refusal?_eq_some_iff, h, List.findSome?_eq_some_iff]
  constructor
  · rintro ⟨before, r, after, heq, rfl, hbefore⟩
    exact ⟨before, after, heq, hbefore⟩
  · rintro ⟨before, after, heq, hbefore⟩
    exact ⟨before, some e, after, heq, rfl, hbefore⟩

theorem bind (h : Settles rs x) {f : α → Except ε β} {rs' : List (Option ε)}
    (hf : ∀ a, x = .ok a → Settles rs' (f a)) : Settles (rs ++ rs') (x.bind f) := by
  rw [Settles, List.findSome?_append, ← h]
  cases x with
  | error e => rfl
  | ok a => exact hf a rfl

theorem map (h : Settles rs x) (f : α → β) : Settles rs (x.map f) := by
  cases x with
  | error e => exact h
  | ok a => exact h

/-- A requirement that is known to be met may be left out. -/
theorem of_append {rs' : List (Option ε)} (h : Settles (rs ++ rs') x)
    (hrs : ∀ r ∈ rs, r = none) : Settles rs' x := by
  have hnone : rs.findSome? id = none := List.findSome?_eq_none_iff.mpr hrs
  rw [Settles, List.findSome?_append, hnone] at h
  exact h

end Settles

theorem settles_singleton {ε α : Type} {r : Option ε} {x : Except ε α} :
    Settles [r] x ↔ refusal? x = r := by
  cases r <;> rfl

/-- A list is mapped with failure element by element. -/
theorem settles_mapM {ε α β : Type} {f : α → Except ε β} {requirement : α → Option ε}
    (h : ∀ a, refusal? (f a) = requirement a) (as : List α) :
    Settles (as.map requirement) (as.mapM f) := by
  induction as with
  | nil => rfl
  | cons a as ih =>
      rw [List.mapM_cons, List.map_cons, ← List.singleton_append]
      exact (settles_singleton.mpr (h a)).bind fun b _ => ih.map (List.cons b)

/-- One requirement for each element, which may look at the elements before it. -/
def eachAfter {α β : Type} (requirement : List α → α → β) (earlier : List α) : List α → List β
  | [] => []
  | a :: as => requirement earlier a :: eachAfter requirement (earlier ++ [a]) as

theorem forall_mem_eachAfter {α β : Type} {requirement : List α → α → β} {P : β → Prop}
    {earlier as : List α}
    (h : ∀ before a after, as = before ++ a :: after → P (requirement (earlier ++ before) a)) :
    ∀ b ∈ eachAfter requirement earlier as, P b := by
  induction as generalizing earlier with
  | nil => nofun
  | cons a as ih =>
      rw [eachAfter, List.forall_mem_cons]
      refine ⟨by simpa using h [] a as rfl, ih ?_⟩
      intro before b after heq
      simpa using h (a :: before) b after (by rw [heq]; rfl)

theorem eachAfter_map {α β γ : Type} {f : α → β} {requirement : List β → β → γ}
    {requirement' : List α → α → γ} (earlier : List α) {as : List α}
    (h : ∀ before a after, as = before ++ a :: after →
      requirement' (earlier ++ before) a = requirement ((earlier ++ before).map f) (f a)) :
    eachAfter requirement (earlier.map f) (as.map f) = eachAfter requirement' earlier as := by
  induction as generalizing earlier with
  | nil => rfl
  | cons a as ih =>
      rw [List.map_cons, eachAfter, eachAfter]
      refine congrArg₂ List.cons ?_ ?_
      · simpa using (h [] a as rfl).symm
      · have hmap : earlier.map f ++ [f a] = (earlier ++ [a]).map f := by simp
        rw [hmap]
        refine ih _ fun before b after heq => ?_
        simpa using h (a :: before) b after (by rw [heq]; rfl)

end ShaderUplift
