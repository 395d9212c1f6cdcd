import Mathlib.Data.List.Basic
import ShaderUplift.Proofs.Source.EntryPosition

/-! Balanced braces. The body of an entry point ends at the brace that closes it, so it is a balanced
text, and whether a text is balanced depends on its braces only. Behind the signature of an entry
point a text is found again exactly when it is balanced: otherwise its braces close too early, or
the search goes on to a body inside of it. -/

namespace ShaderUplift.Source

open Text

/-- The text closes `depth` braces more than it opens, and no part at its start closes more. -/
structure BalancedFrom (depth : Nat) (cs : List Char) : Prop where
  close : cs.count '\x7d' = depth + cs.count '\x7b'
  within : ∀ front, front <+: cs → front.count '\x7d' ≤ depth + front.count '\x7b'

/-- Every brace that is closed is opened before, and every one that is opened is closed. -/
def Balanced (cs : List Char) : Prop := BalancedFrom 0 cs

def isBrace (c : Char) : Bool := c == '\x7b' || c == '\x7d'

/-- The braces of a text. -/
def braces (cs : List Char) : List Char := cs.filter isBrace

theorem forall_prefix_cons {P : List Char → Prop} {c : Char} {cs : List Char} :
    (∀ start, start <+: c :: cs → P start) ↔ P [] ∧ ∀ start, start <+: cs → P (c :: start) := by
  constructor
  · intro h
    refine ⟨h [] List.nil_prefix, fun start hstart => ?_⟩
    exact h (c :: start) (List.cons_prefix_cons.mpr ⟨rfl, hstart⟩)
  · rintro ⟨hnil, hcons⟩ start hstart
    rcases List.prefix_cons_iff.mp hstart with rfl | ⟨rest, rfl, hrest⟩
    · exact hnil
    · exact hcons rest hrest

namespace BalancedFrom

variable {depth : Nat} {c : Char} {cs : List Char}

theorem nil_iff : BalancedFrom depth [] ↔ depth = 0 := by
  constructor
  · intro h
    have hclose := h.close
    simp only [List.count_nil] at hclose
    omega
  · rintro rfl
    refine ⟨rfl, fun front hfront => ?_⟩
    rw [List.prefix_nil.mp hfront]
    exact Nat.le_refl _

/-- A first character is counted with everything that starts with it. -/
theorem cons_iff :
    BalancedFrom depth (c :: cs) ↔
      (cs.count '\x7d' + (if c = '\x7d' then 1 else 0) =
        depth + (cs.count '\x7b' + if c = '\x7b' then 1 else 0)) ∧
      ∀ front, front <+: cs → front.count '\x7d' + (if c = '\x7d' then 1 else 0) ≤
        depth + (front.count '\x7b' + if c = '\x7b' then 1 else 0) := by
  have hcount : ∀ d (ds : List Char), (c :: ds).count d = ds.count d + if c = d then 1 else 0 := by
    intro d ds
    simp [List.count_cons]
  constructor
  · intro h
    refine ⟨by simpa only [hcount] using h.close, fun front hfront => ?_⟩
    have hwithin := (forall_prefix_cons.mp h.within).2 front hfront
    simpa only [hcount] using hwithin
  · rintro ⟨hclose, hwithin⟩
    refine ⟨by simpa only [hcount] using hclose, forall_prefix_cons.mpr ⟨Nat.zero_le _, ?_⟩⟩
    intro front hfront
    simpa only [hcount] using hwithin front hfront

theorem open_iff : BalancedFrom depth ('\x7b' :: cs) ↔ BalancedFrom (depth + 1) cs := by
  rw [cons_iff]
  constructor
  · rintro ⟨hclose, hwithin⟩
    refine ⟨by simpa [Nat.add_assoc, Nat.add_comm 1] using hclose, fun front hfront => ?_⟩
    simpa [Nat.add_assoc, Nat.add_comm 1] using hwithin front hfront
  · rintro ⟨hclose, hwithin⟩
    refine ⟨by simpa [Nat.add_assoc, Nat.add_comm 1] using hclose, fun front hfront => ?_⟩
    simpa [Nat.add_assoc, Nat.add_comm 1] using hwithin front hfront

theorem close_iff :
    BalancedFrom depth ('\x7d' :: cs) ↔ 0 < depth ∧ BalancedFrom (depth - 1) cs := by
  rw [cons_iff]
  simp only [if_true, Char.reduceEq, if_false, Nat.add_zero]
  constructor
  · rintro ⟨hclose, hwithin⟩
    have hdepth : 0 < depth := by
      have hempty := hwithin [] List.nil_prefix
      simp only [List.count_nil] at hempty
      omega
    refine ⟨hdepth, by omega, fun front hfront => ?_⟩
    have := hwithin front hfront
    omega
  · rintro ⟨hdepth, hclose, hwithin⟩
    refine ⟨by omega, fun front hfront => ?_⟩
    have := hwithin front hfront
    omega

theorem other_iff (h : isBrace c = false) :
    BalancedFrom depth (c :: cs) ↔ BalancedFrom depth cs := by
  simp only [isBrace, Bool.or_eq_false_iff, beq_eq_false_iff_ne] at h
  rw [cons_iff, if_neg h.1, if_neg h.2]
  exact ⟨fun hcs => ⟨hcs.1, hcs.2⟩, fun hcs => ⟨hcs.close, hcs.within⟩⟩

end BalancedFrom

/-- Whether a text is balanced depends on its braces only. -/
theorem balancedFrom_braces {depth : Nat} {cs : List Char} :
    BalancedFrom depth (braces cs) ↔ BalancedFrom depth cs := by
  induction cs generalizing depth with
  | nil => exact Iff.rfl
  | cons c cs ih =>
      by_cases hopen : c = '\x7b'
      · subst hopen
        rw [braces, List.filter_cons_of_pos rfl, BalancedFrom.open_iff, BalancedFrom.open_iff]
        exact ih
      by_cases hclose : c = '\x7d'
      · subst hclose
        rw [braces, List.filter_cons_of_pos rfl, BalancedFrom.close_iff, BalancedFrom.close_iff]
        exact and_congr_right fun _ => ih
      · have hother : isBrace c = false := by simp [isBrace, hopen, hclose]
        rw [braces, List.filter_cons_of_neg (by simp [hother]), BalancedFrom.other_iff hother]
        exact ih

theorem balanced_congr {xs ys : List Char} (h : braces xs = braces ys) :
    Balanced xs ↔ Balanced ys := by
  rw [Balanced, Balanced, ← balancedFrom_braces, h, balancedFrom_braces]

/-- One character more before a text that is read up to its closing brace. -/
theorem map_cons_eq_some_iff {depth depth' : Nat} {c : Char} {cs body : List Char}
    {read : Option (List Char)} (hcons : ∀ inner,
      BalancedFrom depth (c :: inner) ↔ BalancedFrom depth' inner)
    (hnil : c = '\x7d' → depth ≠ 0) (ih : ∀ inner, read = some inner ↔
      BalancedFrom depth' inner ∧ ∃ rest, cs = inner ++ '\x7d' :: rest) :
    read.map (c :: ·) = some body ↔
      BalancedFrom depth body ∧ ∃ rest, c :: cs = body ++ '\x7d' :: rest := by
  rw [Option.map_eq_some_iff]
  constructor
  · rintro ⟨inner, hinner, rfl⟩
    obtain ⟨hbalanced, rest, rfl⟩ := (ih inner).mp hinner
    exact ⟨(hcons inner).mpr hbalanced, rest, rfl⟩
  · rintro ⟨hbalanced, rest, heq⟩
    cases body with
    | nil =>
        cases heq
        exact absurd (BalancedFrom.nil_iff.mp hbalanced) (hnil rfl)
    | cons d inner =>
        cases heq
        exact ⟨inner, (ih inner).mpr ⟨(hcons inner).mp hbalanced, rest, rfl⟩, rfl⟩

/-- What is read up to the closing brace is the balanced text that a closing brace follows. -/
theorem balanced_eq_some_iff {depth : Nat} {cs body : List Char} :
    balanced depth cs = some body ↔
      BalancedFrom depth body ∧ ∃ rest, cs = body ++ '\x7d' :: rest := by
  fun_induction balanced depth cs generalizing body with
  | case1 depth => simp
  | case2 depth cs ih =>
      exact map_cons_eq_some_iff (fun _ => BalancedFrom.open_iff) (fun h => absurd h (by decide))
        fun _ => ih
  | case3 cs =>
      constructor
      · rintro ⟨⟩
        exact ⟨BalancedFrom.nil_iff.mpr rfl, cs, rfl⟩
      · rintro ⟨hbalanced, rest, heq⟩
        cases body with
        | nil => rfl
        | cons c inner =>
            cases heq
            exact absurd (BalancedFrom.close_iff.mp hbalanced).1 (Nat.lt_irrefl 0)
  | case4 depth cs ih =>
      refine map_cons_eq_some_iff (fun inner => ?_) (fun _ => Nat.succ_ne_zero depth) fun _ => ih
      rw [BalancedFrom.close_iff]
      exact and_iff_right (Nat.succ_pos depth)
  | case5 depth c cs hopen hclose hclose' ih =>
      have hne : c ≠ '\x7d' := by
        cases depth with
        | zero => exact hclose rfl
        | succ depth => exact hclose' depth rfl
      have hother : isBrace c = false :=
        Bool.or_eq_false_iff.mpr ⟨beq_eq_false_iff_ne.mpr hopen, beq_eq_false_iff_ne.mpr hne⟩
      exact map_cons_eq_some_iff (fun _ => BalancedFrom.other_iff hother)
        (fun h => absurd h hne) fun _ => ih

/-- The end of the text is reached exactly when no part at its start closes all open braces. -/
theorem balanced_eq_none_iff {depth : Nat} {cs : List Char} :
    balanced depth cs = none ↔
      ∀ start, start <+: cs → start.count '\x7d' ≤ depth + start.count '\x7b' := by
  fun_induction balanced depth cs with
  | case1 depth => simp
  | case2 depth cs ih =>
      rw [Option.map_eq_none_iff, ih, forall_prefix_cons]
      simp [Nat.add_assoc, Nat.add_comm 1]
  | case3 cs =>
      rw [forall_prefix_cons]
      refine ⟨fun h => (by cases h), fun h => ?_⟩
      have hclose := h.2 [] List.nil_prefix
      simp at hclose
  | case4 depth cs ih =>
      rw [Option.map_eq_none_iff, ih, forall_prefix_cons]
      simp [Nat.add_right_comm]
  | case5 depth c cs hopen hclose hclose' ih =>
      have hne : c ≠ '\x7d' := by
        cases depth with
        | zero => exact hclose rfl
        | succ depth => exact hclose' depth rfl
      rw [Option.map_eq_none_iff, ih, forall_prefix_cons]
      simp [List.count_cons_of_ne hopen, List.count_cons_of_ne hne]

/-- A body that is found stands behind a name and a signature. -/
theorem exists_signature_of_findBody {before cs body : List Char}
    (h : findBody before cs = some body) :
    ∃ ds rest inside, ds <:+ cs ∧ after? entryName ds = some rest ∧
      afterSignature rest = some inside ∧ balanced 0 inside = some body := by
  induction cs generalizing before with
  | nil => cases h
  | cons c cs ih =>
      rw [findBody] at h
      split at h
      · next hat =>
        cases h
        obtain ⟨rest, hname, hat⟩ := Option.bind_eq_some_iff.mp hat
        split at hat
        · obtain ⟨inside, hsignature, hat⟩ := Option.bind_eq_some_iff.mp hat
          exact ⟨c :: cs, rest, inside, List.suffix_refl _, hname, hsignature, hat⟩
        · cases hat
      · obtain ⟨ds, rest, inside, hds, hread⟩ := ih h
        exact ⟨ds, rest, inside, hds.trans (List.suffix_cons c cs), hread⟩

/-- What is found as the body of an entry point is balanced. -/
theorem balanced_of_findBody {before cs body : List Char} (h : findBody before cs = some body) :
    Balanced body := by
  obtain ⟨_, _, _, -, -, -, hbody⟩ := exists_signature_of_findBody h
  exact (balanced_eq_some_iff.mp hbody).1

theorem findBody_cons_of_ne {c : Char} (h : c ≠ 'm') (before cs : List Char) :
    findBody before (c :: cs) = findBody (c :: before) cs := by
  have hname : after? entryName (c :: cs) = none := by
    rw [entryName, after?_cons_cons, if_neg h.symm]
  rw [findBody, bodyAt, hname]
  rfl

theorem length_of_after? {lead cs rest : List Char} (h : after? lead cs = some rest) :
    cs.length = lead.length + rest.length := by
  rw [eq_append_of_after? h, List.length_append]

theorem length_of_afterSignature {cs rest : List Char} (h : afterSignature cs = some rest) :
    rest.length + 3 ≤ cs.length := by
  obtain ⟨inside, hopen, h⟩ := Option.bind_eq_some_iff.mp h
  obtain ⟨closed, hclose, h⟩ := Option.bind_eq_some_iff.mp h
  have hstart := (trimStart_suffix cs).length_le
  have hinside := ((skipVoid_suffix _).trans (trimStart_suffix inside)).length_le
  have hclosed := (trimStart_suffix closed).length_le
  rw [length_of_after? hopen] at hstart
  rw [length_of_after? hclose] at hinside
  rw [length_of_after? h] at hclosed
  simp only [List.length_singleton] at hstart hinside hclosed
  omega

/-- A body is shorter than the text it is found in: the name of the entry point and the brackets and
braces around the body are not part of it. -/
theorem length_of_findBody {before cs body : List Char} (h : findBody before cs = some body) :
    body.length + 8 ≤ cs.length := by
  obtain ⟨ds, rest, inside, hds, hname, hsignature, hbody⟩ := exists_signature_of_findBody h
  obtain ⟨-, after, rfl⟩ := balanced_eq_some_iff.mp hbody
  have hlength := length_of_afterSignature hsignature
  have hwhole := hds.length_le
  rw [length_of_after? hname] at hwhole
  simp only [List.length_append, List.length_cons] at hlength
  simp only [entryName, List.length_cons, List.length_nil] at hwhole
  omega

/-- The body of an entry point with its signature and braces. -/
def entryPointChars (body : List Char) : List Char :=
  voidWord ++ ' ' :: entryName ++ ['(', ')', '\n', '\x7b'] ++ body ++ ['\x7d', '\n']

/-- Behind a signature a text is found again exactly when it is balanced. -/
theorem findBody_entryPointChars {cs : List Char} :
    findBody [] (entryPointChars cs) = some cs ↔ Balanced cs := by
  have hfront : findBody [] (entryPointChars cs) =
      findBody [' ', 'd', 'i', 'o', 'v'] (entryName ++ '(' :: ')' :: '\n' :: '\x7b' ::
        (cs ++ ['\x7d', '\n'])) := by
    have hchars : entryPointChars cs = 'v' :: 'o' :: 'i' :: 'd' :: ' ' ::
        (entryName ++ '(' :: ')' :: '\n' :: '\x7b' :: (cs ++ ['\x7d', '\n'])) := by
      simp [entryPointChars, voidWord]
    rw [hchars]
    iterate 5 rw [findBody_cons_of_ne (by decide)]
  have hat : bodyAt [' ', 'd', 'i', 'o', 'v'] (entryName ++ '(' :: ')' :: '\n' :: '\x7b' ::
      (cs ++ ['\x7d', '\n'])) = balanced 0 (cs ++ ['\x7d', '\n']) := by
    have hsignature : afterSignature ('(' :: ')' :: '\n' :: '\x7b' :: (cs ++ ['\x7d', '\n'])) =
        some (cs ++ ['\x7d', '\n']) := by
      simp [afterSignature, skipVoid, after?, voidWord, trimStart, isBlank]
    have hvoid : endsInVoid [' ', 'd', 'i', 'o', 'v'] = true := by decide
    simp [bodyAt, after?, hvoid, hsignature, startsWith, isWordChar]
  rw [hfront, entryName, List.cons_append, findBody, ← List.cons_append, ← entryName, hat]
  constructor
  · intro h
    split at h
    · next hbody =>
      cases h
      exact (balanced_eq_some_iff.mp hbody).1
    · simp only [List.cons_append, List.nil_append] at h
      iterate 7 rw [findBody_cons_of_ne (by decide)] at h
      have hlength := length_of_findBody h
      simp only [List.length_append, List.length_cons, List.length_nil] at hlength
      omega
  · intro h
    rw [balanced_eq_some_iff.mpr ⟨h, ['\n'], rfl⟩]

end ShaderUplift.Source
