import Mathlib.Data.List.Chain
import ShaderUplift.Source.Comments
import ShaderUplift.Source.EntryPoint

/-! A normalized source opens no comment, and neither does the body of its entry point, which is a
part of it. -/

namespace ShaderUplift.Source

open Text

/-- No two neighbours open a comment. -/
def CommentFree (cs : List Char) : Prop :=
  cs.IsChain fun c d => ¬(c = '/' ∧ (d = '/' ∨ d = '*'))

instance (cs : List Char) : Decidable (CommentFree cs) :=
  inferInstanceAs (Decidable (List.IsChain _ cs))

theorem opensComment_eq_none_iff {c d : Char} {cs : List Char} :
    opensComment (c :: d :: cs) = none ↔ ¬(c = '/' ∧ (d = '/' ∨ d = '*')) := by
  unfold opensComment
  split
  · next heq => cases heq; simp
  · next heq => cases heq; simp
  · next hline hblock =>
    simp only [true_iff]
    rintro ⟨rfl, rfl | rfl⟩
    · exact hline cs rfl
    · exact hblock cs rfl

theorem cutComment_cons {c : Char} {cs : List Char} (h : opensComment (c :: cs) = none) :
    cutComment (c :: cs) = (cutComment cs).map fun (before, rest) => (c :: before, rest) := by
  rw [cutComment, h]

/-- The text before the first comment opens none, and neither does a text without one. -/
theorem commentFree_of_cutComment (cs : List Char) :
    (cutComment cs = none → CommentFree cs) ∧
      ∀ before rest, cutComment cs = some (before, rest) → CommentFree before := by
  induction cs with
  | nil => exact ⟨fun _ => List.IsChain.nil, fun _ _ h => by cases h⟩
  | cons c cs ih =>
      cases hopen : opensComment (c :: cs) with
      | some kind =>
          rw [cutComment, hopen]
          refine ⟨fun h => (by cases h), fun before rest h => ?_⟩
          cases h
          exact List.IsChain.nil
      | none =>
          rw [cutComment_cons hopen]
          have hpair : ∀ d ∈ cs.head?, ¬(c = '/' ∧ (d = '/' ∨ d = '*')) := by
            intro d hd
            obtain ⟨rest, rfl⟩ := List.head?_eq_some_iff.mp hd
            exact opensComment_eq_none_iff.mp hopen
          refine ⟨fun h => ?_, fun before rest h => ?_⟩
          · have hcs := ih.1 (Option.map_eq_none_iff.mp h)
            exact List.isChain_cons.mpr ⟨hpair, hcs⟩
          · obtain ⟨⟨b, r⟩, hcut, heq⟩ := Option.map_eq_some_iff.mp h
            cases heq
            refine List.isChain_cons.mpr ⟨?_, ih.2 _ _ hcut⟩
            intro d hd
            cases cs with
            | nil => cases hcut
            | cons e es =>
                refine hpair d ?_
                rw [cutComment] at hcut
                split at hcut
                · cases hcut
                  cases hd
                · obtain ⟨⟨b', r'⟩, -, heq⟩ := Option.map_eq_some_iff.mp hcut
                  cases heq
                  exact hd

/-- A character that opens no comment stays at the head of the text. -/
theorem head?_stripComments {c : Char} {cs : List Char} (h : opensComment (c :: cs) = none) :
    (stripComments (c :: cs)).head? = some c := by
  have hcut := cutComment_cons h
  rw [stripComments]
  split
  · rfl
  · next heq =>
    rw [hcut] at heq
    obtain ⟨⟨b, r⟩, -, heq⟩ := Option.map_eq_some_iff.mp heq
    cases heq
    rfl
  · next heq =>
    rw [hcut] at heq
    obtain ⟨⟨b, r⟩, -, heq⟩ := Option.map_eq_some_iff.mp heq
    cases heq
    rfl

/-- After a line comment the text goes on with a newline or not at all. -/
theorem head?_stripComments_dropWhile (cs : List Char) :
    ∀ d ∈ (stripComments (cs.dropWhile (· ≠ '\n'))).head?, d = '\n' := by
  intro d hd
  cases hrest : cs.dropWhile (· ≠ '\n') with
  | nil =>
      rw [hrest, stripComments] at hd
      cases hd
  | cons c rest =>
      have hc : c = '\n' := by
        have hhead := List.head?_dropWhile_not (fun c : Char => decide (c ≠ '\n')) cs
        rw [hrest] at hhead
        simpa using hhead
      subst hc
      have hopen : opensComment ('\n' :: rest) = none := by
        cases rest with
        | nil => rfl
        | cons e rest => exact opensComment_eq_none_iff.mpr (by simp)
      rw [hrest, head?_stripComments hopen] at hd
      exact (Option.some.inj hd).symm

theorem commentFree_append {xs ys : List Char} (hxs : CommentFree xs) (hys : CommentFree ys)
    (hjoin : ∀ c ∈ xs.getLast?, ∀ d ∈ ys.head?, ¬(c = '/' ∧ (d = '/' ∨ d = '*'))) :
    CommentFree (xs ++ ys) :=
  List.isChain_append.mpr ⟨hxs, hys, hjoin⟩

theorem commentFree_of_forall_ne {cs : List Char} (h : ∀ c ∈ cs, c ≠ '/') : CommentFree cs := by
  induction cs with
  | nil => exact List.IsChain.nil
  | cons c cs ih =>
      refine List.isChain_cons.mpr ⟨fun d _ hcd => ?_, ih fun e he => h e (List.mem_cons_of_mem c he)⟩
      exact h c List.mem_cons_self hcd.1

/-- Comments are taken out completely. -/
theorem commentFree_stripComments (cs : List Char) : CommentFree (stripComments cs) := by
  fun_induction stripComments cs with
  | case1 cs hcut => exact (commentFree_of_cutComment cs).1 hcut
  | case2 cs before rest hcut ih =>
      refine commentFree_append ((commentFree_of_cutComment cs).2 _ _ hcut) ih ?_
      have hhead := head?_stripComments_dropWhile rest
      rintro c - d hd ⟨-, rfl | rfl⟩
      · exact absurd (hhead _ hd) (by decide)
      · exact absurd (hhead _ hd) (by decide)
  | case3 cs before rest hcut ih =>
      have hlines : ∀ c ∈ ' ' :: (cutBlock rest).1.filter (· = '\n'), c ≠ '/' := by
        intro c hc
        rcases List.mem_cons.mp hc with rfl | hc
        · decide
        · have hline := (List.mem_filter.mp hc).2
          rintro rfl
          exact absurd hline (by decide)
      refine commentFree_append ((commentFree_of_cutComment cs).2 _ _ hcut) ?_ ?_
      · rw [← List.cons_append]
        refine commentFree_append (commentFree_of_forall_ne hlines) ih ?_
        rintro c hc d - ⟨rfl, -⟩
        exact hlines _ (List.mem_of_getLast? hc) rfl
      · rintro c - d hd ⟨-, rfl | rfl⟩ <;> simp at hd

theorem after?_eq_some {lead cs rest : List Char} (h : after? lead cs = some rest) :
    rest <:+ cs := by
  unfold after? at h
  split at h
  · cases h
    exact List.drop_suffix _ _
  · cases h

theorem trimStart_suffix (cs : List Char) : trimStart cs <:+ cs := List.dropWhile_suffix _

theorem skipVoid_suffix (cs : List Char) : skipVoid cs <:+ cs := by
  unfold skipVoid
  split
  · next rest hrest =>
    split
    · exact List.suffix_refl _
    · exact (trimStart_suffix _).trans (after?_eq_some hrest)
  · exact List.suffix_refl _

theorem isSuffix_of_afterSignature {cs rest : List Char} (h : afterSignature cs = some rest) :
    rest <:+ cs := by
  obtain ⟨inside, hopen, h⟩ := Option.bind_eq_some_iff.mp h
  obtain ⟨closed, hclose, h⟩ := Option.bind_eq_some_iff.mp h
  have hinside := (after?_eq_some hopen).trans (trimStart_suffix _)
  have hclosed := ((after?_eq_some hclose).trans (skipVoid_suffix _)).trans
    ((trimStart_suffix _).trans hinside)
  exact ((after?_eq_some h).trans (trimStart_suffix _)).trans hclosed

theorem isPrefix_of_balanced {depth : Nat} {cs body : List Char} (h : balanced depth cs = some body) :
    body <+: cs := by
  fun_induction balanced depth cs generalizing body with
  | case1 => cases h
  | case3 => cases h; exact List.nil_prefix
  | case2 depth cs ih | case4 depth cs ih | case5 depth c cs _ _ _ ih =>
      obtain ⟨rest, hrest, rfl⟩ := Option.map_eq_some_iff.mp h
      exact List.cons_prefix_cons.mpr ⟨rfl, ih hrest⟩

theorem isInfix_of_bodyAt {before cs body : List Char} (h : bodyAt before cs = some body) :
    body <:+: cs := by
  obtain ⟨rest, hname, h⟩ := Option.bind_eq_some_iff.mp h
  split at h
  · obtain ⟨inside, hsignature, h⟩ := Option.bind_eq_some_iff.mp h
    have hinside := (isSuffix_of_afterSignature hsignature).trans (after?_eq_some hname)
    exact (isPrefix_of_balanced h).isInfix.trans hinside.isInfix
  · cases h

theorem isInfix_of_findBody {before cs body : List Char} (h : findBody before cs = some body) :
    body <:+: cs := by
  induction cs generalizing before with
  | nil => cases h
  | cons c cs ih =>
      rw [findBody] at h
      split at h
      · next hat =>
        cases h
        exact isInfix_of_bodyAt hat
      · exact (ih h).trans (List.suffix_cons c cs).isInfix

theorem commentFree_normalize (source : String) : CommentFree (normalize source).toList := by
  rw [normalize, String.toList_ofList]
  exact commentFree_stripComments _

theorem commentFree_entryBody {source text : String}
    (h : entryBody? (normalize source) = some text) : CommentFree text.toList := by
  obtain ⟨body, hbody, rfl⟩ := Option.map_eq_some_iff.mp h
  rw [String.toList_ofList]
  exact List.IsChain.infix (commentFree_normalize source) (isInfix_of_findBody hbody)

end ShaderUplift.Source
