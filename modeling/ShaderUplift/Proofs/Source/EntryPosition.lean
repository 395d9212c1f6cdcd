import Mathlib.Data.Option.Defs
import ShaderUplift.Proofs.Scanning
import ShaderUplift.Proofs.Source.CommentFree
import ShaderUplift.Source.EntryPoint

/-! Where the entry point of a source starts, and lines that are put in before it. The search for
the entry point reads a name, the word before it and the signature after it, none of which goes on
over the semicolon of a declaration. So a declaration on a line of its own can neither make a new entry
point nor hide the one after it. -/

namespace ShaderUplift.Source

open Text

/-- The text before the entry point's name, in reverse. -/
def findEntry (before : List Char) : List Char → Option (List Char)
  | [] => none
  | c :: cs => if (bodyAt before (c :: cs)).isSome then some before else findEntry (c :: before) cs

/-- The text before the word `void`, of a text given in reverse that ends in it. -/
def beforeVoid (before : List Char) : List Char :=
  ((trimStart before).drop voidWord.length).reverse

/-- The text before the word `void` of the entry point. -/
def entryFront? (cs : List Char) : Option (List Char) := (findEntry [] cs).map beforeVoid

theorem after?_cons_cons (l c : Char) (lead cs : List Char) :
    after? (l :: lead) (c :: cs) = if l = c then after? lead cs else none := by
  by_cases h : l = c <;> simp [after?, List.isPrefixOf, h]

/-- What is read up to a character that is not part of it does not depend on what follows. -/
theorem after?_append_cons {lead : List Char} {c : Char} (hc : c ∉ lead) (xs ys : List Char) :
    after? lead (xs ++ c :: ys) = (after? lead xs).map (· ++ c :: ys) := by
  induction lead generalizing xs with
  | nil => rfl
  | cons l lead ih =>
      rw [List.mem_cons, not_or] at hc
      cases xs with
      | nil =>
          rw [List.nil_append, after?_cons_cons, if_neg fun h => hc.1 h.symm]
          rfl
      | cons x xs =>
          rw [List.cons_append, after?_cons_cons, after?_cons_cons]
          split
          · exact ih hc.2 xs
          · rfl

theorem eq_append_of_after? {lead cs rest : List Char} (h : after? lead cs = some rest) :
    cs = lead ++ rest := by
  unfold after? at h
  split at h
  · next hlead =>
    cases h
    exact (List.prefix_iff_eq_append.mp (List.isPrefixOf_iff_prefix.mp hlead)).symm
  · cases h

theorem trimStart_append (xs ys : List Char) :
    trimStart (xs ++ ys) = if allBlank xs then trimStart ys else trimStart xs ++ ys := by
  have hnil : (xs.dropWhile isBlank).isEmpty = allBlank xs := by
    rw [Bool.eq_iff_iff, List.isEmpty_iff]
    exact trimStart_eq_nil_iff
  rw [trimStart, List.dropWhile_append, hnil]
  rfl

/-- No signature starts before a semicolon that no bracket opens before. -/
theorem afterSignature_semicolon {xs : List Char} (h : '(' ∉ xs) (ys : List Char) :
    afterSignature (xs ++ ';' :: ys) = none := by
  have hopen : after? ['('] (trimStart xs) = none := by
    cases htrim : trimStart xs with
    | nil => rfl
    | cons c cs =>
        rw [after?_cons_cons, if_neg]
        rintro rfl
        exact h ((trimStart_suffix xs).subset (htrim ▸ List.mem_cons_self))
  rw [afterSignature, trimStart_append]
  cases allBlank xs with
  | true => rfl
  | false =>
      rw [if_neg (by decide), after?_append_cons (by decide), hopen]
      rfl

/-- The word `void` does not go on over the start of a line. -/
theorem endsInVoid_append {before : List Char} (h : StartsLine before) (xs : List Char) :
    endsInVoid (xs ++ before.reverse) =
      if allBlank xs then endsInVoid before.reverse else endsInVoid xs := by
  have hreverse : before.reverse = [] ∨ ∃ ys, before.reverse = '\n' :: ys := by
    refine (startsLine_iff.mp h).imp List.reverse_eq_nil_iff.mpr fun hlast => ?_
    obtain ⟨front, rfl⟩ := List.getLast?_eq_some_iff.mp hlast
    exact ⟨_, List.reverse_concat⟩
  unfold endsInVoid
  rw [trimStart_append]
  cases allBlank xs with
  | true => rfl
  | false =>
      rcases hreverse with hnil | ⟨ys, hcons⟩
      · rw [hnil, List.append_nil]
        rfl
      · rw [hcons, if_neg (by decide), if_neg (by decide), after?_append_cons (by decide)]
        cases after? voidWord.reverse (trimStart xs) with
        | none => rfl
        | some rest => cases rest <;> rfl

/-- Whether a brace is closed depends on the braces only. -/
theorem isSome_balanced_append {xs : List Char} (h : ∀ c ∈ xs, c ≠ '\x7b' ∧ c ≠ '\x7d')
    (depth : Nat) (ys : List Char) :
    (balanced depth (xs ++ ys)).isSome = (balanced depth ys).isSome := by
  induction xs with
  | nil => rfl
  | cons c xs ih =>
      obtain ⟨⟨hopen, hclose⟩, hxs⟩ := List.forall_mem_cons.mp h
      rw [List.cons_append, balanced, Option.isSome_map, ih hxs]
      · exact hopen
      · exact fun _ => hclose
      · exact fun _ _ => hclose

theorem isSome_balanced_congr {ys zs : List Char}
    (h : ∀ depth, (balanced depth ys).isSome = (balanced depth zs).isSome) (xs : List Char)
    (depth : Nat) : (balanced depth (xs ++ ys)).isSome = (balanced depth (xs ++ zs)).isSome := by
  induction xs generalizing depth with
  | nil => exact h depth
  | cons c xs ih =>
      by_cases hopen : c = '\x7b'
      · subst hopen
        simp [balanced, ih]
      by_cases hclose : c = '\x7d'
      · subst hclose
        cases depth <;> simp [balanced, ih]
      · simp [balanced, ih, hclose]

/-- The text that a line leaves in a source without comments: its own, or an empty line where a
comment is open. -/
def LeftBy (line : DeclarationLine) (cs : List Char) : Prop :=
  cs = ['\n'] ∨ cs = line.text.toList ++ ['\n']

/-- Nothing of a signature stands at the start of the text. -/
structure Blocks (cs : List Char) : Prop where
  trim : trimStart cs = cs
  void : after? voidWord cs = none
  mark : ∀ c ∈ ['(', ')', '\x7b'], after? [c] cs = none

theorem Blocks.skipVoid {cs : List Char} (h : Blocks cs) : skipVoid cs = cs := by
  rw [Source.skipVoid, h.void]

variable {line : DeclarationLine} {added : List Char}

namespace LeftBy

theorem trimStart_or_blocks (h : LeftBy line added) (after : List Char) :
    trimStart (added ++ after) = trimStart after ∨ Blocks (added ++ after) := by
  rcases h with rfl | rfl
  · exact Or.inl rfl
  · right
    obtain ⟨rest, hrest⟩ := line.exists_toList_text
    rw [hrest]
    cases line.storage <;> exact ⟨rfl, rfl, by simp [Storage.word, after?]⟩

theorem braces (h : LeftBy line added) : ∀ c ∈ added, c ≠ '\x7b' ∧ c ≠ '\x7d' := by
  intro c hc
  rcases h with rfl | rfl
  · rw [List.mem_singleton.mp hc]
    decide
  · rcases List.mem_append.mp hc with hc | hc
    · exact ⟨line.ne_of_mem_text hc (by decide), line.ne_of_mem_text hc (by decide)⟩
    · rw [List.mem_singleton.mp hc]
      decide

/-- No entry point starts inside a line. -/
theorem bodyAt_inside (h : LeftBy line added) {cs : List Char} (hne : cs ≠ []) (hcs : cs <:+ added)
    (before after : List Char) : bodyAt before (cs ++ after) = none := by
  have hempty : bodyAt before ('\n' :: after) = none := rfl
  rcases h with rfl | rfl
  · rcases List.suffix_cons_iff.mp hcs with rfl | hcs
    · exact hempty
    · exact absurd (List.suffix_nil.mp hcs) hne
  · obtain ⟨ds, rfl, hds⟩ := (List.suffix_concat_iff.mp hcs).resolve_left hne
    rw [line.toList_text] at hds
    rcases List.suffix_concat_iff.mp hds with rfl | ⟨es, rfl, hes⟩
    · exact hempty
    rw [bodyAt, List.append_assoc, List.append_assoc, List.singleton_append,
      after?_append_cons (by decide)]
    cases hname : after? entryName es with
    | none => rfl
    | some rest =>
        have hopen : '(' ∉ rest := by
          intro hmem
          have hfront := hes.subset ((after?_eq_some hname).subset hmem)
          have htext : '(' ∈ line.text.toList := by
            rw [line.toList_text]
            exact List.mem_append_left _ hfront
          exact line.ne_of_mem_text htext (by decide) rfl
        rw [Option.map_some, Option.bind_some, afterSignature_semicolon hopen]
        split <;> rfl

/-- The word `void` stands after the line or before it, never over its semicolon. -/
theorem endsInVoid_eq (h : LeftBy line added) {before : List Char} (hbefore : StartsLine before)
    (xs : List Char) :
    endsInVoid (xs ++ (added.reverse ++ before.reverse)) = endsInVoid (xs ++ before.reverse) ∨
      allBlank xs = true ∧ endsInVoid (xs ++ (added.reverse ++ before.reverse)) = false := by
  have hadded : StartsLine (before ++ added) := by
    refine startsLine_iff.mpr (Or.inr ?_)
    rcases h with rfl | rfl
    · exact List.getLast?_concat
    · rw [← List.append_assoc]
      exact List.getLast?_concat
  rw [← List.reverse_append, endsInVoid_append hadded, endsInVoid_append hbefore]
  cases allBlank xs with
  | false => exact Or.inl rfl
  | true =>
      rcases h with rfl | rfl
      · rw [List.reverse_append]
        exact Or.inl (endsInVoid_append hbefore ['\n'])
      · rw [List.reverse_append, List.reverse_concat, line.toList_text, List.reverse_concat]
        exact Or.inr ⟨rfl, rfl⟩

end LeftBy

/-- Two texts as a reader has them before itself: with the place of what is added still ahead, after
the end of a line, or behind. -/
inductive Grown (added after : List Char) : List Char → List Char → Prop
  | ahead (cs : List Char) :
      Grown added after (cs ++ '\n' :: (added ++ after)) (cs ++ '\n' :: after)
  | passed (cs : List Char) : Grown added after cs cs

namespace Grown

variable {after new old : List Char}

theorem after?_rel (h : Grown added after new old) {lead : List Char} (hlead : '\n' ∉ lead) :
    Option.Rel (Grown added after) (after? lead new) (after? lead old) := by
  cases h with
  | ahead cs =>
      rw [after?_append_cons hlead, after?_append_cons hlead]
      cases after? lead cs with
      | none => exact .none
      | some rest => exact .some (.ahead rest)
  | passed cs =>
      cases after? lead new with
      | none => exact .none
      | some rest => exact .some (.passed rest)

theorem startsWith_eq (h : Grown added after new old) (p : Char → Bool) :
    startsWith p new = startsWith p old := by
  cases h with
  | ahead cs => cases cs <;> rfl
  | passed cs => rfl

/-- Blanks are skipped in step, or up to what is added. -/
theorem trim (h : Grown added after new old) (hadded : LeftBy line added) :
    Grown added after (trimStart new) (trimStart old) ∨ Blocks (trimStart new) := by
  cases h with
  | passed cs => exact Or.inl (.passed _)
  | ahead cs =>
      rw [trimStart_append, trimStart_append]
      cases allBlank cs with
      | false => exact Or.inl (.ahead (trimStart cs))
      | true =>
          show Grown added after (trimStart (added ++ after)) (trimStart after) ∨
            Blocks (trimStart (added ++ after))
          rcases hadded.trimStart_or_blocks after with heq | hblocks
          · rw [heq]
            exact Or.inl (.passed _)
          · rw [hblocks.trim]
            exact Or.inr hblocks

theorem skip (h : Grown added after new old) (hadded : LeftBy line added) :
    Grown added after (skipVoid new) (skipVoid old) ∨ Blocks (skipVoid new) := by
  unfold skipVoid
  have hvoid := h.after?_rel (by decide : '\n' ∉ voidWord)
  revert hvoid
  generalize after? voidWord new = n
  generalize after? voidWord old = o
  rintro (hrest | _)
  · dsimp only
    rw [hrest.startsWith_eq]
    split
    · exact Or.inl h
    · exact hrest.trim hadded
  · exact Or.inl h

theorem of_mark (h : Grown added after new old ∨ Blocks new) {c : Char}
    (hc : c ∈ ['(', ')', '\x7b']) {new' : List Char} (hnew : after? [c] new = some new') :
    ∃ old', after? [c] old = some old' ∧ Grown added after new' old' := by
  have hline : '\n' ∉ [c] := by
    intro hmem
    rw [← List.mem_singleton.mp hmem] at hc
    exact absurd hc (by decide)
  rcases h with h | hblocks
  · have hrel := h.after?_rel hline
    rw [hnew] at hrel
    cases hold : after? [c] old with
    | none =>
        rw [hold] at hrel
        cases hrel
    | some old' =>
        rw [hold] at hrel
        cases hrel with
        | some hrest => exact ⟨old', rfl, hrest⟩
  · rw [hblocks.mark c hc] at hnew
    cases hnew

/-- A signature that is read with the added text is read without it. -/
theorem of_afterSignature (h : Grown added after new old) (hadded : LeftBy line added)
    {new' : List Char} (hnew : afterSignature new = some new') :
    ∃ old', afterSignature old = some old' ∧ Grown added after new' old' := by
  obtain ⟨inside, hopen, hnew⟩ := Option.bind_eq_some_iff.mp hnew
  obtain ⟨rest, hclose, hnew⟩ := Option.bind_eq_some_iff.mp hnew
  obtain ⟨inside', hopen', hinside⟩ := of_mark (h.trim hadded) (by decide) hopen
  have hskip : Grown added after (skipVoid (trimStart inside)) (skipVoid (trimStart inside')) ∨
      Blocks (skipVoid (trimStart inside)) := by
    rcases hinside.trim hadded with htrim | hblocks
    · exact htrim.skip hadded
    · rw [hblocks.skipVoid]
      exact Or.inr hblocks
  obtain ⟨rest', hclose', hrest⟩ := of_mark hskip (by decide) hclose
  obtain ⟨old', hbrace', hold⟩ := of_mark (hrest.trim hadded) (by decide) hnew
  refine ⟨old', ?_, hold⟩
  rw [afterSignature, hopen', Option.bind_some, hclose', Option.bind_some, hbrace']

theorem isSome_balanced (h : Grown added after new old) (hadded : LeftBy line added) (depth : Nat) :
    (balanced depth new).isSome = (balanced depth old).isSome := by
  cases h with
  | passed cs => rfl
  | ahead cs =>
      refine isSome_balanced_congr (fun depth => ?_) cs depth
      have hplain : ∀ c ∈ ['\n'], c ≠ '\x7b' ∧ c ≠ '\x7d' :=
        List.forall_mem_singleton.mpr (by decide)
      have hline : ∀ ys, (balanced depth ('\n' :: ys)).isSome = (balanced depth ys).isSome :=
        isSome_balanced_append hplain depth
      rw [hline, hline, isSome_balanced_append hadded.braces]

end Grown

/-- An entry point that starts before the added text is one without it. -/
theorem LeftBy.isSome_bodyAt (hadded : LeftBy line added) {before cs after : List Char}
    (h : (bodyAt before (cs ++ '\n' :: (added ++ after))).isSome = true) :
    (bodyAt before (cs ++ '\n' :: after)).isSome = true := by
  obtain ⟨body, hbody⟩ := Option.isSome_iff_exists.mp h
  obtain ⟨rest, hname, hbody⟩ := Option.bind_eq_some_iff.mp hbody
  rw [after?_append_cons (by decide)] at hname
  obtain ⟨front, hfront, rfl⟩ := Option.map_eq_some_iff.mp hname
  have hgrown : Grown added after (front ++ '\n' :: (added ++ after)) (front ++ '\n' :: after) :=
    .ahead front
  rw [bodyAt, after?_append_cons (by decide), hfront, Option.map_some, Option.bind_some,
    ← hgrown.startsWith_eq]
  split at hbody
  · next hcondition =>
    rw [if_pos hcondition]
    obtain ⟨inside, hsignature, hbalanced⟩ := Option.bind_eq_some_iff.mp hbody
    obtain ⟨inside', hsignature', hinside⟩ := hgrown.of_afterSignature hadded hsignature
    rw [hsignature', Option.bind_some, ← hinside.isSome_balanced hadded, hbalanced]
    rfl
  · cases hbody

theorem bodyAt_congr {before before' : List Char} (h : endsInVoid before = endsInVoid before')
    (cs : List Char) : bodyAt before cs = bodyAt before' cs := by
  rw [bodyAt, bodyAt, h]

theorem trimStart_eq_of_endsInVoid {before : List Char} (h : endsInVoid before = true) :
    trimStart before = voidWord.reverse ++ (beforeVoid before).reverse := by
  unfold endsInVoid at h
  split at h
  · next rest hrest =>
    have hsplit := eq_append_of_after? hrest
    have hdrop : (voidWord.reverse ++ rest).drop voidWord.length = rest := rfl
    rw [beforeVoid, List.reverse_reverse, hsplit, hdrop]
  · cases h

theorem endsInVoid_of_bodyAt {before cs body : List Char} (h : bodyAt before cs = some body) :
    endsInVoid before = true := by
  obtain ⟨rest, -, h⟩ := Option.bind_eq_some_iff.mp h
  split at h
  · next hcondition => exact (Bool.and_eq_true_iff.mp hcondition).1
  · cases h

theorem length_beforeVoid_le (before : List Char) :
    (beforeVoid before).length ≤ before.length := by
  rw [beforeVoid, List.length_reverse, List.length_drop]
  exact (Nat.sub_le _ _).trans (trimStart_suffix before).length_le

theorem findEntry_of_isSome {before cs : List Char} {c : Char}
    (h : (bodyAt before (c :: cs)).isSome = true) : findEntry before (c :: cs) = some before :=
  if_pos h

theorem findEntry_of_none {before cs : List Char} {c : Char} (h : bodyAt before (c :: cs) = none) :
    findEntry before (c :: cs) = findEntry (c :: before) cs := by
  rw [findEntry, h]
  rfl

theorem findBody_of_none {before cs : List Char} {c : Char} (h : bodyAt before (c :: cs) = none) :
    findBody before (c :: cs) = findBody (c :: before) cs := by
  rw [findBody, h]

namespace LeftBy

/-- After the line the search goes on as without it, unless `void` stands before the line. -/
theorem findBody_behind (h : LeftBy line added) {before : List Char} (hbefore : StartsLine before)
    (xs : List Char) {cs : List Char} (hfront : ∀ name,
      findEntry (xs ++ before.reverse) cs = some name → before.length ≤ (beforeVoid name).length) :
    findBody (xs ++ (added.reverse ++ before.reverse)) cs = findBody (xs ++ before.reverse) cs := by
  induction cs generalizing xs with
  | nil => rfl
  | cons c cs ih =>
      have hsame : bodyAt (xs ++ (added.reverse ++ before.reverse)) (c :: cs) =
          bodyAt (xs ++ before.reverse) (c :: cs) := by
        rcases h.endsInVoid_eq hbefore xs with heq | ⟨hblank, hfalse⟩
        · exact bodyAt_congr heq _
        cases hat : bodyAt (xs ++ before.reverse) (c :: cs) with
        | none =>
            by_contra hsome
            obtain ⟨body, hbody⟩ := Option.ne_none_iff_exists'.mp hsome
            exact absurd (endsInVoid_of_bodyAt hbody) (by simp [hfalse])
        | some body =>
            -- Between `void` and the name there is a line then, so `void` stands before it.
            have hlength := hfront _ (findEntry_of_isSome (by rw [hat]; rfl))
            have hvoid := congrArg List.length
              (trimStart_eq_of_endsInVoid (endsInVoid_of_bodyAt hat))
            have hle := (trimStart_suffix before.reverse).length_le
            rw [trimStart_append, if_pos hblank, List.length_append, List.length_reverse,
              List.length_reverse] at hvoid
            rw [List.length_reverse] at hle
            have hfour : voidWord.length = 4 := rfl
            omega
      rw [findBody, findBody, hsame]
      cases hat : bodyAt (xs ++ before.reverse) (c :: cs) with
      | some body => rfl
      | none =>
          rw [findEntry_of_none hat] at hfront
          exact ih (c :: xs) hfront

/-- No entry point starts inside the line. -/
theorem findBody_inside (h : LeftBy line added) {cs : List Char} (hcs : cs <:+ added)
    (before after : List Char) :
    findBody before (cs ++ after) = findBody (cs.reverse ++ before) after := by
  induction cs generalizing before with
  | nil => rfl
  | cons c cs ih =>
      have hnone : bodyAt before (c :: (cs ++ after)) = none :=
        h.bodyAt_inside (List.cons_ne_nil c cs) hcs before after
      rw [List.cons_append, findBody_of_none hnone, ih ((List.suffix_cons c cs).trans hcs)]
      simp

/-- Before the line no entry point starts. -/
theorem findBody_ahead (h : LeftBy line added) (done : List Char) {cs after : List Char}
    (hbefore : StartsLine (done ++ cs)) (hfront : ∀ name,
      findEntry done.reverse (cs ++ after) = some name →
        (done ++ cs).length ≤ (beforeVoid name).length) :
    findBody done.reverse (cs ++ (added ++ after)) = findBody done.reverse (cs ++ after) := by
  induction cs generalizing done with
  | nil =>
      rw [List.append_nil] at hbefore hfront
      rw [List.nil_append, List.nil_append, h.findBody_inside (List.suffix_refl _)]
      exact h.findBody_behind hbefore [] hfront
  | cons c cs ih =>
      have hold : bodyAt done.reverse (c :: (cs ++ after)) = none := by
        by_contra hsome
        have hlength := hfront _ (findEntry_of_isSome (Option.isSome_iff_ne_none.mpr hsome))
        have hle := length_beforeVoid_le done.reverse
        simp only [List.length_reverse, List.length_append, List.length_cons] at hlength hle
        omega
      have hnew : bodyAt done.reverse (c :: (cs ++ (added ++ after))) = none := by
        have hlast : (c :: cs).getLast? = some '\n' := by
          rcases startsLine_iff.mp hbefore with hnil | hlast
          · simp at hnil
          · rwa [List.getLast?_append_of_ne_nil _ (List.cons_ne_nil c cs)] at hlast
        obtain ⟨front, hsplit⟩ := List.getLast?_eq_some_iff.mp hlast
        by_contra hsome
        have hstart : ∀ ys, c :: (cs ++ ys) = front ++ '\n' :: ys := fun ys => by
          rw [← List.cons_append, hsplit, List.append_assoc, List.singleton_append]
        rw [hstart] at hold hsome
        exact absurd (h.isSome_bodyAt (Option.isSome_iff_ne_none.mpr hsome)) (by simp [hold])
      rw [List.cons_append, List.cons_append, findBody_of_none hnew, findBody_of_none hold]
      rw [List.cons_append, findEntry_of_none hold] at hfront
      have hsplit : done ++ c :: cs = done ++ [c] ++ cs := by simp
      have hreverse : c :: done.reverse = (done ++ [c]).reverse := by simp
      rw [hsplit] at hbefore hfront
      rw [hreverse] at hfront ⊢
      exact ih (done ++ [c]) hbefore hfront

end LeftBy

/-- A line that is put in before the entry point leaves its body as it is. -/
theorem findBody_insert (h : LeftBy line added) {before after : List Char}
    (hbefore : StartsLine before) (hfront : ∀ front, entryFront? (before ++ after) = some front →
      before.length ≤ front.length) :
    findBody [] (before ++ (added ++ after)) = findBody [] (before ++ after) :=
  h.findBody_ahead [] hbefore fun _ hname =>
    hfront _ (Option.map_eq_some_iff.mpr ⟨_, hname, rfl⟩)

end ShaderUplift.Source
