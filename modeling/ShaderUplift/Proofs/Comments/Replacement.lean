import ShaderUplift.Proofs.Declared
import ShaderUplift.Proofs.Qualification.Uniforms
import ShaderUplift.Proofs.Reproduction
import ShaderUplift.Proofs.Source.InsertedLine

/-! Texts that are joined and replaced without opening a comment. What a new text may do to its
neighbours shows at its two ends only: its first character may not end an opener and its last one
may not begin one, unless the old text had them already. A body goes through three replacements, the
tokens for its text, elements for accesses and new names for old ones, and each of them is of this
kind at every token. -/

namespace ShaderUplift

namespace Source

theorem NoComment.commentFree {cs : List Char} (h : NoComment cs) : CommentFree cs :=
  commentFree_of_forall_ne fun c hc => (h c hc).1

theorem NoComment.append {xs ys : List Char} (hxs : NoComment xs) (hys : NoComment ys) :
    NoComment (xs ++ ys) :=
  fun c hc => (List.mem_append.mp hc).elim (hxs c) (hys c)

theorem NoComment.append_commentFree {xs ys : List Char} (hxs : NoComment xs)
    (hys : CommentFree ys) : CommentFree (xs ++ ys) := by
  refine commentFree_append hxs.commentFree hys ?_
  rintro c hc d - ⟨rfl, -⟩
  exact (hxs _ (List.mem_of_getLast? hc)).1 rfl

theorem CommentFree.append_noComment {xs ys : List Char} (hxs : CommentFree xs)
    (hys : NoComment ys) : CommentFree (xs ++ ys) := by
  refine commentFree_append hxs hys.commentFree ?_
  rintro c - d hd ⟨-, hopen⟩
  obtain ⟨hslash, hstar⟩ := hys d (List.mem_of_head? hd)
  exact hopen.elim hslash hstar

/-- Two texts with something harmless between them. -/
theorem CommentFree.append_between {xs ys gap : List Char} (hxs : CommentFree xs)
    (hgap : NoComment gap) (hne : gap ≠ []) (hys : CommentFree ys) :
    CommentFree (xs ++ (gap ++ ys)) := by
  refine commentFree_append hxs (hgap.append_commentFree hys) ?_
  rintro c - d hd ⟨-, hopen⟩
  rw [List.head?_append_of_ne_nil _ hne] at hd
  obtain ⟨hslash, hstar⟩ := hgap d (List.mem_of_head? hd)
  exact hopen.elim hslash hstar

theorem noComment_toString (n : Nat) : NoComment (toString n).toList := by
  intro c hc
  rw [Nat.toString_eq_ofList_toDigits, String.toList_ofList] at hc
  have hdigit := Nat.isDigit_of_mem_toDigits (by decide) (by decide) hc
  constructor <;> rintro rfl <;> exact absurd hdigit (by decide)

/-- In no context does putting `ys` in the place of `xs` open a comment. -/
def KeepsFree (xs ys : List Char) : Prop :=
  ∀ before after, CommentFree (before ++ xs ++ after) → CommentFree (before ++ ys ++ after)

namespace KeepsFree

variable {xs ys xs' ys' : List Char}

theorem refl (xs : List Char) : KeepsFree xs xs := fun _ _ h => h

theorem commentFree (h : KeepsFree xs ys) (hxs : CommentFree xs) : CommentFree ys := by
  have hfree := h [] [] (by simpa using hxs)
  simpa using hfree

theorem append (h : KeepsFree xs ys) (h' : KeepsFree xs' ys') :
    KeepsFree (xs ++ xs') (ys ++ ys') := by
  intro before after hfree
  have hfirst : CommentFree (before ++ ys ++ (xs' ++ after)) := by
    refine h before (xs' ++ after) ?_
    simpa only [List.append_assoc] using hfree
  have hboth : CommentFree ((before ++ ys) ++ ys' ++ after) := by
    refine h' (before ++ ys) after ?_
    simpa only [List.append_assoc] using hfirst
  simpa only [List.append_assoc] using hboth

theorem flatMap {α : Type} {f g : α → List Char} {as : List α}
    (h : ∀ a ∈ as, KeepsFree (f a) (g a)) : KeepsFree (as.flatMap f) (as.flatMap g) := by
  induction as with
  | nil => exact refl []
  | cons a as ih =>
      obtain ⟨ha, has⟩ := List.forall_mem_cons.mp h
      exact append ha (ih has)

/-- A new text that opens no comment itself fits wherever the old one did, when its ends are those
of the old text or cannot be part of an opener. -/
theorem of_ends (hne : ys ≠ []) (hys : CommentFree xs → CommentFree ys)
    (hhead : ∀ d ∈ ys.head?, d ∈ xs.head? ∨ (d ≠ '/' ∧ d ≠ '*'))
    (hlast : ∀ c ∈ ys.getLast?, c ∈ xs.getLast? ∨ c ≠ '/') : KeepsFree xs ys := by
  intro before after hfree
  obtain ⟨hfront, hafter, hright⟩ := List.isChain_append.mp hfree
  obtain ⟨hbefore, hxs, hleft⟩ := List.isChain_append.mp hfront
  refine commentFree_append (commentFree_append hbefore (hys hxs) ?_) hafter ?_
  · intro c hc d hd hopen
    rcases hhead d hd with hold | ⟨hslash, hstar⟩
    · exact hleft c hc d hold hopen
    · exact hopen.2.elim hslash hstar
  · intro c hc d hd hopen
    rw [List.getLast?_append_of_ne_nil _ hne] at hc
    rcases hlast c hc with hold | hslash
    · refine hright c ?_ d hd hopen
      rw [Option.mem_def, List.getLast?_append, Option.mem_def.mp hold]
      rfl
    · exact hslash hopen.1

/-- A harmless text fits everywhere. -/
theorem of_noComment (hne : ys ≠ []) (hys : NoComment ys) : KeepsFree xs ys :=
  of_ends hne (fun _ => hys.commentFree) (fun d hd => Or.inr (hys d (List.mem_of_head? hd)))
    (fun c hc => Or.inr (hys c (List.mem_of_getLast? hc)).1)

/-- So does the old text with something harmless before it. -/
theorem noComment_append {lead : List Char} (hne : lead ≠ []) (hlead : NoComment lead) :
    KeepsFree xs (lead ++ xs) := by
  refine of_ends (by simp [hne]) hlead.append_commentFree ?_ ?_
  · intro d hd
    rw [List.head?_append_of_ne_nil _ hne] at hd
    exact Or.inr (hlead d (List.mem_of_head? hd))
  · intro c hc
    by_cases hxs : xs = []
    · rw [hxs, List.append_nil] at hc
      exact Or.inr (hlead c (List.mem_of_getLast? hc)).1
    · rw [List.getLast?_append_of_ne_nil _ hxs] at hc
      exact Or.inl hc

/-- What follows the start of a text may be replaced by something harmless. -/
theorem append_noComment {rest : List Char} {tail : List Char} (hne : tail ≠ [])
    (htail : NoComment tail) : KeepsFree (xs ++ rest) (xs ++ tail) := by
  refine of_ends (by simp [hne]) ?_ ?_ ?_
  · intro hfree
    have hxs : CommentFree xs := List.IsChain.left_of_append hfree
    exact hxs.append_noComment htail
  · intro d hd
    cases xs with
    | nil => exact Or.inr (htail d (List.mem_of_head? hd))
    | cons c xs => exact Or.inl hd
  · intro c hc
    rw [List.getLast?_append_of_ne_nil _ hne] at hc
    exact Or.inr (htail c (List.mem_of_getLast? hc)).1

end KeepsFree

end Source

open Source

namespace Body

/-- The body as it is written opens no comment. -/
def Uncommented (b : Body) : Prop := CommentFree b.toText.toList

theorem toList_toText (b : Body) : b.toText.toList = b.tokens.flatMap BodyToken.chars :=
  String.toList_ofList

theorem noComment_mark (m : Lexing.Mark) : NoComment [m.char] := by cases m <;> decide

/-- The tokens of a text differ from it in marks only. -/
theorem keepsFree_parse (text : String) :
    KeepsFree text.toList (parse text).1.toText.toList := by
  obtain ⟨parts, htokens, htext, hparts⟩ := parse_parts text
  rw [toList_toText, htokens, List.flatMap_map, ← htext]
  refine KeepsFree.flatMap fun p hp => ?_
  rcases hparts p hp with hfaithful | ⟨m, hm, -⟩
  · rw [Part.Faithful] at hfaithful
    rw [hfaithful]
    exact KeepsFree.refl _
  · rw [hm]
    exact KeepsFree.of_noComment (List.cons_ne_nil _ _) (noComment_mark m)

/-- The name of the array stays, and its index with the brackets becomes the end of the new name. -/
theorem Expanded.keepsFree {array : String} {length : Nat} {ts us : List BodyToken}
    (h : Expanded array length ts us) :
    KeepsFree (ts.flatMap BodyToken.chars) (us.flatMap BodyToken.chars) := by
  induction h with
  | nil => exact KeepsFree.refl _
  | @access index group ts us hgroup _ ih =>
      obtain ⟨tokens, rfl, -⟩ := hgroup.eq_cons
      have hname : (BodyToken.ident (elementName array index)).chars =
          array.toList ++ ('_' :: (toString index).toList) := by
        simp [BodyToken.chars, elementName]
      have htail : NoComment ('_' :: (toString index).toList) :=
        List.forall_mem_cons.mpr ⟨by decide, noComment_toString index⟩
      rw [List.flatMap_append, List.flatMap_cons, List.flatMap_cons, hname]
      exact KeepsFree.append (KeepsFree.append_noComment (List.cons_ne_nil _ _) htail) ih
  | kept _ _ ih =>
      rw [List.flatMap_cons, List.flatMap_cons]
      exact KeepsFree.append (KeepsFree.refl _) ih

theorem keepsFree_expandIndexed (b : Body) (array : String) (length : Nat) :
    KeepsFree b.toText.toList (b.expandIndexed array length).1.toText.toList := by
  rw [toList_toText, toList_toText]
  exact (expanded_expandFrom array length b.tokens).keepsFree

theorem noComment_of_isWord {name : String} (h : isWord name = true) : NoComment name.toList := by
  intro c hc
  have hword := List.all_eq_true.mp (isWord_iff.mp h).2 c hc
  constructor <;> rintro rfl <;> exact absurd hword (by decide)

/-- A new name is a built-in one, the old name behind the accessor, or the old name. -/
theorem keepsFree_renamed (stage : Stage) (fields : List Field) (strategy : Strategy)
    (name : String) :
    KeepsFree name.toList (renamed (newNames stage fields strategy.accessor) name).toList := by
  rw [renamed_newNames]
  split
  · next new hnew =>
    have hword := isWord_of_legacyName? hnew
    exact KeepsFree.of_noComment (isWord_iff.mp hword).1 (noComment_of_isWord hword)
  · split
    · have hlead : NoComment (strategy.accessor ++ ".").toList := by
        rw [String.toList_append]
        exact (noComment_of_isWord (isWord_accessor strategy)).append (by decide)
      rw [String.toList_append]
      exact KeepsFree.noComment_append (by simp) hlead
    · exact KeepsFree.refl _

theorem keepsFree_qualify (b : Body) (stage : Stage) (fields : List Field) (strategy : Strategy) :
    KeepsFree b.toText.toList (b.qualify stage fields strategy.accessor).toText.toList := by
  rw [toList_toText, toList_toText, qualify, rename, List.flatMap_map]
  refine KeepsFree.flatMap fun t _ => ?_
  cases t with
  | ident name => exact keepsFree_renamed stage fields strategy name
  | field | number | space | punct | text => exact KeepsFree.refl _

end Body

/-- Reading the statements of a stage opens no comment in its body. -/
theorem Classification.uncommented_body_step {c : Classification} (h : c.body.Uncommented)
    (s : Statement) : (c.step s).body.Uncommented := by
  rcases c.body_step s with heq | ⟨a, length, -, -, heq⟩
  · rw [heq]
    exact h
  · rw [heq]
    exact (c.body.keepsFree_expandIndexed a.name length).commentFree h

theorem uncommented_body_of_parse {source : String} {stage : Stage} {unit : ShaderUnit}
    (h : (ShaderUnit.parse source stage).1 = .ok unit) : unit.body.Uncommented := by
  obtain ⟨c, hc, rfl⟩ := ShaderUnit.parse_induction (P := fun c => c.body.Uncommented) h
    (fun text htext => (Body.keepsFree_parse text).commentFree (commentFree_entryBody htext))
    (fun c s _ hc => Classification.uncommented_body_step hc s)
  exact hc

end ShaderUplift
