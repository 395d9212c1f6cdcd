import Mathlib.Data.List.Basic
import ShaderUplift.Proofs.Files.Places

/-! What writing does to a store, told by what stands at each place. A file is written together with
the folders on its way: these are the entries of the write. Where nothing else stands at the places
of its entries, the write lays them over the store and changes nothing else; where a file stands in
the place of a folder, it changes nothing at all. -/

namespace ShaderUplift.Files

theorem lookup_replaced (nodes : List (Place × Node)) (l : Place) (n : Node) (k : Place) :
    (nodes.map fun e => if e.1 = l then (l, n) else e).lookup k =
      if k = l then (nodes.lookup l).map fun _ => n else nodes.lookup k := by
  induction nodes with
  | nil => simp
  | cons e nodes ih =>
      obtain ⟨place, node⟩ := e
      rw [List.map_cons]
      by_cases hplace : place = l <;> by_cases hk : k = l
      · subst hplace hk
        simp
      · subst hplace
        simp only [List.lookup_cons, if_true, beq_false_of_ne hk, ih, if_neg hk]
      · subst hk
        simp only [List.lookup_cons, if_neg hplace, beq_false_of_ne (Ne.symm hplace), ih, if_true]
      · simp only [List.lookup_cons, if_neg hplace, ih, if_neg hk]

theorem Store.get?_put {l : Place} (hl : l ≠ []) (s : Store) (n : Node) (k : Place) :
    (s.put l n).get? k = if k = l then some n else s.get? k := by
  have hnodes : (s.put l n).nodes.lookup k = if k = l then some n else s.nodes.lookup k := by
    unfold Store.put
    split
    · next hsome =>
      obtain ⟨m, hm⟩ := Option.isSome_iff_exists.mp hsome
      rw [lookup_replaced, hm]
      rfl
    · next hnone =>
      rw [Option.not_isSome_iff_eq_none] at hnone
      by_cases hk : k = l
      · subst hk
        simp [List.lookup_append, hnone]
      · simp [List.lookup_append, List.lookup_cons, beq_false_of_ne hk, hk]
  unfold Store.get?
  by_cases hk : k = []
  · rw [if_pos hk, if_pos hk, if_neg (hk ▸ Ne.symm hl)]
  · rw [if_neg hk, if_neg hk, hnodes]

/-- The second store has the entries, and apart from them what the first one has. -/
structure Overlaid (s : Store) (es : List (Place × Node)) (t : Store) : Prop where
  entry : ∀ e ∈ es, t.get? e.1 = some e.2
  other : ∀ l, (∀ e ∈ es, e.1 ≠ l) → t.get? l = s.get? l

/-- Entries for the same place are the same. -/
def Agreeing (es : List (Place × Node)) : Prop := ∀ e ∈ es, ∀ e' ∈ es, e.1 = e'.1 → e.2 = e'.2

/-- Nothing stands at the place of an entry, or what the entry has there. -/
def Store.Takes (s : Store) (es : List (Place × Node)) : Prop :=
  ∀ e ∈ es, ∀ n, s.get? e.1 = some n → n = e.2

section Overlay

variable {s t u : Store} {es es' : List (Place × Node)}

theorem Agreeing.of_subset (h : Agreeing es') (hsubset : es ⊆ es') : Agreeing es :=
  fun e he e' he' => h e (hsubset he) e' (hsubset he')

theorem Store.Takes.of_subset (h : s.Takes es') (hsubset : es ⊆ es') : s.Takes es :=
  fun e he => h e (hsubset he)

theorem Overlaid.refl (s : Store) : Overlaid s [] s := ⟨nofun, fun _ _ => rfl⟩

theorem Overlaid.of_get? {l : Place} {n : Node} (h : s.get? l = some n) : Overlaid s [(l, n)] s :=
  ⟨fun e he => by rw [List.mem_singleton.mp he, h], fun _ _ => rfl⟩

theorem Overlaid.put {l : Place} (hl : l ≠ []) (s : Store) (n : Node) :
    Overlaid s [(l, n)] (s.put l n) := by
  constructor
  · intro e he
    rw [List.mem_singleton.mp he, Store.get?_put hl, if_pos rfl]
  · intro k hk
    rw [Store.get?_put hl, if_neg fun heq => hk _ List.mem_cons_self heq.symm]

theorem Overlaid.trans (hst : Overlaid s es t) (htu : Overlaid t es' u)
    (hagree : Agreeing (es ++ es')) : Overlaid s (es ++ es') u := by
  constructor
  · intro e he
    by_cases hlater : ∃ e' ∈ es', e'.1 = e.1
    · obtain ⟨e', he', heq⟩ := hlater
      rw [← heq, htu.entry e' he', hagree e' (List.mem_append_right _ he') e he heq]
    · push Not at hlater
      have hfirst : e ∈ es :=
        (List.mem_append.mp he).resolve_right fun he' => hlater e he' rfl
      rw [htu.other e.1 hlater, hst.entry e hfirst]
  · intro l hl
    rw [htu.other l fun e he => hl e (List.mem_append_right _ he),
      hst.other l fun e he => hl e (List.mem_append_left _ he)]

theorem Overlaid.get?_eq (ht : Overlaid s es t) (hu : Overlaid s es' u)
    (hsame : ∀ e, e ∈ es ↔ e ∈ es') : t.get? = u.get? := by
  funext l
  by_cases hentry : ∃ e ∈ es, e.1 = l
  · obtain ⟨e, he, rfl⟩ := hentry
    rw [ht.entry e he, hu.entry e ((hsame e).mp he)]
  · push Not at hentry
    rw [ht.other l hentry, hu.other l fun e he => hentry e ((hsame e).mpr he)]

/-- A store takes further entries after it took some, when they all agree. -/
theorem Store.Takes.after (h : s.Takes (es ++ es')) (hagree : Agreeing (es ++ es'))
    (hst : Overlaid s es t) : t.Takes es' := by
  intro e' he' n hn
  by_cases hentry : ∃ e ∈ es, e.1 = e'.1
  · obtain ⟨e, he, heq⟩ := hentry
    rw [← heq, hst.entry e he, Option.some.injEq] at hn
    rw [← hn]
    exact hagree e (List.mem_append_left _ he) e' (List.mem_append_right _ he') heq
  · push Not at hentry
    rw [hst.other e'.1 hentry] at hn
    exact h e' (List.mem_append_right _ he') n hn

end Overlay

/-- The places on the way from a folder along some names. -/
def way (here : Place) : List String → List Place
  | [] => []
  | name :: names => (here ++ [name]) :: way (here ++ [name]) names

theorem mem_way {here : Place} {names : List String} {l : Place} (h : l ∈ way here names) :
    ∃ front, front ≠ [] ∧ front <+: names ∧ l = here ++ front := by
  induction names generalizing here with
  | nil => cases h
  | cons name names ih =>
      rcases List.mem_cons.mp h with rfl | h
      · exact ⟨[name], by simp, by simp, rfl⟩
      · obtain ⟨front, -, hprefix, rfl⟩ := ih h
        exact ⟨name :: front, by simp, by simpa using hprefix, by simp⟩

def folderEntries (ls : List Place) : List (Place × Node) := ls.map fun l => (l, .folder)

theorem mem_folderEntries {ls : List Place} {e : Place × Node} :
    e ∈ folderEntries ls ↔ e.1 ∈ ls ∧ e.2 = .folder := by
  obtain ⟨l, n⟩ := e
  simp [folderEntries, eq_comm]

theorem agreeing_folderEntries (ls : List Place) : Agreeing (folderEntries ls) := by
  intro e he e' he' _
  rw [(mem_folderEntries.mp he).2, (mem_folderEntries.mp he').2]

/-- One name on the way: the folder is there, or is made. -/
theorem makeFolders_normal {s : Store} {here : Place} {name : String}
    (h : s.Takes [(here ++ [name], .folder)]) (cs : List Component) :
    ∃ t, s.makeFolders here (.normal name :: cs) = t.makeFolders (here ++ [name]) cs ∧
      Overlaid s [(here ++ [name], .folder)] t := by
  rw [Store.makeFolders]
  cases hget : s.get? (here ++ [name]) with
  | none => exact ⟨_, rfl, .put (by simp) s .folder⟩
  | some n =>
      cases h _ List.mem_cons_self n hget
      exact ⟨s, rfl, .of_get? hget⟩

theorem makeFolders_of_takes {s : Store} {here : Place} {names : List String}
    (h : s.Takes (folderEntries (way here names))) :
    ∃ t, s.makeFolders here (names.map .normal) = .ok (t, here ++ names) ∧
      Overlaid s (folderEntries (way here names)) t := by
  induction names generalizing s here with
  | nil => exact ⟨s, by rw [List.append_nil]; rfl, .refl s⟩
  | cons name names ih =>
      have hsplit : folderEntries (way here (name :: names)) =
          [(here ++ [name], .folder)] ++ folderEntries (way (here ++ [name]) names) := rfl
      have hagree := agreeing_folderEntries (way here (name :: names))
      rw [hsplit] at h hagree ⊢
      obtain ⟨t, hmake, hfirst⟩ :=
        makeFolders_normal (h.of_subset (List.subset_append_left _ _)) (names.map .normal)
      obtain ⟨u, hrest, hlater⟩ := ih (h.after hagree hfirst)
      refine ⟨u, ?_, hfirst.trans hlater hagree⟩
      rw [List.map_cons, hmake, hrest, List.append_assoc, List.singleton_append]

/-- A file in the place of a folder stops the making of folders, and it is not a folder that it
complains about. -/
theorem makeFolders_of_file {s : Store} {here : Place} {names : List String} {l : Place}
    {bytes : ByteArray} (hl : l ∈ way here names) (hfile : s.get? l = some (.file bytes)) :
    ∃ e, s.makeFolders here (names.map .normal) = .error e ∧ e ≠ .isFolder := by
  induction names generalizing s here with
  | nil => cases hl
  | cons name names ih =>
      rw [List.map_cons, Store.makeFolders]
      cases hget : s.get? (here ++ [name]) with
      | none =>
          rcases List.mem_cons.mp hl with rfl | hl
          · rw [hget] at hfile
            cases hfile
          · apply ih hl
            rw [Store.get?_put (by simp), if_neg, hfile]
            rintro rfl
            rw [hget] at hfile
            cases hfile
      | some n =>
          cases n with
          | file other =>
              refine ⟨_, rfl, ?_⟩
              split <;> nofun
          | folder =>
              rcases List.mem_cons.mp hl with rfl | hl
              · rw [hget] at hfile
                cases hfile
              · exact ih hl hfile

theorem makeFolders_append {s t : Store} {here there : Place} {cs : List Component}
    (h : s.makeFolders here cs = .ok (t, there)) (ds : List Component) :
    s.makeFolders here (cs ++ ds) = t.makeFolders there ds := by
  induction cs generalizing s here with
  | nil =>
      cases h
      rfl
  | cons c cs ih =>
      cases c with
      | root => exact ih h
      | current => exact ih h
      | parent => exact ih h
      | normal name =>
          rw [List.cons_append, Store.makeFolders]
          rw [Store.makeFolders] at h
          split at h
          · exact ih h
          · cases h
          · exact ih h

/-- The components lead from folder to folder, and nowhere else. -/
def IsBody (cs : List Component) : Prop := ∀ c ∈ cs, c ≠ .root ∧ c ≠ .current

theorem isBody_bodyComponents (ps : List (List Char)) : IsBody (bodyComponents ps) := by
  intro c hc
  obtain ⟨p, -, rfl⟩ := List.mem_map.mp hc
  unfold componentOf
  split <;> simp

theorem folder_of_follow {s : Store} {here o : Place} {cs : List Component} (hcs : IsBody cs)
    (h : s.follow here cs = .ok o) (ho : s.get? o = some .folder) :
    s.get? here = some .folder := by
  cases cs with
  | nil =>
      cases h
      exact ho
  | cons c cs =>
      cases c with
      | root => exact absurd rfl (hcs _ List.mem_cons_self).1
      | current => exact absurd rfl (hcs _ List.mem_cons_self).2
      | parent =>
          rw [Store.follow] at h
          split at h
          · assumption
          · cases h
      | normal name =>
          rw [Store.follow] at h
          split at h
          · assumption
          · cases h
          · cases h

/-- Where a path leads to a folder, no folder has to be made, also not in a store that has more. -/
theorem makeFolders_of_follow {s t : Store} {here o : Place} {cs : List Component}
    (hkeep : ∀ l, s.get? l = some .folder → t.get? l = some .folder) (hcs : IsBody cs)
    (h : s.follow here cs = .ok o) (ho : s.get? o = some .folder) :
    t.makeFolders here cs = .ok (t, o) := by
  induction cs generalizing here with
  | nil =>
      cases h
      rfl
  | cons c cs ih =>
      have hrest : IsBody cs := fun c hc => hcs c (List.mem_cons_of_mem _ hc)
      cases c with
      | root => exact absurd rfl (hcs _ List.mem_cons_self).1
      | current => exact absurd rfl (hcs _ List.mem_cons_self).2
      | parent =>
          rw [Store.follow] at h
          split at h
          · exact ih hrest h
          · cases h
      | normal name =>
          rw [Store.follow] at h
          split at h
          · have hnext := hkeep _ (folder_of_follow hrest h ho)
            rw [Store.makeFolders, hnext]
            exact ih hrest h
          · cases h
          · cases h

theorem makeFolders_of_resolve {s t : Store} {p : Path} {o : Place}
    (hkeep : ∀ l, s.get? l = some .folder → t.get? l = some .folder)
    (h : s.resolve p = .ok o) (ho : s.get? o = some .folder) :
    t.makeFolders [] p.components = .ok (t, o) := by
  unfold Store.resolve at h
  split at h
  · cases h
  · rw [Path.components_eq, componentsOf] at h ⊢
    have hbody := isBody_bodyComponents (leading p.pieces).2
    have hlead : (leading p.pieces).1 = none ∨ (leading p.pieces).1 = some .root ∨
        (leading p.pieces).1 = some .current := by
      fun_cases leading p.pieces <;> simp
    have hway : s.follow [] (bodyComponents (leading p.pieces).2) = .ok o →
        t.makeFolders [] (bodyComponents (leading p.pieces).2) = .ok (t, o) :=
      fun hfollow => makeFolders_of_follow hkeep hbody hfollow ho
    rcases hlead with hlead | hlead | hlead
    · rw [hlead] at h ⊢
      exact hway h
    · rw [hlead] at h ⊢
      exact hway h
    · rw [hlead] at h ⊢
      exact hway h

/-- The last component of a path that is written to; without a name it leads out of the folder. -/
def lastComponent : Option String → Component
  | some name => .normal name
  | none => .parent

/-- What a write below a folder puts into the store: the folders on its way, and the file. -/
def writtenEntries (o dirs : Place) (name : Option String) (text : String) : List (Place × Node) :=
  folderEntries (way o dirs) ++ name.toList.map fun n => (o ++ dirs ++ [n], .file text.toUTF8)

section Write

variable {s : Store} {front : List Component} {p : Path} {o dirs : Place} {name : Option String}
  {text : String}

theorem mem_writtenEntries {e : Place × Node} (h : e ∈ writtenEntries o dirs name text) :
    e.1 ∈ way o dirs ∧ e.2 = .folder ∨
      ∃ n ∈ name, e = (o ++ dirs ++ [n], .file text.toUTF8) := by
  rcases List.mem_append.mp h with h | h
  · exact .inl (mem_folderEntries.mp h)
  · obtain ⟨n, hn, rfl⟩ := List.mem_map.mp h
    exact .inr ⟨n, by simpa using hn, rfl⟩

/-- The file is behind every folder on its way. -/
theorem ne_of_mem_way {l : Place} (hl : l ∈ way o dirs) (n : String) : l ≠ o ++ dirs ++ [n] := by
  obtain ⟨front, -, hprefix, rfl⟩ := mem_way hl
  intro heq
  have hlength := congrArg List.length heq
  have hle := hprefix.length_le
  simp only [List.length_append, List.length_cons, List.length_nil] at hlength
  omega

theorem agreeing_writtenEntries (o dirs : Place) (name : Option String) (text : String) :
    Agreeing (writtenEntries o dirs name text) := by
  intro e he e' he' heq
  rcases mem_writtenEntries he with ⟨hway, hnode⟩ | ⟨n, hn, rfl⟩
  · rcases mem_writtenEntries he' with ⟨-, hnode'⟩ | ⟨n, -, rfl⟩
    · rw [hnode, hnode']
    · exact absurd heq (ne_of_mem_way hway n)
  · rcases mem_writtenEntries he' with ⟨hway, -⟩ | ⟨n', hn', rfl⟩
    · exact absurd heq.symm (ne_of_mem_way hway n)
    · rfl

theorem writeText_eq {last : Component} (hfront : s.makeFolders [] front = .ok (s, o))
    (hp : p.components = front ++ dirs.map .normal ++ [last]) :
    s.writeText p text =
      match s.makeFolders o (dirs.map .normal) with
      | .error e => (s, .error e)
      | .ok (t, here) =>
        match some last with
        | some (.normal name) =>
          match t.get? (here ++ [name]) with
          | some .folder => (t, .error .isFolder)
          | _ => (t.put (here ++ [name]) (.file text.toUTF8), .ok ())
        | _ => (t, .error .isFolder) := by
  rewrite [Store.writeText, Store.writeBytes, hp, List.dropLast_concat, List.getLast?_concat,
    makeFolders_append hfront]
  rfl

theorem writeText_of_takes (hfront : s.makeFolders [] front = .ok (s, o))
    (hp : p.components = front ++ dirs.map .normal ++ [lastComponent name])
    (htakes : s.Takes (writtenEntries o dirs name text)) :
    ∃ t, s.writeText p text = (t, if name.isSome then .ok () else .error .isFolder) ∧
      Overlaid s (writtenEntries o dirs name text) t := by
  have hagree := agreeing_writtenEntries o dirs name text
  obtain ⟨t, hmake, hfolders⟩ := makeFolders_of_takes (htakes.of_subset (List.subset_append_left _ _))
  rw [writeText_eq hfront hp, hmake]
  cases name with
  | none =>
      refine ⟨t, rfl, ?_⟩
      rw [writtenEntries, Option.toList_none, List.map_nil, List.append_nil]
      exact hfolders
  | some n =>
      have hfile : t.Takes [(o ++ dirs ++ [n], .file text.toUTF8)] := htakes.after hagree hfolders
      refine ⟨t.put (o ++ dirs ++ [n]) (.file text.toUTF8), ?_,
        hfolders.trans (.put (by simp) t _) hagree⟩
      simp only [lastComponent, Option.isSome_some, if_true]
      cases hget : t.get? (o ++ dirs ++ [n]) with
      | none => rfl
      | some node =>
          cases hfile _ List.mem_cons_self node hget
          rfl

theorem writeText_of_file (hfront : s.makeFolders [] front = .ok (s, o))
    (hp : p.components = front ++ dirs.map .normal ++ [lastComponent name]) {l : Place}
    {bytes : ByteArray} (hl : l ∈ way o dirs) (hfile : s.get? l = some (.file bytes))
    (text : String) :
    ∃ e, s.writeText p text = (s, .error e) ∧ e ≠ .isFolder := by
  obtain ⟨e, hmake, hne⟩ := makeFolders_of_file hl hfile
  refine ⟨e, ?_, hne⟩
  rw [writeText_eq hfront hp, hmake]

end Write

end ShaderUplift.Files
