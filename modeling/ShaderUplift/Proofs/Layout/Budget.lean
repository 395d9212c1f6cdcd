import ShaderUplift.Proofs.Strategy

/-! Exact sizes, and what they decide. The size of a stage is computed in words, step by step, but its
answer can be said with exact numbers alone: the first unknown type is refused before any size, then
comes the exact sum, or the uniform at which the exact sum stops being a word. A planner is given for
two stages exactly when all types are known and the sum of both is a word; that sum decides on the
strategy, and the strategy on the binding. Nothing is taken from the descriptors when no planner is
given. -/

namespace ShaderUplift

open Text

/-- The answer to the question how large some uniforms are. -/
inductive SizeAnswer (ds : List Declaration) : Except ConversionError Nat → Prop
  | unknown (before : List Declaration) (d : Declaration) (after : List Declaration)
      (split : ds = before ++ d :: after) (known : ∀ e ∈ before, e.HasKnownType)
      (first : ¬d.HasKnownType) : SizeAnswer ds (.error (.unknownType d.name d.type))
  | sum (known : ∀ d ∈ ds, d.HasKnownType) (word : blockBytes ds < wordBound) :
      SizeAnswer ds (.ok (blockBytes ds))
  | tooLarge (before : List Declaration) (d : Declaration) (after : List Declaration)
      (split : ds = before ++ d :: after) (known : ∀ e ∈ ds, e.HasKnownType)
      (word : blockBytes before < wordBound) (first : wordBound ≤ blockBytes (before ++ [d])) :
      SizeAnswer ds (.error (.blockTooLarge d.name))

theorem find?_unknown_eq_none_iff {ds : List Declaration} :
    (ds.find? fun d => !decide d.HasKnownType) = none ↔ ∀ d ∈ ds, d.HasKnownType := by
  simp

theorem findSome?_require (ds : List Declaration) :
    ((ds.map fun d => require d.HasKnownType (.unknownType d.name d.type)).findSome? id :
        Option ConversionError) =
      (ds.find? fun d => !decide d.HasKnownType).map fun d => .unknownType d.name d.type := by
  induction ds with
  | nil => rfl
  | cons d ds ih =>
      by_cases hknown : d.HasKnownType
      · simpa [require, hknown] using ih
      · simp [require, hknown]

/-- The size of a stage, with the exact sum in place of the sums of words. -/
theorem usedBytes_eq (symbols : Symbols) :
    usedBytes symbols =
      match symbols.uniforms.entries.find? fun d => !decide d.HasKnownType with
      | some d => .error (.unknownType d.name d.type)
      | none =>
        if blockBytes symbols.uniforms.entries < wordBound then
          .ok (blockBytes symbols.uniforms.entries)
        else .error (.blockTooLarge (overflowName 0 symbols.uniforms.entries)) := by
  have htypes := settles_typedUniforms symbols
  rw [Settles, findSome?_require] at htypes
  rw [usedBytes]
  cases hfind : symbols.uniforms.entries.find? fun d => !decide d.HasKnownType with
  | some d =>
      rw [hfind, Option.map_some, refusal?_eq_some_iff] at htypes
      rw [htypes]
      rfl
  | none =>
      rw [hfind, Option.map_none, refusal?_eq_none_iff] at htypes
      obtain ⟨us, hus⟩ := htypes
      obtain ⟨hdeclared, htypes⟩ := typedUniforms_eq_ok hus
      have hsum := foldlM_addSize htypes (show 0 < wordBound by decide)
      rw [hdeclared, Nat.zero_add] at hsum
      rw [hus]
      exact hsum

/-- The uniform at which the exact sum stops being a word gives the error its name. -/
theorem overflowName_of_split {start : Nat} {before : List Declaration} {d : Declaration}
    (after : List Declaration) (hword : start + blockBytes before < wordBound)
    (hfirst : wordBound ≤ start + blockBytes (before ++ [d])) :
    overflowName start (before ++ d :: after) = d.name := by
  induction before generalizing start with
  | nil => exact overflowName_cons_of_le hword hfirst
  | cons e before ih =>
      rw [List.cons_append, blockBytes_cons, ← Nat.add_assoc] at hfirst
      rw [blockBytes_cons, ← Nat.add_assoc] at hword
      rw [List.cons_append, overflowName_cons_of_lt (by omega)]
      exact ih hword hfirst

theorem exists_split_of_le {start : Nat} {ds : List Declaration} (hstart : start < wordBound)
    (h : wordBound ≤ start + blockBytes ds) :
    ∃ before d after, ds = before ++ d :: after ∧ start + blockBytes before < wordBound ∧
      wordBound ≤ start + blockBytes (before ++ [d]) := by
  induction ds generalizing start with
  | nil => exact absurd hstart (Nat.not_lt.mpr h)
  | cons e ds ih =>
      by_cases hnext : start + e.bytes < wordBound
      · rw [blockBytes_cons, ← Nat.add_assoc] at h
        obtain ⟨before, d, after, rfl, hword, hfirst⟩ := ih hnext h
        refine ⟨e :: before, d, after, rfl, ?_, ?_⟩
        · rwa [blockBytes_cons, ← Nat.add_assoc]
        · rwa [List.cons_append, blockBytes_cons, ← Nat.add_assoc]
      · exact ⟨[], e, ds, rfl, hstart, Nat.not_lt.mp hnext⟩

theorem usedBytes_eq_iff {symbols : Symbols} {result : Except ConversionError Nat} :
    usedBytes symbols = result ↔ SizeAnswer symbols.uniforms.entries result := by
  rw [usedBytes_eq]
  constructor
  · rintro rfl
    split
    · next d hfind =>
      obtain ⟨hd, before, after, hsplit, hknown⟩ := List.find?_eq_some_iff_append.mp hfind
      exact .unknown before d after hsplit (by simpa using hknown) (by simpa using hd)
    · next hfind =>
      have hknown := find?_unknown_eq_none_iff.mp hfind
      split
      · next hword => exact .sum hknown hword
      · next hword =>
        obtain ⟨before, d, after, hsplit, hbefore, hfirst⟩ :=
          exists_split_of_le (show 0 < wordBound by decide) (by rwa [Nat.zero_add, ← Nat.not_lt])
        rw [hsplit, overflowName_of_split after hbefore hfirst, ← hsplit]
        rw [Nat.zero_add] at hbefore hfirst
        exact .tooLarge before d after hsplit hknown hbefore hfirst
  · rintro (⟨before, d, after, hsplit, hknown, hfirst⟩ | ⟨hknown, hword⟩ |
      ⟨before, d, after, hsplit, hknown, hword, hfirst⟩)
    · have hfind : (symbols.uniforms.entries.find? fun d => !decide d.HasKnownType) = some d :=
        List.find?_eq_some_iff_append.mpr
          ⟨by simpa using hfirst, before, after, hsplit, by simpa using hknown⟩
      rw [hfind]
    · rw [find?_unknown_eq_none_iff.mpr hknown]
      exact if_pos hword
    · have hsum : ¬blockBytes symbols.uniforms.entries < wordBound := by
        have hle := blockBytes_append (before ++ [d]) after
        rw [List.append_assoc, List.singleton_append, ← hsplit] at hle
        omega
      rw [find?_unknown_eq_none_iff.mpr hknown]
      simp only [if_neg hsum]
      rw [hsplit, overflowName_of_split after (by rwa [Nat.zero_add]) (by rwa [Nat.zero_add])]

namespace Planner

/-- The exact size of the uniforms of both stages. -/
def exactTotal (vertex fragment : Symbols) : Nat :=
  blockBytes vertex.uniforms.entries + blockBytes fragment.uniforms.entries

theorem totalBytes_eq_ok_iff {vertex fragment : Symbols} {total : Nat} :
    totalBytes vertex fragment = .ok total ↔
      (∀ d ∈ vertex.uniforms.entries ++ fragment.uniforms.entries, d.HasKnownType) ∧
        total = exactTotal vertex fragment ∧ total < wordBound := by
  rw [List.forall_mem_append]
  constructor
  · intro h
    have htotal := totalBytes_eq_sum h
    obtain ⟨v, hv, h⟩ := bind_eq_ok.mp h
    obtain ⟨f, hf, h⟩ := bind_eq_ok.mp h
    split at h
    · next n hsum =>
      cases h
      obtain ⟨hn, hword⟩ := checkedAdd_eq_some.mp hsum
      cases usedBytes_eq_iff.mp hv with
      | sum hvertex _ =>
          cases usedBytes_eq_iff.mp hf with
          | sum hfragment _ => exact ⟨⟨hvertex, hfragment⟩, htotal, hn ▸ hword⟩
    · cases h
  · rintro ⟨⟨hvertex, hfragment⟩, rfl, hword⟩
    rw [exactTotal] at hword
    have hv := usedBytes_eq_iff.mpr (SizeAnswer.sum hvertex (by omega))
    have hf := usedBytes_eq_iff.mpr (SizeAnswer.sum hfragment (by omega))
    rw [totalBytes, hv, hf]
    simp only [Except.bind, checkedAdd, if_pos hword]
    rfl

/-- What a new planner and the descriptors it leaves owe to the size of the stages. -/
structure Decided (total limit : Nat) (before : Descriptors) (p : Planner) (after : Descriptors) :
    Prop where
  strategy : p.strategy = .pushConstant ↔ total ≤ limit
  buffer : p.buffer =
    if p.strategy = .uniformBuffer then some ⟨before.set, before.next⟩ else none
  descriptors : after =
    if p.strategy = .uniformBuffer then { before with next := before.next + 1 } else before

theorem decided_of_new {vertex fragment : Symbols} {limit : Nat} {before after : Descriptors}
    {p : Planner} (h : new vertex fragment limit before = .ok (p, after)) :
    Decided (exactTotal vertex fragment) limit before p after := by
  have hstrategy := strategy_of_new h
  have hfresh := new_eq_fresh h
  rw [← exactTotal] at hstrategy
  by_cases hlimit : exactTotal vertex fragment ≤ limit
  · rw [Strategy.choose, if_pos hlimit] at hstrategy
    rw [hstrategy] at hfresh
    cases hfresh
    exact ⟨by simp [hlimit], rfl, rfl⟩
  · rw [Strategy.choose, if_neg hlimit] at hstrategy
    rw [hstrategy] at hfresh
    cases hfresh
    exact ⟨by simp [hlimit], rfl, rfl⟩

/-- The exact sizes answer for everything. A stage has its exact size, and is refused for its first
unknown type or for the first uniform at which the exact sum is no word. There is a planner exactly
when all types are known and the exact size of both stages is a word; it plans push constants exactly
when that size is within the limit, and takes a binding exactly when it plans a buffer. A request that
fails leaves the descriptors as they are. -/
theorem exact_sizes_decide (vertex fragment : Symbols) (limit : Nat) (descriptors : Descriptors) :
    (∀ symbols result, usedBytes symbols = result ↔
      SizeAnswer symbols.uniforms.entries result) ∧
    ((∃ p after, new vertex fragment limit descriptors = .ok (p, after)) ↔
      (∀ d ∈ vertex.uniforms.entries ++ fragment.uniforms.entries, d.HasKnownType) ∧
        exactTotal vertex fragment < wordBound) ∧
    (∀ p after, new vertex fragment limit descriptors = .ok (p, after) →
      (request vertex fragment limit).run.run descriptors = (.ok p, after) ∧
        Decided (exactTotal vertex fragment) limit descriptors p after) ∧
    (∀ e, new vertex fragment limit descriptors = .error e →
      (request vertex fragment limit).run.run descriptors = (.error e, descriptors)) := by
  refine ⟨fun symbols result => usedBytes_eq_iff, ?_, ?_, ?_⟩
  · constructor
    · rintro ⟨p, after, hnew⟩
      obtain ⟨total, htotal, -⟩ := map_eq_ok.mp hnew
      obtain ⟨hknown, rfl, hword⟩ := totalBytes_eq_ok_iff.mp htotal
      exact ⟨hknown, hword⟩
    · rintro ⟨hknown, hword⟩
      rw [new, totalBytes_eq_ok_iff.mpr ⟨hknown, rfl, hword⟩]
      exact ⟨_, _, rfl⟩
  · intro p after hnew
    rw [run_request, hnew]
    exact ⟨rfl, decided_of_new hnew⟩
  · intro e hnew
    rw [run_request, hnew]

/-- Two stages that take up all words but the last four, and one uniform more than that. -/
def edgeVertex : Symbols := Symbols.empty.insert ⟨.uniform, "mat4", "a", some 67108863⟩

def edgeFragment : Symbols :=
  (Symbols.empty.insert ⟨.uniform, "vec4", "b", some 3⟩).insert ⟨.uniform, "vec3", "c", none⟩

def overfullStage : Symbols := edgeVertex.insert ⟨.uniform, "vec4", "b", some 4⟩

theorem edge_sizes_decide :
    exactTotal edgeVertex edgeFragment = wordBound - 4 ∧
      SizeAnswer overfullStage.uniforms.entries (.error (.blockTooLarge "b")) ∧
      ∃ p after, new edgeVertex edgeFragment (wordBound - 5) ⟨0, 7⟩ = .ok (p, after) ∧
        p.strategy = .uniformBuffer ∧
        Decided (exactTotal edgeVertex edgeFragment) (wordBound - 5) ⟨0, 7⟩ p after := by
  obtain ⟨hsizes, hnew, hdecided, -⟩ :=
    exact_sizes_decide edgeVertex edgeFragment (wordBound - 5) ⟨0, 7⟩
  have htotal : exactTotal edgeVertex edgeFragment = wordBound - 4 := by decide +kernel
  have hover : usedBytes overfullStage = .error (.blockTooLarge "b") := by decide +kernel
  obtain ⟨p, after, hok⟩ := hnew.mpr (by decide +kernel)
  have hp := (hdecided p after hok).2
  refine ⟨htotal, (hsizes _ _).mp hover, p, after, hok, ?_, hp⟩
  cases hstrategy : p.strategy with
  | uniformBuffer => rfl
  | pushConstant =>
      have hle := hp.strategy.mp hstrategy
      rw [htotal] at hle
      exact absurd hle (by decide)

end Planner

end ShaderUplift
