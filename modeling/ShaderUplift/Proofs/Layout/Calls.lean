import ShaderUplift.Proofs.Strategy

/-! Any sequence of stages planned by one planner, whether they succeed or fail. A stage that fails
has placed the uniforms before the failure and keeps them, at an offset that is not rounded up; the
next stage goes on from there. What a call does is therefore always a placement, with or without the
rounding at its end, and both keep the planner packed. -/

namespace ShaderUplift

open Text

/-- The fields follow one another without a gap from `start` to `stop`. -/
def Stacked : Nat → List Field → Nat → Prop
  | start, [], stop => stop = start
  | start, f :: fs, stop => f.offset = start ∧ Stacked f.stop fs stop

theorem Stacked.start_le_stop {start stop : Nat} {fs : List Field} (h : Stacked start fs stop) :
    start ≤ stop := by
  induction fs generalizing start with
  | nil => exact Nat.le_of_eq h.symm
  | cons f fs ih =>
      obtain ⟨hoffset, hrest⟩ := h
      calc start = f.offset := hoffset.symm
        _ ≤ f.stop := Nat.le_add_right _ _
        _ ≤ stop := ih hrest

namespace Planner

/-- What a call on `p` leaves behind, whatever its result. -/
structure Grown (p : Planner) (outcome : Planner × Except ConversionError StageLayout) : Prop where
  kept : p.fields <+: outcome.1.fields
  distinct : (outcome.1.fields.map Field.name).Nodup
  ordered : outcome.1.fields.Pairwise fun f g => f.EndsBy g.offset
  inside : ∀ f ∈ outcome.1.fields, f.EndsBy outcome.1.offset
  not_less : p.offset ≤ outcome.1.offset
  /-- The offset is a word, and so is the exact end of every field. -/
  words : outcome.1.offset < wordBound ∧ ∀ f ∈ outcome.1.fields, f.stop? = some f.stop
  /-- The new fields lie one behind the other from the old offset on; only a call that succeeds
  rounds their exact end up. -/
  exact_end : ∃ added stop, outcome.1.fields = p.fields ++ added ∧ Stacked p.offset added stop ∧
    outcome.1.offset = if outcome.2.isOk then roundUp stop else stop
  aligned : outcome.2.isOk = true → outcome.1.offset % 16 = 0

/-- The planner after some calls; a call that fails counts with what it has changed. -/
def planAll (p : Planner) (calls : List Symbols) : Planner :=
  calls.foldl (fun q symbols => (q.planStage symbols).1) p

/-- Placing that stops early has placed the uniforms before the one that it stops at. -/
theorem exists_places (p : Planner) (us : List TypedUniform) :
    ∃ vs r, vs <+: us ∧ Places p vs (p.place us).1 r := by
  induction us generalizing p with
  | nil => exact ⟨[], _, List.nil_prefix, Places.nil p⟩
  | cons u us ih =>
      have hstop : ∃ vs r, vs <+: u :: us ∧ Places p vs p r :=
        ⟨[], _, List.nil_prefix, Places.nil p⟩
      rw [place]
      split
      · next f hf =>
        split
        · next hagree =>
          have hname : f.name = u.1.name := by simpa using List.find?_some hf
          obtain ⟨htype, hlength⟩ := agrees_iff.mp hagree
          have hshape : f.shape = u.shape := by
            simp only [Field.shape, TypedUniform.shape, hname, htype, hlength]
          obtain ⟨vs, r, hvs, hplaces⟩ := ih p
          exact ⟨u :: vs, _, List.cons_prefix_cons.mpr ⟨rfl, hvs⟩,
            Places.reuse (List.mem_of_find?_eq_some hf) hshape hplaces⟩
        · exact hstop
      · next hnone =>
        dsimp only
        split
        · next stop hend =>
          obtain ⟨rfl, hfits⟩ := Field.stop?_eq_some_iff.mp hend
          have hnew : u.1.name ∉ p.fields.map Field.name := lookup_eq_none_iff.mp hnone
          obtain ⟨vs, r, hvs, hplaces⟩ := ih (p.push u)
          exact ⟨u :: vs, _, List.cons_prefix_cons.mpr ⟨rfl, hvs⟩,
            Places.fresh hnew hfits hplaces⟩
        · exact hstop

/-- A call places uniforms, and when it succeeds it rounds the offset up as well. -/
theorem planStage_cases (p : Planner) (symbols : Symbols) :
    ∃ us placed r, Places p us placed r ∧
      ((∃ e, p.planStage symbols = (placed, .error e)) ∨
        ∃ carried layout, roundUp placed.offset < wordBound ∧
          p.planStage symbols =
            ({ placed with offset := roundUp placed.offset, carried := carried }, .ok layout)) := by
  unfold planStage
  split
  · next e _ => exact ⟨[], p, _, Places.nil p, Or.inl ⟨e, rfl⟩⟩
  · next us _ =>
    obtain ⟨vs, r, -, hplaces⟩ := p.exists_places (byRank us)
    refine ⟨vs, (p.place (byRank us)).1, r, hplaces, ?_⟩
    split
    · next e hplace =>
      rw [hplace]
      exact Or.inl ⟨e, rfl⟩
    · next placed placement hplace =>
      rw [hplace, finish]
      dsimp only
      split
      · next hfits => exact Or.inr ⟨_, _, hfits, rfl⟩
      · exact Or.inl ⟨_, rfl⟩

theorem Places.stacked {p q : Planner} {us : List TypedUniform} {r : Placement}
    (h : Places p us q r) : Stacked p.offset r.added q.offset := by
  induction h with
  | nil p => rfl
  | reuse _ _ _ ih => exact ih
  | fresh _ _ _ ih => exact ⟨rfl, ih⟩

/-- A packed planner has sized fields in order, each of which ends at a word. -/
theorem Packed.sized {p : Planner} (hp : p.Packed) :
    (p.fields.Pairwise fun f g => f.EndsBy g.offset) ∧ (∀ f ∈ p.fields, f.EndsBy p.offset) ∧
      ∀ f ∈ p.fields, f.stop? = some f.stop := by
  refine ⟨hp.apart.imp_of_mem fun hf _ hstop => ?_, fun f hf => ?_, fun f hf => ?_⟩
  · exact (Field.endsBy_iff (hp.size?_eq hf)).mpr hstop
  · exact (Field.endsBy_iff (hp.size?_eq hf)).mpr (hp.inside f hf)
  · exact Field.stop?_eq_some_iff.mpr ⟨rfl, Nat.lt_of_le_of_lt (hp.inside f hf) hp.word⟩

/-- One call keeps a planner packed and extends it. -/
theorem Packed.planStage {p : Planner} (hp : p.Packed) (symbols : Symbols) :
    (p.planStage symbols).1.Packed ∧ p.Grown (p.planStage symbols) := by
  obtain ⟨us, placed, r, hplaces, hcall⟩ := p.planStage_cases symbols
  have hplaced := hp.places hplaces
  have hstacked := hplaces.stacked
  have hkept : p.fields <+: placed.fields := ⟨r.added, hplaces.fields_eq.symm⟩
  rcases hcall with ⟨e, heq⟩ | ⟨carried, layout, hfits, heq⟩
  · rw [heq]
    obtain ⟨hordered, hinside, hstops⟩ := hplaced.sized
    exact ⟨hplaced, hkept, hplaced.distinct, hordered, hinside, hstacked.start_le_stop,
      ⟨hplaced.word, hstops⟩, ⟨r.added, placed.offset, hplaces.fields_eq, hstacked, rfl⟩, nofun⟩
  · have hrounded := hplaced.rounded hfits carried
    rw [heq]
    obtain ⟨hordered, hinside, hstops⟩ := hrounded.sized
    exact ⟨hrounded, hkept, hrounded.distinct, hordered, hinside,
      Nat.le_trans hstacked.start_le_stop (le_roundUp _), ⟨hrounded.word, hstops⟩,
      ⟨r.added, placed.offset, hplaces.fields_eq, hstacked, rfl⟩, fun _ => roundUp_mod _⟩

theorem Packed.planAll {p : Planner} (hp : p.Packed) (calls : List Symbols) :
    (p.planAll calls).Packed :=
  List.foldlRecOn calls _ hp fun _ hq symbols _ => (hq.planStage symbols).1

/-- After any calls, successful or failing, the next call on a new planner keeps all fields and adds
others behind them. Names are distinct, every field has a size and ends at or before the next one and
the offset, which never gets less, no sum leaves the words, and a call that succeeds ends at a
multiple of 16. -/
theorem grown_after_calls {vertex fragment : Symbols} {limit : Nat}
    {descriptors descriptors' : Descriptors} {p : Planner}
    (h : new vertex fragment limit descriptors = .ok (p, descriptors')) (calls : List Symbols)
    (symbols : Symbols) :
    (p.planAll calls).Grown ((p.planAll calls).planStage symbols) :=
  (((packed_of_new h).planAll calls).planStage symbols).2

/-- Three stages, of which the second fails when `b` is placed: its end is a word, but not when it is
rounded up. -/
def firstStage : Symbols := Symbols.empty.insert ⟨.uniform, "vec3", "a", none⟩

def failingStage : Symbols := Symbols.empty.insert ⟨.uniform, "float", "b", some 1073741818⟩

def lastStage : Symbols := Symbols.empty.insert ⟨.uniform, "int", "c", none⟩

theorem grown_after_failing_stage :
    ∃ p descriptors, new firstStage lastStage 128 ⟨0, 0⟩ = .ok (p, descriptors) ∧
      ((p.planAll [firstStage]).planStage failingStage).2.isOk = false ∧
      (p.planAll [firstStage, failingStage]).offset = wordBound - 8 ∧
      (p.planAll [firstStage, failingStage]).Grown
        ((p.planAll [firstStage, failingStage]).planStage lastStage) := by
  have hok : ((new firstStage lastStage 128 ⟨0, 0⟩).toOption.any fun r =>
      ((r.1.planAll [firstStage]).planStage failingStage).2.isOk = false ∧
        (r.1.planAll [firstStage, failingStage]).offset = wordBound - 8) = true := by
    decide +kernel
  obtain ⟨⟨p, descriptors⟩, hnew, hcalls⟩ := exists_ok_of_any hok
  obtain ⟨hfails, hoffset⟩ := of_decide_eq_true hcalls
  exact ⟨p, descriptors, hnew, hfails, hoffset, grown_after_calls hnew _ _⟩

end Planner

end ShaderUplift
