import Mathlib.Data.List.Perm.Basic
import ShaderUplift.Proofs.Layout.Placing

/-! What planning a stage does when it succeeds: its uniforms are placed in the order of their
ranks, the offset is rounded up, and the layout lists the fields of the stage by offset. The fields
of the layout are those of the retained uniforms, one for each. -/

namespace ShaderUplift

open Text

namespace Planner

/-- The text that a stage adds to the members carried to the next stage. -/
def carriedBy (p : Planner) (placement : Placement) : String :=
  match p.strategy, p.buffer with
  | .uniformBuffer, some _ => memberText p.strategy placement.added
  | _, _ => ""

theorem byOffset_sorted (fs : List Field) :
    (byOffset fs).Pairwise fun f g => f.offset ≤ g.offset := by
  have hsorted := @List.pairwise_mergeSort Field (fun f g => decide (f.offset ≤ g.offset))
    (fun f g k hfg hgk => by simp only [decide_eq_true_eq] at *; omega)
    (fun f g => by simp only [Bool.or_eq_true, decide_eq_true_eq]; omega) fs
  exact hsorted.imp fun h => of_decide_eq_true h

/-- The stage with `symbols` is planned from `p` on and leaves `q` and its layout. -/
structure StagePlan (p : Planner) (symbols : Symbols) (q : Planner) (layout : StageLayout) where
  uniforms : List TypedUniform
  placed : Planner
  placement : Placement
  typed_eq : typedUniforms symbols = .ok uniforms
  place_eq : p.place (byRank uniforms) = (placed, .ok placement)
  fits : roundUp placed.offset < wordBound
  ended : q = { placed with
    offset := roundUp placed.offset, carried := placed.carried ++ placed.carriedBy placement }
  layout_eq : layout = ⟨byOffset placement.fields, q.block? (byOffset placement.fields)⟩

theorem stagePlan_of_planStage {p q : Planner} {symbols : Symbols} {layout : StageLayout}
    (h : p.planStage symbols = (q, .ok layout)) : Nonempty (StagePlan p symbols q layout) := by
  unfold planStage at h
  split at h
  · cases h
  · next us htyped =>
    split at h
    · cases h
    · next placed placement hplace =>
      unfold finish at h
      dsimp only at h
      split at h
      · next hfits =>
        simp only [Prod.mk.injEq, Except.ok.injEq] at h
        obtain ⟨hq, hlayout⟩ := h
        exact ⟨⟨us, placed, placement, htyped, hplace, hfits, hq.symm, hq ▸ hlayout.symm⟩⟩
      · cases h

namespace StagePlan

variable {p q : Planner} {symbols : Symbols} {layout : StageLayout}

theorem places (s : StagePlan p symbols q layout) :
    Places p (byRank s.uniforms) s.placed s.placement :=
  places_of_place s.place_eq

theorem strategy_eq (s : StagePlan p symbols q layout) : q.strategy = p.strategy := by
  rw [s.ended]
  exact s.places.frame.1

theorem buffer_eq (s : StagePlan p symbols q layout) : q.buffer = p.buffer := by
  rw [s.ended]
  exact s.places.frame.2.1

theorem carriedBy_eq (s : StagePlan p symbols q layout) :
    s.placed.carriedBy s.placement = p.carriedBy s.placement := by
  obtain ⟨hstrategy, hbuffer, -, -⟩ := s.places.frame
  rw [carriedBy, carriedBy, hstrategy, hbuffer]

theorem carried_eq (s : StagePlan p symbols q layout) :
    q.carried = p.carried ++ p.carriedBy s.placement := by
  have hended := congrArg Planner.carried s.ended
  rw [hended, ← s.carriedBy_eq, ← s.places.frame.2.2.1]

/-- The fields planned earlier stay, and the new ones come after them. -/
theorem fields_eq (s : StagePlan p symbols q layout) :
    q.fields = p.fields ++ s.placement.added :=
  (congrArg Planner.fields s.ended).trans s.places.fields_eq

theorem layout_fields (s : StagePlan p symbols q layout) :
    layout.fields = byOffset s.placement.fields :=
  congrArg StageLayout.fields s.layout_eq

theorem offset_mod (s : StagePlan p symbols q layout) : q.offset % stageAlignment = 0 := by
  rw [s.ended]
  exact roundUp_mod _

theorem packed (s : StagePlan p symbols q layout) (hp : p.Packed) : q.Packed := by
  rw [s.ended]
  exact (hp.places s.places).rounded s.fits _

theorem perm_placement (s : StagePlan p symbols q layout) :
    layout.fields.Perm s.placement.fields := by
  rw [s.layout_fields]
  exact List.mergeSort_perm _ _

theorem mem_fields (s : StagePlan p symbols q layout) {f : Field} (hf : f ∈ layout.fields) :
    f ∈ q.fields := by
  rw [s.ended]
  exact s.places.mem_fields (s.perm_placement.mem_iff.mp hf)

theorem ascending (s : StagePlan p symbols q layout) :
    layout.fields.Pairwise fun f g => f.offset ≤ g.offset := by
  rw [s.layout_fields]
  exact byOffset_sorted _

/-- Up to order, the fields have the shapes of the uniforms. -/
theorem perm_shape (s : StagePlan p symbols q layout) :
    (layout.fields.map Field.shape).Perm (s.uniforms.map TypedUniform.shape) := by
  have hplaced := s.perm_placement.map Field.shape
  rw [s.places.map_shape] at hplaced
  exact hplaced.trans ((List.mergeSort_perm _ _).map _)

/-- Up to order, the fields have the names, types and lengths of the declarations. -/
theorem perm_declared (s : StagePlan p symbols q layout) :
    (layout.fields.map fun f => (f.name, f.type.name, f.arrayLength)).Perm
      (symbols.uniforms.entries.map fun d => (d.name, d.type, d.arrayLength)) := by
  obtain ⟨hdecl, htype⟩ := typedUniforms_eq_ok s.typed_eq
  have h := s.perm_shape.map fun x => (x.1, x.2.1.name, x.2.2)
  rw [List.map_map, List.map_map] at h
  have huniforms : s.uniforms.map ((fun x => (x.1, x.2.1.name, x.2.2)) ∘ TypedUniform.shape) =
      symbols.uniforms.entries.map fun d => (d.name, d.type, d.arrayLength) := by
    rw [← hdecl, List.map_map]
    refine List.map_congr_left fun u hu => ?_
    simp only [Function.comp_apply, TypedUniform.shape, htype u hu]
  rw [huniforms] at h
  exact h

theorem names_perm (s : StagePlan p symbols q layout) :
    (layout.fields.map Field.name).Perm symbols.uniforms.names := by
  have h := s.perm_declared.map Prod.fst
  rw [List.map_map, List.map_map] at h
  exact h

theorem names_nodup (s : StagePlan p symbols q layout) : (layout.fields.map Field.name).Nodup :=
  s.names_perm.nodup_iff.mpr symbols.uniforms.nodup

theorem exists_field (s : StagePlan p symbols q layout) {d : Declaration}
    (hd : d ∈ symbols.uniforms.entries) :
    ∃ f ∈ layout.fields, f.name = d.name ∧ f.type.name = d.type ∧ f.arrayLength = d.arrayLength := by
  have hmem := s.perm_declared.mem_iff.mpr (List.mem_map_of_mem hd)
  obtain ⟨f, hf, heq⟩ := List.mem_map.mp hmem
  simp only [Prod.mk.injEq] at heq
  exact ⟨f, hf, heq⟩

theorem exists_declaration (s : StagePlan p symbols q layout) {f : Field}
    (hf : f ∈ layout.fields) :
    ∃ d ∈ symbols.uniforms.entries,
      f.name = d.name ∧ f.type.name = d.type ∧ f.arrayLength = d.arrayLength := by
  have hmem := s.perm_declared.mem_iff.mp (List.mem_map_of_mem hf)
  obtain ⟨d, hd, heq⟩ := List.mem_map.mp hmem
  simp only [Prod.mk.injEq] at heq
  exact ⟨d, hd, heq.1.symm, heq.2.1.symm, heq.2.2.symm⟩

end StagePlan

end Planner

end ShaderUplift
