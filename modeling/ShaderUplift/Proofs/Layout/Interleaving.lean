import ShaderUplift.Proofs.Layout.Room

/-! The order of the declarations of a stage. Planning looks at the uniforms in descending order of
their types and, within a type, in their own order. So how the uniforms of different types are
interleaved changes nothing: neither the layout or the error, nor the planner that is left, whatever
the planner before. -/

namespace ShaderUplift

/-- The declarations of one type stand in `es` in the order that they have in `ds`. -/
def KeepsOrderOfTypes (ds es : List Declaration) : Prop :=
  ∀ d ∈ ds, ∀ e ∈ ds, d.type = e.type → [d, e].Sublist ds → [d, e].Sublist es

instance (ds es : List Declaration) : Decidable (KeepsOrderOfTypes ds es) :=
  inferInstanceAs (Decidable
    (∀ d ∈ ds, ∀ e ∈ ds, d.type = e.type → [d, e].Sublist ds → [d, e].Sublist es))

/-- Of two elements of a list without repetitions only one comes before the other. -/
theorem not_sublist_swap {α : Type} {l : List α} (h : l.Nodup) {a b : α}
    (hab : [a, b].Sublist l) : ¬[b, a].Sublist l := by
  induction l with
  | nil => cases hab
  | cons c l ih =>
      obtain ⟨hc, hl⟩ := List.nodup_cons.mp h
      intro hba
      rcases List.sublist_cons_iff.mp hab with habTail | ⟨_, hfirst, hb⟩
      · rcases List.sublist_cons_iff.mp hba with hbaTail | ⟨_, hfirst, -⟩
        · exact ih hl habTail hbaTail
        · cases hfirst
          exact hc (habTail.subset (List.mem_cons_of_mem a List.mem_cons_self))
      · cases hfirst
        rcases List.sublist_cons_iff.mp hba with hbaTail | ⟨_, hfirst, -⟩
        · exact hc (hbaTail.subset (List.mem_cons_of_mem b List.mem_cons_self))
        · cases hfirst
          exact hc (List.singleton_sublist.mp hb)

/-- Declarations that are rearranged without changing the order within a type are, for each type, the
same list. -/
theorem filter_eq_of_keepsOrder {ds es : List Declaration} (hnodup : ds.Nodup) (hperm : ds.Perm es)
    (horder : KeepsOrderOfTypes ds es) (type : String) :
    ds.filter (fun d => d.type = type) = es.filter fun d => d.type = type := by
  have hantisymm : ∀ d e, [d, e].Sublist es → [e, d].Sublist es → d = e := by
    intro d e hde hed
    exact absurd hed (not_sublist_swap (hperm.nodup_iff.mp hnodup) hde)
  apply List.Perm.eq_of_pairwise (fun d e _ _ => hantisymm d e)
  · rw [List.pairwise_iff_forall_sublist]
    intro d e hde
    have hd := List.mem_filter.mp (hde.subset (List.mem_cons_self (a := d)))
    have he := List.mem_filter.mp (hde.subset (by simp) : e ∈ _)
    apply horder d hd.1 e he.1
    · rw [of_decide_eq_true hd.2, of_decide_eq_true he.2]
    · exact hde.trans List.filter_sublist
  · rw [List.pairwise_iff_forall_sublist]
    intro d e hde
    exact hde.trans List.filter_sublist
  · exact hperm.filter _

/-- Typed uniforms are determined by their declarations. -/
theorem eq_of_map_fst_eq {us vs : List TypedUniform} (hus : ∀ u ∈ us, u.2.name = u.1.type)
    (hvs : ∀ v ∈ vs, v.2.name = v.1.type) (h : us.map Prod.fst = vs.map Prod.fst) : us = vs := by
  induction us generalizing vs with
  | nil => exact (List.map_eq_nil_iff.mp h.symm).symm
  | cons u us ih =>
      cases vs with
      | nil => cases h
      | cons v vs =>
          obtain ⟨hu, hus⟩ := List.forall_mem_cons.mp hus
          obtain ⟨hv, hvs⟩ := List.forall_mem_cons.mp hvs
          obtain ⟨hfirst, hrest⟩ := List.cons.inj h
          have htype : u.2 = v.2 := by
            apply ValueType.name_inj.mp
            rw [hu, hv, hfirst]
          rw [Prod.ext hfirst htype, ih hus hvs hrest]

namespace Planner

/-- Uniforms of known types have their types looked up. -/
theorem exists_typedUniforms {symbols : Symbols}
    (h : ∀ d ∈ symbols.uniforms.entries, d.HasKnownType) :
    ∃ us, typedUniforms symbols = .ok us := by
  rw [(settles_typedUniforms symbols).ok_iff]
  intro r hr
  obtain ⟨d, hd, rfl⟩ := List.mem_map.mp hr
  exact require_eq_none_iff.mpr (h d hd)

/-- A stage is planned in the same way when its uniforms are declared in another order that keeps the
order within each type: the result, be it a layout or an error, and the planner that is left are the
same. -/
theorem planStage_of_interleaving (p : Planner) {symbols symbols' : Symbols}
    (hknown : ∀ d ∈ symbols.uniforms.entries, d.HasKnownType)
    (hperm : symbols.uniforms.entries.Perm symbols'.uniforms.entries)
    (horder : KeepsOrderOfTypes symbols.uniforms.entries symbols'.uniforms.entries) :
    p.planStage symbols = p.planStage symbols' := by
  obtain ⟨us, hus⟩ := exists_typedUniforms hknown
  obtain ⟨vs, hvs⟩ := exists_typedUniforms fun d hd => hknown d (hperm.mem_iff.mpr hd)
  obtain ⟨husDeclared, husTypes⟩ := typedUniforms_eq_ok hus
  obtain ⟨hvsDeclared, hvsTypes⟩ := typedUniforms_eq_ok hvs
  have hnodup : symbols.uniforms.entries.Nodup := symbols.uniforms.nodup.of_map
  have hsame : byDescendingType symbols.uniforms.entries =
      byDescendingType symbols'.uniforms.entries :=
    List.flatMap_congr fun t _ => filter_eq_of_keepsOrder hnodup hperm horder t.name
  have hsorted : byRank us = byRank vs := by
    apply eq_of_map_fst_eq (fun u hu => ((byRank_spec hus).1 u hu).2)
      (fun v hv => ((byRank_spec hvs).1 v hv).2)
    calc (byRank us).map Prod.fst = byDescendingType symbols.uniforms.entries := by
          rw [map_fst_byRank husTypes, husDeclared]
      _ = byDescendingType symbols'.uniforms.entries := hsame
      _ = (byRank vs).map Prod.fst := by rw [map_fst_byRank hvsTypes, hvsDeclared]
  rw [planStage, planStage, hus, hvs]
  simp only [hsorted]

/-- A planner in which `b` is an integer. -/
def bufferPlanner : Planner :=
  ⟨.uniformBuffer, some ⟨0, 0⟩, 16, [⟨"b", .int, none, 0⟩], "    int b;\n"⟩

/-- A stage that declares `b` anew between two vectors. -/
def conflictStage : Symbols :=
  ((Symbols.empty.insert ⟨.uniform, "vec4", "a", none⟩).insert
    ⟨.uniform, "float", "b", none⟩).insert ⟨.uniform, "vec4", "c", none⟩

/-- The same declarations with `b` in front of the vectors. -/
def conflictFirstStage : Symbols :=
  ((Symbols.empty.insert ⟨.uniform, "float", "b", none⟩).insert
    ⟨.uniform, "vec4", "a", none⟩).insert ⟨.uniform, "vec4", "c", none⟩

/-- The conflict on `b` is met after the vectors are placed, in either order of the declarations. -/
theorem conflictStage_interleaved :
    (∀ d ∈ conflictStage.uniforms.entries, d.HasKnownType) ∧
      conflictStage.uniforms.entries.Perm conflictFirstStage.uniforms.entries ∧
      KeepsOrderOfTypes conflictStage.uniforms.entries conflictFirstStage.uniforms.entries ∧
      bufferPlanner.planStage conflictStage = bufferPlanner.planStage conflictFirstStage := by
  have hknown : ∀ d ∈ conflictStage.uniforms.entries, d.HasKnownType := by decide +kernel
  have hperm : conflictStage.uniforms.entries.Perm conflictFirstStage.uniforms.entries := by
    decide +kernel
  have horder : KeepsOrderOfTypes conflictStage.uniforms.entries
      conflictFirstStage.uniforms.entries := by decide +kernel
  exact ⟨hknown, hperm, horder, planStage_of_interleaving bufferPlanner hknown hperm horder⟩

end Planner

end ShaderUplift
