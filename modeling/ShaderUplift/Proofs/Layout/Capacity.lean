import ShaderUplift.Proofs.Strategy

/-! The room that a pair can need. A kept array has at most `maxArrayLength` elements, so a uniform
takes up at most `maxUniformBytes`, and fewer than 16384 uniforms leave the last of these to the
rounding at the end of each stage: no sum, offset or end that is checked can fail to be a word. -/

namespace ShaderUplift

open Text

/-- The size of the longest array of the largest type. -/
def maxUniformBytes : Nat := ValueType.mat4.size * maxArrayLength

theorem ValueType.size_le (t : ValueType) : t.size ≤ ValueType.mat4.size := by
  cases t <;> decide

theorem bytes_le_of_validLength {d : Declaration} (h : ValidLength d.arrayLength) :
    d.bytes ≤ maxUniformBytes := by
  have hlength : d.arrayLength.getD 1 ≤ maxArrayLength := by
    cases hd : d.arrayLength with
    | none => decide
    | some n => exact (h n hd).2
  have hsize : (ValueType.ofName? d.type).elim 0 ValueType.size ≤ ValueType.mat4.size := by
    cases ValueType.ofName? d.type with
    | none => exact Nat.zero_le _
    | some t => exact t.size_le
  exact Nat.mul_le_mul hsize hlength

theorem blockBytes_le_mul_length {ds : List Declaration} {most : Nat}
    (h : ∀ d ∈ ds, d.bytes ≤ most) : blockBytes ds ≤ most * ds.length := by
  induction ds with
  | nil => exact Nat.zero_le _
  | cons d ds ih =>
      obtain ⟨hd, hds⟩ := List.forall_mem_cons.mp h
      have hrest := ih hds
      rw [blockBytes_cons, List.length_cons, Nat.mul_succ]
      omega

/-- No uniform is counted for two types. -/
theorem blockBytes_flatMap_le {ts : List ValueType} (hts : ts.Nodup) (ds : List Declaration) :
    blockBytes (ts.flatMap fun t => ds.filter fun d => d.type = t.name) ≤ blockBytes ds := by
  induction ts generalizing ds with
  | nil => exact Nat.zero_le _
  | cons t ts ih =>
      obtain ⟨ht, hts⟩ := List.nodup_cons.mp hts
      have hsplit := blockBytes_perm (List.filter_append_perm (fun d => d.type = t.name) ds)
      rw [blockBytes_append] at hsplit
      have hothers : (ts.flatMap fun s => ds.filter fun d => d.type = s.name) =
          ts.flatMap fun s => (ds.filter fun d => !decide (d.type = t.name)).filter
            fun d => d.type = s.name := by
        refine List.flatMap_congr fun s hs => ?_
        rw [List.filter_filter]
        refine List.filter_congr fun d _ => ?_
        have hne : s ≠ t := fun heq => ht (heq ▸ hs)
        by_cases hd : d.type = s.name
        · simp [hd, ValueType.name_inj, hne]
        · simp [hd]
      rw [List.flatMap_cons, blockBytes_append, hothers]
      have hrest := ih hts (ds.filter fun d => !decide (d.type = t.name))
      omega

theorem blockBytes_byDescendingType_le (ds : List Declaration) :
    blockBytes (byDescendingType ds) ≤ blockBytes ds :=
  blockBytes_flatMap_le (by decide) ds

section Room

variable {vertex fragment : Symbols}

theorem blockTooLarge_not_mem_sizeRequirements {ds : List Declaration}
    (h : blockBytes ds < wordBound) (name : String) :
    some (.blockTooLarge name) ∉ sizeRequirements ds := by
  intro hmem
  rcases List.mem_append.mp hmem with hmem | hmem
  · obtain ⟨d, -, hd⟩ := List.mem_map.mp hmem
    cases (require_eq_some_iff.mp hd).2
  · exact (require_eq_some_iff.mp (List.mem_singleton.mp hmem).symm).1 h

theorem blockTooLarge_not_mem_uniformRequirements
    (h : roundUp (blockBytes vertex.uniforms.entries) + blockBytes fragment.uniforms.entries +
      stageAlignment ≤ wordBound) (name : String) :
    some (.blockTooLarge name) ∉ uniformRequirements vertex fragment := by
  have horder := blockBytes_byDescendingType_le fragment.uniforms.entries
  intro hmem
  rcases List.mem_append.mp hmem with hmem | hmem
  · refine forall_mem_eachAfter (P := fun r => r ≠ some (.blockTooLarge name)) ?_ _ hmem rfl
    intro before d after heq hd
    rw [List.nil_append, uniformRequirement] at hd
    split at hd
    · cases (require_eq_some_iff.mp hd).2
    · apply (require_eq_some_iff.mp hd).1
      have hpart := blockEnd_le vertex (before ++ [d])
      have hwhole := blockBytes_append (before ++ [d]) after
      rw [List.append_assoc, List.singleton_append, ← heq] at hwhole
      simp only [stageAlignment] at h
      omega
  · apply (require_eq_some_iff.mp (List.mem_singleton.mp hmem).symm).1
    have hend := blockEnd_le vertex (byDescendingType fragment.uniforms.entries)
    calc roundUp (blockEnd vertex (byDescendingType fragment.uniforms.entries))
        < blockEnd vertex (byDescendingType fragment.uniforms.entries) + stageAlignment :=
          roundUp_lt _
      _ ≤ wordBound := by omega

/-- Two stages whose sizes leave room for the rounding of both are refused for other reasons only. -/
theorem blockTooLarge_not_mem_symbolRequirements
    (h : blockBytes vertex.uniforms.entries + blockBytes fragment.uniforms.entries +
      2 * stageAlignment ≤ wordBound) (name : String) :
    some (.blockTooLarge name) ∉ symbolRequirements vertex fragment := by
  have hround := roundUp_lt (blockBytes vertex.uniforms.entries)
  simp only [stageAlignment] at h hround
  intro hmem
  simp only [symbolRequirements, sumRequirements, List.mem_append, List.mem_singleton] at hmem
  rcases hmem with (hmem | hmem | hmem) | hmem | hmem | hmem
  · exact blockTooLarge_not_mem_sizeRequirements (by omega) name hmem
  · exact blockTooLarge_not_mem_sizeRequirements (by omega) name hmem
  · exact (require_eq_some_iff.mp hmem.symm).1 (by omega)
  · exact (require_eq_some_iff.mp hmem.symm).1 (by omega)
  · obtain ⟨d, -, hd⟩ := List.mem_map.mp hmem
    cases (require_eq_some_iff.mp hd).2
  · refine blockTooLarge_not_mem_uniformRequirements ?_ name hmem
    simp only [stageAlignment]
    omega

end Room

theorem blockBytes_of_parse {source : String} {stage : Stage} {unit : ShaderUnit}
    (h : (ShaderUnit.parse source stage).1 = .ok unit) :
    blockBytes unit.symbols.uniforms.entries ≤ maxUniformBytes * unit.symbols.uniforms.size :=
  blockBytes_le_mul_length fun _ hd => bytes_le_of_validLength (validLength_of_mem_uniforms h hd)

/-- The arrays that a stage keeps have from 1 to 4096 elements, and no varying that it keeps is an
array. -/
structure ShaderUnit.ShortArrays (unit : ShaderUnit) : Prop where
  length : ∀ kind, ∀ d ∈ (unit.symbols.table kind).entries, ∀ n, d.arrayLength = some n →
    1 ≤ n ∧ n ≤ 4096
  varying : ∀ d ∈ unit.symbols.varyings.entries, d.arrayLength = none

theorem ShaderUnit.shortArrays_of_parse {source : String} {stage : Stage} {unit : ShaderUnit}
    (h : (ShaderUnit.parse source stage).1 = .ok unit) : unit.ShortArrays where
  length kind _ hd n hn := validLength_of_mem_table h kind hd n hn
  varying _ hd := arrayLength_of_mem_varyings h hd

/-- The stages of a pair keep short arrays only, and fewer than 16384 uniforms of both together are
never refused as too large, whatever the options are. -/
theorem convertPair_never_too_large {vertexSource fragmentSource : String}
    {vertex fragment : ShaderUnit}
    (hvertex : (ShaderUnit.parse vertexSource .vertex).1 = .ok vertex)
    (hfragment : (ShaderUnit.parse fragmentSource .fragment).1 = .ok fragment) :
    vertex.ShortArrays ∧ fragment.ShortArrays ∧
      (vertex.symbols.uniforms.size + fragment.symbols.uniforms.size < 16384 →
        ∀ options name,
          (convertPair vertexSource fragmentSource options).1 ≠ .error (.blockTooLarge name)) := by
  refine ⟨ShaderUnit.shortArrays_of_parse hvertex, ShaderUnit.shortArrays_of_parse hfragment, ?_⟩
  intro hcount options name herror
  have hbytes := blockBytes_of_parse hvertex
  have hbytes' := blockBytes_of_parse hfragment
  have hroom : blockBytes vertex.symbols.uniforms.entries +
      blockBytes fragment.symbols.uniforms.entries + 2 * stageAlignment ≤ wordBound := by
    have hmax : maxUniformBytes = 262144 := rfl
    simp only [hmax, stageAlignment, wordBound] at *
    omega
  rw [convertPair_fst, hvertex, hfragment] at herror
  obtain ⟨before, after, hsplit, -⟩ :=
    (settles_convertUnits hvertex hfragment options).error_iff.mp herror
  refine blockTooLarge_not_mem_symbolRequirements hroom name ?_
  rw [hsplit]
  exact List.mem_append_right _ List.mem_cons_self

/-- A vertex stage with the longest array, and a fragment stage whose uniform has an unknown type. -/
def longVertex : String :=
  "uniform mat4 bones[4096];\nvarying vec2 w[2];\nvoid main()\x7bw[1]=p;gl_Position=bones[0];\x7d"

def oddFragment : String := "uniform ivec9 odd;\nvoid main()\x7bgl_FragColor=odd;\x7d"

theorem long_never_too_large :
    ∃ vertex fragment, (ShaderUnit.parse longVertex .vertex).1 = .ok vertex ∧
      (ShaderUnit.parse oddFragment .fragment).1 = .ok fragment ∧
      vertex.symbols.uniforms.entries = [⟨.uniform, "mat4", "bones", some 4096⟩] ∧
      vertex.ShortArrays ∧ ∀ options name,
        (convertPair longVertex oddFragment options).1 ≠ .error (.blockTooLarge name) := by
  have hvertex : ((ShaderUnit.parse longVertex .vertex).1.toOption.any fun unit =>
      unit.symbols.uniforms.entries = [⟨.uniform, "mat4", "bones", some 4096⟩]) = true := by
    decide +kernel
  have hfragment : ((ShaderUnit.parse oddFragment .fragment).1.toOption.any fun unit =>
      unit.symbols.uniforms.size = 1) = true := by
    decide +kernel
  obtain ⟨vertex, hvertex, hone⟩ := exists_ok_of_any hvertex
  obtain ⟨fragment, hfragment, hother⟩ := exists_ok_of_any hfragment
  have hone := of_decide_eq_true hone
  have hother := of_decide_eq_true hother
  obtain ⟨hshort, -, hfits⟩ := convertPair_never_too_large hvertex hfragment
  refine ⟨vertex, fragment, hvertex, hfragment, hone, hshort, hfits ?_⟩
  rw [hother, Table.size, hone]
  decide

end ShaderUplift
