import Mathlib.Data.List.DropRight
import ShaderUplift.Files.Store

/-! Paths by their components. The names in a folder are texts without slashes, other than one or two
dots, so the path of a place has the names of the place as its components. Whatever slashes and dots a
path is written with, a source that stands somewhere below a folder has its result at the same place
below another folder, under its stem with a new extension; only a stem that is a single dot leaves no
name for the result. -/

namespace ShaderUplift.Files

/-- What may be the name of a file or folder. -/
structure ValidName (name : String) : Prop where
  slash : '/' ∉ name.toList
  idle : isIdle name.toList = false
  parent : name.toList ≠ ['.', '.']

instance (name : String) : Decidable (ValidName name) :=
  decidable_of_iff
    ('/' ∉ name.toList ∧ isIdle name.toList = false ∧ name.toList ≠ ['.', '.'])
    ⟨fun h => ⟨h.1, h.2.1, h.2.2⟩, fun h => ⟨h.slash, h.idle, h.parent⟩⟩

/-- Every name on the way to a file or folder is valid. -/
def Store.WellNamed (s : Store) : Prop := ∀ e ∈ s.nodes, ∀ name ∈ e.1, ValidName name

instance (s : Store) : Decidable s.WellNamed :=
  inferInstanceAs (Decidable (∀ e ∈ s.nodes, ∀ name ∈ e.1, ValidName name))

theorem slash_not_mem_of_mem_splitOn {cs p : List Char} (h : p ∈ cs.splitOn '/') : '/' ∉ p := by
  induction cs generalizing p with
  | nil =>
      rw [List.mem_singleton.mp h]
      exact List.not_mem_nil
  | cons c cs ih =>
      rw [List.splitOn_cons_eq_if_modifyHead] at h
      split at h
      · rcases List.mem_cons.mp h with rfl | h
        · exact List.not_mem_nil
        · exact ih h
      · next hc =>
        obtain ⟨q, qs, hcs⟩ := List.exists_cons_of_ne_nil (List.splitOn_ne_nil '/' cs)
        rw [hcs, List.modifyHead_cons] at h
        rw [hcs] at ih
        rcases List.mem_cons.mp h with rfl | h
        · rw [List.mem_cons, not_or]
          exact ⟨fun hslash => hc (beq_iff_eq.mpr hslash.symm), ih List.mem_cons_self⟩
        · exact ih (List.mem_cons_of_mem _ h)

theorem Path.intercalate_pieces (p : Path) : ['/'].intercalate p.pieces = p.chars :=
  List.intercalate_splitOn '/'

theorem Path.ofChars_intercalate_pieces (p : Path) :
    Path.ofChars (['/'].intercalate p.pieces) = p := by
  rw [p.intercalate_pieces, Path.ofChars, Path.chars, String.ofList_toList]

/-- All pieces but the last one are written with a slash after them. -/
theorem intercalate_slash_concat (ps : List (List Char)) (p : List Char) :
    ['/'].intercalate (ps ++ [p]) = ps.flatMap (· ++ ['/']) ++ p := by
  induction ps with
  | nil => exact List.intercalate_singleton
  | cons q ps ih =>
      rw [List.cons_append, List.intercalate_cons_of_ne_nil (by simp), ih, List.flatMap_cons,
        List.append_assoc (q ++ ['/'])]

theorem trimIdleEnd_eq_rdropWhile (ps : List (List Char)) :
    trimIdleEnd ps = ps.rdropWhile isIdle := rfl

theorem bodyComponents_append (ps qs : List (List Char)) :
    bodyComponents (ps ++ qs) = bodyComponents ps ++ bodyComponents qs := by
  rw [bodyComponents, List.filter_append, List.map_append]
  rfl

theorem bodyComponents_cons (p : List Char) (ps : List (List Char)) :
    bodyComponents (p :: ps) =
      if isIdle p then bodyComponents ps else componentOf p :: bodyComponents ps := by
  cases h : isIdle p <;> simp [bodyComponents, h]

theorem bodyComponents_singleton {p : List Char} (h : isIdle p = false) :
    bodyComponents [p] = [componentOf p] := by
  rw [bodyComponents_cons, h]
  rfl

theorem bodyComponents_dropWhile (ps : List (List Char)) :
    bodyComponents (ps.dropWhile isIdle) = bodyComponents ps := by
  induction ps with
  | nil => rfl
  | cons p ps ih =>
      rw [List.dropWhile_cons, bodyComponents_cons]
      split
      · exact ih
      · next hp => rw [bodyComponents_cons, if_neg hp]

theorem bodyComponents_trimIdleEnd (ps : List (List Char)) :
    bodyComponents (trimIdleEnd ps) = bodyComponents ps := by
  have hreverse : ∀ qs : List (List Char), bodyComponents qs.reverse = (bodyComponents qs).reverse := by
    intro qs
    rw [bodyComponents, List.filter_reverse, List.map_reverse]
    rfl
  rw [trimIdleEnd, hreverse, bodyComponents_dropWhile, hreverse, List.reverse_reverse]

/-- The last component of some pieces is the last piece that is not idle. -/
theorem trimIdleEnd_of_bodyComponents {ps : List (List Char)} {cs : List Component} {c : Component}
    (h : bodyComponents ps = cs ++ [c]) :
    ∃ front q, trimIdleEnd ps = front ++ [q] ∧ isIdle q = false ∧ componentOf q = c ∧
      bodyComponents front = cs := by
  rw [← bodyComponents_trimIdleEnd] at h
  rcases List.eq_nil_or_concat' (trimIdleEnd ps) with hnil | ⟨front, q, hfront⟩
  · rw [hnil] at h
    exact absurd h (by simp [bodyComponents])
  · have hidle : isIdle q = false := by
      have hne : ps.rdropWhile isIdle ≠ [] := by
        rw [← trimIdleEnd_eq_rdropWhile, hfront]
        simp
      have hlast := List.rdropWhile_last_not isIdle ps hne
      simp only [← trimIdleEnd_eq_rdropWhile, hfront, List.getLast_concat] at hlast
      exact eq_false_of_ne_true hlast
    rw [hfront, bodyComponents_append, bodyComponents_singleton hidle] at h
    obtain ⟨hcs, hc⟩ := List.append_inj' h rfl
    exact ⟨front, q, hfront, hidle, (List.cons.inj hc).1, hcs⟩

theorem map_normal_injective : Function.Injective (List.map Component.normal) :=
  List.map_injective_iff.mpr fun _ _ h => Component.normal.inj h

theorem componentOf_injective : Function.Injective componentOf := by
  intro p q h
  unfold componentOf at h
  split at h <;> split at h
  · next hp hq => rw [hp, hq]
  · cases h
  · cases h
  · exact String.ofList_injective (Component.normal.inj h)

theorem eq_of_componentOf_normal {q : List Char} {name : String} (h : componentOf q = .normal name) :
    q = name.toList ∧ q ≠ ['.', '.'] := by
  unfold componentOf at h
  split at h
  · cases h
  · next hparent =>
    cases h
    exact ⟨String.toList_ofList.symm, hparent⟩

theorem ValidName.componentOf {name : String} (h : ValidName name) :
    componentOf name.toList = .normal name := by
  rw [Files.componentOf, if_neg h.parent, String.ofList_toList]

theorem slash_not_mem_names {names : List String} (h : ∀ name ∈ names, ValidName name) :
    ∀ p ∈ names.map String.toList, '/' ∉ p := by
  intro p hp
  obtain ⟨name, hname, rfl⟩ := List.mem_map.mp hp
  exact (h name hname).slash

theorem bodyComponents_names {names : List String} (h : ∀ name ∈ names, ValidName name) :
    bodyComponents (names.map String.toList) = names.map .normal := by
  induction names with
  | nil => rfl
  | cons name names ih =>
      obtain ⟨hname, hnames⟩ := List.forall_mem_cons.mp h
      rw [List.map_cons, List.map_cons, bodyComponents_cons, hname.idle, hname.componentOf,
        ih hnames]
      rfl

/-- Names of folders, and a last piece. -/
theorem bodyComponents_concat {dirs : Place} (h : ∀ name ∈ dirs, ValidName name) {q : List Char}
    (hq : isIdle q = false) :
    bodyComponents (dirs.map String.toList ++ [q]) = dirs.map .normal ++ [componentOf q] := by
  rw [bodyComponents_append, bodyComponents_names h, bodyComponents_singleton hq]

/-- The components of a path with the given pieces. -/
def componentsOf (ps : List (List Char)) : List Component :=
  (leading ps).1.toList ++ bodyComponents (leading ps).2

theorem Path.components_eq (p : Path) : p.components = componentsOf p.pieces := rfl

theorem leading_append {ps : List (List Char)} (hne : ps ≠ []) (hroot : ps ≠ [[]])
    (qs : List (List Char)) : leading (ps ++ qs) = ((leading ps).1, (leading ps).2 ++ qs) := by
  fun_cases leading ps with
  | case1 p ps => rfl
  | case2 ps => rfl
  | case3 ps hslash hdot =>
      obtain ⟨p, ps, rfl⟩ := List.exists_cons_of_ne_nil hne
      rw [List.cons_append]
      unfold leading
      split
      · next heq =>
        cases ps with
        | nil => exact absurd (List.cons.inj heq).1 fun hp => hroot (by rw [hp])
        | cons q ps => exact absurd (List.cons.inj heq).1 fun hp => hslash q ps (by rw [hp])
      · next heq => exact absurd (List.cons.inj heq).1 fun hp => hdot ps (by rw [hp])
      · rfl

/-- Pieces at the end of a path give their own components; a path with only an empty piece before
them begins at the root. -/
theorem componentsOf_append {ps qs : List (List Char)} (hps : ps ≠ []) (hqs : qs ≠ []) :
    componentsOf (ps ++ qs) =
      (if ps = [[]] then [.root] else componentsOf ps) ++ bodyComponents qs := by
  split
  · next hroot =>
    obtain ⟨q, qs, rfl⟩ := List.exists_cons_of_ne_nil hqs
    rw [hroot]
    rfl
  · next hroot =>
    rw [componentsOf, leading_append hps hroot, bodyComponents_append, ← List.append_assoc]
    rfl

theorem componentsOf_of_not_idle {p : List Char} (h : isIdle p = false) (ps : List (List Char)) :
    componentsOf (p :: ps) = bodyComponents (p :: ps) := by
  have hleading : leading (p :: ps) = (none, p :: ps) := by
    unfold leading
    split
    · next heq =>
      rw [(List.cons.inj heq).1] at h
      cases h
    · next heq =>
      rw [(List.cons.inj heq).1] at h
      cases h
    · rfl
  rw [componentsOf, hleading]
  rfl

/-- The root or a leading dot stands before the components of the pieces, and is not one of them. -/
theorem Path.components_eq_append (p : Path) :
    p.components = (leading p.pieces).1.toList ++ bodyComponents p.pieces := by
  rw [Path.components_eq, componentsOf]
  congr 1
  fun_cases leading p.pieces with
  | case1 q qs => rfl
  | case2 qs => rfl
  | case3 => rfl

theorem leading_ne_normal (ps : List (List Char)) (name : String) :
    (leading ps).1 ≠ some (.normal name) := by
  fun_cases leading ps <;> nofun

/-- A path whose last component is a name has that name as its file name. -/
theorem Path.fileName?_of_components {p : Path} {cs : List Component} {name : String}
    (h : p.components = cs ++ [.normal name]) : p.fileName? = some name.toList := by
  have hbody : ∃ cs', bodyComponents p.pieces = cs' ++ [.normal name] := by
    rw [p.components_eq_append] at h
    rcases List.eq_nil_or_concat' (bodyComponents p.pieces) with hnil | ⟨front, c, hfront⟩
    · rw [hnil, List.append_nil] at h
      cases hlead : (leading p.pieces).1 with
      | none => simp [hlead] at h
      | some c =>
          rw [hlead] at h
          have hlast := congrArg List.getLast? h
          rw [Option.toList_some, List.getLast?_singleton, List.getLast?_concat] at hlast
          exact absurd (hlead.trans hlast) (leading_ne_normal _ _)
    · rw [hfront, ← List.append_assoc] at h
      exact ⟨front, by rw [hfront, (List.append_inj' h rfl).2]⟩
  obtain ⟨cs', hcs'⟩ := hbody
  obtain ⟨front, q, htrim, -, hq, -⟩ := trimIdleEnd_of_bodyComponents hcs'
  obtain ⟨rfl, hparent⟩ := eq_of_componentOf_normal hq
  rw [Path.fileName?, htrim, List.getLast?_concat]
  exact if_neg hparent

theorem Path.extension?_of_components {p : Path} {cs : List Component} {name : String}
    (h : p.components = cs ++ [.normal name]) : p.extension? = (splitExtension name.toList).2 := by
  rw [Path.extension?, Path.fileName?_of_components h, Option.bind_some]

theorem stripBody_of_bodyComponents {ps : List (List Char)} {cs rest : List Component}
    (h : bodyComponents ps = cs ++ rest) :
    ∃ qs, stripBody cs ps = some qs ∧ qs <:+ ps ∧ bodyComponents qs = rest := by
  fun_induction stripBody cs ps with
  | case1 ps => exact ⟨ps, rfl, List.suffix_rfl, h⟩
  | case2 c cs => cases h
  | case3 c cs p ps hidle ih =>
      rw [bodyComponents_cons, if_pos hidle] at h
      obtain ⟨qs, hqs, hsuffix, hrest⟩ := ih h
      exact ⟨qs, hqs, hsuffix.trans (List.suffix_cons p ps), hrest⟩
  | case4 cs p ps hidle ih =>
      rw [bodyComponents_cons, if_neg hidle] at h
      obtain ⟨qs, hqs, hsuffix, hrest⟩ := ih (List.cons.inj h).2
      exact ⟨qs, hqs, hsuffix.trans (List.suffix_cons p ps), hrest⟩
  | case5 c cs p ps hidle hc =>
      rw [bodyComponents_cons, if_neg hidle] at h
      exact absurd (List.cons.inj h).1 hc

theorem leading_suffix (ps : List (List Char)) : (leading ps).2 <:+ ps := by
  fun_cases leading ps with
  | case1 q qs => exact List.suffix_cons _ _
  | case2 qs => exact List.suffix_cons _ _
  | case3 => exact List.suffix_rfl

theorem leading_eq_of_none {ps : List (List Char)} (h : (leading ps).1 = none) :
    leading ps = (none, ps) := by
  fun_cases leading ps with
  | case1 q qs => cases h
  | case2 qs => cases h
  | case3 => rfl

/-- Without a root and a leading dot, a path begins with a piece that counts. -/
theorem not_isIdle_head?_of_leading {ps : List (List Char)} (hlead : (leading ps).1 = none)
    (hne : bodyComponents ps ≠ []) : ∀ q ∈ ps.head?, isIdle q = false := by
  intro q hq
  obtain ⟨qs, rfl⟩ := List.head?_eq_some_iff.mp hq
  by_contra hidle
  rw [Bool.not_eq_false, isIdle, Bool.or_eq_true, decide_eq_true_eq, decide_eq_true_eq] at hidle
  rcases hidle with rfl | rfl
  · cases qs with
    | nil => exact hne rfl
    | cons q qs => cases hlead
  · cases hlead

/-- The part of a path below a folder has the components that follow those of the folder, and no idle
pieces at its ends. -/
theorem Path.below?_of_components {p folder : Path} {names : List String} (hne : names ≠ [])
    (h : p.components = folder.components ++ names.map .normal) :
    ∃ ps, p.below? folder = some (Path.ofChars (['/'].intercalate (trimIdleEnd ps))) ∧
      ps <:+ p.pieces ∧
      (∀ q ∈ ps.head?, isIdle q = false) ∧ bodyComponents ps = names.map .normal := by
  have hnormal : names.map Component.normal ≠ [] := by simpa using hne
  have hstripped : ∀ cs, bodyComponents (leading p.pieces).2 = cs ++ names.map .normal →
      ∃ ps, stripBody cs (leading p.pieces).2 = some ps ∧ ps.dropWhile isIdle <:+ p.pieces ∧
        (∀ q ∈ (ps.dropWhile isIdle).head?, isIdle q = false) ∧
        bodyComponents (ps.dropWhile isIdle) = names.map .normal := by
    intro cs hcs
    obtain ⟨ps, hps, hsuffix, hrest⟩ := stripBody_of_bodyComponents hcs
    refine ⟨ps, hps, (List.dropWhile_suffix _).trans (hsuffix.trans (leading_suffix _)), ?_, ?_⟩
    · intro q hq
      have hhead := List.head?_dropWhile_not isIdle ps
      rw [Option.mem_def.mp hq] at hhead
      simpa using hhead
    · rw [bodyComponents_dropWhile, hrest]
  rw [Path.components_eq, componentsOf] at h
  rw [Path.below?]
  cases hfolder : folder.components with
  | nil =>
      rw [hfolder, List.nil_append] at h
      have hlead : (leading p.pieces).1 = none := by
        cases hlead : (leading p.pieces).1 with
        | none => rfl
        | some c =>
            obtain ⟨name, names, rfl⟩ := List.exists_cons_of_ne_nil hne
            rw [hlead] at h
            rw [(List.cons.inj h).1] at hlead
            exact absurd hlead (leading_ne_normal _ _)
      have hleading := leading_eq_of_none hlead
      rw [hleading, Option.toList_none, List.nil_append] at h
      refine ⟨p.pieces, ?_, List.suffix_rfl, not_isIdle_head?_of_leading hlead (h ▸ hnormal), h⟩
      rw [hleading, Path.withoutTail, hleading]
      rfl
  | cons c cs =>
      rw [hfolder] at h
      cases hlead : (leading p.pieces).1 with
      | none =>
          rw [hlead] at h
          obtain ⟨ps, hps, hsuffix, hhead, hrest⟩ := hstripped (c :: cs) h
          refine ⟨_, ?_, hsuffix, hhead, hrest⟩
          simp only [hlead, hps]
          rfl
      | some l =>
          rw [hlead] at h
          obtain ⟨hl, hbody⟩ := List.cons.inj h
          obtain ⟨ps, hps, hsuffix, hhead, hrest⟩ := hstripped cs hbody
          refine ⟨_, ?_, hsuffix, hhead, hrest⟩
          simp only [hlead, hl, hps]
          rfl

theorem chars_pathOf (l : Place) :
    (Store.pathOf l).chars = '/' :: ['/'].intercalate (l.map String.toList) := by
  rw [Path.chars, Store.pathOf, String.toList_append, String.toList_intercalate]
  rfl

section Place

variable {l : Place} (h : ∀ name ∈ l, ValidName name)

include h

theorem pieces_pathOf (hne : l ≠ []) : (Store.pathOf l).pieces = [] :: l.map String.toList := by
  have hroot : ∀ cs : List Char, ('/' :: cs).splitOn '/' = [] :: cs.splitOn '/' :=
    List.splitOn_append_cons_self []
  rw [Path.pieces, chars_pathOf, hroot,
    List.splitOn_intercalate '/' (slash_not_mem_names h) (by simpa using hne)]

theorem components_pathOf : (Store.pathOf l).components = .root :: l.map .normal := by
  cases l with
  | nil => rfl
  | cons name l =>
      rw [Path.components_eq, pieces_pathOf h (List.cons_ne_nil name l), ← bodyComponents_names h]
      rfl

end Place

/-! ### Names and their extensions

An extension begins at the last dot of a name, unless that dot comes first. The old extension is cut
off before a new one is set, so of a name such as `..x` only two dots are left, which name nothing. -/

theorem splitExtension_append {stem ext : List Char} (hstem : stem ≠ []) (hext : '.' ∉ ext) :
    splitExtension (stem ++ '.' :: ext) = (stem, some ext) := by
  have hreverse : (stem ++ '.' :: ext).reverse = ext.reverse ++ '.' :: stem.reverse := by simp
  have hbehind : ∀ c ∈ ext.reverse, (c != '.') = true := by
    intro c hc
    rw [bne_iff_ne]
    rintro rfl
    exact hext (List.mem_reverse.mp hc)
  have hdrop : (ext.reverse ++ '.' :: stem.reverse).dropWhile (· != '.') = '.' :: stem.reverse := by
    rw [List.dropWhile_append_of_pos hbehind, List.dropWhile_cons_of_neg (by decide)]
  have htake : (ext.reverse ++ '.' :: stem.reverse).takeWhile (· != '.') = ext.reverse := by
    rw [List.takeWhile_append_of_pos hbehind, List.takeWhile_cons_of_neg (by decide),
      List.append_nil]
  rw [splitExtension, hreverse, hdrop, htake]
  cases hcons : stem.reverse with
  | nil => exact absurd (List.reverse_eq_nil_iff.mp hcons) hstem
  | cons c cs =>
      simp only [← hcons, List.reverse_reverse]

theorem eq_append_of_splitExtension {name stem ext : List Char}
    (h : splitExtension name = (stem, some ext)) :
    name = stem ++ '.' :: ext ∧ '.' ∉ ext ∧ stem ≠ [] := by
  unfold splitExtension at h
  split at h
  · cases h
  · cases h
  · next dot rest hne hdrop =>
    cases h
    have hdot : dot = '.' := by
      have hhead := List.head?_dropWhile_not (fun c : Char => c != '.') name.reverse
      rw [hdrop] at hhead
      simpa using hhead
    subst hdot
    have hname : name.reverse = name.reverse.takeWhile (· != '.') ++ '.' :: rest := by
      rw [← hdrop, List.takeWhile_append_dropWhile]
    refine ⟨?_, ?_, ?_⟩
    · have hwhole := congrArg List.reverse hname
      rw [List.reverse_reverse, List.reverse_append, List.reverse_cons, List.append_assoc] at hwhole
      exact hwhole
    · intro hmem
      have hclass := List.all_eq_true.mp List.all_takeWhile _ (List.mem_reverse.mp hmem)
      exact absurd hclass (by decide)
    · intro hnil
      exact hne (List.reverse_eq_nil_iff.mp hnil)

theorem fileName?_of_pieces {p : Path} {front : List (List Char)} {name : List Char}
    (hp : p.pieces = front ++ [name]) (hidle : isIdle name = false) :
    p.fileName? = if name = ['.', '.'] then none else some name := by
  rw [Path.fileName?, hp, trimIdleEnd_eq_rdropWhile,
    List.rdropWhile_concat_neg _ _ _ (ne_true_of_eq_false hidle), List.getLast?_concat]

theorem not_isIdle_of_dot {stem : List Char} (hstem : stem ≠ []) (ext : List Char) :
    isIdle (stem ++ '.' :: ext) = false := by
  have hlength : 2 ≤ (stem ++ '.' :: ext).length := by
    have := List.length_pos_iff.mpr hstem
    rw [List.length_append, List.length_cons]
    omega
  rw [isIdle, Bool.or_eq_false_iff, decide_eq_false_iff_not, decide_eq_false_iff_not]
  constructor
  · intro heq
    rw [heq] at hlength
    cases hlength
  · intro heq
    rw [heq] at hlength
    exact absurd hlength (by decide)

theorem pieces_ofChars {front : List (List Char)} {name : List Char}
    (hfront : ∀ p ∈ front, '/' ∉ p) (hname : '/' ∉ name) :
    (Path.ofChars (front.flatMap (· ++ ['/']) ++ name)).pieces = front ++ [name] := by
  rw [Path.pieces, Path.chars, Path.ofChars, String.toList_ofList, ← intercalate_slash_concat]
  refine List.splitOn_intercalate '/' (fun p hp => ?_) (by simp)
  rcases List.mem_append.mp hp with hp | hp
  · exact hfront p hp
  · rw [List.mem_singleton.mp hp]
    exact hname

/-- A path whose file name has an extension gets a new one, or none. When only a dot stands before
the extension, two dots are left, which are no file name. -/
theorem pieces_withExtension {p : Path} {front : List (List Char)} {stem ext new : List Char}
    (hp : p.pieces = front ++ [stem ++ '.' :: ext]) (hstem : stem ≠ []) (hext : '.' ∉ ext)
    (hparent : stem ++ '.' :: ext ≠ ['.', '.']) (hnew : '/' ∉ new) :
    (p.withExtension new).pieces =
      front ++ [if stem = ['.'] then ['.', '.']
        else stem ++ if new.isEmpty then [] else '.' :: new] := by
  have hslash : ∀ q ∈ front ++ [stem ++ '.' :: ext], '/' ∉ q :=
    fun q hq => slash_not_mem_of_mem_splitOn (hp ▸ hq)
  have hfront : ∀ q ∈ front, '/' ∉ q := fun q hq => hslash q (List.mem_append_left _ hq)
  have hstemSlash : '/' ∉ stem := fun hmem => hslash (stem ++ '.' :: ext) (by simp) (by simp [hmem])
  have hextension : p.extension? = some ext := by
    rw [Path.extension?, fileName?_of_pieces hp (not_isIdle_of_dot hstem ext), if_neg hparent,
      Option.bind_some, splitExtension_append hstem hext]
  have hcut : p.chars.take (p.chars.length - ext.length) =
      front.flatMap (· ++ ['/']) ++ (stem ++ ['.']) := by
    have hchars : p.chars = (front.flatMap (· ++ ['/']) ++ (stem ++ ['.'])) ++ ext := by
      rw [← p.intercalate_pieces, hp, intercalate_slash_concat]
      simp
    rw [hchars, List.length_append, Nat.add_sub_cancel, List.take_left]
  have hpieces : (Path.ofChars (front.flatMap (· ++ ['/']) ++ (stem ++ ['.']))).pieces =
      front ++ [stem ++ ['.']] :=
    pieces_ofChars hfront (by simp [hstemSlash])
  have hfile := fileName?_of_pieces hpieces (not_isIdle_of_dot hstem [])
  rw [Path.withExtension, hextension, Option.getD_some, hcut, Path.setExtension]
  by_cases hdot : stem = ['.']
  · subst hdot
    rw [hfile, if_pos rfl]
    exact hpieces
  · have hname : stem ++ ['.'] ≠ ['.', '.'] := fun heq => hdot (List.append_inj_left' heq rfl)
    rw [hfile, if_neg hname, if_neg hdot, hpieces, trimIdleEnd_eq_rdropWhile,
      List.rdropWhile_concat_neg _ _ _ (ne_true_of_eq_false (not_isIdle_of_dot hstem []))]
    simp only [splitExtension_append hstem List.not_mem_nil, List.dropLast_concat,
      intercalate_slash_concat, List.append_assoc]
    apply pieces_ofChars hfront
    split <;> simp [hstemSlash, hnew]

theorem extension?_pathOf {dirs : Place} {name : String}
    (h : ∀ n ∈ dirs ++ [name], ValidName n) :
    (Store.pathOf (dirs ++ [name])).extension? = (splitExtension name.toList).2 := by
  have hcomponents : (Store.pathOf (dirs ++ [name])).components =
      (.root :: dirs.map .normal) ++ [.normal name] := by
    rw [components_pathOf h, List.map_append]
    rfl
  exact Path.extension?_of_components hcomponents

/-- What is left of a file name without its extension. When only a dot stands before the extension,
the dot of the extension is left with it. -/
def bareName (name : List Char) : List Char :=
  match splitExtension name with
  | (stem, some _) => if stem = ['.'] then ['.', '.'] else stem
  | (_, none) => name

theorem bareName_of_split {name stem ext : List Char} (h : splitExtension name = (stem, some ext)) :
    bareName name = if stem = ['.'] then ['.', '.'] else stem := by
  rw [bareName, h]

theorem splitExtension_of_none {name : List Char} (h : (splitExtension name).2 = none) :
    splitExtension name = (name, none) := by
  unfold splitExtension at *
  split at h
  · rfl
  · rfl
  · cases h

theorem isIdle_bareName {name : List Char} (h : isIdle name = false) :
    isIdle (bareName name) = false := by
  unfold bareName
  split
  · next stem ext hsplit =>
    have hstem := (eq_append_of_splitExtension hsplit).2.2
    split
    · rfl
    · next hdot => simp [isIdle, hstem, hdot]
  · exact h

theorem pieces_withoutExtension {p : Path} {front : List (List Char)} {name : List Char}
    (hp : p.pieces = front ++ [name]) (hidle : isIdle name = false) (hparent : name ≠ ['.', '.']) :
    (p.withExtension []).pieces = front ++ [bareName name] := by
  have hfile := fileName?_of_pieces hp hidle
  rw [if_neg hparent] at hfile
  cases hext : (splitExtension name).2 with
  | some ext =>
      have hsplit : splitExtension name = ((splitExtension name).1, some ext) := Prod.ext rfl hext
      obtain ⟨hname, hdot, hstem⟩ := eq_append_of_splitExtension hsplit
      rw [bareName_of_split hsplit,
        pieces_withExtension (hname ▸ hp) hstem hdot (hname ▸ hparent) List.not_mem_nil]
      simp
  | none =>
      have hsplit := splitExtension_of_none hext
      have hnone : p.extension? = none := by
        rw [Path.extension?, hfile, Option.bind_some, hext]
      have hself : Path.ofChars p.chars = p := by
        rw [Path.ofChars, Path.chars, String.ofList_toList]
      have hbare : bareName name = name := by rw [bareName, hsplit]
      rw [Path.withExtension, hnone, Option.getD_none, List.length_nil, Nat.sub_zero,
        List.take_length, hself, Path.setExtension, hfile, hbare]
      simp only [hsplit, hp, trimIdleEnd_eq_rdropWhile,
        List.rdropWhile_concat_neg _ _ _ (ne_true_of_eq_false hidle), List.dropLast_concat,
        List.isEmpty_nil, if_true, List.append_nil]
      rw [← hp, p.ofChars_intercalate_pieces]

section WithoutExtension

variable {dirs : Place} {name : String} (h : ∀ n ∈ dirs ++ [name], ValidName n)

include h

theorem pieces_pathOf_withoutExtension :
    ((Store.pathOf (dirs ++ [name])).withExtension []).pieces =
      ([] :: dirs.map String.toList) ++ [bareName name.toList] := by
  have hname : ValidName name := h name (by simp)
  refine pieces_withoutExtension ?_ hname.idle hname.parent
  rw [pieces_pathOf h (by simp), List.map_append]
  rfl

theorem components_withoutExtension :
    ((Store.pathOf (dirs ++ [name])).withExtension []).components =
      .root :: dirs.map .normal ++ [componentOf (bareName name.toList)] := by
  have hname : ValidName name := h name (by simp)
  have hdirs : ∀ n ∈ dirs, ValidName n := fun n hmem => h n (List.mem_append_left _ hmem)
  rw [Path.components_eq, pieces_pathOf_withoutExtension h, List.cons_append,
    ← List.singleton_append, componentsOf_append (by simp) (by simp), if_pos rfl,
    bodyComponents_concat hdirs (isIdle_bareName hname.idle)]
  rfl

end WithoutExtension

theorem head?_intercalate_ne_slash {ps : List (List Char)} (h : ∀ p ∈ ps.head?, p ≠ [] ∧ '/' ∉ p) :
    (['/'].intercalate ps).head? ≠ some '/' := by
  match ps with
  | [] => nofun
  | [] :: ps => exact absurd rfl (h [] rfl).1
  | (c :: p) :: ps =>
      have hhead : (['/'].intercalate ((c :: p) :: ps)).head? = some c := by cases ps <;> rfl
      rw [hhead]
      rintro ⟨⟩
      exact (h _ rfl).2 List.mem_cons_self

/-- Pieces inside a folder stand behind those of the folder, and so do their components. -/
theorem exists_pieces_join (folder : Path) {ps : List (List Char)} (hne : ps ≠ [])
    (hslash : ∀ p ∈ ps, '/' ∉ p) (hhead : ∀ p ∈ ps.head?, isIdle p = false) :
    ∃ front, (folder.join (Path.ofChars (['/'].intercalate ps))).pieces = front ++ ps ∧
      ∀ qs, qs ≠ [] → (∀ q ∈ qs.head?, isIdle q = false) →
        componentsOf (front ++ qs) = folder.components ++ bodyComponents qs := by
  have hchars : (Path.ofChars (['/'].intercalate ps)).chars = ['/'].intercalate ps :=
    String.toList_ofList
  have hrelative : (Path.ofChars (['/'].intercalate ps)).isAbsolute = false := by
    rw [Path.isAbsolute, hchars, decide_eq_false_iff_not]
    refine head?_intercalate_ne_slash fun p hp => ⟨?_, hslash p (List.mem_of_mem_head? hp)⟩
    rintro rfl
    exact absurd (hhead [] hp) (by decide)
  have hpieces : ∀ cs, (Path.ofChars cs).pieces = cs.splitOn '/' := by
    intro cs
    rw [Path.pieces, Path.chars, Path.ofChars, String.toList_ofList]
  rw [Path.join, hrelative, if_neg (by decide), hchars]
  rcases List.eq_nil_or_concat' folder.chars with hnil | ⟨front, c, hfolder⟩
  · refine ⟨[], ?_, fun qs hqs hidle => ?_⟩
    · rw [hnil, if_pos (by decide), List.nil_append, hpieces,
        List.splitOn_intercalate '/' hslash hne, List.nil_append]
    · obtain ⟨q, qs, rfl⟩ := List.exists_cons_of_ne_nil hqs
      have hempty : folder.components = [] := by
        rw [Path.components_eq, Path.pieces, hnil]
        rfl
      rw [List.nil_append, componentsOf_of_not_idle (hidle q rfl), hempty, List.nil_append]
  · by_cases hc : c = '/'
    · subst hc
      refine ⟨front.splitOn '/', ?_, fun qs hqs _ => ?_⟩
      · rw [hfolder, List.getLast?_concat, if_pos (by decide), List.append_assoc, List.singleton_append,
          hpieces, List.splitOn_append_cons_self, List.splitOn_intercalate '/' hslash hne]
      · rw [Path.components_eq, Path.pieces, hfolder, List.splitOn_append_cons_self,
          componentsOf_append (List.splitOn_ne_nil '/' front) hqs,
          componentsOf_append (List.splitOn_ne_nil '/' front) (List.splitOn_ne_nil '/' [])]
        simp [bodyComponents, isIdle]
    · refine ⟨folder.pieces, ?_, fun qs hqs _ => ?_⟩
      · rw [hfolder, List.getLast?_concat, if_neg (by simpa using hc), hpieces,
          List.splitOn_append_cons_self, List.splitOn_intercalate '/' hslash hne, Path.pieces, hfolder]
      · have hroot : folder.pieces ≠ [[]] := by
          intro heq
          have hjoin := folder.intercalate_pieces
          rw [heq, hfolder] at hjoin
          exact absurd hjoin (by simp)
        have hne : folder.pieces ≠ [] := List.splitOn_ne_nil '/' _
        rw [componentsOf_append hne hqs, if_neg hroot,
          Path.components_eq]

/-- The result of a source is at the same place below the other folder, under its stem with the new
extension. -/
theorem components_outputPath {p input : Path} {dirs : List String} {name new : String}
    {stem ext : List Char}
    (hp : p.components = input.components ++ (dirs ++ [name]).map .normal)
    (hsplit : splitExtension name.toList = (stem, some ext)) (hne : new ≠ "")
    (hnew : '/' ∉ new.toList) (output : Path) :
    (p.outputPath input output new).components =
      output.components ++ dirs.map .normal ++
        [if stem = ['.'] then .parent else .normal (String.ofList (stem ++ '.' :: new.toList))] := by
  obtain ⟨ps, hbelow, hsuffix, hhead, hbody⟩ := Path.below?_of_components (by simp) hp
  rw [List.map_append] at hbody
  obtain ⟨dirPieces, q, htrim, hidle, hq, hdirs⟩ := trimIdleEnd_of_bodyComponents hbody
  obtain ⟨rfl, hparent⟩ := eq_of_componentOf_normal hq
  obtain ⟨hname, hext, hstem⟩ := eq_append_of_splitExtension hsplit
  have htrimmed : trimIdleEnd ps <+: ps := List.rdropWhile_prefix isIdle ps
  have hslash : ∀ p ∈ dirPieces ++ [name.toList], '/' ∉ p := by
    intro p hp
    exact slash_not_mem_of_mem_splitOn (hsuffix.subset (htrimmed.subset (htrim ▸ hp)))
  have hfirst : ∀ q, isIdle q = false →
      ∀ p ∈ (dirPieces ++ [q]).head?, isIdle p = false := by
    intro q hq p hp
    cases dirPieces with
    | nil =>
        obtain rfl : q = p := by simpa using hp
        exact hq
    | cons d dirPieces =>
        refine hhead p ?_
        obtain ⟨rest, hrest⟩ := htrimmed
        rw [← hrest, htrim]
        simpa using hp
  obtain ⟨front, hpieces, hcomponents⟩ := exists_pieces_join output (by simp) hslash
    (hfirst _ hidle)
  rw [← List.append_assoc, hname] at hpieces
  have hparts : ∀ q, isIdle q = false → componentsOf (front ++ dirPieces ++ [q]) =
      output.components ++ dirs.map .normal ++ [componentOf q] := by
    intro q hq
    rw [List.append_assoc, hcomponents _ (by simp) (hfirst q hq), bodyComponents_append, hdirs,
      bodyComponents_singleton hq, List.append_assoc]
  have hnonempty : new.toList ≠ [] := by simpa using hne
  have hsuffix : (if new.toList.isEmpty then [] else '.' :: new.toList) = '.' :: new.toList :=
    if_neg (by simpa using hnonempty)
  rw [Path.outputPath, hbelow, Option.getD_some, htrim, Path.components_eq, hname,
    pieces_withExtension hpieces hstem hext (hname ▸ hparent) hnew, hsuffix]
  split
  · exact hparts _ rfl
  · next hdot =>
    rw [hparts _ (not_isIdle_of_dot hstem _), componentOf, if_neg]
    intro heq
    have hlength := congrArg List.length heq
    have hstemLength := List.length_pos_iff.mpr hstem
    have hnewLength := List.length_pos_iff.mpr hnonempty
    simp only [List.length_append, List.length_cons, List.length_nil] at hlength
    omega

end ShaderUplift.Files
