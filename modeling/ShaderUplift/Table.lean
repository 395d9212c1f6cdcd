/-! Tables that keep the order in which names first entered. Every entry carries its own name and
no two entries share one; putting an entry under a name that is present keeps its place. -/

namespace ShaderUplift

/-- Values that are looked up by a name of their own. -/
class Named (α : Type) where
  name : α → String

/-- Entries in order of first insertion, with distinct names. -/
structure Table (α : Type) [Named α] where
  entries : List α
  nodup : (entries.map Named.name).Nodup

namespace Table

variable {α : Type} [Named α]

def empty : Table α := ⟨[], List.nodup_nil⟩

instance : Inhabited (Table α) := ⟨empty⟩

instance [DecidableEq α] : DecidableEq (Table α) := fun a b =>
  decidable_of_iff (a.entries = b.entries) (by cases a; cases b; simp)

def names (t : Table α) : List String := t.entries.map Named.name

def contains (t : Table α) (name : String) : Bool := t.names.contains name

def get? (t : Table α) (name : String) : Option α :=
  t.entries.find? fun a => Named.name a == name

def size (t : Table α) : Nat := t.entries.length

/-- The entries with `a` in the place of the entry of its name. -/
def replaced (es : List α) (a : α) : List α :=
  es.map fun e => if Named.name e = Named.name a then a else e

theorem map_name_replaced (es : List α) (a : α) :
    (replaced es a).map Named.name = es.map Named.name := by
  induction es with
  | nil => rfl
  | cons e es ih =>
    simp only [replaced, List.map_cons, List.cons.injEq] at ih ⊢
    refine ⟨?_, ih⟩
    split <;> simp_all

/-- The table with `a` at the end when its name is new, and unchanged otherwise. -/
def insertNew (t : Table α) (a : α) : Table α :=
  if h : Named.name a ∈ t.names then t
  else
    { entries := t.entries ++ [a]
      nodup := by
        simp only [List.map_append, List.map_cons, List.map_nil, List.nodup_append,
          List.nodup_cons, List.not_mem_nil, not_false_eq_true, List.nodup_nil, and_self,
          List.mem_singleton, true_and]
        refine ⟨t.nodup, ?_⟩
        rintro x hx y rfl rfl
        exact h hx }

/-- The table with `a` under its name: in the place of the entry of that name, or at the end. -/
def insert (t : Table α) (a : α) : Table α :=
  if Named.name a ∈ t.names then
    { entries := replaced t.entries a
      nodup := by rw [map_name_replaced]; exact t.nodup }
  else t.insertNew a

def erase (t : Table α) (name : String) : Table α :=
  { entries := t.entries.filter fun e => Named.name e != name
    nodup := t.nodup.sublist (List.filter_sublist.map _) }

/-- Inserts from left to right, so of two entries with one name the last stays, in the first
place. -/
def ofList (es : List α) : Table α := es.foldl insert empty

@[simp] theorem names_empty : (empty : Table α).names = [] := rfl

@[simp] theorem entries_empty : (empty : Table α).entries = [] := rfl

theorem names_insertNew (t : Table α) (a : α) :
    (t.insertNew a).names =
      if Named.name a ∈ t.names then t.names else t.names ++ [Named.name a] := by
  unfold insertNew
  split <;> simp_all [names]

theorem names_insert (t : Table α) (a : α) :
    (t.insert a).names =
      if Named.name a ∈ t.names then t.names else t.names ++ [Named.name a] := by
  unfold insert
  split
  · exact map_name_replaced _ _
  · rw [names_insertNew]; simp_all

theorem entries_insert {t : Table α} {a : α} (h : Named.name a ∉ t.names) :
    (t.insert a).entries = t.entries ++ [a] := by
  rw [insert, if_neg h, insertNew, dif_neg h]

theorem mem_names_insertNew {t : Table α} {a : α} {name : String} :
    name ∈ (t.insertNew a).names ↔ name ∈ t.names ∨ name = Named.name a := by
  rw [names_insertNew]
  split
  · next h => exact ⟨Or.inl, fun hn => hn.elim id fun hn => hn ▸ h⟩
  · simp

theorem mem_names_insert {t : Table α} {a : α} {name : String} :
    name ∈ (t.insert a).names ↔ name ∈ t.names ∨ name = Named.name a := by
  rw [names_insert, ← names_insertNew, mem_names_insertNew]

theorem contains_iff {t : Table α} {name : String} : t.contains name = true ↔ name ∈ t.names := by
  simp [contains]

theorem eq_of_name_eq {t : Table α} {a b : α} (ha : a ∈ t.entries) (hb : b ∈ t.entries)
    (h : Named.name a = Named.name b) : a = b := by
  have hn := t.nodup
  generalize t.entries = es at ha hb hn
  induction es with
  | nil => cases ha
  | cons e es ih =>
      simp only [List.map_cons, List.nodup_cons] at hn
      rcases List.mem_cons.mp ha with rfl | ha' <;> rcases List.mem_cons.mp hb with rfl | hb'
      · rfl
      · exact absurd (List.mem_map.mpr ⟨b, hb', h.symm⟩) hn.1
      · exact absurd (List.mem_map.mpr ⟨a, ha', h⟩) hn.1
      · exact ih ha' hb' hn.2

theorem get?_eq_some_iff {t : Table α} {name : String} {a : α} :
    t.get? name = some a ↔ a ∈ t.entries ∧ Named.name a = name := by
  constructor
  · intro h
    exact ⟨List.mem_of_find?_eq_some h, by simpa using List.find?_some h⟩
  · rintro ⟨ha, rfl⟩
    cases hg : t.get? (Named.name a) with
    | none =>
        have := List.find?_eq_none.mp hg a ha
        simp at this
    | some b =>
        have hb : Named.name b = Named.name a := by simpa using List.find?_some hg
        rw [eq_of_name_eq (List.mem_of_find?_eq_some hg) ha hb]

theorem get?_eq_none_iff {t : Table α} {name : String} : t.get? name = none ↔ name ∉ t.names := by
  simp [get?, names]

theorem mem_insertNew_iff {t : Table α} {a e : α} :
    e ∈ (t.insertNew a).entries ↔ e ∈ t.entries ∨ (Named.name a ∉ t.names ∧ e = a) := by
  unfold insertNew
  split
  · next h => simp [h]
  · next h => simp [h]

theorem mem_insertNew {t : Table α} {a e : α} (h : e ∈ (t.insertNew a).entries) :
    e = a ∨ e ∈ t.entries :=
  (mem_insertNew_iff.mp h).symm.imp_left And.right

theorem mem_insert_iff {t : Table α} {a e : α} :
    e ∈ (t.insert a).entries ↔ e = a ∨ (e ∈ t.entries ∧ Named.name e ≠ Named.name a) := by
  by_cases ha : Named.name a ∈ t.names
  · rw [insert, if_pos ha]
    constructor
    · intro h
      obtain ⟨b, hb, he⟩ := List.mem_map.mp h
      split at he
      · exact Or.inl he.symm
      · next hne => exact Or.inr (he ▸ ⟨hb, hne⟩)
    · rintro (rfl | ⟨he, hne⟩)
      · obtain ⟨b, hb, hname⟩ := List.mem_map.mp ha
        exact List.mem_map.mpr ⟨b, hb, if_pos hname⟩
      · exact List.mem_map.mpr ⟨e, he, if_neg hne⟩
  · have hne : e ∈ t.entries → Named.name e ≠ Named.name a := fun he heq =>
      ha (List.mem_map.mpr ⟨e, he, heq⟩)
    rw [entries_insert ha, List.mem_append, List.mem_singleton, or_comm, and_iff_left_of_imp hne]

theorem mem_insert {t : Table α} {a e : α} (h : e ∈ (t.insert a).entries) :
    e = a ∨ e ∈ t.entries :=
  (mem_insert_iff.mp h).imp_right And.left

end Table

end ShaderUplift
