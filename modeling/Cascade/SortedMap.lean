/-! # Maps from strings, kept in key order

Entries are listed in ascending code point order of their keys, each key once. Two maps with the
same look-ups are therefore the same list, and everything printed from a map depends on its contents
alone.
-/
namespace Cascade

/-! ## Entry lists -/

namespace Entries

variable {α : Type}

abbrev Ascending (entries : List (String × α)) : Prop :=
  entries.Pairwise fun a b => a.1 < b.1

def get? (key : String) : List (String × α) → Option α
  | [] => none
  | (k, v) :: rest => if k = key then some v else get? key rest

/-- Puts an entry at its place, over the entry that has the key already. -/
def insert (key : String) (value : α) : List (String × α) → List (String × α)
  | [] => [(key, value)]
  | (k, v) :: rest =>
    if key < k then (key, value) :: (k, v) :: rest
    else if k = key then (key, value) :: rest
    else (k, v) :: insert key value rest

def erase (key : String) (entries : List (String × α)) : List (String × α) :=
  entries.filter fun e => e.1 ≠ key

@[simp] theorem get?_nil (key : String) : get? key ([] : List (String × α)) = none := rfl

@[simp] theorem get?_cons (key k : String) (v : α) (rest : List (String × α)) :
    get? key ((k, v) :: rest) = if k = key then some v else get? key rest := rfl

theorem get?_insert (key key' : String) (value : α) (entries : List (String × α)) :
    get? key' (insert key value entries) =
      if key = key' then some value else get? key' entries := by
  induction entries with
  | nil => rfl
  | cons e rest ih =>
    obtain ⟨k, v⟩ := e
    rw [insert]
    split
    · simp
    · split
      · subst_vars
        simp only [get?_cons]
        split <;> rfl
      · simp only [get?_cons, ih]
        split <;> split <;> simp_all

theorem get?_erase (key key' : String) (entries : List (String × α)) :
    get? key' (erase key entries) = if key = key' then none else get? key' entries := by
  induction entries with
  | nil => simp [erase]
  | cons e rest ih =>
    obtain ⟨k, v⟩ := e
    rw [erase, List.filter_cons]
    by_cases h : k = key
    · subst h
      simp only [ne_eq, not_true_eq_false, decide_false, Bool.false_eq_true, if_false, get?_cons]
      rw [← erase, ih]
      split <;> simp_all
    · simp only [ne_eq, h, not_false_eq_true, decide_true, if_true, get?_cons]
      rw [← erase, ih]
      split <;> split <;> simp_all

theorem mem_insert {key : String} {value : α} {e : String × α} {entries : List (String × α)}
    (h : e ∈ insert key value entries) : e = (key, value) ∨ e ∈ entries := by
  induction entries with
  | nil => exact Or.inl (List.mem_singleton.1 h)
  | cons e' rest ih =>
    obtain ⟨k, v⟩ := e'
    rw [insert] at h
    split at h
    · exact (List.mem_cons.1 h).imp_right id
    · split at h
      · exact (List.mem_cons.1 h).imp_right (List.mem_cons_of_mem _)
      · rcases List.mem_cons.1 h with h | h
        · exact Or.inr (h ▸ List.mem_cons_self)
        · exact (ih h).imp_right (List.mem_cons_of_mem _)

private theorem key_lt_of_not_lt {a b : String} (h : ¬ b < a) (hne : a ≠ b) : a < b := by
  rcases Classical.em (a < b) with hlt | hlt
  · exact hlt
  · exact absurd (String.le_antisymm (String.not_lt.1 h) (String.not_lt.1 hlt)) hne

theorem Ascending.insert {entries : List (String × α)} (h : Ascending entries) (key : String)
    (value : α) : Ascending (Entries.insert key value entries) := by
  induction entries with
  | nil => exact List.pairwise_singleton _ _
  | cons e rest ih =>
    obtain ⟨k, v⟩ := e
    obtain ⟨hk, hrest⟩ := List.pairwise_cons.1 h
    rw [Entries.insert]
    split
    · rename_i hlt
      refine List.pairwise_cons.2 ⟨fun e he => ?_, h⟩
      rcases List.mem_cons.1 he with rfl | he
      · exact hlt
      · exact String.lt_trans hlt (hk e he)
    · rename_i hnlt
      split
      · rename_i heq
        subst heq
        exact List.pairwise_cons.2 ⟨hk, hrest⟩
      · rename_i hne
        refine List.pairwise_cons.2 ⟨fun e he => ?_, ih hrest⟩
        rcases mem_insert he with rfl | he
        · exact key_lt_of_not_lt hnlt hne
        · exact hk e he

theorem Ascending.erase {entries : List (String × α)} (h : Ascending entries) (key : String) :
    Ascending (Entries.erase key entries) :=
  List.Pairwise.sublist List.filter_sublist h

theorem get?_isSome_iff {key : String} {entries : List (String × α)} :
    (get? key entries).isSome ↔ key ∈ entries.map (·.1) := by
  induction entries with
  | nil => simp
  | cons e rest ih =>
    obtain ⟨k, v⟩ := e
    rw [get?_cons]
    by_cases h : k = key
    · simp [h]
    · simp [h, ih, Ne.symm h]

theorem get?_eq_none_of_lt {key : String} {entries : List (String × α)}
    (h : ∀ e ∈ entries, key < e.1) : get? key entries = none := by
  induction entries with
  | nil => rfl
  | cons e rest ih =>
    obtain ⟨k, v⟩ := e
    have hk : k ≠ key := fun heq => String.lt_irrefl k (heq ▸ h (k, v) List.mem_cons_self)
    rw [get?_cons, if_neg hk]
    exact ih fun e he => h e (List.mem_cons_of_mem _ he)

/-- Ascending entry lists with the same look-ups are equal. -/
theorem Ascending.ext {a b : List (String × α)} (ha : Ascending a) (hb : Ascending b)
    (h : ∀ key, get? key a = get? key b) : a = b := by
  induction a generalizing b with
  | nil =>
    cases b with
    | nil => rfl
    | cons e rest =>
      obtain ⟨k, v⟩ := e
      simpa using h k
  | cons e rest ih =>
    obtain ⟨k, v⟩ := e
    obtain ⟨hk, hrest⟩ := List.pairwise_cons.1 ha
    cases b with
    | nil => simpa using h k
    | cons e' rest' =>
      obtain ⟨k', v'⟩ := e'
      obtain ⟨hk', hrest'⟩ := List.pairwise_cons.1 hb
      have hkk : k = k' := by
        rcases Classical.em (k = k') with heq | hne
        · exact heq
        · rcases Classical.em (k < k') with hlt | hnlt
          · have := h k
            rw [get?_cons, if_pos rfl, get?_cons, if_neg (Ne.symm hne),
              get?_eq_none_of_lt fun e he => String.lt_trans hlt (hk' e he)] at this
            exact absurd this (by simp)
          · have hlt : k' < k := key_lt_of_not_lt hnlt (Ne.symm hne)
            have := h k'
            rw [get?_cons, if_neg hne, get?_cons, if_pos rfl,
              get?_eq_none_of_lt fun e he => String.lt_trans hlt (hk e he)] at this
            exact absurd this (by simp)
      subst hkk
      have hv : v = v' := by simpa using h k
      subst hv
      congr 1
      refine ih hrest hrest' fun key => ?_
      by_cases hkey : k = key
      · subst hkey
        rw [get?_eq_none_of_lt hk, get?_eq_none_of_lt hk']
      · simpa [hkey] using h key

end Entries

/-! ## Maps -/

structure SortedMap (α : Type) where
  entries : List (String × α)
  ascending : Entries.Ascending entries

namespace SortedMap

variable {α : Type}

def empty : SortedMap α := ⟨[], List.Pairwise.nil⟩

instance : EmptyCollection (SortedMap α) := ⟨empty⟩
instance : Inhabited (SortedMap α) := ⟨empty⟩

def get? (m : SortedMap α) (key : String) : Option α := Entries.get? key m.entries

def insert (m : SortedMap α) (key : String) (value : α) : SortedMap α :=
  ⟨Entries.insert key value m.entries, m.ascending.insert key value⟩

def erase (m : SortedMap α) (key : String) : SortedMap α :=
  ⟨Entries.erase key m.entries, m.ascending.erase key⟩

/-- Later entries win over earlier ones of the same key. -/
def ofList (entries : List (String × α)) : SortedMap α :=
  entries.foldl (fun m e => m.insert e.1 e.2) empty

def keys (m : SortedMap α) : List String := m.entries.map (·.1)

def size (m : SortedMap α) : Nat := m.entries.length

def isEmpty (m : SortedMap α) : Bool := m.entries.isEmpty

@[simp] theorem get?_empty (key : String) : (empty : SortedMap α).get? key = none := rfl

@[simp] theorem get?_insert (m : SortedMap α) (key key' : String) (value : α) :
    (m.insert key value).get? key' = if key = key' then some value else m.get? key' :=
  Entries.get?_insert key key' value m.entries

@[simp] theorem get?_erase (m : SortedMap α) (key key' : String) :
    (m.erase key).get? key' = if key = key' then none else m.get? key' :=
  Entries.get?_erase key key' m.entries

@[ext] theorem ext {a b : SortedMap α} (h : ∀ key, a.get? key = b.get? key) : a = b := by
  obtain ⟨xs, hx⟩ := a
  obtain ⟨ys, hy⟩ := b
  have : xs = ys := Entries.Ascending.ext hx hy h
  subst this
  rfl

theorem get?_foldl_insert (entries : List (String × α)) (h : Entries.Ascending entries)
    (m : SortedMap α) (key : String) :
    (entries.foldl (fun m e => m.insert e.1 e.2) m).get? key =
      (Entries.get? key entries).or (m.get? key) := by
  induction entries generalizing m with
  | nil => rfl
  | cons e rest ih =>
    obtain ⟨k, v⟩ := e
    obtain ⟨hk, hrest⟩ := List.pairwise_cons.1 h
    rw [List.foldl_cons, ih hrest, get?_insert, Entries.get?_cons]
    by_cases hkey : k = key
    · subst hkey
      simp [Entries.get?_eq_none_of_lt hk]
    · simp [hkey]

@[simp] theorem ofList_entries (m : SortedMap α) : ofList m.entries = m := by
  ext key
  rw [ofList, get?_foldl_insert m.entries m.ascending, get?_empty, Option.or_none, get?]

theorem get?_ofList_concat (entries : List (String × α)) (key k : String) (value : α) :
    (ofList (entries ++ [(key, value)])).get? k =
      if key = k then some value else (ofList entries).get? k := by
  simp [ofList, List.foldl_append]

theorem mem_keys_iff {m : SortedMap α} {key : String} : key ∈ m.keys ↔ (m.get? key).isSome :=
  Entries.get?_isSome_iff.symm

theorem keys_ascending (m : SortedMap α) : m.keys.Pairwise (· < ·) :=
  List.pairwise_map.2 m.ascending

theorem mem_keys_insert {m : SortedMap α} {key key' : String} {value : α} :
    key' ∈ (m.insert key value).keys ↔ key' = key ∨ key' ∈ m.keys := by
  rw [mem_keys_iff, mem_keys_iff, get?_insert]
  by_cases h : key = key'
  · simp [h]
  · simp [h, Ne.symm h]

theorem mem_keys_erase {m : SortedMap α} {key key' : String} :
    key' ∈ (m.erase key).keys ↔ key' ≠ key ∧ key' ∈ m.keys := by
  rw [mem_keys_iff, mem_keys_iff, get?_erase]
  by_cases h : key = key'
  · simp [h]
  · simp [h, Ne.symm h]

end SortedMap

end Cascade
