import Mathlib.Data.List.Induction
import Mathlib.Data.List.Nodup
import Cascade.SortedMap

/-! # Maps that are listed in any order

A map with the same look-ups may list its entries in any order, each once. Whatever that order is,
sorting the keys gives those of the map that is kept in key order, and collecting the entries gives
that map itself.
-/
namespace Cascade

variable {α : Type}

/-- The list tells each entry that is found by the look-up, and each once. -/
structure Lists (listing : List (String × α)) (lookup : String → Option α) : Prop where
  nodup : (listing.map (·.1)).Nodup
  mem_iff (key : String) (value : α) : (key, value) ∈ listing ↔ lookup key = some value

theorem Lists.mem_keys_iff {listing : List (String × α)} {lookup : String → Option α}
    (h : Lists listing lookup) (key : String) :
    key ∈ listing.map (·.1) ↔ (lookup key).isSome := by
  rw [Option.isSome_iff_exists, List.mem_map]
  constructor
  · rintro ⟨⟨k,value⟩,he,rfl⟩
    exact ⟨value,(h.mem_iff k value).1 he⟩
  · rintro ⟨value,hv⟩
    exact ⟨(key, value),(h.mem_iff key value).2 hv,rfl⟩

namespace Entries

theorem get?_eq_some_iff {entries : List (String × α)} (h : (entries.map (·.1)).Nodup)
    {key : String} {value : α} : get? key entries = some value ↔ (key, value) ∈ entries := by
  induction entries with
  | nil => simp
  | cons e rest ih =>
    obtain ⟨k,v⟩ := e
    obtain ⟨hk,hrest⟩ := List.nodup_cons.1 h
    rw [get?_cons, List.mem_cons]
    by_cases hkey : k = key
    · subst hkey
      have hnot : (k, value) ∉ rest := fun he => hk (List.mem_map.2 ⟨_,he,rfl⟩)
      simp [hnot, eq_comm]
    · rw [if_neg hkey, ih hrest]
      simp [Ne.symm hkey]

end Entries

namespace SortedMap

variable {m : SortedMap α}

theorem nodup_keys (m : SortedMap α) : m.keys.Nodup :=
  m.keys_ascending.imp fun {_ _} h => (String.ne_of_lt h)

theorem lists_entries (m : SortedMap α) : Lists m.entries m.get? where
  nodup := m.nodup_keys
  mem_iff _ _ := (Entries.get?_eq_some_iff m.nodup_keys).symm

/-- Later entries win: a look-up finds the last one. -/
theorem get?_ofList (entries : List (String × α)) (key : String) :
    (ofList entries).get? key = Entries.get? key entries.reverse := by
  induction entries using List.reverseRecOn with
  | nil => rfl
  | append_singleton entries e ih =>
    obtain ⟨k,v⟩ := e
    rw [get?_ofList_concat, List.reverse_append, ih]
    rfl

variable {listing : List (String × α)} (h : Lists listing m.get?)
include h

theorem ofList_of_lists : ofList listing = m := by
  have hnodup : (listing.reverse.map (·.1)).Nodup := by
    rw [List.map_reverse, List.nodup_reverse]
    exact h.nodup
  refine SortedMap.ext fun key => Option.ext fun value => ?_
  rw [get?_ofList, Entries.get?_eq_some_iff hnodup, List.mem_reverse, h.mem_iff]

theorem mergeSort_of_lists : (listing.map (·.1)).mergeSort = m.keys := by
  have hperm : (listing.map (·.1)).mergeSort.Perm m.keys :=
    (List.mergeSort_perm _ _).trans ((List.perm_ext_iff_of_nodup h.nodup m.nodup_keys).2 fun key =>
      (h.mem_keys_iff key).trans mem_keys_iff.symm)
  have hsorted : (listing.map (·.1)).mergeSort.Pairwise fun a b => decide (a ≤ b) = true := by
    refine List.pairwise_mergeSort ?_ ?_ _
    · intro a b c hab hbc
      exact decide_eq_true (String.le_trans (of_decide_eq_true hab) (of_decide_eq_true hbc))
    · intro a b
      simp [String.le_total]
  refine hperm.eq_of_pairwise (fun a b _ _ => String.le_antisymm)
    (hsorted.imp of_decide_eq_true) (m.keys_ascending.imp fun {a b} hlt => ?_)
  exact String.not_lt.1 (String.lt_asymm hlt)

end SortedMap

end Cascade
