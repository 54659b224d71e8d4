/-! # Levels

How deep runs and wraps lie within each other. Levels are told and decide nothing. They are words of
64 bits, so they run out: one level deeper than the last is the first.
-/
namespace Cascade

abbrev Level := UInt64

instance : Coe Nat Level := ⟨UInt64.ofNat⟩

namespace Level

theorem add_ofNat_succ (level : Level) (n : Nat) :
    level + .ofNat (n + 1) = level + 1 + .ofNat n := by
  rw [Nat.add_comm n 1, UInt64.ofNat_add, ← UInt64.add_assoc]
  rfl

theorem add_right_comm (l m n : Level) : l + m + n = l + n + m := by
  rw [UInt64.add_assoc, UInt64.add_comm m, ← UInt64.add_assoc]

/-- As long as levels do not run out, they are counted. -/
theorem toNat_add_ofNat {level : Level} {n : Nat} (h : level.toNat + n < UInt64.size) :
    (level + .ofNat n).toNat = level.toNat + n := by
  rw [UInt64.toNat_add, UInt64.toNat_ofNat', Nat.add_mod_mod]
  exact Nat.mod_eq_of_lt h

theorem toNat_add_one {level : Level} (h : level.toNat + 1 < UInt64.size) :
    (level + 1).toNat = level.toNat + 1 := toNat_add_ofNat h

/-- The first level is the second or up to `k` levels deeper. -/
def Below (k : Nat) (m n : Level) : Prop := ∃ j ≤ k, m = n + j

namespace Below

variable {k : Nat} {m n : Level}

theorem refl (k : Nat) (n : Level) : Below k n n := ⟨0, Nat.zero_le k, (UInt64.add_zero n).symm⟩

theorem add_one (h : Below k m n) : Below k (m + 1) (n + 1) := by
  obtain ⟨j, hj, rfl⟩ := h
  exact ⟨j, hj, add_right_comm n _ 1⟩

theorem succ (h : Below k m n) : Below (k + 1) (m + 1) n := by
  obtain ⟨j, hj, rfl⟩ := h
  refine ⟨j + 1, Nat.succ_le_succ hj, ?_⟩
  rw [add_ofNat_succ, add_right_comm n 1]

end Below

end Level

end Cascade
