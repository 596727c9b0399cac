import Mathlib.Logic.Function.Iterate
import Mathlib.Tactic.SplitIfs

/-!
# Round robin

An index that goes round `0, …, n-1`.  `turnsUntil i j` is the number of turns the index `i` has to take until it is
at `j`; every turn from another index is one of them.
-/

namespace Exchange

variable {n : Nat}

/-- The next index. -/
def rotate (i : Fin n) : Fin n := ⟨(i.val + 1) % n, Nat.mod_lt _ i.pos⟩

def turnsUntil (i j : Fin n) : Nat := if i.val ≤ j.val then j.val - i.val else j.val + n - i.val

theorem rotate_val (i : Fin n) : (rotate i).val = if i.val + 1 = n then 0 else i.val + 1 := by
  unfold rotate
  dsimp only
  split_ifs with hlast
  · rw [hlast, Nat.mod_self]
  · exact Nat.mod_eq_of_lt (by omega)

theorem turnsUntil_lt (i j : Fin n) : turnsUntil i j < n := by
  unfold turnsUntil
  split_ifs <;> omega

theorem turnsUntil_rotate {i j : Fin n} (h : i ≠ j) : turnsUntil (rotate i) j + 1 = turnsUntil i j := by
  have hval : i.val ≠ j.val := fun e => h (Fin.ext e)
  unfold turnsUntil
  rw [rotate_val]
  split_ifs <;> omega

/-- After `k` turns. -/
theorem iterate_rotate_val (i : Fin n) (k : Nat) : (rotate^[k] i).val = (i.val + k) % n := by
  induction k generalizing i with
  | zero => exact (Nat.mod_eq_of_lt i.isLt).symm
  | succ k ih =>
    rw [Function.iterate_succ_apply, ih]
    unfold rotate
    dsimp only
    rw [Nat.mod_add_mod]
    congr 1
    omega

theorem iterate_rotate_turnsUntil (i j : Fin n) : rotate^[turnsUntil i j] i = j := by
  apply Fin.ext
  rw [iterate_rotate_val]
  unfold turnsUntil
  split_ifs with hle
  · rw [Nat.add_sub_cancel' hle]
    exact Nat.mod_eq_of_lt j.isLt
  · have hback : i.val + (j.val + n - i.val) = j.val + n := by omega
    rw [hback, Nat.add_mod_right]
    exact Nat.mod_eq_of_lt j.isLt

/-- After `n` turns the index is back. -/
theorem iterate_rotate_self (i : Fin n) : rotate^[n] i = i := by
  apply Fin.ext
  rw [iterate_rotate_val, Nat.add_mod_right]
  exact Nat.mod_eq_of_lt i.isLt

end Exchange
