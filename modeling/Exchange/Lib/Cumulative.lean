import Mathlib.Algebra.BigOperators.Group.Finset.Piecewise
import Mathlib.Algebra.Order.BigOperators.Group.Finset

/-!
# Running sums

The search for the first index at which a running sum reaches a target.  If the sum reaches it at all, the index that
is found is the least one, which is said here as an equivalence: the index is at most `i` if and only if the sum up to
and including `i` has reached the target.  A sum of machine integers that does not wrap around finds the same index.
For sums of numbers of elements per class, the sum up to a class is the number of elements up to it.
-/

namespace Exchange

open Finset

/-- The first index from `i` on, among `n`, at which the running sum of `f` that stands at `acc` reaches `target`. -/
def firstReaching {α : Type} [Add α] [LE α] [DecidableLE α] (f : Nat → α) (target : α) : Nat → Nat → α → Option Nat
  | 0, _, _ => none
  | n + 1, i, acc =>
    let acc := acc + f i
    if target ≤ acc then some i else firstReaching f target n (i + 1) acc

section

variable {f : Nat → Nat} {target : Nat}

private theorem firstReaching_aux (n i : Nat) (hbefore : ∀ k < i, ∑ x ∈ range (k + 1), f x < target)
    (hn : 0 < n) (hreach : target ≤ ∑ x ∈ range (i + n), f x) :
    ∃ j < i + n, firstReaching f target n i (∑ x ∈ range i, f x) = some j ∧ target ≤ ∑ x ∈ range (j + 1), f x ∧
      ∀ k < j, ∑ x ∈ range (k + 1), f x < target := by
  induction n generalizing i with
  | zero => omega
  | succ n ih =>
    unfold firstReaching
    dsimp only
    rw [← sum_range_succ]
    by_cases hnow : target ≤ ∑ x ∈ range (i + 1), f x
    · rw [if_pos hnow]
      exact ⟨i, by omega, rfl, hnow, hbefore⟩
    · rw [if_neg hnow]
      have hpos : 0 < n := by
        rcases Nat.eq_zero_or_pos n with rfl | hpos
        · exact absurd hreach hnow
        · exact hpos
      obtain ⟨j, hj, hfound, hlast, hfirst⟩ := ih (i + 1)
        (fun k hk => by
          rcases Nat.lt_succ_iff_lt_or_eq.1 hk with hk | rfl
          · exact hbefore k hk
          · exact not_le.1 hnow)
        hpos (by rwa [Nat.add_right_comm])
      exact ⟨j, by omega, hfound, hlast, hfirst⟩

/-- What is found is the least index at which the sum has reached the target. -/
theorem firstReaching_spec {n : Nat} (hn : 0 < n) (hreach : target ≤ ∑ x ∈ range n, f x) :
    ∃ j < n, firstReaching f target n 0 0 = some j ∧ ∀ i, j ≤ i ↔ target ≤ ∑ x ∈ range (i + 1), f x := by
  have hreach' : target ≤ ∑ x ∈ range (0 + n), f x := by rwa [Nat.zero_add]
  obtain ⟨j, hj, hfound, hlast, hfirst⟩ := firstReaching_aux n 0 (fun k hk => absurd hk k.not_lt_zero) hn hreach'
  refine ⟨j, by omega, hfound, fun i => ⟨fun hji => ?_, fun hi => ?_⟩⟩
  · exact hlast.trans (sum_le_sum_of_subset (range_mono (Nat.succ_le_succ hji)))
  · by_contra hlt
    exact absurd hi (not_le.2 (hfirst i (not_le.1 hlt)))

end

/-- A running sum of machine integers that stays below `2 ^ 64`. -/
theorem firstReaching_toNat {f : Nat → UInt64} {target acc : UInt64} {n i : Nat}
    (hfits : acc.toNat + ∑ x ∈ range n, (f (i + x)).toNat < 2 ^ 64) :
    firstReaching f target n i acc = firstReaching (fun x => (f x).toNat) target.toNat n i acc.toNat := by
  induction n generalizing i acc with
  | zero => rfl
  | succ n ih =>
    rw [sum_range_succ', Nat.add_zero] at hfits
    have hadd : (acc + f i).toNat = acc.toNat + (f i).toNat := by
      rw [UInt64.toNat_add, Nat.mod_eq_of_lt (by omega)]
    have hrest : (acc + f i).toNat + ∑ x ∈ range n, (f (i + 1 + x)).toNat < 2 ^ 64 := by
      rw [hadd]
      simp only [Nat.add_right_comm _ 1, ← Nat.add_assoc] at hfits ⊢
      omega
    simp only [firstReaching, UInt64.le_iff_toNat_le, ih hrest, hadd]

/-- The number of elements up to a class. -/
theorem sum_countP {α : Type} (g : α → Nat) (l : List α) (i : Nat) :
    ∑ x ∈ range (i + 1), l.countP (fun a => decide (g a = x)) = l.countP fun a => decide (g a ≤ i) := by
  induction l with
  | nil => simp
  | cons a l ih =>
    simp only [List.countP_cons, decide_eq_true_eq, sum_add_distrib, ih, sum_ite_eq, mem_range, Nat.lt_succ_iff]

end Exchange
