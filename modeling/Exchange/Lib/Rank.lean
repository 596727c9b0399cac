import Exchange.Lib.Cumulative
import Mathlib.Data.List.Sort

/-!
# Ranks

The element of rank `k` of a list is the `k`-th smallest one.  Fewer than `k` elements are smaller, and at least `k`
are not greater.  If the elements are counted by classes and the class is monotone in the element, the running sum of
the counts first reaches `k` at the class of the element of rank `k`.
-/

namespace Exchange

section

variable {α : Type} [LinearOrder α] {l : List α} {k : Nat} {x : α}

def kthSmallest (l : List α) (k : Nat) : Option α := (l.insertionSort (· ≤ ·))[k - 1]?

theorem exists_kthSmallest (hk : 1 ≤ k) (hle : k ≤ l.length) : ∃ x, kthSmallest l k = some x := by
  have hlt : k - 1 < (l.insertionSort (· ≤ ·)).length := by
    rw [List.length_insertionSort]
    omega
  exact ⟨_, List.getElem?_eq_getElem hlt⟩

theorem mem_of_kthSmallest (h : kthSmallest l k = some x) : x ∈ l :=
  (List.mem_insertionSort _).1 (List.mem_of_getElem? h)

/-- The sorted list, split at the element of rank `k`. -/
private theorem split_at_rank (hk : 1 ≤ k) (h : kthSmallest l k = some x) :
    ∃ before after, (before ++ x :: after).Perm l ∧ before.length + 1 = k ∧ (∀ y ∈ before, y ≤ x) ∧
      ∀ y ∈ after, x ≤ y := by
  have hperm := List.perm_insertionSort (· ≤ ·) l
  have hsorted := List.pairwise_insertionSort (· ≤ ·) l
  unfold kthSmallest at h
  generalize l.insertionSort (· ≤ ·) = s at h hperm hsorted
  obtain ⟨hlt, hget⟩ := List.getElem?_eq_some_iff.1 h
  have hsplit : s = s.take (k - 1) ++ x :: s.drop (k - 1 + 1) := by
    rw [← hget, ← List.drop_eq_getElem_cons hlt, List.take_append_drop]
  rw [hsplit, List.pairwise_append] at hsorted
  obtain ⟨-, hafter, hbefore⟩ := hsorted
  refine ⟨s.take (k - 1), s.drop (k - 1 + 1), ?_, ?_, ?_, ?_⟩
  · rwa [← hsplit]
  · rw [List.length_take]
    omega
  · intro y hy
    exact hbefore y hy x List.mem_cons_self
  · intro y hy
    exact (List.pairwise_cons.1 hafter).1 y hy

theorem countP_lt_of_kthSmallest (hk : 1 ≤ k) (h : kthSmallest l k = some x) :
    l.countP (fun y => decide (y < x)) < k := by
  obtain ⟨before, after, hperm, hlen, -, hafter⟩ := split_at_rank hk h
  have hnone : after.countP (fun y => decide (y < x)) = 0 := by
    rw [List.countP_eq_zero]
    intro y hy
    simpa using hafter y hy
  have hle : before.countP (fun y => decide (y < x)) ≤ before.length := List.countP_le_length
  rw [← hperm.countP_eq, List.countP_append, List.countP_cons_of_neg (by simp), hnone]
  omega

theorem le_countP_of_kthSmallest (hk : 1 ≤ k) (h : kthSmallest l k = some x) :
    k ≤ l.countP fun y => decide (y ≤ x) := by
  obtain ⟨before, after, hperm, hlen, hbefore, -⟩ := split_at_rank hk h
  have hall : before.countP (fun y => decide (y ≤ x)) = before.length := by
    rw [List.countP_eq_length]
    intro y hy
    simpa using hbefore y hy
  rw [← hperm.countP_eq, List.countP_append, List.countP_cons_of_pos (by simp), hall]
  omega

/-- The running sum of the counts per class reaches `k` at the class of the element of rank `k`. -/
theorem firstReaching_rank {g : α → Nat} {n : Nat} (hmono : ∀ y ∈ l, ∀ z ∈ l, y ≤ z → g y ≤ g z)
    (hn : ∀ y ∈ l, g y < n) (hk : 1 ≤ k) (h : kthSmallest l k = some x) :
    firstReaching (fun i => l.countP fun y => decide (g y = i)) k n 0 0 = some (g x) := by
  have hx := mem_of_kthSmallest h
  have hle := le_countP_of_kthSmallest hk h
  have hlt := countP_lt_of_kthSmallest hk h
  have hupto : ∀ i, g x ≤ i → k ≤ l.countP fun y => decide (g y ≤ i) := by
    intro i hi
    refine hle.trans (List.countP_mono_left fun y hy hyx => ?_)
    have := hmono y hy x hx (of_decide_eq_true hyx)
    exact decide_eq_true (by omega)
  have hbelow : ∀ i, i < g x → l.countP (fun y => decide (g y ≤ i)) < k := by
    intro i hi
    refine lt_of_le_of_lt (List.countP_mono_left fun y hy hyi => ?_) hlt
    have hyi := of_decide_eq_true hyi
    refine decide_eq_true (lt_of_not_ge fun hxy => ?_)
    have := hmono x hx y hy hxy
    omega
  have hpos : 0 < n := by
    have := hn x hx
    omega
  have hreach : k ≤ ∑ i ∈ Finset.range n, l.countP fun y => decide (g y = i) := by
    rw [show n = n - 1 + 1 by omega, sum_countP]
    exact hupto _ (by have := hn x hx; omega)
  obtain ⟨j, -, hfound, hiff⟩ := firstReaching_spec hpos hreach
  have hj : ∀ i, j ≤ i ↔ k ≤ l.countP fun y => decide (g y ≤ i) := by
    intro i
    rw [hiff, sum_countP]
  have hjx : j ≤ g x := (hj _).2 (hupto _ le_rfl)
  have hxj : g x ≤ j := by
    by_contra hgt
    have := (hj j).1 le_rfl
    have := hbelow j (by omega)
    omega
  rw [hfound, le_antisymm hjx hxj]

end

end Exchange
