import Mathlib.Algebra.BigOperators.Group.Finset.Piecewise
import Mathlib.Algebra.BigOperators.Ring.Finset
import Mathlib.Algebra.Order.BigOperators.Group.Finset
import Mathlib.Algebra.Order.Ring.Defs
import Mathlib.Data.Finset.Max
import Mathlib.Tactic.Ring

/-!
# Taking quantities from sources of limited capacity

Sources `k` offer up to `cap k` at a cost of `cost k` each.  An allocation that takes from a source only when all
cheaper ones are used up costs no more than any other allocation of the same total.  Allocations are also given as
lists of draws, each from one source; `drawn` collects what the draws take from one source.
-/

namespace Exchange

open Finset

variable {κ τ R : Type}

section

variable [CommRing R] [LinearOrder R] [IsStrictOrderedRing R]

/-- Whatever `g` takes from a source, it takes all of the cheaper ones. -/
def CheapestFirst (s : Finset κ) (cost cap g : κ → R) : Prop :=
  ∀ i ∈ s, ∀ j ∈ s, cost i < cost j → 0 < g j → g i = cap i

/-- All other allocations are compared at the cost `t` of the dearest source that `g` uses: `g` takes everything that
is cheaper and nothing that is dearer. -/
theorem CheapestFirst.cost_le {s : Finset κ} {cost cap g y : κ → R} (h : CheapestFirst s cost cap g)
    (hg : ∀ i ∈ s, 0 ≤ g i) (hy : ∀ i ∈ s, 0 ≤ y i ∧ y i ≤ cap i) (hsum : ∑ i ∈ s, y i = ∑ i ∈ s, g i) :
    ∑ i ∈ s, cost i * g i ≤ ∑ i ∈ s, cost i * y i := by
  by_cases hused : ∃ j ∈ s, 0 < g j
  · obtain ⟨j₀, hj₀, hpos₀⟩ := hused
    obtain ⟨j, hj, hmax⟩ := exists_max_image (s.filter fun j => 0 < g j) cost ⟨j₀, mem_filter.2 ⟨hj₀, hpos₀⟩⟩
    obtain ⟨hjs, hjpos⟩ := mem_filter.1 hj
    have hterm : ∀ i ∈ s, 0 ≤ (cost i - cost j) * (y i - g i) := by
      intro i hi
      rcases lt_trichotomy (cost i) (cost j) with hlt | heq | hgt
      · rw [h i hi j hjs hlt hjpos]
        exact mul_nonneg_of_nonpos_of_nonpos (sub_nonpos.2 hlt.le) (sub_nonpos.2 (hy i hi).2)
      · rw [heq, sub_self, zero_mul]
      · -- a source dearer than the dearest one in use is not in use
        have hzero : g i = 0 := by
          refine le_antisymm (not_lt.1 fun hpos => ?_) (hg i hi)
          exact absurd (hmax i (mem_filter.2 ⟨hi, hpos⟩)) (not_le.2 hgt)
        rw [hzero, sub_zero]
        exact mul_nonneg (sub_nonneg.2 hgt.le) (hy i hi).1
    have hexpand : ∑ i ∈ s, (cost i - cost j) * (y i - g i) =
        ∑ i ∈ s, cost i * y i - ∑ i ∈ s, cost i * g i - cost j * (∑ i ∈ s, y i - ∑ i ∈ s, g i) := by
      rw [← sum_sub_distrib, ← sum_sub_distrib, mul_sum, ← sum_sub_distrib]
      exact sum_congr rfl fun i _ => by ring
    have hnonneg := sum_nonneg hterm
    rw [hexpand, hsum, sub_self, mul_zero, sub_zero] at hnonneg
    exact sub_nonneg.1 hnonneg
  · -- nothing is taken at all, so the other allocation takes nothing either
    push Not at hused
    have hzero : ∀ i ∈ s, g i = 0 := fun i hi => le_antisymm (hused i hi) (hg i hi)
    rw [sum_eq_zero hzero, sum_eq_zero_iff_of_nonneg fun i hi => (hy i hi).1] at hsum
    refine le_of_eq (sum_congr rfl fun i hi => ?_)
    rw [hzero i hi, hsum i hi]

end

section

variable [DecidableEq κ] [CommRing R]

/-- What the draws `ts` take from the source `k`. -/
def drawn (key : τ → κ) (qty : τ → R) (ts : List τ) (k : κ) : R :=
  ((ts.filter fun t => decide (key t = k)).map qty).sum

variable {key : τ → κ} {qty : τ → R}

theorem drawn_cons (t : τ) (ts : List τ) (k : κ) :
    drawn key qty (t :: ts) k = (if key t = k then qty t else 0) + drawn key qty ts k := by
  unfold drawn
  rw [List.filter_cons]
  by_cases hk : key t = k
  · simp [hk]
  · simp [hk]

/-- A sum over the draws, source by source. -/
theorem sum_mul_drawn (qty : τ → R) {s : Finset κ} (w : κ → R) {ts : List τ} (h : ∀ t ∈ ts, key t ∈ s) :
    ∑ k ∈ s, w k * drawn key qty ts k = (ts.map fun t => w (key t) * qty t).sum := by
  induction ts with
  | nil => simp [drawn]
  | cons t ts ih =>
    have hhead : ∑ k ∈ s, w k * (if key t = k then qty t else 0) = w (key t) * qty t := by
      simp only [mul_ite, mul_zero, sum_ite_eq, if_pos (h t (List.mem_cons_self ..))]
    simp only [drawn_cons, mul_add, sum_add_distrib, hhead, List.map_cons, List.sum_cons,
      ih fun u hu => h u (List.mem_cons_of_mem _ hu)]

theorem sum_drawn (qty : τ → R) {s : Finset κ} {ts : List τ} (h : ∀ t ∈ ts, key t ∈ s) :
    ∑ k ∈ s, drawn key qty ts k = (ts.map qty).sum := by
  simpa using sum_mul_drawn qty (fun _ => (1 : R)) h

/-- Draws from different sources take from each of them what its draw says. -/
theorem drawn_of_nodup {ts : List τ} (hnd : (ts.map key).Nodup) {t : τ} (ht : t ∈ ts) :
    drawn key qty ts (key t) = qty t := by
  induction ts with
  | nil => cases ht
  | cons u ts ih =>
    rw [List.map_cons, List.nodup_cons] at hnd
    rw [drawn_cons]
    rcases List.mem_cons.1 ht with rfl | ht
    · have hnone : ts.filter (fun u => decide (key u = key t)) = [] :=
        List.filter_eq_nil_iff.2 fun u hu => by
          simpa using fun e => hnd.1 (List.mem_map.2 ⟨u, hu, e⟩)
      rw [if_pos rfl, drawn, hnone]
      simp
    · have hne : key u ≠ key t := fun e => hnd.1 (List.mem_map.2 ⟨t, ht, e.symm⟩)
      rw [if_neg hne, zero_add, ih hnd.2 ht]

theorem drawn_eq_zero {ts : List τ} {k : κ} (h : ∀ t ∈ ts, key t ≠ k) : drawn key qty ts k = 0 := by
  unfold drawn
  rw [List.filter_eq_nil_iff.2 fun t ht => by simpa using h t ht]
  rfl

end

end Exchange
