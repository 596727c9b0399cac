import Mathlib.Data.List.TakeWhile
import Mathlib.Order.Bounds.Basic

/-!
# Sorted lists

The place of an element in a strictly increasing list, as `std::lower_bound` finds it, and what insertion and removal
at this place do to the list.  The last element of an increasing list is its greatest one.
-/

namespace Exchange

variable {α : Type} [LinearOrder α]

/-- The first position whose element is not less than `x`. -/
def lowerBound (v : List α) (x : α) : Nat := (v.takeWhile fun y => decide (y < x)).length

/-- The greatest element of a set, if it has any. -/
def Greatest (s : Set α) : Option α → Prop
  | none => s = ∅
  | some x => IsGreatest s x

theorem Greatest.unique {s : Set α} {r r' : Option α} (h : Greatest s r) (h' : Greatest s r') : r = r' := by
  cases r with
  | none =>
    cases r' with
    | none => rfl
    | some x => exact absurd h'.1 (by rw [show s = ∅ from h]; exact Set.notMem_empty x)
  | some x =>
    cases r' with
    | none => exact absurd h.1 (by rw [show s = ∅ from h']; exact Set.notMem_empty x)
    | some y => rw [IsGreatest.unique h h']

theorem Greatest.insert_none {s : Set α} (h : Greatest s none) (x : α) : Greatest (insert x s) (some x) := by
  rw [show s = ∅ from h]
  simp [Greatest]

theorem Greatest.insert_some {s : Set α} {y : α} (h : Greatest s (some y)) (x : α) :
    Greatest (insert x s) (some (if y < x then x else y)) := by
  obtain ⟨hy, hle⟩ := h
  by_cases hlt : y < x
  · rw [if_pos hlt]
    refine ⟨Set.mem_insert x s, ?_⟩
    rintro z (rfl | hz)
    · exact le_rfl
    · exact (hle hz).trans hlt.le
  · rw [if_neg hlt]
    refine ⟨Set.mem_insert_of_mem x hy, ?_⟩
    rintro z (rfl | hz)
    · exact not_lt.1 hlt
    · exact hle hz

/-- Taking out another element does not change the greatest one. -/
theorem Greatest.diff_of_ne {s : Set α} {r : Option α} {x : α} (h : Greatest s r) (hne : r ≠ some x) :
    Greatest (s \ {x}) r := by
  cases r with
  | none =>
    rw [show s = ∅ from h]
    exact Set.empty_sdiff _
  | some y =>
    have hyx : y ≠ x := fun e => hne (by rw [e])
    exact ⟨⟨h.1, hyx⟩, fun z hz => h.2 hz.1⟩

section

variable {v : List α} {x : α}

/-- The list is split into the elements less than `x` and the others. -/
theorem split_lowerBound (hv : v.Pairwise (· < ·)) (x : α) :
    ∃ lo hi, v = lo ++ hi ∧ lowerBound v x = lo.length ∧ (∀ y ∈ lo, y < x) ∧ ∀ y ∈ hi, x ≤ y := by
  refine ⟨v.takeWhile fun y => decide (y < x), v.dropWhile fun y => decide (y < x), ?_, rfl, ?_, ?_⟩
  · exact List.takeWhile_append_dropWhile.symm
  · intro y hy
    simpa using List.mem_takeWhile_imp hy
  · induction v with
    | nil => simp
    | cons z v ih =>
      rw [List.pairwise_cons] at hv
      by_cases hz : z < x
      · rw [List.dropWhile_cons_of_pos (by simpa using hz)]
        exact ih hv.2
      · rw [List.dropWhile_cons_of_neg (by simpa using hz)]
        intro y hy
        rcases List.mem_cons.1 hy with rfl | hy
        · exact not_lt.1 hz
        · exact (not_lt.1 hz).trans (hv.1 y hy).le

theorem insertIdx_append {β : Type} (lo hi : List β) (x : β) : (lo ++ hi).insertIdx lo.length x = lo ++ x :: hi := by
  induction lo with
  | nil => rfl
  | cons y lo ih => simp [ih]

theorem eraseIdx_append {β : Type} (lo hi : List β) (x : β) : (lo ++ x :: hi).eraseIdx lo.length = lo ++ hi := by
  induction lo with
  | nil => rfl
  | cons y lo ih => simp [ih]

/-- If the element at the lower bound of `x` is not `x`, all others are greater than `x`. -/
theorem split_of_lowerBound_ne (hv : v.Pairwise (· < ·)) (h : v[lowerBound v x]? ≠ some x) :
    ∃ lo hi, v = lo ++ hi ∧ lowerBound v x = lo.length ∧ (∀ y ∈ lo, y < x) ∧ ∀ y ∈ hi, x < y := by
  obtain ⟨lo, hi, rfl, hlen, hlo, hhi⟩ := split_lowerBound hv x
  refine ⟨lo, hi, rfl, hlen, hlo, ?_⟩
  rw [hlen] at h
  cases hi with
  | nil => simp
  | cons z hi =>
    have hz : z ≠ x := by
      rintro rfl
      simp at h
    have hxz : x < z := lt_of_le_of_ne (hhi z List.mem_cons_self) (Ne.symm hz)
    have hsorted := (List.pairwise_append.1 hv).2.1
    intro y hy
    rcases List.mem_cons.1 hy with rfl | hy
    · exact hxz
    · exact hxz.trans ((List.pairwise_cons.1 hsorted).1 y hy)

theorem not_mem_of_lowerBound_ne (hv : v.Pairwise (· < ·)) (h : v[lowerBound v x]? ≠ some x) : x ∉ v := by
  obtain ⟨lo, hi, rfl, -, hlo, hhi⟩ := split_of_lowerBound_ne hv h
  intro hx
  rcases List.mem_append.1 hx with hx | hx
  · exact lt_irrefl x (hlo x hx)
  · exact lt_irrefl x (hhi x hx)

/-- Then inserting `x` there keeps the list increasing. -/
theorem insertIdx_lowerBound (hv : v.Pairwise (· < ·)) (h : v[lowerBound v x]? ≠ some x) :
    (v.insertIdx (lowerBound v x) x).Pairwise (· < ·) ∧ ∀ y, y ∈ v.insertIdx (lowerBound v x) x ↔ y = x ∨ y ∈ v := by
  obtain ⟨lo, hi, rfl, hlen, hlo, hhi⟩ := split_of_lowerBound_ne hv h
  obtain ⟨hlo', hhi', hlohi⟩ := List.pairwise_append.1 hv
  rw [hlen, insertIdx_append]
  constructor
  · rw [List.pairwise_append, List.pairwise_cons]
    refine ⟨hlo', ⟨hhi, hhi'⟩, ?_⟩
    intro y hy z hz
    rcases List.mem_cons.1 hz with rfl | hz
    · exact hlo y hy
    · exact hlohi y hy z hz
  · intro y
    simp only [List.mem_append, List.mem_cons]
    exact or_left_comm

/-- If the element at the lower bound of `x` is `x`, removing it takes `x` out. -/
theorem eraseIdx_lowerBound (hv : v.Pairwise (· < ·)) (h : v[lowerBound v x]? = some x) :
    (v.eraseIdx (lowerBound v x)).Pairwise (· < ·) ∧ ∀ y, y ∈ v.eraseIdx (lowerBound v x) ↔ y ≠ x ∧ y ∈ v := by
  refine ⟨hv.sublist (List.eraseIdx_sublist _ _), ?_⟩
  obtain ⟨lo, hi, rfl, hlen, -, -⟩ := split_lowerBound hv x
  rw [hlen] at h ⊢
  cases hi with
  | nil => simp at h
  | cons z hi =>
    obtain rfl : z = x := by simpa using h
    rw [eraseIdx_append]
    obtain ⟨-, hhi', hlohi⟩ := List.pairwise_append.1 hv
    have hlo : z ∉ lo := fun hz => lt_irrefl z (hlohi z hz z List.mem_cons_self)
    have hhi : z ∉ hi := fun hz => lt_irrefl z ((List.pairwise_cons.1 hhi').1 z hz)
    intro y
    simp only [List.mem_append, List.mem_cons]
    constructor
    · rintro (hy | hy)
      · exact ⟨fun e => hlo (e ▸ hy), Or.inl hy⟩
      · exact ⟨fun e => hhi (e ▸ hy), Or.inr (Or.inr hy)⟩
    · rintro ⟨hne, hy | rfl | hy⟩
      · exact Or.inl hy
      · exact absurd rfl hne
      · exact Or.inr hy

theorem greatest_getLast? (hv : v.Pairwise (· < ·)) : Greatest {y | y ∈ v} v.getLast? := by
  rcases List.eq_nil_or_concat v with rfl | ⟨lo, x, rfl⟩
  · simp [Greatest]
  · rw [List.concat_eq_append] at hv ⊢
    rw [List.getLast?_concat]
    refine ⟨by simp, ?_⟩
    intro y hy
    rcases List.mem_append.1 hy with hy | hy
    · exact ((List.pairwise_append.1 hv).2.2 y hy x (by simp)).le
    · exact (List.mem_singleton.1 hy).le

end

end Exchange
