import Mathlib.Data.List.MinMax

/-!
# The first best element of a list

`firstMin f l` is the earliest element of `l` with the least `f`.  The lemmas describe it by its position in `l`, and
say how it behaves when the list is filtered.
-/

namespace Exchange

variable {α β : Type} [LinearOrder β] {f : α → β} {l : List α} {x y : α}

/-- `List.argmin` over a linear order. -/
def firstMin (f : α → β) (l : List α) : Option α := l.argmin f

theorem firstMin_mem (h : firstMin f l = some x) : x ∈ l := List.argmin_mem h

theorem firstMin_eq_none : firstMin f l = none ↔ l = [] := List.argmin_eq_none

theorem firstMin_le (h : firstMin f l = some x) (hy : y ∈ l) : f x ≤ f y := List.le_of_mem_argmin hy h

theorem firstMin_append_cons {a c : List α} (ha : ∀ y ∈ a, f x < f y) (hc : ∀ y ∈ c, f x ≤ f y) :
    firstMin f (a ++ x :: c) = some x := by
  unfold firstMin
  induction a with
  | nil =>
    rw [List.nil_append, List.argmin_cons]
    cases h : c.argmin f with
    | none => rfl
    | some m =>
      have := hc m (List.argmin_mem h)
      simp [not_lt.2 this]
  | cons y a ih =>
    have hy := ha y (List.mem_cons_self ..)
    rw [List.cons_append, List.argmin_cons, ih fun z hz => ha z (List.mem_cons_of_mem _ hz)]
    simp [hy]

theorem firstMin_eq_some_append (h : firstMin f l = some x) :
    ∃ a c, l = a ++ x :: c ∧ (∀ y ∈ a, f x < f y) ∧ ∀ y ∈ c, f x ≤ f y := by
  unfold firstMin at h
  induction l with
  | nil => simp at h
  | cons z l ih =>
    rw [List.argmin_cons] at h
    cases hl : l.argmin f with
    | none =>
      rw [hl] at h
      obtain rfl := List.argmin_eq_none.1 hl
      cases h
      exact ⟨[], [], rfl, by simp, by simp⟩
    | some m =>
      rw [hl] at h
      dsimp only at h
      split_ifs at h with hlt
      · cases h
        obtain ⟨a, c, rfl, ha, hc⟩ := ih hl
        refine ⟨z :: a, c, rfl, ?_, hc⟩
        intro y hy
        rcases List.mem_cons.1 hy with rfl | hy
        · exact hlt
        · exact ha y hy
      · cases h
        refine ⟨[], l, rfl, by simp, fun y hy => ?_⟩
        exact (not_lt.1 hlt).trans (List.le_of_mem_argmin hy hl)

/-- The first element of the least class. -/
theorem firstMin_eq_of_find? (hmin : ∀ y ∈ l, f x ≤ f y)
    (hfind : l.find? (fun y => decide (f y = f x)) = some x) : firstMin f l = some x := by
  obtain ⟨-, a, c, rfl, ha⟩ := List.find?_eq_some_iff_append.1 hfind
  refine firstMin_append_cons (fun y hy => ?_) fun y hy => ?_
  · refine lt_of_le_of_ne (hmin y (List.mem_append_left _ hy)) fun e => ?_
    have := ha y hy
    simp [e] at this
  · exact hmin y (List.mem_append_right _ (List.mem_cons_of_mem _ hy))

/-- Filtering keeps the first best element if it satisfies the filter. -/
theorem firstMin_filter {p : α → Bool} (h : firstMin f l = some x) (hx : p x = true) :
    firstMin f (l.filter p) = some x := by
  obtain ⟨a, c, rfl, ha, hc⟩ := firstMin_eq_some_append h
  rw [List.filter_append, List.filter_cons, if_pos hx]
  exact firstMin_append_cons (fun y hy => ha y (List.mem_filter.1 hy).1) fun y hy => hc y (List.mem_filter.1 hy).1

/-- A map that keeps the order of the keys keeps the first best element. -/
theorem firstMin_map {α' β' : Type} [LinearOrder β'] {f' : α' → β'} {g : α → α'}
    (h : ∀ x y, f' (g x) < f' (g y) ↔ f x < f y) : firstMin f' (l.map g) = (firstMin f l).map g := by
  unfold firstMin
  induction l with
  | nil => rfl
  | cons z l ih =>
    rw [List.map_cons, List.argmin_cons, List.argmin_cons, ih]
    cases l.argmin f with
    | none => rfl
    | some m =>
      dsimp only [Option.map_some]
      by_cases hlt : f m < f z
      · rw [if_pos hlt, if_pos ((h m z).2 hlt)]
        rfl
      · rw [if_neg hlt, if_neg fun hlt' => hlt ((h m z).1 hlt')]
        rfl

/-- The first best element is the first one of its class. -/
theorem firstMin_find? (h : firstMin f l = some x) : l.find? (fun y => decide (f y = f x)) = some x := by
  obtain ⟨a, c, rfl, ha, -⟩ := firstMin_eq_some_append h
  have hnone : a.find? (fun y => decide (f y = f x)) = none :=
    List.find?_eq_none.2 fun y hy => by simpa using (ha y hy).ne'
  rw [List.find?_append, hnone, Option.none_or, List.find?_cons, decide_eq_true rfl]

/-- Where the first best element is, seen from any other one. -/
theorem firstMin_append_cons_cases {a c : List α} (h : firstMin f (a ++ x :: c) = some y) :
    y ∈ a ∧ f y ≤ f x ∨ y = x ∧ (∀ z ∈ a, f x < f z) ∧ (∀ z ∈ c, f x ≤ f z) ∨ y ∈ c ∧ f y < f x := by
  have hle : ∀ z ∈ a ++ x :: c, f y ≤ f z := fun z hz => firstMin_le h hz
  have hyx : f y ≤ f x := hle x (by simp)
  by_cases hya : y ∈ a
  · exact Or.inl ⟨hya, hyx⟩
  -- nothing before `x` is as good as `y`
  have hbefore : ∀ z ∈ a, f y < f z := by
    intro z hz
    refine lt_of_le_of_ne (hle z (List.mem_append_left _ hz)) fun heq => hya ?_
    obtain ⟨w, hw⟩ := Option.isSome_iff_exists.1
      (List.find?_isSome.2 ⟨z, hz, decide_eq_true heq.symm⟩ : (a.find? fun z => decide (f z = f y)).isSome)
    have hfind := firstMin_find? h
    rw [List.find?_append, hw, Option.some_or] at hfind
    cases hfind
    exact List.mem_of_find?_eq_some hw
  rcases hyx.lt_or_eq with hlt | heq
  · refine Or.inr (Or.inr ⟨?_, hlt⟩)
    rcases List.mem_append.1 (firstMin_mem h) with hy | hy
    · exact absurd hy hya
    · exact (List.mem_cons.1 hy).resolve_left fun e => hlt.ne (by rw [e])
  · have hnone : (a.find? fun z => decide (f z = f y)) = none :=
      List.find?_eq_none.2 fun z hz => by simpa using (hbefore z hz).ne'
    have hfind := firstMin_find? h
    rw [List.find?_append, hnone, Option.none_or, List.find?_cons, decide_eq_true heq.symm] at hfind
    cases hfind
    exact Or.inr (Or.inl ⟨rfl, hbefore, fun z hz => hle z (by simp [hz])⟩)

/-- Only the order within the classes of equal keys matters. -/
theorem firstMin_congr_classes {l' : List α}
    (h : ∀ k, l.filter (fun y => decide (f y = k)) = l'.filter fun y => decide (f y = k)) :
    firstMin f l = firstMin f l' := by
  have hmem : ∀ y, y ∈ l ↔ y ∈ l' := by
    intro y
    have hclass : y ∈ l.filter (fun z => decide (f z = f y)) ↔ y ∈ l'.filter fun z => decide (f z = f y) := by
      rw [h]
    simpa using hclass
  cases hmin : firstMin f l with
  | none =>
    have hnil := firstMin_eq_none.1 hmin
    refine (firstMin_eq_none.2 (List.eq_nil_iff_forall_not_mem.2 fun y hy => ?_)).symm
    have hy' := (hmem y).2 hy
    rw [hnil] at hy'
    cases hy'
  | some x =>
    refine (firstMin_eq_of_find? (fun y hy => firstMin_le hmin ((hmem y).2 hy)) ?_).symm
    rw [← List.head?_filter, ← h, List.head?_filter]
    exact firstMin_find? hmin

end Exchange
