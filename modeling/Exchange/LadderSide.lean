import Exchange.Bitmap
import Exchange.PriceLevel

/-!
# One side of the price ladder

`LadderSide<NumLevels, IsBid>` of `jane/book/order_book.hpp`: the price levels of one side, a bitmap of the occupied
ones and the index of the best one.  `LadderSide.Inv` is the invariant its two notifications keep: the bitmap marks
exactly the levels with orders, and the best index is the highest (bids) or lowest (asks) marked one.
-/

namespace Exchange

structure LadderSide (numLevels : Nat) (isBid : Bool) where
  levels : Nat → PriceLevel
  occupied : Bitmap numLevels
  bestIndex : Option Nat

namespace LadderSide

variable {numLevels : Nat} {isBid : Bool}

def new (numLevels : Nat) (isBid : Bool) : LadderSide numLevels isBid where
  levels := fun _ => {}
  occupied := Bitmap.new numLevels
  bestIndex := none

def level (l : LadderSide numLevels isBid) (i : Nat) : PriceLevel := l.levels i

/-- An assignment through the reference that `level` returns. -/
def setLevel (l : LadderSide numLevels isBid) (i : Nat) (lvl : PriceLevel) : LadderSide numLevels isBid :=
  { l with levels := Function.update l.levels i lvl }

def isBetter (isBid : Bool) (a b : Nat) : Bool := if isBid then decide (a > b) else decide (a < b)

def noteNonempty (l : LadderSide numLevels isBid) (i : Nat) : LadderSide numLevels isBid :=
  let l := { l with occupied := l.occupied.set i }
  match l.bestIndex with
  | none => { l with bestIndex := some i }
  | some k => if isBetter isBid i k then { l with bestIndex := some i } else l

/-- The next best occupied index strictly worse than `i`. -/
def nextAfter (l : LadderSide numLevels isBid) (i : Nat) : Option Nat :=
  if isBid then (if i = 0 then none else l.occupied.findHighestAtOrBelow (i - 1))
  else l.occupied.findLowestAtOrAbove (i + 1)

def noteMaybeEmpty (l : LadderSide numLevels isBid) (i : Nat) : LadderSide numLevels isBid :=
  if !(l.level i).empty then l
  else
    let l := { l with occupied := l.occupied.clear i }
    if l.bestIndex = some i then
      { l with bestIndex :=
          if isBid then (if i = 0 then none else l.occupied.findHighestAtOrBelow (i - 1))
          else l.occupied.findLowestAtOrAbove (i + 1) }
    else l

@[simp] theorem level_setLevel_self (l : LadderSide numLevels isBid) (i : Nat) (lvl : PriceLevel) :
    (l.setLevel i lvl).level i = lvl := Function.update_self ..

theorem level_setLevel_of_ne (l : LadderSide numLevels isBid) {i j : Nat} (lvl : PriceLevel) (h : j ≠ i) :
    (l.setLevel i lvl).level j = l.level j := Function.update_of_ne h ..

@[simp] theorem level_noteNonempty (l : LadderSide numLevels isBid) (i j : Nat) :
    (l.noteNonempty i).level j = l.level j := by
  unfold noteNonempty
  cases l.bestIndex with
  | none => rfl
  | some k => dsimp only; split <;> rfl

@[simp] theorem level_noteMaybeEmpty (l : LadderSide numLevels isBid) (i j : Nat) :
    (l.noteMaybeEmpty i).level j = l.level j := by
  unfold noteMaybeEmpty
  split
  · rfl
  · dsimp only; split <;> rfl

theorem isBetter_self (isBid : Bool) (i : Nat) : isBetter isBid i i = false := by
  unfold isBetter; split <;> simp

theorem isBetter_of_ne {i j : Nat} (hne : j ≠ i) (h : isBetter isBid j i = false) : isBetter isBid i j = true := by
  unfold isBetter at *
  cases isBid <;> simp at * <;> omega

theorem not_isBetter_trans {i j k : Nat} (h₁ : isBetter isBid j k = false) (h₂ : isBetter isBid i k = true) :
    isBetter isBid j i = false := by
  unfold isBetter at *
  cases isBid <;> simp at * <;> omega

/-! ### The invariant -/

/-- `r` is the best index with property `p`, if there is one. -/
def IsBest (isBid : Bool) (p : Nat → Prop) : Option Nat → Prop
  | none => ∀ j, ¬ p j
  | some k => p k ∧ ∀ j, p j → isBetter isBid j k = false

structure Inv (l : LadderSide numLevels isBid) : Prop where
  range : ∀ i, numLevels ≤ i → (l.level i).empty = true
  bits : ∀ i, l.occupied.test i = !(l.level i).empty
  best : IsBest isBid (fun i => (l.level i).empty = false) l.bestIndex

theorem inv_new : (new numLevels isBid).Inv where
  range _ _ := rfl
  bits i := Bitmap.test_new i
  best j := by simp [level, new, PriceLevel.empty]

theorem Inv.clean {l : LadderSide numLevels isBid} (h : l.Inv) (j : Nat) (hj : numLevels ≤ j) :
    l.occupied.test j = false := by
  rw [h.bits, h.range j hj]
  rfl

/-- A set of indices and the best of them, after one index is added. -/
private theorem isBest_insert {p q : Nat → Prop} {r : Option Nat} {i : Nat} (h : IsBest isBid p r)
    (hq : ∀ j, q j ↔ j = i ∨ p j) :
    IsBest isBid q (r.elim (some i) fun k => if isBetter isBid i k then some i else some k) := by
  cases r with
  | none =>
    refine ⟨(hq i).2 (Or.inl rfl), fun j hj => ?_⟩
    rcases (hq j).1 hj with rfl | hp
    · exact isBetter_self isBid j
    · exact absurd hp (h j)
  | some k =>
    obtain ⟨hk, hmax⟩ := h
    rw [Option.elim_some]
    split
    · rename_i hb
      refine ⟨(hq i).2 (Or.inl rfl), fun j hj => ?_⟩
      rcases (hq j).1 hj with rfl | hp
      · exact isBetter_self isBid j
      · exact not_isBetter_trans (hmax j hp) hb
    · rename_i hb
      refine ⟨(hq k).2 (Or.inr hk), fun j hj => ?_⟩
      rcases (hq j).1 hj with rfl | hp
      · simpa using hb
      · exact hmax j hp

/-- The best index stays when another one is taken out. -/
private theorem isBest_erase {p q : Nat → Prop} {r : Option Nat} {i : Nat} (h : IsBest isBid p r) (hi : r ≠ some i)
    (hq : ∀ j, q j ↔ j ≠ i ∧ p j) : IsBest isBid q r := by
  cases r with
  | none => exact fun j hj => h j ((hq j).1 hj).2
  | some k =>
    obtain ⟨hk, hmax⟩ := h
    have hki : k ≠ i := fun e => hi (by rw [e])
    exact ⟨(hq k).2 ⟨hki, hk⟩, fun j hj => hmax j ((hq j).1 hj).2⟩

/-- When the best index is taken out, all that is left is strictly worse. -/
private theorem isBest_erase_best {p q : Nat → Prop} {i : Nat} (h : IsBest isBid p (some i))
    (hq : ∀ j, q j ↔ j ≠ i ∧ p j) (j : Nat) : q j ↔ q j ∧ isBetter isBid i j = true := by
  refine ⟨fun hj => ⟨hj, ?_⟩, And.left⟩
  obtain ⟨hji, hp⟩ := (hq j).1 hj
  exact isBetter_of_ne hji (h.2 j hp)

/-- The next best index is the best one of those strictly worse. -/
theorem isBest_nextAfter {l : LadderSide numLevels isBid} (hclean : ∀ j, numLevels ≤ j → l.occupied.test j = false)
    (i : Nat) :
    IsBest isBid (fun j => l.occupied.test j = true ∧ isBetter isBid i j = true) (l.nextAfter i) := by
  unfold nextAfter
  cases isBid with
  | true =>
    simp only [↓reduceIte]
    split
    · rename_i h0
      subst h0
      intro j hj
      simp [isBetter] at hj
    · rename_i h0
      have key := Bitmap.findHighestAtOrBelow_spec hclean (i - 1)
      revert key
      cases l.occupied.findHighestAtOrBelow (i - 1) with
      | none =>
        intro key j hj
        simp only [isBetter, ↓reduceIte, decide_eq_true_eq] at hj
        have := key j (by omega)
        simp [this] at hj
      | some k =>
        rintro ⟨h1, h2, h3⟩
        refine ⟨⟨h2, by simp [isBetter]; omega⟩, fun j hj => ?_⟩
        simp only [isBetter, ↓reduceIte, decide_eq_true_eq, decide_eq_false_iff_not] at hj ⊢
        intro hjk
        have := h3 j hjk (by omega)
        simp [this] at hj
  | false =>
    simp only [Bool.false_eq_true, ↓reduceIte]
    have key := Bitmap.findLowestAtOrAbove_spec hclean (i + 1)
    revert key
    cases l.occupied.findLowestAtOrAbove (i + 1) with
    | none =>
      intro key j hj
      simp only [isBetter, Bool.false_eq_true, ↓reduceIte, decide_eq_true_eq] at hj
      have := key j (by omega)
      simp [this] at hj
    | some k =>
      rintro ⟨h1, h2, h3⟩
      refine ⟨⟨h2, by simp [isBetter]; omega⟩, fun j hj => ?_⟩
      simp only [isBetter, Bool.false_eq_true, ↓reduceIte, decide_eq_true_eq, decide_eq_false_iff_not] at hj ⊢
      intro hjk
      have := h3 j (by omega) hjk
      simp [this] at hj

/-- Changing a level that keeps its orders needs no notification. -/
theorem Inv.setLevel {l : LadderSide numLevels isBid} (h : l.Inv) {i : Nat} {lvl : PriceLevel}
    (hempty : lvl.empty = (l.level i).empty) : (l.setLevel i lvl).Inv := by
  have heq : ∀ j, ((l.setLevel i lvl).level j).empty = (l.level j).empty := by
    intro j
    by_cases hj : j = i
    · subst hj; simpa using hempty
    · rw [level_setLevel_of_ne l lvl hj]
  refine ⟨fun j hj => (heq j).trans (h.range j hj), fun j => ?_, ?_⟩
  · rw [heq]; exact h.bits j
  · simp only [heq]; exact h.best

/-- `note_nonempty` after the first order of a level. -/
theorem Inv.noteNonempty {l : LadderSide numLevels isBid} (h : l.Inv) {i : Nat} (hi : i < numLevels) {lvl : PriceLevel}
    (hlvl : lvl.empty = false) : ((l.setLevel i lvl).noteNonempty i).Inv := by
  have heq : ∀ j, (((l.setLevel i lvl).level j).empty = false) ↔ j = i ∨ (l.level j).empty = false := by
    intro j
    by_cases hj : j = i
    · subst hj; simp [hlvl]
    · rw [level_setLevel_of_ne l lvl hj]; simp [hj]
  refine ⟨fun j hj => ?_, fun j => ?_, ?_⟩
  · rw [level_noteNonempty, level_setLevel_of_ne l lvl (by omega)]
    exact h.range j hj
  · have hocc : ((l.setLevel i lvl).noteNonempty i).occupied = l.occupied.set i := by
      unfold LadderSide.noteNonempty LadderSide.setLevel
      cases l.bestIndex with
      | none => rfl
      | some k => dsimp only; split <;> rfl
    rw [hocc, Bitmap.test_set hi, level_noteNonempty, h.bits j]
    by_cases hj : j = i
    · subst hj; simp [hlvl]
    · rw [level_setLevel_of_ne l lvl hj]; simp [hj]
  · simp only [level_noteNonempty]
    have hbest : ((l.setLevel i lvl).noteNonempty i).bestIndex =
        l.bestIndex.elim (some i) fun k => if isBetter isBid i k then some i else some k := by
      unfold LadderSide.noteNonempty LadderSide.setLevel
      cases hb : l.bestIndex with
      | none => rfl
      | some k => dsimp only; split <;> simp_all
    rw [hbest]
    exact isBest_insert h.best heq

/-- `note_maybe_empty` after an order left a level. -/
theorem Inv.noteMaybeEmpty {l : LadderSide numLevels isBid} (h : l.Inv) {i : Nat} {lvl : PriceLevel}
    (hi : (l.level i).empty = false) : ((l.setLevel i lvl).noteMaybeEmpty i).Inv := by
  by_cases hlvl : lvl.empty = false
  · have : (l.setLevel i lvl).noteMaybeEmpty i = l.setLevel i lvl := by
      unfold LadderSide.noteMaybeEmpty
      simp [hlvl]
    rw [this]
    exact h.setLevel (hlvl.trans hi.symm)
  rw [Bool.not_eq_false] at hlvl
  have hlevel : ∀ j, ((l.setLevel i lvl).level j).empty = false ↔ j ≠ i ∧ (l.level j).empty = false := by
    intro j
    by_cases hj : j = i
    · subst hj; simp [hlvl]
    · rw [level_setLevel_of_ne l lvl hj]; simp [hj]
  have hocc : ((l.setLevel i lvl).noteMaybeEmpty i).occupied = l.occupied.clear i := by
    unfold LadderSide.noteMaybeEmpty
    simp only [level_setLevel_self, hlvl, Bool.not_true, Bool.false_eq_true, ↓reduceIte]
    split <;> rfl
  have htest : ∀ j, (l.occupied.clear i).test j = true ↔ ((l.setLevel i lvl).level j).empty = false := by
    intro j
    rw [Bitmap.test_clear, hlevel, h.bits]
    simp
  have hrange : ∀ j, numLevels ≤ j → ((l.setLevel i lvl).level j).empty = true := by
    intro j hj
    rw [← Bool.not_eq_false, hlevel, h.range j hj]
    simp
  refine ⟨fun j hj => ?_, fun j => ?_, ?_⟩
  · rw [level_noteMaybeEmpty]; exact hrange j hj
  · rw [hocc, level_noteMaybeEmpty, Bool.eq_iff_iff, htest, Bool.not_eq_true']
  · simp only [level_noteMaybeEmpty]
    have hold := h.best
    by_cases hb : l.bestIndex = some i
    · -- the best level was vacated: the search finds the best of those that are worse
      have hbest : ((l.setLevel i lvl).noteMaybeEmpty i).bestIndex =
          nextAfter ({ l.setLevel i lvl with occupied := l.occupied.clear i } : LadderSide numLevels isBid) i := by
        unfold LadderSide.noteMaybeEmpty LadderSide.nextAfter LadderSide.setLevel
        have : lvl.empty = true := hlvl
        simp [LadderSide.level, this, hb]
      have hclean : ∀ j, numLevels ≤ j → (l.occupied.clear i).test j = false := by
        intro j hj
        rw [← Bool.not_eq_true, htest, hrange j hj]
        simp
      have hnext := isBest_nextAfter
        (l := ({ l.setLevel i lvl with occupied := l.occupied.clear i } : LadderSide numLevels isBid)) hclean i
      rw [hb] at hold
      simp only [htest, ← isBest_erase_best hold hlevel] at hnext
      rw [hbest]
      exact hnext
    · have hbest : ((l.setLevel i lvl).noteMaybeEmpty i).bestIndex = l.bestIndex := by
        unfold LadderSide.noteMaybeEmpty LadderSide.setLevel
        simp [LadderSide.level, hlvl, hb]
      rw [hbest]
      exact isBest_erase hold hb hlevel

end LadderSide

end Exchange
