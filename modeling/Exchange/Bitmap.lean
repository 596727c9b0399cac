import Mathlib.Data.Nat.Bitwise
import Mathlib.Data.Int.Notation

/-!
# The occupancy bitmap

`Bitmap` of `jane/book/bitmap.hpp`: `numBits` bits in 64-bit words, with the two searches a price ladder needs to find
its next best level.  The number of words is part of the type, so every word a search reads exists.

The searches scan whole words and use the number of leading or trailing zeros of the first word that is not zero.
`findHighestAtOrBelow_spec` and `findLowestAtOrAbove_spec` say that they find the nearest set bit.
-/

namespace Exchange

structure Bitmap (numBits : Nat) where
  words : Vector (BitVec 64) ((numBits + 63) / 64)

namespace Bitmap

variable {numBits n : Nat}

def new (numBits : Nat) : Bitmap numBits := ⟨Vector.replicate _ 0#64⟩

def word (b : Bitmap numBits) (k : Nat) : BitVec 64 := b.words[k]?.getD 0#64

def set (b : Bitmap numBits) (i : Nat) : Bitmap numBits :=
  ⟨b.words.setIfInBounds (i / 64) (b.word (i / 64) ||| (1#64 <<< (i % 64)))⟩

def clear (b : Bitmap numBits) (i : Nat) : Bitmap numBits :=
  ⟨b.words.setIfInBounds (i / 64) (b.word (i / 64) &&& ~~~(1#64 <<< (i % 64)))⟩

def test (b : Bitmap numBits) (i : Nat) : Bool :=
  ((b.word (i / 64) >>> (i % 64)) &&& 1#64) != 0#64

/-- The loop of `find_highest_at_or_below`, at word `k` with the bits `w` left to look at. -/
def scanDown (words : Vector (BitVec 64) n) : (k : Nat) → k < n → BitVec 64 → Option Nat
  | 0, _, w => if w ≠ 0#64 then some (0 * 64 + (63 - w.clz.toNat)) else none
  | k + 1, h, w =>
    if w ≠ 0#64 then some ((k + 1) * 64 + (63 - w.clz.toNat))
    else scanDown words k (by omega) (words.get ⟨k, by omega⟩)

def findHighestAtOrBelow (b : Bitmap numBits) (i : Nat) : Option Nat :=
  if h0 : numBits = 0 then none
  else
    let i' := if numBits ≤ i then numBits - 1 else i
    have h : i' / 64 < (numBits + 63) / 64 := by
      have : i' < numBits := by show (if numBits ≤ i then numBits - 1 else i) < numBits; split <;> omega
      omega
    let bitInWord := i' % 64
    -- a shift by 64 is undefined, so the full mask is a case of its own
    let firstMask := if bitInWord = 63 then ~~~0#64 else (1#64 <<< (bitInWord + 1)) - 1#64
    scanDown b.words (i' / 64) h (b.words.get ⟨i' / 64, h⟩ &&& firstMask)

/-- The loop of `find_lowest_at_or_above`, with `left` more words behind the current one. -/
def scanUp (words : Vector (BitVec 64) n) : (left : Nat) → left < n → BitVec 64 → Option Nat
  | 0, _, w => if w ≠ 0#64 then some ((n - 1) * 64 + w.ctz.toNat) else none
  | left + 1, h, w =>
    if w ≠ 0#64 then some ((n - 1 - (left + 1)) * 64 + w.ctz.toNat)
    else scanUp words left (by omega) (words.get ⟨n - 1 - left, by omega⟩)

def findLowestAtOrAbove (b : Bitmap numBits) (i : Nat) : Option Nat :=
  if h : i < numBits then
    let bitInWord := i % 64
    let firstMask := ~~~0#64 <<< bitInWord
    scanUp b.words ((numBits + 63) / 64 - 1 - i / 64) (by omega)
      (b.words.get ⟨i / 64, by omega⟩ &&& firstMask)
  else none

/-! ### Single bits -/

theorem test_eq (b : Bitmap numBits) (i : Nat) : b.test i = (b.word (i / 64)).getLsbD (i % 64) := by
  unfold test
  rw [Bool.eq_iff_iff]
  constructor
  · intro h
    by_contra hc
    have : (b.word (i / 64) >>> (i % 64)) &&& 1#64 = 0#64 := by
      apply BitVec.eq_of_getLsbD_eq
      intro j hj
      rcases Nat.eq_zero_or_pos j with rfl | hj0
      · simpa using hc
      · simp [BitVec.getLsbD_one, show j ≠ 0 by omega]
    simp [this] at h
  · intro h
    have : ((b.word (i / 64) >>> (i % 64)) &&& 1#64).getLsbD 0 = true := by simpa using h
    rw [bne_iff_ne]
    intro e
    rw [e] at this
    simp at this

private theorem word_setIfInBounds (b : Bitmap numBits) (k j : Nat) (w : BitVec 64) :
    (⟨b.words.setIfInBounds k w⟩ : Bitmap numBits).word j =
      if k = j ∧ k < (numBits + 63) / 64 then w else b.word j := by
  unfold word
  rw [Vector.getElem?_setIfInBounds]
  by_cases hk : k = j
  · subst hk
    by_cases hb : k < (numBits + 63) / 64
    · simp [hb]
    · simp [hb]
  · simp [hk]

/-- Within one word, the mask of a bit tells it from all others. -/
private theorem getLsbD_mask {i j : Nat} (h : i / 64 = j / 64) :
    (1#64 <<< (i % 64)).getLsbD (j % 64) = decide (j = i) := by
  by_cases hb : j % 64 = i % 64
  · have hji : j = i := by omega
    simp [hji, Nat.mod_lt]
  · have hji : j ≠ i := fun e => hb (by rw [e])
    by_cases hlt : j % 64 < i % 64
    · simp [hji, hlt]
    · simp [hji, show j % 64 - i % 64 ≠ 0 by omega]

theorem test_new (i : Nat) : (new numBits).test i = false := by
  rw [test_eq]
  unfold word new
  by_cases h : i / 64 < (numBits + 63) / 64
  · simp [h]
  · simp [h]

theorem test_set {b : Bitmap numBits} {i : Nat} (hi : i < numBits) (j : Nat) :
    (b.set i).test j = (decide (j = i) || b.test j) := by
  rw [test_eq, test_eq, set, word_setIfInBounds]
  by_cases hw : i / 64 = j / 64
  · rw [if_pos ⟨hw, by omega⟩, hw, BitVec.getLsbD_or, getLsbD_mask hw, Bool.or_comm]
  · have hji : j ≠ i := fun e => hw (by rw [e])
    rw [if_neg (fun h => hw h.1)]
    simp [hji]

theorem test_clear (b : Bitmap numBits) (i j : Nat) :
    (b.clear i).test j = (!decide (j = i) && b.test j) := by
  rw [test_eq, test_eq, clear, word_setIfInBounds]
  by_cases hw : i / 64 = j / 64
  · by_cases hin : i / 64 < (numBits + 63) / 64
    · rw [if_pos ⟨hw, hin⟩, hw, BitVec.getLsbD_and, BitVec.getLsbD_not, getLsbD_mask hw,
        decide_eq_true (Nat.mod_lt j (by decide)), Bool.true_and, Bool.and_comm]
    · rw [if_neg (fun h => hin h.2)]
      have : b.word (j / 64) = 0#64 := by
        unfold word
        rw [← hw]
        simp [hin]
      simp [this]
  · have hji : j ≠ i := fun e => hw (by rw [e])
    rw [if_neg (fun h => hw h.1)]
    simp [hji]

/-! ### The highest and the lowest set bit of a word -/

private theorem clz_lt {w : BitVec 64} (h : w ≠ 0#64) : w.clz.toNat < 64 := by
  have := BitVec.clz_lt_iff_ne_zero.2 h
  simpa [BitVec.lt_def] using this

private theorem getLsbD_highest {w : BitVec 64} (h : w ≠ 0#64) : w.getLsbD (63 - w.clz.toNat) = true := by
  simpa using BitVec.getLsbD_true_clz_of_ne_zero (by omega) h

private theorem getLsbD_above_highest {w : BitVec 64} (h : w ≠ 0#64) {t : Nat} (ht : 63 - w.clz.toNat < t) :
    w.getLsbD t = false := by
  have hlt := clz_lt h
  apply Nat.testBit_lt_two_pow
  calc w.toNat < 2 ^ (64 - w.clz.toNat) := BitVec.toNat_lt_two_pow_sub_clz
    _ ≤ 2 ^ t := Nat.pow_le_pow_right (by omega) (by omega)

private theorem ctz_lt {w : BitVec 64} (h : w ≠ 0#64) : w.ctz.toNat < 64 := by
  have := BitVec.ctz_lt_iff_ne_zero.2 h
  simpa [BitVec.lt_def] using this

private theorem not_zero_eq : ~~~0#64 = BitVec.allOnes 64 := by decide

private theorem getLsbD_lowMask {m : Nat} (hm : m < 63) (t : Nat) :
    ((1#64 <<< (m + 1)) - 1#64).getLsbD t = decide (t ≤ m) := by
  have h1 : (1#64 <<< (m + 1)).toNat = 2 ^ (m + 1) := by
    rw [BitVec.toNat_shiftLeft, BitVec.toNat_ofNat, Nat.one_mod_two_pow (by omega), Nat.one_shiftLeft]
    exact Nat.mod_eq_of_lt (Nat.pow_lt_pow_right (by omega) (by omega))
  have h2 : ((1#64 <<< (m + 1)) - 1#64).toNat = 2 ^ (m + 1) - 1 := by
    rw [BitVec.toNat_sub_of_le, h1]
    · rfl
    · rw [BitVec.le_def, h1]
      exact Nat.one_le_two_pow
  show Nat.testBit _ t = _
  rw [h2, Nat.testBit_two_pow_sub_one]
  simp only [decide_eq_decide]
  omega

/-! ### The searches -/

/-- `r` is the result of a linear search for the largest `j ≤ i` with `p j`. -/
def HighestUpTo (p : Nat → Bool) (i : Nat) : Option Nat → Prop
  | none => ∀ j, j ≤ i → p j = false
  | some k => k ≤ i ∧ p k = true ∧ ∀ j, k < j → j ≤ i → p j = false

/-- `r` is the result of a linear search for the smallest `j ≥ i` with `p j`. -/
def LowestFrom (p : Nat → Bool) (i : Nat) : Option Nat → Prop
  | none => ∀ j, i ≤ j → p j = false
  | some k => i ≤ k ∧ p k = true ∧ ∀ j, i ≤ j → j < k → p j = false

private theorem test_of_word (b : Bitmap numBits) {k : Nat} (hk : k < (numBits + 63) / 64) {t : Nat} (ht : t < 64) :
    (b.words.get ⟨k, hk⟩).getLsbD t = b.test (k * 64 + t) := by
  rw [test_eq, show (k * 64 + t) / 64 = k by omega, show (k * 64 + t) % 64 = t by omega]
  unfold word
  rw [Vector.getElem?_eq_getElem hk]
  rfl

/-- If the bits left to look at are not all zero, their highest one is the answer. -/
private theorem highest_in_word (b : Bitmap numBits) {k i : Nat} {w : BitVec 64} (hik : i / 64 = k)
    (hw : ∀ t, t < 64 → w.getLsbD t = (b.test (k * 64 + t) && decide (k * 64 + t ≤ i))) (h0 : w ≠ 0#64) :
    HighestUpTo b.test i (some (k * 64 + (63 - w.clz.toNat))) := by
  have hp := getLsbD_highest h0
  rw [hw _ (by omega), Bool.and_eq_true, decide_eq_true_eq] at hp
  refine ⟨hp.2, hp.1, ?_⟩
  intro j hj hji
  have hz := getLsbD_above_highest h0 (t := j - k * 64) (by omega)
  rw [hw _ (by omega), show k * 64 + (j - k * 64) = j by omega] at hz
  simpa [hji] using hz

/-- If they are all zero, only smaller words can hold the answer. -/
private theorem highest_below_word (b : Bitmap numBits) {k i : Nat} {w : BitVec 64} (hik : i / 64 = k)
    (hw : ∀ t, t < 64 → w.getLsbD t = (b.test (k * 64 + t) && decide (k * 64 + t ≤ i))) (h0 : w = 0#64) {j : Nat}
    (hj : k * 64 ≤ j) (hji : j ≤ i) : b.test j = false := by
  have hz := hw (j - k * 64) (by omega)
  rw [h0, show k * 64 + (j - k * 64) = j by omega] at hz
  simpa [hji] using hz.symm

private theorem scanDown_spec (b : Bitmap numBits) (k : Nat) (hk : k < (numBits + 63) / 64) :
    ∀ (w : BitVec 64) (i : Nat), i / 64 = k →
      (∀ t, t < 64 → w.getLsbD t = (b.test (k * 64 + t) && decide (k * 64 + t ≤ i))) →
      HighestUpTo b.test i (scanDown b.words k hk w) := by
  induction k with
  | zero =>
    intro w i hik hw
    unfold scanDown
    split
    · rename_i h0; exact highest_in_word b hik hw h0
    · rename_i h0
      exact fun j hj => highest_below_word b hik hw (not_not.1 h0) (by omega) hj
  | succ k ih =>
    intro w i hik hw
    unfold scanDown
    split
    · rename_i h0; exact highest_in_word b hik hw h0
    · rename_i h0
      have hbelow : ∀ j, (k + 1) * 64 ≤ j → j ≤ i → b.test j = false :=
        fun j => highest_below_word b hik hw (not_not.1 h0)
      -- the scan goes on as a search from the last bit of the word below
      have key := ih (by omega) (b.words.get ⟨k, by omega⟩) (k * 64 + 63) (by omega) (by
        intro t ht
        rw [test_of_word b _ ht]
        simp [show k * 64 + t ≤ k * 64 + 63 by omega])
      revert key
      cases scanDown b.words k (by omega) (b.words.get ⟨k, by omega⟩) with
      | none =>
        intro key j hj
        by_cases hjk : j ≤ k * 64 + 63
        · exact key j hjk
        · exact hbelow j (by omega) hj
      | some m =>
        rintro ⟨h1, h2, h3⟩
        refine ⟨by omega, h2, fun j hj hji => ?_⟩
        by_cases hjk : j ≤ k * 64 + 63
        · exact h3 j hj hjk
        · exact hbelow j (by omega) hji

private theorem scanDown_first (b : Bitmap numBits) {i : Nat} (hi : i < numBits) :
    HighestUpTo b.test i (scanDown b.words (i / 64) (by omega)
      (b.words.get ⟨i / 64, by omega⟩ &&&
        (if i % 64 = 63 then ~~~0#64 else (1#64 <<< (i % 64 + 1)) - 1#64))) := by
  refine scanDown_spec b (i / 64) (by omega) _ i rfl ?_
  intro t ht
  rw [BitVec.getLsbD_and, test_of_word b _ ht]
  congr 1
  split
  · rw [not_zero_eq, BitVec.getLsbD_allOnes]
    simp only [decide_eq_decide]
    omega
  · rw [getLsbD_lowMask (by omega)]
    simp only [decide_eq_decide]
    omega

/-- `find_highest_at_or_below` is a linear search downwards, provided no bit past the end is set. -/
theorem findHighestAtOrBelow_spec {b : Bitmap numBits} (hclean : ∀ j, numBits ≤ j → b.test j = false) (i : Nat) :
    HighestUpTo b.test i (b.findHighestAtOrBelow i) := by
  unfold findHighestAtOrBelow
  split
  · rename_i h0; exact fun j _ => hclean j (by omega)
  · rename_i h0
    dsimp only
    have key := scanDown_first b (i := if numBits ≤ i then numBits - 1 else i) (by split <;> omega)
    revert key
    generalize scanDown b.words _ _ _ = r
    generalize hi' : (if numBits ≤ i then numBits - 1 else i) = i'
    intro key
    have hle : i' ≤ i := by subst hi'; split <;> omega
    -- between the clamped index and `i` there is no bit at all
    have hclamp : ∀ j, i' < j → j ≤ i → b.test j = false := by
      intro j h1 h2
      refine hclean j ?_
      subst hi'
      split at h1 <;> omega
    cases r with
    | none =>
      intro j hj
      by_cases hji : j ≤ i'
      · exact key j hji
      · exact hclamp j (by omega) hj
    | some m =>
      obtain ⟨h1, h2, h3⟩ := key
      refine ⟨by omega, h2, fun j hj hji => ?_⟩
      by_cases hjk : j ≤ i'
      · exact h3 j hj hjk
      · exact hclamp j (by omega) hji

private theorem lowest_in_word (b : Bitmap numBits) {k i : Nat} {w : BitVec 64} (hik : i / 64 = k)
    (hw : ∀ t, t < 64 → w.getLsbD t = (b.test (k * 64 + t) && decide (i ≤ k * 64 + t))) (h0 : w ≠ 0#64) :
    LowestFrom b.test i (some (k * 64 + w.ctz.toNat)) := by
  have hp := BitVec.getLsbD_true_ctz_of_ne_zero h0
  rw [hw _ (ctz_lt h0), Bool.and_eq_true, decide_eq_true_eq] at hp
  refine ⟨hp.2, hp.1, ?_⟩
  intro j hij hj
  have hz := BitVec.getLsbD_false_of_lt_ctz (x := w) (i := j - k * 64) (by omega)
  have := ctz_lt h0
  rw [hw _ (by omega), show k * 64 + (j - k * 64) = j by omega] at hz
  simpa [hij] using hz

private theorem lowest_above_word (b : Bitmap numBits) {k i : Nat} {w : BitVec 64} (hik : i / 64 = k)
    (hw : ∀ t, t < 64 → w.getLsbD t = (b.test (k * 64 + t) && decide (i ≤ k * 64 + t))) (h0 : w = 0#64) {j : Nat}
    (hj : j < (k + 1) * 64) (hij : i ≤ j) : b.test j = false := by
  have hz := hw (j - k * 64) (by omega)
  rw [h0, show k * 64 + (j - k * 64) = j by omega] at hz
  simpa [hij] using hz.symm

private theorem scanUp_spec (b : Bitmap numBits) (hclean : ∀ j, numBits ≤ j → b.test j = false) (left : Nat)
    (hl : left < (numBits + 63) / 64) :
    ∀ (w : BitVec 64) (k i : Nat), k = (numBits + 63) / 64 - 1 - left → i / 64 = k →
      (∀ t, t < 64 → w.getLsbD t = (b.test (k * 64 + t) && decide (i ≤ k * 64 + t))) →
      LowestFrom b.test i (scanUp b.words left hl w) := by
  induction left with
  | zero =>
    intro w k i hk hik hw
    unfold scanUp
    rw [show (numBits + 63) / 64 - 1 = k by omega]
    split
    · rename_i h0; exact lowest_in_word b hik hw h0
    · rename_i h0
      intro j hj
      by_cases hjk : j < (k + 1) * 64
      · exact lowest_above_word b hik hw (not_not.1 h0) hjk hj
      · exact hclean j (by omega)
  | succ left ih =>
    intro w k i hk hik hw
    unfold scanUp
    rw [← hk]
    split
    · rename_i h0; exact lowest_in_word b hik hw h0
    · rename_i h0
      have habove : ∀ j, j < (k + 1) * 64 → i ≤ j → b.test j = false :=
        fun j => lowest_above_word b hik hw (not_not.1 h0)
      -- the scan goes on as a search from the first bit of the word above
      have key := ih (by omega) (b.words.get ⟨(numBits + 63) / 64 - 1 - left, by omega⟩) (k + 1) ((k + 1) * 64)
        (by omega) (by omega) (by
        intro t ht
        rw [test_of_word b _ ht, show (numBits + 63) / 64 - 1 - left = k + 1 by omega]
        simp)
      revert key
      cases scanUp b.words left (by omega) (b.words.get ⟨(numBits + 63) / 64 - 1 - left, by omega⟩) with
      | none =>
        intro key j hj
        by_cases hjk : j < (k + 1) * 64
        · exact habove j hjk hj
        · exact key j (by omega)
      | some m =>
        rintro ⟨h1, h2, h3⟩
        refine ⟨by omega, h2, fun j hij hj => ?_⟩
        by_cases hjk : j < (k + 1) * 64
        · exact habove j hjk hij
        · exact h3 j (by omega) hj

/-- `find_lowest_at_or_above` is a linear search upwards, provided no bit past the end is set. -/
theorem findLowestAtOrAbove_spec {b : Bitmap numBits} (hclean : ∀ j, numBits ≤ j → b.test j = false) (i : Nat) :
    LowestFrom b.test i (b.findLowestAtOrAbove i) := by
  unfold findLowestAtOrAbove
  split
  · rename_i h
    dsimp only
    refine scanUp_spec b hclean _ (by omega) _ (i / 64) i (by omega) rfl ?_
    intro t ht
    rw [BitVec.getLsbD_and, test_of_word b _ ht]
    congr 1
    rw [BitVec.getLsbD_shiftLeft, Bool.eq_iff_iff]
    simp only [ht, not_zero_eq, BitVec.getLsbD_allOnes, decide_true, Bool.true_and, Bool.and_eq_true,
      Bool.not_eq_true', decide_eq_false_iff_not, decide_eq_true_eq]
    omega
  · rename_i h
    exact fun j hj => hclean j (by omega)

end Bitmap

end Exchange
