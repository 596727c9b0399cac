import Mathlib.Algebra.Order.BigOperators.Group.List
import Mathlib.Algebra.Order.Field.Power
import Mathlib.Algebra.Order.Floor.Ring
import Mathlib.Algebra.Order.Ring.Pow
import Mathlib.Data.Int.Log
import Mathlib.Data.Rat.Floor
import Mathlib.Tactic.Linarith
import Mathlib.Tactic.Ring

/-!
# Binary floating-point numbers

Numbers with a leading bit and `p` more, and the operations of IEEE 754 in the default rounding mode: the exact result,
rounded to the nearest such number, with ties to even.  The exponent is not bounded, so nothing overflows or
underflows, and infinities and NaNs do not occur.  With `p = 52` this is `double`, as long as the numbers stay in the
range of its normal ones.

A rounded number is off by at most a fraction `2 ^ -(p + 1)` of the exact one, and a sum of `n` numbers that are not
negative, added one after the other, has lost at most `n` times that fraction.
-/

namespace Exchange

/-! ### Rounding to integers -/

/-- The nearest integer; if two are equally near, the even one. -/
def nearestEven (x : ℚ) : ℤ :=
  let n := ⌊x⌋
  if x - n < 1 / 2 then n
  else if 1 / 2 < x - n then n + 1
  else if n % 2 = 0 then n
  else n + 1

/-- The nearest integer; if two are equally near, the one farther from 0.  This is `llround`. -/
def nearestAway (x : ℚ) : ℤ := if 0 ≤ x then ⌊x + 1 / 2⌋ else ⌈x - 1 / 2⌉

theorem nearestEven_cases (x : ℚ) :
    nearestEven x = ⌊x⌋ ∧ x - ⌊x⌋ ≤ 1 / 2 ∨ nearestEven x = ⌊x⌋ + 1 ∧ 1 / 2 ≤ x - ⌊x⌋ := by
  unfold nearestEven
  dsimp only
  split_ifs with hlow hhigh heven
  · exact Or.inl ⟨rfl, hlow.le⟩
  · exact Or.inr ⟨rfl, hhigh.le⟩
  · exact Or.inl ⟨rfl, not_lt.1 hhigh⟩
  · exact Or.inr ⟨rfl, not_lt.1 hlow⟩

theorem abs_nearestEven_sub_le (x : ℚ) : |(nearestEven x : ℚ) - x| ≤ 1 / 2 := by
  have hle := Int.floor_le x
  have hlt := Int.lt_floor_add_one x
  rw [abs_le]
  rcases nearestEven_cases x with ⟨heq, hx⟩ | ⟨heq, hx⟩
  · rw [heq]
    constructor <;> linarith
  · rw [heq, Int.cast_add, Int.cast_one]
    constructor <;> linarith

theorem nearestEven_le {x : ℚ} {n : ℤ} (h : x ≤ n) : nearestEven x ≤ n := by
  have hle := Int.floor_le x
  rcases nearestEven_cases x with ⟨heq, -⟩ | ⟨heq, hx⟩
  · rw [heq]
    exact_mod_cast hle.trans h
  · have hlt : (⌊x⌋ : ℚ) < n := by linarith
    rw [heq]
    exact Int.cast_lt.1 hlt

theorem le_nearestEven {x : ℚ} {n : ℤ} (h : n ≤ x) : n ≤ nearestEven x := by
  have hle : n ≤ ⌊x⌋ := Int.le_floor.2 h
  rcases nearestEven_cases x with ⟨heq, -⟩ | ⟨heq, -⟩ <;> omega

theorem nearestEven_intCast (n : ℤ) : nearestEven n = n := le_antisymm (nearestEven_le le_rfl) (le_nearestEven le_rfl)

theorem nearestAway_nonneg {x : ℚ} (h : 0 ≤ x) : 0 ≤ nearestAway x := by
  rw [nearestAway, if_pos h]
  exact Int.floor_nonneg.2 (by linarith)

theorem nearestAway_le {x : ℚ} (h : 0 ≤ x) : (nearestAway x : ℚ) ≤ x + 1 / 2 := by
  rw [nearestAway, if_pos h]
  exact Int.floor_le _

/-! ### The numbers -/

/-- A number with a leading bit and `p` more. -/
@[ext]
structure Binary (p : Nat) where
  val : ℚ
  representable : ∃ m k : ℤ, |m| ≤ 2 ^ (p + 1) ∧ val = m * 2 ^ k

namespace Binary

variable {p : Nat}

/-- The exponent of the last bit of the numbers next to `x`. -/
def lastBit (p : Nat) (x : ℚ) : ℤ := Int.log 2 |x| - p

theorem abs_div_lt (p : Nat) (x : ℚ) : |x / 2 ^ lastBit p x| < 2 ^ (p + 1) := by
  have hpos : (0 : ℚ) < 2 ^ lastBit p x := by positivity
  have hlt := Int.lt_zpow_succ_log_self (b := 2) (by decide) |x|
  rw [abs_div, abs_of_pos hpos, div_lt_iff₀ hpos, ← zpow_natCast, ← zpow_add₀ (by norm_num)]
  have hexp : ((p + 1 : Nat) : ℤ) + lastBit p x = Int.log 2 |x| + 1 := by
    unfold lastBit
    push_cast
    ring
  rw [hexp]
  exact_mod_cast hlt

/-- The nearest number; if two are equally near, the one with an even last bit. -/
def round (p : Nat) (x : ℚ) : Binary p where
  val := nearestEven (x / 2 ^ lastBit p x) * 2 ^ lastBit p x
  representable := by
    refine ⟨nearestEven (x / 2 ^ lastBit p x), lastBit p x, ?_, rfl⟩
    obtain ⟨hlow, hhigh⟩ := abs_lt.1 (abs_div_lt p x)
    rw [abs_le]
    constructor
    · exact le_nearestEven (by push_cast; exact hlow.le)
    · exact nearestEven_le (by push_cast; exact hhigh.le)

theorem val_round (p : Nat) (x : ℚ) :
    (round p x).val = nearestEven (x / 2 ^ lastBit p x) * 2 ^ lastBit p x :=
  rfl

/-- The conversion from an integer. -/
def ofInt (p : Nat) (n : ℤ) : Binary p := round p n

instance (n : Nat) : OfNat (Binary p) n := ⟨ofInt p n⟩

instance : Add (Binary p) := ⟨fun a b => round p (a.val + b.val)⟩

instance : Mul (Binary p) := ⟨fun a b => round p (a.val * b.val)⟩

instance : Div (Binary p) := ⟨fun a b => round p (a.val / b.val)⟩

theorem val_add (a b : Binary p) : (a + b).val = (round p (a.val + b.val)).val := rfl

theorem val_mul (a b : Binary p) : (a * b).val = (round p (a.val * b.val)).val := rfl

theorem val_div (a b : Binary p) : (a / b).val = (round p (a.val / b.val)).val := rfl

/-! ### Rounding -/

/-- The largest relative error. -/
def unit (p : Nat) : ℚ := 1 / 2 ^ (p + 1)

theorem unit_pos (p : Nat) : 0 < unit p := by
  unfold unit
  positivity

theorem abs_round_sub_le (p : Nat) (x : ℚ) : |(round p x).val - x| ≤ |x| * unit p := by
  have hpos : (0 : ℚ) < 2 ^ lastBit p x := by positivity
  by_cases hx : x = 0
  · subst hx
    have hzero : nearestEven (0 / 2 ^ lastBit p 0) = 0 := by
      rw [zero_div]
      exact nearestEven_intCast 0
    rw [val_round, hzero]
    simp
  · have hlog : (2 : ℚ) ^ Int.log 2 |x| ≤ |x| := by
      exact_mod_cast Int.zpow_log_le_self (b := 2) (by decide) (abs_pos.2 hx)
    have hexp : (2 : ℚ) ^ lastBit p x = 2 ^ Int.log 2 |x| / 2 ^ p := by
      rw [lastBit, zpow_sub₀ (by norm_num), zpow_natCast]
    have hunit : unit p = 1 / 2 ^ p * (1 / 2) := by
      rw [unit, pow_succ]
      ring
    calc |(round p x).val - x|
        = |(nearestEven (x / 2 ^ lastBit p x) : ℚ) - x / 2 ^ lastBit p x| * 2 ^ lastBit p x := by
          rw [val_round, ← abs_of_pos hpos, ← abs_mul, abs_of_pos hpos, sub_mul, div_mul_cancel₀ _ hpos.ne']
      _ ≤ 1 / 2 * 2 ^ lastBit p x := by gcongr; exact abs_nearestEven_sub_le _
      _ = 2 ^ Int.log 2 |x| * unit p := by rw [hexp, hunit]; ring
      _ ≤ |x| * unit p := by gcongr; exact (unit_pos p).le

section Nonneg

variable {x : ℚ}

theorem round_le (hx : 0 ≤ x) : (round p x).val ≤ x * (1 + unit p) := by
  have h := (abs_le.1 (abs_round_sub_le p x)).2
  rw [abs_of_nonneg hx] at h
  linarith

theorem le_round (hx : 0 ≤ x) : x * (1 - unit p) ≤ (round p x).val := by
  have h := (abs_le.1 (abs_round_sub_le p x)).1
  rw [abs_of_nonneg hx] at h
  linarith

theorem round_nonneg (hx : 0 ≤ x) : 0 ≤ (round p x).val := by
  have hint : 0 ≤ nearestEven (x / 2 ^ lastBit p x) := le_nearestEven (by push_cast; positivity)
  have hcast : (0 : ℚ) ≤ nearestEven (x / 2 ^ lastBit p x) := by exact_mod_cast hint
  rw [val_round]
  positivity

end Nonneg

/-- A number of the format is a multiple of the last bit of every number that is not greater. -/
theorem exists_multiple (y : Binary p) {x : ℚ} (hx : x ≠ 0) (hxy : |x| ≤ |y.val|) :
    ∃ n : ℤ, y.val = n * 2 ^ lastBit p x := by
  obtain ⟨m, k, hm, hy⟩ := y.representable
  have hbound : |y.val| ≤ 2 ^ ((p + 1 : Nat) + k) := by
    rw [hy, abs_mul, abs_of_pos (by positivity : (0 : ℚ) < 2 ^ k), zpow_add₀ (by norm_num), zpow_natCast]
    gcongr
    exact_mod_cast hm
  have hlog : (2 : ℚ) ^ Int.log 2 |x| ≤ |x| := by
    exact_mod_cast Int.zpow_log_le_self (b := 2) (by decide) (abs_pos.2 hx)
  have hle : Int.log 2 |x| ≤ (p + 1 : Nat) + k :=
    (zpow_le_zpow_iff_right₀ (by norm_num : (1 : ℚ) < 2)).1 (hlog.trans (hxy.trans hbound))
  rcases hle.lt_or_eq with hlt | heq
  · -- the last bit of `x` is not above the last bit of `y`
    obtain ⟨d, hd⟩ : ∃ d : Nat, k = d + lastBit p x := ⟨(k - lastBit p x).toNat, by unfold lastBit at *; omega⟩
    refine ⟨m * 2 ^ d, ?_⟩
    rw [hy, hd, zpow_add₀ (by norm_num), zpow_natCast]
    push_cast
    ring
  · -- both are the power of two that the numbers of the last exponent end with
    have hlast : lastBit p x = k + 1 := by unfold lastBit; rw [heq]; push_cast; ring
    have habs : |y.val| = 2 ^ ((p + 1 : Nat) + k) := le_antisymm hbound (by rw [← heq]; exact hlog.trans hxy)
    have hpow : (2 : ℚ) ^ ((p + 1 : Nat) + k) = ((2 ^ p : ℤ) : ℚ) * 2 ^ lastBit p x := by
      rw [hlast, show ((p + 1 : Nat) : ℤ) + k = (p : ℤ) + (k + 1) by push_cast; ring, zpow_add₀ (by norm_num),
        zpow_natCast]
      push_cast
      rfl
    rcases abs_choice y.val with hsign | hsign
    · exact ⟨2 ^ p, by rw [← hsign, habs, hpow]⟩
    · refine ⟨-2 ^ p, ?_⟩
      rw [← neg_neg y.val, ← hsign, habs, hpow]
      push_cast
      ring

/-- Rounding does not pass a number of the format. -/
theorem round_le_val (y : Binary p) {x : ℚ} (hx : 0 ≤ x) (hxy : x ≤ y.val) : (round p x).val ≤ y.val := by
  rcases hx.eq_or_lt with rfl | hpos
  · have hzero : (round p 0).val ≤ 0 * (1 + unit p) := round_le le_rfl
    linarith
  obtain ⟨n, hn⟩ := y.exists_multiple hpos.ne' (abs_le_abs_of_nonneg hx hxy)
  have hpos : (0 : ℚ) < 2 ^ lastBit p x := by positivity
  rw [val_round, hn]
  gcongr
  exact nearestEven_le (by rw [div_le_iff₀ hpos, ← hn]; exact hxy)

/-- What can be represented is not changed. -/
theorem round_val (y : Binary p) : round p y.val = y := by
  ext
  by_cases hy : y.val = 0
  · have herr := abs_round_sub_le p y.val
    rw [hy] at herr ⊢
    simpa using herr
  · obtain ⟨n, hn⟩ := y.exists_multiple hy le_rfl
    have hdiv : y.val / 2 ^ lastBit p y.val = n := by
      rw [div_eq_iff (by positivity)]
      exact hn
    rw [val_round, hdiv, nearestEven_intCast, ← hn]

/-- A number that is an integer times a power of two, and not too long. -/
theorem round_eq {x : ℚ} (m k : ℤ) (hm : |m| ≤ 2 ^ (p + 1)) (hx : x = m * 2 ^ k) : (round p x).val = x :=
  congrArg val (round_val ⟨x, m, k, hm, hx⟩)

/-- Integers of at most `p + 1` bits are exact. -/
theorem val_ofInt {n : ℤ} (hn : |n| ≤ 2 ^ (p + 1)) : (ofInt p n).val = n :=
  round_eq n 0 hn (by rw [zpow_zero, mul_one])

/-! ### Sums -/

/-- What is left of a sum of numbers that are not negative, added one after the other. -/
theorem le_foldl_add {α : Type} (f : α → Binary p) (l : List α) (hf : ∀ a ∈ l, 0 ≤ (f a).val) (acc : Binary p)
    (hacc : 0 ≤ acc.val) :
    (1 - unit p) ^ l.length * (acc.val + (l.map fun a => (f a).val).sum) ≤
      (l.foldl (fun sum a => sum + f a) acc).val := by
  have hunit : 0 ≤ 1 - unit p := by
    have hle : unit p ≤ 1 := by
      rw [unit, div_le_one (by positivity)]
      exact one_le_pow₀ (by norm_num)
    linarith
  induction l generalizing acc with
  | nil => simp
  | cons a l ih =>
    have ha := hf a List.mem_cons_self
    have hl : ∀ b ∈ l, 0 ≤ (f b).val := fun b hb => hf b (List.mem_cons_of_mem a hb)
    have hsum : 0 ≤ (l.map fun a => (f a).val).sum := by
      refine List.sum_nonneg fun q hq => ?_
      obtain ⟨b, hb, rfl⟩ := List.mem_map.1 hq
      exact hl b hb
    have hadd : (acc.val + (f a).val) * (1 - unit p) ≤ (acc + f a).val := le_round (by linarith)
    have hnext := ih hl (acc + f a) (round_nonneg (by linarith))
    refine le_trans ?_ hnext
    rw [List.length_cons, pow_succ, List.map_cons, List.sum_cons, mul_assoc]
    gcongr
    have hlost : (l.map fun a => (f a).val).sum * (1 - unit p) ≤ (l.map fun a => (f a).val).sum :=
      mul_le_of_le_one_right hsum (by linarith [unit_pos p])
    linarith

end Binary

/-- The numbers of `double`. -/
abbrev Double := Binary 52

end Exchange
