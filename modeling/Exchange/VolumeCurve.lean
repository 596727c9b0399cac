import Exchange.Lib.FloatingPoint
import Exchange.Types
import Mathlib.Analysis.Real.Pi.Bounds
import Mathlib.Analysis.SpecialFunctions.Trigonometric.Bounds

/-!
# The slices of a parent order

`build_slice_sizes` of `jane/strategy/vwap.hpp` cuts the quantity of a parent order along the curve `1 + cos(2πt)`.
The arithmetic is that of `double`, with the rounding of every operation.  What `std::cos` returns is fixed by the
library and not by the source, so it is any function close to the cosine.

Every slice but the last has the size of its rounded share, and the last one takes what is left of the parent.  The
shares can be rounded up so often that nothing is left and more, and then the last slice is negative.  By how much the
other slices exceed the parent quantity is bounded here, and so is the number of slices for which they do not.
-/

namespace Exchange

/-- `std::cos`, off by at most the last bit of the numbers below 1. -/
structure Libm where
  cos : Double → Double
  abs_le_one : ∀ x, |(cos x).val| ≤ 1
  accurate : ∀ x, |((cos x).val : ℝ) - Real.cos x.val| ≤ 1 / 2 ^ 53

theorem abs_round_le {y : ℝ} {n : ℤ} (h : |y| ≤ n) : |round y| ≤ n := by
  obtain ⟨hlow, hhigh⟩ := abs_le.1 h
  obtain ⟨herr, herr'⟩ := abs_le.1 (abs_sub_round y)
  have hlt : (round y : ℝ) < ((n + 1 : ℤ) : ℝ) := by
    push_cast
    linarith
  have hgt : ((-n - 1 : ℤ) : ℝ) < (round y : ℝ) := by
    push_cast
    linarith
  rw [Int.cast_lt] at hlt hgt
  rw [abs_le]
  omega

theorem round_eq_of_abs_lt {y : ℝ} {m : ℤ} (h : |y - m| < 1 / 2) : round y = m := by
  obtain ⟨hlow, hhigh⟩ := abs_lt.1 h
  obtain ⟨herr, herr'⟩ := abs_le.1 (abs_sub_round y)
  have hlt : (round y : ℝ) < ((m + 1 : ℤ) : ℝ) := by
    push_cast
    linarith
  have hgt : ((m - 1 : ℤ) : ℝ) < (round y : ℝ) := by
    push_cast
    linarith
  rw [Int.cast_lt] at hlt hgt
  omega

theorem abs_round_cos_le (x : ℝ) : |round (Real.cos x * 2 ^ 53)| ≤ 2 ^ 53 := by
  refine abs_round_le ?_
  rw [abs_mul, abs_of_pos (by norm_num : (0 : ℝ) < 2 ^ 53)]
  push_cast
  refine (mul_le_of_le_one_left (pow_pos two_pos 53).le (Real.abs_cos_le_one x)).trans ?_
  norm_num

/-- The nearest multiple of that bit. -/
noncomputable def Libm.nearest : Libm where
  cos x :=
    { val := round (Real.cos x.val * 2 ^ 53) / 2 ^ 53
      representable := ⟨round (Real.cos x.val * 2 ^ 53), -53, abs_round_cos_le _, by norm_num; ring⟩ }
  abs_le_one x := by
    have h : |((round (Real.cos x.val * 2 ^ 53) : ℤ) : ℚ)| ≤ 2 ^ 53 := by exact_mod_cast abs_round_cos_le x.val
    rw [abs_div, abs_of_pos (by norm_num : (0 : ℚ) < 2 ^ 53)]
    exact (div_le_one (by norm_num)).2 h
  accurate x := by
    obtain ⟨herr, herr'⟩ := abs_le.1 (abs_sub_round (Real.cos x.val * 2 ^ 53))
    push_cast
    rw [abs_le]
    constructor <;> linarith

theorem Libm.cos_nearest {x : Double} {m : ℤ} (h : |Real.cos x.val * 2 ^ 53 - m| < 1 / 2) :
    (Libm.nearest.cos x).val = m / 2 ^ 53 := by
  show ((round (Real.cos x.val * 2 ^ 53) : ℤ) : ℚ) / 2 ^ 53 = _
  rw [round_eq_of_abs_lt h]

open Binary

/-- `std::numbers::pi`. -/
def numbersPi : Double where
  val := 884279719003555 / 2 ^ 48
  representable := ⟨884279719003555, -48, by norm_num, by norm_num⟩

theorem abs_numbersPi_sub_le : |(numbersPi.val : ℝ) - Real.pi| ≤ 1 / 2 ^ 51 := by
  have hgt := Real.pi_gt_d20
  have hlt := Real.pi_lt_d20
  rw [numbersPi, abs_le]
  push_cast
  constructor <;> linarith

theorem le_realCos_two_pi {x : Double} (hx : x.val = 2 * numbersPi.val) : 1 - 1 / 2 ^ 101 ≤ Real.cos x.val := by
  have hpi : |(x.val : ℝ) - 2 * Real.pi| ≤ 1 / 2 ^ 50 := by
    obtain ⟨hlow, hhigh⟩ := abs_le.1 abs_numbersPi_sub_le
    rw [hx, abs_le]
    push_cast
    constructor <;> linarith
  have hsq : ((x.val : ℝ) - 2 * Real.pi) ^ 2 ≤ (1 / 2 ^ 50) ^ 2 := sq_le_sq' (abs_le.1 hpi).1 (abs_le.1 hpi).2
  rw [← Real.cos_sub_two_pi]
  refine le_trans ?_ Real.one_sub_sq_div_two_le_cos
  linarith

structure VwapConfig where
  symbol : SymbolId
  client : ClientId
  side : Side
  totalQuantity : Int
  numSlices : Nat := 10
  limitPrice : Int := 0
  numSlices_pos : 0 < numSlices := by decide
  numSlices_lt : numSlices < 2 ^ 31 := by decide

namespace VwapConfig

/-- The weight of slice `i`. -/
def weight (libm : Libm) (config : VwapConfig) (i : Nat) : Double :=
  let t : Double := if config.numSlices > 1 then ofInt 52 i / ofInt 52 (config.numSlices - 1) else 0
  1 + libm.cos (2 * numbersPi * t)

def weightSum (libm : Libm) (config : VwapConfig) : Double :=
  (List.range config.numSlices).foldl (fun sum i => sum + config.weight libm i) 0

/-- The rounded share of slice `i`. -/
def share (libm : Libm) (config : VwapConfig) (i : Nat) : Int :=
  nearestAway (ofInt 52 config.totalQuantity * (config.weight libm i / config.weightSum libm)).val

/-- What goes to all slices but the last. -/
def allocated (libm : Libm) (config : VwapConfig) : Int :=
  ((List.range (config.numSlices - 1)).map (config.share libm)).sum

end VwapConfig

def VwapExecutor.buildSliceSizes (libm : Libm) (config : VwapConfig) : List Int :=
  (List.range (config.numSlices - 1)).map (config.share libm) ++ [config.totalQuantity - config.allocated libm]

theorem VwapExecutor.sum_buildSliceSizes (libm : Libm) (config : VwapConfig) :
    (VwapExecutor.buildSliceSizes libm config).sum = config.totalQuantity := by
  simp [buildSliceSizes, VwapConfig.allocated]

namespace VwapConfig

variable (libm : Libm) (config : VwapConfig)

/-! ### The weights -/

theorem val_one : (1 : Double).val = 1 := val_ofInt (by norm_num)

theorem val_two : (2 : Double).val = 2 := val_ofInt (by norm_num)

theorem val_two_mul_numbersPi : (2 * numbersPi : Double).val = 2 * numbersPi.val := by
  rw [val_mul, val_two]
  exact round_eq 884279719003555 (-47) (by norm_num) (by rw [numbersPi]; norm_num)

theorem exists_cos (i : Nat) :
    ∃ x, (config.weight libm i).val = (round 52 (1 + (libm.cos x).val)).val ∧ 0 ≤ 1 + (libm.cos x).val ∧
      1 + (libm.cos x).val ≤ 2 := by
  obtain ⟨x, hx⟩ : ∃ x, (config.weight libm i).val = (round 52 (1 + (libm.cos x).val)).val :=
    ⟨_, by rw [weight, val_add, val_one]⟩
  obtain ⟨hlow, hhigh⟩ := abs_le.1 (libm.abs_le_one x)
  exact ⟨x, hx, by linarith, by linarith⟩

theorem weight_nonneg (i : Nat) : 0 ≤ (config.weight libm i).val := by
  obtain ⟨x, hx, hnonneg, -⟩ := config.exists_cos libm i
  rw [hx]
  exact round_nonneg hnonneg

theorem weight_le_two (i : Nat) : (config.weight libm i).val ≤ 2 := by
  obtain ⟨x, hx, hnonneg, hle⟩ := config.exists_cos libm i
  rw [hx, ← val_two]
  exact round_le_val 2 hnonneg (by rwa [val_two])

/-- At the end of the curve the cosine is 1, or nearly so. -/
theorem le_cos_two_pi {x : Double} (hx : x.val = 2 * numbersPi.val) : 1 - 1 / 2 ^ 52 ≤ (libm.cos x).val := by
  have hlow := (abs_le.1 (libm.accurate x)).1
  have hcos := le_realCos_two_pi hx
  have hreal : ((1 - 1 / 2 ^ 52 : ℚ) : ℝ) ≤ (libm.cos x).val := by
    push_cast
    linarith
  exact Rat.cast_le.1 hreal

/-- The weight of the last slice. -/
theorem le_weight_last (h : 1 < config.numSlices) :
    2 - 1 / 2 ^ 51 ≤ (config.weight libm (config.numSlices - 1)).val := by
  have hlt := config.numSlices_lt
  have hlast : ofInt 52 ((config.numSlices - 1 : Nat) : ℤ) = ofInt 52 (config.numSlices - 1) := by
    rw [Nat.cast_sub h.le, Nat.cast_one]
  have hval : (ofInt 52 ((config.numSlices : ℤ) - 1)).val ≠ 0 := by
    rw [val_ofInt (by rw [abs_le]; constructor <;> omega)]
    push_cast
    have : (1 : ℚ) < config.numSlices := by exact_mod_cast h
    linarith
  have ht : (ofInt 52 ((config.numSlices - 1 : Nat) : ℤ) / ofInt 52 ((config.numSlices : ℤ) - 1) : Double) = 1 := by
    ext
    rw [hlast, val_div, div_self hval]
    rfl
  have hangle : (2 * numbersPi * 1 : Double).val = 2 * numbersPi.val := by
    rw [val_mul, val_one, mul_one, round_val, val_two_mul_numbersPi]
  have hcos := le_cos_two_pi libm hangle
  have hround : (1 + (libm.cos (2 * numbersPi * 1)).val) * (1 - unit 52) ≤
      (round 52 (1 + (libm.cos (2 * numbersPi * 1)).val)).val := le_round (by norm_num at hcos; linarith)
  rw [weight, if_pos h, ht, val_add, val_one]
  refine le_trans ?_ hround
  rw [unit]
  norm_num at hcos ⊢
  linarith

/-! ### The shares -/

/-- The weights, added up exactly. -/
def exactSum : ℚ := ((List.range config.numSlices).map fun i => (config.weight libm i).val).sum

theorem sum_weight_nonneg (m : Nat) : 0 ≤ ((List.range m).map fun i => (config.weight libm i).val).sum := by
  refine List.sum_nonneg fun q hq => ?_
  obtain ⟨i, -, rfl⟩ := List.mem_map.1 hq
  exact config.weight_nonneg libm i

theorem exactSum_eq : config.exactSum libm =
    ((List.range (config.numSlices - 1)).map fun i => (config.weight libm i).val).sum +
      (config.weight libm (config.numSlices - 1)).val := by
  obtain ⟨m, hm⟩ : ∃ m, config.numSlices = m + 1 := ⟨config.numSlices - 1, by have := config.numSlices_pos; omega⟩
  rw [exactSum, hm, List.range_succ, List.map_append, List.sum_append, Nat.add_sub_cancel]
  simp

theorem exactSum_le : config.exactSum libm ≤ 2 * config.numSlices := by
  have hle : config.exactSum libm ≤ ((List.range config.numSlices).map fun _ => (2 : ℚ)).sum :=
    List.sum_le_sum fun i _ => config.weight_le_two libm i
  rw [List.map_const', List.sum_replicate, List.length_range, nsmul_eq_mul] at hle
  linarith

theorem exactSum_pos (h : 1 < config.numSlices) : 0 < config.exactSum libm := by
  have hlast := config.le_weight_last libm h
  have hrest := config.sum_weight_nonneg libm (config.numSlices - 1)
  rw [exactSum_eq]
  norm_num at hlast
  linarith

/-- The sum that the loop has computed. -/
theorem le_weightSum : (1 - config.numSlices * unit 52) * config.exactSum libm ≤ (config.weightSum libm).val := by
  have hzero : (0 : Double).val = 0 := val_ofInt (by norm_num)
  have hsum := le_foldl_add (config.weight libm) (List.range config.numSlices)
    (fun i _ => config.weight_nonneg libm i) 0 hzero.ge
  rw [List.length_range, hzero, zero_add] at hsum
  refine le_trans ?_ hsum
  have hbernoulli : 1 + (config.numSlices : ℚ) * -unit 52 ≤ (1 + -unit 52) ^ config.numSlices :=
    one_add_mul_le_pow (by rw [unit]; norm_num) _
  refine mul_le_mul_of_nonneg_right ?_ (config.sum_weight_nonneg libm config.numSlices)
  rw [← sub_eq_add_neg] at hbernoulli
  linarith

theorem numSlices_unit_le : (config.numSlices : ℚ) * unit 52 ≤ 1 / 2 := by
  have hn : (config.numSlices : ℚ) ≤ 2147483648 := by exact_mod_cast config.numSlices_lt.le
  rw [unit]
  norm_num
  linarith

theorem weightSum_nonneg : 0 ≤ (config.weightSum libm).val := by
  have hn := config.numSlices_unit_le
  refine le_trans ?_ (config.le_weightSum libm)
  exact mul_nonneg (by linarith) (config.sum_weight_nonneg libm config.numSlices)

/-- The share of a slice before it is rounded to an integer. -/
theorem exactShare_bounds (hT : 0 ≤ config.totalQuantity) (i : Nat) :
    0 ≤ (ofInt 52 config.totalQuantity * (config.weight libm i / config.weightSum libm)).val ∧
      (ofInt 52 config.totalQuantity * (config.weight libm i / config.weightSum libm)).val ≤
        config.totalQuantity * (1 + unit 52) ^ 3 / (config.weightSum libm).val * (config.weight libm i).val := by
  have hq : (0 : ℚ) ≤ config.totalQuantity := by exact_mod_cast hT
  have hunit := (unit_pos 52).le
  have hw := config.weight_nonneg libm i
  have hS := config.weightSum_nonneg libm
  have hratio : 0 ≤ (config.weight libm i).val / (config.weightSum libm).val := div_nonneg hw hS
  have htotal : (ofInt 52 config.totalQuantity).val ≤ config.totalQuantity * (1 + unit 52) := round_le hq
  have htotal' : 0 ≤ (ofInt 52 config.totalQuantity).val := round_nonneg hq
  have hdiv : (config.weight libm i / config.weightSum libm).val ≤
      (config.weight libm i).val / (config.weightSum libm).val * (1 + unit 52) := round_le hratio
  have hdiv' : 0 ≤ (config.weight libm i / config.weightSum libm).val := round_nonneg hratio
  refine ⟨round_nonneg (mul_nonneg htotal' hdiv'), (round_le (mul_nonneg htotal' hdiv')).trans ?_⟩
  calc (ofInt 52 config.totalQuantity).val * (config.weight libm i / config.weightSum libm).val * (1 + unit 52)
      ≤ config.totalQuantity * (1 + unit 52) *
          ((config.weight libm i).val / (config.weightSum libm).val * (1 + unit 52)) * (1 + unit 52) := by gcongr
    _ = config.totalQuantity * (1 + unit 52) ^ 3 / (config.weightSum libm).val * (config.weight libm i).val := by ring

theorem share_nonneg (hT : 0 ≤ config.totalQuantity) (i : Nat) : 0 ≤ config.share libm i :=
  nearestAway_nonneg (config.exactShare_bounds libm hT i).1

/-- The errors of the additions and of the other operations come to less than half a lot. -/
theorem errors_le (hT : 0 ≤ config.totalQuantity) (hfits : config.totalQuantity * (config.numSlices + 4) ≤ 2 ^ 51) :
    (config.totalQuantity : ℚ) * (1 + unit 52) ^ 3 ≤
      (config.totalQuantity + 1 / 2) * (1 - config.numSlices * unit 52) := by
  have hq : (0 : ℚ) ≤ config.totalQuantity := by exact_mod_cast hT
  have hn := config.numSlices_unit_le
  have hprod : (config.totalQuantity : ℚ) * (config.numSlices + 4) ≤ 2 ^ 51 := by exact_mod_cast hfits
  rw [unit] at hn ⊢
  norm_num at hn hprod ⊢
  linarith

theorem allocated_le_sum (hT : 0 ≤ config.totalQuantity) :
    (config.allocated libm : ℚ) ≤
      config.totalQuantity * (1 + unit 52) ^ 3 / (config.weightSum libm).val *
          (config.exactSum libm - (config.weight libm (config.numSlices - 1)).val) +
        (config.numSlices - 1) / 2 := by
  have hcast : (config.allocated libm : ℚ) =
      ((List.range (config.numSlices - 1)).map fun i => (config.share libm i : ℚ)).sum := by
    rw [allocated, Int.cast_list_sum, List.map_map]
    rfl
  have hle : (config.allocated libm : ℚ) ≤ ((List.range (config.numSlices - 1)).map fun i =>
      config.totalQuantity * (1 + unit 52) ^ 3 / (config.weightSum libm).val * (config.weight libm i).val +
        1 / 2).sum := by
    rw [hcast]
    refine List.sum_le_sum fun i _ => ?_
    obtain ⟨hnonneg, hshare⟩ := config.exactShare_bounds libm hT i
    exact (nearestAway_le hnonneg).trans (by linarith)
  rw [List.sum_map_add, List.sum_map_mul_left, List.map_const', List.sum_replicate, List.length_range, nsmul_eq_mul,
    Nat.cast_sub config.numSlices_pos, Nat.cast_one] at hle
  rw [exactSum_eq, add_sub_cancel_right]
  linarith

/-- What is allocated to all slices but the last: their part of the parent, and half a lot for each of them and for
the errors. -/
theorem allocated_le (hT : 0 ≤ config.totalQuantity)
    (hfits : config.totalQuantity * (config.numSlices + 4) ≤ 2 ^ 51) (h : 1 < config.numSlices) :
    (config.allocated libm : ℚ) ≤
      (config.totalQuantity + 1 / 2) *
          (1 - (config.weight libm (config.numSlices - 1)).val / config.exactSum libm) +
        (config.numSlices - 1) / 2 := by
  have hW := config.exactSum_pos libm h
  have hn := config.numSlices_unit_le
  have hS := config.le_weightSum libm
  have hq : (0 : ℚ) ≤ config.totalQuantity := by exact_mod_cast hT
  have hpos : 0 < (1 - config.numSlices * unit 52) * config.exactSum libm := mul_pos (by linarith) hW
  have hshares := config.allocated_le_sum libm hT
  have hlast : 0 ≤ config.exactSum libm - (config.weight libm (config.numSlices - 1)).val := by
    rw [exactSum_eq, add_sub_cancel_right]
    exact config.sum_weight_nonneg libm _
  have hscale : config.totalQuantity * (1 + unit 52) ^ 3 / (config.weightSum libm).val ≤
      (config.totalQuantity + 1 / 2) / config.exactSum libm := by
    rw [div_le_div_iff₀ (hpos.trans_le hS) hW]
    calc config.totalQuantity * (1 + unit 52) ^ 3 * config.exactSum libm
        ≤ (config.totalQuantity + 1 / 2) * (1 - config.numSlices * unit 52) * config.exactSum libm :=
          mul_le_mul_of_nonneg_right (config.errors_le hT hfits) hW.le
      _ = (config.totalQuantity + 1 / 2) * ((1 - config.numSlices * unit 52) * config.exactSum libm) := by ring
      _ ≤ (config.totalQuantity + 1 / 2) * (config.weightSum libm).val :=
          mul_le_mul_of_nonneg_left hS (by linarith)
  calc (config.allocated libm : ℚ)
      ≤ (config.totalQuantity + 1 / 2) / config.exactSum libm *
          (config.exactSum libm - (config.weight libm (config.numSlices - 1)).val) + (config.numSlices - 1) / 2 := by
        refine hshares.trans ?_
        gcongr
    _ = (config.totalQuantity + 1 / 2) *
          (1 - (config.weight libm (config.numSlices - 1)).val / config.exactSum libm) +
        (config.numSlices - 1) / 2 := by
      field_simp

theorem allocated_of_le_one (h : config.numSlices ≤ 1) : config.allocated libm = 0 := by
  rw [allocated, Nat.sub_eq_zero_of_le h]
  rfl

/-- The slices but the last exceed the parent by half a lot each at most. -/
theorem two_mul_allocated_le (hT : 0 ≤ config.totalQuantity)
    (hfits : config.totalQuantity * (config.numSlices + 4) ≤ 2 ^ 51) :
    2 * config.allocated libm ≤ 2 * config.totalQuantity + config.numSlices := by
  rcases Nat.lt_or_ge 1 config.numSlices with h | h
  · have hq : (0 : ℚ) ≤ config.totalQuantity := by exact_mod_cast hT
    have hpart : 0 ≤ (config.weight libm (config.numSlices - 1)).val / config.exactSum libm :=
      div_nonneg (config.weight_nonneg libm _) (config.exactSum_pos libm h).le
    have hle : (config.totalQuantity + 1 / 2 : ℚ) *
        (1 - (config.weight libm (config.numSlices - 1)).val / config.exactSum libm) ≤
          config.totalQuantity + 1 / 2 := mul_le_of_le_one_right (by linarith) (by linarith)
    have hall := config.allocated_le libm hT hfits h
    have hcast : ((2 * config.allocated libm : ℤ) : ℚ) ≤
        ((2 * config.totalQuantity + config.numSlices : ℤ) : ℚ) := by
      push_cast
      linarith
    exact Int.cast_le.1 hcast
  · rw [config.allocated_of_le_one libm h]
    omega

/-- Few slices do not exceed the parent: what rounding adds to them is less than the part of the last one. -/
theorem allocated_le_total (hT : 0 ≤ config.totalQuantity)
    (hfits : config.totalQuantity * (config.numSlices + 4) ≤ 2 ^ 51)
    (hfew : (config.numSlices : Int) ^ 2 ≤ 2 * config.totalQuantity) :
    config.allocated libm ≤ config.totalQuantity := by
  rcases Nat.lt_or_ge 1 config.numSlices with h | h
  · have hq : (0 : ℚ) ≤ config.totalQuantity := by exact_mod_cast hT
    have hn : (1 : ℚ) < config.numSlices := by exact_mod_cast h
    have hfew' : (config.numSlices : ℚ) ^ 2 ≤ 2 * config.totalQuantity := by exact_mod_cast hfew
    have hbound : (config.totalQuantity : ℚ) * (config.numSlices + 4) ≤ 2 ^ 51 := by exact_mod_cast hfits
    have hW := config.exactSum_pos libm h
    have hlast := config.le_weight_last libm h
    have hall := config.allocated_le libm hT hfits h
    -- the last slice's part is at least an `n`-th, up to the error in its weight
    have hpart : (1 - 1 / 2 ^ 52) / config.numSlices ≤
        (config.weight libm (config.numSlices - 1)).val / config.exactSum libm := by
      rw [div_le_div_iff₀ (by linarith) hW]
      calc (1 - 1 / 2 ^ 52) * config.exactSum libm
          ≤ (1 - 1 / 2 ^ 52) * (2 * config.numSlices) :=
            mul_le_mul_of_nonneg_left (config.exactSum_le libm) (by norm_num)
        _ = (2 - 1 / 2 ^ 51) * config.numSlices := by ring
        _ ≤ (config.weight libm (config.numSlices - 1)).val * config.numSlices :=
            mul_le_mul_of_nonneg_right hlast (by linarith)
    have henough : (config.numSlices : ℚ) / 2 ≤
        (config.totalQuantity + 1 / 2) * ((1 - 1 / 2 ^ 52) / config.numSlices) := by
      have hle : (config.totalQuantity : ℚ) * 5 ≤ 2 ^ 51 :=
        (mul_le_mul_of_nonneg_left (by linarith) hq).trans hbound
      rw [← mul_div_assoc, le_div_iff₀ (by linarith), div_mul_eq_mul_div, ← sq]
      norm_num at hle ⊢
      linarith
    have hcast : (config.allocated libm : ℚ) ≤ config.totalQuantity := by
      have hmul := mul_le_mul_of_nonneg_left hpart (by linarith : (0 : ℚ) ≤ config.totalQuantity + 1 / 2)
      linarith
    exact Int.cast_le.1 hcast
  · rw [config.allocated_of_le_one libm h]
    exact hT

end VwapConfig

/-- The slices that are sent, those that are not positive left out. -/
theorem VwapExecutor.sum_positive_slices (libm : Libm) {config : VwapConfig} (hT : 0 ≤ config.totalQuantity) :
    ((buildSliceSizes libm config).map (max 0)).sum = max (config.allocated libm) config.totalQuantity := by
  have hsame : ((List.range (config.numSlices - 1)).map (config.share libm)).map (max 0) =
      (List.range (config.numSlices - 1)).map (config.share libm) := by
    rw [List.map_map]
    exact List.map_congr_left fun i _ => max_eq_right (config.share_nonneg libm hT i)
  rw [VwapExecutor.buildSliceSizes, List.map_append, List.sum_append, hsame, ← VwapConfig.allocated, List.map_singleton,
    List.sum_singleton]
  omega

/-! ### Six lots in three slices -/

section

variable {x : Double}

theorem cos_nearest_zero (hx : x.val = 0) : (Libm.nearest.cos x).val = 1 := by
  rw [Libm.cos_nearest (m := 2 ^ 53) (by rw [hx]; norm_num)]
  norm_num

theorem cos_nearest_pi (hx : x.val = numbersPi.val) : (Libm.nearest.cos x).val = -1 := by
  have hnear : |Real.cos x.val * 2 ^ 53 - ((-2 ^ 53 : ℤ) : ℝ)| < 1 / 2 := by
    have hcos : 1 - (numbersPi.val - Real.pi) ^ 2 / 2 ≤ -Real.cos numbersPi.val := by
      rw [← Real.cos_sub_pi]
      exact Real.one_sub_sq_div_two_le_cos
    have hsq : ((numbersPi.val : ℝ) - Real.pi) ^ 2 ≤ (1 / 2 ^ 51) ^ 2 :=
      sq_le_sq' (abs_le.1 abs_numbersPi_sub_le).1 (abs_le.1 abs_numbersPi_sub_le).2
    have hlow := Real.neg_one_le_cos numbersPi.val
    rw [hx, abs_lt]
    push_cast
    generalize Real.cos numbersPi.val = y at *
    norm_num at hsq ⊢
    constructor <;> linarith
  rw [Libm.cos_nearest hnear]
  norm_num

theorem cos_nearest_two_pi (hx : x.val = 2 * numbersPi.val) : (Libm.nearest.cos x).val = 1 := by
  have hnear : |Real.cos x.val * 2 ^ 53 - ((2 ^ 53 : ℤ) : ℝ)| < 1 / 2 := by
    have hlow := le_realCos_two_pi hx
    have hhigh := Real.cos_le_one x.val
    rw [abs_lt]
    push_cast
    generalize Real.cos x.val = y at *
    norm_num at hlow ⊢
    constructor <;> linarith
  rw [Libm.cos_nearest hnear]
  norm_num

end

/-- Six lots in three slices. -/
def sixLots : VwapConfig where
  symbol := 7
  client := 9
  side := .buy
  totalQuantity := 6
  numSlices := 3
  limitPrice := 101

/-- The angle of a slice is exact. -/
theorem angle_sixLots {i : Nat} (hi : i ≤ 2) :
    (2 * numbersPi * (ofInt 52 i / ofInt 52 (sixLots.numSlices - 1)) : Double).val = i * numbersPi.val := by
  have htwo : (ofInt 52 (sixLots.numSlices - 1)).val = 2 := val_ofInt (n := 2) (by norm_num)
  have hindex : (ofInt 52 (i : ℤ)).val = i := val_ofInt (by rw [abs_le]; constructor <;> omega)
  have ht : (ofInt 52 i / ofInt 52 (sixLots.numSlices - 1) : Double).val = i / 2 := by
    rw [val_div, htwo, hindex]
    exact round_eq i (-1) (by rw [abs_le]; constructor <;> omega) (by norm_num; ring)
  rw [val_mul, VwapConfig.val_two_mul_numbersPi, ht, show 2 * numbersPi.val * (i / 2) = i * numbersPi.val by ring]
  refine round_eq (884279719003555 * i) (-48) (by rw [abs_le]; constructor <;> omega) ?_
  rw [numbersPi]
  push_cast
  norm_num
  ring

theorem weight_sixLots :
    (sixLots.weight Libm.nearest 0).val = 2 ∧ (sixLots.weight Libm.nearest 1).val = 0 ∧
      (sixLots.weight Libm.nearest 2).val = 2 := by
  have hround : (round 52 (1 + 1)).val = 1 + 1 := round_eq 2 0 (by norm_num) (by norm_num)
  refine ⟨?_, ?_, ?_⟩
  · rw [VwapConfig.weight, if_pos (by decide), val_add, VwapConfig.val_one,
      cos_nearest_zero (by rw [angle_sixLots (by decide), Nat.cast_zero, zero_mul]), hround]
    norm_num
  · rw [VwapConfig.weight, if_pos (by decide), val_add, VwapConfig.val_one,
      cos_nearest_pi (by rw [angle_sixLots (by decide), Nat.cast_one, one_mul]), add_neg_cancel]
    exact round_eq 0 0 (by norm_num) (by norm_num)
  · rw [VwapConfig.weight, if_pos (by decide), val_add, VwapConfig.val_one,
      cos_nearest_two_pi (by rw [angle_sixLots (by decide), Nat.cast_ofNat]), hround]
    norm_num

theorem weightSum_sixLots : (sixLots.weightSum Libm.nearest).val = 4 := by
  obtain ⟨h₀, h₁, h₂⟩ := weight_sixLots
  have hzero : (0 : Double).val = 0 := val_ofInt (by norm_num)
  show (((0 : Double) + sixLots.weight Libm.nearest 0 + sixLots.weight Libm.nearest 1 +
    sixLots.weight Libm.nearest 2).val) = 4
  have htwo : (round 52 (0 + 2)).val = 2 := (round_eq 2 0 (by norm_num) (by norm_num)).trans (by norm_num)
  have htwo' : (round 52 (2 + 0)).val = 2 := (round_eq 2 0 (by norm_num) (by norm_num)).trans (by norm_num)
  have hfour : (round 52 (2 + 2)).val = 4 := (round_eq 4 0 (by norm_num) (by norm_num)).trans (by norm_num)
  rw [val_add, val_add, val_add, hzero, h₀, h₁, h₂, htwo, htwo', hfour]

/-- The halves at the two ends of the curve, and nothing in the middle. -/
theorem VwapExecutor.buildSliceSizes_sixLots : VwapExecutor.buildSliceSizes Libm.nearest sixLots = [3, 0, 3] := by
  obtain ⟨h₀, h₁, -⟩ := weight_sixLots
  have hsix : (ofInt 52 (6 : ℤ)).val = 6 := val_ofInt (by norm_num)
  have hhalf : (round 52 (2 / 4)).val = 1 / 2 := (round_eq 1 (-1) (by norm_num) (by norm_num)).trans (by norm_num)
  have hzero : (round 52 (0 / 4)).val = 0 := (round_eq 0 0 (by norm_num) (by norm_num)).trans (by norm_num)
  have hthree : (round 52 (6 * (1 / 2))).val = 3 := (round_eq 3 0 (by norm_num) (by norm_num)).trans (by norm_num)
  have hnone : (round 52 (6 * 0)).val = 0 := (round_eq 0 0 (by norm_num) (by norm_num)).trans (by norm_num)
  have hfirst : sixLots.share Libm.nearest 0 = 3 := by
    show nearestAway (ofInt 52 6 * (sixLots.weight Libm.nearest 0 / sixLots.weightSum Libm.nearest)).val = 3
    rw [val_mul, val_div, hsix, h₀, weightSum_sixLots, hhalf, hthree]
    norm_num [nearestAway]
  have hsecond : sixLots.share Libm.nearest 1 = 0 := by
    show nearestAway (ofInt 52 6 * (sixLots.weight Libm.nearest 1 / sixLots.weightSum Libm.nearest)).val = 0
    rw [val_mul, val_div, hsix, h₁, weightSum_sixLots, hzero, hnone]
    norm_num [nearestAway]
  show [sixLots.share Libm.nearest 0, sixLots.share Libm.nearest 1,
    6 - [sixLots.share Libm.nearest 0, sixLots.share Libm.nearest 1].sum] = [3, 0, 3]
  rw [hfirst, hsecond]
  decide

end Exchange
