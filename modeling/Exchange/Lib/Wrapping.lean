import Mathlib.Algebra.Group.Nat.Defs
import Mathlib.Data.Nat.ModEq

/-!
# Wrapping counters

A free-running 64-bit counter shows a count `n` as `UInt64.ofNat n`.  Two such counters that are less than 2^64 apart
have the right difference, and two counts less than 2^k apart have different low bits.  Read as signed numbers, two
counts below 2^63 also have a difference of the right sign.
-/

namespace Exchange

theorem toNat_ofNat_sub {m n : Nat} (h : m ≤ n) (hlt : n - m < 2 ^ 64) :
    (UInt64.ofNat n - UInt64.ofNat m).toNat = n - m := by
  rw [UInt64.toNat_sub, UInt64.toNat_ofNat', UInt64.toNat_ofNat']
  omega

/-- The difference of counts `h` ahead and `d` ahead of a third one, of which the second may have overtaken the
first. -/
theorem toNat_ofNat_sub_ofNat {h : Nat} (n d : Nat) (hlt : h < 2 ^ 64) :
    (UInt64.ofNat (n + h) - UInt64.ofNat (n + d)).toNat =
      if d % 2 ^ 64 ≤ h then h - d % 2 ^ 64 else 2 ^ 64 + h - d % 2 ^ 64 := by
  rw [UInt64.toNat_sub, UInt64.toNat_ofNat', UInt64.toNat_ofNat']
  split <;> omega

theorem ofNat_eq_ofNat_iff {m n : Nat} (h : m ≤ n) (hlt : n - m < 2 ^ 64) :
    UInt64.ofNat m = UInt64.ofNat n ↔ m = n := by
  constructor
  · intro heq
    have hdiff := toNat_ofNat_sub h hlt
    rw [heq, UInt64.sub_self] at hdiff
    have hzero : (0 : UInt64).toNat = 0 := rfl
    omega
  · intro heq
    rw [heq]

theorem ofNat_inj_of_lt {m n : Nat} (hm : m < 2 ^ 64) (hn : n < 2 ^ 64) (h : UInt64.ofNat m = UInt64.ofNat n) :
    m = n := by
  have hnat := congrArg UInt64.toNat h
  rwa [UInt64.toNat_ofNat_of_lt' hm, UInt64.toNat_ofNat_of_lt' hn] at hnat

theorem toNat_sub_one {n : UInt64} (h : n ≠ 0) : (n - 1).toNat = n.toNat - 1 := by
  have hpos : n.toNat ≠ 0 := fun h0 => h (UInt64.toNat_inj.1 h0)
  exact UInt64.toNat_sub_of_le n 1 (UInt64.le_iff_toNat_le.2 (Nat.one_le_iff_ne_zero.2 hpos))

theorem toNat_add_one {n : UInt64} (h : n.toNat + 1 < 2 ^ 64) : (n + 1).toNat = n.toNat + 1 := by
  rw [UInt64.toNat_add, UInt64.toNat_one, Nat.mod_eq_of_lt h]

theorem ofNat_add_one (n : Nat) : UInt64.ofNat n + 1 = UInt64.ofNat (n + 1) := (UInt64.ofNat_add n 1).symm

/-- The low `k` bits, taken with a mask. -/
theorem toNat_and_mask {k : Nat} (hk : k < 64) (i : UInt64) :
    (i &&& UInt64.ofNat (2 ^ k - 1)).toNat = i.toNat % 2 ^ k := by
  have hpow : 2 ^ k < 2 ^ 64 := Nat.pow_lt_pow_right (by omega) hk
  rw [UInt64.toNat_and, UInt64.toNat_ofNat_of_lt' (by show 2 ^ k - 1 < 2 ^ 64; omega), Nat.and_two_pow_sub_one_eq_mod]

theorem toNat_ofNat_mod {k : Nat} (hk : k < 64) (n : Nat) : (UInt64.ofNat n).toNat % 2 ^ k = n % 2 ^ k := by
  rw [UInt64.toNat_ofNat', Nat.mod_mod_of_dvd _ (Nat.pow_dvd_pow 2 hk.le)]

/-- Within one lap no two counts have the same low bits. -/
theorem mod_ne_of_lt {m n c : Nat} (h : m < n) (hlt : n < m + c) : m % c ≠ n % c := by
  intro heq
  have hdvd : c ∣ n - m := (Nat.modEq_iff_dvd' h.le).1 heq
  have hle := Nat.le_of_dvd (by omega) hdvd
  omega

/-- Every count has the low bits of one count of each lap. -/
theorem exists_mod_eq {c : Nat} (hc : 0 < c) (d n : Nat) : ∃ m, d ≤ m ∧ m < d + c ∧ m % c = n % c := by
  have hle : d ≤ n + d * c := (Nat.le_mul_of_pos_right d hc).trans (Nat.le_add_left ..)
  have hlt : (n + d * c - d) % c < c := Nat.mod_lt _ hc
  refine ⟨d + (n + d * c - d) % c, by omega, by omega, ?_⟩
  rw [Nat.add_mod_mod, Nat.add_sub_cancel' hle, Nat.add_mul_mod_self_right]

/-! ### Signed differences -/

theorem toInt64_sub_eq_zero_iff (a b : UInt64) : a.toInt64 - b.toInt64 = 0 ↔ a = b := by
  constructor
  · intro h
    have heq : a.toInt64 = b.toInt64 := by rw [Int64.sub_eq_iff_eq_add.1 h, Int64.zero_add]
    have hbits := congrArg Int64.toBitVec heq
    rw [UInt64.toBitVec_toInt64, UInt64.toBitVec_toInt64] at hbits
    exact UInt64.toBitVec_inj.1 hbits
  · intro h
    rw [h, Int64.sub_self]

theorem toInt_toInt64 {a : UInt64} (h : a.toNat < 2 ^ 63) : a.toInt64.toInt = a.toNat := by
  have hbits : a.toInt64.toInt = a.toBitVec.toInt := rfl
  rw [hbits, BitVec.toInt_eq_toNat_of_lt (by rw [UInt64.toNat_toBitVec]; omega), UInt64.toNat_toBitVec]

/-- A number that is not negative is the same as an unsigned one. -/
theorem toNat_toUInt64 {x : Int64} (h : 0 ≤ x.toInt) : (x.toUInt64.toNat : Int) = x.toInt := by
  have hbits : x.toInt = x.toUInt64.toBitVec.toInt := rfl
  have hlt := x.toUInt64.toNat_lt
  rw [BitVec.toInt_eq_toNat_cond, UInt64.toNat_toBitVec] at hbits
  split_ifs at hbits <;> omega

theorem toInt64_sub_neg_iff {a b : UInt64} (ha : a.toNat < 2 ^ 63) (hb : b.toNat < 2 ^ 63) :
    a.toInt64 - b.toInt64 < 0 ↔ a.toNat < b.toNat := by
  rw [Int64.lt_iff_toInt_lt, Int64.toInt_sub, toInt_toInt64 ha, toInt_toInt64 hb, Int64.toInt_zero,
    Int.bmod_eq_of_le (by omega) (by omega)]
  omega

end Exchange
