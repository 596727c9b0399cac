import Exchange.Lib.Cumulative
import Exchange.Lib.Wrapping
import Mathlib.Algebra.Order.Floor.Ring
import Mathlib.Data.Rat.Floor
import Mathlib.Logic.Function.Basic
import Mathlib.Tactic.Linarith

/-!
# The latency histogram

`LatencyHistogram` of `jane/metrics/histogram.hpp`: values below `kLinearRangeNs` have a bucket each, larger ones
share the 64 buckets of their octave.  `percentile` answers 0 and 100 with the least and the greatest value, and
everything in between with the lower bound of the bucket of the value of that rank.  This bound can lie below the
least value.

`sum_` and `mean()`, which nothing else reads, are left out.  The counters are 64-bit integers that wrap around; the
results are about fewer than `2 ^ 64` recordings.
-/

namespace Exchange

def kLinearRangeNs : Nat := 8192

def kLinearRangeBits : Nat := 13

def kSubBucketsPerOctave : Nat := 64

def kMaxOctaves : Nat := 40

def kNumBuckets : Nat := kLinearRangeNs + kSubBucketsPerOctave * kMaxOctaves

structure LatencyHistogram where
  counts : Nat → UInt64 := fun _ => 0
  count : UInt64 := 0
  min_ : Int := 0
  max_ : Int := 0

/-- `msb` is the number of the highest bit of the value. -/
def bucketIndex (nanos : Int) : Nat :=
  if nanos < kLinearRangeNs then nanos.toNat
  else
    let v := nanos.toNat
    let msb := Nat.log2 v
    let octaveStart := 1 <<< msb
    let octaveNumber := msb - kLinearRangeBits
    let subWidth := octaveStart / kSubBucketsPerOctave
    let subIndex := (v - octaveStart) / subWidth
    kLinearRangeNs + octaveNumber * kSubBucketsPerOctave + subIndex

def bucketLowerBound (idx : Nat) : Int :=
  if idx < kLinearRangeNs then idx
  else
    let logIdx := idx - kLinearRangeNs
    let octaveNumber := logIdx / kSubBucketsPerOctave
    let subIndex := logIdx % kSubBucketsPerOctave
    let msb := kLinearRangeBits + octaveNumber
    let octaveStart := 1 <<< msb
    let subWidth := octaveStart / kSubBucketsPerOctave
    (octaveStart + subIndex * subWidth : Nat)

namespace LatencyHistogram

/-- A negative value counts as 0. -/
def clamp (nanos : Int) : Int := if nanos < 0 then 0 else nanos

/-- The bucket a value is counted in: the last one takes everything that would be beyond it. -/
def bucketOf (nanos : Int) : Nat := min (bucketIndex nanos) (kNumBuckets - 1)

def record (h : LatencyHistogram) (nanos : Int) : LatencyHistogram :=
  let nanos := clamp nanos
  let idx := bucketOf nanos
  { counts := Function.update h.counts idx (h.counts idx + 1)
    min_ := if h.count = 0 then nanos else min h.min_ nanos
    max_ := max h.max_ nanos
    count := h.count + 1 }

/-- The histogram of a sequence of values. -/
def recordAll (values : List Int) : LatencyHistogram := values.foldl record {}

/-- The rank of the value that `percentile` looks for. -/
def target (count : Nat) (p : ℚ) : Nat := ⌈p / 100 * count - 1 / 10 ^ 9⌉.toNat

def percentile (h : LatencyHistogram) (p : ℚ) : Int :=
  if h.count = 0 then 0
  else if p ≤ 0 then h.min_
  else if 100 ≤ p then h.max_
  else
    -- the loop adds up the counts, and returns as soon as the sum reaches the target
    match firstReaching h.counts (UInt64.ofNat (target h.count.toNat p)) kNumBuckets 0 0 with
    | some i => bucketLowerBound i
    | none => h.max_

def min (h : LatencyHistogram) : Int := if h.count = 0 then 0 else h.min_

def max (h : LatencyHistogram) : Int := h.max_

end LatencyHistogram

/-- The percentiles `p` and `q` are in order, and between the least and the greatest value. -/
structure LatencyHistogram.InOrder (h : LatencyHistogram) (p q : ℚ) : Prop where
  mono : p ≤ q → h.percentile p ≤ h.percentile q
  first : h.min ≤ h.percentile p ∧ h.percentile p ≤ h.max
  second : h.min ≤ h.percentile q ∧ h.percentile q ≤ h.max

/-- The percentile is an extreme one, or the least value is 0, or it has a rank and falls on the least value's bucket
only if this bucket starts with the least value. -/
def LatencyHistogram.Sound (h : LatencyHistogram) (p : ℚ) : Prop :=
  p ≤ 0 ∨ 100 ≤ p ∨ h.min = 0 ∨
    1 ≤ target h.count.toNat p ∧
      (bucketLowerBound (bucketOf h.min) = h.min ∨ (h.counts (bucketOf h.min)).toNat < target h.count.toNat p)

open LatencyHistogram (bucketOf clamp target)

/-! ### Buckets -/

/-- The buckets of an octave split the range from 64 to 128 times their width. -/
theorem bucketLowerBound_octave {o s : Nat} (hs : s < 64) :
    bucketLowerBound (kLinearRangeNs + 64 * o + s) = ((64 + s) * 2 ^ (7 + o) : Nat) := by
  have hdiv : (64 * o + s) / 64 = o := by omega
  have hmod : (64 * o + s) % 64 = s := by omega
  have hstart : 2 ^ (13 + o) = 64 * 2 ^ (7 + o) := by
    rw [show 13 + o = 6 + (7 + o) by omega, Nat.pow_add]
  unfold bucketLowerBound
  rw [if_neg (by omega)]
  simp only [kLinearRangeBits, kSubBucketsPerOctave, Nat.add_assoc, Nat.add_sub_cancel_left, hdiv, hmod,
    Nat.one_shiftLeft, hstart]
  rw [Nat.mul_div_cancel_left _ (by decide), Nat.add_mul]

/-- The value lies between the lower bounds of its bucket and the next one. -/
theorem bucketIndex_octave {v : Nat} (hv : kLinearRangeNs ≤ v) :
    ∃ o s, s < 64 ∧ bucketIndex v = kLinearRangeNs + 64 * o + s ∧ (64 + s) * 2 ^ (7 + o) ≤ v ∧
      v < (64 + s + 1) * 2 ^ (7 + o) := by
  have hv' : 2 ^ 13 ≤ v := hv
  have hne : v ≠ 0 := by omega
  have hmsb : 13 ≤ Nat.log2 v := (Nat.le_log2 hne).2 hv'
  obtain ⟨o, ho⟩ : ∃ o, Nat.log2 v = 13 + o := ⟨Nat.log2 v - 13, by omega⟩
  have hlow : 2 ^ (13 + o) ≤ v := ho ▸ Nat.log2_self_le hne
  have hhigh : v < 2 ^ (13 + o + 1) := ho ▸ Nat.lt_log2_self
  have hstart : 2 ^ (13 + o) = 64 * 2 ^ (7 + o) := by
    rw [show 13 + o = 6 + (7 + o) by omega, Nat.pow_add]
  rw [Nat.pow_succ, hstart] at hhigh
  rw [hstart] at hlow
  have hpos : 0 < 2 ^ (7 + o) := Nat.two_pow_pos _
  have hindex : bucketIndex v = kLinearRangeNs + 64 * o + (v - 64 * 2 ^ (7 + o)) / 2 ^ (7 + o) := by
    unfold bucketIndex
    rw [if_neg (by omega)]
    simp only [kLinearRangeBits, kSubBucketsPerOctave, Int.toNat_natCast, ho, Nat.one_shiftLeft, hstart,
      Nat.add_sub_cancel_left]
    rw [Nat.mul_div_cancel_left _ (by decide), Nat.mul_comm o]
  refine ⟨o, (v - 64 * 2 ^ (7 + o)) / 2 ^ (7 + o), ?_, hindex, ?_, ?_⟩
  · rw [Nat.div_lt_iff_lt_mul hpos]
    omega
  · have hle := Nat.div_mul_le_self (v - 64 * 2 ^ (7 + o)) (2 ^ (7 + o))
    rw [Nat.add_mul]
    omega
  · have hlt := Nat.lt_div_mul_add (a := v - 64 * 2 ^ (7 + o)) hpos
    rw [Nat.add_mul, Nat.add_mul]
    omega

/-- The next bucket starts one width further, also where it is the first of the next octave. -/
theorem bucketLowerBound_octave_succ {o s : Nat} (hs : s < 64) :
    bucketLowerBound (kLinearRangeNs + 64 * o + s + 1) = ((64 + s + 1) * 2 ^ (7 + o) : Nat) := by
  rcases Nat.lt_or_ge (s + 1) 64 with hs' | hs'
  · rw [Nat.add_assoc _ s 1, bucketLowerBound_octave hs', ← Nat.add_assoc 64 s 1]
  · obtain rfl : s = 63 := by omega
    rw [show kLinearRangeNs + 64 * o + 63 + 1 = kLinearRangeNs + 64 * (o + 1) + 0 by omega,
      bucketLowerBound_octave (by decide), ← Nat.add_assoc 7 o 1, Nat.pow_succ]
    congr 1
    omega

theorem bucketLowerBound_lt_succ (i : Nat) : bucketLowerBound i < bucketLowerBound (i + 1) := by
  rcases Nat.lt_or_ge i kLinearRangeNs with hi | hi
  · have hlow : bucketLowerBound i = i := if_pos hi
    rw [hlow]
    rcases Nat.lt_or_ge (i + 1) kLinearRangeNs with hi' | hi'
    · rw [bucketLowerBound, if_pos hi']
      omega
    · rw [show i + 1 = kLinearRangeNs + 64 * 0 + 0 by omega, bucketLowerBound_octave (by decide)]
      exact Int.ofNat_lt.2 hi
  · obtain ⟨o, s, hs, rfl⟩ : ∃ o s, s < 64 ∧ i = kLinearRangeNs + 64 * o + s :=
      ⟨(i - kLinearRangeNs) / 64, (i - kLinearRangeNs) % 64, Nat.mod_lt _ (by decide), by omega⟩
    rw [bucketLowerBound_octave hs, bucketLowerBound_octave_succ hs]
    exact Int.ofNat_lt.2 (Nat.mul_lt_mul_of_pos_right (Nat.lt_succ_self _) (Nat.two_pow_pos _))

theorem bucketLowerBound_mono {i j : Nat} (h : i ≤ j) : bucketLowerBound i ≤ bucketLowerBound j := by
  induction h with
  | refl => exact le_rfl
  | step _ ih => exact ih.trans (bucketLowerBound_lt_succ _).le

/-- The bucket of a value is the last one whose lower bound is not above it. -/
theorem bucketLowerBound_le_iff {v : Int} (hv : 0 ≤ v) (i : Nat) : bucketLowerBound i ≤ v ↔ i ≤ bucketIndex v := by
  have hbounds : bucketLowerBound (bucketIndex v) ≤ v ∧ v < bucketLowerBound (bucketIndex v + 1) := by
    obtain ⟨n, rfl⟩ := Int.eq_ofNat_of_zero_le hv
    rcases Nat.lt_or_ge n kLinearRangeNs with hn | hn
    · have hindex : bucketIndex n = n := by
        rw [bucketIndex, if_pos (by omega), Int.toNat_natCast]
      have hlow : bucketLowerBound n = n := if_pos hn
      have hnext := bucketLowerBound_lt_succ n
      rw [hindex]
      omega
    · obtain ⟨o, s, hs, hindex, hle, hlt⟩ := bucketIndex_octave hn
      rw [hindex, bucketLowerBound_octave hs, bucketLowerBound_octave_succ hs]
      exact ⟨Int.ofNat_le.2 hle, Int.ofNat_lt.2 hlt⟩
  constructor
  · intro hle
    by_contra hgt
    have hmono := bucketLowerBound_mono (Nat.succ_le_of_lt (not_le.1 hgt))
    exact absurd (hbounds.2.trans_le hmono) (not_lt.2 hle)
  · intro hle
    exact (bucketLowerBound_mono hle).trans hbounds.1

/-- The same for the bucket a value is counted in. -/
theorem bucketLowerBound_le_iff_bucketOf {v : Int} (hv : 0 ≤ v) {i : Nat} (hi : i < kNumBuckets) :
    bucketLowerBound i ≤ v ↔ i ≤ bucketOf v := by
  rw [bucketLowerBound_le_iff hv]
  unfold bucketOf
  omega

theorem bucketOf_lt (v : Int) : bucketOf v < kNumBuckets := Nat.lt_succ_of_le (min_le_right _ _)

/-! ### Recorded values -/

/-- `h` has recorded the values `xs`, which have been clamped and are not too many for the counters. -/
structure Recorded (h : LatencyHistogram) (xs : List Int) : Prop where
  counts : ∀ i, (h.counts i).toNat = xs.countP fun x => decide (bucketOf x = i)
  count : h.count.toNat = xs.length
  nonneg : ∀ x ∈ xs, 0 ≤ x
  least : xs ≠ [] → h.min_ ∈ xs ∧ ∀ x ∈ xs, h.min_ ≤ x
  greatest : xs ≠ [] → h.max_ ∈ xs ∧ ∀ x ∈ xs, x ≤ h.max_
  initial : xs = [] → h.max_ = 0

theorem recorded_empty : Recorded {} [] where
  counts _ := rfl
  count := rfl
  nonneg _ hx := absurd hx List.not_mem_nil
  least h := absurd rfl h
  greatest h := absurd rfl h
  initial _ := rfl

theorem Recorded.count_eq_zero_iff {h : LatencyHistogram} {xs : List Int} (hr : Recorded h xs) :
    h.count = 0 ↔ xs = [] := by
  rw [← UInt64.toNat_inj, hr.count, UInt64.toNat_zero, List.length_eq_zero_iff]

theorem clamp_nonneg (v : Int) : 0 ≤ clamp v := by
  unfold clamp
  split_ifs <;> omega

/-- One recording. -/
theorem Recorded.record {h : LatencyHistogram} {xs : List Int} (hr : Recorded h xs) (v : Int)
    (hlen : xs.length + 1 < 2 ^ 64) : Recorded (h.record v) (xs ++ [clamp v]) where
  counts i := by
    show (Function.update h.counts _ _ i).toNat = _
    have hle : xs.countP (fun x => decide (bucketOf x = i)) ≤ xs.length := List.countP_le_length
    rw [← hr.counts] at hle
    rw [List.countP_append, ← hr.counts]
    by_cases hi : bucketOf (clamp v) = i
    · subst hi
      rw [Function.update_self, toNat_add_one (by omega)]
      simp
    · rw [Function.update_of_ne (Ne.symm hi)]
      simp [hi]
  count := by
    rw [List.length_append, ← hr.count]
    exact toNat_add_one (by rw [hr.count]; exact hlen)
  nonneg x hx := by
    rcases List.mem_append.1 hx with hx | hx
    · exact hr.nonneg x hx
    · obtain rfl : x = clamp v := by simpa using hx
      exact clamp_nonneg v
  least _ := by
    show (if h.count = 0 then clamp v else min h.min_ (clamp v)) ∈ xs ++ [clamp v] ∧
      ∀ x ∈ xs ++ [clamp v], (if h.count = 0 then clamp v else min h.min_ (clamp v)) ≤ x
    by_cases hne : xs = []
    · subst hne
      rw [if_pos (hr.count_eq_zero_iff.2 rfl)]
      simp
    · obtain ⟨hmem, hle⟩ := hr.least hne
      rw [if_neg fun h0 => hne (hr.count_eq_zero_iff.1 h0)]
      constructor
      · rcases min_choice h.min_ (clamp v) with hmin | hmin <;> rw [hmin] <;> simp [hmem]
      · intro x hx
        rcases List.mem_append.1 hx with hx | hx
        · exact (min_le_left _ _).trans (hle x hx)
        · obtain rfl : x = clamp v := by simpa using hx
          exact min_le_right _ _
  greatest _ := by
    show max h.max_ (clamp v) ∈ xs ++ [clamp v] ∧ ∀ x ∈ xs ++ [clamp v], x ≤ max h.max_ (clamp v)
    by_cases hne : xs = []
    · subst hne
      rw [hr.initial rfl, max_eq_right (clamp_nonneg v)]
      simp
    · obtain ⟨hmem, hle⟩ := hr.greatest hne
      constructor
      · rcases max_choice h.max_ (clamp v) with hmax | hmax <;> rw [hmax] <;> simp [hmem]
      · intro x hx
        rcases List.mem_append.1 hx with hx | hx
        · exact (hle x hx).trans (le_max_left _ _)
        · obtain rfl : x = clamp v := by simpa using hx
          exact le_max_right _ _
  initial hnil := by simp at hnil

theorem Recorded.foldl {h : LatencyHistogram} {xs : List Int} (hr : Recorded h xs) (values : List Int)
    (hlen : xs.length + values.length < 2 ^ 64) :
    Recorded (values.foldl LatencyHistogram.record h) (xs ++ values.map clamp) := by
  induction values generalizing h xs with
  | nil => simpa using hr
  | cons v values ih =>
    rw [List.length_cons] at hlen
    have hrest : (xs ++ [clamp v]).length + values.length < 2 ^ 64 := by
      rw [List.length_append, List.length_singleton]
      omega
    simpa using ih (hr.record v (by omega)) hrest

theorem recorded_recordAll (values : List Int) (hlen : values.length < 2 ^ 64) :
    Recorded (LatencyHistogram.recordAll values) (values.map clamp) :=
  recorded_empty.foldl values (by rwa [List.length_nil, Nat.zero_add])

/-! ### Percentiles -/

theorem target_mono (count : Nat) {p q : ℚ} (hpq : p ≤ q) : target count p ≤ target count q := by
  refine Int.toNat_le_toNat (Int.ceil_mono ?_)
  gcongr

theorem target_le (count : Nat) {p : ℚ} (hp : p ≤ 100) : target count p ≤ count := by
  have hfrac : p / 100 * count ≤ 1 * count := by
    gcongr
    linarith
  have hceil : ⌈p / 100 * count - 1 / 10 ^ 9⌉ ≤ (count : Int) := by
    rw [Int.ceil_le, Int.cast_natCast]
    norm_num
    linarith
  exact Int.toNat_le.2 hceil

section

variable {h : LatencyHistogram} {xs : List Int} {p q : ℚ}

/-- The number of values up to the bucket `i`. -/
theorem Recorded.sum_counts (hr : Recorded h xs) (i : Nat) :
    ∑ x ∈ Finset.range (i + 1), (h.counts x).toNat = xs.countP fun x => decide (bucketOf x ≤ i) := by
  rw [← sum_countP]
  exact Finset.sum_congr rfl fun x _ => hr.counts x

theorem Recorded.count_ne_zero (hr : Recorded h xs) (hne : xs ≠ []) : h.count ≠ 0 :=
  fun h0 => hne (hr.count_eq_zero_iff.1 h0)

theorem Recorded.sum_all (hr : Recorded h xs) : ∑ x ∈ Finset.range kNumBuckets, (h.counts x).toNat = h.count.toNat := by
  rw [show kNumBuckets = kNumBuckets - 1 + 1 from rfl, hr.sum_counts, hr.count, List.countP_eq_length]
  intro x _
  exact decide_eq_true (min_le_right _ _)

/-- The running sum of the loop does not wrap around. -/
theorem Recorded.firstReaching_eq (hr : Recorded h xs) {rank : Nat} (hrank : rank ≤ h.count.toNat) :
    firstReaching h.counts (UInt64.ofNat rank) kNumBuckets 0 0 =
      firstReaching (fun i => (h.counts i).toNat) rank kNumBuckets 0 0 := by
  have hlt := h.count.toNat_lt
  have hsum := hr.sum_all
  have hfits : (0 : UInt64).toNat + ∑ x ∈ Finset.range kNumBuckets, (h.counts (0 + x)).toNat < 2 ^ 64 := by
    simp only [Nat.zero_add, UInt64.toNat_zero]
    omega
  rw [firstReaching_toNat hfits, UInt64.toNat_ofNat_of_lt' (hrank.trans_lt hlt)]
  rfl

/-- Strictly between 0 and 100, `percentile` returns the lower bound of the first bucket up to which there are enough
values. -/
theorem Recorded.percentile_eq (hr : Recorded h xs) (hne : xs ≠ []) (hp : 0 < p) (hp' : p < 100) :
    ∃ j < kNumBuckets, h.percentile p = bucketLowerBound j ∧
      ∀ i, j ≤ i ↔ target h.count.toNat p ≤ xs.countP fun x => decide (bucketOf x ≤ i) := by
  have hrank : target h.count.toNat p ≤ h.count.toNat := target_le _ hp'.le
  have hreach : target h.count.toNat p ≤ ∑ x ∈ Finset.range kNumBuckets, (h.counts x).toNat := by
    rw [hr.sum_all]
    exact hrank
  obtain ⟨j, hj, hfound, hiff⟩ := firstReaching_spec (by decide) hreach
  refine ⟨j, hj, ?_, fun i => by rw [hiff, hr.sum_counts]⟩
  rw [LatencyHistogram.percentile, if_neg (hr.count_ne_zero hne), if_neg (not_le.2 hp), if_neg (not_le.2 hp'),
    hr.firstReaching_eq hrank, hfound]

theorem Recorded.min_eq (hr : Recorded h xs) (hne : xs ≠ []) : h.min = h.min_ := if_neg (hr.count_ne_zero hne)

theorem Recorded.percentile_of_nonpos (hr : Recorded h xs) (hne : xs ≠ []) (hp : p ≤ 0) : h.percentile p = h.min_ := by
  rw [LatencyHistogram.percentile, if_neg (hr.count_ne_zero hne), if_pos hp]

theorem Recorded.percentile_of_ge (hr : Recorded h xs) (hne : xs ≠ []) (hp : 100 ≤ p) : h.percentile p = h.max_ := by
  rw [LatencyHistogram.percentile, if_neg (hr.count_ne_zero hne), if_neg (by linarith), if_pos hp]

theorem Recorded.min_le_max (hr : Recorded h xs) (hne : xs ≠ []) : h.min_ ≤ h.max_ :=
  (hr.least hne).2 _ (hr.greatest hne).1

/-- All values are in buckets up to that of the greatest. -/
theorem Recorded.percentile_le_max (hr : Recorded h xs) (hne : xs ≠ []) (p : ℚ) : h.percentile p ≤ h.max := by
  show _ ≤ h.max_
  rcases le_or_gt p 0 with hp | hp
  · rw [hr.percentile_of_nonpos hne hp]
    exact hr.min_le_max hne
  rcases le_or_gt 100 p with hp' | hp'
  · rw [hr.percentile_of_ge hne hp']
  obtain ⟨j, hj, heq, hiff⟩ := hr.percentile_eq hne hp hp'
  obtain ⟨hmem, hle⟩ := hr.greatest hne
  have hmax := hr.nonneg _ hmem
  rw [heq, bucketLowerBound_le_iff_bucketOf hmax hj, hiff]
  have hall : xs.countP (fun x => decide (bucketOf x ≤ bucketOf h.max_)) = xs.length := by
    rw [List.countP_eq_length]
    intro x hx
    refine decide_eq_true ((bucketLowerBound_le_iff_bucketOf hmax (bucketOf_lt x)).1 ?_)
    exact ((bucketLowerBound_le_iff_bucketOf (hr.nonneg x hx) (bucketOf_lt x)).2 le_rfl).trans (hle x hx)
  rw [hall, ← hr.count]
  exact target_le _ hp'.le

/-- No value is in a bucket below that of the least. -/
theorem Recorded.bucketOf_min_le (hr : Recorded h xs) (hne : xs ≠ []) {x : Int} (hx : x ∈ xs) :
    bucketOf h.min_ ≤ bucketOf x := by
  obtain ⟨hmem, hle⟩ := hr.least hne
  have hstart := (bucketLowerBound_le_iff_bucketOf (hr.nonneg _ hmem) (bucketOf_lt h.min_)).2 le_rfl
  exact (bucketLowerBound_le_iff_bucketOf (hr.nonneg x hx) (bucketOf_lt h.min_)).1 (hstart.trans (hle x hx))

/-- The values in the buckets up to that of the least are those of that bucket. -/
theorem Recorded.countP_bucketOf_min (hr : Recorded h xs) (hne : xs ≠ []) :
    xs.countP (fun x => decide (bucketOf x ≤ bucketOf h.min_)) = (h.counts (bucketOf h.min_)).toNat := by
  rw [hr.counts]
  refine List.countP_congr fun x hx => ?_
  have := hr.bucketOf_min_le hne hx
  simp only [decide_eq_true_eq]
  omega

theorem Recorded.countP_bucketOf_lt_min (hr : Recorded h xs) (hne : xs ≠ []) {j : Nat} (hj : j < bucketOf h.min_) :
    xs.countP (fun x => decide (bucketOf x ≤ j)) = 0 := by
  rw [List.countP_eq_zero]
  intro x hx
  have := hr.bucketOf_min_le hne hx
  simp only [decide_eq_true_eq]
  omega

/-- A percentile is not below the least value exactly if it is sound. -/
theorem Recorded.min_le_percentile_iff (hr : Recorded h xs) (hne : xs ≠ []) (p : ℚ) :
    h.min ≤ h.percentile p ↔ h.Sound p := by
  unfold LatencyHistogram.Sound
  rw [hr.min_eq hne]
  rcases le_or_gt p 0 with hp | hp
  · rw [hr.percentile_of_nonpos hne hp]
    exact ⟨fun _ => Or.inl hp, fun _ => le_rfl⟩
  rcases le_or_gt 100 p with hp' | hp'
  · rw [hr.percentile_of_ge hne hp']
    exact ⟨fun _ => Or.inr (Or.inl hp'), fun _ => hr.min_le_max hne⟩
  obtain ⟨j, hj, heq, hiff⟩ := hr.percentile_eq hne hp hp'
  obtain ⟨hmem, hle⟩ := hr.least hne
  have hmin := hr.nonneg _ hmem
  have hstart := (bucketLowerBound_le_iff_bucketOf hmin (bucketOf_lt h.min_)).2 le_rfl
  have hfirst : j ≤ bucketOf h.min_ ↔ target h.count.toNat p ≤ (h.counts (bucketOf h.min_)).toNat := by
    rw [hiff, hr.countP_bucketOf_min hne]
  rw [heq, or_iff_right (not_le.2 hp), or_iff_right (not_le.2 hp')]
  rcases Nat.eq_zero_or_pos (target h.count.toNat p) with hzero | hpos
  · -- the rank 0 is reached by the empty bucket of 0
    obtain rfl : j = 0 := Nat.le_zero.1 ((hiff 0).2 (by omega))
    have hlow : bucketLowerBound 0 = 0 := rfl
    rw [hzero, hlow]
    omega
  · have hge : bucketOf h.min_ ≤ j := by
      by_contra hlt
      have hnone := hr.countP_bucketOf_lt_min hne (not_le.1 hlt)
      have := (hiff j).1 le_rfl
      omega
    by_cases hsame : target h.count.toNat p ≤ (h.counts (bucketOf h.min_)).toNat
    · obtain rfl : j = bucketOf h.min_ := le_antisymm (hfirst.2 hsame) hge
      have hzero : h.min_ = 0 → bucketLowerBound (bucketOf h.min_) = h.min_ := by
        intro h0
        rw [h0]
        rfl
      constructor
      · intro hle'
        exact Or.inr ⟨hpos, Or.inl (le_antisymm hstart hle')⟩
      · rintro (h0 | ⟨-, hexact | hlt⟩)
        · exact (hzero h0).ge
        · exact hexact.ge
        · omega
    · have hgt : ¬ bucketLowerBound j ≤ h.min_ := by
        rw [bucketLowerBound_le_iff_bucketOf hmin hj, hfirst]
        exact hsame
      exact ⟨fun _ => Or.inr ⟨hpos, Or.inr (not_le.1 hsame)⟩, fun _ => (not_le.1 hgt).le⟩

theorem Recorded.percentile_mono (hr : Recorded h xs) (hne : xs ≠ []) (hq : h.Sound q) (hpq : p ≤ q) :
    h.percentile p ≤ h.percentile q := by
  rcases le_or_gt p 0 with hp0 | hp0
  · rw [hr.percentile_of_nonpos hne hp0, ← hr.min_eq hne]
    exact (hr.min_le_percentile_iff hne q).2 hq
  rcases le_or_gt 100 q with hq' | hq'
  · rw [hr.percentile_of_ge hne hq']
    exact hr.percentile_le_max hne p
  obtain ⟨i, -, hi, hiff⟩ := hr.percentile_eq hne hp0 (hpq.trans_lt hq')
  obtain ⟨j, -, hj, hjff⟩ := hr.percentile_eq hne (hp0.trans_le hpq) hq'
  rw [hi, hj]
  refine bucketLowerBound_mono ((hiff j).2 ?_)
  exact (target_mono _ hpq).trans ((hjff j).1 le_rfl)

end

/-- For every non-empty sequence of fewer than 2^64 recorded values, the percentiles `p` and `q` are in order and
between the least and the greatest value exactly if both are sound. -/
theorem percentiles_ordered_iff (v : Int) (values : List Int) (hlen : (v :: values).length < 2 ^ 64) (p q : ℚ) :
    (LatencyHistogram.recordAll (v :: values)).InOrder p q ↔
      (LatencyHistogram.recordAll (v :: values)).Sound p ∧ (LatencyHistogram.recordAll (v :: values)).Sound q := by
  have hr := recorded_recordAll (v :: values) hlen
  have hne : (v :: values).map clamp ≠ [] := by simp
  have hp := hr.min_le_percentile_iff hne p
  have hq := hr.min_le_percentile_iff hne q
  constructor
  · rintro ⟨-, ⟨hmin, -⟩, hmin', -⟩
    exact ⟨hp.1 hmin, hq.1 hmin'⟩
  · rintro ⟨hsound, hsound'⟩
    exact
      { mono := hr.percentile_mono hne hsound'
        first := ⟨hp.2 hsound, hr.percentile_le_max hne p⟩
        second := ⟨hq.2 hsound', hr.percentile_le_max hne q⟩ }

/-- The quartiles of two values below 8192. -/
theorem percentiles_ordered_iff_of_two :
    [(5 : Int), 7].length < 2 ^ 64 ∧
      ((LatencyHistogram.recordAll [5, 7]).InOrder 25 75 ↔
        (LatencyHistogram.recordAll [5, 7]).Sound 25 ∧ (LatencyHistogram.recordAll [5, 7]).Sound 75) :=
  ⟨by decide, percentiles_ordered_iff 5 [7] (by decide) 25 75⟩

/-- The median of the one value 10000 is 9984. -/
theorem median_below_minimum :
    (LatencyHistogram.recordAll [10000]).percentile 50 = 9984 ∧ (LatencyHistogram.recordAll [10000]).min = 10000 ∧
      (LatencyHistogram.recordAll [10000]).percentile 0 = 10000 := by
  have hr : Recorded (LatencyHistogram.recordAll [10000]) [10000] := recorded_recordAll [10000] (by decide)
  refine ⟨?_, rfl, rfl⟩
  obtain ⟨j, -, heq, hiff⟩ := hr.percentile_eq (p := 50) (by simp) (by norm_num) (by norm_num)
  have htarget : target (LatencyHistogram.recordAll [10000]).count.toNat 50 = 1 := by
    show ⌈(50 : ℚ) / 100 * (1 : Nat) - 1 / 10 ^ 9⌉.toNat = 1
    norm_num
  rw [htarget] at hiff
  have hle : j ≤ 8206 := (hiff 8206).2 (by decide)
  have hgt : ¬ j ≤ 8205 := fun hj => absurd ((hiff 8205).1 hj) (by decide)
  obtain rfl : j = 8206 := by omega
  rw [heq]
  rfl

end Exchange
