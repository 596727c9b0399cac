import Exchange.Histogram
import Exchange.Lib.Rank

/-!
# The accuracy of the quantiles

`percentile` turns a percentage into a rank and then looks for the bucket of the value of that rank.  For values in
the range of the buckets, which ends at `2 ^ 53`, the bucket it finds is the bucket of the value of that rank, so that
the lower bound it returns is at most that value and not more than a 64th of itself below it.  This holds as long as
the counters have not wrapped around.
-/

namespace Exchange

open LatencyHistogram (bucketOf clamp target recordAll)

/-- The loop of `percentile`, looking for the rank `target`. -/
def LatencyHistogram.scan (h : LatencyHistogram) (target : UInt64) : Int :=
  match firstReaching h.counts target kNumBuckets 0 0 with
  | some i => bucketLowerBound i
  | none => h.max_

theorem LatencyHistogram.percentile_eq_scan {h : LatencyHistogram} {p : ℚ} (hne : h.count ≠ 0) (hp : 0 < p)
    (hp' : p < 100) : h.percentile p = h.scan (UInt64.ofNat (target h.count.toNat p)) := by
  rw [percentile, if_neg hne, if_neg (not_le.2 hp), if_neg (not_le.2 hp')]
  rfl

/-! ### Buckets -/

section

variable {x y : Int}

theorem bucketLowerBound_bucketIndex_le (hx : 0 ≤ x) : bucketLowerBound (bucketIndex x) ≤ x :=
  (bucketLowerBound_le_iff hx _).2 le_rfl

theorem bucketIndex_mono (hx : 0 ≤ x) (hxy : x ≤ y) : bucketIndex x ≤ bucketIndex y := by
  rw [← bucketLowerBound_le_iff (hx.trans hxy)]
  exact (bucketLowerBound_bucketIndex_le hx).trans hxy

/-- The buckets reach up to `2 ^ 53`. -/
theorem bucketIndex_lt (hx : 0 ≤ x) (hlt : x < 2 ^ 53) : bucketIndex x < kNumBuckets := by
  by_contra hge
  have hend : bucketLowerBound kNumBuckets = 2 ^ 53 := bucketLowerBound_octave (o := 40) (s := 0) (by decide)
  have hle := (bucketLowerBound_le_iff hx kNumBuckets).2 (not_lt.1 hge)
  omega

theorem bucketOf_eq (hx : 0 ≤ x) (hlt : x < 2 ^ 53) : bucketOf x = bucketIndex x := by
  have := bucketIndex_lt hx hlt
  unfold bucketOf
  omega

theorem bucketLowerBound_nonneg (i : Nat) : 0 ≤ bucketLowerBound i := by
  have hzero : bucketLowerBound 0 = 0 := rfl
  rw [← hzero]
  exact bucketLowerBound_mono (Nat.zero_le i)

/-- The lower bound of a bucket is in the bucket. -/
theorem bucketIndex_bucketLowerBound (i : Nat) : bucketIndex (bucketLowerBound i) = i := by
  have hnonneg := bucketLowerBound_nonneg i
  apply le_antisymm
  · by_contra hgt
    have hle := bucketLowerBound_mono (Nat.succ_le_of_lt (not_le.1 hgt))
    have hlow := bucketLowerBound_bucketIndex_le hnonneg
    exact absurd ((bucketLowerBound_lt_succ i).trans_le (hle.trans hlow)) (lt_irrefl _)
  · exact (bucketLowerBound_le_iff hnonneg i).1 le_rfl

theorem bucketLowerBound_exact (hx : 0 ≤ x) (hlt : x < 8192) : bucketLowerBound (bucketIndex x) = x := by
  have hindex : bucketIndex x = x.toNat := if_pos hlt
  have hlow : bucketLowerBound x.toNat = x.toNat := if_pos (by unfold kLinearRangeNs; omega)
  rw [hindex, hlow]
  omega

/-- A bucket of an octave is a 64th of the octave wide, and starts not before the octave. -/
theorem sub_bucketLowerBound_le (hx : 0 ≤ x) :
    x - bucketLowerBound (bucketIndex x) ≤ bucketLowerBound (bucketIndex x) / 64 := by
  rcases lt_or_ge x 8192 with hlt | hge
  · rw [bucketLowerBound_exact hx hlt]
    omega
  · obtain ⟨n, rfl⟩ := Int.eq_ofNat_of_zero_le hx
    obtain ⟨o, s, hs, hindex, -, hhigh⟩ := bucketIndex_octave (v := n) (by unfold kLinearRangeNs; omega)
    rw [hindex, bucketLowerBound_octave hs]
    rw [Nat.add_mul, Nat.one_mul] at hhigh
    have hstart : (64 + s) * 2 ^ (7 + o) = 64 * 2 ^ (7 + o) + s * 2 ^ (7 + o) := Nat.add_mul _ _ _
    omega

end

/-! ### The value of a rank -/

theorem recorded_of_nonneg {values : List Int} (hvalues : ∀ x ∈ values, 0 ≤ x) (hlen : values.length < 2 ^ 64) :
    Recorded (recordAll values) values := by
  have hclamp : values.map clamp = values := by
    conv_rhs => rw [← List.map_id values]
    refine List.map_congr_left fun x hx => ?_
    exact if_neg (not_lt.2 (hvalues x hx))
  have hr := recorded_recordAll values hlen
  rwa [hclamp] at hr

/-- The scan for the rank `k` finds the bucket of the value of rank `k`. -/
theorem scan_recordAll {values : List Int} (hvalues : ∀ x ∈ values, 0 ≤ x ∧ x < 2 ^ 53)
    (hlen : values.length < 2 ^ 64) {k : Nat} (hk : 1 ≤ k) (hle : k ≤ values.length) {x : Int}
    (hx : kthSmallest values k = some x) :
    (recordAll values).scan (UInt64.ofNat k) = bucketLowerBound (bucketIndex x) := by
  have hr := recorded_of_nonneg (fun x hx => (hvalues x hx).1) hlen
  have hmono : ∀ y ∈ values, ∀ z ∈ values, y ≤ z → bucketOf y ≤ bucketOf z := by
    intro y hy z hz hyz
    rw [bucketOf_eq (hvalues y hy).1 (hvalues y hy).2, bucketOf_eq (hvalues z hz).1 (hvalues z hz).2]
    exact bucketIndex_mono (hvalues y hy).1 hyz
  have hfound := firstReaching_rank hmono (fun y _ => bucketOf_lt y) hk hx
  have hcounts : (fun i => ((recordAll values).counts i).toNat) =
      fun i => values.countP fun y => decide (bucketOf y = i) := funext hr.counts
  have hmem := hvalues x (mem_of_kthSmallest hx)
  unfold LatencyHistogram.scan
  rw [hr.firstReaching_eq (by rwa [hr.count]), hcounts, hfound, bucketOf_eq hmem.1 hmem.2]

/-- For fewer than 2^64 values in the range of the buckets, the scan for the rank `k` returns a bound that is not above
the `k`-th smallest value and at most a 64th of itself below it, and that is the value itself in the linear range.  In
that range the index of a bucket is monotone and a valid one, and the lower bound of the bucket of a value is the least
value of the bucket. -/
theorem quantile_accuracy (values : List Int) (hvalues : ∀ x ∈ values, 0 ≤ x ∧ x < 2 ^ 53)
    (hlen : values.length < 2 ^ 64) :
    (∀ k, 1 ≤ k → k ≤ (recordAll values).count.toNat →
      ∃ x v, kthSmallest values k = some x ∧ (recordAll values).scan (UInt64.ofNat k) = v ∧
        v ≤ x ∧ x - v ≤ v / 64 ∧ (x < 8192 → v = x)) ∧
    (∀ x y, 0 ≤ x → x ≤ y → y < 2 ^ 53 → bucketIndex x ≤ bucketIndex y) ∧
    (∀ x, 0 ≤ x → x < 2 ^ 53 → bucketIndex x < kNumBuckets) ∧
    (∀ x, 0 ≤ x → x < 2 ^ 53 →
      IsLeast {y : Int | 0 ≤ y ∧ bucketIndex y = bucketIndex x} (bucketLowerBound (bucketIndex x))) := by
  refine ⟨?_, fun x y hx hxy _ => bucketIndex_mono hx hxy, fun x => bucketIndex_lt, ?_⟩
  · intro k hk hle
    rw [(recorded_of_nonneg (fun x hx => (hvalues x hx).1) hlen).count] at hle
    obtain ⟨x, hx⟩ := exists_kthSmallest hk hle
    have hpos := (hvalues x (mem_of_kthSmallest hx)).1
    refine ⟨x, _, hx, scan_recordAll hvalues hlen hk hle hx, bucketLowerBound_bucketIndex_le hpos,
      sub_bucketLowerBound_le hpos, bucketLowerBound_exact hpos⟩
  · intro x hx _
    constructor
    · exact ⟨bucketLowerBound_nonneg _, bucketIndex_bucketLowerBound _⟩
    · rintro y ⟨hy, hsame⟩
      rw [← hsame]
      exact bucketLowerBound_bucketIndex_le hy

/-- The greater of two values. -/
theorem quantile_accuracy_of_two :
    (∀ x ∈ [10000, 5], (0 : Int) ≤ x ∧ x < 2 ^ 53) ∧ kthSmallest [10000, 5] 2 = some (10000 : Int) ∧
      [(10000 : Int), 5].length < 2 ^ 64 ∧ (recordAll [10000, 5]).scan 2 ≤ 10000 ∧
      10000 - (recordAll [10000, 5]).scan 2 ≤ (recordAll [10000, 5]).scan 2 / 64 := by
  have hrange : ∀ x ∈ [10000, 5], (0 : Int) ≤ x ∧ x < 2 ^ 53 := by decide
  have hsecond : kthSmallest [10000, 5] 2 = some (10000 : Int) := by decide
  obtain ⟨x, v, hx, hv, hle, herror, -⟩ := (quantile_accuracy [10000, 5] hrange (by decide)).1 2
    (by decide) (by decide)
  obtain rfl : x = 10000 := Option.some.inj (hx.symm.trans hsecond)
  have hscan : (recordAll [10000, 5]).scan 2 = v := hv
  rw [hscan]
  exact ⟨hrange, hsecond, by decide, hle, herror⟩

/-- The counters after `n` recordings of 0. -/
theorem counters_replicate_zero (n : Nat) :
    (recordAll (List.replicate n 0)).counts = Function.update (fun _ => 0) 0 (UInt64.ofNat n) ∧
      (recordAll (List.replicate n 0)).count = UInt64.ofNat n := by
  induction n with
  | zero => exact ⟨(Function.update_eq_self ..).symm, rfl⟩
  | succ n ih =>
    have hrecord : recordAll (List.replicate (n + 1) 0) = (recordAll (List.replicate n 0)).record 0 := by
      rw [recordAll, List.replicate_succ', List.foldl_append]
      rfl
    obtain ⟨hcounts, hcount⟩ := ih
    rw [hrecord]
    constructor
    · have hbucket : bucketOf (clamp 0) = 0 := rfl
      show Function.update _ (bucketOf (clamp 0)) _ = _
      rw [hbucket, hcounts, Function.update_idem, Function.update_self, ofNat_add_one]
    · show _ + 1 = _
      rw [hcount, ofNat_add_one]

/-- After 2^64 recordings of 0 the counters are back at 0.  One more value has every rank then, whatever it is. -/
theorem scan_wrapped_counters :
    ∃ values : List Int, values.length = 2 ^ 64 + 1 ∧ (∀ x ∈ values, 0 ≤ x ∧ x < 2 ^ 53) ∧
      (recordAll values).count = 1 ∧ kthSmallest values 1 = some 0 ∧ (recordAll values).scan 1 = 5 := by
  obtain ⟨n, hn⟩ : ∃ n : Nat, n = 2 ^ 64 := ⟨_, rfl⟩
  have hzero : UInt64.ofNat n = 0 := by rw [hn]; rfl
  obtain ⟨hcounts, hcount⟩ := counters_replicate_zero n
  have hmem : ∀ x ∈ List.replicate n 0 ++ [(5 : Int)], x = 0 ∨ x = 5 := by
    intro x hx
    rcases List.mem_append.1 hx with hx | hx
    · exact Or.inl (List.eq_of_mem_replicate hx)
    · exact Or.inr (List.mem_singleton.1 hx)
  have hrecord : recordAll (List.replicate n 0 ++ [5]) = (recordAll (List.replicate n 0)).record 5 := by
    rw [recordAll, List.foldl_append]
    rfl
  have hcounts' : (recordAll (List.replicate n 0 ++ [5])).counts = Function.update (fun _ => 0) 5 1 := by
    rw [hrecord]
    show Function.update _ 5 _ = _
    rw [hcounts, hzero]
    simp [Function.update_eq_self]
  refine ⟨List.replicate n 0 ++ [5], ?_, ?_, ?_, ?_, ?_⟩
  · rw [List.length_append, List.length_replicate, hn, List.length_singleton]
  · intro x hx
    rcases hmem x hx with rfl | rfl <;> decide
  · rw [hrecord]
    show _ + 1 = _
    rw [hcount, hzero]
    rfl
  · obtain ⟨x, hx⟩ := exists_kthSmallest (l := List.replicate n 0 ++ [(5 : Int)]) (k := 1) le_rfl (by simp)
    rcases hmem x (mem_of_kthSmallest hx) with rfl | rfl
    · exact hx
    · -- there are smaller ones
      have hless := countP_lt_of_kthSmallest le_rfl hx
      rw [List.countP_append, List.countP_replicate, if_pos (by decide)] at hless
      omega
  · unfold LatencyHistogram.scan
    rw [hcounts']
    rfl

end Exchange
