import Exchange.CheckedBitmap
import Exchange.Lib.SortedList
import Exchange.Lib.Wrapping
import Mathlib.Data.Finset.Sort

/-!
# The three price indexes

The classes of `jane/book/price_index_variants.hpp`: a bitmap with a cached best price, a `std::set` and a sorted
`std::vector`, each with the occupied prices and the greatest of them.  The set and the search in the vector are what
the standard says about them: a finite set in ascending order, and the first position whose element is not less.
-/

namespace Exchange

structure LadderIndexVariant where
  occupied : CheckedBitmap
  best_ : Option UInt64 := none

structure TreeIndexVariant where
  set_ : Finset Int := ∅

structure FlatIndexVariant where
  v : List Int := []

namespace LadderIndexVariant

def new (numPrices : UInt64) : LadderIndexVariant := { occupied := .new numPrices }

/-- `none` stands for an access outside the bitmap. -/
def insert (l : LadderIndexVariant) (p : Int64) : Option LadderIndexVariant :=
  let idx := p.toUInt64
  match l.occupied.set idx with
  | none => none
  | some occupied =>
    match l.best_ with
    | none => some ⟨occupied, some idx⟩
    | some best => some ⟨occupied, some (if best < idx then idx else best)⟩

/-- `fuel` bounds the iterations of the search in the bitmap. -/
def erase (l : LadderIndexVariant) (fuel : Nat) (p : Int64) : Option LadderIndexVariant :=
  let idx := p.toUInt64
  match l.occupied.clear idx with
  | none => none
  | some occupied =>
    if l.best_ = some idx then
      if idx = 0 then some ⟨occupied, none⟩
      else
        match occupied.findHighestAtOrBelow fuel (idx - 1) with
        | none => none
        | some found => some ⟨occupied, found.map UInt64.ofNat⟩
    else some ⟨occupied, l.best_⟩

def best (l : LadderIndexVariant) : Option Int := l.best_.map fun idx => idx.toInt64.toInt

end LadderIndexVariant

namespace TreeIndexVariant

def insert (t : TreeIndexVariant) (p : Int64) : TreeIndexVariant := ⟨Insert.insert p.toInt t.set_⟩

def erase (t : TreeIndexVariant) (p : Int64) : TreeIndexVariant := ⟨t.set_.erase p.toInt⟩

/-- `*rbegin()` is the last price in ascending order. -/
def best (t : TreeIndexVariant) : Option Int := (t.set_.sort).getLast?

end TreeIndexVariant

namespace FlatIndexVariant

def insert (f : FlatIndexVariant) (p : Int64) : FlatIndexVariant :=
  let it := lowerBound f.v p.toInt
  if f.v[it]? ≠ some p.toInt then ⟨f.v.insertIdx it p.toInt⟩ else f

def erase (f : FlatIndexVariant) (p : Int64) : FlatIndexVariant :=
  let it := lowerBound f.v p.toInt
  if f.v[it]? = some p.toInt then ⟨f.v.eraseIdx it⟩ else f

def best (f : FlatIndexVariant) : Option Int := f.v.getLast?

end FlatIndexVariant

/-! ### Calls -/

inductive PriceCall where
  | insert (p : Int64)
  | erase (p : Int64)

def PriceCall.price : PriceCall → Int64
  | .insert p => p
  | .erase p => p

/-- The prices inserted and not erased. -/
def PriceCall.apply (prices : Finset Int) : PriceCall → Finset Int
  | .insert p => Insert.insert p.toInt prices
  | .erase p => prices.erase p.toInt

def LadderIndexVariant.call (fuel : Nat) (l : LadderIndexVariant) : PriceCall → Option (Unit × LadderIndexVariant)
  | .insert p => (l.insert p).map fun l => ((), l)
  | .erase p => (l.erase fuel p).map fun l => ((), l)

def TreeIndexVariant.call (t : TreeIndexVariant) : PriceCall → TreeIndexVariant
  | .insert p => t.insert p
  | .erase p => t.erase p

def FlatIndexVariant.call (f : FlatIndexVariant) : PriceCall → FlatIndexVariant
  | .insert p => f.insert p
  | .erase p => f.erase p

/-! ### The tree and the vector -/

theorem TreeIndexVariant.greatest_best (t : TreeIndexVariant) : Greatest (t.set_ : Set Int) t.best := by
  have hsorted : t.set_.sort.Pairwise (· < ·) := (t.set_.sortedLT_sort).pairwise
  have hbest := greatest_getLast? hsorted
  have hmem : {p | p ∈ t.set_.sort} = (t.set_ : Set Int) := by
    ext p
    simp
  rwa [hmem] at hbest

theorem TreeIndexVariant.foldl_call (calls : List PriceCall) (t : TreeIndexVariant) :
    (calls.foldl TreeIndexVariant.call t).set_ = calls.foldl PriceCall.apply t.set_ := by
  induction calls generalizing t with
  | nil => rfl
  | cons c calls ih =>
    rw [List.foldl_cons, List.foldl_cons, ih]
    cases c <;> rfl

/-- The vector is increasing and holds the prices. -/
structure FlatIndexVariant.Holds (f : FlatIndexVariant) (prices : Finset Int) : Prop where
  sorted : f.v.Pairwise (· < ·)
  mem : ∀ p, p ∈ f.v ↔ p ∈ prices

theorem FlatIndexVariant.Holds.call {f : FlatIndexVariant} {prices : Finset Int} (h : f.Holds prices) (c : PriceCall) :
    (f.call c).Holds (c.apply prices) := by
  cases c with
  | insert p =>
    unfold FlatIndexVariant.call FlatIndexVariant.insert PriceCall.apply
    dsimp only
    split_ifs with hp
    · obtain ⟨hsorted, hmem⟩ := insertIdx_lowerBound h.sorted hp
      refine ⟨hsorted, fun q => ?_⟩
      rw [hmem, Finset.mem_insert, h.mem]
    · have hin : p.toInt ∈ prices := (h.mem _).1 (List.mem_of_getElem? (not_not.1 hp))
      rwa [Finset.insert_eq_of_mem hin]
  | erase p =>
    unfold FlatIndexVariant.call FlatIndexVariant.erase PriceCall.apply
    dsimp only
    split_ifs with hp
    · obtain ⟨hsorted, hmem⟩ := eraseIdx_lowerBound h.sorted hp
      refine ⟨hsorted, fun q => ?_⟩
      rw [hmem, Finset.mem_erase, h.mem]
    · have hout : p.toInt ∉ prices := fun hin => not_mem_of_lowerBound_ne h.sorted hp ((h.mem _).2 hin)
      rwa [Finset.erase_eq_of_notMem hout]

theorem FlatIndexVariant.Holds.foldl {f : FlatIndexVariant} {prices : Finset Int} (h : f.Holds prices)
    (calls : List PriceCall) : (calls.foldl FlatIndexVariant.call f).Holds (calls.foldl PriceCall.apply prices) := by
  induction calls generalizing f prices with
  | nil => exact h
  | cons c calls ih => exact ih (h.call c)

theorem FlatIndexVariant.Holds.greatest_best {f : FlatIndexVariant} {prices : Finset Int} (h : f.Holds prices) :
    Greatest (prices : Set Int) f.best := by
  have hbest := greatest_getLast? h.sorted
  have hmem : {p | p ∈ f.v} = (prices : Set Int) := Set.ext h.mem
  rwa [hmem] at hbest

/-! ### The ladder -/

/-- A linear search down from `i` finds the greatest of the elements, if there is none above `i`. -/
theorem greatest_of_highestUpTo {bits : Nat → Bool} {i : Nat} {r : Option Nat} (h : Bitmap.HighestUpTo bits i r)
    {s : Set Int} (hbits : ∀ j : Nat, bits j = true ↔ (j : Int) ∈ s) (hrange : ∀ q ∈ s, 0 ≤ q ∧ q ≤ i) :
    Greatest s (r.map fun k => (k : Int)) := by
  have hbit : ∀ q ∈ s, bits q.toNat = true := by
    intro q hq
    rwa [hbits, Int.toNat_of_nonneg (hrange q hq).1]
  cases r with
  | none =>
    refine Set.eq_empty_of_forall_notMem fun q hq => ?_
    have hfalse := h q.toNat (by have := hrange q hq; omega)
    rw [hbit q hq] at hfalse
    cases hfalse
  | some k =>
    obtain ⟨-, hk, hnone⟩ := h
    refine ⟨(hbits k).1 hk, fun q hq => ?_⟩
    by_contra hgt
    have hlt : (k : Int) < q := not_le.1 hgt
    have hfalse := hnone q.toNat (by omega) (by have := hrange q hq; omega)
    rw [hbit q hq] at hfalse
    cases hfalse

/-- So does the search in a bitmap. -/
theorem greatest_findHighestAtOrBelow {n i : Nat} {b : Bitmap n} {s : Set Int}
    (hbits : ∀ j : Nat, b.test j = true ↔ (j : Int) ∈ s) (hrange : ∀ q ∈ s, 0 ≤ q ∧ q < n) (hle : ∀ q ∈ s, q ≤ i) :
    Greatest s ((b.findHighestAtOrBelow i).map fun k => (k : Int)) := by
  have hclean : ∀ j, n ≤ j → b.test j = false := by
    intro j hj
    rw [Bool.eq_false_iff, Ne, hbits]
    intro hin
    have := hrange _ hin
    omega
  exact greatest_of_highestUpTo (Bitmap.findHighestAtOrBelow_spec hclean i) hbits
    fun q hq => ⟨(hrange q hq).1, hle q hq⟩

namespace LadderIndexVariant

/-- The bitmap has the bits of the prices, and the cached price is the greatest. -/
structure Holds (numPrices : UInt64) (l : LadderIndexVariant) (prices : Finset Int) : Prop where
  bitmap : ∃ b : Bitmap numPrices.toNat, l.occupied = .ofBitmap numPrices b ∧
    ∀ j : Nat, b.test j = true ↔ (j : Int) ∈ prices
  range : ∀ p ∈ prices, 0 ≤ p ∧ p < numPrices.toNat ∧ p < 2 ^ 63
  best : Greatest (prices : Set Int) (l.best_.map fun idx => (idx.toNat : Int))

section

variable {numPrices : UInt64} {l : LadderIndexVariant} {prices : Finset Int} {p : Int64}

theorem Holds.insert (h : l.Holds numPrices prices) (hp : 0 ≤ p.toInt) (hlt : p.toInt < numPrices.toNat) :
    ∃ l', l.insert p = some l' ∧ l'.Holds numPrices (Insert.insert p.toInt prices) := by
  obtain ⟨b, hocc, htest⟩ := h.bitmap
  have hcast := toNat_toUInt64 hp
  have hidx : p.toUInt64.toNat < numPrices.toNat := by omega
  have hbits : ∀ j : Nat, (b.set p.toUInt64.toNat).test j = true ↔ (j : Int) ∈ Insert.insert p.toInt prices := by
    intro j
    rw [Bitmap.test_set hidx, Bool.or_eq_true, decide_eq_true_eq, htest, Finset.mem_insert, ← hcast, Int.natCast_inj]
  have hrange : ∀ q ∈ Insert.insert p.toInt prices, 0 ≤ q ∧ q < numPrices.toNat ∧ q < 2 ^ 63 := by
    intro q hq
    rcases Finset.mem_insert.1 hq with rfl | hq
    · exact ⟨hp, hlt, p.toInt_lt⟩
    · exact h.range q hq
  have hbest := h.best
  unfold LadderIndexVariant.insert
  dsimp only
  rw [hocc, CheckedBitmap.set_ofBitmap b hidx]
  cases hl : l.best_ with
  | none =>
    rw [hl] at hbest
    refine ⟨_, rfl, ⟨_, rfl, hbits⟩, hrange, ?_⟩
    rw [Finset.coe_insert, ← hcast]
    exact Greatest.insert_none hbest _
  | some best =>
    rw [hl] at hbest
    refine ⟨_, rfl, ⟨_, rfl, hbits⟩, hrange, ?_⟩
    have hmax := Greatest.insert_some hbest (p.toUInt64.toNat : Int)
    rw [Finset.coe_insert, ← hcast]
    by_cases hgt : best < p.toUInt64
    · have hgt' : (best.toNat : Int) < p.toUInt64.toNat := Int.ofNat_lt.2 (UInt64.lt_iff_toNat_lt.1 hgt)
      rw [if_pos hgt'] at hmax
      simpa [hgt] using hmax
    · have hgt' : ¬ (best.toNat : Int) < p.toUInt64.toNat :=
        fun hlt' => hgt (UInt64.lt_iff_toNat_lt.2 (Int.ofNat_lt.1 hlt'))
      rw [if_neg hgt'] at hmax
      simpa [hgt] using hmax

/-- If the best price is erased, the others are below it. -/
theorem Holds.lt_of_erase_best (h : l.Holds numPrices prices) (hp : 0 ≤ p.toInt) (hl : l.best_ = some p.toUInt64) :
    ∀ q ∈ prices.erase p.toInt, 0 ≤ q ∧ q < p.toInt := by
  have hbest : IsGreatest (prices : Set Int) (p.toUInt64.toNat : Int) := by
    have := h.best
    rwa [hl] at this
  have hcast := toNat_toUInt64 hp
  intro q hq
  obtain ⟨hne, hq⟩ := Finset.mem_erase.1 hq
  have hle := hbest.2 hq
  have := h.range q hq
  omega

theorem Holds.erase (h : l.Holds numPrices prices) (hp : 0 ≤ p.toInt) (hlt : p.toInt < numPrices.toNat) {fuel : Nat}
    (hfuel : (numPrices.toNat + 63) / 64 ≤ fuel) :
    ∃ l', l.erase fuel p = some l' ∧ l'.Holds numPrices (prices.erase p.toInt) := by
  obtain ⟨b, hocc, htest⟩ := h.bitmap
  have hcast := toNat_toUInt64 hp
  have hidx : p.toUInt64.toNat < numPrices.toNat := by omega
  have hbits : ∀ j : Nat, (b.clear p.toUInt64.toNat).test j = true ↔ (j : Int) ∈ prices.erase p.toInt := by
    intro j
    rw [Bitmap.test_clear, Bool.and_eq_true, Bool.not_eq_true', decide_eq_false_iff_not, htest, Finset.mem_erase,
      ← hcast, Ne, Int.natCast_inj]
  have hrange : ∀ q ∈ prices.erase p.toInt, 0 ≤ q ∧ q < numPrices.toNat ∧ q < 2 ^ 63 :=
    fun q hq => h.range q (Finset.mem_of_mem_erase hq)
  unfold LadderIndexVariant.erase
  dsimp only
  rw [hocc, CheckedBitmap.clear_ofBitmap b hidx]
  dsimp only
  by_cases hl : l.best_ = some p.toUInt64
  · have hbelow := h.lt_of_erase_best hp hl
    rw [if_pos hl]
    by_cases h0 : p.toUInt64 = 0
    · rw [if_pos h0]
      refine ⟨_, rfl, ⟨_, rfl, hbits⟩, hrange, ?_⟩
      refine Set.eq_empty_of_forall_notMem fun q hq => ?_
      have := hbelow q (Finset.mem_coe.1 hq)
      rw [← hcast, h0] at this
      exact absurd this (by simp)
    · rw [if_neg h0]
      have hprev := toNat_sub_one h0
      have hle : ∀ q ∈ ((prices.erase p.toInt : Finset Int) : Set Int), q ≤ (p.toUInt64 - 1).toNat := by
        intro q hq
        have := hbelow q hq
        omega
      have hfound := greatest_findHighestAtOrBelow hbits (fun q hq => ⟨(hrange q hq).1, (hrange q hq).2.1⟩) hle
      rw [CheckedBitmap.findHighestAtOrBelow_ofBitmap _ _ hfuel]
      generalize (b.clear p.toUInt64.toNat).findHighestAtOrBelow (p.toUInt64 - 1).toNat = found at hfound
      refine ⟨_, rfl, ⟨_, rfl, hbits⟩, hrange, ?_⟩
      cases found with
      | none => exact hfound
      | some k =>
        have hk := hrange k hfound.1
        have hlt' := numPrices.toNat_lt
        show Greatest _ (some ((UInt64.ofNat k).toNat : Int))
        rw [UInt64.toNat_ofNat_of_lt' (show k < 2 ^ 64 by omega)]
        exact hfound
  · rw [if_neg hl]
    refine ⟨_, rfl, ⟨_, rfl, hbits⟩, hrange, ?_⟩
    rw [Finset.coe_erase]
    refine h.best.diff_of_ne fun heq => hl ?_
    obtain ⟨idx, hidx', heq⟩ := Option.map_eq_some_iff.1 heq
    rw [hidx', UInt64.toNat_inj.1 (Int.natCast_inj.1 (heq.trans hcast.symm))]

theorem Holds.run (h : l.Holds numPrices prices) {calls : List PriceCall}
    (hcalls : ∀ c ∈ calls, 0 ≤ c.price.toInt ∧ c.price.toInt < numPrices.toNat) {fuel : Nat}
    (hfuel : (numPrices.toNat + 63) / 64 ≤ fuel) :
    ∃ outs l', runAll (call fuel) l calls = some (outs, l') ∧
      l'.Holds numPrices (calls.foldl PriceCall.apply prices) := by
  refine runAll_foldl (Holds numPrices) ?_ hcalls h
  rintro l prices c h ⟨hp, hlt⟩
  cases c with
  | insert p =>
    obtain ⟨l', hl', hholds⟩ := h.insert (p := p) hp hlt
    exact ⟨(), l', by rw [call, hl']; rfl, hholds⟩
  | erase p =>
    obtain ⟨l', hl', hholds⟩ := h.erase (p := p) hp hlt hfuel
    exact ⟨(), l', by rw [call, hl']; rfl, hholds⟩

theorem holds_new (h : numPrices.toNat + 63 < 2 ^ 64) : (new numPrices).Holds numPrices ∅ where
  bitmap := by
    refine ⟨Bitmap.new _, CheckedBitmap.new_eq_ofBitmap h, fun j => ?_⟩
    rw [Bitmap.test_new]
    simp
  range := by simp
  best := by
    show ((∅ : Finset Int) : Set Int) = ∅
    simp

/-- The prices fit, so the cast back to a price changes nothing. -/
theorem Holds.greatest_best (h : l.Holds numPrices prices) : Greatest (prices : Set Int) l.best := by
  have hbest := h.best
  unfold LadderIndexVariant.best
  cases hl : l.best_ with
  | none =>
    rw [hl] at hbest
    exact hbest
  | some idx =>
    rw [hl] at hbest
    have hrange := h.range (idx.toNat : Int) hbest.1
    show Greatest _ (some idx.toInt64.toInt)
    rw [toInt_toInt64 (by omega)]
    exact hbest

end

end LadderIndexVariant

/-- The three indexes return the same best price after any calls with prices from 0 to `num_prices - 1`, the greatest
price inserted and not erased, exactly if `num_prices + 63` does not wrap around in the constructor of the bitmap. -/
theorem price_indexes_agree_iff (numPrices : UInt64) :
    (∃ fuel, ∀ calls : List PriceCall, (∀ c ∈ calls, 0 ≤ c.price.toInt ∧ c.price.toInt < numPrices.toNat) →
      ∃ outs l, runAll (LadderIndexVariant.call fuel) (LadderIndexVariant.new numPrices) calls = some (outs, l) ∧
        l.best = (calls.foldl TreeIndexVariant.call {}).best ∧
        l.best = (calls.foldl FlatIndexVariant.call {}).best ∧
        Greatest ((calls.foldl PriceCall.apply ∅ : Finset Int) : Set Int) l.best) ↔
    numPrices.toNat + 63 < 2 ^ 64 := by
  constructor
  · rintro ⟨fuel, h⟩
    by_contra hwrap
    have hwrap' := not_lt.1 hwrap
    obtain ⟨outs, l, hrun, -⟩ := h [.insert 0] (by simp [PriceCall.price]; omega)
    -- the first insertion has no word to write to
    have hfault : (LadderIndexVariant.new numPrices).insert 0 = none := by
      unfold LadderIndexVariant.insert LadderIndexVariant.new
      dsimp only
      rw [CheckedBitmap.set_of_wrap hwrap']
    rw [runAll, LadderIndexVariant.call, hfault] at hrun
    cases hrun
  · intro hsize
    refine ⟨(numPrices.toNat + 63) / 64, fun calls hcalls => ?_⟩
    obtain ⟨outs, l, hrun, hholds⟩ := (LadderIndexVariant.holds_new hsize).run hcalls le_rfl
    have hflat : ({} : FlatIndexVariant).Holds ∅ := ⟨List.Pairwise.nil, by simp⟩
    have hladder := hholds.greatest_best
    have htree := (calls.foldl TreeIndexVariant.call {}).greatest_best
    rw [TreeIndexVariant.foldl_call] at htree
    exact ⟨outs, l, hrun, hladder.unique htree, hladder.unique (hflat.foldl calls).greatest_best, hladder⟩

/-- With `2 ^ 64 - 1` prices the bitmap has no words, and inserting the price 0 writes to one.  The other two indexes
hold the price. -/
theorem ladder_index_without_words :
    (∀ fuel, runAll (LadderIndexVariant.call fuel) (LadderIndexVariant.new 18446744073709551615) [.insert 0] = none) ∧
    ([PriceCall.insert 0].foldl TreeIndexVariant.call {}).best = some 0 ∧
    ([PriceCall.insert 0].foldl FlatIndexVariant.call {}).best = some 0 := by
  refine ⟨fun _ => rfl, ?_, rfl⟩
  show ((Insert.insert 0 ∅ : Finset Int).sort).getLast? = some 0
  simp

end Exchange
