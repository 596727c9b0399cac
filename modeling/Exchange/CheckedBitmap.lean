import Exchange.Bitmap
import Exchange.Lib.Loop
import Exchange.Lib.Wrapping
import Mathlib.Logic.Function.Basic

/-!
# The bitmap with checked accesses

`Bitmap` of `jane/book/bitmap.hpp` as it lies in memory: the number of bits is a machine word, the words are an array
of the size the constructor computes, and every access to a word that is not in the array is a fault.  The searches
are the loops of the source.

The constructor rounds up with `(num_bits + 63) / 64`.  Where the sum does not wrap around, this bitmap is the typed
one of `Exchange.Bitmap`, no access is a fault and the searches are linear searches.  Where it wraps around, the array
is empty.
-/

namespace Exchange

structure CheckedBitmap where
  numBits : UInt64
  words : Array (BitVec 64)

namespace CheckedBitmap

def new (numBits : UInt64) : CheckedBitmap := ⟨numBits, Array.replicate ((numBits + 63) / 64).toNat 0#64⟩

def set (b : CheckedBitmap) (i : UInt64) : Option CheckedBitmap :=
  match b.words[(i / 64).toNat]? with
  | none => none
  | some w => some { b with words := b.words.setIfInBounds (i / 64).toNat (w ||| (1#64 <<< (i % 64).toNat)) }

def clear (b : CheckedBitmap) (i : UInt64) : Option CheckedBitmap :=
  match b.words[(i / 64).toNat]? with
  | none => none
  | some w => some { b with words := b.words.setIfInBounds (i / 64).toNat (w &&& ~~~(1#64 <<< (i % 64).toNat)) }

/-- The local variables of the loops. -/
structure Scan where
  wordIdx : Int
  w : BitVec 64

/-- The loop of `find_highest_at_or_below`. -/
def scanDown (words : Array (BitVec 64)) (s : Scan) : Iteration Scan :=
  if s.w ≠ 0#64 then .stop
  else if s.wordIdx - 1 < 0 then .stop
  else
    match words[(s.wordIdx - 1).toNat]? with
    | none => .fault
    | some w => .next ⟨s.wordIdx - 1, w⟩

/-- The loop of `find_lowest_at_or_above`. -/
def scanUp (words : Array (BitVec 64)) (s : Scan) : Iteration Scan :=
  if s.w ≠ 0#64 then .stop
  else if words.size ≤ s.wordIdx + 1 then .stop
  else
    match words[(s.wordIdx + 1).toNat]? with
    | none => .fault
    | some w => .next ⟨s.wordIdx + 1, w⟩

/-- What is returned where the loop of `find_highest_at_or_below` ends. -/
def Scan.highest (s : Scan) : Option Nat :=
  if s.w ≠ 0#64 then some (s.wordIdx.toNat * 64 + (63 - s.w.clz.toNat)) else none

def Scan.lowest (s : Scan) : Option Nat :=
  if s.w ≠ 0#64 then some (s.wordIdx.toNat * 64 + s.w.ctz.toNat) else none

/-- `none` stands for a fault, or for a loop that needs more than `fuel` iterations. -/
def findHighestAtOrBelow (b : CheckedBitmap) (fuel : Nat) (i : UInt64) : Option (Option Nat) :=
  if b.numBits = 0 then some none
  else
    let i := if b.numBits ≤ i then b.numBits - 1 else i
    let bitInWord := (i % 64).toNat
    let firstMask := if bitInWord = 63 then ~~~0#64 else (1#64 <<< (bitInWord + 1)) - 1#64
    match b.words[(i / 64).toNat]? with
    | none => none
    | some w => (runLoop (scanDown b.words) fuel ⟨(i / 64).toNat, w &&& firstMask⟩).map Scan.highest

def findLowestAtOrAbove (b : CheckedBitmap) (fuel : Nat) (i : UInt64) : Option (Option Nat) :=
  if b.numBits ≤ i then some none
  else
    let bitInWord := (i % 64).toNat
    let firstMask := ~~~0#64 <<< bitInWord
    match b.words[(i / 64).toNat]? with
    | none => none
    | some w => (runLoop (scanUp b.words) fuel ⟨(i / 64).toNat, w &&& firstMask⟩).map Scan.lowest

/-! ### The typed bitmap in memory -/

def ofBitmap (numBits : UInt64) (b : Bitmap numBits.toNat) : CheckedBitmap := ⟨numBits, b.words.toArray⟩

section

variable {numBits : UInt64} (b : Bitmap numBits.toNat)

/-- The number of words is rounded up, unless the sum wraps around. -/
theorem new_eq_ofBitmap (h : numBits.toNat + 63 < 2 ^ 64) :
    new numBits = ofBitmap numBits (Bitmap.new numBits.toNat) := by
  have hsize : ((numBits + 63) / 64).toNat = (numBits.toNat + 63) / 64 := by
    rw [UInt64.toNat_div, UInt64.toNat_add]
    exact congrArg (· / 64) (Nat.mod_eq_of_lt h)
  unfold new ofBitmap Bitmap.new
  rw [hsize]
  rfl

theorem words_of_wrap (h : 2 ^ 64 ≤ numBits.toNat + 63) : (new numBits).words = #[] := by
  have hlt := numBits.toNat_lt
  have hsize : ((numBits + 63) / 64).toNat = 0 := by
    rw [UInt64.toNat_div, UInt64.toNat_add]
    show (numBits.toNat + 63) % 2 ^ 64 / 64 = 0
    omega
  unfold new
  rw [hsize]
  rfl

/-- Then there is no word to access. -/
theorem set_of_wrap (h : 2 ^ 64 ≤ numBits.toNat + 63) (i : UInt64) : (new numBits).set i = none := by
  unfold set
  rw [words_of_wrap h]
  rfl

theorem findHighestAtOrBelow_of_wrap (h : 2 ^ 64 ≤ numBits.toNat + 63) (fuel : Nat) (i : UInt64) :
    (new numBits).findHighestAtOrBelow fuel i = none := by
  have hpos : (new numBits).numBits ≠ 0 := by
    intro h0
    have hzero : numBits = 0 := h0
    subst hzero
    exact absurd h (by decide)
  unfold findHighestAtOrBelow
  rw [if_neg hpos, words_of_wrap h]
  rfl

theorem toNat_div_64 (i : UInt64) : (i / 64).toNat = i.toNat / 64 := UInt64.toNat_div i 64

theorem toNat_mod_64 (i : UInt64) : (i % 64).toNat = i.toNat % 64 := UInt64.toNat_mod i 64

theorem words_ofBitmap {k : Nat} (hk : k < (numBits.toNat + 63) / 64) :
    (ofBitmap numBits b).words[k]? = some (b.words.get ⟨k, hk⟩) := by
  show b.words.toArray[k]? = _
  rw [Vector.getElem?_toArray, Vector.getElem?_eq_getElem hk]
  rfl

theorem word_eq_get {k : Nat} (hk : k < (numBits.toNat + 63) / 64) : b.word k = b.words.get ⟨k, hk⟩ := by
  unfold Bitmap.word
  rw [Vector.getElem?_eq_getElem hk]
  rfl

theorem set_ofBitmap {i : UInt64} (hi : i.toNat < numBits.toNat) :
    (ofBitmap numBits b).set i = some (ofBitmap numBits (b.set i.toNat)) := by
  have hk : i.toNat / 64 < (numBits.toNat + 63) / 64 := by omega
  unfold set
  rw [toNat_div_64, toNat_mod_64, words_ofBitmap b hk, ← word_eq_get b hk]
  rfl

theorem clear_ofBitmap {i : UInt64} (hi : i.toNat < numBits.toNat) :
    (ofBitmap numBits b).clear i = some (ofBitmap numBits (b.clear i.toNat)) := by
  have hk : i.toNat / 64 < (numBits.toNat + 63) / 64 := by omega
  unfold clear
  rw [toNat_div_64, toNat_mod_64, words_ofBitmap b hk, ← word_eq_get b hk]
  rfl

/-- From the word `k` the loop takes at most `k + 1` iterations. -/
theorem runLoop_scanDown {k : Nat} (hk : k < (numBits.toNat + 63) / 64) (w : BitVec 64) {fuel : Nat}
    (hfuel : k < fuel) :
    (runLoop (scanDown (ofBitmap numBits b).words) fuel ⟨k, w⟩).map Scan.highest =
      some (Bitmap.scanDown b.words k hk w) := by
  obtain ⟨fuel, rfl⟩ := Nat.exists_eq_add_one_of_ne_zero (Nat.ne_zero_of_lt hfuel)
  induction k generalizing fuel w with
  | zero =>
    have hstop : scanDown (ofBitmap numBits b).words ⟨(0 : Nat), w⟩ = .stop := by
      unfold scanDown
      split_ifs with hw hidx
      · rfl
      · rfl
      · dsimp only at hidx
        omega
    rw [runLoop_stop hstop]
    rfl
  | succ k ih =>
    by_cases hw : w = 0#64
    · subst hw
      have hnext : scanDown (ofBitmap numBits b).words ⟨(k + 1 : Nat), 0#64⟩ =
          .next ⟨k, b.words.get ⟨k, by omega⟩⟩ := by
        have hidx : ((k + 1 : Nat) : Int) - 1 = k := by omega
        unfold scanDown
        dsimp only
        rw [hidx, if_neg (by simp), if_neg (by omega), Int.toNat_natCast, words_ofBitmap b (by omega)]
      obtain ⟨fuel, rfl⟩ := Nat.exists_eq_add_one_of_ne_zero (Nat.ne_zero_of_lt (Nat.lt_of_succ_lt_succ hfuel))
      rw [runLoop_next hnext, ih (by omega) _ fuel (by omega)]
      rfl
    · have hstop : scanDown (ofBitmap numBits b).words ⟨(k + 1 : Nat), w⟩ = .stop := if_pos hw
      rw [runLoop_stop hstop, Bitmap.scanDown, if_pos hw]
      exact congrArg some (if_pos hw)

/-- With `left` more words behind the current one, the loop takes at most `left + 1` iterations. -/
theorem runLoop_scanUp {left : Nat} (hl : left < (numBits.toNat + 63) / 64) (w : BitVec 64) {fuel : Nat}
    (hfuel : left < fuel) :
    (runLoop (scanUp (ofBitmap numBits b).words) fuel
        ⟨((numBits.toNat + 63) / 64 - 1 - left : Nat), w⟩).map Scan.lowest =
      some (Bitmap.scanUp b.words left hl w) := by
  have hsize : (ofBitmap numBits b).words.size = (numBits.toNat + 63) / 64 := b.words.size_toArray
  obtain ⟨fuel, rfl⟩ := Nat.exists_eq_add_one_of_ne_zero (Nat.ne_zero_of_lt hfuel)
  induction left generalizing fuel w with
  | zero =>
    have hstop : scanUp (ofBitmap numBits b).words ⟨((numBits.toNat + 63) / 64 - 1 - 0 : Nat), w⟩ = .stop := by
      unfold scanUp
      split_ifs with hw hidx
      · rfl
      · rfl
      · dsimp only at hidx
        omega
    rw [runLoop_stop hstop]
    rfl
  | succ left ih =>
    by_cases hw : w = 0#64
    · subst hw
      have hnext : scanUp (ofBitmap numBits b).words ⟨((numBits.toNat + 63) / 64 - 1 - (left + 1) : Nat), 0#64⟩ =
          .next ⟨((numBits.toNat + 63) / 64 - 1 - left : Nat),
            b.words.get ⟨(numBits.toNat + 63) / 64 - 1 - left, by omega⟩⟩ := by
        have hidx : (((numBits.toNat + 63) / 64 - 1 - (left + 1) : Nat) : Int) + 1 =
            ((numBits.toNat + 63) / 64 - 1 - left : Nat) := by omega
        unfold scanUp
        dsimp only
        rw [hidx, if_neg (by simp), if_neg (by omega), Int.toNat_natCast, words_ofBitmap b (by omega)]
      obtain ⟨fuel, rfl⟩ := Nat.exists_eq_add_one_of_ne_zero (Nat.ne_zero_of_lt (Nat.lt_of_succ_lt_succ hfuel))
      rw [runLoop_next hnext, ih (by omega) _ fuel (by omega)]
      rfl
    · have hstop : scanUp (ofBitmap numBits b).words ⟨((numBits.toNat + 63) / 64 - 1 - (left + 1) : Nat), w⟩ = .stop :=
        if_pos hw
      rw [runLoop_stop hstop, Bitmap.scanUp, if_pos hw]
      exact congrArg some (if_pos hw)

/-- An index past the end stands for the last bit. -/
theorem findHighestAtOrBelow_clamp {n i : Nat} (b : Bitmap n) (hi : n ≤ i) :
    b.findHighestAtOrBelow i = b.findHighestAtOrBelow (n - 1) := by
  unfold Bitmap.findHighestAtOrBelow
  split_ifs with h0
  · rfl
  · have hlast : ¬ n ≤ n - 1 := by omega
    simp only [if_pos hi, if_neg hlast]

theorem findHighestAtOrBelow_of_lt {i : UInt64} (hi : i.toNat < numBits.toNat) {fuel : Nat}
    (hfuel : (numBits.toNat + 63) / 64 ≤ fuel) :
    (ofBitmap numBits b).findHighestAtOrBelow fuel i = some (b.findHighestAtOrBelow i.toNat) := by
  have hk : i.toNat / 64 < (numBits.toNat + 63) / 64 := by omega
  have hle : ¬ numBits ≤ i := fun h => absurd (UInt64.le_iff_toNat_le.1 h) (by omega)
  have h0 : numBits ≠ 0 := by
    rintro rfl
    exact absurd hi (Nat.not_lt_zero _)
  unfold findHighestAtOrBelow Bitmap.findHighestAtOrBelow
  rw [dif_neg (by omega)]
  have hbits : (ofBitmap numBits b).numBits = numBits := rfl
  have hle' : ¬ numBits.toNat ≤ i.toNat := by omega
  simp only [hbits, if_neg h0, if_neg hle, if_neg hle', toNat_div_64, toNat_mod_64, words_ofBitmap b hk]
  exact runLoop_scanDown b hk _ (by omega)

/-- No access of `find_highest_at_or_below` is a fault, its loop visits each word at most once, and the result is that
of the typed search. -/
theorem findHighestAtOrBelow_ofBitmap (i : UInt64) {fuel : Nat} (hfuel : (numBits.toNat + 63) / 64 ≤ fuel) :
    (ofBitmap numBits b).findHighestAtOrBelow fuel i = some (b.findHighestAtOrBelow i.toNat) := by
  by_cases h0 : numBits = 0
  · subst h0
    rfl
  by_cases hi : i.toNat < numBits.toNat
  · exact findHighestAtOrBelow_of_lt b hi hfuel
  · have hpos : numBits.toNat ≠ 0 := fun h => h0 (UInt64.toNat_inj.1 h)
    have hlast := toNat_sub_one h0
    have hle : numBits ≤ i := UInt64.le_iff_toNat_le.2 (by omega)
    have hle' : ¬ numBits ≤ numBits - 1 := fun h => absurd (UInt64.le_iff_toNat_le.1 h) (by omega)
    have hfound := findHighestAtOrBelow_of_lt b (i := numBits - 1) (by omega) hfuel
    rw [findHighestAtOrBelow_clamp b (not_lt.1 hi), ← hlast, ← hfound]
    have hbits : (ofBitmap numBits b).numBits = numBits := rfl
    unfold findHighestAtOrBelow
    simp only [hbits, if_pos hle, if_neg hle']

/-- The same for `find_lowest_at_or_above`. -/
theorem findLowestAtOrAbove_ofBitmap (i : UInt64) {fuel : Nat} (hfuel : (numBits.toNat + 63) / 64 ≤ fuel) :
    (ofBitmap numBits b).findLowestAtOrAbove fuel i = some (b.findLowestAtOrAbove i.toNat) := by
  have hbits : (ofBitmap numBits b).numBits = numBits := rfl
  unfold findLowestAtOrAbove Bitmap.findLowestAtOrAbove
  rw [hbits]
  by_cases hi : i.toNat < numBits.toNat
  · have hk : i.toNat / 64 < (numBits.toNat + 63) / 64 := by omega
    have hle : ¬ numBits ≤ i := fun h => absurd (UInt64.le_iff_toNat_le.1 h) (by omega)
    -- the words behind the first one
    have hleft : (numBits.toNat + 63) / 64 - 1 - ((numBits.toNat + 63) / 64 - 1 - i.toNat / 64) = i.toNat / 64 := by
      omega
    rw [if_neg hle, dif_pos hi]
    simp only [toNat_div_64, toNat_mod_64, words_ofBitmap b hk]
    have hl : (numBits.toNat + 63) / 64 - 1 - i.toNat / 64 < (numBits.toNat + 63) / 64 := by omega
    have hrun := runLoop_scanUp b hl (b.words.get ⟨i.toNat / 64, hk⟩ &&& ~~~0#64 <<< (i.toNat % 64))
      (hl.trans_le hfuel)
    rw [hleft] at hrun
    exact hrun
  · have hle : numBits ≤ i := UInt64.le_iff_toNat_le.2 (by omega)
    rw [if_pos hle, dif_neg hi]

end

end CheckedBitmap

/-! ### Runs -/

inductive BitCall where
  | set (i : UInt64)
  | clear (i : UInt64)

namespace BitCall

def index : BitCall → UInt64
  | set i => i
  | clear i => i

/-- What a call does to a set of bits. -/
def apply (bits : Nat → Bool) : BitCall → Nat → Bool
  | set i => Function.update bits i.toNat true
  | clear i => Function.update bits i.toNat false

theorem apply_of_ne {c : BitCall} {j : Nat} (bits : Nat → Bool) (h : j ≠ c.index.toNat) : c.apply bits j = bits j := by
  cases c with
  | set i => exact Function.update_of_ne h _ _
  | clear i => exact Function.update_of_ne h _ _

end BitCall

/-- The bits that are set after the calls. -/
def bitsAfter (calls : List BitCall) : Nat → Bool := calls.foldl BitCall.apply fun _ => false

namespace CheckedBitmap

def call (b : CheckedBitmap) : BitCall → Option (Unit × CheckedBitmap)
  | .set i => (b.set i).map fun b => ((), b)
  | .clear i => (b.clear i).map fun b => ((), b)

/-- Both searches from `i` end without a fault, are linear searches for a bit of `bits`, and return no index that is
not one of a bit. -/
structure ScansFrom (b : CheckedBitmap) (bits : Nat → Bool) (i : UInt64) : Prop where
  highest : ∃ fuel r, b.findHighestAtOrBelow fuel i = some r ∧ Bitmap.HighestUpTo bits i.toNat r ∧
    ∀ k, r = some k → k < b.numBits.toNat
  lowest : ∃ fuel r, b.findLowestAtOrAbove fuel i = some r ∧ Bitmap.LowestFrom bits i.toNat r ∧
    ∀ k, r = some k → k < b.numBits.toNat

section

variable {numBits : UInt64}

theorem call_ofBitmap (b : Bitmap numBits.toNat) {c : BitCall} (hc : c.index.toNat < numBits.toNat) :
    ∃ b' : Bitmap numBits.toNat, (ofBitmap numBits b).call c = some ((), ofBitmap numBits b') ∧
      b'.test = c.apply b.test := by
  cases c with
  | set i =>
    have hi : i.toNat < numBits.toNat := hc
    refine ⟨b.set i.toNat, ?_, ?_⟩
    · rw [call, set_ofBitmap b hi]
      rfl
    · funext j
      rw [Bitmap.test_set hi, BitCall.apply, Function.update_apply]
      by_cases hj : j = i.toNat <;> simp [hj]
  | clear i =>
    have hi : i.toNat < numBits.toNat := hc
    refine ⟨b.clear i.toNat, ?_, ?_⟩
    · rw [call, clear_ofBitmap b hi]
      rfl
    · funext j
      rw [Bitmap.test_clear, BitCall.apply, Function.update_apply]
      by_cases hj : j = i.toNat <;> simp [hj]

/-- Calls within the bitmap are no faults, and set and clear the bits they name. -/
theorem run_ofBitmap (calls : List BitCall) (hcalls : ∀ c ∈ calls, c.index.toNat < numBits.toNat)
    (b : Bitmap numBits.toNat) :
    ∃ (outs : List Unit) (b' : Bitmap numBits.toNat),
      runAll call (ofBitmap numBits b) calls = some (outs, ofBitmap numBits b') ∧
      b'.test = calls.foldl BitCall.apply b.test := by
  have hstep : ∀ (s : CheckedBitmap) (bits : Nat → Bool) (c : BitCall),
      (∃ b : Bitmap numBits.toNat, s = ofBitmap numBits b ∧ b.test = bits) → c.index.toNat < numBits.toNat →
      ∃ o s', s.call c = some (o, s') ∧
        ∃ b' : Bitmap numBits.toNat, s' = ofBitmap numBits b' ∧ b'.test = c.apply bits := by
    rintro _ _ c ⟨b, rfl, rfl⟩ hc
    obtain ⟨b', hcall, htest⟩ := call_ofBitmap b hc
    exact ⟨(), _, hcall, b', rfl, htest⟩
  obtain ⟨outs, _, hrun, b', rfl, htest⟩ := runAll_foldl _ hstep hcalls ⟨b, rfl, rfl⟩
  exact ⟨outs, b', hrun, htest⟩

/-- A bit that no call names stays as it is. -/
theorem foldl_apply_of_ne {calls : List BitCall} {j : Nat} (hcalls : ∀ c ∈ calls, j ≠ c.index.toNat)
    (bits : Nat → Bool) : calls.foldl BitCall.apply bits j = bits j := by
  induction calls generalizing bits with
  | nil => rfl
  | cons c calls ih =>
    rw [List.foldl_cons, ih fun c' hc' => hcalls c' (List.mem_cons_of_mem _ hc')]
    exact BitCall.apply_of_ne bits (hcalls c List.mem_cons_self)

theorem scansFrom_ofBitmap {b : Bitmap numBits.toNat} (hclean : ∀ j, numBits.toNat ≤ j → b.test j = false)
    (i : UInt64) :
    (ofBitmap numBits b).ScansFrom b.test i := by
  have hbound : ∀ k, b.test k = true → k < numBits.toNat := by
    intro k hk
    by_contra hge
    rw [hclean k (not_lt.1 hge)] at hk
    cases hk
  have hhigh := findHighestAtOrBelow_ofBitmap b i le_rfl
  have hlow := findLowestAtOrAbove_ofBitmap b i le_rfl
  have hspec := Bitmap.findHighestAtOrBelow_spec hclean i.toNat
  have hspec' := Bitmap.findLowestAtOrAbove_spec hclean i.toNat
  refine ⟨⟨_, _, hhigh, hspec, ?_⟩, ⟨_, _, hlow, hspec', ?_⟩⟩
  · intro k hk
    rw [hk] at hspec
    exact hbound k hspec.2.1
  · intro k hk
    rw [hk] at hspec'
    exact hbound k hspec'.2.1

end

end CheckedBitmap

/-- After any calls of `set` and `clear` with indices below `num_bits`, both searches from any index end, read only
words of the array, find what a linear search finds, and return no index past the end: exactly if `num_bits + 63` does
not wrap around. -/
theorem bitmap_scans_iff (numBits : UInt64) :
    (∀ calls : List BitCall, (∀ c ∈ calls, c.index < numBits) →
      ∃ outs b, runAll CheckedBitmap.call (CheckedBitmap.new numBits) calls = some (outs, b) ∧
        ∀ i, b.ScansFrom (bitsAfter calls) i) ↔
    numBits.toNat + 63 < 2 ^ 64 := by
  constructor
  · intro h
    by_contra hwrap
    obtain ⟨outs, b, hrun, hscans⟩ := h [] (by simp)
    cases hrun
    obtain ⟨fuel, r, hfound, -⟩ := (hscans 0).highest
    rw [CheckedBitmap.findHighestAtOrBelow_of_wrap (not_lt.1 hwrap)] at hfound
    cases hfound
  · intro hsize calls hcalls
    have hcalls' : ∀ c ∈ calls, c.index.toNat < numBits.toNat := fun c hc => UInt64.lt_iff_toNat_lt.1 (hcalls c hc)
    obtain ⟨outs, b, hrun, htest⟩ := CheckedBitmap.run_ofBitmap calls hcalls' (Bitmap.new numBits.toNat)
    have hnew : (Bitmap.new numBits.toNat).test = fun _ => false := funext Bitmap.test_new
    rw [hnew] at htest
    have hclean : ∀ j, numBits.toNat ≤ j → b.test j = false := by
      intro j hj
      rw [htest]
      refine CheckedBitmap.foldl_apply_of_ne (fun c hc => ?_) _
      have := hcalls' c hc
      omega
    refine ⟨outs, _, by rw [CheckedBitmap.new_eq_ofBitmap hsize, hrun], fun i => ?_⟩
    have hscans := CheckedBitmap.scansFrom_ofBitmap hclean i
    rw [htest] at hscans
    exact hscans

/-- A bitmap of `2 ^ 64 - 1` bits has no words, and the first search in it reads one. -/
theorem bitmap_without_words :
    (CheckedBitmap.new 18446744073709551615).words = #[] ∧
    (∀ fuel, (CheckedBitmap.new 18446744073709551615).findHighestAtOrBelow fuel 0 = none) ∧
    ¬ (CheckedBitmap.new 18446744073709551615).ScansFrom (bitsAfter []) 0 := by
  have hnone : ∀ fuel, (CheckedBitmap.new 18446744073709551615).findHighestAtOrBelow fuel 0 = none := fun _ => rfl
  refine ⟨rfl, hnone, fun h => ?_⟩
  obtain ⟨fuel, r, hfound, -⟩ := h.highest
  rw [hnone] at hfound
  cases hfound

end Exchange
