import Exchange.RingBuffer

/-!
# The multiple-producer/single-consumer ring buffer

`MPSCRingBuffer` of `jane/concurrency/mpsc_ring_buffer.hpp`, used by any number of producers and one consumer.  Each
load, store and compare-exchange of `enqueue_pos_` or of a cell's sequence and each access to a cell's data is one
step, and the steps of the threads interleave in any way.  `dequeue_pos_` belongs to the consumer, so reading and
writing it is part of the step it comes with.

A position is counted without bound; `enqueue_pos_`, `dequeue_pos_` and the sequences of the cells show it modulo
2^64.
-/

namespace Exchange

structure MPSCRingBuffer.Cell (T : Type) where
  sequence : UInt64
  data : T

structure MPSCRingBuffer (c : Capacity) (T : Type) where
  cells : Fin c.value → MPSCRingBuffer.Cell T
  enqueuePos : UInt64 := 0
  dequeuePos : UInt64 := 0

namespace MPSCRingBuffer

/-- The constructor. -/
def new (c : Capacity) {T : Type} (init : T) : MPSCRingBuffer c T where
  cells := fun i => { sequence := UInt64.ofNat i.val, data := init }

/-! ### The threads -/

/-- How far a call of `try_push` has come: what the next step is, with the local variables. -/
inductive TryPush (T : Type) where
  | idle
  | loadSequence (item : T) (pos : UInt64)
  | loadPos (item : T)
  | compareExchange (item : T) (pos : UInt64)
  | writeData (item : T) (pos : UInt64)
  | storeSequence (item : T) (pos : UInt64)

inductive TryPop (T : Type) where
  | idle
  | readData
  | storeSequence (out : T)

/-- The producers are the elements of `I`. -/
structure Threads (c : Capacity) (I T : Type) where
  ring : MPSCRingBuffer c T
  push : I → TryPush T := fun _ => .idle
  pop : TryPop T := .idle

/-- A position, the producer that has claimed it and the item it has claimed it for. -/
structure Claim (I T : Type) where
  producer : I
  item : T
  pos : UInt64

/-- What a step shows: a successful compare-exchange, or what a call returns. -/
inductive Event (I T : Type) where
  | claimed (claim : Claim I T)
  | pushed (producer : I) (item : T)
  | full (producer : I)
  | popped (out : T)
  | empty

/-- Whose turn it is.  A producer between two calls begins `try_push` with the item; if its next step is the
compare-exchange, `spurious` makes it fail whatever `enqueue_pos_` is. -/
inductive Turn (I T : Type) where
  | producer (i : I) (item : T) (spurious : Bool)
  | consumer

namespace Threads

variable {c : Capacity} {I T : Type} [DecidableEq I]

/-- Threads between two calls, at a new buffer. -/
def new (c : Capacity) (I : Type) {T : Type} (init : T) : Threads c I T := { ring := MPSCRingBuffer.new c init }

/-- The cell of a position. -/
def cell (s : Threads c I T) (pos : UInt64) : Cell T := s.ring.cells (c.slot pos)

def setCell (s : Threads c I T) (pos : UInt64) (cell : Cell T) : Threads c I T :=
  { s with ring := { s.ring with cells := Function.update s.ring.cells (c.slot pos) cell } }

/-- The next step of producer `i`. -/
def goto (s : Threads c I T) (i : I) (push : TryPush T) : Threads c I T :=
  { s with push := Function.update s.push i push }

@[simp] theorem goto_push_self (s : Threads c I T) (i : I) (push : TryPush T) : (s.goto i push).push i = push :=
  Function.update_self ..

theorem goto_push_of_ne (s : Threads c I T) {i j : I} (h : j ≠ i) (push : TryPush T) :
    (s.goto i push).push j = s.push j :=
  Function.update_of_ne h ..

def stepProducer (s : Threads c I T) (i : I) (item : T) (spurious : Bool) : Option (Event I T) × Threads c I T :=
  match s.push i with
  | .idle => (none, s.goto i (.loadSequence item s.ring.enqueuePos))
  | .loadSequence item pos =>
    let seq := (s.cell pos).sequence
    let diff := seq.toInt64 - pos.toInt64
    if diff = 0 then (none, s.goto i (.compareExchange item pos))
    else if diff < 0 then (some (.full i), s.goto i .idle)
    else (none, s.goto i (.loadPos item))
  | .loadPos item => (none, s.goto i (.loadSequence item s.ring.enqueuePos))
  | .compareExchange item pos =>
    if s.ring.enqueuePos = pos ∧ spurious = false then
      let s := { s with ring := { s.ring with enqueuePos := pos + 1 } }
      (some (.claimed ⟨i, item, pos⟩), s.goto i (.writeData item pos))
    else (none, s.goto i (.loadSequence item s.ring.enqueuePos))
  | .writeData item pos =>
    (none, (s.setCell pos { s.cell pos with data := item }).goto i (.storeSequence item pos))
  | .storeSequence item pos =>
    (some (.pushed i item), (s.setCell pos { s.cell pos with sequence := pos + 1 }).goto i .idle)

def stepConsumer (s : Threads c I T) : Option (Event I T) × Threads c I T :=
  let dequeuePos := s.ring.dequeuePos
  match s.pop with
  | .idle =>
    let seq := (s.cell dequeuePos).sequence
    let diff := seq.toInt64 - (dequeuePos + 1).toInt64
    if diff ≠ 0 then (some .empty, s)
    else (none, { s with pop := .readData })
  | .readData => (none, { s with pop := .storeSequence (s.cell dequeuePos).data })
  | .storeSequence out =>
    let s := s.setCell dequeuePos { s.cell dequeuePos with sequence := dequeuePos + UInt64.ofNat c.value }
    (some (.popped out), { s with ring := { s.ring with dequeuePos := dequeuePos + 1 }, pop := .idle })

def step (s : Threads c I T) : Turn I T → Option (Option (Event I T) × Threads c I T)
  | .producer i item spurious => some (s.stepProducer i item spurious)
  | .consumer => some s.stepConsumer

end Threads

/-! ### What a state tells about the calls so far -/

variable {c : Capacity} {I T : Type} [DecidableEq I]

/-- The claim a step has made. -/
@[simp] def claimedBy : Option (Event I T) → List (Claim I T)
  | some (.claimed claim) => [claim]
  | _ => []

/-- The item of a call of producer `i` that a step has completed. -/
@[simp] def pushedBy (i : I) : Option (Event I T) → List T
  | some (.pushed j item) => if j = i then [item] else []
  | _ => []

/-- The item a step of the consumer has returned. -/
@[simp] def poppedBy : Option (Event I T) → List T
  | some (.popped out) => [out]
  | _ => []

/-- The items of one producer's claims, in order. -/
def itemsOf (i : I) (claimed : List (Claim I T)) : List T :=
  (claimed.filter fun claim => claim.producer = i).map Claim.item

theorem itemsOf_append (i : I) (xs ys : List (Claim I T)) : itemsOf i (xs ++ ys) = itemsOf i xs ++ itemsOf i ys := by
  simp [itemsOf]

theorem itemsOf_self (i : I) (item : T) (pos : UInt64) : itemsOf i [⟨i, item, pos⟩] = [item] := by
  simp [itemsOf]

theorem itemsOf_of_ne {i : I} {claim : Claim I T} (h : claim.producer ≠ i) : itemsOf i [claim] = [] := by
  simp [itemsOf, h]

/-- A producer with a claimed position that it has not published yet, and the item that goes there. -/
def TryPush.writing : TryPush T → Option (T × UInt64)
  | .writeData item pos => some (item, pos)
  | .storeSequence item pos => some (item, pos)
  | _ => none

/-- Position `n` is claimed by producer `i`, which has completed the calls of `pushed` and not published `item` yet. -/
structure Owns (cells : Fin c.value → Cell T) (claimed : List (Claim I T)) (released : Nat) (i : I) (pushed : List T)
    (item : T) (n : Nat) : Prop where
  le : released ≤ n
  claim : claimed[n]? = some ⟨i, item, UInt64.ofNat n⟩
  items : itemsOf i claimed = pushed ++ [item]
  sequence : (cells (c.slot (UInt64.ofNat n))).sequence = UInt64.ofNat n

/-- Producer `i` within a call, after the calls of `pushed`, when `released` positions have been handed back. -/
def TryPush.At (cells : Fin c.value → Cell T) (claimed : List (Claim I T)) (released : Nat) (i : I)
    (pushed : List T) : TryPush T → Prop
  | .idle => itemsOf i claimed = pushed
  | .loadSequence _ pos => itemsOf i claimed = pushed ∧ ∃ n, n ≤ claimed.length ∧ pos = UInt64.ofNat n
  | .loadPos _ => itemsOf i claimed = pushed
  | .compareExchange _ pos =>
    itemsOf i claimed = pushed ∧ ∃ n, n ≤ claimed.length ∧ pos = UInt64.ofNat n ∧
      (n = claimed.length → claimed.length < released + c.value)
  | .writeData item pos => ∃ n, pos = UInt64.ofNat n ∧ Owns cells claimed released i pushed item n
  | .storeSequence item pos =>
    ∃ n, pos = UInt64.ofNat n ∧ Owns cells claimed released i pushed item n ∧ (cells (c.slot pos)).data = item

/-- The consumer within a call: past the check, the position it is at is published. -/
def TryPop.At (cells : Fin c.value → Cell T) (claimed : List (Claim I T)) (released : Nat) : TryPop T → Prop
  | .idle => True
  | .readData =>
    released < claimed.length ∧ (cells (c.slot (UInt64.ofNat released))).sequence = UInt64.ofNat (released + 1)
  | .storeSequence out =>
    (released < claimed.length ∧ (cells (c.slot (UInt64.ofNat released))).sequence = UInt64.ofNat (released + 1)) ∧
      (claimed.map Claim.item)[released]? = some out

section Parts

variable {cells : Fin c.value → Cell T} {claimed : List (Claim I T)} {released : Nat} {i : I} {pushed : List T}

theorem Owns.lt {item : T} {n : Nat} (h : Owns cells claimed released i pushed item n) : n < claimed.length :=
  (List.getElem?_eq_some_iff.1 h.claim).1

/-- Two producers do not own the same position. -/
theorem Owns.ne {j : I} {pushed' : List T} {x y : T} {m n : Nat} (hm : Owns cells claimed released i pushed x m)
    (hn : Owns cells claimed released j pushed' y n) (hij : i ≠ j) : m ≠ n := by
  rintro rfl
  have heq := hm.claim.symm.trans hn.claim
  cases heq
  exact hij rfl

/-- Another cell may change, and positions up to the producer's own may be released. -/
theorem Owns.update {item : T} {n : Nat} (h : Owns cells claimed released i pushed item n) {released' : Nat}
    (hle : released' ≤ n) {k : Fin c.value} (hk : c.slot (UInt64.ofNat n) ≠ k) (cell : Cell T) :
    Owns (Function.update cells k cell) claimed released' i pushed item n :=
  { h with le := hle, sequence := by rw [Function.update_of_ne hk]; exact h.sequence }

theorem Owns.append {item : T} {n : Nat} (h : Owns cells claimed released i pushed item n) {claim : Claim I T}
    (hne : claim.producer ≠ i) : Owns cells (claimed ++ [claim]) released i pushed item n :=
  { h with
    claim := by rw [List.getElem?_append_left h.lt]; exact h.claim
    items := by rw [itemsOf_append, itemsOf_of_ne hne, List.append_nil]; exact h.items }

namespace TryPush.At

variable {push : TryPush T}

theorem owns (h : push.At cells claimed released i pushed) {item : T} {pos : UInt64}
    (hw : push.writing = some (item, pos)) :
    ∃ n, pos = UInt64.ofNat n ∧ Owns cells claimed released i pushed item n := by
  cases push with
  | writeData => cases hw; exact h
  | storeSequence =>
    cases hw
    obtain ⟨n, hpos, howns, _⟩ := h
    exact ⟨n, hpos, howns⟩
  | _ => cases hw

theorem items (h : push.At cells claimed released i pushed) (hw : push.writing = none) :
    itemsOf i claimed = pushed := by
  cases push with
  | idle => exact h
  | loadSequence => exact h.1
  | loadPos => exact h
  | compareExchange => exact h.1
  | writeData => cases hw
  | storeSequence => cases hw

/-- A cell other than the producer's own may change, and more positions may be released. -/
theorem update (h : push.At cells claimed released i pushed) {released' : Nat} (hle : released ≤ released')
    {k : Fin c.value}
    (hk : ∀ item n, Owns cells claimed released i pushed item n → released' ≤ n ∧ c.slot (UInt64.ofNat n) ≠ k)
    (cell : Cell T) : push.At (Function.update cells k cell) claimed released' i pushed := by
  cases push with
  | idle => exact h
  | loadSequence => exact h
  | loadPos => exact h
  | compareExchange =>
    obtain ⟨hitems, n, hn, hpos, hroom⟩ := h
    exact ⟨hitems, n, hn, hpos, fun heq => by have := hroom heq; omega⟩
  | writeData item pos =>
    obtain ⟨n, hpos, howns⟩ := h
    obtain ⟨hn, hne⟩ := hk item n howns
    exact ⟨n, hpos, howns.update hn hne cell⟩
  | storeSequence item pos =>
    obtain ⟨n, rfl, howns, hdata⟩ := h
    obtain ⟨hn, hne⟩ := hk item n howns
    exact ⟨n, rfl, howns.update hn hne cell, by rw [Function.update_of_ne hne]; exact hdata⟩

/-- Another producer may claim a position. -/
theorem append (h : push.At cells claimed released i pushed) {claim : Claim I T} (hne : claim.producer ≠ i) :
    push.At cells (claimed ++ [claim]) released i pushed := by
  have hitems : itemsOf i (claimed ++ [claim]) = itemsOf i claimed := by
    rw [itemsOf_append, itemsOf_of_ne hne, List.append_nil]
  have hlen : (claimed ++ [claim]).length = claimed.length + 1 := by simp
  cases push with
  | idle => exact hitems.trans h
  | loadSequence =>
    obtain ⟨hi, n, hn, hpos⟩ := h
    exact ⟨hitems.trans hi, n, by omega, hpos⟩
  | loadPos => exact hitems.trans h
  | compareExchange =>
    -- a position loaded before is behind `enqueue_pos_` now
    obtain ⟨hi, n, hn, hpos, _⟩ := h
    exact ⟨hitems.trans hi, n, by omega, hpos, fun heq => by omega⟩
  | writeData item pos =>
    obtain ⟨n, hpos, howns⟩ := h
    exact ⟨n, hpos, howns.append hne⟩
  | storeSequence item pos =>
    obtain ⟨n, hpos, howns, hdata⟩ := h
    exact ⟨n, hpos, howns.append hne, hdata⟩

end TryPush.At

omit [DecidableEq I] in
theorem TryPop.At.append {pop : TryPop T} (h : pop.At cells claimed released) (claim : Claim I T) :
    pop.At cells (claimed ++ [claim]) released := by
  have hlen : (claimed ++ [claim]).length = claimed.length + 1 := by simp
  cases pop with
  | idle => exact trivial
  | readData => exact ⟨by have := h.1; omega, h.2⟩
  | storeSequence out =>
    obtain ⟨⟨hlt, hseq⟩, hout⟩ := h
    refine ⟨⟨by omega, hseq⟩, ?_⟩
    rw [List.map_append, List.getElem?_append_left (by rw [List.length_map]; exact hlt)]
    exact hout

omit [DecidableEq I] in
/-- A cell may change as long as its sequence does not, or it is not the cell the consumer is at. -/
theorem TryPop.At.update {pop : TryPop T} (h : pop.At cells claimed released) {k : Fin c.value} {cell : Cell T}
    (hk : pop ≠ .idle → cell.sequence = (cells k).sequence ∨ c.slot (UInt64.ofNat released) ≠ k) :
    pop.At (Function.update cells k cell) claimed released := by
  have hseq : pop ≠ .idle → (Function.update cells k cell (c.slot (UInt64.ofNat released))).sequence =
      (cells (c.slot (UInt64.ofNat released))).sequence := by
    intro hpop
    by_cases heq : c.slot (UInt64.ofNat released) = k
    · subst heq
      rw [Function.update_self]
      rcases hk hpop with hcell | hne
      · exact hcell
      · exact absurd rfl hne
    · rw [Function.update_of_ne heq]
  cases pop with
  | idle => exact trivial
  | readData => exact ⟨h.1, (hseq (by simp)).trans h.2⟩
  | storeSequence out => exact ⟨⟨h.1.1, (hseq (by simp)).trans h.1.2⟩, h.2⟩

end Parts

/-- The state after the positions of `claimed` have been claimed, each producer has completed the calls of `pushed`
and the items `popped` have been popped.  Of the cells, those of the next lap that are not claimed wait for a
producer, and those that are claimed and not popped either are being written by the one that has claimed them or are
published. -/
structure Threads.Tracks (s : Threads c I T) (claimed : List (Claim I T)) (pushed : I → List T) (popped : List T) :
    Prop where
  enqueuePos : s.ring.enqueuePos = UInt64.ofNat claimed.length
  dequeuePos : s.ring.dequeuePos = UInt64.ofNat popped.length
  bound : claimed.length ≤ 2 ^ 63
  room : claimed.length ≤ popped.length + c.value
  numbered : claimed.map Claim.pos = (List.range claimed.length).map UInt64.ofNat
  fifo : popped <+: claimed.map Claim.item
  free : ∀ n, claimed.length ≤ n → n < popped.length + c.value →
    (s.cell (UInt64.ofNat n)).sequence = UInt64.ofNat n
  taken : ∀ n claim, popped.length ≤ n → claimed[n]? = some claim →
    (s.push claim.producer).writing = some (claim.item, UInt64.ofNat n) ∨
      ((s.cell (UInt64.ofNat n)).sequence = UInt64.ofNat (n + 1) ∧ (s.cell (UInt64.ofNat n)).data = claim.item)
  push : ∀ i, (s.push i).At s.ring.cells claimed popped.length i (pushed i)
  pop : s.pop.At s.ring.cells claimed popped.length

namespace Threads.Tracks

variable {s : Threads c I T} {claimed : List (Claim I T)} {pushed : I → List T} {popped : List T}

theorem popped_le (h : s.Tracks claimed pushed popped) : popped.length ≤ claimed.length := by
  have hlen := h.fifo.length_le
  rwa [List.length_map] at hlen

/-- A position up to the next one to be claimed is what its 64 bits say. -/
theorem toNat_pos (h : s.Tracks claimed pushed popped) {n : Nat} (hn : n ≤ claimed.length) :
    (UInt64.ofNat n).toNat = n := by
  have hbound := h.bound
  have hlt : n < 2 ^ 64 := by omega
  exact UInt64.toNat_ofNat_of_lt' hlt

/-- A producer that is writing owns the position it says. -/
theorem owns (h : s.Tracks claimed pushed popped) {i : I} {item : T} {n : Nat} (hn : n < claimed.length)
    (hw : (s.push i).writing = some (item, UInt64.ofNat n)) :
    Owns s.ring.cells claimed popped.length i (pushed i) item n := by
  have hbound := h.bound
  obtain ⟨m, hpos, howns⟩ := (h.push i).owns hw
  have hm := howns.lt
  obtain rfl := ofNat_inj_of_lt (by omega) (by omega) hpos
  exact howns

/-- Two positions are not written by one producer. -/
theorem writer_ne (h : s.Tracks claimed pushed popped) {i j : I} {x y : T} {m n : Nat}
    (hi : (s.push i).writing = some (x, UInt64.ofNat n)) (hj : (s.push j).writing = some (y, UInt64.ofNat m))
    (hn : n < claimed.length) (hm : m < claimed.length) (hne : m ≠ n) : j ≠ i := by
  rintro rfl
  have hbound := h.bound
  have heq := congrArg Prod.snd (Option.some.inj (hj.symm.trans hi))
  exact hne (ofNat_inj_of_lt (by omega) (by omega) heq)

/-- The sequence of a cell of this lap says the cell's position, or one more once the position is published. -/
theorem sequence (h : s.Tracks claimed pushed popped) {n : Nat} (hn : popped.length ≤ n)
    (hn' : n < popped.length + c.value) :
    (s.cell (UInt64.ofNat n)).sequence = UInt64.ofNat n ∨
      n < claimed.length ∧ (s.cell (UInt64.ofNat n)).sequence = UInt64.ofNat (n + 1) := by
  by_cases hlt : n < claimed.length
  · rcases h.taken n claimed[n] hn (List.getElem?_eq_getElem hlt) with hw | ⟨hseq, _⟩
    · exact .inl (h.owns hlt hw).sequence
    · exact .inr ⟨hlt, hseq⟩
  · exact .inl (h.free n (by omega) hn')

/-- A position that is published is not being written. -/
theorem owns_ne_published (h : s.Tracks claimed pushed popped) {i : I} {item : T} {m n : Nat} (hn : n < claimed.length)
    (hseq : (s.cell (UInt64.ofNat n)).sequence = UInt64.ofNat (n + 1))
    (howns : Owns s.ring.cells claimed popped.length i (pushed i) item m) : m ≠ n := by
  rintro rfl
  have hbound := h.bound
  have heq : UInt64.ofNat m = UInt64.ofNat (m + 1) := howns.sequence.symm.trans hseq
  have := ofNat_inj_of_lt (by omega) (by omega) heq
  omega

/-- Past its check, the consumer is at a published position. -/
theorem published (h : s.Tracks claimed pushed popped) (hpop : s.pop ≠ .idle) :
    popped.length < claimed.length ∧
      (s.cell (UInt64.ofNat popped.length)).sequence = UInt64.ofNat (popped.length + 1) := by
  have hat := h.pop
  cases hpc : s.pop with
  | idle => exact absurd hpc hpop
  | readData =>
    rw [hpc] at hat
    exact hat
  | storeSequence out =>
    rw [hpc] at hat
    exact hat.1

/-- If the cell of a position says less than the position, the position one lap earlier is not released. -/
theorem not_released (h : s.Tracks claimed pushed popped) {n : Nat}
    (hlt : (s.cell (UInt64.ofNat n)).sequence.toNat < n) : popped.length + c.value ≤ n := by
  refine Decidable.byContradiction fun hlap => ?_
  -- the position of this lap that has the same cell
  obtain ⟨m, hm, hm', hmod⟩ := exists_mod_eq c.value_pos popped.length n
  have hle : n ≤ m := by
    refine Decidable.byContradiction fun hgt => ?_
    exact mod_ne_of_lt (by omega) (by omega) hmod
  have hslot : c.slot (UInt64.ofNat n) = c.slot (UInt64.ofNat m) := by
    apply Fin.ext
    rw [c.slot_val, c.slot_val, hmod]
  have hcell : s.cell (UInt64.ofNat n) = s.cell (UInt64.ofNat m) := congrArg s.ring.cells hslot
  have hbound := h.bound
  have hpopped := h.popped_le
  have hcap := c.value_le
  have hm64 : m < 2 ^ 64 := by omega
  rw [hcell] at hlt
  rcases h.sequence hm hm' with hseq | ⟨hclaimed, hseq⟩
  · rw [hseq, UInt64.toNat_ofNat_of_lt' hm64] at hlt
    omega
  · rw [hseq, h.toNat_pos hclaimed] at hlt
    omega

/-- A cell that waits for the next position to be claimed has been released. -/
theorem room_of_sequence (h : s.Tracks claimed pushed popped)
    (hseq : (s.cell (UInt64.ofNat claimed.length)).sequence = UInt64.ofNat claimed.length) :
    claimed.length < popped.length + c.value := by
  refine Decidable.byContradiction fun hlap => ?_
  have hroom := h.room
  have hcap := c.one_lt_value
  have hlt := c.value_lt
  have hslot : c.slot (UInt64.ofNat claimed.length) = c.slot (UInt64.ofNat popped.length) := by
    apply Fin.ext
    rw [c.slot_val, c.slot_val, show claimed.length = popped.length + c.value by omega, Nat.add_mod_right]
  have hcell : s.cell (UInt64.ofNat claimed.length) = s.cell (UInt64.ofNat popped.length) :=
    congrArg s.ring.cells hslot
  rw [hcell] at hseq
  rcases h.sequence (Nat.le_refl _) (by omega) with hsame | ⟨_, hnext⟩
  · have := (ofNat_eq_ofNat_iff (by omega) (by omega)).1 (hsame.symm.trans hseq)
    omega
  · -- here the capacity has to be greater than 1
    have := (ofNat_eq_ofNat_iff (by omega) (by omega)).1 (hnext.symm.trans hseq)
    omega

/-! ### Steps of the producers -/

/-- The producers other than the one whose turn it is are where they were. -/
theorem at_update {cells : Fin c.value → Cell T} {claimed' : List (Claim I T)} {pushed' : I → List T} {released : Nat}
    (i : I) (push : TryPush T) (hi : push.At cells claimed' released i (pushed' i))
    (hrest : ∀ j, j ≠ i → (s.push j).At cells claimed' released j (pushed' j)) (j : I) :
    (Function.update s.push i push j).At cells claimed' released j (pushed' j) := by
  by_cases hj : j = i
  · subst hj
    rw [Function.update_self]
    exact hi
  · rw [Function.update_of_ne hj]
    exact hrest j hj

/-- Going on within `try_push` touches nothing shared. -/
theorem goto (h : s.Tracks claimed pushed popped) {i : I} (push : TryPush T)
    (hw : push.writing = (s.push i).writing) (hat : push.At s.ring.cells claimed popped.length i (pushed i)) :
    (s.goto i push).Tracks claimed pushed popped := by
  refine { h with taken := ?_, push := at_update i push hat fun j _ => h.push j }
  intro n claim hn hclaim
  rcases h.taken n claim hn hclaim with hwriting | hpublished
  · left
    by_cases hi : claim.producer = i
    · rw [← hwriting, hi, goto_push_self, hw]
    · rw [← hwriting, goto_push_of_ne s hi]
  · exact .inr hpublished

/-- A successful compare-exchange. -/
theorem claim (h : s.Tracks claimed pushed popped) {i : I} {item : T} (hw : (s.push i).writing = none)
    (hbound : claimed.length + 1 ≤ 2 ^ 63) (hroom : claimed.length < popped.length + c.value) :
    (({ s with ring := { s.ring with enqueuePos := UInt64.ofNat claimed.length + 1 } } : Threads c I T).goto i
      (.writeData item (UInt64.ofNat claimed.length))).Tracks
      (claimed ++ [⟨i, item, UInt64.ofNat claimed.length⟩]) pushed popped := by
  have hlen : (claimed ++ [(⟨i, item, UInt64.ofNat claimed.length⟩ : Claim I T)]).length = claimed.length + 1 := by
    simp
  have hown : Owns s.ring.cells (claimed ++ [⟨i, item, UInt64.ofNat claimed.length⟩]) popped.length i (pushed i) item
      claimed.length :=
    { le := h.popped_le
      claim := by simp
      items := by rw [itemsOf_append, itemsOf_self, (h.push i).items hw]
      sequence := h.free _ (Nat.le_refl _) hroom }
  refine
    { h with
      enqueuePos := by rw [hlen]; exact ofNat_add_one _
      bound := by omega
      room := by omega
      numbered := by rw [hlen, List.range_succ, List.map_append, List.map_append, h.numbered]; rfl
      fifo := h.fifo.trans (by rw [List.map_append]; exact List.prefix_append ..)
      free := fun n hn => h.free n (by omega)
      taken := ?_
      push := at_update i _ ⟨_, rfl, hown⟩ fun j hj => (h.push j).append (Ne.symm hj)
      pop := h.pop.append _ }
  intro n claim hn hclaim
  by_cases hlast : n = claimed.length
  · subst hlast
    left
    have heq : claim = ⟨i, item, UInt64.ofNat claimed.length⟩ := by simpa using hclaim.symm
    subst heq
    rw [goto_push_self]
    rfl
  · have hlt : n < claimed.length := by
      have := (List.getElem?_eq_some_iff.1 hclaim).1
      omega
    rw [List.getElem?_append_left hlt] at hclaim
    rcases h.taken n claim hn hclaim with hwriting | hpublished
    · left
      have hi : claim.producer ≠ i := by
        intro hi
        rw [hi, hw] at hwriting
        cases hwriting
      rw [← hwriting, goto_push_of_ne _ hi]
    · exact .inr hpublished

/-- A producer changes the cell of the position it owns: it goes on writing it, or has published it. -/
theorem write (h : s.Tracks claimed pushed popped) {i : I} {item : T} {n : Nat}
    (hcur : (s.push i).writing = some (item, UInt64.ofNat n))
    (howns : Owns s.ring.cells claimed popped.length i (pushed i) item n) {pushed' : I → List T}
    (hpushed : ∀ j, j ≠ i → pushed' j = pushed j) {cell : Cell T} {push : TryPush T}
    (hat : push.At (Function.update s.ring.cells (c.slot (UInt64.ofNat n)) cell) claimed popped.length i (pushed' i))
    (hwrite : push.writing = some (item, UInt64.ofNat n) ∨
      cell.sequence = UInt64.ofNat (n + 1) ∧ cell.data = item) :
    ((s.setCell (UInt64.ofNat n) cell).goto i push).Tracks claimed pushed' popped := by
  have hlt := howns.lt
  have hle := howns.le
  have hroom := h.room
  have hcell : ∀ m, popped.length ≤ m → m < popped.length + c.value → m ≠ n →
      (s.setCell (UInt64.ofNat n) cell).cell (UInt64.ofNat m) = s.cell (UInt64.ofNat m) := by
    intro m hm hm' hne
    exact Function.update_of_ne (c.slot_ne_of_ne hm hm' hle (by omega) hne) ..
  refine
    { h with
      free := ?_
      taken := ?_
      push := at_update i push hat ?_
      pop := h.pop.update ?_ }
  · intro m hm hm'
    exact (congrArg Cell.sequence (hcell m (by omega) hm' (by omega))).trans (h.free m hm hm')
  · intro m claim hm hclaim
    have hm' := (List.getElem?_eq_some_iff.1 hclaim).1
    by_cases hne : m = n
    · subst hne
      obtain rfl := Option.some.inj (howns.claim.symm.trans hclaim)
      rcases hwrite with hwriting | hpublished
      · left
        rw [goto_push_self, hwriting]
      · right
        have hself : (s.setCell (UInt64.ofNat m) cell).cell (UInt64.ofNat m) = cell := Function.update_self ..
        exact ⟨(congrArg Cell.sequence hself).trans hpublished.1, (congrArg Cell.data hself).trans hpublished.2⟩
    · have hsame := hcell m hm (by omega) hne
      rcases h.taken m claim hm hclaim with hwriting | hpublished
      · left
        rw [← hwriting, goto_push_of_ne _ (h.writer_ne hcur hwriting hlt hm' hne)]
        rfl
      · right
        exact ⟨(congrArg Cell.sequence hsame).trans hpublished.1, (congrArg Cell.data hsame).trans hpublished.2⟩
  · intro j hj
    rw [hpushed j hj]
    refine (h.push j).update (Nat.le_refl _) ?_ cell
    intro other m hother
    have hm := hother.lt
    exact ⟨hother.le, c.slot_ne_of_ne hother.le (by omega) hle (by omega) (hother.ne howns hj)⟩
  · intro hpop
    right
    obtain ⟨hpopped, hseq⟩ := h.published hpop
    have hne := h.owns_ne_published hpopped hseq howns
    exact c.slot_ne_of_ne (Nat.le_refl _) (by omega) hle (by omega) hne.symm

/-- Loading `enqueue_pos_`. -/
theorem load (h : s.Tracks claimed pushed popped) {i : I} (hw : (s.push i).writing = none) (item : T) :
    (s.goto i (.loadSequence item s.ring.enqueuePos)).Tracks claimed pushed popped :=
  h.goto _ hw.symm ⟨(h.push i).items hw, claimed.length, Nat.le_refl _, h.enqueuePos⟩

theorem writeData (h : s.Tracks claimed pushed popped) {i : I} {item : T} {n : Nat}
    (hpc : s.push i = .writeData item (UInt64.ofNat n))
    (howns : Owns s.ring.cells claimed popped.length i (pushed i) item n) :
    ((s.setCell (UInt64.ofNat n) { s.cell (UInt64.ofNat n) with data := item }).goto i
      (.storeSequence item (UInt64.ofNat n))).Tracks claimed pushed popped := by
  refine h.write (by rw [hpc]; rfl) howns (fun _ _ => rfl) ⟨n, rfl, ?_, ?_⟩ (.inl rfl)
  · exact { howns with sequence := by rw [Function.update_self]; exact howns.sequence }
  · rw [Function.update_self]

theorem storeSequence (h : s.Tracks claimed pushed popped) {i : I} {item : T} {n : Nat}
    (hpc : s.push i = .storeSequence item (UInt64.ofNat n))
    (howns : Owns s.ring.cells claimed popped.length i (pushed i) item n)
    (hdata : (s.cell (UInt64.ofNat n)).data = item) :
    ((s.setCell (UInt64.ofNat n) { s.cell (UInt64.ofNat n) with sequence := UInt64.ofNat n + 1 }).goto i .idle).Tracks
      claimed (fun j => pushed j ++ pushedBy j (some (.pushed i item))) popped := by
  refine h.write (by rw [hpc]; rfl) howns ?_ ?_ (.inr ⟨ofNat_add_one n, hdata⟩)
  · intro j hj
    simp [Ne.symm hj]
  · show itemsOf i claimed = _
    rw [howns.items]
    simp

/-- A step of a producer. -/
theorem stepProducer (h : s.Tracks claimed pushed popped) {i : I} {item : T} {spurious : Bool}
    {out : Option (Event I T)} {s' : Threads c I T} (hstep : s.stepProducer i item spurious = (out, s'))
    (hbound : (claimed ++ claimedBy out).length ≤ 2 ^ 63) :
    s'.Tracks (claimed ++ claimedBy out) (fun j => pushed j ++ pushedBy j out) (popped ++ poppedBy out) := by
  have hat := h.push i
  unfold Threads.stepProducer at hstep
  cases hpc : s.push i with
  | idle =>
    rw [hpc] at hstep
    cases hstep
    simpa using h.load (by rw [hpc]; rfl) item
  | loadSequence item pos =>
    rw [hpc] at hstep hat
    obtain ⟨hitems, n, hn, rfl⟩ := hat
    dsimp only at hstep
    split at hstep
    · rename_i hdiff
      cases hstep
      rw [toInt64_sub_eq_zero_iff] at hdiff
      have hroom : n = claimed.length → claimed.length < popped.length + c.value := by
        rintro rfl
        exact h.room_of_sequence hdiff
      simpa using h.goto (.compareExchange item _) (by rw [hpc]; rfl) ⟨hitems, n, hn, rfl, hroom⟩
    · split at hstep
      · cases hstep
        simpa using h.goto .idle (by rw [hpc]; rfl) hitems
      · cases hstep
        simpa using h.goto (.loadPos item) (by rw [hpc]; rfl) hitems
  | loadPos item =>
    rw [hpc] at hstep
    cases hstep
    simpa using h.load (by rw [hpc]; rfl) item
  | compareExchange item pos =>
    rw [hpc] at hstep hat
    obtain ⟨_, n, hn, rfl, hroom⟩ := hat
    dsimp only at hstep
    split at hstep
    · rename_i hsuccess
      cases hstep
      have hle := h.bound
      have heq := hsuccess.1
      rw [h.enqueuePos] at heq
      obtain rfl := ofNat_inj_of_lt (by omega) (by omega) heq
      have hlast : claimed.length + 1 ≤ 2 ^ 63 := by simpa using hbound
      simpa using h.claim (by rw [hpc]; rfl) hlast (hroom rfl)
    · cases hstep
      simpa using h.load (by rw [hpc]; rfl) item
  | writeData item pos =>
    rw [hpc] at hstep hat
    obtain ⟨n, rfl, howns⟩ := hat
    cases hstep
    simpa using h.writeData hpc howns
  | storeSequence item pos =>
    rw [hpc] at hstep hat
    obtain ⟨n, rfl, howns, hdata⟩ := hat
    cases hstep
    simpa using h.storeSequence hpc howns hdata

/-- `try_push` returns false at the load of a cell's sequence, and the position it wants is a lap ahead of those that
are released. -/
theorem full (h : s.Tracks claimed pushed popped) {i : I} {item : T} {spurious : Bool}
    (hfull : (s.stepProducer i item spurious).1 = some (.full i)) :
    ∃ item' pos, s.push i = .loadSequence item' pos ∧
      (pos.toNat < 2 ^ 63 → (s.cell pos).sequence.toNat < 2 ^ 63 → popped.length + c.value ≤ pos.toNat) := by
  have hat := h.push i
  unfold Threads.stepProducer at hfull
  cases hpc : s.push i with
  | loadSequence item' pos =>
    rw [hpc] at hfull hat
    refine ⟨item', pos, rfl, ?_⟩
    intro hpos hseq
    obtain ⟨_, n, hn, rfl⟩ := hat
    dsimp only at hfull
    split at hfull
    · cases hfull
    · split at hfull
      · rename_i hdiff
        rw [toInt64_sub_neg_iff hseq hpos, h.toNat_pos hn] at hdiff
        rw [h.toNat_pos hn]
        exact h.not_released hdiff
      · cases hfull
  | compareExchange item' pos =>
    rw [hpc] at hfull
    dsimp only at hfull
    split at hfull <;> cases hfull
  | _ =>
    rw [hpc] at hfull
    cases hfull

/-! ### Steps of the consumer -/

theorem goto_pop (h : s.Tracks claimed pushed popped) (pop : TryPop T)
    (hpop : pop.At s.ring.cells claimed popped.length) :
    ({ s with pop := pop } : Threads c I T).Tracks claimed pushed popped :=
  { h with pop := hpop }

/-- A cell that shows the next position as published shows a claimed one. -/
theorem claimed_of_sequence (h : s.Tracks claimed pushed popped)
    (hseq : (s.cell (UInt64.ofNat popped.length)).sequence = UInt64.ofNat (popped.length + 1)) :
    popped.length < claimed.length := by
  have hbound := h.bound
  have hle := h.popped_le
  have hcap := c.value_pos
  rcases h.sequence (Nat.le_refl _) (by omega) with hsame | ⟨hlt, _⟩
  · have := ofNat_inj_of_lt (by omega) (by omega) (hsame.symm.trans hseq)
    omega
  · exact hlt

/-- What the consumer reads at a published position. -/
theorem data (h : s.Tracks claimed pushed popped) (hlt : popped.length < claimed.length)
    (hseq : (s.cell (UInt64.ofNat popped.length)).sequence = UInt64.ofNat (popped.length + 1)) :
    (claimed.map Claim.item)[popped.length]? = some (s.cell (UInt64.ofNat popped.length)).data := by
  rcases h.taken _ _ (Nat.le_refl _) (List.getElem?_eq_getElem hlt) with hwriting | ⟨_, hdata⟩
  · exact absurd rfl (h.owns_ne_published hlt hseq (h.owns hlt hwriting))
  · rw [List.getElem?_map, List.getElem?_eq_getElem hlt, hdata]
    rfl

/-- Storing the sequence hands the cell to the producer of the next lap. -/
theorem release (h : s.Tracks claimed pushed popped) {out : T} (hlt : popped.length < claimed.length)
    (hseq : (s.cell (UInt64.ofNat popped.length)).sequence = UInt64.ofNat (popped.length + 1))
    (hout : (claimed.map Claim.item)[popped.length]? = some out) {cell : Cell T}
    (hcell : cell.sequence = UInt64.ofNat (popped.length + c.value)) :
    ({ s with
        ring := { s.ring with
          cells := Function.update s.ring.cells (c.slot (UInt64.ofNat popped.length)) cell
          dequeuePos := UInt64.ofNat popped.length + 1 }
        pop := .idle } : Threads c I T).Tracks claimed pushed (popped ++ [out]) := by
  have hlen : (popped ++ [out]).length = popped.length + 1 := by simp
  have hroom := h.room
  have hcap := c.value_pos
  refine
    { h with
      dequeuePos := by rw [hlen]; exact ofNat_add_one _
      room := by omega
      fifo := concat_prefix h.fifo hout
      free := ?_
      taken := ?_
      push := ?_
      pop := trivial }
  · intro n hn hn'
    by_cases hlap : n = popped.length + c.value
    · have hslot : c.slot (UInt64.ofNat n) = c.slot (UInt64.ofNat popped.length) := by
        apply Fin.ext
        rw [c.slot_val, c.slot_val, hlap, Nat.add_mod_right]
      unfold Threads.cell
      dsimp only
      rw [hslot, Function.update_self, hcell, hlap]
    · unfold Threads.cell
      dsimp only
      rw [Function.update_of_ne (c.slot_ne (by omega) (by omega)).symm]
      exact h.free n hn (by omega)
  · intro n claim hn hclaim
    have hn' := (List.getElem?_eq_some_iff.1 hclaim).1
    unfold Threads.cell
    dsimp only
    rw [Function.update_of_ne (c.slot_ne (by omega) (by omega)).symm]
    exact h.taken n claim (by omega) hclaim
  · intro i
    rw [hlen]
    refine (h.push i).update (Nat.le_succ _) ?_ cell
    intro item n howns
    have hn := howns.lt
    have hle := howns.le
    have hne := h.owns_ne_published hlt hseq howns
    exact ⟨by omega, (c.slot_ne (by omega) (by omega)).symm⟩

/-- A step of the consumer. -/
theorem stepConsumer (h : s.Tracks claimed pushed popped) {out : Option (Event I T)} {s' : Threads c I T}
    (hstep : s.stepConsumer = (out, s')) :
    s'.Tracks (claimed ++ claimedBy out) (fun j => pushed j ++ pushedBy j out) (popped ++ poppedBy out) := by
  have hat := h.pop
  unfold Threads.stepConsumer at hstep
  rw [h.dequeuePos] at hstep
  cases hpc : s.pop with
  | idle =>
    rw [hpc] at hstep
    dsimp only at hstep
    split at hstep
    · cases hstep
      simpa using h
    · rename_i hdiff
      cases hstep
      rw [not_not, toInt64_sub_eq_zero_iff, ofNat_add_one] at hdiff
      simpa using h.goto_pop .readData ⟨h.claimed_of_sequence hdiff, hdiff⟩
  | readData =>
    rw [hpc] at hstep hat
    cases hstep
    simpa using h.goto_pop (.storeSequence _) ⟨hat, h.data hat.1 hat.2⟩
  | storeSequence item =>
    rw [hpc] at hstep hat
    obtain ⟨⟨hlt, hseq⟩, hout⟩ := hat
    cases hstep
    simpa [setCell] using h.release hlt hseq hout (UInt64.ofNat_add ..).symm

/-- `try_pop` returns false only if the next position is not claimed or still being written. -/
theorem empty (h : s.Tracks claimed pushed popped) (hempty : s.stepConsumer.1 = some .empty) {claim : Claim I T}
    (hclaim : claimed[popped.length]? = some claim) :
    (s.push claim.producer).writing = some (claim.item, UInt64.ofNat popped.length) := by
  unfold Threads.stepConsumer at hempty
  rw [h.dequeuePos] at hempty
  cases hpc : s.pop with
  | idle =>
    rw [hpc] at hempty
    dsimp only at hempty
    split at hempty
    · rename_i hdiff
      rw [ne_eq, toInt64_sub_eq_zero_iff, ofNat_add_one] at hdiff
      rcases h.taken _ claim (Nat.le_refl _) hclaim with hwriting | ⟨hseq, _⟩
      · exact hwriting
      · exact absurd hseq hdiff
    · cases hempty
  | _ =>
    rw [hpc] at hempty
    cases hempty

/-! ### Every interleaving -/

theorem step (h : s.Tracks claimed pushed popped) {turn : Turn I T} {out : Option (Event I T)} {s' : Threads c I T}
    (hstep : s.step turn = some (out, s')) (hbound : (claimed ++ claimedBy out).length ≤ 2 ^ 63) :
    s'.Tracks (claimed ++ claimedBy out) (fun j => pushed j ++ pushedBy j out) (popped ++ poppedBy out) := by
  cases turn with
  | producer i item spurious => exact h.stepProducer (Option.some.inj hstep) hbound
  | consumer => exact h.stepConsumer (Option.some.inj hstep)

/-- What has been popped of a producer's items comes first among its completed calls. -/
theorem order (h : s.Tracks claimed pushed popped) (i : I) : itemsOf i (claimed.take popped.length) <+: pushed i := by
  have hfirst : ∀ n, itemsOf i (claimed.take n) <+: itemsOf i claimed :=
    fun n => ((List.take_prefix n claimed).filter _).map _
  cases hw : (s.push i).writing with
  | none =>
    rw [← (h.push i).items hw]
    exact hfirst popped.length
  | some p =>
    obtain ⟨n, _, howns⟩ := (h.push i).owns hw
    have hitems : pushed i <+: itemsOf i claimed := by
      rw [howns.items]
      exact List.prefix_append ..
    refine List.prefix_of_prefix_length_le (hfirst _) hitems ?_
    -- the item that is being written is the last of the producer's, and it is not popped
    have htake : itemsOf i (claimed.take (n + 1)) = itemsOf i (claimed.take n) ++ [p.1] := by
      rw [List.take_add_one, howns.claim, itemsOf_append]
      exact congrArg _ (itemsOf_self ..)
    have hpopped : itemsOf i (claimed.take popped.length) <+: itemsOf i (claimed.take n) :=
      ((List.take_prefix_take_left howns.le).filter _).map _
    have hle := hpopped.length_le
    have hall := (hfirst (n + 1)).length_le
    rw [htake, howns.items, List.length_append, List.length_append] at hall
    omega

/-- A producer that writes is less than a lap ahead of the released positions, so what was in its cell has been read. -/
theorem writing_lt (h : s.Tracks claimed pushed popped) {i : I} {item : T} {pos : UInt64}
    (hw : (s.push i).writing = some (item, pos)) : pos.toNat < popped.length + c.value := by
  obtain ⟨n, rfl, howns⟩ := (h.push i).owns hw
  have hlt := howns.lt
  have hroom := h.room
  rw [h.toNat_pos hlt.le]
  omega

/-- Two producers that write do not write the same cell. -/
theorem writing_ne (h : s.Tracks claimed pushed popped) {i j : I} (hij : i ≠ j) {x y : T} {p q : UInt64}
    (hi : (s.push i).writing = some (x, p)) (hj : (s.push j).writing = some (y, q)) : c.slot p ≠ c.slot q := by
  obtain ⟨m, rfl, hm⟩ := (h.push i).owns hi
  obtain ⟨n, rfl, hn⟩ := (h.push j).owns hj
  have hmlt := hm.lt
  have hnlt := hn.lt
  have hroom := h.room
  exact c.slot_ne_of_ne hm.le (by omega) hn.le (by omega) (hm.ne hn hij)

/-- The consumer, past its check, is not at a cell that is being written. -/
theorem writing_ne_reading (h : s.Tracks claimed pushed popped) {i : I} {item : T} {pos : UInt64}
    (hw : (s.push i).writing = some (item, pos)) (hpop : s.pop ≠ .idle) :
    c.slot pos ≠ c.slot s.ring.dequeuePos := by
  obtain ⟨n, rfl, howns⟩ := (h.push i).owns hw
  obtain ⟨hlt, hseq⟩ := h.published hpop
  have hn := howns.lt
  have hroom := h.room
  rw [h.dequeuePos]
  exact c.slot_ne_of_ne howns.le (by omega) (Nat.le_refl _) (by omega) (h.owns_ne_published hlt hseq howns)

end Threads.Tracks

/-- The claims of a run, in the order of the compare-exchanges. -/
def claims (outs : List (Option (Event I T))) : List (Claim I T) := outs.flatMap claimedBy

/-- The items of the calls of `try_push` by producer `i` that returned true, in order. -/
def pushes (i : I) (outs : List (Option (Event I T))) : List T := outs.flatMap (pushedBy i)

/-- The items returned by the successful pops, in order. -/
def pops (outs : List (Option (Event I T))) : List T := outs.flatMap poppedBy

theorem tracks_new (c : Capacity) (init : T) : (Threads.new c I init).Tracks [] (fun _ => []) [] where
  enqueuePos := rfl
  dequeuePos := rfl
  bound := Nat.zero_le _
  room := Nat.zero_le _
  numbered := rfl
  fifo := List.nil_prefix
  free := by
    intro n _ hn
    have hlt : n < c.value := by simpa using hn
    show UInt64.ofNat (c.slot (UInt64.ofNat n)).val = UInt64.ofNat n
    rw [c.slot_val, Nat.mod_eq_of_lt hlt]
  taken := by
    intro n claim _ hclaim
    cases hclaim
  push := fun _ => rfl
  pop := trivial

/-- As long as the positions stay below 2^63, every interleaving keeps the invariant. -/
theorem tracks_run (c : Capacity) (init : T) (turns : List (Turn I T)) :
    ∃ outs s, runAll Threads.step (Threads.new c I init) turns = some (outs, s) ∧
      ((claims outs).length ≤ 2 ^ 63 → s.Tracks (claims outs) (fun i => pushes i outs) (pops outs)) := by
  have hstep : ∀ (_ : List (Turn I T)) (outs : List (Option (Event I T))) (s : Threads c I T) (turn : Turn I T),
      ((claims outs).length ≤ 2 ^ 63 → s.Tracks (claims outs) (fun i => pushes i outs) (pops outs)) →
      ∃ out s', s.step turn = some (out, s') ∧
        ((claims (outs ++ [out])).length ≤ 2 ^ 63 →
          s'.Tracks (claims (outs ++ [out])) (fun i => pushes i (outs ++ [out])) (pops (outs ++ [out]))) := by
    intro _ outs s turn h
    have htotal : ∃ out s', s.step turn = some (out, s') := by
      cases turn with
      | producer => exact ⟨_, _, rfl⟩
      | consumer => exact ⟨_, _, rfl⟩
    obtain ⟨out, s', hstep⟩ := htotal
    refine ⟨out, s', hstep, ?_⟩
    intro hbound
    have hclaims : claims (outs ++ [out]) = claims outs ++ claimedBy out := by simp [claims]
    rw [hclaims] at hbound ⊢
    have hbefore : (claims outs).length ≤ 2 ^ 63 := by
      rw [List.length_append] at hbound
      omega
    simpa [pushes, pops] using (h hbefore).step hstep hbound
  exact runAll_history
    (fun _ outs (s : Threads c I T) =>
      (claims outs).length ≤ 2 ^ 63 → s.Tracks (claims outs) (fun i => pushes i outs) (pops outs)) hstep turns _
    fun _ => tracks_new c init

/-- The ring buffer delivers every message exactly once.  After any turns of the threads, with positions below 2^63:
the positions claimed are 0, 1, 2, ..., each once; what has been popped is the items of the first claims, in order; of
one producer's items, what has been popped is the items of its first completed calls, in order; a producer that has a
position to write is less than `Capacity` ahead of the positions released, and is at a cell where no other producer
writes and the consumer does not read; if the next step of a producer returns false, then it loads the sequence of a
cell, and if that is below 2^63 too, the item `Capacity` positions before the one it wants is not released; and if the
next step of the consumer returns false, then the next position is not claimed or its producer has not published it. -/
theorem delivers_exactly_once (c : Capacity) (init : T) (turns : List (Turn I T)) :
    ∃ outs s, runAll Threads.step (Threads.new c I init) turns = some (outs, s) ∧
      ((claims outs).length ≤ 2 ^ 63 →
        (claims outs).map Claim.pos = (List.range (claims outs).length).map UInt64.ofNat ∧
        pops outs <+: (claims outs).map Claim.item ∧
        (∀ i, itemsOf i ((claims outs).take (pops outs).length) <+: pushes i outs) ∧
        (∀ i item pos, (s.push i).writing = some (item, pos) →
          pos.toNat < (pops outs).length + c.value ∧
          (∀ j item' pos', j ≠ i → (s.push j).writing = some (item', pos') → c.slot pos' ≠ c.slot pos) ∧
          (s.pop ≠ .idle → c.slot pos ≠ c.slot s.ring.dequeuePos)) ∧
        (∀ i item spurious, (s.stepProducer i item spurious).1 = some (.full i) →
          ∃ item' pos, s.push i = .loadSequence item' pos ∧
            (pos.toNat < 2 ^ 63 → (s.cell pos).sequence.toNat < 2 ^ 63 →
              (pops outs).length + c.value ≤ pos.toNat)) ∧
        (s.stepConsumer.1 = some .empty → ∀ claim, (claims outs)[(pops outs).length]? = some claim →
          (s.push claim.producer).writing = some (claim.item, UInt64.ofNat (pops outs).length))) := by
  obtain ⟨outs, s, hrun, htracks⟩ := tracks_run c init turns
  refine ⟨outs, s, hrun, ?_⟩
  intro hbound
  have h := htracks hbound
  refine ⟨h.numbered, h.fifo, h.order, ?_, ?_, ?_⟩
  · intro i item pos hw
    refine ⟨h.writing_lt hw, ?_, h.writing_ne_reading hw⟩
    intro j item' pos' hj hw'
    exact h.writing_ne hj hw' hw
  · intro i item spurious hfull
    exact h.full hfull
  · intro hempty claim hclaim
    exact h.empty hempty hclaim

-- producer `true` claims position 0; the other one loses that race, and its next compare-exchange fails spuriously
example :
    (runAll Threads.step (Threads.new ⟨1, by decide, by decide⟩ Bool (0 : Nat))
      [.producer false 7 false, .producer true 8 false, .producer false 7 false, .producer true 8 false,
       .producer true 8 false, .producer false 7 false, .producer false 7 false, .producer false 7 true,
       .producer true 8 false, .producer true 8 false, .consumer, .consumer, .consumer]).map
      (fun p => (pops p.1, (claims p.1).map Claim.item)) = some ([8], [8]) := by
  decide +kernel

/-! ### A stalled producer -/

/-- Between two calls of everybody but the producer `true`, which has loaded position 0 long ago: `n` positions have
been claimed, and all of them released. -/
structure Threads.Stalled (s : Threads c Bool T) (item : T) (n : Nat) : Prop where
  enqueuePos : s.ring.enqueuePos = UInt64.ofNat n
  dequeuePos : s.ring.dequeuePos = UInt64.ofNat n
  free : ∀ m, n ≤ m → m < n + c.value → (s.cell (UInt64.ofNat m)).sequence = UInt64.ofNat m
  stalled : s.push true = .loadSequence item 0
  idle : s.push false = .idle
  pop : s.pop = .idle

/-- The producer `false` pushes an item, and the consumer pops it. -/
def passItem (item : T) : List (Turn Bool T) :=
  List.replicate 5 (.producer false item false) ++ List.replicate 3 .consumer

theorem Threads.Stalled.passItem {s : Threads c Bool T} {x : T} {n : Nat} (h : s.Stalled x n) (item : T) :
    ∃ outs s', runAll Threads.step s (passItem item) = some (outs, s') ∧ s'.Stalled x (n + 1) ∧
      claims outs = [⟨false, item, UInt64.ofNat n⟩] ∧ pops outs = [item] := by
  have hcap := c.value_pos
  obtain ⟨⟨cells, enqueuePos, dequeuePos⟩, push, pop⟩ := s
  obtain ⟨henqueue, hdequeue, hfree, hstalled, hidle, hpop⟩ := h
  dsimp only at henqueue hdequeue hstalled hidle hpop
  subst henqueue hdequeue hpop
  have hseq : (cells (c.slot (UInt64.ofNat n))).sequence = UInt64.ofNat n := hfree n (Nat.le_refl n) (by omega)
  refine ⟨[none, none, some (.claimed ⟨false, item, UInt64.ofNat n⟩), none, some (.pushed false item), none, none,
    some (.popped item)], ?state, ?hrun, ?_, rfl, rfl⟩
  case hrun =>
    simp [MPSCRingBuffer.passItem, runAll, Threads.step, Threads.stepProducer, Threads.stepConsumer, Threads.goto,
      Threads.cell, Threads.setCell, hidle, hseq]
    rfl
  · refine ⟨(UInt64.ofNat_add ..).symm, (UInt64.ofNat_add ..).symm, ?_, ?_, ?_, rfl⟩
    · intro m hm hm'
      simp only [Threads.cell]
      by_cases hlap : m = n + c.value
      · have hslot : c.slot (UInt64.ofNat m) = c.slot (UInt64.ofNat n) := by
          apply Fin.ext
          rw [c.slot_val, c.slot_val, hlap, Nat.add_mod_right]
        rw [hslot, Function.update_self, hlap]
        exact (UInt64.ofNat_add ..).symm
      · rw [Function.update_of_ne (c.slot_ne (by omega) (by omega)).symm]
        exact hfree m (by omega) (by omega)
    · simp [hstalled]
    · simp

theorem Threads.Stalled.passItems {s : Threads c Bool T} {x : T} {n : Nat} (h : s.Stalled x n) (item : T) (k : Nat) :
    ∃ outs s', runAll Threads.step s (List.replicate k (MPSCRingBuffer.passItem item)).flatten = some (outs, s') ∧
      s'.Stalled x (n + k) ∧ (claims outs).length = k ∧ (pops outs).length = k := by
  induction k generalizing s n with
  | zero => exact ⟨[], s, rfl, h, rfl, rfl⟩
  | succ k ih =>
    obtain ⟨outs, s₁, hrun, h₁, hclaims, hpops⟩ := h.passItem item
    obtain ⟨outs', s', hrun', h', hclaims', hpops'⟩ := ih h₁
    refine ⟨outs ++ outs', s', ?_, ?_, ?_, ?_⟩
    · rw [List.replicate_succ, List.flatten_cons]
      exact runAll_append hrun hrun'
    · rw [show n + (k + 1) = n + 1 + k by omega]
      exact h'
    · simp only [claims, List.flatMap_append, List.length_append] at hclaims hclaims' ⊢
      rw [hclaims, hclaims', List.length_singleton, Nat.add_comm]
    · simp only [pops, List.flatMap_append, List.length_append] at hpops hpops' ⊢
      rw [hpops, hpops', List.length_singleton, Nat.add_comm]

theorem Threads.stalled_new (c : Capacity) (init item : T) :
    ∃ s', runAll Threads.step (Threads.new c Bool init) [.producer true item false] = some ([none], s') ∧
      s'.Stalled item 0 := by
  refine ⟨_, rfl, rfl, rfl, ?_, rfl, rfl, rfl⟩
  intro m _ hm
  have hlt : m < c.value := by omega
  show UInt64.ofNat (c.slot (UInt64.ofNat m)).val = UInt64.ofNat m
  rw [c.slot_val, Nat.mod_eq_of_lt hlt]

/-- A producer has loaded position 0 and stalls until 2^63 - 1 items have gone through a buffer of capacity 2.  All
positions are below 2^63 and the buffer is empty, but the sequence of its cell has come to 2^63, which is negative as
an `int64_t`: the call returns false. -/
theorem stalled_push_fails :
    ∃ (turns : List (Turn Bool Nat)) (outs : List (Option (Event Bool Nat)))
      (s : Threads { log := 1, pos := by decide, lt := by decide } Bool Nat),
      runAll Threads.step (Threads.new _ Bool 0) turns = some (outs, s) ∧
      (claims outs).length + 1 = 2 ^ 63 ∧ (pops outs).length = (claims outs).length ∧
      s.push true = .loadSequence 7 0 ∧ (s.cell 0).sequence = UInt64.ofNat (2 ^ 63) ∧
      (s.stepProducer true 7 false).1 = some (.full true) ∧
      ¬ (pops outs).length + 2 ≤ (0 : UInt64).toNat := by
  obtain ⟨n, hn⟩ : ∃ n : Nat, n + 1 = 2 ^ 63 := ⟨2 ^ 63 - 1, by omega⟩
  obtain ⟨s₁, hrun₁, h₁⟩ := Threads.stalled_new { log := 1, pos := by decide, lt := by decide } 0 7
  obtain ⟨outs, s, hrun, h, hclaims, hpops⟩ := h₁.passItems 8 n
  -- the cell of position 2^63 is the cell of position 0
  have hslot : s.cell 0 = s.cell (UInt64.ofNat (n + 1)) := by
    unfold Threads.cell
    congr 1
    apply Fin.ext
    rw [Capacity.slot_val, hn]
    rfl
  have hseq : (s.cell 0).sequence = UInt64.ofNat (2 ^ 63) := by
    rw [hslot, h.free (n + 1) (by omega) (by rw [Nat.zero_add]; exact Nat.lt_succ_self _), hn]
  refine ⟨_, _, s, runAll_append hrun₁ hrun, ?_, ?_, h.stalled, hseq, ?_, ?_⟩
  · rw [← hn]
    exact congrArg (· + 1) hclaims
  · exact hpops.trans hclaims.symm
  · unfold Threads.stepProducer
    rw [h.stalled]
    dsimp only
    rw [hseq]
    rfl
  · exact Nat.not_succ_le_zero _

end MPSCRingBuffer

end Exchange
