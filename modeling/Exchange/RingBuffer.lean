import Exchange.Lib.Loop
import Exchange.Lib.Wrapping
import Mathlib.Logic.Function.Basic

/-!
# The single-producer/single-consumer ring buffer

`SPSCRingBuffer` of `jane/concurrency/spsc_ring_buffer.hpp`, used by one producer and one consumer.  Each load and
store of an index that both threads see and each access to a slot is one step, and the steps of the two threads
interleave in any way.  The cached indices belong to one thread, so reading and writing them is part of the step they
come with.
-/

namespace Exchange

/-- A power of two greater than 1 that fits a 64-bit size. -/
structure Capacity where
  log : Nat
  pos : 0 < log
  lt : log < 64

namespace Capacity

def value (c : Capacity) : Nat := 2 ^ c.log

def kMask (c : Capacity) : UInt64 := UInt64.ofNat (c.value - 1)

theorem toNat_and_kMask (c : Capacity) (i : UInt64) : (i &&& c.kMask).toNat = i.toNat % c.value :=
  toNat_and_mask c.lt i

theorem value_pos (c : Capacity) : 0 < c.value := Nat.two_pow_pos c.log

theorem one_lt_value (c : Capacity) : 1 < c.value := Nat.one_lt_two_pow c.pos.ne'

theorem value_le (c : Capacity) : c.value ≤ 2 ^ 63 := Nat.pow_le_pow_right (by omega) (Nat.le_of_lt_succ c.lt)

theorem value_lt (c : Capacity) : c.value < 2 ^ 64 := Nat.pow_lt_pow_right (by omega) c.lt

/-- The slot of an index. -/
def slot (c : Capacity) (i : UInt64) : Fin c.value :=
  ⟨(i &&& c.kMask).toNat, by rw [c.toNat_and_kMask]; exact Nat.mod_lt _ c.value_pos⟩

theorem slot_val (c : Capacity) (n : Nat) : (c.slot (UInt64.ofNat n)).val = n % c.value := by
  unfold slot
  dsimp only
  rw [c.toNat_and_kMask, value, toNat_ofNat_mod c.lt]

/-- Counts less than a lap apart have different slots. -/
theorem slot_ne (c : Capacity) {m n : Nat} (h : m < n) (hlt : n < m + c.value) :
    c.slot (UInt64.ofNat m) ≠ c.slot (UInt64.ofNat n) := by
  intro heq
  have hval := congrArg Fin.val heq
  rw [c.slot_val, c.slot_val] at hval
  exact mod_ne_of_lt h hlt hval

/-- Two counts of one lap have different slots. -/
theorem slot_ne_of_ne (c : Capacity) {d m n : Nat} (hm : d ≤ m) (hm' : m < d + c.value) (hn : d ≤ n)
    (hn' : n < d + c.value) (hne : m ≠ n) : c.slot (UInt64.ofNat m) ≠ c.slot (UInt64.ofNat n) := by
  rcases Nat.lt_or_gt_of_ne hne with hlt | hgt
  · exact c.slot_ne hlt (by omega)
  · exact (c.slot_ne hgt (by omega)).symm

/-- The test of the producer, for counts at most a lap apart. -/
theorem full_iff (c : Capacity) {m n : Nat} (h : m ≤ n) (hle : n ≤ m + c.value) :
    UInt64.ofNat n - UInt64.ofNat m ≥ UInt64.ofNat c.value ↔ n = m + c.value := by
  have hlt := c.value_lt
  rw [ge_iff_le, UInt64.le_iff_toNat_le, toNat_ofNat_sub h (by omega), UInt64.toNat_ofNat_of_lt' hlt]
  omega

/-- The test of the consumer. -/
theorem empty_iff (c : Capacity) {m n : Nat} (h : m ≤ n) (hle : n ≤ m + c.value) :
    UInt64.ofNat m = UInt64.ofNat n ↔ m = n := by
  have hlt := c.value_lt
  exact ofNat_eq_ofNat_iff h (by omega)

end Capacity

/-! ### The two threads -/

structure ProducerState where
  head : UInt64 := 0
  tailCache : UInt64 := 0

structure ConsumerState where
  tail : UInt64 := 0
  headCache : UInt64 := 0

structure SPSCRingBuffer (c : Capacity) (T : Type) where
  buffer : Fin c.value → T
  producer : ProducerState := {}
  consumer : ConsumerState := {}

/-- How far a call of `try_push` has come: what the next step is, with the local variables. -/
inductive TryPush (T : Type) where
  | idle
  | loadTail (item : T) (head : UInt64)
  | writeSlot (item : T) (head : UInt64)
  | storeHead (item : T) (head : UInt64)

inductive TryPop (T : Type) where
  | idle
  | loadHead (tail : UInt64)
  | readSlot (tail : UInt64)
  | storeTail (tail : UInt64) (out : T)

structure Threads (c : Capacity) (T : Type) where
  ring : SPSCRingBuffer c T
  push : TryPush T := .idle
  pop : TryPop T := .idle

/-- What a call returns. -/
inductive Return (T : Type) where
  | pushed (item : T)
  | full
  | popped (out : T)
  | empty

/-- Whose turn it is.  A producer between two calls begins `try_push` with the item. -/
inductive Turn (T : Type) where
  | producer (item : T)
  | consumer

namespace Threads

variable {c : Capacity} {T : Type}

/-- Two threads on an empty buffer. -/
def new (c : Capacity) (init : T) : Threads c T := { ring := { buffer := fun _ => init } }

/-- By the producer's cached tail, the buffer is full. -/
def checkFull (s : Threads c T) (head : UInt64) : Bool :=
  decide (head - s.ring.producer.tailCache ≥ UInt64.ofNat c.value)

def stepProducer (s : Threads c T) (item : T) : Option (Return T) × Threads c T :=
  match s.push with
  | .idle =>
    let head := s.ring.producer.head
    if s.checkFull head then (none, { s with push := .loadTail item head })
    else (none, { s with push := .writeSlot item head })
  | .loadTail item head =>
    let producer := { s.ring.producer with tailCache := s.ring.consumer.tail }
    let s := { s with ring := { s.ring with producer := producer } }
    if s.checkFull head then (some .full, { s with push := .idle })
    else (none, { s with push := .writeSlot item head })
  | .writeSlot item head =>
    let buffer := Function.update s.ring.buffer (c.slot head) item
    (none, { s with ring := { s.ring with buffer := buffer }, push := .storeHead item head })
  | .storeHead item head =>
    let producer := { s.ring.producer with head := head + 1 }
    (some (.pushed item), { s with ring := { s.ring with producer := producer }, push := .idle })

def stepConsumer (s : Threads c T) : Option (Return T) × Threads c T :=
  match s.pop with
  | .idle =>
    let tail := s.ring.consumer.tail
    if tail = s.ring.consumer.headCache then (none, { s with pop := .loadHead tail })
    else (none, { s with pop := .readSlot tail })
  | .loadHead tail =>
    let consumer := { s.ring.consumer with headCache := s.ring.producer.head }
    let s := { s with ring := { s.ring with consumer := consumer } }
    if tail = s.ring.consumer.headCache then (some .empty, { s with pop := .idle })
    else (none, { s with pop := .readSlot tail })
  | .readSlot tail => (none, { s with pop := .storeTail tail (s.ring.buffer (c.slot tail)) })
  | .storeTail tail out =>
    let consumer := { s.ring.consumer with tail := tail + 1 }
    (some (.popped out), { s with ring := { s.ring with consumer := consumer }, pop := .idle })

def step (s : Threads c T) : Turn T → Option (Option (Return T) × Threads c T)
  | .producer item => some (s.stepProducer item)
  | .consumer => some s.stepConsumer

end Threads

/-! ### What a state tells about the calls so far -/

section Invariant

variable {c : Capacity} {T : Type}

/-- The value a step of the producer has published. -/
@[simp] def pushedBy : Option (Return T) → List T
  | some (.pushed item) => [item]
  | _ => []

/-- The value a step of the consumer has returned. -/
@[simp] def poppedBy : Option (Return T) → List T
  | some (.popped out) => [out]
  | _ => []

/-- The producer within a call, after `pushed` pushes, when its cache shows a tail of `seenTail`. -/
def TryPush.At (buffer : Fin c.value → T) (pushed seenTail : Nat) : TryPush T → Prop
  | .idle => True
  | .loadTail _ head => head = UInt64.ofNat pushed
  | .writeSlot _ head => head = UInt64.ofNat pushed ∧ pushed < seenTail + c.value
  | .storeHead item head =>
    head = UInt64.ofNat pushed ∧ pushed < seenTail + c.value ∧ buffer (c.slot head) = item

/-- The consumer within a call, after `popped` pops, when its cache shows a head of `seenHead`. -/
def TryPop.At (pushed : List T) (popped seenHead : Nat) : TryPop T → Prop
  | .idle => True
  | .loadHead tail => tail = UInt64.ofNat popped
  | .readSlot tail => tail = UInt64.ofNat popped ∧ popped < seenHead
  | .storeTail tail out => tail = UInt64.ofNat popped ∧ popped < seenHead ∧ pushed[popped]? = some out

/-- A prefix grows by the element that follows it. -/
theorem concat_prefix {xs ys : List T} {x : T} (h : xs <+: ys) (hx : ys[xs.length]? = some x) : xs ++ [x] <+: ys := by
  obtain ⟨rest, rfl⟩ := h
  cases rest with
  | nil => simp at hx
  | cons y rest =>
    have hy : y = x := by simpa using hx
    exact ⟨rest, by simp [hy]⟩

/-- More pushes do not disturb a pop. -/
theorem TryPop.At.append {pop : TryPop T} {pushed : List T} {popped seenHead : Nat} (h : pop.At pushed popped seenHead)
    (hseen : seenHead ≤ pushed.length) (item : T) : pop.At (pushed ++ [item]) popped seenHead := by
  cases pop with
  | idle => exact trivial
  | loadHead tail => exact h
  | readSlot tail => exact h
  | storeTail tail out =>
    obtain ⟨htail, hlt, hout⟩ := h
    exact ⟨htail, hlt, by rw [List.getElem?_append_left (by omega), hout]⟩

/-- The state after the values `pushed` have been pushed and the values `popped` have been popped.  The counts are
unbounded; the four indices show them modulo 2^64, and the caches lag behind the indices they copy. -/
structure Threads.Tracks (s : Threads c T) (pushed popped : List T) (seenTail seenHead : Nat) : Prop where
  head : s.ring.producer.head = UInt64.ofNat pushed.length
  tail : s.ring.consumer.tail = UInt64.ofNat popped.length
  tailCache : s.ring.producer.tailCache = UInt64.ofNat seenTail
  headCache : s.ring.consumer.headCache = UInt64.ofNat seenHead
  seenTail_le : seenTail ≤ popped.length
  le_seenHead : popped.length ≤ seenHead
  seenHead_le : seenHead ≤ pushed.length
  room : pushed.length ≤ seenTail + c.value
  fifo : popped <+: pushed
  slots : ∀ i, popped.length ≤ i → i < pushed.length → pushed[i]? = some (s.ring.buffer (c.slot (UInt64.ofNat i)))
  push : s.push.At s.ring.buffer pushed.length seenTail
  pop : s.pop.At pushed popped.length seenHead

namespace Threads.Tracks

variable {s : Threads c T} {pushed popped : List T} {seenTail seenHead : Nat}

theorem checkFull_iff (h : s.Tracks pushed popped seenTail seenHead) :
    s.checkFull (UInt64.ofNat pushed.length) = true ↔ pushed.length = seenTail + c.value := by
  have hle := h.seenTail_le.trans (h.le_seenHead.trans h.seenHead_le)
  rw [checkFull, decide_eq_true_iff, h.tailCache, c.full_iff hle h.room]

theorem headCache_iff (h : s.Tracks pushed popped seenTail seenHead) :
    UInt64.ofNat popped.length = s.ring.consumer.headCache ↔ popped.length = seenHead := by
  have hseen := h.seenTail_le
  have hle := h.seenHead_le
  have hroom := h.room
  rw [h.headCache, c.empty_iff h.le_seenHead (by omega)]

/-- Going on within `try_push` touches nothing shared. -/
theorem goto_push (h : s.Tracks pushed popped seenTail seenHead) (push : TryPush T)
    (hpush : push.At s.ring.buffer pushed.length seenTail) :
    ({ s with push := push } : Threads c T).Tracks pushed popped seenTail seenHead :=
  { h with push := hpush }

theorem goto_pop (h : s.Tracks pushed popped seenTail seenHead) (pop : TryPop T)
    (hpop : pop.At pushed popped.length seenHead) :
    ({ s with pop := pop } : Threads c T).Tracks pushed popped seenTail seenHead :=
  { h with pop := hpop }

/-- Loading the tail brings the producer's cache up to date. -/
theorem loadTail (h : s.Tracks pushed popped seenTail seenHead) :
    ({ s with
        ring := { s.ring with producer := { s.ring.producer with tailCache := s.ring.consumer.tail } }
        push := .idle } : Threads c T).Tracks pushed popped popped.length seenHead := by
  have hseen := h.seenTail_le
  have hroom := h.room
  exact { h with tailCache := h.tail, seenTail_le := le_refl _, room := by omega, push := trivial }

/-- Loading the head brings the consumer's cache up to date. -/
theorem loadHead (h : s.Tracks pushed popped seenTail seenHead) :
    ({ s with
        ring := { s.ring with consumer := { s.ring.consumer with headCache := s.ring.producer.head } }
        pop := .idle } : Threads c T).Tracks pushed popped seenTail pushed.length :=
  { h with
    headCache := h.head
    le_seenHead := h.le_seenHead.trans h.seenHead_le
    seenHead_le := le_refl _
    pop := trivial }

/-- The slot the producer writes holds no value that is still to be popped. -/
theorem writeSlot (h : s.Tracks pushed popped seenTail seenHead) (hlt : pushed.length < seenTail + c.value) (item : T) :
    ({ s with
        ring := { s.ring with
          buffer := Function.update s.ring.buffer (c.slot (UInt64.ofNat pushed.length)) item }
        push := .storeHead item (UInt64.ofNat pushed.length) } : Threads c T).Tracks
      pushed popped seenTail seenHead := by
  have hseen := h.seenTail_le
  refine { h with slots := ?_, push := ⟨rfl, hlt, Function.update_self ..⟩ }
  intro i hi hlen
  have hne := c.slot_ne hlen (by omega)
  dsimp only
  rw [Function.update_of_ne hne]
  exact h.slots i hi hlen

/-- Storing the head publishes the value. -/
theorem storeHead (h : s.Tracks pushed popped seenTail seenHead) {item : T}
    (hlt : pushed.length < seenTail + c.value)
    (hitem : s.ring.buffer (c.slot (UInt64.ofNat pushed.length)) = item) :
    ({ s with
        ring := { s.ring with
          producer := { s.ring.producer with head := UInt64.ofNat pushed.length + 1 } }
        push := .idle } : Threads c T).Tracks (pushed ++ [item]) popped seenTail seenHead := by
  have hlen : (pushed ++ [item]).length = pushed.length + 1 := by simp
  have hseen := h.seenHead_le
  refine
    { h with
      head := by rw [hlen]; exact ofNat_add_one _
      seenHead_le := by omega
      room := by omega
      fifo := h.fifo.trans (List.prefix_append ..)
      slots := ?_
      push := trivial
      pop := h.pop.append hseen item }
  intro i hi hilt
  by_cases hlast : i = pushed.length
  · subst hlast
    rw [hitem]
    simp
  · rw [List.getElem?_append_left (by omega)]
    exact h.slots i hi (by omega)

/-- Storing the tail hands the slot back. -/
theorem storeTail (h : s.Tracks pushed popped seenTail seenHead) {out : T} (hlt : popped.length < seenHead)
    (hout : pushed[popped.length]? = some out) :
    ({ s with
        ring := { s.ring with
          consumer := { s.ring.consumer with tail := UInt64.ofNat popped.length + 1 } }
        pop := .idle } : Threads c T).Tracks pushed (popped ++ [out]) seenTail seenHead := by
  have hlen : (popped ++ [out]).length = popped.length + 1 := by simp
  have hseen := h.seenTail_le
  refine
    { h with
      tail := by rw [hlen]; exact ofNat_add_one _
      seenTail_le := by omega
      le_seenHead := by omega
      fifo := concat_prefix h.fifo hout
      slots := fun i hi => h.slots i (by omega)
      pop := trivial }

/-- A step of the producer.  It gives up only at a buffer that is full when it loads the tail. -/
theorem stepProducer (h : s.Tracks pushed popped seenTail seenHead) (item : T) :
    (∃ seenTail', (s.stepProducer item).2.Tracks (pushed ++ pushedBy (s.stepProducer item).1)
      (popped ++ poppedBy (s.stepProducer item).1) seenTail' seenHead) ∧
    ((s.stepProducer item).1 = some .full → pushed.length = popped.length + c.value) := by
  have hroom := h.room
  have hpush := h.push
  unfold Threads.stepProducer
  cases hpc : s.push with
  | idle =>
    dsimp only
    rw [h.head]
    split
    · exact ⟨⟨seenTail, by simpa using h.goto_push (.loadTail item _) rfl⟩, by simp⟩
    · rename_i hfull
      rw [h.checkFull_iff] at hfull
      exact ⟨⟨seenTail, by simpa using h.goto_push (.writeSlot item _) ⟨rfl, by omega⟩⟩, by simp⟩
  | loadTail item head =>
    rw [hpc] at hpush
    obtain rfl : head = UInt64.ofNat pushed.length := hpush
    have hload := h.loadTail
    have hfull := hload.checkFull_iff
    have hroom' := hload.room
    dsimp only
    split
    · rename_i hcheck
      exact ⟨⟨popped.length, by simpa using hload⟩, fun _ => hfull.1 hcheck⟩
    · rename_i hcheck
      have hne : pushed.length ≠ popped.length + c.value := fun heq => hcheck (hfull.2 heq)
      exact ⟨⟨popped.length, by simpa using hload.goto_push (.writeSlot item _) ⟨rfl, by omega⟩⟩, by simp⟩
  | writeSlot item head =>
    rw [hpc] at hpush
    obtain ⟨rfl, hlt⟩ := hpush
    exact ⟨⟨seenTail, by simpa using h.writeSlot hlt item⟩, by simp⟩
  | storeHead item head =>
    rw [hpc] at hpush
    obtain ⟨rfl, hlt, hitem⟩ := hpush
    exact ⟨⟨seenTail, by simpa using h.storeHead hlt hitem⟩, by simp⟩

/-- A step of the consumer.  It gives up only at a buffer that is empty when it loads the head. -/
theorem stepConsumer (h : s.Tracks pushed popped seenTail seenHead) :
    (∃ seenHead', s.stepConsumer.2.Tracks (pushed ++ pushedBy s.stepConsumer.1)
      (popped ++ poppedBy s.stepConsumer.1) seenTail seenHead') ∧
    (s.stepConsumer.1 = some .empty → pushed.length = popped.length) := by
  have hle := h.le_seenHead
  have hpop := h.pop
  unfold Threads.stepConsumer
  cases hpc : s.pop with
  | idle =>
    dsimp only
    rw [h.tail]
    split
    · exact ⟨⟨seenHead, by simpa using h.goto_pop (.loadHead _) rfl⟩, by simp⟩
    · rename_i hempty
      rw [h.headCache_iff] at hempty
      exact ⟨⟨seenHead, by simpa using h.goto_pop (.readSlot _) ⟨rfl, by omega⟩⟩, by simp⟩
  | loadHead tail =>
    rw [hpc] at hpop
    obtain rfl : tail = UInt64.ofNat popped.length := hpop
    have hload := h.loadHead
    have hempty := hload.headCache_iff
    have hle' := hload.le_seenHead
    dsimp only at hempty ⊢
    split
    · rename_i hcheck
      exact ⟨⟨pushed.length, by simpa using hload⟩, fun _ => (hempty.1 hcheck).symm⟩
    · rename_i hcheck
      have hne : popped.length ≠ pushed.length := fun heq => hcheck (hempty.2 heq)
      exact ⟨⟨pushed.length, by simpa using hload.goto_pop (.readSlot _) ⟨rfl, by omega⟩⟩, by simp⟩
  | readSlot tail =>
    rw [hpc] at hpop
    obtain ⟨rfl, hlt⟩ := hpop
    have hread := h.slots popped.length (le_refl _) (by have := h.seenHead_le; omega)
    exact ⟨⟨seenHead, by simpa using h.goto_pop (.storeTail _ _) ⟨rfl, hlt, hread⟩⟩, by simp⟩
  | storeTail tail out =>
    rw [hpc] at hpop
    obtain ⟨rfl, hlt, hout⟩ := hpop
    exact ⟨⟨seenHead, by simpa using h.storeTail hlt hout⟩, by simp⟩

/-- The producer never is at the slot that the consumer reads: neither before nor after it has written it. -/
theorem slot_ne (h : s.Tracks pushed popped seenTail seenHead) {item : T} {head tail : UInt64}
    (hpush : s.push = .writeSlot item head ∨ s.push = .storeHead item head) (hpop : s.pop = .readSlot tail) :
    c.slot head ≠ c.slot tail := by
  have hseen := h.seenTail_le
  have hle := h.seenHead_le
  have hat : head = UInt64.ofNat pushed.length ∧ pushed.length < seenTail + c.value := by
    have hinv := h.push
    rcases hpush with hpc | hpc
    · rw [hpc] at hinv
      exact hinv
    · rw [hpc] at hinv
      exact ⟨hinv.1, hinv.2.1⟩
  have hread := h.pop
  rw [hpop] at hread
  obtain ⟨rfl, hlt⟩ := hread
  obtain ⟨rfl, hlap⟩ := hat
  exact (c.slot_ne (by omega) (by omega)).symm

theorem step (h : s.Tracks pushed popped seenTail seenHead) (turn : Turn T) :
    ∃ out s' seenTail' seenHead', s.step turn = some (out, s') ∧
      s'.Tracks (pushed ++ pushedBy out) (popped ++ poppedBy out) seenTail' seenHead' := by
  cases turn with
  | producer item =>
    obtain ⟨⟨seenTail', htracks⟩, _⟩ := h.stepProducer item
    exact ⟨_, _, seenTail', seenHead, rfl, htracks⟩
  | consumer =>
    obtain ⟨⟨seenHead', htracks⟩, _⟩ := h.stepConsumer
    exact ⟨_, _, seenTail, seenHead', rfl, htracks⟩

end Threads.Tracks

/-! ### Every interleaving -/

/-- The values of the successful pushes, in order. -/
def pushes (outs : List (Option (Return T))) : List T := outs.flatMap pushedBy

/-- The values returned by the successful pops, in order. -/
def pops (outs : List (Option (Return T))) : List T := outs.flatMap poppedBy

theorem Threads.Tracks.run {s : Threads c T} {pushed popped : List T} {seenTail seenHead : Nat}
    (h : s.Tracks pushed popped seenTail seenHead) (turns : List (Turn T)) :
    ∃ outs s' seenTail' seenHead', runAll Threads.step s turns = some (outs, s') ∧
      s'.Tracks (pushed ++ pushes outs) (popped ++ pops outs) seenTail' seenHead' := by
  have hstep : ∀ (_ : List (Turn T)) (outs : List (Option (Return T))) (s : Threads c T) (turn : Turn T),
      (∃ seenTail seenHead, s.Tracks (pushed ++ pushes outs) (popped ++ pops outs) seenTail seenHead) →
      ∃ out s', s.step turn = some (out, s') ∧
        ∃ seenTail seenHead,
          s'.Tracks (pushed ++ pushes (outs ++ [out])) (popped ++ pops (outs ++ [out])) seenTail seenHead := by
    rintro _ outs s turn ⟨seenTail, seenHead, h⟩
    obtain ⟨out, s', seenTail', seenHead', hstep, htracks⟩ := h.step turn
    refine ⟨out, s', hstep, seenTail', seenHead', ?_⟩
    simpa [pushes, pops] using htracks
  obtain ⟨outs, s', hrun, seenTail', seenHead', htracks⟩ := runAll_history
    (fun _ outs (s : Threads c T) =>
      ∃ seenTail seenHead, s.Tracks (pushed ++ pushes outs) (popped ++ pops outs) seenTail seenHead) hstep turns s
    ⟨seenTail, seenHead, by simpa [pushes, pops] using h⟩
  exact ⟨outs, s', seenTail', seenHead', hrun, htracks⟩

theorem tracks_new (c : Capacity) (init : T) : (Threads.new c init).Tracks [] [] 0 0 where
  head := rfl
  tail := rfl
  tailCache := rfl
  headCache := rfl
  seenTail_le := le_refl _
  le_seenHead := le_refl _
  seenHead_le := le_refl _
  room := Nat.zero_le _
  fifo := List.nil_prefix
  slots := fun i _ hi => absurd hi (Nat.not_lt_zero i)
  push := trivial
  pop := trivial

theorem tracks_run (c : Capacity) (init : T) (turns : List (Turn T)) :
    ∃ outs s, runAll Threads.step (Threads.new c init) turns = some (outs, s) ∧
      ∃ seenTail seenHead, s.Tracks (pushes outs) (pops outs) seenTail seenHead := by
  obtain ⟨outs, s, seenTail, seenHead, hrun, htracks⟩ := (tracks_new c init).run turns
  exact ⟨outs, s, hrun, seenTail, seenHead, htracks⟩

/-- The ring buffer is a bounded FIFO queue.  After any turns of the two threads: what has been popped is a prefix of
what has been pushed, and at most `Capacity` values are in between; a producer that is about to write a slot, or has
written it and not yet stored the head, is not at the slot the consumer is about to read; and if the next step loads
the other thread's index and returns false, then the buffer is full, or empty, at that load. -/
theorem ring_buffer_bounded_fifo (c : Capacity) (init : T) (turns : List (Turn T)) :
    ∃ outs s, runAll Threads.step (Threads.new c init) turns = some (outs, s) ∧
      pops outs <+: pushes outs ∧
      (pushes outs).length ≤ (pops outs).length + c.value ∧
      (∀ item head tail, s.push = .writeSlot item head ∨ s.push = .storeHead item head → s.pop = .readSlot tail →
        c.slot head ≠ c.slot tail) ∧
      (∀ item, (s.stepProducer item).1 = some .full → (pushes outs).length = (pops outs).length + c.value) ∧
      (s.stepConsumer.1 = some .empty → (pushes outs).length = (pops outs).length) := by
  obtain ⟨outs, s, hrun, seenTail, seenHead, h⟩ := tracks_run c init turns
  have hseen := h.seenTail_le
  have hroom := h.room
  refine ⟨outs, s, hrun, h.fifo, by omega, ?_, ?_, h.stepConsumer.2⟩
  · intro item head tail hpush hpop
    exact h.slot_ne hpush hpop
  · intro item
    exact (h.stepProducer item).2

end Invariant

end Exchange
