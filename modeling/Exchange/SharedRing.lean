import Exchange.RingMemory
import Mathlib.Data.Finset.Insert

/-!
# The ring buffer of two threads, with its memory orders

`SPSCRingBuffer` in a memory of its own.  For every interleaving of the two threads, and for all values that the loads
may return: no two accesses to a slot race, and what is popped is a prefix of what has been pushed.  The model with
one value per index is the part of this one in which every load returns the newest value.
-/

namespace Exchange

inductive RingThread where
  | producer
  | consumer
  deriving DecidableEq

instance : Fintype RingThread where
  elems := {.producer, .consumer}
  complete t := by cases t <;> decide

inductive RingIndex where
  | head
  | tail
  deriving DecidableEq

/-- The places of `SPSCRingBuffer`. -/
def RingPlace.spsc (c : Capacity) : RingPlace c RingThread RingIndex (Fin c.value) where
  producer := .producer
  consumer := .consumer
  head := .head
  tail := .tail
  slot := id
  head_ne_tail := nofun
  slot_injective := Function.injective_id

structure SharedRing (c : Capacity) (T : Type) where
  memory : Memory RingThread RingIndex (Fin c.value) UInt64 T
  locals : RingLocals T := {}

/-- Whose turn it is, and how old a value the thread gets if its next step is a load. -/
inductive SharedTurn (T : Type) where
  | producer (item : T) (age : Nat)
  | consumer (age : Nat)

namespace SharedRing

open RingPlace

variable {c : Capacity} {T : Type}

def new (c : Capacity) (init : T) : SharedRing c T where
  memory := Memory.new (fun _ => 0) fun _ => init

def step (s : SharedRing c T) : SharedTurn T → Option (Option (Return T) × SharedRing c T)
  | .producer item age =>
    match (spsc c).stepProducer s.memory s.locals item age with
    | none => none
    | some (ret, locals, memory) => some (ret, { memory := memory, locals := locals })
  | .consumer age =>
    match (spsc c).stepConsumer s.memory s.locals age with
    | none => none
    | some (ret, locals, memory) => some (ret, { memory := memory, locals := locals })

/-- The pushes that happen before what the consumer does next. -/
def pushesKnown (s : SharedRing c T) : Nat := (s.memory.views .consumer).seen .head

/-- The pops that happen before what the producer does next. -/
def popsKnown (s : SharedRing c T) : Nat := (s.memory.views .producer).seen .tail

/-- The state after the values `pushed` have been pushed and the values `popped` have been popped. -/
def Tracks (s : SharedRing c T) (pushed popped : List T) : Prop :=
  s.memory.WellFormed ∧ ∃ seenTail seenHead, (spsc c).Tracks s.memory s.locals pushed popped seenTail seenHead

theorem tracks_new (c : Capacity) (init : T) : (new c init).Tracks [] [] :=
  ⟨Memory.wellFormed_new .., 0, 0, (spsc c).tracks_new rfl rfl⟩

variable {s : SharedRing c T} {pushed popped : List T}

/-- A step does not fail.  A call gives up only if the buffer is full, or empty, by what happens before. -/
theorem Tracks.step (h : s.Tracks pushed popped) (turn : SharedTurn T) :
    ∃ ret s', s.step turn = some (ret, s') ∧ s'.Tracks (pushed ++ pushedBy ret) (popped ++ poppedBy ret) ∧
      (ret = some .full → s.popsKnown + c.value ≤ pushed.length) ∧
      (ret = some .empty → s.pushesKnown ≤ popped.length) := by
  obtain ⟨hm, seenTail, seenHead, h⟩ := h
  cases turn with
  | producer item age =>
    obtain ⟨ret, locals, memory, seenTail', hstep, hm', -, h', hfull, hempty, -⟩ := h.stepProducer hm item age
    refine ⟨ret, _, by rw [SharedRing.step, hstep], ⟨hm', seenTail', seenHead, h'⟩, hfull, ?_⟩
    exact fun heq => absurd heq hempty
  | consumer age =>
    obtain ⟨ret, locals, memory, seenHead', hstep, hm', -, h', hempty, hfull, -⟩ := h.stepConsumer hm age
    refine ⟨ret, _, by rw [SharedRing.step, hstep], ⟨hm', seenTail, seenHead', h'⟩, ?_, hempty⟩
    exact fun heq => absurd heq hfull

theorem Tracks.run (h : s.Tracks pushed popped) (turns : List (SharedTurn T)) :
    ∃ outs s', runAll SharedRing.step s turns = some (outs, s') ∧
      s'.Tracks (pushed ++ pushes outs) (popped ++ pops outs) := by
  refine runAll_history
    (fun _ outs (s : SharedRing c T) => s.Tracks (pushed ++ pushes outs) (popped ++ pops outs)) ?_ turns s ?_
  · intro _ outs s turn h
    obtain ⟨ret, s', hstep, h', -⟩ := h.step turn
    refine ⟨ret, s', hstep, ?_⟩
    simpa [pushes, pops] using h'
  · simpa [pushes, pops] using h

/-- The ring buffer needs no stronger memory orders than it has.  For all turns of the two threads and all values the
loads may return, no access to a slot races with another and no store is out of order: the run does not fail.  What
has been popped is a prefix of what has been pushed, and at most `Capacity` values are in between.  And whatever the
next step is, `try_push` returns false only if the pops that happen before it leave no room, and `try_pop` only if
every push that happens before it has been popped. -/
theorem shared_ring_race_free_fifo (c : Capacity) (init : T) (turns : List (SharedTurn T)) :
    ∃ outs s, runAll step (new c init) turns = some (outs, s) ∧
      pops outs <+: pushes outs ∧
      (pushes outs).length ≤ (pops outs).length + c.value ∧
      ∀ turn, ∃ ret s', s.step turn = some (ret, s') ∧
        (ret = some .full → s.popsKnown + c.value ≤ (pushes outs).length) ∧
        (ret = some .empty → s.pushesKnown ≤ (pops outs).length) := by
  obtain ⟨outs, s, hrun, h⟩ := (tracks_new c init).run turns
  rw [List.nil_append, List.nil_append] at h
  refine ⟨outs, s, hrun, ?_, ?_, fun turn => ?_⟩
  · obtain ⟨-, seenTail, seenHead, h⟩ := h
    exact h.fifo
  · obtain ⟨-, seenTail, seenHead, h⟩ := h
    exact h.length_le
  · obtain ⟨ret, s', hstep, -, hfull, hempty⟩ := h.step turn
    exact ⟨ret, s', hstep, hfull, hempty⟩

/-! ### The newest values -/

/-- The local variables of the model with one value per index. -/
def localsOf (t : Threads c T) : RingLocals T where
  tailCache := t.ring.producer.tailCache
  headCache := t.ring.consumer.headCache
  push := t.push
  pop := t.pop

section Newest

variable {t : Threads c T} {m : Memory RingThread RingIndex (Fin c.value) UInt64 T} {a b a' b' : Nat}

/-- The newest value of an index is the last count. -/
theorem newest_count (hm : m.WellFormed) {n k : Nat} {thread : RingThread} {x : RingIndex}
    {msg : Stored RingThread RingIndex UInt64} (h : Counts (m.history x) n) (hindex : m.readIndex thread x 0 = k)
    (hmsg : (m.history x)[k]? = some msg) : msg.value = UInt64.ofNat n := by
  have hlast := hm.readIndex_zero thread x
  rw [hindex, h.length] at hlast
  exact h.last (by omega) hmsg

/-- With the newest values, the producer does what it does in the model with one value per index. -/
theorem stepProducer_newest (hm : m.WellFormed) (h : (spsc c).Tracks m (localsOf t) pushed popped a b)
    (ht : t.Tracks pushed popped a' b') (hbuffer : ∀ k, (m.plain k).value = t.ring.buffer k) (item : T) :
    ∃ m', (spsc c).stepProducer m (localsOf t) item 0 =
        some ((t.stepProducer item).1, localsOf (t.stepProducer item).2, m') ∧
      ∀ k, (m'.plain k).value = (t.stepProducer item).2.ring.buffer k := by
  have hpush := h.push
  unfold RingPlace.stepProducer Threads.stepProducer
  cases hpc : t.push with
  | idle =>
    obtain ⟨k, msg, -, hseen, hmsg, hload, -⟩ := hm.load .relaxed (spsc c).producer (spsc c).head 0
    have hvalue : msg.value = t.ring.producer.head := (h.load_head hseen hmsg).trans ht.head.symm
    have hcheck : RingPlace.checkFull c (localsOf t) t.ring.producer.head = t.checkFull t.ring.producer.head := rfl
    simp only [show (localsOf t).push = .idle from hpc, hload, hvalue, hcheck]
    cases t.checkFull t.ring.producer.head
    · exact ⟨_, rfl, hbuffer⟩
    · exact ⟨_, rfl, hbuffer⟩
  | loadTail item head =>
    obtain ⟨k, msg, hindex, hseen, hmsg, hload, -⟩ := hm.load .acquire (spsc c).producer (spsc c).tail 0
    have hvalue : msg.value = t.ring.consumer.tail := (newest_count hm h.tail hindex hmsg).trans ht.tail.symm
    simp only [show (localsOf t).push = .loadTail item head from hpc, hload, hvalue]
    by_cases hfull : head - t.ring.consumer.tail ≥ UInt64.ofNat c.value
    · simp only [RingPlace.checkFull, Threads.checkFull, hfull, decide_true, ↓reduceIte]
      exact ⟨_, rfl, hbuffer⟩
    · simp only [RingPlace.checkFull, Threads.checkFull, hfull, decide_false, Bool.false_eq_true, ↓reduceIte]
      exact ⟨_, rfl, hbuffer⟩
  | writeSlot item head =>
    simp only [localsOf, hpc] at hpush
    obtain ⟨rfl, hlt⟩ := hpush
    obtain ⟨hwrite, -⟩ := hm.write (h.ownWrites _) (h.writable hlt) item
    simp only [localsOf, hpc, hwrite]
    refine ⟨_, rfl, fun k => ?_⟩
    by_cases hk : k = c.slot (UInt64.ofNat pushed.length)
    · subst hk
      rw [Function.update_self]
      exact congrArg PlainCell.value (Memory.plain_afterWrite_self ..)
    · rw [Function.update_of_ne hk, ← hbuffer k]
      exact congrArg PlainCell.value (Memory.plain_afterWrite_of_ne hk item)
  | storeHead item head =>
    simp only [localsOf, hpc] at hpush
    obtain ⟨rfl, -, -⟩ := hpush
    have hown := h.ownHead
    obtain ⟨hstore, -⟩ := hm.store (t := (spsc c).producer) (x := (spsc c).head) (UInt64.ofNat pushed.length + 1)
      (by rw [h.head.length]; omega)
    simp only [localsOf, hpc, hstore]
    exact ⟨_, rfl, hbuffer⟩

theorem stepConsumer_newest (hm : m.WellFormed) (h : (spsc c).Tracks m (localsOf t) pushed popped a b)
    (ht : t.Tracks pushed popped a' b') (hbuffer : ∀ k, (m.plain k).value = t.ring.buffer k) :
    ∃ m', (spsc c).stepConsumer m (localsOf t) 0 = some (t.stepConsumer.1, localsOf t.stepConsumer.2, m') ∧
      ∀ k, (m'.plain k).value = t.stepConsumer.2.ring.buffer k := by
  have hpop := h.pop
  unfold RingPlace.stepConsumer Threads.stepConsumer
  cases hpc : t.pop with
  | idle =>
    obtain ⟨k, msg, -, hseen, hmsg, hload, -⟩ := hm.load .relaxed (spsc c).consumer (spsc c).tail 0
    have hvalue : msg.value = t.ring.consumer.tail := (h.load_tail hseen hmsg).trans ht.tail.symm
    simp only [localsOf, hpc, hload, hvalue]
    split
    · exact ⟨_, rfl, hbuffer⟩
    · exact ⟨_, rfl, hbuffer⟩
  | loadHead tail =>
    obtain ⟨k, msg, hindex, hseen, hmsg, hload, -⟩ := hm.load .acquire (spsc c).consumer (spsc c).head 0
    have hvalue : msg.value = t.ring.producer.head := (newest_count hm h.head hindex hmsg).trans ht.head.symm
    simp only [localsOf, hpc, hload, hvalue]
    split
    · exact ⟨_, rfl, hbuffer⟩
    · exact ⟨_, rfl, hbuffer⟩
  | readSlot tail =>
    simp only [localsOf, hpc] at hpop
    obtain ⟨rfl, hlt⟩ := hpop
    obtain ⟨hread, -⟩ := hm.read (h.readable hlt)
    have hout : (m.plain ((spsc c).slot (c.slot (UInt64.ofNat popped.length)))).value =
        t.ring.buffer (c.slot (UInt64.ofNat popped.length)) := hbuffer _
    simp only [localsOf, hpc, hread, hout]
    exact ⟨_, rfl, fun k => (Memory.value_afterRead ..).trans (hbuffer k)⟩
  | storeTail tail out =>
    simp only [localsOf, hpc] at hpop
    obtain ⟨rfl, -, -⟩ := hpop
    have hown := h.ownTail
    obtain ⟨hstore, -⟩ := hm.store (t := (spsc c).consumer) (x := (spsc c).tail) (UInt64.ofNat popped.length + 1)
      (by rw [h.tail.length]; omega)
    simp only [localsOf, hpc, hstore]
    exact ⟨_, rfl, hbuffer⟩

end Newest

/-- The two models after the same calls. -/
structure Shows (s : SharedRing c T) (t : Threads c T) : Prop where
  locals : s.locals = localsOf t
  buffer : ∀ k, (s.memory.plain k).value = t.ring.buffer k
  calls : ∃ pushed popped a b, s.Tracks pushed popped ∧ t.Tracks pushed popped a b

/-- The turn, with the newest value if it is a load. -/
def newest : Turn T → SharedTurn T
  | .producer item => .producer item 0
  | .consumer => .consumer 0

theorem Shows.step {t : Threads c T} (h : s.Shows t) (turn : Turn T) :
    ∃ ret t' s', t.step turn = some (ret, t') ∧ s.step (newest turn) = some (ret, s') ∧ s'.Shows t' := by
  obtain ⟨hlocals, hbuffer, pushed, popped, a, b, hs, ht⟩ := h
  obtain ⟨hm, seenTail, seenHead, hring⟩ := hs
  obtain ⟨ret, s₁, hstep, hs', -⟩ := Tracks.step ⟨hm, seenTail, seenHead, hring⟩ (newest turn)
  rw [hlocals] at hring
  cases turn with
  | producer item =>
    obtain ⟨m', hnewest, hbuffer'⟩ := stepProducer_newest hm hring ht hbuffer item
    obtain ⟨⟨a', ht'⟩, -⟩ := ht.stepProducer item
    have hsame : s.step (newest (.producer item)) =
        some ((t.stepProducer item).1, ⟨m', localsOf (t.stepProducer item).2⟩) := by
      simp only [newest, SharedRing.step, hlocals, hnewest]
    obtain ⟨rfl, rfl⟩ := Prod.mk.inj (Option.some.inj (hstep.symm.trans hsame))
    exact ⟨_, _, _, rfl, hsame, rfl, hbuffer', _, _, _, _, hs', ht'⟩
  | consumer =>
    obtain ⟨m', hnewest, hbuffer'⟩ := stepConsumer_newest hm hring ht hbuffer
    obtain ⟨⟨b', ht'⟩, -⟩ := ht.stepConsumer
    have hsame : s.step (newest .consumer) = some (t.stepConsumer.1, ⟨m', localsOf t.stepConsumer.2⟩) := by
      simp only [newest, SharedRing.step, hlocals, hnewest]
    obtain ⟨rfl, rfl⟩ := Prod.mk.inj (Option.some.inj (hstep.symm.trans hsame))
    exact ⟨_, _, _, rfl, hsame, rfl, hbuffer', _, _, _, _, hs', ht'⟩

/-- Every run of the model with one value per index is a run of this one, in which the loads return the newest
values: the calls return the same, and the slots and the local variables are the same in the end. -/
theorem newest_values_run (c : Capacity) (init : T) (turns : List (Turn T)) :
    ∃ outs t s, runAll Threads.step (Threads.new c init) turns = some (outs, t) ∧
      runAll step (new c init) (turns.map newest) = some (outs, s) ∧
      s.locals = localsOf t ∧ ∀ k, (s.memory.plain k).value = t.ring.buffer k := by
  have hstep : ∀ (t : Threads c T) (s : SharedRing c T) (turn : Turn T) (shared : SharedTurn T), s.Shows t →
      shared = newest turn → ∃ ret ret' t' s', t.step turn = some (ret, t') ∧ s.step shared = some (ret', s') ∧
        ret = ret' ∧ s'.Shows t' := by
    rintro t s turn _ h rfl
    obtain ⟨ret, t', s', ht, hs, h'⟩ := h.step turn
    exact ⟨ret, ret, t', s', ht, hs, rfl, h'⟩
  have hnew : (new c init).Shows (Threads.new c init) :=
    ⟨rfl, fun _ => rfl, [], [], 0, 0, tracks_new c init, Exchange.tracks_new c init⟩
  have hturns : List.Forall₂ (fun turn shared => shared = newest turn) turns (turns.map newest) :=
    List.forall₂_map_right_iff.2 (List.forall₂_same.2 fun _ _ => rfl)
  obtain ⟨outs, outs', t, s, ht, hs, houts, h⟩ :=
    runAll_forall₂ (fun (t : Threads c T) (s : SharedRing c T) => s.Shows t) hstep hturns _ _ hnew
  rw [List.forall₂_eq_eq_eq] at houts
  subst houts
  exact ⟨outs, t, s, ht, hs, h.locals, h.buffer⟩

end SharedRing

end Exchange
