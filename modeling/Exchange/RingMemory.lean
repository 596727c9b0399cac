import Exchange.RingBuffer
import Exchange.Lib.ReleaseAcquire

/-!
# The ring buffer under release and acquire

`SPSCRingBuffer` with the memory orders of the source: a thread loads its own index relaxed and the other thread's
index with acquire, and stores its own index with release; the slots are plain memory.  A load of the other thread's
index may return a value that is not the newest.  A run in which two accesses to a slot race fails.

The ring is placed in a memory that may hold more than it, used by two of the threads of a program.
-/

namespace Exchange

/-- Where a ring is, and which threads use it. -/
structure RingPlace (c : Capacity) (Tid Loc Addr : Type) where
  producer : Tid
  consumer : Tid
  head : Loc
  tail : Loc
  slot : Fin c.value → Addr
  head_ne_tail : head ≠ tail
  slot_injective : Function.Injective slot

/-- What belongs to one of the threads alone: the cached indices, and how far the calls have come. -/
structure RingLocals (T : Type) where
  tailCache : UInt64 := 0
  headCache : UInt64 := 0
  push : TryPush T := .idle
  pop : TryPop T := .idle

namespace RingPlace

variable {c : Capacity} {Tid Loc Addr T : Type} [DecidableEq Tid] [DecidableEq Loc] [DecidableEq Addr] [Fintype Tid]

/-- By the producer's cached tail, the buffer is full. -/
def checkFull (c : Capacity) (l : RingLocals T) (head : UInt64) : Bool :=
  decide (head - l.tailCache ≥ UInt64.ofNat c.value)

/-- The next step of `try_push`.  A load returns the value `age` steps back from the newest one, or the oldest one
that can still be read. -/
def stepProducer (p : RingPlace c Tid Loc Addr) (m : Memory Tid Loc Addr UInt64 T) (l : RingLocals T) (item : T)
    (age : Nat) : Option (Option (Return T) × RingLocals T × Memory Tid Loc Addr UInt64 T) :=
  match l.push with
  | .idle =>
    match m.load .relaxed p.producer p.head age with
    | none => none
    | some (head, m) =>
      if checkFull c l head then some (none, { l with push := .loadTail item head }, m)
      else some (none, { l with push := .writeSlot item head }, m)
  | .loadTail item head =>
    match m.load .acquire p.producer p.tail age with
    | none => none
    | some (tail, m) =>
      let l := { l with tailCache := tail }
      if checkFull c l head then some (some .full, { l with push := .idle }, m)
      else some (none, { l with push := .writeSlot item head }, m)
  | .writeSlot item head =>
    match m.write p.producer (p.slot (c.slot head)) item with
    | none => none
    | some m => some (none, { l with push := .storeHead item head }, m)
  | .storeHead item head =>
    match m.store p.producer p.head (head + 1) with
    | none => none
    | some m => some (some (.pushed item), { l with push := .idle }, m)

/-- The next step of `try_pop`. -/
def stepConsumer (p : RingPlace c Tid Loc Addr) (m : Memory Tid Loc Addr UInt64 T) (l : RingLocals T) (age : Nat) :
    Option (Option (Return T) × RingLocals T × Memory Tid Loc Addr UInt64 T) :=
  match l.pop with
  | .idle =>
    match m.load .relaxed p.consumer p.tail age with
    | none => none
    | some (tail, m) =>
      if tail = l.headCache then some (none, { l with pop := .loadHead tail }, m)
      else some (none, { l with pop := .readSlot tail }, m)
  | .loadHead tail =>
    match m.load .acquire p.consumer p.head age with
    | none => none
    | some (head, m) =>
      let l := { l with headCache := head }
      if tail = l.headCache then some (some .empty, { l with pop := .idle }, m)
      else some (none, { l with pop := .readSlot tail }, m)
  | .readSlot tail =>
    match m.read p.consumer (p.slot (c.slot tail)) with
    | none => none
    | some (out, m) => some (none, { l with pop := .storeTail tail out }, m)
  | .storeTail tail out =>
    match m.store p.consumer p.tail (tail + 1) with
    | none => none
    | some m => some (some (.popped out), { l with pop := .idle }, m)

end RingPlace

/-! ### What a state tells about the calls so far -/

section Counts

variable {Tid Loc : Type} {history : List (Stored Tid Loc UInt64)} {n : Nat}

/-- A history that has counted from 0 to `n`. -/
def Counts (history : List (Stored Tid Loc UInt64)) (n : Nat) : Prop :=
  history.map Stored.value = (List.range (n + 1)).map UInt64.ofNat

theorem Counts.length (h : Counts history n) : history.length = n + 1 := by
  have hlen := congrArg List.length h
  simpa using hlen

theorem Counts.get (h : Counts history n) {k : Nat} {msg : Stored Tid Loc UInt64} (hk : history[k]? = some msg) :
    k ≤ n ∧ msg.value = UInt64.ofNat k := by
  have hlt := (List.getElem?_eq_some_iff.1 hk).1
  rw [h.length] at hlt
  have hvalue : (history.map Stored.value)[k]? = some msg.value := by rw [List.getElem?_map, hk]; rfl
  rw [h, List.getElem?_map, List.getElem?_range hlt] at hvalue
  exact ⟨by omega, (Option.some.inj hvalue).symm⟩

/-- Who has seen the whole history reads the last count. -/
theorem Counts.last (h : Counts history n) {k : Nat} {msg : Stored Tid Loc UInt64} (hle : n ≤ k)
    (hk : history[k]? = some msg) : msg.value = UInt64.ofNat n := by
  obtain ⟨hkn, hvalue⟩ := h.get hk
  rw [hvalue, Nat.le_antisymm hkn hle]

theorem Counts.append (h : Counts history n) (view : MemView Tid Loc) :
    Counts (history ++ [{ value := UInt64.ofNat n + 1, view := view }]) (n + 1) := by
  unfold Counts at h ⊢
  rw [List.map_append, h, List.range_succ (n := n + 1), List.map_append, ofNat_add_one]
  rfl

end Counts

namespace RingPlace

variable {c : Capacity} {Tid Loc Addr T : Type}

/-- The state after the values `pushed` have been pushed and the values `popped` have been popped.  The histories of
the two indices have counted the pushes and the pops.  With each count of pushes come the writes of the slots before
it, and with each count of pops the reads of the slots that may be written again. -/
structure Tracks (p : RingPlace c Tid Loc Addr) (m : Memory Tid Loc Addr UInt64 T) (l : RingLocals T)
    (pushed popped : List T) (seenTail seenHead : Nat) : Prop where
  head : Counts (m.history p.head) pushed.length
  tail : Counts (m.history p.tail) popped.length
  ownHead : pushed.length ≤ (m.views p.producer).seen p.head
  ownTail : popped.length ≤ (m.views p.consumer).seen p.tail
  tailCache : l.tailCache = UInt64.ofNat seenTail
  headCache : l.headCache = UInt64.ofNat seenHead
  acquiredTail : m.Acquired p.producer p.tail seenTail
  acquiredHead : m.Acquired p.consumer p.head seenHead
  seenTail_le : seenTail ≤ popped.length
  le_seenHead : popped.length ≤ seenHead
  seenHead_le : seenHead ≤ pushed.length
  room : pushed.length ≤ seenTail + c.value
  fifo : popped <+: pushed
  slots : ∀ i, popped.length ≤ i → i < pushed.length →
    pushed[i]? = some (m.plain (p.slot (c.slot (UInt64.ofNat i)))).value
  written : ∀ i k msg, popped.length ≤ i → i < k → (m.history p.head)[k]? = some msg →
    (m.plain (p.slot (c.slot (UInt64.ofNat i)))).writes ≤ msg.view.clock
  freed : ∀ i k msg, pushed.length ≤ i → i < k + c.value → (m.history p.tail)[k]? = some msg →
    (m.plain (p.slot (c.slot (UInt64.ofNat i)))).reads ≤ msg.view.clock
  ownWrites : ∀ a, (m.plain (p.slot a)).writes ≤ (m.views p.producer).clock
  ownReads : ∀ a, (m.plain (p.slot a)).reads ≤ (m.views p.consumer).clock
  push : l.push.At (fun a => (m.plain (p.slot a)).value) pushed.length seenTail
  pop : l.pop.At pushed popped.length seenHead

/-- Nothing has happened to the ring, though threads may have got to know more. -/
structure Untouched (p : RingPlace c Tid Loc Addr) (m m' : Memory Tid Loc Addr UInt64 T) : Prop where
  head : m'.history p.head = m.history p.head
  tail : m'.history p.tail = m.history p.tail
  slots : ∀ a, m'.plain (p.slot a) = m.plain (p.slot a)
  views : ∀ t, m.views t ≤ m'.views t

/-- Nothing but the ring has been touched. -/
structure Within (p : RingPlace c Tid Loc Addr) (m m' : Memory Tid Loc Addr UInt64 T) : Prop where
  history : ∀ x, x ≠ p.head → x ≠ p.tail → m'.history x = m.history x
  plain : ∀ a, (∀ i, a ≠ p.slot i) → m'.plain a = m.plain a
  views : ∀ t, m.views t ≤ m'.views t

/-- A new ring, in a memory that is new. -/
theorem tracks_new (p : RingPlace c Tid Loc Addr) {atomics : Loc → UInt64} {cells : Addr → T}
    (hhead : atomics p.head = 0) (htail : atomics p.tail = 0) :
    p.Tracks (Memory.new atomics cells) {} [] [] 0 0 where
  head := congrArg (fun v => [v]) hhead
  tail := congrArg (fun v => [v]) htail
  ownHead := Nat.zero_le _
  ownTail := Nat.zero_le _
  tailCache := rfl
  headCache := rfl
  acquiredTail := Memory.acquired_new ..
  acquiredHead := Memory.acquired_new ..
  seenTail_le := le_refl _
  le_seenHead := le_refl _
  seenHead_le := le_refl _
  room := Nat.zero_le _
  fifo := List.nil_prefix
  slots i _ hi := absurd hi (Nat.not_lt_zero i)
  written _ _ _ _ _ _ _ := Nat.zero_le _
  freed _ _ _ _ _ _ _ := Nat.zero_le _
  ownWrites _ _ := Nat.zero_le _
  ownReads _ _ := Nat.zero_le _
  push := trivial
  pop := trivial

namespace Tracks

variable {p : RingPlace c Tid Loc Addr} {m m' : Memory Tid Loc Addr UInt64 T} {l : RingLocals T}
  {pushed popped : List T} {seenTail seenHead : Nat}

theorem untouched (h : p.Tracks m l pushed popped seenTail seenHead) (hu : p.Untouched m m') :
    p.Tracks m' l pushed popped seenTail seenHead := by
  obtain ⟨hhead, htail, hslots, hviews⟩ := hu
  refine
    { h with
      head := by rw [hhead]; exact h.head
      tail := by rw [htail]; exact h.tail
      ownHead := h.ownHead.trans ((hviews _).1 _)
      ownTail := h.ownTail.trans ((hviews _).1 _)
      acquiredTail := h.acquiredTail.mono htail (hviews _)
      acquiredHead := h.acquiredHead.mono hhead (hviews _)
      slots := fun i => by rw [hslots]; exact h.slots i
      written := fun i => by rw [hslots, hhead]; exact h.written i
      freed := fun i => by rw [hslots, htail]; exact h.freed i
      ownWrites := fun a => by rw [hslots]; exact (h.ownWrites a).trans (hviews _).2
      ownReads := fun a => by rw [hslots]; exact (h.ownReads a).trans (hviews _).2
      push := by simp only [hslots]; exact h.push }

theorem goto_push (h : p.Tracks m l pushed popped seenTail seenHead) (push : TryPush T)
    (hpush : push.At (fun a => (m.plain (p.slot a)).value) pushed.length seenTail) :
    p.Tracks m { l with push := push } pushed popped seenTail seenHead :=
  { h with push := hpush }

theorem goto_pop (h : p.Tracks m l pushed popped seenTail seenHead) (pop : TryPop T)
    (hpop : pop.At pushed popped.length seenHead) :
    p.Tracks m { l with pop := pop } pushed popped seenTail seenHead :=
  { h with pop := hpop }

theorem length_le (h : p.Tracks m l pushed popped seenTail seenHead) : pushed.length ≤ popped.length + c.value := by
  have hseen := h.seenTail_le
  have hroom := h.room
  omega

theorem checkFull_iff (h : p.Tracks m l pushed popped seenTail seenHead) :
    checkFull c l (UInt64.ofNat pushed.length) = true ↔ pushed.length = seenTail + c.value := by
  have hle := h.seenTail_le.trans (h.le_seenHead.trans h.seenHead_le)
  rw [checkFull, decide_eq_true_iff, h.tailCache, c.full_iff hle h.room]

theorem headCache_iff (h : p.Tracks m l pushed popped seenTail seenHead) :
    UInt64.ofNat popped.length = l.headCache ↔ popped.length = seenHead := by
  have hle := h.seenHead_le
  have hlen := h.length_le
  rw [h.headCache, c.empty_iff h.le_seenHead (by omega)]

/-- The slot of `i` and the slot of another count of the same lap. -/
theorem slot_ne (p : RingPlace c Tid Loc Addr) {d i j : Nat} (hi : d ≤ i) (hi' : i < d + c.value) (hj : d ≤ j)
    (hj' : j < d + c.value) (hne : i ≠ j) : p.slot (c.slot (UInt64.ofNat i)) ≠ p.slot (c.slot (UInt64.ofNat j)) :=
  fun heq => c.slot_ne_of_ne hi hi' hj hj' hne (p.slot_injective heq)

/-- The producer reads its own index as it is. -/
theorem load_head (h : p.Tracks m l pushed popped seenTail seenHead) {k : Nat} {msg : Stored Tid Loc UInt64}
    (hseen : (m.views p.producer).seen p.head ≤ k) (hmsg : (m.history p.head)[k]? = some msg) :
    msg.value = UInt64.ofNat pushed.length :=
  h.head.last (h.ownHead.trans hseen) hmsg

theorem load_tail (h : p.Tracks m l pushed popped seenTail seenHead) {k : Nat} {msg : Stored Tid Loc UInt64}
    (hseen : (m.views p.consumer).seen p.tail ≤ k) (hmsg : (m.history p.tail)[k]? = some msg) :
    msg.value = UInt64.ofNat popped.length :=
  h.tail.last (h.ownTail.trans hseen) hmsg

/-- The producer may write the slot it is at: it knows the read of the lap before. -/
theorem writable (h : p.Tracks m l pushed popped seenTail seenHead) (hlt : pushed.length < seenTail + c.value) :
    (m.plain (p.slot (c.slot (UInt64.ofNat pushed.length)))).reads ≤ (m.views p.producer).clock := by
  have hthere : seenTail < (m.history p.tail).length := by
    have hseen := h.seenTail_le
    rw [h.tail.length]
    omega
  have hmsg := List.getElem?_eq_getElem hthere
  exact (h.freed _ seenTail _ (le_refl _) hlt hmsg).trans (h.acquiredTail.view _ hmsg).2

/-- The consumer may read the slot it is at: it knows the write. -/
theorem readable (h : p.Tracks m l pushed popped seenTail seenHead) (hlt : popped.length < seenHead) :
    (m.plain (p.slot (c.slot (UInt64.ofNat popped.length)))).writes ≤ (m.views p.consumer).clock := by
  have hthere : seenHead < (m.history p.head).length := by
    have hseen := h.seenHead_le
    rw [h.head.length]
    omega
  have hmsg := List.getElem?_eq_getElem hthere
  exact (h.written _ seenHead _ (le_refl _) hlt hmsg).trans (h.acquiredHead.view _ hmsg).2

section Learn

variable [DecidableEq Tid]

theorem learn (h : p.Tracks m l pushed popped seenTail seenHead) (t : Tid) (v : MemView Tid Loc) :
    p.Tracks (m.learn t v) l pushed popped seenTail seenHead :=
  h.untouched ⟨rfl, rfl, fun _ => rfl, Memory.views_le_learn m t v⟩

variable [DecidableEq Loc]

/-- Loading the tail brings the producer's cache up to some number of pops, not less than before. -/
theorem loadTail (h : p.Tracks m l pushed popped seenTail seenHead) {k : Nat} {msg : Stored Tid Loc UInt64}
    (hseen : (m.views p.producer).seen p.tail ≤ k) (hmsg : (m.history p.tail)[k]? = some msg) :
    p.Tracks (m.learn p.producer (Memory.loaded p.tail k msg .acquire)) { l with tailCache := msg.value, push := .idle }
      pushed popped k seenHead := by
  obtain ⟨hk, hvalue⟩ := h.tail.get hmsg
  have hle := h.acquiredTail.seen.trans hseen
  have hroom := h.room
  exact
    { h.learn p.producer (Memory.loaded p.tail k msg .acquire) with
      tailCache := hvalue
      acquiredTail := Memory.acquired_load hmsg
      seenTail_le := hk
      room := by omega
      push := trivial }

/-- Loading the head brings the consumer's cache up to some number of pushes, not less than before. -/
theorem loadHead (h : p.Tracks m l pushed popped seenTail seenHead) {k : Nat} {msg : Stored Tid Loc UInt64}
    (hseen : (m.views p.consumer).seen p.head ≤ k) (hmsg : (m.history p.head)[k]? = some msg) :
    p.Tracks (m.learn p.consumer (Memory.loaded p.head k msg .acquire)) { l with headCache := msg.value, pop := .idle }
      pushed popped seenTail k := by
  obtain ⟨hk, hvalue⟩ := h.head.get hmsg
  have hle := h.acquiredHead.seen.trans hseen
  exact
    { h.learn p.consumer (Memory.loaded p.head k msg .acquire) with
      headCache := hvalue
      acquiredHead := Memory.acquired_load hmsg
      le_seenHead := h.le_seenHead.trans hle
      seenHead_le := hk
      pop := trivial }

/-- Storing the head publishes the value, and with it the write of its slot. -/
theorem storeHead (h : p.Tracks m l pushed popped seenTail seenHead) {item : T}
    (hlt : pushed.length < seenTail + c.value)
    (hitem : (m.plain (p.slot (c.slot (UInt64.ofNat pushed.length)))).value = item) :
    p.Tracks (m.publish p.producer p.head (UInt64.ofNat pushed.length + 1)) { l with push := .idle }
      (pushed ++ [item]) popped seenTail seenHead := by
  have hlen : (pushed ++ [item]).length = pushed.length + 1 := by simp
  have hseen := h.seenTail_le
  have hseenHead := h.seenHead_le
  have hhead := h.head.length
  have htail := h.tail.length
  have hviews := Memory.views_le_publish m p.producer p.head (UInt64.ofNat pushed.length + 1)
  refine
    { h with
      head := ?_
      tail := ?_
      ownHead := ?_
      ownTail := h.ownTail.trans ((hviews _).1 _)
      acquiredTail := h.acquiredTail.publish (by omega)
      acquiredHead := h.acquiredHead.publish (by omega)
      seenHead_le := by omega
      room := by omega
      fifo := h.fifo.trans (List.prefix_append ..)
      slots := ?_
      written := ?_
      freed := ?_
      ownWrites := fun a => (h.ownWrites a).trans (hviews _).2
      ownReads := fun a => (h.ownReads a).trans (hviews _).2
      push := trivial
      pop := h.pop.append hseenHead item }
  · rw [hlen, Memory.history_publish_self]
    exact h.head.append _
  · rw [Memory.history_publish_of_ne p.head_ne_tail.symm]
    exact h.tail
  · rw [hlen, ← hhead]
    exact Memory.length_le_seen_publish ..
  · intro i hi hi'
    by_cases hlast : i = pushed.length
    · subst hlast
      show (pushed ++ [item])[pushed.length]? = some (m.plain _).value
      rw [hitem]
      simp
    · rw [List.getElem?_append_left (by omega)]
      exact h.slots i hi (by omega)
  · intro i k msg hi hik hmsg
    rcases Memory.history_publish_cases hmsg with hold | hnew
    · exact h.written i k msg hi hik hold
    · -- the new count comes with all that the producer has written
      exact (h.ownWrites _).trans hnew.2
  · intro i k msg hi hik hmsg
    rw [Memory.history_publish_of_ne p.head_ne_tail.symm] at hmsg
    exact h.freed i k msg (by omega) hik hmsg

/-- Storing the tail hands the slot back, and with it the read. -/
theorem storeTail (h : p.Tracks m l pushed popped seenTail seenHead) {out : T} (hlt : popped.length < seenHead)
    (hout : pushed[popped.length]? = some out) :
    p.Tracks (m.publish p.consumer p.tail (UInt64.ofNat popped.length + 1)) { l with pop := .idle }
      pushed (popped ++ [out]) seenTail seenHead := by
  have hlen : (popped ++ [out]).length = popped.length + 1 := by simp
  have hseen := h.seenTail_le
  have hseenHead := h.seenHead_le
  have hhead := h.head.length
  have htail := h.tail.length
  have hviews := Memory.views_le_publish m p.consumer p.tail (UInt64.ofNat popped.length + 1)
  refine
    { h with
      head := ?_
      tail := ?_
      ownHead := h.ownHead.trans ((hviews _).1 _)
      ownTail := ?_
      acquiredTail := h.acquiredTail.publish (by omega)
      acquiredHead := h.acquiredHead.publish (by omega)
      seenTail_le := by omega
      le_seenHead := by omega
      fifo := concat_prefix h.fifo hout
      slots := fun i hi => h.slots i (by omega)
      written := ?_
      freed := ?_
      ownWrites := fun a => (h.ownWrites a).trans (hviews _).2
      ownReads := fun a => (h.ownReads a).trans (hviews _).2
      pop := trivial }
  · rw [Memory.history_publish_of_ne p.head_ne_tail]
    exact h.head
  · rw [hlen, Memory.history_publish_self]
    exact h.tail.append _
  · rw [hlen, ← htail]
    exact Memory.length_le_seen_publish ..
  · intro i k msg hi hik hmsg
    rw [Memory.history_publish_of_ne p.head_ne_tail] at hmsg
    exact h.written i k msg (by omega) hik hmsg
  · intro i k msg hi hik hmsg
    rcases Memory.history_publish_cases hmsg with hold | hnew
    · exact h.freed i k msg hi hik hold
    · exact (h.ownReads _).trans hnew.2

end Learn

section Slots

variable [DecidableEq Tid] [DecidableEq Addr]

theorem writeSlot (h : p.Tracks m l pushed popped seenTail seenHead) (hlt : pushed.length < seenTail + c.value)
    (item : T) :
    p.Tracks (m.afterWrite p.producer (p.slot (c.slot (UInt64.ofNat pushed.length))) item)
      { l with push := .storeHead item (UInt64.ofNat pushed.length) } pushed popped seenTail seenHead := by
  have hseen := h.seenTail_le
  have hviews := Memory.views_le_afterWrite m p.producer (p.slot (c.slot (UInt64.ofNat pushed.length))) item
  -- the slots in use are others
  have hother : ∀ i, popped.length ≤ i → i < pushed.length →
      (m.afterWrite p.producer (p.slot (c.slot (UInt64.ofNat pushed.length))) item).plain
        (p.slot (c.slot (UInt64.ofNat i))) = m.plain (p.slot (c.slot (UInt64.ofNat i))) := by
    intro i hi hi'
    exact Memory.plain_afterWrite_of_ne (slot_ne p hi (by omega) (by omega) (by omega) (by omega)) item
  refine
    { h with
      ownHead := h.ownHead.trans ((hviews _).1 _)
      ownTail := h.ownTail.trans ((hviews _).1 _)
      acquiredTail := h.acquiredTail.mono rfl (hviews _)
      acquiredHead := h.acquiredHead.mono rfl (hviews _)
      slots := ?_
      written := ?_
      freed := ?_
      ownWrites := fun a => Memory.writes_afterWrite_le (h.ownWrites a)
      ownReads := ?_
      push := ⟨rfl, hlt, congrArg PlainCell.value (Memory.plain_afterWrite_self ..)⟩ }
  · intro i hi hi'
    rw [hother i hi hi']
    exact h.slots i hi hi'
  · intro i k msg hi hik hmsg
    have hk := (h.head.get hmsg).1
    rw [hother i hi (by omega)]
    exact h.written i k msg hi hik hmsg
  · intro i k msg hi hik hmsg
    rw [Memory.reads_afterWrite]
    exact h.freed i k msg hi hik hmsg
  · intro a
    rw [Memory.reads_afterWrite]
    exact (h.ownReads a).trans (hviews _).2

theorem readSlot (h : p.Tracks m l pushed popped seenTail seenHead) (hlt : popped.length < seenHead) :
    p.Tracks (m.afterRead p.consumer (p.slot (c.slot (UInt64.ofNat popped.length))))
      { l with pop := .storeTail (UInt64.ofNat popped.length)
                (m.plain (p.slot (c.slot (UInt64.ofNat popped.length)))).value }
      pushed popped seenTail seenHead := by
  have hseenHead := h.seenHead_le
  have hviews := Memory.views_le_afterRead m p.consumer (p.slot (c.slot (UInt64.ofNat popped.length)))
  refine
    { h with
      ownHead := h.ownHead.trans ((hviews _).1 _)
      ownTail := h.ownTail.trans ((hviews _).1 _)
      acquiredTail := h.acquiredTail.mono rfl (hviews _)
      acquiredHead := h.acquiredHead.mono rfl (hviews _)
      slots := ?_
      written := ?_
      freed := ?_
      ownWrites := ?_
      ownReads := fun a => Memory.reads_afterRead_le (h.ownReads a)
      push := ?_
      pop := ⟨rfl, hlt, h.slots _ (le_refl _) (by omega)⟩ }
  · intro i hi hi'
    rw [Memory.value_afterRead]
    exact h.slots i hi hi'
  · intro i k msg hi hik hmsg
    rw [Memory.writes_afterRead]
    exact h.written i k msg hi hik hmsg
  · -- the slots that may be written are others
    intro i k msg hi hik hmsg
    have hk := (h.tail.get hmsg).1
    have hne : p.slot (c.slot (UInt64.ofNat i)) ≠ p.slot (c.slot (UInt64.ofNat popped.length)) :=
      slot_ne p (d := popped.length) (by omega) (by omega) (le_refl _) (by omega) (by omega)
    rw [Memory.plain_afterRead_of_ne hne]
    exact h.freed i k msg hi hik hmsg
  · intro a
    rw [Memory.writes_afterRead]
    exact (h.ownWrites a).trans (hviews _).2
  · simp only [Memory.value_afterRead]
    exact h.push

end Slots

end Tracks

/-! ### Steps -/

section Within

variable {p : RingPlace c Tid Loc Addr} {m : Memory Tid Loc Addr UInt64 T} [DecidableEq Tid]

theorem within_learn (t : Tid) (v : MemView Tid Loc) : p.Within m (m.learn t v) :=
  ⟨fun _ _ _ => rfl, fun _ _ => rfl, Memory.views_le_learn m t v⟩

theorem within_publish_head [DecidableEq Loc] (t : Tid) (value : UInt64) : p.Within m (m.publish t p.head value) :=
  ⟨fun _ hx _ => Memory.history_publish_of_ne hx value, fun _ _ => rfl, Memory.views_le_publish m t p.head value⟩

theorem within_publish_tail [DecidableEq Loc] (t : Tid) (value : UInt64) : p.Within m (m.publish t p.tail value) :=
  ⟨fun _ _ hx => Memory.history_publish_of_ne hx value, fun _ _ => rfl, Memory.views_le_publish m t p.tail value⟩

theorem within_afterWrite [DecidableEq Addr] (t : Tid) (i : Fin c.value) (item : T) :
    p.Within m (m.afterWrite t (p.slot i) item) :=
  ⟨fun _ _ _ => rfl, fun _ ha => Memory.plain_afterWrite_of_ne (ha i) item,
    Memory.views_le_afterWrite m t (p.slot i) item⟩

theorem within_afterRead [DecidableEq Addr] (t : Tid) (i : Fin c.value) : p.Within m (m.afterRead t (p.slot i)) :=
  ⟨fun _ _ _ => rfl, fun _ ha => Memory.plain_afterRead_of_ne (ha i),
    Memory.views_le_afterRead m t (p.slot i)⟩

end Within

namespace Tracks

variable {p : RingPlace c Tid Loc Addr} {m : Memory Tid Loc Addr UInt64 T} {l : RingLocals T}
  {pushed popped : List T} {seenTail seenHead : Nat} [DecidableEq Tid] [DecidableEq Loc] [DecidableEq Addr]
  [Fintype Tid]

/-- A step of the producer does not fail.  It gives up only if the buffer is full as far as it knows. -/
theorem stepProducer (h : p.Tracks m l pushed popped seenTail seenHead) (hm : m.WellFormed) (item : T) (age : Nat) :
    ∃ ret l' m' seenTail', p.stepProducer m l item age = some (ret, l', m') ∧ m'.WellFormed ∧ p.Within m m' ∧
      p.Tracks m' l' (pushed ++ pushedBy ret) (popped ++ poppedBy ret) seenTail' seenHead ∧
      (ret = some .full → (m.views p.producer).seen p.tail + c.value ≤ pushed.length) ∧
      ret ≠ some .empty ∧ poppedBy ret = [] := by
  have hroom := h.room
  have hpush := h.push
  unfold RingPlace.stepProducer
  cases hpc : l.push with
  | idle =>
    obtain ⟨k, msg, -, hseen, hmsg, hload, hwf⟩ := hm.load .relaxed p.producer p.head age
    have hlearn := h.learn p.producer (Memory.loaded p.head k msg .relaxed)
    simp only [hload, h.load_head hseen hmsg]
    split
    · refine ⟨_, _, _, seenTail, rfl, hwf, within_learn .., ?_, by simp, by simp, by simp⟩
      simpa using hlearn.goto_push (.loadTail item _) rfl
    · rename_i hfull
      rw [h.checkFull_iff] at hfull
      refine ⟨_, _, _, seenTail, rfl, hwf, within_learn .., ?_, by simp, by simp, by simp⟩
      simpa using hlearn.goto_push (.writeSlot item _) ⟨rfl, by omega⟩
  | loadTail item head =>
    rw [hpc] at hpush
    obtain rfl : head = UInt64.ofNat pushed.length := hpush
    obtain ⟨k, msg, -, hseen, hmsg, hload, hwf⟩ := hm.load .acquire p.producer p.tail age
    have htail := h.loadTail hseen hmsg
    have hfull := htail.checkFull_iff
    have hroom' := htail.room
    simp only [hload]
    split
    · rename_i hcheck
      have hlap := hfull.1 hcheck
      refine ⟨_, _, _, k, rfl, hwf, within_learn .., ?_, fun _ => by omega, by simp, by simp⟩
      simpa using htail
    · rename_i hcheck
      have hne : pushed.length ≠ k + c.value := fun heq => hcheck (hfull.2 heq)
      refine ⟨_, _, _, k, rfl, hwf, within_learn .., ?_, by simp, by simp, by simp⟩
      simpa using htail.goto_push (.writeSlot item _) ⟨rfl, by omega⟩
  | writeSlot item head =>
    rw [hpc] at hpush
    obtain ⟨rfl, hlt⟩ := hpush
    obtain ⟨hwrite, hwf⟩ := hm.write (h.ownWrites _) (h.writable hlt) item
    simp only [hwrite]
    refine ⟨_, _, _, seenTail, rfl, hwf, within_afterWrite .., ?_, by simp, by simp, by simp⟩
    simpa using h.writeSlot hlt item
  | storeHead item head =>
    rw [hpc] at hpush
    obtain ⟨rfl, hlt, hitem⟩ := hpush
    have hown := h.ownHead
    obtain ⟨hstore, hwf⟩ := hm.store (t := p.producer) (x := p.head) (UInt64.ofNat pushed.length + 1)
      (by rw [h.head.length]; omega)
    simp only [hstore]
    refine ⟨_, _, _, seenTail, rfl, hwf, within_publish_head .., ?_, by simp, by simp, by simp⟩
    simpa using h.storeHead hlt hitem

/-- A step of the consumer does not fail.  It gives up only if the buffer is empty as far as it knows. -/
theorem stepConsumer (h : p.Tracks m l pushed popped seenTail seenHead) (hm : m.WellFormed) (age : Nat) :
    ∃ ret l' m' seenHead', p.stepConsumer m l age = some (ret, l', m') ∧ m'.WellFormed ∧ p.Within m m' ∧
      p.Tracks m' l' (pushed ++ pushedBy ret) (popped ++ poppedBy ret) seenTail seenHead' ∧
      (ret = some .empty → (m.views p.consumer).seen p.head ≤ popped.length) ∧
      ret ≠ some .full ∧ pushedBy ret = [] := by
  have hle := h.le_seenHead
  have hpop := h.pop
  unfold RingPlace.stepConsumer
  cases hpc : l.pop with
  | idle =>
    obtain ⟨k, msg, -, hseen, hmsg, hload, hwf⟩ := hm.load .relaxed p.consumer p.tail age
    have hlearn := h.learn p.consumer (Memory.loaded p.tail k msg .relaxed)
    simp only [hload, h.load_tail hseen hmsg]
    split
    · refine ⟨_, _, _, seenHead, rfl, hwf, within_learn .., ?_, by simp, by simp, by simp⟩
      simpa using hlearn.goto_pop (.loadHead _) rfl
    · rename_i hempty
      rw [h.headCache_iff] at hempty
      refine ⟨_, _, _, seenHead, rfl, hwf, within_learn .., ?_, by simp, by simp, by simp⟩
      simpa using hlearn.goto_pop (.readSlot _) ⟨rfl, by omega⟩
  | loadHead tail =>
    rw [hpc] at hpop
    obtain rfl : tail = UInt64.ofNat popped.length := hpop
    obtain ⟨k, msg, -, hseen, hmsg, hload, hwf⟩ := hm.load .acquire p.consumer p.head age
    have hhead := h.loadHead hseen hmsg
    have hempty := hhead.headCache_iff
    have hle' := hhead.le_seenHead
    dsimp only at hempty
    simp only [hload]
    split
    · rename_i hcheck
      have hall := hempty.1 hcheck
      refine ⟨_, _, _, k, rfl, hwf, within_learn .., ?_, fun _ => by omega, by simp, by simp⟩
      simpa using hhead
    · rename_i hcheck
      have hne : popped.length ≠ k := fun heq => hcheck (hempty.2 heq)
      refine ⟨_, _, _, k, rfl, hwf, within_learn .., ?_, by simp, by simp, by simp⟩
      simpa using hhead.goto_pop (.readSlot _) ⟨rfl, by omega⟩
  | readSlot tail =>
    rw [hpc] at hpop
    obtain ⟨rfl, hlt⟩ := hpop
    obtain ⟨hread, hwf⟩ := hm.read (h.readable hlt)
    simp only [hread]
    refine ⟨_, _, _, seenHead, rfl, hwf, within_afterRead .., ?_, by simp, by simp, by simp⟩
    simpa using h.readSlot hlt
  | storeTail tail out =>
    rw [hpc] at hpop
    obtain ⟨rfl, hlt, hout⟩ := hpop
    have hown := h.ownTail
    obtain ⟨hstore, hwf⟩ := hm.store (t := p.consumer) (x := p.tail) (UInt64.ofNat popped.length + 1)
      (by rw [h.tail.length]; omega)
    simp only [hstore]
    refine ⟨_, _, _, seenHead, rfl, hwf, within_publish_tail .., ?_, by simp, by simp, by simp⟩
    simpa using h.storeTail hlt hout

end Tracks

end RingPlace

end Exchange
