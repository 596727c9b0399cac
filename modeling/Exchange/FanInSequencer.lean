import Exchange.RingBuffer
import Exchange.Lib.RoundRobin

/-!
# The fan-in sequencer

`FanInSequencer<T, NumProducers, QueueCapacity>` of `jane/concurrency/fan_in_sequencer.hpp`: one ring buffer for each
producer, polled round robin by one consumer.  Here a call is one step.  That a call of a ring buffer is what the
steps of its thread come to when the other thread does not interrupt them connects this level with the interleavings
of `SPSCRingBuffer`.
-/

namespace Exchange

/-! ### Calls of a ring buffer -/

namespace SPSCRingBuffer

variable {c : Capacity} {T : Type}

/-- The part of `try_push` after the checks. -/
def publish (q : SPSCRingBuffer c T) (item : T) : SPSCRingBuffer c T :=
  let head := q.producer.head
  { q with
    buffer := Function.update q.buffer (c.slot head) item
    producer := { q.producer with head := head + 1 } }

def tryPush (q : SPSCRingBuffer c T) (item : T) : Bool × SPSCRingBuffer c T :=
  let head := q.producer.head
  if head - q.producer.tailCache ≥ UInt64.ofNat c.value then
    let q := { q with producer := { q.producer with tailCache := q.consumer.tail } }
    if head - q.producer.tailCache ≥ UInt64.ofNat c.value then (false, q)
    else (true, q.publish item)
  else (true, q.publish item)

/-- The part of `try_pop` after the checks. -/
def take (q : SPSCRingBuffer c T) : Option T × SPSCRingBuffer c T :=
  let tail := q.consumer.tail
  (some (q.buffer (c.slot tail)), { q with consumer := { q.consumer with tail := tail + 1 } })

def tryPop (q : SPSCRingBuffer c T) : Option T × SPSCRingBuffer c T :=
  let tail := q.consumer.tail
  if tail = q.consumer.headCache then
    let q := { q with consumer := { q.consumer with headCache := q.producer.head } }
    if tail = q.consumer.headCache then (none, q) else q.take
  else q.take

def sizeApprox (q : SPSCRingBuffer c T) : Nat := (q.producer.head - q.consumer.tail).toNat

def emptyApprox (q : SPSCRingBuffer c T) : Bool := q.sizeApprox == 0

/-- `try_push` is the steps of the producer without interruption. -/
theorem tryPush_steps (q : SPSCRingBuffer c T) (item : T) :
    ∃ k outs, runAll Threads.step ({ ring := q } : Threads c T) (List.replicate k (.producer item)) =
        some (outs, { ring := (q.tryPush item).2 }) ∧
      pushes outs = (if (q.tryPush item).1 then [item] else []) ∧ pops outs = [] := by
  unfold tryPush
  dsimp only
  by_cases hfull : q.producer.head - q.producer.tailCache ≥ UInt64.ofNat c.value
  · rw [if_pos hfull]
    by_cases hstill : q.producer.head - q.consumer.tail ≥ UInt64.ofNat c.value
    · rw [if_pos hstill]
      refine ⟨2, [none, some .full], ?_, rfl, rfl⟩
      simp [List.replicate, runAll, Threads.step, Threads.stepProducer, Threads.checkFull, hfull, hstill]
    · rw [if_neg hstill]
      refine ⟨4, [none, none, none, some (.pushed item)], ?_, rfl, rfl⟩
      simp [List.replicate, runAll, Threads.step, Threads.stepProducer, Threads.checkFull, publish, hfull, hstill]
  · rw [if_neg hfull]
    refine ⟨3, [none, none, some (.pushed item)], ?_, rfl, rfl⟩
    simp [List.replicate, runAll, Threads.step, Threads.stepProducer, Threads.checkFull, publish, hfull]

/-- `try_pop` is the steps of the consumer without interruption. -/
theorem tryPop_steps (q : SPSCRingBuffer c T) :
    ∃ k outs, runAll Threads.step ({ ring := q } : Threads c T) (List.replicate k .consumer) =
        some (outs, { ring := q.tryPop.2 }) ∧
      pushes outs = [] ∧ pops outs = q.tryPop.1.toList := by
  unfold tryPop
  dsimp only
  by_cases hempty : q.consumer.tail = q.consumer.headCache
  · rw [if_pos hempty]
    by_cases hstill : q.consumer.tail = q.producer.head
    · rw [if_pos hstill]
      refine ⟨2, [none, some .empty], ?_, rfl, rfl⟩
      simp [List.replicate, runAll, Threads.step, Threads.stepConsumer, ← hempty, hstill]
    · rw [if_neg hstill]
      refine ⟨4, [none, none, none, some (.popped (q.buffer (c.slot q.consumer.tail)))], ?_, rfl, rfl⟩
      simp [List.replicate, runAll, Threads.step, Threads.stepConsumer, take, ← hempty, hstill]
  · rw [if_neg hempty]
    refine ⟨3, [none, none, some (.popped (q.buffer (c.slot q.consumer.tail)))], ?_, rfl, rfl⟩
    simp [List.replicate, runAll, Threads.step, Threads.stepConsumer, take, hempty]

/-- The buffer between two calls, after the values `pushed` have been pushed and `popped` popped. -/
def Carries (q : SPSCRingBuffer c T) (pushed popped : List T) : Prop :=
  ∃ seenTail seenHead, ({ ring := q } : Threads c T).Tracks pushed popped seenTail seenHead

variable {q : SPSCRingBuffer c T} {pushed popped : List T}

theorem carries_new (init : T) : ({ buffer := fun _ => init } : SPSCRingBuffer c T).Carries [] [] :=
  ⟨0, 0, tracks_new c init⟩

theorem Carries.fifo (h : q.Carries pushed popped) : popped <+: pushed := by
  obtain ⟨_, _, htracks⟩ := h
  exact htracks.fifo

/-- Steps that end between two calls. -/
theorem Carries.steps (h : q.Carries pushed popped) {turns : List (Turn T)} {outs : List (Option (Return T))}
    {q' : SPSCRingBuffer c T}
    (hrun : runAll Threads.step ({ ring := q } : Threads c T) turns = some (outs, { ring := q' })) :
    q'.Carries (pushed ++ pushes outs) (popped ++ pops outs) := by
  obtain ⟨seenTail, seenHead, htracks⟩ := h
  obtain ⟨outs', s', seenTail', seenHead', hrun', htracks'⟩ := htracks.run turns
  rw [hrun] at hrun'
  cases hrun'
  exact ⟨seenTail', seenHead', htracks'⟩

theorem Carries.tryPush (h : q.Carries pushed popped) (item : T) :
    (q.tryPush item).2.Carries (pushed ++ if (q.tryPush item).1 then [item] else []) popped := by
  obtain ⟨k, outs, hrun, hpushes, hpops⟩ := q.tryPush_steps item
  simpa only [hpushes, hpops, List.append_nil] using h.steps hrun

theorem Carries.tryPop (h : q.Carries pushed popped) :
    q.tryPop.2.Carries pushed (popped ++ q.tryPop.1.toList) := by
  obtain ⟨k, outs, hrun, hpushes, hpops⟩ := q.tryPop_steps
  simpa only [hpushes, hpops, List.append_nil] using h.steps hrun

/-- A pop that fails has seen the producer's index. -/
theorem emptyApprox_of_tryPop (h : q.tryPop.1 = none) : q.emptyApprox = true := by
  unfold tryPop take at h
  dsimp only at h
  split_ifs at h with _ hempty
  unfold emptyApprox sizeApprox
  rw [hempty, UInt64.sub_self]
  rfl

theorem Carries.emptyApprox_iff (h : q.Carries pushed popped) :
    q.emptyApprox = true ↔ pushed.length = popped.length := by
  obtain ⟨seenTail, seenHead, htracks⟩ := h
  have hseen := htracks.seenTail_le
  have hle := htracks.le_seenHead
  have hle' := htracks.seenHead_le
  have hroom := htracks.room
  have hcap := c.value_lt
  unfold emptyApprox sizeApprox
  rw [beq_iff_eq, show q.producer.head = _ from htracks.head, show q.consumer.tail = _ from htracks.tail,
    toNat_ofNat_sub (by omega) (by omega)]
  omega

end SPSCRingBuffer

/-! ### The sequencer -/

structure FanInSequencer (n : Nat) (c : Capacity) (T : Type) where
  queues : Fin n → SPSCRingBuffer c T
  nextQueue : Fin n

/-- The calls of the producers and of the sequencer thread. -/
inductive FanInCall (n : Nat) (T : Type) where
  | pushFrom (producer : Fin n) (item : T)
  | tryDrainOne

/-- What a call returns. -/
inductive FanInReturn (n : Nat) (T : Type) where
  | pushed (producer : Fin n) (item : T)
  | full (producer : Fin n)
  | drained (out : T) (source : Fin n)
  | empty

namespace FanInSequencer

variable {n : Nat} {c : Capacity} {T : Type}

def new (c : Capacity) (hn : 0 < n) (init : T) : FanInSequencer n c T where
  queues := fun _ => { buffer := fun _ => init }
  nextQueue := ⟨0, hn⟩

def pushFrom (s : FanInSequencer n c T) (producer : Fin n) (item : T) : Bool × FanInSequencer n c T :=
  let (ok, queue) := (s.queues producer).tryPush item
  (ok, { s with queues := Function.update s.queues producer queue })

/-- The loop of `try_drain_one`, with the number of attempts that are left. -/
def drain : Nat → FanInSequencer n c T → Option (T × Fin n) × FanInSequencer n c T
  | 0, s => (none, s)
  | attempts + 1, s =>
    let idx := s.nextQueue
    let s := { s with nextQueue := rotate idx }
    match (s.queues idx).tryPop with
    | (some out, queue) => (some (out, idx), { s with queues := Function.update s.queues idx queue })
    | (none, queue) => drain attempts { s with queues := Function.update s.queues idx queue }

def tryDrainOne (s : FanInSequencer n c T) : Option (T × Fin n) × FanInSequencer n c T := drain n s

def call (s : FanInSequencer n c T) : FanInCall n T → Option (FanInReturn n T × FanInSequencer n c T)
  | .pushFrom producer item =>
    match s.pushFrom producer item with
    | (true, s) => some (.pushed producer item, s)
    | (false, s) => some (.full producer, s)
  | .tryDrainOne =>
    match s.tryDrainOne with
    | (some (out, source), s) => some (.drained out source, s)
    | (none, s) => some (.empty, s)

theorem call_pushFrom (s : FanInSequencer n c T) (producer : Fin n) (item : T) :
    s.call (.pushFrom producer item) =
      some (if (s.pushFrom producer item).1 then .pushed producer item else .full producer,
        (s.pushFrom producer item).2) := by
  unfold call
  dsimp only
  cases s.pushFrom producer item with
  | mk ok s' => cases ok <;> rfl

theorem call_tryDrainOne (s : FanInSequencer n c T) :
    s.call .tryDrainOne =
      some (s.tryDrainOne.1.elim .empty fun p => .drained p.1 p.2, s.tryDrainOne.2) := by
  unfold call
  dsimp only
  cases s.tryDrainOne with
  | mk taken s' => cases taken <;> rfl

/-! ### One attempt -/

/-- The state after the queue whose turn it is has been polled. -/
def polled (s : FanInSequencer n c T) : FanInSequencer n c T where
  queues := Function.update s.queues s.nextQueue (s.queues s.nextQueue).tryPop.2
  nextQueue := rotate s.nextQueue

variable {s : FanInSequencer n c T} {attempts : Nat} {i : Fin n}

theorem drain_of_pop {out : T} (h : (s.queues s.nextQueue).tryPop.1 = some out) :
    drain (attempts + 1) s = (some (out, s.nextQueue), s.polled) := by
  rw [drain]
  dsimp only
  rw [← Prod.mk.eta (p := (s.queues s.nextQueue).tryPop), h]
  rfl

theorem drain_of_empty (h : (s.queues s.nextQueue).tryPop.1 = none) :
    drain (attempts + 1) s = drain attempts s.polled := by
  rw [drain]
  dsimp only
  rw [← Prod.mk.eta (p := (s.queues s.nextQueue).tryPop), h]
  rfl

theorem polled_queues_of_ne (h : i ≠ s.nextQueue) : s.polled.queues i = s.queues i := Function.update_of_ne h _ _

/-- A drain that fails has polled every queue whose turn came, and has found it empty. -/
theorem drain_none (h : (drain attempts s).1 = none) (hi : turnsUntil s.nextQueue i < attempts) :
    (s.queues i).emptyApprox = true := by
  induction attempts generalizing s with
  | zero => omega
  | succ attempts ih =>
    cases hpop : (s.queues s.nextQueue).tryPop.1 with
    | some out => rw [drain_of_pop hpop] at h; cases h
    | none =>
      rw [drain_of_empty hpop] at h
      by_cases hturn : s.nextQueue = i
      · rw [← hturn]
        exact SPSCRingBuffer.emptyApprox_of_tryPop hpop
      · have hless := turnsUntil_rotate hturn
        have hempty := ih h (show turnsUntil (rotate s.nextQueue) i < attempts by omega)
        rw [polled_queues_of_ne (Ne.symm hturn)] at hempty
        exact hempty

theorem nextQueue_drain_none (h : (drain attempts s).1 = none) :
    (drain attempts s).2.nextQueue = rotate^[attempts] s.nextQueue := by
  induction attempts generalizing s with
  | zero => rfl
  | succ attempts ih =>
    cases hpop : (s.queues s.nextQueue).tryPop.1 with
    | some out => rw [drain_of_pop hpop] at h; cases h
    | none =>
      rw [drain_of_empty hpop] at h ⊢
      rw [ih h, Function.iterate_succ_apply]
      rfl

/-- A drain that takes from another queue has brought the turn of a queue that is not empty nearer. -/
theorem drain_some {out : T} {source : Fin n} (h : (drain attempts s).1 = some (out, source))
    (hi : (s.queues i).emptyApprox = false) (hne : source ≠ i) :
    turnsUntil (drain attempts s).2.nextQueue i < turnsUntil s.nextQueue i := by
  induction attempts generalizing s with
  | zero => cases h
  | succ attempts ih =>
    cases hpop : (s.queues s.nextQueue).tryPop.1 with
    | some out' =>
      rw [drain_of_pop hpop] at h ⊢
      cases h
      have hless := turnsUntil_rotate hne
      show turnsUntil (rotate s.nextQueue) i < _
      omega
    | none =>
      rw [drain_of_empty hpop] at h ⊢
      have hturn : s.nextQueue ≠ i := by
        intro hturn
        rw [← hturn, SPSCRingBuffer.emptyApprox_of_tryPop hpop] at hi
        cases hi
      have hless := turnsUntil_rotate hturn
      have hrest := ih h (by rw [polled_queues_of_ne (Ne.symm hturn)]; exact hi)
      have hpolled : s.polled.nextQueue = rotate s.nextQueue := rfl
      rw [hpolled] at hrest
      omega

/-! ### The items of each producer -/

/-- The items `producer` has pushed, by the returns of the calls. -/
def pushedFrom (producer : Fin n) (rets : List (FanInReturn n T)) : List T :=
  rets.flatMap fun
    | .pushed p item => if p = producer then [item] else []
    | _ => []

/-- The items that have been drained with `producer` as their source. -/
def drainedFrom (producer : Fin n) (rets : List (FanInReturn n T)) : List T :=
  rets.flatMap fun
    | .drained out source => if source = producer then [out] else []
    | _ => []

/-- The number of successful drains. -/
def drains (rets : List (FanInReturn n T)) : Nat :=
  (rets.map fun
    | .drained _ _ => 1
    | _ => 0).sum

/-- The queues between two calls, after each producer's items have been pushed and drained. -/
def Carries (s : FanInSequencer n c T) (pushed drained : Fin n → List T) : Prop :=
  ∀ i, (s.queues i).Carries (pushed i) (drained i)

variable {pushed drained : Fin n → List T}

theorem Carries.polled (h : s.Carries pushed drained) :
    s.polled.Carries pushed fun i =>
      drained i ++ if s.nextQueue = i then (s.queues s.nextQueue).tryPop.1.toList else [] := by
  intro i
  dsimp only
  by_cases hturn : i = s.nextQueue
  · subst hturn
    rw [if_pos rfl, show s.polled.queues s.nextQueue = _ from Function.update_self ..]
    exact (h s.nextQueue).tryPop
  · rw [if_neg (Ne.symm hturn), List.append_nil, polled_queues_of_ne hturn]
    exact h i

theorem Carries.drain (h : s.Carries pushed drained) (attempts : Nat) :
    (drain attempts s).2.Carries pushed fun i =>
      drained i ++ ((drain attempts s).1.elim [] fun p => if p.2 = i then [p.1] else []) := by
  induction attempts generalizing s with
  | zero => simpa [FanInSequencer.drain] using h
  | succ attempts ih =>
    have hpolled := h.polled
    cases hpop : (s.queues s.nextQueue).tryPop.1 with
    | some out =>
      rw [hpop] at hpolled
      rw [drain_of_pop hpop]
      exact hpolled
    | none =>
      rw [hpop] at hpolled
      simp only [Option.toList_none, ite_self, List.append_nil] at hpolled
      rw [drain_of_empty hpop]
      exact ih hpolled

theorem Carries.pushFrom (h : s.Carries pushed drained) (producer : Fin n) (item : T) :
    (s.pushFrom producer item).2.Carries
      (fun i => pushed i ++ if producer = i ∧ (s.pushFrom producer item).1 = true then [item] else []) drained := by
  intro i
  unfold FanInSequencer.pushFrom
  dsimp only
  by_cases hi : i = producer
  · subst hi
    rw [Function.update_self]
    have hpush := (h i).tryPush item
    simpa using hpush
  · rw [Function.update_of_ne hi]
    simpa [Ne.symm hi] using h i

/-- The invariant in terms of the returns so far. -/
theorem Carries.call {rets : List (FanInReturn n T)}
    (h : s.Carries (fun i => pushedFrom i rets) fun i => drainedFrom i rets) (op : FanInCall n T) :
    ∃ ret s', s.call op = some (ret, s') ∧
      s'.Carries (fun i => pushedFrom i (rets ++ [ret])) fun i => drainedFrom i (rets ++ [ret]) := by
  cases op with
  | pushFrom producer item =>
    have hpush := h.pushFrom producer item
    refine ⟨_, _, s.call_pushFrom producer item, ?_⟩
    by_cases hok : (s.pushFrom producer item).1 = true <;> simpa [pushedFrom, drainedFrom, hok] using hpush
  | tryDrainOne =>
    have hdrain := h.drain n
    refine ⟨_, _, s.call_tryDrainOne, ?_⟩
    unfold tryDrainOne
    cases hres : (FanInSequencer.drain n s).1 with
    | none => simpa [pushedFrom, drainedFrom, hres] using hdrain
    | some p => simpa [pushedFrom, drainedFrom, hres] using hdrain

theorem carries_run (c : Capacity) (hn : 0 < n) (init : T) (ops : List (FanInCall n T)) :
    ∃ rets s, runAll call (new c hn init) ops = some (rets, s) ∧
      s.Carries (fun i => pushedFrom i rets) fun i => drainedFrom i rets := by
  refine runAll_history
    (fun _ rets (s : FanInSequencer n c T) => s.Carries (fun i => pushedFrom i rets) fun i => drainedFrom i rets) ?_
    ops _ fun _ => SPSCRingBuffer.carries_new init
  intro _ rets s op h
  exact h.call op

/-! ### Fairness -/

/-- If the call is a drain that succeeds, the queue `i` is not empty before it. -/
def Waiting (i : Fin n) (s : FanInSequencer n c T) (op : FanInCall n T) : Prop :=
  op = .tryDrainOne → s.tryDrainOne.1 ≠ none → (s.queues i).emptyApprox = false

/-- A call takes from the queue `i`, or brings its turn nearer if it is a successful drain. -/
theorem call_fair {op : FanInCall n T} (hwait : Waiting i s op) :
    ∃ ret s', s.call op = some (ret, s') ∧
      ((∃ out, ret = .drained out i) ∨ drains [ret] + turnsUntil s'.nextQueue i ≤ turnsUntil s.nextQueue i) := by
  cases op with
  | pushFrom producer item =>
    refine ⟨_, _, s.call_pushFrom producer item, Or.inr ?_⟩
    have hsame : (s.pushFrom producer item).2.nextQueue = s.nextQueue := rfl
    by_cases hok : (s.pushFrom producer item).1 = true <;> simp [drains, hok, hsame]
  | tryDrainOne =>
    refine ⟨_, _, s.call_tryDrainOne, ?_⟩
    cases hres : s.tryDrainOne.1 with
    | none =>
      -- a sweep over all queues ends where it has begun
      have hback : s.tryDrainOne.2.nextQueue = s.nextQueue :=
        (nextQueue_drain_none hres).trans (iterate_rotate_self _)
      exact Or.inr (by simp [drains, hback])
    | some p =>
      have hi := hwait rfl (by simp [hres])
      by_cases hsource : p.2 = i
      · exact Or.inl ⟨p.1, by rw [← hsource]; rfl⟩
      · have hless : turnsUntil s.tryDrainOne.2.nextQueue i < turnsUntil s.nextQueue i := drain_some hres hi hsource
        have hone : drains [(FanInReturn.drained p.1 p.2 : FanInReturn n T)] = 1 := rfl
        refine Or.inr ?_
        show drains [FanInReturn.drained p.1 p.2] + _ ≤ _
        omega

/-- Over a stretch of calls. -/
theorem run_fair {ops : List (FanInCall n T)} (hwait : AllSteps call (Waiting i) s ops) :
    ∃ rets s', runAll call s ops = some (rets, s') ∧
      ((∃ out, .drained out i ∈ rets) ∨ drains rets + turnsUntil s'.nextQueue i ≤ turnsUntil s.nextQueue i) := by
  induction ops generalizing s with
  | nil => exact ⟨[], s, rfl, Or.inr (by simp [drains])⟩
  | cons op ops ih =>
    obtain ⟨hop, hrest⟩ := hwait
    obtain ⟨ret, s₁, hcall, hone⟩ := call_fair hop
    rw [hcall] at hrest
    obtain ⟨rets, s', hrun, hmany⟩ := ih hrest
    refine ⟨ret :: rets, s', by rw [runAll_cons hcall, hrun]; rfl, ?_⟩
    rcases hone with hone | hone
    · obtain ⟨out, rfl⟩ := hone
      exact Or.inl ⟨out, List.mem_cons_self ..⟩
    · rcases hmany with hmany | hmany
      · obtain ⟨out, hout⟩ := hmany
        exact Or.inl ⟨out, List.mem_cons_of_mem _ hout⟩
      · refine Or.inr ?_
        have hsum : drains (ret :: rets) = drains [ret] + drains rets := by simp [drains]
        omega

/-- After any calls: what has been drained of each producer is a prefix of what it has pushed; a drain fails only if
all queues are empty; and in any further calls with as many successful drains as there are producers, each queue that
is not empty before any of these drains is the source of one of them. -/
theorem fan_in_ordered_fair (c : Capacity) (hn : 0 < n) (init : T) (ops : List (FanInCall n T)) :
    ∃ rets s, runAll call (new c hn init) ops = some (rets, s) ∧
      (∀ i, drainedFrom i rets <+: pushedFrom i rets) ∧
      (s.tryDrainOne.1 = none → ∀ i, (s.queues i).emptyApprox = true ∧ drainedFrom i rets = pushedFrom i rets) ∧
      ∀ i further, AllSteps call (Waiting i) s further →
        ∃ rets' s', runAll call s further = some (rets', s') ∧
          (n ≤ drains rets' → ∃ out, .drained out i ∈ rets') := by
  obtain ⟨rets, s, hrun, h⟩ := carries_run c hn init ops
  refine ⟨rets, s, hrun, fun i => (h i).fifo, ?_, ?_⟩
  · intro hnone i
    have hempty := drain_none hnone (turnsUntil_lt s.nextQueue i)
    have hlength := (h i).emptyApprox_iff.1 hempty
    exact ⟨hempty, (h i).fifo.eq_of_length hlength.symm⟩
  · intro i further hwait
    obtain ⟨rets', s', hrun', hfair⟩ := run_fair hwait
    refine ⟨rets', s', hrun', fun hmany => ?_⟩
    rcases hfair with hsource | hless
    · exact hsource
    · have hlt := turnsUntil_lt s.nextQueue i
      omega

theorem fan_in_ordered_fair_two :
    ∃ rets s, runAll call (new (n := 2) { log := 1, pos := by decide, lt := by decide } (by decide) 0)
        [.pushFrom 0 10, .pushFrom 1 11, .pushFrom 1 12] = some (rets, s) ∧
      ∃ rets' s', runAll call s [.tryDrainOne, .tryDrainOne] = some (rets', s') ∧
        ∃ out, .drained out 1 ∈ rets' := by
  obtain ⟨rets, s, hrun, -, -, hfair⟩ := fan_in_ordered_fair (n := 2) { log := 1, pos := by decide, lt := by decide }
    (by decide) 0 [.pushFrom 0 10, .pushFrom 1 11, .pushFrom 1 12]
  refine ⟨rets, s, hrun, ?_⟩
  cases hrun
  obtain ⟨rets', s', hrun', hsource⟩ := hfair 1 [.tryDrainOne, .tryDrainOne]
    ⟨fun _ _ => rfl, fun _ _ => rfl, trivial⟩
  refine ⟨rets', s', hrun', hsource ?_⟩
  cases hrun'
  decide

end FanInSequencer

end Exchange
