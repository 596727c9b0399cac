import Exchange.FanInSequencer

/-!
# The fan-in sequencer under any interleaving

`FanInSequencer` with its `NumProducers + 1` threads.  As in the model of `SPSCRingBuffer`, each access to something
two threads share is one step, and the steps of all producers and of the sequencer thread interleave in any way.  The
sequencer is in the `try_pop` of at most one queue, so its program counter there is kept with that queue; around it is
the loop of `try_drain_one`.

Per producer the drained items are a prefix of the pushed ones; `try_drain_one` returns `false` only if each queue has
been empty at some moment of the call; and an item that has been pushed is drained after a bounded number of steps of
the sequencer and behind a bounded number of other items.
-/

namespace Exchange

/-- How far a call of `try_drain_one` has come. -/
inductive Draining (n : Nat) where
  | idle
  | polling (attempt : Nat) (idx : Fin n)

/-- The queues, each with its producer and with the sequencer as far as it is in the `try_pop` of that queue. -/
structure FanInThreads (n : Nat) (c : Capacity) (T : Type) where
  queues : Fin n → Threads c T
  nextQueue : Fin n
  drain : Draining n := .idle

/-- Whose turn it is.  A producer between two calls begins `push_from` with the item. -/
inductive FanInTurn (n : Nat) (T : Type) where
  | producer (i : Fin n) (item : T)
  | sequencer

namespace FanInThreads

open FanInSequencer

variable {n : Nat} {c : Capacity} {T : Type}

def new (c : Capacity) (hn : 0 < n) (init : T) : FanInThreads n c T where
  queues := fun _ => Threads.new c init
  nextQueue := ⟨0, hn⟩

/-- What a step within one queue leaves behind. -/
def set (s : FanInThreads n c T) (i : Fin n) (t : Threads c T) : FanInThreads n c T :=
  { s with queues := Function.update s.queues i t }

/-- The head of the loop: the queue whose turn it is is polled, and the turn moves on. -/
def poll (s : FanInThreads n c T) (attempt : Nat) : FanInThreads n c T :=
  { s with nextQueue := rotate s.nextQueue, drain := .polling attempt s.nextQueue }

def stepProducer (s : FanInThreads n c T) (i : Fin n) (item : T) : Option (FanInReturn n T) × FanInThreads n c T :=
  let (ret, t) := (s.queues i).stepProducer item
  let s := s.set i t
  match ret with
  | some (.pushed item) => (some (.pushed i item), s)
  | some .full => (some (.full i), s)
  | _ => (none, s)

def stepSequencer (s : FanInThreads n c T) : Option (FanInReturn n T) × FanInThreads n c T :=
  match s.drain with
  | .idle => (none, s.poll 0)
  | .polling attempt idx =>
    let (ret, t) := (s.queues idx).stepConsumer
    let s := s.set idx t
    match ret with
    | some (.popped out) => (some (.drained out idx), { s with drain := .idle })
    | some .empty =>
      if attempt + 1 < n then (none, s.poll (attempt + 1)) else (some .empty, { s with drain := .idle })
    | _ => (none, s)

def step (s : FanInThreads n c T) : FanInTurn n T → Option (Option (FanInReturn n T) × FanInThreads n c T)
  | .producer i item => some (s.stepProducer i item)
  | .sequencer => some s.stepSequencer

/-- The calls that have returned. -/
def returns (outs : List (Option (FanInReturn n T))) : List (FanInReturn n T) := outs.filterMap id

/-! ### What a step can do -/

end FanInThreads

/-- The steps that are left until `try_pop` returns, at most. -/
def TryPop.stepsLeft {T : Type} : TryPop T → Nat
  | .idle => 4
  | .loadHead _ => 3
  | .readSlot _ => 2
  | .storeTail _ _ => 1

section

variable {c : Capacity} {T : Type}

/-- A step of `try_pop` goes on, returns a value or returns `false`. -/
theorem Threads.stepConsumer_cases (t : Threads c T) :
    (t.stepConsumer.1 = none ∧ t.stepConsumer.2.pop.stepsLeft < t.pop.stepsLeft) ∨
    (∃ out, t.stepConsumer.1 = some (.popped out) ∧ t.stepConsumer.2.pop = .idle) ∨
    (t.stepConsumer.1 = some .empty ∧ t.stepConsumer.2.pop = .idle) := by
  unfold Threads.stepConsumer
  cases hpc : t.pop with
  | idle =>
    dsimp only
    split_ifs
    · exact Or.inl ⟨rfl, by simp [TryPop.stepsLeft]⟩
    · exact Or.inl ⟨rfl, by simp [TryPop.stepsLeft]⟩
  | loadHead tail =>
    dsimp only
    split_ifs
    · exact Or.inr (Or.inr ⟨rfl, rfl⟩)
    · exact Or.inl ⟨rfl, by simp [TryPop.stepsLeft]⟩
  | readSlot tail => exact Or.inl ⟨rfl, by simp [TryPop.stepsLeft]⟩
  | storeTail tail out => exact Or.inr (Or.inl ⟨out, rfl, rfl⟩)

/-- A step of `try_push` goes on, returns `true` or returns `false`. -/
theorem Threads.stepProducer_cases (t : Threads c T) (item : T) :
    (t.stepProducer item).2.pop = t.pop ∧
      ((t.stepProducer item).1 = none ∨ (∃ x, (t.stepProducer item).1 = some (.pushed x)) ∨
        (t.stepProducer item).1 = some .full) := by
  unfold Threads.stepProducer
  cases t.push with
  | idle => dsimp only; split_ifs <;> simp
  | loadTail item head => dsimp only; split_ifs <;> simp
  | writeSlot item head => simp
  | storeHead item head => simp

end

namespace FanInThreads

open FanInSequencer

variable {n : Nat} {c : Capacity} {T : Type} {s : FanInThreads n c T}

theorem set_queues_self (s : FanInThreads n c T) (i : Fin n) (t : Threads c T) : (s.set i t).queues i = t :=
  Function.update_self ..

theorem set_queues_of_ne {i j : Fin n} (h : j ≠ i) (t : Threads c T) : (s.set i t).queues j = s.queues j :=
  Function.update_of_ne h _ _

/-- A step of a producer is a step within its queue. -/
theorem stepProducer_eq (s : FanInThreads n c T) (i : Fin n) (item : T) :
    (s.stepProducer i item).2 = s.set i ((s.queues i).stepProducer item).2 ∧
      (((s.stepProducer i item).1 = none ∧ ((s.queues i).stepProducer item).1 = none) ∨
        (∃ x, (s.stepProducer i item).1 = some (.pushed i x) ∧
          ((s.queues i).stepProducer item).1 = some (.pushed x)) ∨
        ((s.stepProducer i item).1 = some (.full i) ∧ ((s.queues i).stepProducer item).1 = some .full)) := by
  obtain ⟨-, hret⟩ := (s.queues i).stepProducer_cases item
  unfold stepProducer
  dsimp only
  rcases hret with hret | ⟨x, hret⟩ | hret
  · rw [hret]
    exact ⟨rfl, Or.inl ⟨rfl, rfl⟩⟩
  · rw [hret]
    exact ⟨rfl, Or.inr (Or.inl ⟨x, rfl, rfl⟩)⟩
  · rw [hret]
    exact ⟨rfl, Or.inr (Or.inr ⟨rfl, rfl⟩)⟩

theorem stepSequencer_idle (h : s.drain = .idle) : s.stepSequencer = (none, s.poll 0) := by
  unfold stepSequencer
  rw [h]

section

variable {attempt : Nat} {idx : Fin n} {t : Threads c T}

theorem stepSequencer_within (h : s.drain = .polling attempt idx) (ht : (s.queues idx).stepConsumer = (none, t)) :
    s.stepSequencer = (none, s.set idx t) := by
  unfold stepSequencer
  rw [h]
  dsimp only
  rw [ht]

theorem stepSequencer_popped {out : T} (h : s.drain = .polling attempt idx)
    (ht : (s.queues idx).stepConsumer = (some (.popped out), t)) :
    s.stepSequencer = (some (.drained out idx), { s.set idx t with drain := .idle }) := by
  unfold stepSequencer
  rw [h]
  dsimp only
  rw [ht]

theorem stepSequencer_empty (h : s.drain = .polling attempt idx)
    (ht : (s.queues idx).stepConsumer = (some .empty, t)) :
    s.stepSequencer = if attempt + 1 < n then (none, (s.set idx t).poll (attempt + 1))
      else (some .empty, { s.set idx t with drain := .idle }) := by
  unfold stepSequencer
  rw [h]
  dsimp only
  rw [ht]

/-- What a step of the sequencer within the `try_pop` of the queue `idx` does: it goes on, drains an item, turns to
the next queue or gives up. -/
theorem stepSequencer_cases (h : s.drain = .polling attempt idx) (ht : (s.queues idx).stepConsumer.2 = t) :
    ((s.queues idx).stepConsumer.1 = none ∧ t.pop.stepsLeft < (s.queues idx).pop.stepsLeft ∧
      s.stepSequencer = (none, s.set idx t)) ∨
    (∃ out, (s.queues idx).stepConsumer.1 = some (.popped out) ∧ t.pop = .idle ∧
      s.stepSequencer = (some (.drained out idx), { s.set idx t with drain := .idle })) ∨
    ((s.queues idx).stepConsumer.1 = some .empty ∧ t.pop = .idle ∧ attempt + 1 < n ∧
      s.stepSequencer = (none, (s.set idx t).poll (attempt + 1))) ∨
    ((s.queues idx).stepConsumer.1 = some .empty ∧ t.pop = .idle ∧ n ≤ attempt + 1 ∧
      s.stepSequencer = (some .empty, { s.set idx t with drain := .idle })) := by
  have hcases := (s.queues idx).stepConsumer_cases
  rw [ht] at hcases
  rcases hcases with ⟨hret, hless⟩ | ⟨out, hret, hpop⟩ | ⟨hret, hpop⟩
  · exact Or.inl ⟨hret, hless, stepSequencer_within h (Prod.ext hret ht)⟩
  · exact Or.inr (Or.inl ⟨out, hret, hpop, stepSequencer_popped h (Prod.ext hret ht)⟩)
  · have hstep := stepSequencer_empty h (Prod.ext hret ht)
    by_cases hmore : attempt + 1 < n
    · rw [if_pos hmore] at hstep
      exact Or.inr (Or.inr (Or.inl ⟨hret, hpop, hmore, hstep⟩))
    · rw [if_neg hmore] at hstep
      exact Or.inr (Or.inr (Or.inr ⟨hret, hpop, by omega, hstep⟩))

end

/-! ### What a state tells about the calls so far -/

/-- The state after each producer's items `pushed` have been pushed and `drained` have been drained.  The sequencer
is within the `try_pop` of no queue but the one it polls, and it has moved the turn on. -/
structure Tracks (s : FanInThreads n c T) (pushed drained : Fin n → List T) : Prop where
  queue : ∀ i, ∃ seenTail seenHead, (s.queues i).Tracks (pushed i) (drained i) seenTail seenHead
  pop_idle : ∀ i, (∀ attempt, s.drain ≠ .polling attempt i) → (s.queues i).pop = .idle
  attempt_lt : ∀ attempt idx, s.drain = .polling attempt idx → attempt < n
  turn : ∀ attempt idx, s.drain = .polling attempt idx → s.nextQueue = rotate idx

theorem tracks_new (c : Capacity) (hn : 0 < n) (init : T) :
    (FanInThreads.new c hn init).Tracks (fun _ => []) fun _ => [] where
  queue := fun _ => ⟨0, 0, Exchange.tracks_new c init⟩
  pop_idle := fun _ _ => rfl
  attempt_lt := by rintro _ _ ⟨⟩
  turn := by rintro _ _ ⟨⟩

namespace Tracks

variable {pushed drained : Fin n → List T}

theorem fifo (h : s.Tracks pushed drained) (i : Fin n) : drained i <+: pushed i := by
  obtain ⟨_, _, htracks⟩ := h.queue i
  exact htracks.fifo

/-- After a step within the queue `i` that pushes `xs` and drains `ys`. -/
theorem queue_set (h : s.Tracks pushed drained) {i : Fin n} {t : Threads c T} {xs ys : List T}
    (ht : ∃ seenTail seenHead, t.Tracks (pushed i ++ xs) (drained i ++ ys) seenTail seenHead) (j : Fin n) :
    ∃ seenTail seenHead, ((s.set i t).queues j).Tracks (pushed j ++ if i = j then xs else [])
      (drained j ++ if i = j then ys else []) seenTail seenHead := by
  by_cases hj : j = i
  · subst hj
    rw [set_queues_self, if_pos rfl, if_pos rfl]
    exact ht
  · rw [set_queues_of_ne hj, if_neg (Ne.symm hj), if_neg (Ne.symm hj), List.append_nil, List.append_nil]
    exact h.queue j

theorem stepProducer (h : s.Tracks pushed drained) (i : Fin n) (item : T) :
    (s.stepProducer i item).2.Tracks (fun j => pushed j ++ pushedFrom j (s.stepProducer i item).1.toList)
      fun j => drained j ++ drainedFrom j (s.stepProducer i item).1.toList := by
  obtain ⟨hstate, hret⟩ := s.stepProducer_eq i item
  obtain ⟨hpop, -⟩ := (s.queues i).stepProducer_cases item
  obtain ⟨_, seenHead, htracks⟩ := h.queue i
  obtain ⟨⟨seenTail', htracks'⟩, -⟩ := htracks.stepProducer item
  rw [hstate]
  refine ⟨?_, ?_, h.attempt_lt, h.turn⟩
  · intro j
    have hqueue := h.queue_set ⟨seenTail', seenHead, htracks'⟩ j
    rcases hret with ⟨hret, hret'⟩ | ⟨x, hret, hret'⟩ | ⟨hret, hret'⟩
    · simpa [pushedFrom, drainedFrom, hret, hret'] using hqueue
    · simpa [pushedFrom, drainedFrom, hret, hret'] using hqueue
    · simpa [pushedFrom, drainedFrom, hret, hret'] using hqueue
  · intro j hj
    by_cases hji : j = i
    · subst hji
      rw [set_queues_self, hpop]
      exact h.pop_idle j hj
    · rw [set_queues_of_ne hji]
      exact h.pop_idle j hj

/-- After the `try_pop` of the queue `idx` has returned, the sequencer is within the `try_pop` of no queue. -/
theorem set_pop_idle (h : s.Tracks pushed drained) {attempt : Nat} {idx : Fin n}
    (hdrain : s.drain = .polling attempt idx) {t : Threads c T} (ht : t.pop = .idle) (j : Fin n) :
    ((s.set idx t).queues j).pop = .idle := by
  by_cases hj : j = idx
  · subst hj
    rw [set_queues_self]
    exact ht
  · rw [set_queues_of_ne hj]
    refine h.pop_idle j fun attempt' hother => hj ?_
    rw [hdrain] at hother
    cases hother
    rfl

/-- Between two attempts the next queue can be polled. -/
theorem poll (hqueue : ∀ i, ∃ seenTail seenHead, (s.queues i).Tracks (pushed i) (drained i) seenTail seenHead)
    (hpop : ∀ i, (s.queues i).pop = .idle) {attempt : Nat} (hattempt : attempt < n) :
    (s.poll attempt).Tracks pushed drained where
  queue := hqueue
  pop_idle := fun i _ => hpop i
  attempt_lt := by
    rintro _ _ ⟨⟩
    exact hattempt
  turn := by
    rintro _ _ ⟨⟩
    rfl

theorem toIdle (hqueue : ∀ i, ∃ seenTail seenHead, (s.queues i).Tracks (pushed i) (drained i) seenTail seenHead)
    (hpop : ∀ i, (s.queues i).pop = .idle) :
    ({ s with drain := .idle } : FanInThreads n c T).Tracks pushed drained where
  queue := hqueue
  pop_idle := fun i _ => hpop i
  attempt_lt := by rintro _ _ ⟨⟩
  turn := by rintro _ _ ⟨⟩

theorem stepSequencer (h : s.Tracks pushed drained) :
    s.stepSequencer.2.Tracks (fun j => pushed j ++ pushedFrom j s.stepSequencer.1.toList)
      fun j => drained j ++ drainedFrom j s.stepSequencer.1.toList := by
  cases hdrain : s.drain with
  | idle =>
    have hpop : ∀ i, (s.queues i).pop = .idle := fun i => h.pop_idle i (by simp [hdrain])
    rw [stepSequencer_idle hdrain]
    simpa [pushedFrom, drainedFrom] using poll h.queue hpop s.nextQueue.pos
  | polling attempt idx =>
    obtain ⟨seenTail, _, htracks⟩ := h.queue idx
    obtain ⟨⟨seenHead', htracks'⟩, -⟩ := htracks.stepConsumer
    have hqueue := h.queue_set ⟨seenTail, seenHead', htracks'⟩
    have hidle := fun ht => h.set_pop_idle (t := (s.queues idx).stepConsumer.2) hdrain ht
    rcases stepSequencer_cases hdrain rfl with
      ⟨hret, -, hstep⟩ | ⟨out, hret, hpop, hstep⟩ | ⟨hret, hpop, hmore, hstep⟩ | ⟨hret, hpop, -, hstep⟩
    · rw [hstep]
      refine ⟨?_, ?_, h.attempt_lt, h.turn⟩
      · simpa [pushedFrom, drainedFrom, hret] using hqueue
      · intro j hj
        have hne : j ≠ idx := fun heq => hj attempt (by rw [heq]; exact hdrain)
        rw [set_queues_of_ne hne]
        exact h.pop_idle j hj
    · rw [hstep]
      refine toIdle ?_ (hidle hpop)
      simpa [pushedFrom, drainedFrom, hret] using hqueue
    · rw [hstep]
      refine poll ?_ (hidle hpop) hmore
      simpa [pushedFrom, drainedFrom, hret] using hqueue
    · rw [hstep]
      refine toIdle ?_ (hidle hpop)
      simpa [pushedFrom, drainedFrom, hret] using hqueue

theorem step (h : s.Tracks pushed drained) (turn : FanInTurn n T) :
    ∃ out s', s.step turn = some (out, s') ∧
      s'.Tracks (fun j => pushed j ++ pushedFrom j out.toList) fun j => drained j ++ drainedFrom j out.toList := by
  cases turn with
  | producer i item => exact ⟨_, _, rfl, h.stepProducer i item⟩
  | sequencer => exact ⟨_, _, rfl, h.stepSequencer⟩

end Tracks

/-! ### Every interleaving -/

theorem returns_append (outs outs' : List (Option (FanInReturn n T))) :
    returns (outs ++ outs') = returns outs ++ returns outs' :=
  List.filterMap_append

theorem returns_singleton (out : Option (FanInReturn n T)) : returns [out] = out.toList := by
  cases out <;> rfl

theorem pushedFrom_append (i : Fin n) (rets rets' : List (FanInReturn n T)) :
    pushedFrom i (rets ++ rets') = pushedFrom i rets ++ pushedFrom i rets' :=
  List.flatMap_append

theorem drainedFrom_append (i : Fin n) (rets rets' : List (FanInReturn n T)) :
    drainedFrom i (rets ++ rets') = drainedFrom i rets ++ drainedFrom i rets' :=
  List.flatMap_append

/-- The invariant over the returns `rets` so far. -/
def Reached (s : FanInThreads n c T) (rets : List (FanInReturn n T)) : Prop :=
  s.Tracks (fun i => pushedFrom i rets) fun i => drainedFrom i rets

theorem Reached.step {rets : List (FanInReturn n T)} (h : s.Reached rets) (turn : FanInTurn n T) :
    ∃ out s', s.step turn = some (out, s') ∧ s'.Reached (rets ++ out.toList) := by
  obtain ⟨out, s', hstep, h'⟩ := Tracks.step h turn
  refine ⟨out, s', hstep, ?_⟩
  unfold Reached
  simpa only [pushedFrom_append, drainedFrom_append] using h'

theorem Reached.run {rets : List (FanInReturn n T)} (h : s.Reached rets) (turns : List (FanInTurn n T)) :
    ∃ outs s', runAll FanInThreads.step s turns = some (outs, s') ∧ s'.Reached (rets ++ returns outs) :=
  runAll_returns (fun rets (s : FanInThreads n c T) => s.Reached rets) (fun _ _ turn h => h.step turn) turns h

theorem reached_new (c : Capacity) (hn : 0 < n) (init : T) (turns : List (FanInTurn n T)) :
    ∃ outs s, runAll step (FanInThreads.new c hn init) turns = some (outs, s) ∧ s.Reached (returns outs) := by
  have h : (FanInThreads.new c hn init).Reached ([] : List (FanInReturn n T)) := tracks_new c hn init
  simpa using Reached.run h turns

/-- After any turns of the producers and the sequencer, for each producer: the drained items are a prefix of the
pushed ones, at most `QueueCapacity` items are in between and they are in their slots; and the slot the producer is
about to write, or has written without having stored the head, is not the slot the sequencer is about to read. -/
theorem fan_in_interleaved (c : Capacity) (hn : 0 < n) (init : T) (turns : List (FanInTurn n T)) :
    ∃ outs s, runAll step (FanInThreads.new c hn init) turns = some (outs, s) ∧ ∀ i,
      drainedFrom i (returns outs) <+: pushedFrom i (returns outs) ∧
      (pushedFrom i (returns outs)).length ≤ (drainedFrom i (returns outs)).length + c.value ∧
      (∀ k, (drainedFrom i (returns outs)).length ≤ k → k < (pushedFrom i (returns outs)).length →
        (pushedFrom i (returns outs))[k]? = some ((s.queues i).ring.buffer (c.slot (UInt64.ofNat k)))) ∧
      ∀ item head tail, (s.queues i).push = .writeSlot item head ∨ (s.queues i).push = .storeHead item head →
        (s.queues i).pop = .readSlot tail → c.slot head ≠ c.slot tail := by
  obtain ⟨outs, s, hrun, h⟩ := reached_new c hn init turns
  refine ⟨outs, s, hrun, fun i => ?_⟩
  obtain ⟨seenTail, seenHead, htracks⟩ := h.queue i
  have hseen := htracks.seenTail_le
  have hroom := htracks.room
  exact ⟨htracks.fifo, by omega, htracks.slots, fun item head tail => htracks.slot_ne⟩

theorem fan_in_interleaved_two :
    ∃ outs s, runAll step (FanInThreads.new (n := 2) { log := 1, pos := by decide, lt := by decide } (by decide) 0)
        [.sequencer, .producer 1 7, .sequencer, .producer 1 7, .producer 1 7] = some (outs, s) ∧
      drainedFrom 1 (returns outs) <+: pushedFrom 1 (returns outs) := by
  obtain ⟨outs, s, hrun, h⟩ := fan_in_interleaved (n := 2) { log := 1, pos := by decide, lt := by decide } (by decide)
    0 [.sequencer, .producer 1 7, .sequencer, .producer 1 7, .producer 1 7]
  exact ⟨outs, s, hrun, (h 1).1⟩

/-! ### A failed drain -/

/-- The call that has returned is one of the sequencer. -/
def ofSequencer : FanInReturn n T → Bool
  | .drained _ _ => true
  | .empty => true
  | _ => false

/-- Within a call of `try_drain_one` that began with the turn of the queue `start`, after the returns `rets`: each
queue polled so far has been empty at the beginning. -/
structure Sought (start : Fin n) (rets : List (FanInReturn n T)) (s : FanInThreads n c T) : Prop where
  fifo : ∀ i, drainedFrom i rets <+: pushedFrom i rets
  idle : s.drain = .idle → s.nextQueue = start
  polling : ∀ attempt idx, s.drain = .polling attempt idx → idx = rotate^[attempt] start ∧
    ∀ k, k < attempt → drainedFrom (rotate^[k] start) rets = pushedFrom (rotate^[k] start) rets

theorem drainedFrom_of_open {rets : List (FanInReturn n T)} (h : ∀ ret ∈ rets, ofSequencer ret = false) (i : Fin n) :
    drainedFrom i rets = [] := by
  unfold drainedFrom
  rw [List.flatMap_eq_nil_iff]
  intro ret hret
  cases ret with
  | drained out source => exact absurd (h _ hret) (by simp [ofSequencer])
  | _ => rfl

section

variable {start : Fin n} {rets during : List (FanInReturn n T)}

/-- A `try_pop` that returns `false` has found its queue empty.  Nothing has been drained since the call began, so
that the queue has been empty since then. -/
theorem Reached.empty_since (h : s.Reached (rets ++ during)) (hfifo : ∀ i, drainedFrom i rets <+: pushedFrom i rets)
    (hopen : ∀ ret ∈ during, ofSequencer ret = false) {idx : Fin n}
    (hempty : (s.queues idx).stepConsumer.1 = some .empty) : drainedFrom idx rets = pushedFrom idx rets := by
  obtain ⟨_, _, htracks⟩ := h.queue idx
  have hlength := htracks.stepConsumer.2 hempty
  rw [drainedFrom_append, drainedFrom_of_open hopen, List.append_nil, pushedFrom_append, List.length_append] at hlength
  have hle := (hfifo idx).length_le
  exact (hfifo idx).eq_of_length (by omega)

theorem Sought.step (hsought : s.Sought start rets) (h : s.Reached (rets ++ during))
    (hopen : ∀ ret ∈ during, ofSequencer ret = false) {turn : FanInTurn n T} {out : Option (FanInReturn n T)}
    {s' : FanInThreads n c T} (hstep : s.step turn = some (out, s')) (hout : ∀ ret ∈ out, ofSequencer ret = false) :
    s'.Sought start rets := by
  cases turn with
  | producer i item =>
    have hs' : (s.stepProducer i item).2 = s' := congrArg Prod.snd (Option.some.inj hstep)
    rw [← hs', (s.stepProducer_eq i item).1]
    exact ⟨hsought.fifo, hsought.idle, hsought.polling⟩
  | sequencer =>
    have heq : s.stepSequencer = (out, s') := Option.some.inj hstep
    cases hdrain : s.drain with
    | idle =>
      rw [stepSequencer_idle hdrain] at heq
      cases heq
      refine ⟨hsought.fifo, by rintro ⟨⟩, ?_⟩
      rintro _ _ ⟨⟩
      exact ⟨hsought.idle hdrain, fun k hk => absurd hk (Nat.not_lt_zero k)⟩
    | polling attempt idx =>
      obtain ⟨hidx, hbefore⟩ := hsought.polling attempt idx hdrain
      rcases stepSequencer_cases hdrain rfl with
        ⟨-, -, hstep⟩ | ⟨x, -, -, hstep⟩ | ⟨hret, -, -, hstep⟩ | ⟨-, -, -, hstep⟩
      · rw [heq] at hstep
        cases hstep
        exact ⟨hsought.fifo, hsought.idle, hsought.polling⟩
      · rw [heq] at hstep
        cases hstep
        cases hout _ rfl
      · rw [heq] at hstep
        cases hstep
        refine ⟨hsought.fifo, by rintro ⟨⟩, ?_⟩
        rintro _ _ ⟨⟩
        constructor
        · show s.nextQueue = _
          rw [h.turn attempt idx hdrain, hidx, Function.iterate_succ_apply']
        · intro k hk
          rcases Nat.lt_succ_iff_lt_or_eq.1 hk with hlt | rfl
          · exact hbefore k hlt
          · rw [← hidx]
            exact h.empty_since hsought.fifo hopen hret
      · rw [heq] at hstep
        cases hstep
        cases hout _ rfl

theorem Sought.run (hsought : s.Sought start rets) (h : s.Reached rets) {turns : List (FanInTurn n T)}
    {outs : List (Option (FanInReturn n T))} {s' : FanInThreads n c T}
    (hrun : runAll FanInThreads.step s turns = some (outs, s'))
    (hopen : ∀ ret ∈ returns outs, ofSequencer ret = false) :
    s'.Reached (rets ++ returns outs) ∧ s'.Sought start rets := by
  have hkeeps := runAll_keeps
    (fun _ outs (s : FanInThreads n c T) => s.Reached (rets ++ returns outs) ∧
      ((∀ ret ∈ returns outs, ofSequencer ret = false) → s.Sought start rets)) ?_
    ⟨by simpa [returns] using h, fun _ => hsought⟩ hrun
  · exact ⟨hkeeps.1, hkeeps.2 hopen⟩
  · rintro _ outs s turn out s' ⟨h, hsought⟩ hstep
    obtain ⟨out', s'', hstep', h'⟩ := h.step turn
    rw [hstep] at hstep'
    cases hstep'
    rw [returns_append, returns_singleton]
    refine ⟨by rw [← List.append_assoc]; exact h', fun hopen => ?_⟩
    have hopen' : ∀ ret ∈ returns outs, ofSequencer ret = false :=
      fun ret hret => hopen ret (List.mem_append_left _ hret)
    refine (hsought hopen').step h hopen' hstep fun ret hret => hopen ret ?_
    exact List.mem_append_right _ (Option.mem_toList.2 hret)

end

/-- A call of `try_drain_one` returns `false` only if all queues have been empty at once, namely when it began: after
any turns that leave the sequencer between two calls, and any further turns in which none of its calls returns, if its
next step returns `false` then all that had been pushed by then had been drained. -/
theorem failed_drain_found_all_empty (c : Capacity) (hn : 0 < n) (init : T) (turns during : List (FanInTurn n T))
    {outs outs' : List (Option (FanInReturn n T))} {s s' : FanInThreads n c T}
    (hrun : runAll step (FanInThreads.new c hn init) turns = some (outs, s)) (hidle : s.drain = .idle)
    (hrun' : runAll step s during = some (outs', s')) (hopen : ∀ ret ∈ returns outs', ofSequencer ret = false)
    (hfail : s'.stepSequencer.1 = some .empty) (i : Fin n) :
    drainedFrom i (returns outs) = pushedFrom i (returns outs) := by
  obtain ⟨_, _, hreach, h⟩ := reached_new c hn init turns
  rw [hrun] at hreach
  cases hreach
  have hstart : s.Sought s.nextQueue (returns outs) := by
    exact ⟨h.fifo, fun _ => rfl, by rw [hidle]; rintro _ _ ⟨⟩⟩
  obtain ⟨h', hsought⟩ := hstart.run h hrun' hopen
  cases hdrain : s'.drain with
  | idle => rw [stepSequencer_idle hdrain] at hfail; cases hfail
  | polling attempt idx =>
    obtain ⟨hidx, hbefore⟩ := hsought.polling attempt idx hdrain
    rcases stepSequencer_cases hdrain rfl with
      ⟨-, -, hstep⟩ | ⟨x, -, -, hstep⟩ | ⟨-, -, -, hstep⟩ | ⟨hret, -, hlast, -⟩
    · rw [hstep] at hfail; cases hfail
    · rw [hstep] at hfail; cases hfail
    · rw [hstep] at hfail; cases hfail
    · -- the attempts have gone once round
      rw [← iterate_rotate_turnsUntil s.nextQueue i]
      have hturns := turnsUntil_lt s.nextQueue i
      by_cases hk : turnsUntil s.nextQueue i < attempt
      · exact hbefore _ hk
      · have heq : turnsUntil s.nextQueue i = attempt := by omega
        rw [heq, ← hidx]
        exact h'.empty_since hsought.fifo hopen hret

/-- An item of the first producer is drained; in the next call, the second producer publishes an item just after its
queue has been found empty, and the call still returns `false`. -/
theorem failed_drain_found_all_empty_late :
    ∃ outs s, runAll step (FanInThreads.new (n := 2) { log := 1, pos := by decide, lt := by decide } (by decide) 0)
        [.producer 0 6, .producer 0 6, .producer 0 6, .sequencer, .sequencer, .sequencer, .sequencer, .sequencer] =
        some (outs, s) ∧
      drainedFrom 0 (returns outs) = pushedFrom 0 (returns outs) := by
  have hruns : ∃ outs s,
      runAll step (FanInThreads.new (n := 2) { log := 1, pos := by decide, lt := by decide } (by decide) 0)
        [.producer 0 6, .producer 0 6, .producer 0 6, .sequencer, .sequencer, .sequencer, .sequencer, .sequencer] =
        some (outs, s) ∧ s.drain = .idle ∧
      ∃ outs' s',
        runAll step s [.sequencer, .sequencer, .sequencer, .producer 1 7, .producer 1 7, .producer 1 7, .sequencer] =
          some (outs', s') ∧
        returns outs' = [.pushed 1 7] ∧ s'.stepSequencer.1 = some .empty := ⟨_, _, rfl, rfl, _, _, rfl, rfl, rfl⟩
  obtain ⟨outs, s, hrun, hidle, outs', s', hrun', hreturns, hfail⟩ := hruns
  have hopen : ∀ ret ∈ returns outs', ofSequencer ret = false := by rw [hreturns]; simp [ofSequencer]
  exact ⟨outs, s, hrun, failed_drain_found_all_empty _ _ 0 _ _ hrun hidle hrun' hopen hfail 0⟩

/-! ### How long an item waits -/

/-- The steps of the sequencer until it drains an item of the queue `i`, at most, if there is one. -/
def stepsUntil (i : Fin n) (s : FanInThreads n c T) : Nat :=
  match s.drain with
  | .idle => 5 * turnsUntil s.nextQueue i + 5
  | .polling _ idx =>
    if idx = i then (s.queues idx).pop.stepsLeft
    else (s.queues idx).pop.stepsLeft + 5 * (turnsUntil s.nextQueue i + 1)

/-- The items of other queues it drains until then, at most. -/
def bypasses (i : Fin n) (s : FanInThreads n c T) : Nat :=
  match s.drain with
  | .idle => turnsUntil s.nextQueue i
  | .polling _ idx => if idx = i then 0 else turnsUntil s.nextQueue i + 1

def sequencerTurns : List (FanInTurn n T) → Nat
  | [] => 0
  | .producer _ _ :: turns => sequencerTurns turns
  | .sequencer :: turns => sequencerTurns turns + 1

section

variable {i : Fin n}

theorem stepsLeft_pos (pop : TryPop T) : 0 < pop.stepsLeft := by cases pop <;> simp [TryPop.stepsLeft]

theorem stepsLeft_le (pop : TryPop T) : pop.stepsLeft ≤ 4 := by cases pop <;> simp [TryPop.stepsLeft]

theorem stepsUntil_pos (i : Fin n) (s : FanInThreads n c T) : 0 < s.stepsUntil i := by
  unfold stepsUntil
  cases s.drain with
  | idle => dsimp only; omega
  | polling attempt idx =>
    have hpos := stepsLeft_pos (s.queues idx).pop
    dsimp only
    split_ifs <;> omega

theorem stepsUntil_le (i : Fin n) (s : FanInThreads n c T) : s.stepsUntil i ≤ 5 * n + 4 := by
  have hlt := turnsUntil_lt s.nextQueue i
  unfold stepsUntil
  cases s.drain with
  | idle => dsimp only; omega
  | polling attempt idx =>
    have hle := stepsLeft_le (s.queues idx).pop
    dsimp only
    split_ifs <;> omega

theorem bypasses_le (i : Fin n) (s : FanInThreads n c T) : s.bypasses i ≤ n := by
  have hlt := turnsUntil_lt s.nextQueue i
  unfold bypasses
  cases s.drain with
  | idle => dsimp only; omega
  | polling attempt idx =>
    dsimp only
    split_ifs <;> omega

/-- Polling the next queue brings the turn of the queue `i` nearer. -/
theorem poll_near (hpop : (s.queues s.nextQueue).pop = .idle) (attempt : Nat) (i : Fin n) :
    (s.poll attempt).stepsUntil i < 5 * turnsUntil s.nextQueue i + 5 ∧
      (s.poll attempt).bypasses i ≤ turnsUntil s.nextQueue i := by
  have hleft : (s.queues s.nextQueue).pop.stepsLeft = 4 := by rw [hpop]; rfl
  unfold stepsUntil bypasses poll
  dsimp only
  by_cases hturn : s.nextQueue = i
  · rw [if_pos hturn, if_pos hturn]
    omega
  · have hless := turnsUntil_rotate hturn
    rw [if_neg hturn, if_neg hturn]
    omega

/-- The steps of a producer change nothing about that. -/
theorem stepProducer_near (s : FanInThreads n c T) (j : Fin n) (item : T) (i : Fin n) :
    (s.stepProducer j item).2.stepsUntil i = s.stepsUntil i ∧
      (s.stepProducer j item).2.bypasses i = s.bypasses i ∧ drains (s.stepProducer j item).1.toList = 0 ∧
      drainedFrom i (s.stepProducer j item).1.toList = [] := by
  obtain ⟨hstate, hret⟩ := s.stepProducer_eq j item
  obtain ⟨hpop, -⟩ := (s.queues j).stepProducer_cases item
  have hsame : ∀ k, ((s.stepProducer j item).2.queues k).pop = (s.queues k).pop := by
    intro k
    rw [hstate]
    by_cases hk : k = j
    · subst hk
      rw [set_queues_self, hpop]
    · rw [set_queues_of_ne hk]
  have hdrain : (s.stepProducer j item).2.drain = s.drain := by rw [hstate]; rfl
  have hnext : (s.stepProducer j item).2.nextQueue = s.nextQueue := by rw [hstate]; rfl
  refine ⟨?_, ?_, ?_⟩
  · unfold stepsUntil
    simp only [hdrain, hnext, hsame]
  · unfold bypasses
    rw [hdrain, hnext]
  · rcases hret with ⟨hret, -⟩ | ⟨x, hret, -⟩ | ⟨hret, -⟩ <;> rw [hret] <;> exact ⟨rfl, rfl⟩

/-- While an item of the queue `i` waits, every step of the sequencer drains one or comes nearer to it. -/
theorem Tracks.stepSequencer_near {pushed drained : Fin n → List T} (h : s.Tracks pushed drained)
    (hi : (drained i).length < (pushed i).length) :
    (∃ out, s.stepSequencer.1 = some (.drained out i)) ∨
      (s.stepSequencer.2.stepsUntil i < s.stepsUntil i ∧
        drains s.stepSequencer.1.toList + s.stepSequencer.2.bypasses i ≤ s.bypasses i ∧
        drainedFrom i s.stepSequencer.1.toList = []) := by
  cases hdrain : s.drain with
  | idle =>
    have hpop : (s.queues s.nextQueue).pop = .idle := h.pop_idle _ (by simp [hdrain])
    obtain ⟨hless, hle⟩ := poll_near hpop 0 i
    rw [stepSequencer_idle hdrain]
    refine Or.inr ⟨?_, ?_, rfl⟩
    · simpa [stepsUntil, hdrain] using hless
    · simpa [bypasses, hdrain, drains] using hle
  | polling attempt idx =>
    have hpos := stepsLeft_pos (s.queues idx).pop
    have hset : (s.set idx (s.queues idx).stepConsumer.2).queues idx = (s.queues idx).stepConsumer.2 :=
      set_queues_self ..
    have hdrain' : (s.set idx (s.queues idx).stepConsumer.2).drain = .polling attempt idx := hdrain
    have hnext : (s.set idx (s.queues idx).stepConsumer.2).nextQueue = s.nextQueue := rfl
    by_cases hidx : idx = i
    · -- the queue is polled and not empty
      subst hidx
      obtain ⟨_, _, htracks⟩ := h.queue idx
      have hnot := htracks.stepConsumer.2
      rcases stepSequencer_cases hdrain rfl with
        ⟨-, hless, hstep⟩ | ⟨out, -, -, hstep⟩ | ⟨hret, -, -, -⟩ | ⟨hret, -, -, -⟩
      · rw [hstep]
        refine Or.inr ⟨?_, ?_, rfl⟩
        · simpa [stepsUntil, hdrain, hdrain', hset] using hless
        · simp [bypasses, hdrain, hdrain', drains]
      · rw [hstep]
        exact Or.inl ⟨out, rfl⟩
      · have hempty := hnot hret
        omega
      · have hempty := hnot hret
        omega
    · have hsteps : s.stepsUntil i = (s.queues idx).pop.stepsLeft + 5 * (turnsUntil s.nextQueue i + 1) := by
        simp [stepsUntil, hdrain, hidx]
      have hbypasses : s.bypasses i = turnsUntil s.nextQueue i + 1 := by simp [bypasses, hdrain, hidx]
      rw [hsteps, hbypasses]
      rcases stepSequencer_cases hdrain rfl with
        ⟨-, hless, hstep⟩ | ⟨out, -, -, hstep⟩ | ⟨-, hpop, -, hstep⟩ | ⟨-, -, -, hstep⟩
      · rw [hstep]
        refine Or.inr ⟨?_, ?_, rfl⟩
        · simpa [stepsUntil, hdrain', hset, hnext, hidx] using hless
        · simp [bypasses, hdrain', drains, hnext, hidx]
      · rw [hstep]
        refine Or.inr ⟨?_, ?_, by simp [drainedFrom, hidx]⟩
        · simp only [stepsUntil, hnext]
          omega
        · simp [bypasses, drains, hnext, Nat.add_comm]
      · rw [hstep]
        have hidle := h.set_pop_idle hdrain hpop s.nextQueue
        obtain ⟨hless, hle⟩ := poll_near (s := s.set idx (s.queues idx).stepConsumer.2) hidle (attempt + 1) i
        rw [hnext] at hless hle
        refine Or.inr ⟨hless.trans_le (by omega), ?_, rfl⟩
        simpa [drains] using hle.trans (Nat.le_succ _)
      · rw [hstep]
        refine Or.inr ⟨?_, ?_, rfl⟩
        · simp only [stepsUntil, hnext]
          omega
        · simp [bypasses, drains, hnext]

theorem drains_append (rets rets' : List (FanInReturn n T)) : drains (rets ++ rets') = drains rets + drains rets' := by
  simp [drains]

theorem sequencerTurns_append (turns turns' : List (FanInTurn n T)) :
    sequencerTurns (turns ++ turns') = sequencerTurns turns + sequencerTurns turns' := by
  induction turns with
  | nil => simp [sequencerTurns]
  | cons turn turns ih =>
    cases turn with
    | producer _ _ => exact ih
    | sequencer => simp only [List.cons_append, sequencerTurns, ih]; omega

/-- A prefix of the run `turns` up to the next drain from the queue `i`. -/
def NextDrain (i : Fin n) (s : FanInThreads n c T) (turns : List (FanInTurn n T)) : Prop :=
  ∃ turns₁ turns₂ outs s₁ rets out, turns = turns₁ ++ turns₂ ∧ runAll FanInThreads.step s turns₁ = some (outs, s₁) ∧
    returns outs = rets ++ [.drained out i] ∧ drainedFrom i rets = [] ∧ drains rets ≤ s.bypasses i ∧
    sequencerTurns turns₁ ≤ s.stepsUntil i

theorem Reached.nextDrain {rets : List (FanInReturn n T)} (h : s.Reached rets)
    (hi : (drainedFrom i rets).length < (pushedFrom i rets).length) (turns : List (FanInTurn n T))
    (hmany : s.stepsUntil i ≤ sequencerTurns turns) : NextDrain i s turns := by
  induction turns generalizing s rets with
  | nil =>
    have hpos := s.stepsUntil_pos i
    simp only [sequencerTurns] at hmany
    omega
  | cons turn turns ih =>
    obtain ⟨out, s', hstep, h'⟩ := h.step turn
    -- unless the step drains from the queue, the item still waits after it
    have hwaits : drainedFrom i out.toList = [] →
        (drainedFrom i (rets ++ out.toList)).length < (pushedFrom i (rets ++ out.toList)).length := by
      intro hnil
      rw [drainedFrom_append, hnil, List.append_nil, pushedFrom_append, List.length_append]
      omega
    have hgoes : drainedFrom i out.toList = [] → drains out.toList + s'.bypasses i ≤ s.bypasses i →
        s'.stepsUntil i + sequencerTurns [turn] ≤ s.stepsUntil i → s'.stepsUntil i ≤ sequencerTurns turns →
        NextDrain i s (turn :: turns) := by
      intro hnil hbypasses hsteps hmany'
      obtain ⟨turns₁, turns₂, outs, s₁, rets', x, rfl, hrun, hrets, hnone, hle, hlen⟩ := ih h' (hwaits hnil) hmany'
      refine ⟨turn :: turns₁, turns₂, out :: outs, s₁, out.toList ++ rets', x, rfl, ?_, ?_, ?_, ?_, ?_⟩
      · rw [runAll_cons hstep, hrun]
        rfl
      · have hcons : returns (out :: outs) = returns [out] ++ returns outs := returns_append [out] outs
        rw [hcons, returns_singleton, hrets, List.append_assoc]
      · rw [drainedFrom_append, hnil, hnone]
        rfl
      · rw [drains_append]
        omega
      · have hcons := sequencerTurns_append [turn] turns₁
        rw [List.singleton_append] at hcons
        omega
    cases turn with
    | producer j item =>
      have heq : s.stepProducer j item = (out, s') := Option.some.inj hstep
      have hnear := s.stepProducer_near j item i
      rw [heq] at hnear
      dsimp only at hnear
      obtain ⟨hsteps, hbypasses, hzero, hnil⟩ := hnear
      simp only [sequencerTurns] at hmany
      exact hgoes hnil (by omega) (by simp only [sequencerTurns]; omega) (by omega)
    | sequencer =>
      have heq : s.stepSequencer = (out, s') := Option.some.inj hstep
      have hnear := Tracks.stepSequencer_near h hi
      rw [heq] at hnear
      dsimp only at hnear
      simp only [sequencerTurns] at hmany
      rcases hnear with ⟨x, hdrained⟩ | ⟨hless, hbypasses, hnil⟩
      · have hpos := s.stepsUntil_pos i
        refine ⟨[.sequencer], turns, [out], s', [], x, rfl, by rw [runAll_cons hstep]; rfl, ?_, rfl, ?_, ?_⟩
        · rw [returns_singleton, hdrained]
          rfl
        · exact Nat.zero_le _
        · simp only [sequencerTurns]
          omega
      · exact hgoes hnil hbypasses (by simp only [sequencerTurns]; omega) (by omega)

/-- The same for all the items that wait, one after the other. -/
theorem Reached.backlog {rets : List (FanInReturn n T)} (h : s.Reached rets) {backlog : List T}
    (hwaits : drainedFrom i rets ++ backlog <+: pushedFrom i rets) (turns : List (FanInTurn n T))
    (hmany : backlog.length * (5 * n + 4) ≤ sequencerTurns turns) :
    ∃ turns₁ turns₂ outs s₁, turns = turns₁ ++ turns₂ ∧ runAll FanInThreads.step s turns₁ = some (outs, s₁) ∧
      drainedFrom i (returns outs) = backlog ∧ drains (returns outs) ≤ backlog.length * (n + 1) := by
  induction backlog generalizing s rets turns with
  | nil => exact ⟨[], turns, [], s, rfl, rfl, rfl, Nat.zero_le _⟩
  | cons x backlog ih =>
    have hlt : (drainedFrom i rets).length < (pushedFrom i rets).length := by
      have hle := hwaits.length_le
      simp only [List.length_append, List.length_cons] at hle
      omega
    have hbound := s.stepsUntil_le i
    have hbypasses := s.bypasses_le i
    simp only [List.length_cons, Nat.add_mul, Nat.one_mul] at hmany
    obtain ⟨turns₁, turns₂, outs, s₁, rets₁, out, rfl, hrun, hrets, hnone, hle, hlen⟩ :=
      h.nextDrain hlt turns (by omega)
    obtain ⟨_, _, hrun', h'⟩ := h.run turns₁
    rw [hrun] at hrun'
    cases hrun'
    have hdrained : drainedFrom i (returns outs) = [out] := by
      rw [hrets, drainedFrom_append, hnone]
      simp [drainedFrom]
    -- the queue is a queue, so the drained item is the one that has waited longest
    obtain ⟨rest, hrest⟩ := hwaits
    have hfifo := Tracks.fifo h' i
    rw [drainedFrom_append, pushedFrom_append, hdrained, ← hrest, List.append_assoc, List.append_assoc,
      List.prefix_append_right_inj] at hfifo
    obtain rfl : out = x := by simpa using hfifo
    rw [sequencerTurns_append] at hmany
    have hwaits' : drainedFrom i (rets ++ returns outs) ++ backlog <+: pushedFrom i (rets ++ returns outs) := by
      rw [drainedFrom_append, pushedFrom_append, hdrained, ← hrest]
      exact ⟨rest ++ pushedFrom i (returns outs), by simp⟩
    obtain ⟨turns₃, turns₄, outs', s₂, rfl, hrun₂, hdrained₂, hle₂⟩ := ih h' hwaits' turns₂ (by omega)
    refine ⟨turns₁ ++ turns₃, turns₄, outs ++ outs', s₂, by simp, runAll_append hrun hrun₂, ?_, ?_⟩
    · rw [returns_append, drainedFrom_append, hdrained, hdrained₂]
      rfl
    · rw [returns_append, drains_append, hrets, drains_append]
      have hone : drains [(.drained out i : FanInReturn n T)] = 1 := rfl
      simp only [List.length_cons, Nat.add_mul, Nat.one_mul]
      omega

end

/-- No producer waits for ever.  After any turns, let `w` items of the queue `i` have been pushed and not drained.
Any further turns with at least `(5 * NumProducers + 4) * w` of the sequencer among them, whatever the producers do,
have a beginning in which just these items are drained of the queue `i`, and no more than `NumProducers` other items
for each of them. -/
theorem waiting_items_drained (c : Capacity) (hn : 0 < n) (init : T) (turns : List (FanInTurn n T)) :
    ∃ outs s, runAll step (FanInThreads.new c hn init) turns = some (outs, s) ∧
      ∀ i backlog further, drainedFrom i (returns outs) ++ backlog = pushedFrom i (returns outs) →
        backlog.length * (5 * n + 4) ≤ sequencerTurns further →
        ∃ turns₁ turns₂ outs₁ s₁, further = turns₁ ++ turns₂ ∧ runAll step s turns₁ = some (outs₁, s₁) ∧
          drainedFrom i (returns outs₁) = backlog ∧ drains (returns outs₁) ≤ backlog.length * (n + 1) := by
  obtain ⟨outs, s, hrun, h⟩ := reached_new c hn init turns
  refine ⟨outs, s, hrun, fun i backlog further hwaits hmany => ?_⟩
  exact h.backlog ⟨[], by rw [List.append_nil, hwaits]⟩ further hmany

theorem waiting_items_drained_two :
    ∃ outs s, runAll step (FanInThreads.new (n := 2) { log := 1, pos := by decide, lt := by decide } (by decide) 0)
        [.producer 1 7, .producer 1 7, .producer 1 7] = some (outs, s) ∧
      ∃ turns₁ turns₂ outs₁ s₁, List.replicate 14 .sequencer = turns₁ ++ turns₂ ∧
        runAll step s turns₁ = some (outs₁, s₁) ∧ drainedFrom 1 (returns outs₁) = [7] := by
  obtain ⟨outs, s, hrun, h⟩ := waiting_items_drained (n := 2) { log := 1, pos := by decide, lt := by decide }
    (by decide) 0 [.producer 1 7, .producer 1 7, .producer 1 7]
  refine ⟨outs, s, hrun, ?_⟩
  cases hrun
  obtain ⟨turns₁, turns₂, outs₁, s₁, hsplit, hrun₁, hdrained, -⟩ := h 1 [7] (List.replicate 14 .sequencer) rfl
    (by decide)
  exact ⟨turns₁, turns₂, outs₁, s₁, hsplit, hrun₁, hdrained⟩

end FanInThreads

/-! ### Calls that are not interrupted -/

namespace SPSCRingBuffer

variable {c : Capacity} {T : Type}

/-- The last step of an uninterrupted `try_pop` is the one that returns. -/
theorem tryPop_last (q : SPSCRingBuffer c T) :
    ∃ k t, runAll Threads.step ({ ring := q } : Threads c T) (List.replicate k .consumer) =
        some (List.replicate k none, t) ∧
      t.stepConsumer = (some (q.tryPop.1.elim .empty .popped), { ring := q.tryPop.2 }) := by
  unfold tryPop
  dsimp only
  by_cases hempty : q.consumer.tail = q.consumer.headCache
  · rw [if_pos hempty]
    by_cases hstill : q.consumer.tail = q.producer.head
    · rw [if_pos hstill]
      refine ⟨1, { ring := q, pop := .loadHead q.consumer.tail }, ?_, ?_⟩
      · simp [runAll, Threads.step, Threads.stepConsumer, ← hempty]
      · simp [Threads.stepConsumer, hstill]
    · rw [if_neg hstill]
      refine ⟨3, {
        ring := { q with consumer := { q.consumer with headCache := q.producer.head } }
        pop := .storeTail q.consumer.tail (q.buffer (c.slot q.consumer.tail)) }, ?_, ?_⟩
      · simp [List.replicate, runAll, Threads.step, Threads.stepConsumer, ← hempty, hstill]
      · simp [Threads.stepConsumer, take]
  · rw [if_neg hempty]
    refine ⟨2, { ring := q, pop := .storeTail q.consumer.tail (q.buffer (c.slot q.consumer.tail)) }, ?_, ?_⟩
    · simp [List.replicate, runAll, Threads.step, Threads.stepConsumer, hempty]
    · simp [Threads.stepConsumer, take]

theorem tryPush_last (q : SPSCRingBuffer c T) (item : T) :
    ∃ k t, runAll Threads.step ({ ring := q } : Threads c T) (List.replicate k (.producer item)) =
        some (List.replicate k none, t) ∧
      t.stepProducer item = (some (if (q.tryPush item).1 then .pushed item else .full),
        { ring := (q.tryPush item).2 }) := by
  unfold tryPush
  dsimp only
  by_cases hfull : q.producer.head - q.producer.tailCache ≥ UInt64.ofNat c.value
  · rw [if_pos hfull]
    by_cases hstill : q.producer.head - q.consumer.tail ≥ UInt64.ofNat c.value
    · rw [if_pos hstill]
      refine ⟨1, { ring := q, push := .loadTail item q.producer.head }, ?_, ?_⟩
      · simp [runAll, Threads.step, Threads.stepProducer, Threads.checkFull, hfull]
      · simp [Threads.stepProducer, Threads.checkFull, hstill]
    · rw [if_neg hstill]
      refine ⟨3, {
        ring := { q with
          buffer := Function.update q.buffer (c.slot q.producer.head) item
          producer := { q.producer with tailCache := q.consumer.tail } }
        push := .storeHead item q.producer.head }, ?_, ?_⟩
      · simp [List.replicate, runAll, Threads.step, Threads.stepProducer, Threads.checkFull, hfull, hstill]
      · simp [Threads.stepProducer, publish]
  · rw [if_neg hfull]
    refine ⟨2, {
      ring := { q with buffer := Function.update q.buffer (c.slot q.producer.head) item }
      push := .storeHead item q.producer.head }, ?_, ?_⟩
    · simp [List.replicate, runAll, Threads.step, Threads.stepProducer, Threads.checkFull, hfull]
    · simp [Threads.stepProducer, publish]

end SPSCRingBuffer

namespace FanInThreads

open FanInSequencer

variable {n : Nat} {c : Capacity} {T : Type} {s : FanInThreads n c T}

/-- The threads between two calls. -/
def ofCalls (q : FanInSequencer n c T) : FanInThreads n c T where
  queues := fun i => { ring := q.queues i }
  nextQueue := q.nextQueue

theorem set_set (s : FanInThreads n c T) (i : Fin n) (t u : Threads c T) : (s.set i t).set i u = s.set i u := by
  unfold set
  dsimp only
  rw [Function.update_idem]

theorem set_self (s : FanInThreads n c T) (i : Fin n) : s.set i (s.queues i) = s := by
  unfold set
  rw [Function.update_eq_self]

theorem ofCalls_update (q : FanInSequencer n c T) (i : Fin n) (ring : SPSCRingBuffer c T) (next : Fin n) :
    ofCalls { queues := Function.update q.queues i ring, nextQueue := next } =
      { (ofCalls q).set i { ring := ring } with nextQueue := next } := by
  unfold ofCalls set
  congr 1
  funext j
  dsimp only
  by_cases hj : j = i
  · subst hj
    rw [Function.update_self, Function.update_self]
  · rw [Function.update_of_ne hj, Function.update_of_ne hj]

/-- Steps within one queue, as long as the call of that queue has not returned. -/
theorem runAll_within {i : Fin n} {turn : FanInTurn n T} {turn' : Turn T} (Within : FanInThreads n c T → Prop)
    (hstep : ∀ s t, Within s → (s.queues i).step turn' = some (none, t) →
      s.step turn = some (none, s.set i t) ∧ Within (s.set i t))
    {k : Nat} {t : Threads c T} (hs : Within s)
    (hrun : runAll Threads.step (s.queues i) (List.replicate k turn') = some (List.replicate k none, t)) :
    runAll FanInThreads.step s (List.replicate k turn) = some (List.replicate k none, s.set i t) ∧
      Within (s.set i t) := by
  induction k generalizing s with
  | zero =>
    cases hrun
    rw [set_self]
    exact ⟨rfl, hs⟩
  | succ k ih =>
    rw [List.replicate_succ] at hrun
    cases hq : (s.queues i).step turn' with
    | none => rw [runAll, hq] at hrun; cases hrun
    | some p =>
      obtain ⟨out, t₁⟩ := p
      rw [runAll_cons hq, Option.map_eq_some_iff] at hrun
      obtain ⟨⟨outs, t'⟩, hrest, heq⟩ := hrun
      rw [List.replicate_succ] at heq
      cases heq
      obtain ⟨hone, hs₁⟩ := hstep s t₁ hs hq
      obtain ⟨hmany, hs'⟩ := ih hs₁ (by rw [set_queues_self]; exact hrest)
      rw [set_set] at hmany hs'
      refine ⟨?_, hs'⟩
      rw [List.replicate_succ, runAll_cons hone, hmany]
      rfl

/-- One attempt without interruption, up to the step in which `try_pop` returns. -/
theorem attempt_steps (q : FanInSequencer n c T) (attempt : Nat) :
    ∃ k s, runAll step ((ofCalls q).poll attempt) (List.replicate k .sequencer) = some (List.replicate k none, s) ∧
      s.drain = .polling attempt q.nextQueue ∧
      (s.queues q.nextQueue).stepConsumer =
        (some ((q.queues q.nextQueue).tryPop.1.elim .empty .popped), { ring := (q.queues q.nextQueue).tryPop.2 }) ∧
      s.set q.nextQueue { ring := (q.queues q.nextQueue).tryPop.2 } =
        { ofCalls q.polled with drain := .polling attempt q.nextQueue } := by
  obtain ⟨k, t, hrun, hlast⟩ := (q.queues q.nextQueue).tryPop_last
  have hwithin : ∀ (s : FanInThreads n c T) (t : Threads c T), s.drain = .polling attempt q.nextQueue →
      (s.queues q.nextQueue).step .consumer = some (none, t) →
      s.step .sequencer = some (none, s.set q.nextQueue t) ∧
        (s.set q.nextQueue t).drain = .polling attempt q.nextQueue :=
    fun s t hs ht => ⟨congrArg some (stepSequencer_within hs (Option.some.inj ht)), hs⟩
  obtain ⟨hsteps, hdrain⟩ := runAll_within (s := (ofCalls q).poll attempt) _ hwithin rfl hrun
  refine ⟨k, _, hsteps, hdrain, ?_, ?_⟩
  · rw [set_queues_self, hlast]
  · have hpolled : ofCalls q.polled =
        { (ofCalls q).set q.nextQueue { ring := (q.queues q.nextQueue).tryPop.2 } with
          nextQueue := rotate q.nextQueue } := ofCalls_update ..
    rw [set_set, hpolled]
    rfl

/-- Steps that return nothing, and one that returns. -/
theorem runAll_last {turns : List (FanInTurn n T)} {k : Nat} {s₁ s' : FanInThreads n c T} {ret : FanInReturn n T}
    (hrun : runAll step s turns = some (List.replicate k none, s₁)) (turn : FanInTurn n T)
    (hstep : s₁.step turn = some (some ret, s')) :
    ∃ outs, runAll step s (turns ++ [turn]) = some (outs, s') ∧ returns outs = [ret] := by
  refine ⟨List.replicate k none ++ [some ret], runAll_append hrun (runAll_cons hstep []), ?_⟩
  simp [returns]

/-- The attempts that are left, without interruption. -/
theorem drain_steps (attempts attempt : Nat) (q : FanInSequencer n c T) (hn : attempt + attempts = n)
    (hpos : 0 < attempts) :
    ∃ turns outs,
      runAll step ((ofCalls q).poll attempt) turns = some (outs, ofCalls (FanInSequencer.drain attempts q).2) ∧
      returns outs = [(FanInSequencer.drain attempts q).1.elim .empty fun p => .drained p.1 p.2] := by
  induction attempts generalizing attempt q with
  | zero => omega
  | succ attempts ih =>
    obtain ⟨k, s, hrun, hdrain, hlast, hset⟩ := attempt_steps q attempt
    cases hpop : (q.queues q.nextQueue).tryPop.1 with
    | some out =>
      rw [hpop] at hlast
      have hstep := stepSequencer_popped hdrain hlast
      rw [hset] at hstep
      rw [drain_of_pop hpop]
      exact ⟨_, runAll_last hrun .sequencer (congrArg some hstep)⟩
    | none =>
      rw [hpop] at hlast
      have hstep := stepSequencer_empty hdrain hlast
      rw [hset] at hstep
      rw [drain_of_empty hpop]
      by_cases hmore : attempt + 1 < n
      · rw [if_pos hmore] at hstep
        obtain ⟨turns, outs, hrun', hreturns⟩ := ih (attempt + 1) q.polled (by omega) (by omega)
        refine ⟨List.replicate k .sequencer ++ .sequencer :: turns, List.replicate k none ++ none :: outs, ?_, ?_⟩
        · refine runAll_append hrun ?_
          rw [runAll_cons (congrArg some hstep)]
          exact congrArg _ hrun'
        · simpa [returns] using hreturns
      · obtain rfl : attempts = 0 := by omega
        rw [if_neg hmore] at hstep
        exact ⟨_, runAll_last hrun .sequencer (congrArg some hstep)⟩

/-- A call is the steps of its thread without interruption. -/
theorem call_steps {q q' : FanInSequencer n c T} {op : FanInCall n T} {ret : FanInReturn n T}
    (h : q.call op = some (ret, q')) :
    ∃ turns outs, runAll step (ofCalls q) turns = some (outs, ofCalls q') ∧ returns outs = [ret] := by
  cases op with
  | pushFrom i item =>
    rw [call_pushFrom] at h
    cases h
    obtain ⟨k, t, hrun, hlast⟩ := (q.queues i).tryPush_last item
    have hwithin : ∀ (s : FanInThreads n c T) (t : Threads c T), True →
        (s.queues i).step (.producer item) = some (none, t) →
        s.step (.producer i item) = some (none, s.set i t) ∧ True := by
      intro s t _ ht
      have heq : (s.queues i).stepProducer item = (none, t) := Option.some.inj ht
      simp [step, FanInThreads.stepProducer, heq]
    obtain ⟨hsteps, -⟩ := runAll_within (s := ofCalls q) _ hwithin trivial hrun
    have hset : ofCalls (q.pushFrom i item).2 = (ofCalls q).set i { ring := ((q.queues i).tryPush item).2 } :=
      ofCalls_update ..
    refine ⟨_, runAll_last hsteps (.producer i item) ?_⟩
    rw [hset]
    unfold step FanInThreads.stepProducer
    dsimp only
    rw [set_queues_self, hlast, set_set]
    by_cases hok : (q.pushFrom i item).1 = true
    · have hok' : ((q.queues i).tryPush item).1 = true := hok
      rw [if_pos hok, if_pos hok']
    · have hok' : ¬ ((q.queues i).tryPush item).1 = true := hok
      rw [if_neg hok, if_neg hok']
  | tryDrainOne =>
    rw [call_tryDrainOne] at h
    cases h
    obtain ⟨turns, outs, hrun, hreturns⟩ := drain_steps n 0 q (Nat.zero_add n) q.nextQueue.pos
    have hbegin : (ofCalls q).step .sequencer = some (none, (ofCalls q).poll 0) := rfl
    refine ⟨.sequencer :: turns, none :: outs, ?_, hreturns⟩
    rw [runAll_cons hbegin, hrun]
    rfl

/-- The sequencer of whole calls is the one of single steps without interruption: whatever calls are made, there are
turns of the threads after which the queues are the same and the same calls have returned the same. -/
theorem calls_are_steps (c : Capacity) (hn : 0 < n) (init : T) (ops : List (FanInCall n T)) :
    ∃ rets q turns outs, runAll call (FanInSequencer.new c hn init) ops = some (rets, q) ∧
      runAll step (FanInThreads.new c hn init) turns = some (outs, ofCalls q) ∧ returns outs = rets := by
  obtain ⟨rets, q, hrun, -⟩ := carries_run c hn init ops
  have hkeeps := runAll_keeps
    (fun _ rets (q : FanInSequencer n c T) => ∃ turns outs,
      runAll step (FanInThreads.new c hn init) turns = some (outs, ofCalls q) ∧ returns outs = rets) ?_
    ⟨[], [], rfl, rfl⟩ hrun
  · obtain ⟨turns, outs, hsteps, hreturns⟩ := hkeeps
    exact ⟨rets, q, turns, outs, hrun, hsteps, hreturns⟩
  · rintro _ _ q op ret q' ⟨turns, outs, hsteps, rfl⟩ hcall
    obtain ⟨turns', outs', hsteps', hreturns⟩ := call_steps hcall
    exact ⟨turns ++ turns', outs ++ outs', runAll_append hsteps hsteps', by rw [returns_append, hreturns]⟩

theorem calls_are_steps_two :
    ∃ rets q turns outs, runAll call
        (FanInSequencer.new (n := 2) { log := 1, pos := by decide, lt := by decide } (by decide) 0)
        [.pushFrom 1 11, .tryDrainOne, .tryDrainOne] = some (rets, q) ∧
      runAll step (FanInThreads.new (n := 2) { log := 1, pos := by decide, lt := by decide } (by decide) 0) turns =
        some (outs, ofCalls q) ∧ returns outs = rets :=
  calls_are_steps { log := 1, pos := by decide, lt := by decide } (by decide) 0
    [.pushFrom 1 11, .tryDrainOne, .tryDrainOne]

end FanInThreads

end Exchange
