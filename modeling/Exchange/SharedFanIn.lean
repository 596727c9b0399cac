import Exchange.FanInThreads
import Exchange.SharedRing
import Mathlib.Data.Fintype.EquivFin
import Mathlib.Data.Fintype.Option

/-!
# The fan-in sequencer with its memory orders

`FanInSequencer` with the queues of all producers in one memory.  The sequencer is the consumer of every queue, so what
it learns from one queue it knows when it looks at the next, and what it hands back to one producer comes with what it
has learnt from the others.  The queues still do not disturb each other: for every interleaving and all values the
loads may return, no two accesses race and each producer's items are drained in its order.
-/

namespace Exchange

inductive FanInThread (n : Nat) where
  | producer (i : Fin n)
  | sequencer
  deriving DecidableEq

/-- The threads are the queues and one more. -/
def FanInThread.ofOption {n : Nat} : Option (Fin n) ≃ FanInThread n where
  toFun
    | some i => .producer i
    | none => .sequencer
  invFun
    | .producer i => some i
    | .sequencer => none
  left_inv t := by cases t <;> rfl
  right_inv t := by cases t <;> rfl

instance {n : Nat} : Fintype (FanInThread n) := Fintype.ofEquiv _ FanInThread.ofOption

/-- The places of the queue of producer `i`. -/
def RingPlace.fanIn {n : Nat} (c : Capacity) (i : Fin n) :
    RingPlace c (FanInThread n) (Fin n × RingIndex) (Fin n × Fin c.value) where
  producer := .producer i
  consumer := .sequencer
  head := (i, .head)
  tail := (i, .tail)
  slot k := (i, k)
  head_ne_tail := by simp
  slot_injective k k' h := (Prod.mk.inj h).2

structure SharedFanIn (n : Nat) (c : Capacity) (T : Type) where
  memory : Memory (FanInThread n) (Fin n × RingIndex) (Fin n × Fin c.value) UInt64 T
  locals : Fin n → RingLocals T := fun _ => {}
  nextQueue : Fin n
  drain : Draining n := .idle

/-- Whose turn it is, and how old a value the thread gets if its next step is a load. -/
inductive SharedFanInTurn (n : Nat) (T : Type) where
  | producer (i : Fin n) (item : T) (age : Nat)
  | sequencer (age : Nat)

namespace SharedFanIn

open FanInSequencer FanInThreads

variable {n : Nat} {c : Capacity} {T : Type}

def new (c : Capacity) (hn : 0 < n) (init : T) : SharedFanIn n c T where
  memory := Memory.new (fun _ => 0) fun _ => init
  nextQueue := ⟨0, hn⟩

/-- What a step within one queue leaves behind. -/
def set (s : SharedFanIn n c T) (i : Fin n) (locals : RingLocals T)
    (memory : Memory (FanInThread n) (Fin n × RingIndex) (Fin n × Fin c.value) UInt64 T) : SharedFanIn n c T :=
  { s with memory := memory, locals := Function.update s.locals i locals }

/-- The head of the loop of `try_drain_one`. -/
def poll (s : SharedFanIn n c T) (attempt : Nat) : SharedFanIn n c T :=
  { s with nextQueue := rotate s.nextQueue, drain := .polling attempt s.nextQueue }

def stepProducer (s : SharedFanIn n c T) (i : Fin n) (item : T) (age : Nat) :
    Option (Option (FanInReturn n T) × SharedFanIn n c T) :=
  match (RingPlace.fanIn c i).stepProducer s.memory (s.locals i) item age with
  | none => none
  | some (ret, locals, memory) =>
    let s := s.set i locals memory
    match ret with
    | some (.pushed item) => some (some (.pushed i item), s)
    | some .full => some (some (.full i), s)
    | _ => some (none, s)

def stepSequencer (s : SharedFanIn n c T) (age : Nat) : Option (Option (FanInReturn n T) × SharedFanIn n c T) :=
  match s.drain with
  | .idle => some (none, s.poll 0)
  | .polling attempt idx =>
    match (RingPlace.fanIn c idx).stepConsumer s.memory (s.locals idx) age with
    | none => none
    | some (ret, locals, memory) =>
      let s := s.set idx locals memory
      match ret with
      | some (.popped out) => some (some (.drained out idx), { s with drain := .idle })
      | some .empty =>
        if attempt + 1 < n then some (none, s.poll (attempt + 1)) else some (some .empty, { s with drain := .idle })
      | _ => some (none, s)

def step (s : SharedFanIn n c T) : SharedFanInTurn n T → Option (Option (FanInReturn n T) × SharedFanIn n c T)
  | .producer i item age => s.stepProducer i item age
  | .sequencer age => s.stepSequencer age

/-! ### The queues do not disturb each other -/

/-- The invariant over the returns `rets` so far. -/
structure Reached (s : SharedFanIn n c T) (rets : List (FanInReturn n T)) : Prop where
  memory : s.memory.WellFormed
  queue : ∀ i, ∃ seenTail seenHead,
    (RingPlace.fanIn c i).Tracks s.memory (s.locals i) (pushedFrom i rets) (drainedFrom i rets) seenTail seenHead

theorem reached_init (c : Capacity) (hn : 0 < n) (init : T) : (new c hn init).Reached [] :=
  ⟨Memory.wellFormed_new .., fun i => ⟨0, 0, (RingPlace.fanIn c i).tracks_new rfl rfl⟩⟩

/-- What touches nothing but one queue does not touch another. -/
theorem untouched_of_within {i j : Fin n} (hij : j ≠ i)
    {m m' : Memory (FanInThread n) (Fin n × RingIndex) (Fin n × Fin c.value) UInt64 T}
    (h : (RingPlace.fanIn c i).Within m m') : (RingPlace.fanIn c j).Untouched m m' where
  head := h.history _ (fun heq => hij (Prod.mk.inj heq).1) fun heq => hij (Prod.mk.inj heq).1
  tail := h.history _ (fun heq => hij (Prod.mk.inj heq).1) fun heq => hij (Prod.mk.inj heq).1
  slots _ := h.plain _ fun _ heq => hij (Prod.mk.inj heq).1
  views := h.views

variable {s : SharedFanIn n c T} {rets : List (FanInReturn n T)}

/-- A step within the queue `i` that returns `out`. -/
theorem Reached.set (h : s.Reached rets) {i : Fin n} (locals : RingLocals T)
    {memory : Memory (FanInThread n) (Fin n × RingIndex) (Fin n × Fin c.value) UInt64 T} (hm : memory.WellFormed)
    (hwithin : (RingPlace.fanIn c i).Within s.memory memory) (out : Option (FanInReturn n T)) {a b : Nat}
    (htracks : (RingPlace.fanIn c i).Tracks memory locals (pushedFrom i rets ++ pushedFrom i out.toList)
      (drainedFrom i rets ++ drainedFrom i out.toList) a b)
    (hother : ∀ j, j ≠ i → pushedFrom j out.toList = [] ∧ drainedFrom j out.toList = []) :
    (s.set i locals memory).Reached (rets ++ out.toList) := by
  refine ⟨hm, fun j => ?_⟩
  rw [pushedFrom_append, drainedFrom_append]
  by_cases hj : j = i
  · subst hj
    refine ⟨a, b, ?_⟩
    simpa [SharedFanIn.set] using htracks
  · obtain ⟨hpushed, hdrained⟩ := hother j hj
    obtain ⟨seenTail, seenHead, hqueue⟩ := h.queue j
    refine ⟨seenTail, seenHead, ?_⟩
    rw [hpushed, hdrained, List.append_nil, List.append_nil]
    simpa [SharedFanIn.set, Function.update_of_ne hj] using hqueue.untouched (untouched_of_within hj hwithin)

theorem Reached.stepProducer (h : s.Reached rets) (i : Fin n) (item : T) (age : Nat) :
    ∃ out s', s.stepProducer i item age = some (out, s') ∧ s'.Reached (rets ++ out.toList) := by
  obtain ⟨seenTail, seenHead, hqueue⟩ := h.queue i
  obtain ⟨ret, locals, memory, seenTail', hstep, hm, hwithin, htracks, -, -, hpopped⟩ :=
    hqueue.stepProducer h.memory item age
  have hset := fun out => h.set locals hm hwithin out (a := seenTail') (b := seenHead)
  simp only [SharedFanIn.stepProducer, hstep]
  rcases ret with _ | (item | _ | out | _)
  · refine ⟨none, _, rfl, hset none ?_ fun _ _ => ⟨rfl, rfl⟩⟩
    simpa [pushedFrom, drainedFrom] using htracks
  · refine ⟨some (.pushed i item), _, rfl, hset _ ?_ fun j hj => ?_⟩
    · simpa [pushedFrom, drainedFrom] using htracks
    · simp [pushedFrom, drainedFrom, hj.symm]
  · refine ⟨some (.full i), _, rfl, hset _ ?_ fun _ _ => ⟨rfl, rfl⟩⟩
    simpa [pushedFrom, drainedFrom] using htracks
  · exact absurd hpopped (List.cons_ne_nil _ _)
  · refine ⟨none, _, rfl, hset none ?_ fun _ _ => ⟨rfl, rfl⟩⟩
    simpa [pushedFrom, drainedFrom] using htracks

theorem Reached.stepSequencer (h : s.Reached rets) (age : Nat) :
    ∃ out s', s.stepSequencer age = some (out, s') ∧ s'.Reached (rets ++ out.toList) := by
  unfold SharedFanIn.stepSequencer
  cases s.drain with
  | idle =>
    refine ⟨none, _, rfl, ?_⟩
    rw [Option.toList_none, List.append_nil]
    exact ⟨h.memory, h.queue⟩
  | polling attempt idx =>
    obtain ⟨seenTail, seenHead, hqueue⟩ := h.queue idx
    obtain ⟨ret, locals, memory, seenHead', hstep, hm, hwithin, htracks, -, -, hpushed⟩ :=
      hqueue.stepConsumer h.memory age
    have hset := fun out => h.set locals hm hwithin out (a := seenTail) (b := seenHead')
    -- the loop's own variables are no part of the invariant
    have hloop : ∀ {out : Option (FanInReturn n T)}, (s.set idx locals memory).Reached (rets ++ out.toList) →
        ∀ next drain, ({ s.set idx locals memory with nextQueue := next, drain := drain } : SharedFanIn n c T).Reached
          (rets ++ out.toList) :=
      fun h next drain => ⟨h.memory, h.queue⟩
    simp only [hstep]
    rcases ret with _ | (item | _ | out | _)
    · refine ⟨none, _, rfl, hset none ?_ fun _ _ => ⟨rfl, rfl⟩⟩
      simpa [pushedFrom, drainedFrom] using htracks
    · exact absurd hpushed (List.cons_ne_nil _ _)
    · refine ⟨none, _, rfl, hset none ?_ fun _ _ => ⟨rfl, rfl⟩⟩
      simpa [pushedFrom, drainedFrom] using htracks
    · refine ⟨some (.drained out idx), _, rfl, hloop (hset _ ?_ fun j hj => ?_) ..⟩
      · simpa [pushedFrom, drainedFrom] using htracks
      · simp [pushedFrom, drainedFrom, hj.symm]
    · dsimp only
      split_ifs
      · refine ⟨none, _, rfl, hloop (hset none ?_ fun _ _ => ⟨rfl, rfl⟩) ..⟩
        simpa [pushedFrom, drainedFrom] using htracks
      · refine ⟨some .empty, _, rfl, hloop (hset _ ?_ fun _ _ => ⟨rfl, rfl⟩) ..⟩
        simpa [pushedFrom, drainedFrom] using htracks

/-! ### Every interleaving, and all values loaded -/

theorem Reached.step (h : s.Reached rets) (turn : SharedFanInTurn n T) :
    ∃ out s', s.step turn = some (out, s') ∧ s'.Reached (rets ++ out.toList) := by
  cases turn with
  | producer i item age => exact h.stepProducer i item age
  | sequencer age => exact h.stepSequencer age

theorem Reached.run (h : s.Reached rets) (turns : List (SharedFanInTurn n T)) :
    ∃ outs s', runAll SharedFanIn.step s turns = some (outs, s') ∧ s'.Reached (rets ++ returns outs) :=
  runAll_returns (fun rets (s : SharedFanIn n c T) => s.Reached rets) (fun _ _ turn h => h.step turn) turns h

/-- What a producer has pushed is what has been drained of its queue, and at most `QueueCapacity` items after it. -/
theorem Reached.waiting (h : s.Reached rets) (i : Fin n) :
    ∃ waiting, pushedFrom i rets = drainedFrom i rets ++ waiting ∧ waiting.length ≤ c.value := by
  obtain ⟨seenTail, seenHead, hqueue⟩ := h.queue i
  obtain ⟨waiting, hwaiting⟩ := hqueue.fifo
  have hlength := congrArg List.length hwaiting
  have hle := hqueue.length_le
  rw [List.length_append] at hlength
  exact ⟨waiting, hwaiting.symm, by omega⟩

/-- The fan-in needs no stronger memory orders than its queues have.  For all turns of the producers and the sequencer
and all values the loads may return, no access to a slot races with another and no store is out of order: the run does
not fail.  What a producer has pushed is what has been drained of its queue, in its order, and then at most
`QueueCapacity` items that wait. -/
theorem shared_fan_in_race_free (c : Capacity) (hn : 0 < n) (init : T) (turns : List (SharedFanInTurn n T)) :
    ∃ outs s, runAll step (new c hn init) turns = some (outs, s) ∧
      ∀ i, ∃ waiting, pushedFrom i (returns outs) = drainedFrom i (returns outs) ++ waiting ∧
        waiting.length ≤ c.value := by
  obtain ⟨outs, s, hrun, h⟩ := (reached_init c hn init).run turns
  rw [List.nil_append] at h
  exact ⟨outs, s, hrun, h.waiting⟩

/-- The sequencer loads an old value of the index of a queue with an item, finds the queue empty, and drains the item
in the next round. -/
theorem shared_fan_in_race_free_stale :
    let turns : List (SharedFanInTurn 2 Nat) :=
      [.producer 1 7 0, .producer 1 7 0, .producer 1 7 0, .sequencer 0, .sequencer 0, .sequencer 0, .sequencer 0,
        .sequencer 1, .sequencer 0, .sequencer 0, .sequencer 0, .sequencer 0, .sequencer 0, .sequencer 0, .sequencer 0]
    ∃ outs s,
      runAll step (new { log := 1, pos := by decide, lt := by decide } (by decide : 0 < 2) 0) turns = some (outs, s) ∧
      returns outs = [.pushed 1 7, .empty, .drained 7 1] ∧
      ∃ waiting, pushedFrom 1 (returns outs) = drainedFrom 1 (returns outs) ++ waiting := by
  intro turns
  obtain ⟨outs, s, hrun, h⟩ :=
    shared_fan_in_race_free { log := 1, pos := by decide, lt := by decide } (by decide : 0 < 2) 0 turns
  have hreturns : (runAll step (new { log := 1, pos := by decide, lt := by decide } (by decide : 0 < 2) 0) turns).map
      (fun p => returns p.1) = some [.pushed 1 7, .empty, .drained 7 1] := rfl
  rw [hrun] at hreturns
  obtain ⟨waiting, hwaiting, -⟩ := h 1
  exact ⟨outs, s, hrun, Option.some.inj hreturns, waiting, hwaiting⟩

end SharedFanIn

end Exchange
