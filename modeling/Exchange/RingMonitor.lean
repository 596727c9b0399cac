import Exchange.RingBuffer

/-!
# A monitoring thread on the ring buffer

`size_approx` and `full_approx` of `SPSCRingBuffer`, called by a third thread beside the producer and the consumer.
`size_approx` loads the head, then the tail, and returns their difference.  Between the two loads the consumer can
take out values that were pushed after the head was loaded: then the tail has passed the head that was loaded, and the
difference wraps around.
-/

namespace Exchange

/-- How far a call of `size_approx` has come. -/
inductive SizeApprox where
  | idle
  | loadTail (head : UInt64)

/-- `full_approx`, by the size that `size_approx` has returned. -/
def fullApprox (c : Capacity) (size : UInt64) : Bool := decide (size ≥ UInt64.ofNat c.value)

/-- The producer, the consumer and the monitoring thread. -/
structure Monitored (c : Capacity) (T : Type) where
  threads : Threads c T
  monitor : SizeApprox := .idle

inductive MonitoredTurn (T : Type) where
  | thread (turn : Turn T)
  | monitor

/-- What a step returns, of a call of the producer or the consumer, or of `size_approx`. -/
inductive MonitoredReturn (T : Type) where
  | thread (ret : Option (Return T))
  | size (ret : Option UInt64)

namespace Monitored

variable {c : Capacity} {T : Type}

def new (c : Capacity) (init : T) : Monitored c T := { threads := Threads.new c init }

def stepMonitor (s : Monitored c T) : Option UInt64 × Monitored c T :=
  match s.monitor with
  | .idle => (none, { s with monitor := .loadTail s.threads.ring.producer.head })
  | .loadTail head => (some (head - s.threads.ring.consumer.tail), { s with monitor := .idle })

def step (s : Monitored c T) : MonitoredTurn T → Option (MonitoredReturn T × Monitored c T)
  | .thread turn =>
    match s.threads.step turn with
    | none => none
    | some (ret, threads) => some (.thread ret, { s with threads := threads })
  | .monitor => some (.size s.stepMonitor.1, s.stepMonitor.2)

/-- What the steps of the producer and the consumer have returned. -/
def threadReturns (outs : List (MonitoredReturn T)) : List (Option (Return T)) :=
  outs.filterMap fun
    | .thread ret => some ret
    | .size _ => none

/-- The number of values in the buffer after the steps. -/
def itemsHeld (outs : List (MonitoredReturn T)) : Nat :=
  (pushes (threadReturns outs)).length - (pops (threadReturns outs)).length

/-! ### The other threads do not see the monitor -/

theorem tracks_run (c : Capacity) (init : T) (turns : List (MonitoredTurn T)) :
    ∃ outs s, runAll step (new c init) turns = some (outs, s) ∧
      ∃ seenTail seenHead,
        s.threads.Tracks (pushes (threadReturns outs)) (pops (threadReturns outs)) seenTail seenHead := by
  refine runAll_history (fun _ outs (s : Monitored c T) => ∃ seenTail seenHead,
    s.threads.Tracks (pushes (threadReturns outs)) (pops (threadReturns outs)) seenTail seenHead) ?_ turns _
    ⟨0, 0, tracks_new c init⟩
  rintro _ outs s turn ⟨seenTail, seenHead, htracks⟩
  cases turn with
  | thread turn =>
    obtain ⟨ret, threads, seenTail', seenHead', hstep, htracks'⟩ := htracks.step turn
    refine ⟨.thread ret, { s with threads := threads }, by rw [step, hstep], seenTail', seenHead', ?_⟩
    simpa [threadReturns, pushes, pops] using htracks'
  | monitor =>
    refine ⟨.size s.stepMonitor.1, s.stepMonitor.2, rfl, seenTail, seenHead, ?_⟩
    have hsame : s.stepMonitor.2.threads = s.threads := by
      unfold stepMonitor
      cases s.monitor <;> rfl
    rw [hsame]
    simpa [threadReturns] using htracks

/-- Turns of the other threads leave the monitor where it is. -/
theorem runAll_threads {s : Monitored c T} {turns : List (Turn T)} {rets : List (Option (Return T))}
    {threads : Threads c T} (h : runAll Threads.step s.threads turns = some (rets, threads)) :
    runAll step s (turns.map .thread) = some (rets.map .thread, { s with threads := threads }) := by
  induction turns generalizing s rets with
  | nil =>
    cases h
    rfl
  | cons turn turns ih =>
    cases hstep : s.threads.step turn with
    | none => rw [runAll, hstep] at h; cases h
    | some p =>
      obtain ⟨ret, threads₁⟩ := p
      rw [runAll_cons hstep, Option.map_eq_some_iff] at h
      obtain ⟨⟨rets', threads'⟩, hrun, heq⟩ := h
      cases heq
      have hstep' : s.step (.thread turn) = some (.thread ret, { s with threads := threads₁ }) := by
        rw [step, hstep]
      have hrest := ih (s := { s with threads := threads₁ }) hrun
      rw [List.map_cons, runAll_cons hstep', hrest]
      rfl

end Monitored

/-- What a call of `size_approx` returns is the number of values held at its first load, less the values that are
popped before its second load, modulo `2 ^ 64`. -/
theorem Monitored.size_call {c : Capacity} {T : Type} {s : Monitored c T} {pushed popped : List T}
    {seenTail seenHead : Nat} (h : s.threads.Tracks pushed popped seenTail seenHead) (hidle : s.monitor = .idle)
    (during : List (Turn T)) :
    ∃ rets s' size,
      runAll Monitored.step s (.monitor :: during.map .thread ++ [.monitor]) =
        some (.size none :: rets.map .thread ++ [.size (some size)], s') ∧
      size = UInt64.ofNat (popped.length + (pushed.length - popped.length)) -
        UInt64.ofNat (popped.length + (pops rets).length) := by
  obtain ⟨rets, threads, seenTail', seenHead', hrun, htracks⟩ := h.run during
  have hfirst : s.step .monitor =
      some (.size none, { s with monitor := .loadTail s.threads.ring.producer.head }) := by
    rw [Monitored.step, Monitored.stepMonitor, hidle]
  have hduring := Monitored.runAll_threads
    (s := { s with monitor := .loadTail s.threads.ring.producer.head }) hrun
  have hboth : runAll Monitored.step s (.monitor :: during.map .thread) =
      some (.size none :: rets.map .thread,
        { threads := threads, monitor := .loadTail s.threads.ring.producer.head }) := by
    rw [runAll_cons hfirst, hduring]
    rfl
  refine ⟨rets, { threads := threads, monitor := .idle },
    s.threads.ring.producer.head - threads.ring.consumer.tail, runAll_append hboth rfl, ?_⟩
  have hle := h.le_seenHead.trans h.seenHead_le
  rw [h.head, htracks.tail, List.length_append, Nat.add_sub_cancel' hle]

/-- For every interleaving of the three threads: a call of `size_approx` that begins when the buffer holds `held`
values, and during which the consumer takes out `popped` values, returns at most the capacity exactly if `popped`,
modulo `2 ^ 64`, is at most `held`, or so much more that the difference wraps around to the capacity or less; and
`full_approx` reports the buffer as full exactly if it was full and nothing was taken out, or the difference wraps
around and is not that small. -/
theorem size_approx_iff {T : Type} (c : Capacity) (init : T) (before : List (MonitoredTurn T))
    (during : List (Turn T)) :
    ∃ outs s, runAll Monitored.step (Monitored.new c init) before = some (outs, s) ∧
      (s.monitor = .idle →
        ∃ rets s' size, runAll Monitored.step s (.monitor :: during.map .thread ++ [.monitor]) =
            some (.size none :: rets.map .thread ++ [.size (some size)], s') ∧
          (size.toNat ≤ c.value ↔
            (pops rets).length % 2 ^ 64 ≤ Monitored.itemsHeld outs ∨
              2 ^ 64 + Monitored.itemsHeld outs ≤ c.value + (pops rets).length % 2 ^ 64) ∧
          (fullApprox c size = true ↔
            (Monitored.itemsHeld outs = c.value ∧ (pops rets).length % 2 ^ 64 = 0) ∨
              (Monitored.itemsHeld outs < (pops rets).length % 2 ^ 64 ∧
                c.value + (pops rets).length % 2 ^ 64 ≤ 2 ^ 64 + Monitored.itemsHeld outs))) := by
  obtain ⟨outs, s, hrun, seenTail, seenHead, htracks⟩ := Monitored.tracks_run c init before
  refine ⟨outs, s, hrun, fun hidle => ?_⟩
  obtain ⟨rets, s', size, hcall, hsize⟩ := Monitored.size_call htracks hidle during
  have hheld : Monitored.itemsHeld outs ≤ c.value := by
    have hseen := htracks.seenTail_le
    have hroom := htracks.room
    unfold Monitored.itemsHeld
    omega
  have hcap := c.value_lt
  have hmod := Nat.mod_lt (pops rets).length (show 0 < 2 ^ 64 by decide)
  have hvalue := toNat_ofNat_sub_ofNat (pops (Monitored.threadReturns outs)).length (pops rets).length
    (h := Monitored.itemsHeld outs) (by omega)
  unfold Monitored.itemsHeld at hvalue hheld ⊢
  rw [← hsize] at hvalue
  refine ⟨rets, s', size, hcall, ?_, ?_⟩
  · rw [hvalue]
    split <;> omega
  · rw [fullApprox, decide_eq_true_iff, ge_iff_le, UInt64.le_iff_toNat_le, UInt64.toNat_ofNat_of_lt' hcap, hvalue]
    split <;> omega

/-- Room for two values. -/
def twoSlots : Capacity := ⟨1, by decide, by decide⟩

/-- One value is pushed and popped. -/
def pushAndPop : List (Turn Nat) :=
  [.producer 7, .producer 7, .producer 7, .consumer, .consumer, .consumer, .consumer]

/-- If a value is pushed and popped between the two loads, `size_approx` returns `2 ^ 64 - 1` and `full_approx`
reports the buffer as full, though it has room for two values and held at most one throughout the call. -/
theorem size_approx_overtaken :
    (∃ (rets : List (Option (Return Nat))) (s' : Monitored twoSlots Nat) (size : UInt64),
      runAll Monitored.step (Monitored.new twoSlots 0)
          (.monitor :: pushAndPop.map .thread ++ [.monitor]) =
        some (.size none :: rets.map .thread ++ [.size (some size)], s') ∧
      size.toNat = 2 ^ 64 - 1 ∧ fullApprox twoSlots size = true) ∧
    ∀ part ∈ pushAndPop.inits, ∃ outs s,
      runAll Monitored.step (Monitored.new twoSlots 0) (.monitor :: part.map .thread) =
        some (outs, s) ∧ Monitored.itemsHeld outs ≤ 1 := by
  constructor
  · refine ⟨[none, none, some (.pushed 7), none, none, none, some (.popped 7)], _, 18446744073709551615, rfl, ?_, ?_⟩
    · rfl
    · rfl
  · intro part hpart
    have hcases : part ∈ [[], [.producer 7], [.producer 7, .producer 7], pushAndPop.take 3, pushAndPop.take 4,
      pushAndPop.take 5, pushAndPop.take 6, pushAndPop] := hpart
    simp only [List.mem_cons, List.not_mem_nil, or_false] at hcases
    rcases hcases with rfl | rfl | rfl | rfl | rfl | rfl | rfl | rfl
    all_goals exact ⟨_, _, rfl, by decide⟩

end Exchange
