import Exchange.FanInThreads
import Exchange.Publication

/-!
# From the clients' threads to the feed

The pipeline of `docs/architecture.md`: each client pushes its requests into its own queue of a `FanInSequencer`, and
the sequencer thread drains the queues, takes a timestamp of a `DeterministicClock` and hands the request to the
`ReplayEngine`, which only this thread touches.

* Whatever the interleaving, the engine is as after a sequential run over one log of requests, of which each client's
  part is what the client has pushed, in its order and up to the requests that still wait in its queue.
* A request that has been pushed is answered by a report after a bounded number of steps of the sequencer thread and
  behind a bounded number of other reports.
-/

namespace Exchange

/-- `DeterministicClock`, a counter. -/
structure DeterministicClock where
  current : Int := 0
  step : Int := 1

def DeterministicClock.tick (clock : DeterministicClock) : Int × DeterministicClock :=
  (clock.current, { clock with current := clock.current + clock.step })

/-- What a client pushes. -/
inductive Request where
  | newOrder (wire : NewOrderMessage)
  | cancel (wire : CancelOrderMessage)
  | replace (wire : ReplaceOrderMessage)

namespace Request

def orderId : Request → OrderId
  | .newOrder wire => wire.orderId
  | .cancel wire => wire.orderId
  | .replace wire => wire.orderId

/-- The call of the replay engine for a request.  `process_cancel` is the one that takes no timestamp. -/
def stamp (clock : DeterministicClock) : Request → Event × DeterministicClock
  | .newOrder wire => (.newOrder wire clock.tick.1, clock.tick.2)
  | .cancel wire => (.cancel wire, clock)
  | .replace wire => (.replace wire clock.tick.1, clock.tick.2)

/-- The calls for the requests of a log. -/
def stampAll (clock : DeterministicClock) : List Request → List Event
  | [] => []
  | req :: reqs => (req.stamp clock).1 :: stampAll (req.stamp clock).2 reqs

def clockAfter (clock : DeterministicClock) (reqs : List Request) : DeterministicClock :=
  reqs.foldl (fun clock req => (req.stamp clock).2) clock

theorem stampAll_concat (clock : DeterministicClock) (reqs : List Request) (req : Request) :
    stampAll clock (reqs ++ [req]) = stampAll clock reqs ++ [(req.stamp (clockAfter clock reqs)).1] := by
  induction reqs generalizing clock with
  | nil => rfl
  | cons first reqs ih =>
    simp only [List.cons_append, stampAll, ih]
    rfl

theorem clockAfter_concat (clock : DeterministicClock) (reqs : List Request) (req : Request) :
    clockAfter clock (reqs ++ [req]) = (req.stamp (clockAfter clock reqs)).2 := by
  simp only [clockAfter, List.foldl_append, List.foldl_cons, List.foldl_nil]

theorem orderId_stamp (clock : DeterministicClock) (req : Request) :
    (req.stamp clock).1.orderId? = some req.orderId := by
  cases req <;> rfl

end Request

/-! ### The log of the sequencer -/

section

variable {n : Nat} {T : Type}

/-- The items in the order in which they have been drained, each with its producer. -/
def drainLog (rets : List (FanInReturn n T)) : List (Fin n × T) :=
  rets.filterMap fun
    | .drained out source => some (source, out)
    | _ => none

/-- The part of one producer. -/
def logOf (i : Fin n) (log : List (Fin n × T)) : List T :=
  log.filterMap fun entry => if entry.1 = i then some entry.2 else none

theorem drainLog_append (rets rets' : List (FanInReturn n T)) :
    drainLog (rets ++ rets') = drainLog rets ++ drainLog rets' :=
  List.filterMap_append

theorem logOf_drainLog (i : Fin n) (rets : List (FanInReturn n T)) :
    logOf i (drainLog rets) = FanInSequencer.drainedFrom i rets := by
  induction rets with
  | nil => rfl
  | cons ret rets ih =>
    simp only [drainLog, logOf, FanInSequencer.drainedFrom, List.flatMap_cons] at ih ⊢
    cases ret with
    | drained out source =>
      by_cases hsource : source = i
      · simp [hsource, ih]
      · simp [hsource, ih]
    | _ => simpa using ih

theorem length_drainLog (rets : List (FanInReturn n T)) :
    (drainLog rets).length = FanInSequencer.drains rets := by
  induction rets with
  | nil => rfl
  | cons ret rets ih =>
    simp only [drainLog, FanInSequencer.drains] at ih ⊢
    cases ret with
    | drained out source => simp [ih, Nat.add_comm]
    | _ => simpa using ih

end

/-! ### The threads -/

structure Pipeline (n : Nat) (c : Capacity) (P : Params) (M X : Type) where
  fanIn : FanInThreads n c Request
  clock : DeterministicClock := {}
  engine : ReplayEngine P M X

namespace Pipeline

open FanInSequencer FanInThreads

variable {n : Nat} {c : Capacity} {P : Params} {M X : Type} [DenseMap M OrderId Nat]
  [DenseMap X UInt64 ClientExposure]

def new (c : Capacity) (hn : 0 < n) (init : Request) (clock : DeterministicClock) (engine : ReplayEngine P M X) :
    Pipeline n c P M X where
  fanIn := FanInThreads.new c hn init
  clock := clock
  engine := engine

/-- The sequencer thread with a request it has drained. -/
def handle (s : Pipeline n c P M X) (req : Request) : Option (Pipeline n c P M X) :=
  let (ev, clock) := req.stamp s.clock
  match s.engine.process ev with
  | none => none
  | some (_, engine) => some { s with clock := clock, engine := engine }

def step (s : Pipeline n c P M X) (turn : FanInTurn n Request) :
    Option (Option (FanInReturn n Request) × Pipeline n c P M X) :=
  match s.fanIn.step turn with
  | none => none
  | some (ret, fanIn) =>
    let s := { s with fanIn := fanIn }
    match ret with
    -- no client sees the clock or the engine, so the request is handled in the step in which the drain returns
    | some (.drained req _) =>
      match s.handle req with
      | none => none
      | some s => some (ret, s)
    | _ => some (ret, s)

/-- The order ids of the reports in the feed. -/
def reported (s : Pipeline n c P M X) : List OrderId :=
  (s.engine.feed.sink.filterMap Message.report?).map (·.orderId)

/-- The engine has run over the requests `reqs` from `engine₀`, with the timestamps of `clock₀`. -/
structure Serves (clock₀ : DeterministicClock) (engine₀ : ReplayEngine P M X) (reqs : List Request)
    (s : Pipeline n c P M X) : Prop where
  run : ∃ outs, runAll ReplayEngine.process engine₀ (Request.stampAll clock₀ reqs) = some (outs, s.engine)
  clock : s.clock = Request.clockAfter clock₀ reqs
  book : ∃ r, Refines s.engine.matching r
  reported : s.reported = (engine₀.feed.sink.filterMap Message.report?).map (·.orderId) ++ reqs.map Request.orderId

variable {clock₀ : DeterministicClock} {engine₀ : ReplayEngine P M X} {reqs : List Request} {s : Pipeline n c P M X}

theorem Serves.of_eq {s' : Pipeline n c P M X} (h : s.Serves clock₀ engine₀ reqs) (hclock : s'.clock = s.clock)
    (hengine : s'.engine = s.engine) : s'.Serves clock₀ engine₀ reqs where
  run := by rw [hengine]; exact h.run
  clock := by rw [hclock]; exact h.clock
  book := by rw [hengine]; exact h.book
  reported := by rw [Pipeline.reported, hengine]; exact h.reported

/-- A request is handled as the next one of the log, and answered by one report. -/
theorem Serves.handle (h : s.Serves clock₀ engine₀ reqs) (req : Request) :
    ∃ s', s.handle req = some s' ∧ s'.fanIn = s.fanIn ∧ s'.Serves clock₀ engine₀ (reqs ++ [req]) := by
  obtain ⟨outs, hrun⟩ := h.run
  obtain ⟨r, hR⟩ := h.book
  obtain ⟨out, engine, r', hprocess, houtcome⟩ := process_outcome hR (req.stamp s.clock).1
  have hpriced : (req.stamp s.clock).1.Priced fun _ => True := by cases req <;> trivial
  obtain ⟨ms, rep, hans⟩ := houtcome.answers (Q := fun _ => True) hR (fun _ _ => trivial) hpriced
    (Request.orderId_stamp s.clock req)
  refine ⟨{ s with clock := (req.stamp s.clock).2, engine := engine }, ?_, rfl, ?_, ?_, ⟨r', ?_⟩, ?_⟩
  · simp only [Pipeline.handle, hprocess]
  · refine ⟨outs ++ [out], ?_⟩
    rw [Request.stampAll_concat, ← h.clock]
    refine runAll_append hrun ?_
    rw [runAll_cons hprocess]
    rfl
  · rw [Request.clockAfter_concat, ← h.clock]
  · exact (houtcome.handled hR).refines hR
  · have hquiet : ms.filterMap Message.report? = [] := List.filterMap_eq_nil_iff.2 hans.marketData.others
    have hbefore := h.reported
    unfold Pipeline.reported at hbefore ⊢
    simp only [hans.appends.sink, List.filterMap_append, List.map_append, hbefore, hquiet]
    simp [Message.report?, hans.orderId]

/-! ### Every interleaving -/

/-- The invariant over the returns `rets` so far. -/
structure Serial (clock₀ : DeterministicClock) (engine₀ : ReplayEngine P M X) (rets : List (FanInReturn n Request))
    (s : Pipeline n c P M X) : Prop where
  reached : s.fanIn.Reached rets
  serves : s.Serves clock₀ engine₀ ((drainLog rets).map Prod.snd)

variable {rets : List (FanInReturn n Request)}

theorem serial_new (c : Capacity) (hn : 0 < n) (init : Request) (clock : DeterministicClock) (symbol : SymbolId)
    (basePrice : Int) (risk : RiskEngine X) :
    (Pipeline.new c hn init clock (ReplayEngine.new (P := P) (M := M) symbol basePrice risk)).Serial clock
      (ReplayEngine.new symbol basePrice risk) [] where
  reached := FanInThreads.tracks_new c hn init
  serves := ⟨⟨[], rfl⟩, rfl, ⟨_, refines_new symbol basePrice⟩, rfl⟩

theorem Serial.step (h : s.Serial clock₀ engine₀ rets) (turn : FanInTurn n Request) :
    ∃ ret s', s.step turn = some (ret, s') ∧ s.fanIn.step turn = some (ret, s'.fanIn) ∧
      s'.Serial clock₀ engine₀ (rets ++ ret.toList) := by
  obtain ⟨ret, fanIn, hstep, hreached⟩ := h.reached.step turn
  have hwaits : Serves clock₀ engine₀ ((drainLog rets).map Prod.snd) { s with fanIn := fanIn } :=
    h.serves.of_eq rfl rfl
  -- all returns but that of a request leave the log as it is
  have hquiet : drainLog ret.toList = [] → Serial clock₀ engine₀ (rets ++ ret.toList) { s with fanIn := fanIn } := by
    intro hlog
    refine ⟨hreached, ?_⟩
    rw [drainLog_append, hlog, List.append_nil]
    exact hwaits
  rcases ret with _ | (_ | _ | ⟨req, source⟩ | _)
  case some.drained =>
    obtain ⟨s', hhandle, hfanIn, hserves⟩ := hwaits.handle req
    refine ⟨some (.drained req source), s', ?_, ?_, ?_, ?_⟩
    · simp only [Pipeline.step, hstep, hhandle]
    · rw [hstep, hfanIn]
    · rw [hfanIn]
      exact hreached
    · rw [drainLog_append, List.map_append]
      exact hserves
  all_goals exact ⟨_, _, by simp only [Pipeline.step, hstep], hstep, hquiet rfl⟩

/-- The queues of the pipeline do what they do without the engine. -/
theorem Serial.run (h : s.Serial clock₀ engine₀ rets) (turns : List (FanInTurn n Request)) :
    ∃ outs s', runAll Pipeline.step s turns = some (outs, s') ∧
      runAll FanInThreads.step s.fanIn turns = some (outs, s'.fanIn) ∧
      s'.Serial clock₀ engine₀ (rets ++ returns outs) := by
  induction turns generalizing s rets with
  | nil => exact ⟨[], s, rfl, rfl, by simpa [returns] using h⟩
  | cons turn turns ih =>
    obtain ⟨ret, s₁, hstep, hfanIn, h₁⟩ := h.step turn
    obtain ⟨outs, s', hrun, hrunFanIn, h'⟩ := ih h₁
    refine ⟨ret :: outs, s', ?_, ?_, ?_⟩
    · rw [runAll_cons hstep, hrun]
      rfl
    · rw [runAll_cons hfanIn, hrunFanIn]
      rfl
    · rw [← List.singleton_append, returns_append, returns_singleton, ← List.append_assoc]
      exact h'

/-- The clients' threads are serialised.  After any turns of the clients and the sequencer thread there is one log of
requests such that the engine, with its book, its accounts and its feed, is what the sequential run over this log
leaves; the feed has one report for each request of the log, in the order of the log; and what a client has pushed is
its part of the log followed by at most `QueueCapacity` requests that wait. -/
theorem clients_serialized (c : Capacity) (hn : 0 < n) (init : Request) (clock : DeterministicClock)
    (symbol : SymbolId) (basePrice : Int) (risk : RiskEngine X) (turns : List (FanInTurn n Request)) :
    ∃ rets s log outs,
      runAll step (Pipeline.new c hn init clock (ReplayEngine.new (P := P) (M := M) symbol basePrice risk)) turns =
        some (rets, s) ∧
      runAll ReplayEngine.process (ReplayEngine.new symbol basePrice risk)
        (Request.stampAll clock (log.map Prod.snd)) = some (outs, s.engine) ∧
      s.reported = log.map (fun entry => entry.2.orderId) ∧
      ∀ i, ∃ waiting, pushedFrom i (returns rets) = logOf i log ++ waiting ∧ waiting.length ≤ c.value := by
  obtain ⟨rets, s, hrun, -, h⟩ := (serial_new (P := P) (M := M) c hn init clock symbol basePrice risk).run turns
  rw [List.nil_append] at h
  obtain ⟨outs, hserves⟩ := h.serves.run
  refine ⟨rets, s, drainLog (returns rets), outs, hrun, hserves, ?_, fun i => ?_⟩
  · rw [h.serves.reported, List.map_map]
    rfl
  · obtain ⟨seenTail, seenHead, htracks⟩ := h.reached.queue i
    obtain ⟨waiting, hwaiting⟩ := htracks.fifo
    have hlength := congrArg List.length hwaiting
    have hseen := htracks.seenTail_le
    have hroom := htracks.room
    rw [List.length_append] at hlength
    exact ⟨waiting, by rw [logOf_drainLog, hwaiting], by omega⟩

/-- Two clients on an empty book, for concrete runs. -/
def twoClients (c : Capacity) : Pipeline 2 c tinyParams IdMap ExposureMap :=
  Pipeline.new c Nat.two_pos (.cancel { orderId := 0, clientId := 0, symbolId := 0 }) {}
    (ReplayEngine.new 7 100 (RiskEngine.new looseLimits))

/-- The first client's order is drained before the second one pushes. -/
theorem clients_serialized_two :
    ∃ rets s log outs,
      runAll step (twoClients { log := 1, pos := by decide, lt := by decide })
        (List.replicate 3 (.producer 0 (.newOrder (limitDay 1 1 .sell 100 3))) ++ List.replicate 5 .sequencer ++
          List.replicate 3 (.producer 1 (.newOrder (limitDay 2 2 .buy 100 5)))) = some (rets, s) ∧
      runAll ReplayEngine.process (ReplayEngine.new 7 100 (RiskEngine.new looseLimits))
        (Request.stampAll {} (log.map Prod.snd)) = some (outs, Pipeline.engine s) ∧
      ∀ i, ∃ waiting, pushedFrom i (returns rets) = logOf i log ++ waiting := by
  obtain ⟨rets, s, log, outs, hrun, hengine, -, hclients⟩ := clients_serialized (n := 2) (P := tinyParams) (M := IdMap)
    { log := 1, pos := by decide, lt := by decide } (by decide)
    (.cancel { orderId := 0, clientId := 0, symbolId := 0 }) {} 7 100
    (RiskEngine.new looseLimits : RiskEngine ExposureMap)
    (List.replicate 3 (.producer 0 (.newOrder (limitDay 1 1 .sell 100 3))) ++ List.replicate 5 .sequencer ++
      List.replicate 3 (.producer 1 (.newOrder (limitDay 2 2 .buy 100 5))))
  refine ⟨rets, s, log, outs, hrun, hengine, fun i => ?_⟩
  obtain ⟨waiting, hwaiting, -⟩ := hclients i
  exact ⟨waiting, hwaiting⟩

/-- A request that has been pushed is answered.  After any turns, let `waiting` be the requests of client `i` that have
been pushed and not handled.  Any further turns with at least `(5 * NumProducers + 4) * waiting.length` of the
sequencer thread among them, whatever the clients do, have a beginning after which just these requests of the client
have been handled, with a report for each, and no more than `NumProducers` requests of others for each of them. -/
theorem pushed_requests_answered (c : Capacity) (hn : 0 < n) (init : Request) (clock : DeterministicClock)
    (symbol : SymbolId) (basePrice : Int) (risk : RiskEngine X) (turns : List (FanInTurn n Request)) :
    ∃ rets s,
      runAll step (Pipeline.new c hn init clock (ReplayEngine.new (P := P) (M := M) symbol basePrice risk)) turns =
        some (rets, s) ∧
      ∀ i waiting further, drainedFrom i (returns rets) ++ waiting = pushedFrom i (returns rets) →
        waiting.length * (5 * n + 4) ≤ sequencerTurns further →
        ∃ turns₁ turns₂ rets₁ s₁ log, further = turns₁ ++ turns₂ ∧ runAll step s turns₁ = some (rets₁, s₁) ∧
          s₁.reported = s.reported ++ log.map (fun entry => entry.2.orderId) ∧ logOf i log = waiting ∧
          log.length ≤ waiting.length * (n + 1) := by
  obtain ⟨rets, s, hrun, -, h⟩ := (serial_new (P := P) (M := M) c hn init clock symbol basePrice risk).run turns
  rw [List.nil_append] at h
  refine ⟨rets, s, hrun, fun i waiting further hwaiting hmany => ?_⟩
  obtain ⟨turns₁, turns₂, rets₁, fanIn, hsplit, hrunFanIn, hdrained, hbound⟩ :=
    h.reached.backlog ⟨[], by rw [List.append_nil, hwaiting]⟩ further hmany
  obtain ⟨outs, s₁, hrun₁, hrunFanIn', h₁⟩ := h.run turns₁
  -- the same steps of the queues, so the same returns
  have hsame : outs = rets₁ := by
    rw [hrunFanIn] at hrunFanIn'
    exact (Prod.mk.inj (Option.some.inj hrunFanIn')).1.symm
  subst hsame
  refine ⟨turns₁, turns₂, outs, s₁, drainLog (returns outs), hsplit, hrun₁, ?_, ?_, ?_⟩
  · rw [h₁.serves.reported, h.serves.reported, drainLog_append]
    simp
  · rw [logOf_drainLog, hdrained]
  · rw [length_drainLog]
    exact hbound

/-- The order of client 1 waits, and is answered within the next 14 steps of the sequencer thread. -/
theorem pushed_requests_answered_two :
    ∃ rets s,
      runAll step (twoClients { log := 1, pos := by decide, lt := by decide })
        (List.replicate 3 (.producer 1 (.newOrder (limitDay 1 1 .sell 100 3)))) = some (rets, s) ∧
      ∃ turns₁ turns₂ rets₁ s₁ log, (List.replicate 14 .sequencer : List (FanInTurn 2 Request)) = turns₁ ++ turns₂ ∧
        runAll step s turns₁ = some (rets₁, s₁) ∧
        s₁.reported = s.reported ++ log.map (fun entry : Fin 2 × Request => entry.2.orderId) ∧
        logOf 1 log = [.newOrder (limitDay 1 1 .sell 100 3)] := by
  obtain ⟨rets, s, hrun, h⟩ := pushed_requests_answered (n := 2) (P := tinyParams) (M := IdMap)
    { log := 1, pos := by decide, lt := by decide } (by decide)
    (.cancel { orderId := 0, clientId := 0, symbolId := 0 }) {} 7 100
    (RiskEngine.new looseLimits : RiskEngine ExposureMap)
    (List.replicate 3 (.producer 1 (.newOrder (limitDay 1 1 .sell 100 3))))
  refine ⟨rets, s, hrun, ?_⟩
  cases hrun
  obtain ⟨turns₁, turns₂, rets₁, s₁, log, hsplit, hrun₁, hreported, hlog, -⟩ :=
    h 1 [.newOrder (limitDay 1 1 .sell 100 3)] (List.replicate 14 .sequencer) rfl (by decide)
  exact ⟨turns₁, turns₂, rets₁, s₁, log, hsplit, hrun₁, hreported, hlog⟩

end Pipeline

end Exchange
