import Exchange.Publication

/-!
# Who can pull or change an order

`process_cancel` and `process_replace` look a resting order up by its id alone.  The client and the symbol of the
message are read only for the report that the id is unknown, so anyone who names a resting order can cancel or replace
it. Apart from such requests, an order changes only by being traded with.
-/

namespace Exchange

open OrderBook DenseMap

/-- The event is a request to cancel or replace the order with this id. -/
def Event.Amends (id : OrderId) : Event → Prop
  | .cancel wire => wire.orderId = id
  | .replace wire _ => wire.orderId = id
  | _ => False

/-- The same request from another client, or for another symbol. -/
def Event.readdress (client : ClientId) (symbol : SymbolId) : Event → Event
  | .cancel wire => .cancel { wire with clientId := client, symbolId := symbol }
  | .replace wire ts => .replace { wire with clientId := client, symbolId := symbol } ts
  | ev => ev

/-! ### One event -/

theorem RefEngine.Submitted.survives {P : Params} {r r' : RefEngine P} {o x : Order} {fs : List Fill}
    {res : NewOrderResult} (h : r.Submitted o res r' fs) (hr : r.Valid) (hx : x ∈ r.resting)
    (hlt : filledAgainst x.id fs < x.remaining) :
    { x with remaining := x.remaining - filledAgainst x.id fs } ∈ r'.resting := by
  cases h with
  | refused _ _ =>
    have hzero : x.remaining - filledAgainst x.id [] = x.remaining := sub_zero _
    rw [hzero]
    exact hx
  | rested hexec _ _ _ _ => exact List.mem_append_left _ (hexec.sweep.survives hr hx hlt)
  | full hexec _ _ _ _ => exact hexec.sweep.survives hr hx hlt
  | ended hexec _ => exact hexec.sweep.survives hr hx hlt

section

variable {P : Params} {M X : Type} [DenseMap M OrderId Nat] [DenseMap X UInt64 ClientExposure]
  {s s' : ReplayEngine P M X} {r r' : RefEngine P} {ev : Event} {out : Option Submission}

theorem Outcome.fills_pos (h : Outcome s r ev out s' r') (hr : r.Valid) :
    ∀ f ∈ submissionFills out, 0 < f.quantity := by
  intro f hf
  cases h with
  | submitted _ hsub _ =>
    obtain ⟨x, -, -, hfill⟩ := hsub.counterparty hr hf
    exact hfill.quantity_pos
  | @replaced _ _ _ o _ _ _ _ _ _ _ _ hsub _ _ =>
    obtain ⟨x, -, -, hfill⟩ := hsub.counterparty (hr.removeOrder o.id) hf
    exact hfill.quantity_pos
  | _ => cases hf

/-- An event that does not name a resting order takes from it what it is filled with, and nothing else. -/
theorem Outcome.survives (h : Outcome s r ev out s' r') (hr : r.Valid) {x : Order} (hx : x ∈ r.resting)
    (hev : ¬ ev.Amends x.id) (hlt : filledAgainst x.id (submissionFills out) < x.remaining) :
    { x with remaining := x.remaining - filledAgainst x.id (submissionFills out) } ∈ r'.resting := by
  have hzero : x.remaining - filledAgainst x.id [] = x.remaining := sub_zero _
  cases h with
  | submitted _ hsub _ => exact hsub.survives hr hx hlt
  | @cancelled wire o _ _ hid _ =>
    have hne : x.id ≠ o.id := fun e => hev (hid.symm.trans e.symm)
    show { x with remaining := x.remaining - filledAgainst x.id [] } ∈ _
    rw [hzero]
    exact mem_removeOrder.2 ⟨hx, hne⟩
  | @replaced wire _ _ o _ _ _ _ _ _ _ hid hsub _ _ =>
    have hne : x.id ≠ o.id := fun e => hev (hid.symm.trans e.symm)
    exact hsub.survives (hr.removeOrder o.id) (mem_removeOrder.2 ⟨hx, hne⟩) hlt
  | _ =>
    show { x with remaining := x.remaining - filledAgainst x.id [] } ∈ _
    rw [hzero]
    exact hx

/-! ### Runs -/

/-- If none of the events named `x`, and it is not filled completely, it is among the orders of `r`, with nothing but
its remaining quantity changed. -/
def Survives (x : Order) (events : List Event) (outs : List (Option Submission)) (r : RefEngine P) : Prop :=
  (∀ ev ∈ events, ¬ ev.Amends x.id) → filledAgainst x.id (runFills outs) < x.remaining →
    { x with remaining := x.remaining - filledAgainst x.id (runFills outs) } ∈ r.resting

theorem Survives.step {x : Order} {events : List Event} {outs : List (Option Submission)}
    (hsurvives : Survives x events outs r) (h : Outcome s r ev out s' r') (hr : r.Valid) :
    Survives x (events ++ [ev]) (outs ++ [out]) r' := by
  intro hevents hlt
  rw [runFills_concat, filledAgainst_append] at hlt ⊢
  have hnonneg := filledAgainst_nonneg (h.fills_pos hr) x.id
  have hbefore := hsurvives (fun ev' hev' => hevents ev' (List.mem_append_left _ hev')) (by omega)
  -- the order as it was left before the event
  have hafter := h.survives hr hbefore (hevents ev (by simp)) (by dsimp only; omega)
  dsimp only at hafter
  rw [sub_sub] at hafter
  exact hafter

theorem survives_run (hR : Refines s.matching r) {x : Order} (hx : x ∈ r.resting) (events : List Event) :
    ∃ outs s' r', runAll ReplayEngine.process s events = some (outs, s') ∧ Refines s'.matching r' ∧
      Survives x events outs r' := by
  have hstep : ∀ (evs : List Event) (outs : List (Option Submission)) (s : ReplayEngine P M X) (ev : Event),
      (∃ r, Refines s.matching r ∧ Survives x evs outs r) →
      ∃ out s', s.process ev = some (out, s') ∧
        ∃ r, Refines s'.matching r ∧ Survives x (evs ++ [ev]) (outs ++ [out]) r := by
    intro evs outs s ev hinv
    obtain ⟨r, hR, hsurvives⟩ := hinv
    obtain ⟨out, s', r', hprocess, houtcome⟩ := process_outcome hR ev
    exact ⟨out, s', hprocess, r', (houtcome.handled hR).refines hR, hsurvives.step houtcome hR.valid⟩
  have hstart : Survives x [] [] r := by
    intro _ _
    have hzero : x.remaining - filledAgainst x.id (runFills []) = x.remaining := sub_zero _
    rw [hzero]
    exact hx
  obtain ⟨outs, s', hrun, r', hR', hsurvives⟩ := runAll_history
    (fun evs outs (s : ReplayEngine P M X) => ∃ r, Refines s.matching r ∧ Survives x evs outs r) hstep events s
    ⟨r, hR, hstart⟩
  exact ⟨outs, s', r', hrun, hR', hsurvives⟩

/-! ### Requests that name an order -/

/-- Nobody asks who sends the request. -/
theorem process_readdress {id : OrderId} {n : Nat} (hfind : s.matching.book.findNode id = some n) (hev : ev.Amends id)
    (client : ClientId) (symbol : SymbolId) : s.process (ev.readdress client symbol) = s.process ev := by
  cases ev with
  | cancel wire =>
    have hid : wire.orderId = id := hev
    unfold Event.readdress ReplayEngine.process ReplayEngine.processCancel
    dsimp only
    rw [hid, hfind]
  | replace wire ts =>
    have hid : wire.orderId = id := hev
    unfold Event.readdress ReplayEngine.process ReplayEngine.processReplace
    dsimp only
    rw [hid, hfind]
  | newOrder _ _ => exact hev.elim
  | engageKillSwitch => exact hev.elim
  | disengageKillSwitch => exact hev.elim

/-- The report on a request that names a resting order goes to the client of the order. -/
theorem Outcome.reports_owner (h : Outcome s r ev out s' r') (hr : r.Valid) {x : Order} (hx : x ∈ r.resting)
    (hev : ev.Amends x.id) :
    ∃ rep, s'.feed.sink.getLast? = some (.executionReport rep) ∧ rep.orderId = x.id ∧ rep.clientId = x.client ∧
      rep.symbolId = x.symbol := by
  cases h with
  | refusedByRisk _ => exact hev.elim
  | submitted _ _ _ => exact hev.elim
  | cancelRefused hfree => exact absurd hev.symm (hfree x hx)
  | @cancelled wire o _ hmem hid _ =>
    obtain rfl := hr.ids.eq_of_id hmem hx (hid.trans hev)
    exact ⟨_, List.getLast?_concat, hid.symm, rfl, rfl⟩
  | replaceUnknown hfree => exact absurd hev.symm (hfree x hx)
  | @replaceRefused wire _ _ o _ _ _ hmem hid _ _ =>
    obtain rfl := hr.ids.eq_of_id hmem hx (hid.trans hev)
    exact ⟨_, List.getLast?_concat, hid.symm, rfl, rfl⟩
  | @replaced wire _ _ o _ _ _ _ _ _ hmem hid _ _ _ =>
    obtain rfl := hr.ids.eq_of_id hmem hx (hid.trans hev)
    exact ⟨_, List.getLast?_concat, hid.symm, rfl, rfl⟩
  | engageKillSwitch => exact hev.elim
  | disengageKillSwitch => exact hev.elim

/-- A request that names no resting order is rejected. -/
theorem process_unknown {id : OrderId} (hfind : s.matching.book.findNode id = none) (hev : ev.Amends id) :
    ∃ s' rep, s.process ev = some (none, s') ∧ s'.matching = s.matching ∧ s'.risk = s.risk ∧
      s'.feed.sink = s.feed.sink ++ [.executionReport rep] ∧ rep.orderId = id ∧ rep.execType = .rejected ∧
      rep.rejectReason = .unknownOrder := by
  cases ev with
  | cancel wire =>
    have hid : wire.orderId = id := hev
    unfold ReplayEngine.process ReplayEngine.processCancel
    dsimp only
    rw [hid, hfind]
    exact ⟨_, _, rfl, rfl, rfl, rfl, rfl, rfl, rfl⟩
  | replace wire ts =>
    have hid : wire.orderId = id := hev
    unfold ReplayEngine.process ReplayEngine.processReplace
    dsimp only
    rw [hid, hfind]
    exact ⟨_, _, rfl, rfl, rfl, rfl, rfl, rfl, rfl⟩
  | newOrder _ _ => exact hev.elim
  | engageKillSwitch => exact hev.elim
  | disengageKillSwitch => exact hev.elim

end

/-- In every state a run of events leads to: a cancel or replace of a resting order does the same whatever client and
symbol it carries, and is reported to the client of the order; one that names no resting order is rejected and changes
neither the book nor the exposures; and through any further events that do not name it a resting order is kept, with
what it has been filled with taken off, until that is everything. -/
theorem only_named_orders_change {P : Params} {M X : Type} [DenseMap M OrderId Nat] [DenseMap X UInt64 ClientExposure]
    (symbol : SymbolId) (basePrice : Int) (risk : RiskEngine X) (events : List Event) :
    ∃ outs s, runAll ReplayEngine.process (ReplayEngine.new symbol basePrice risk : ReplayEngine P M X) events =
        some (outs, s) ∧
      (∀ id n, s.matching.book.findNode id = some n → ∀ ev : Event, ev.Amends id →
        (∀ client sym, s.process (ev.readdress client sym) = s.process ev) ∧
        ∃ out s' rep, s.process ev = some (out, s') ∧ s'.feed.sink.getLast? = some (.executionReport rep) ∧
          rep.orderId = id ∧ rep.clientId = (s.matching.book.node n).order.client ∧
          rep.symbolId = (s.matching.book.node n).order.symbol) ∧
      (∀ id, s.matching.book.findNode id = none → ∀ ev : Event, ev.Amends id →
        ∃ s' rep, s.process ev = some (none, s') ∧ s'.matching = s.matching ∧ s'.risk = s.risk ∧
          s'.feed.sink = s.feed.sink ++ [.executionReport rep] ∧ rep.orderId = id ∧ rep.execType = .rejected ∧
          rep.rejectReason = .unknownOrder) ∧
      ∀ id n, s.matching.book.findNode id = some n → ∀ further : List Event, (∀ ev ∈ further, ¬ ev.Amends id) →
        ∃ outs' s', runAll ReplayEngine.process s further = some (outs', s') ∧
          (filledAgainst id (runFills outs') < (s.matching.book.node n).order.remaining →
            ∃ n', s'.matching.book.findNode id = some n' ∧
              (s'.matching.book.node n').order =
                { (s.matching.book.node n).order with
                  remaining := (s.matching.book.node n).order.remaining - filledAgainst id (runFills outs') }) := by
  obtain ⟨outs, s, r, hrun, hR, -⟩ := process_run (P := P) (M := M) (fun _ _ => True) (fun _ _ _ => trivial) symbol
    basePrice risk events trivial
  refine ⟨outs, s, hrun, ?_, ?_, ?_⟩
  · intro id n hfind ev hev
    obtain ⟨hmem, rfl⟩ := hR.holds.findNode_mem hfind
    obtain ⟨out, s', r', hprocess, houtcome⟩ := process_outcome hR ev
    obtain ⟨rep, hlast, horder, hclient, hsym⟩ := houtcome.reports_owner hR.valid hmem hev
    exact ⟨process_readdress hfind hev, out, s', rep, hprocess, hlast, horder, hclient, hsym⟩
  · intro id hfind ev hev
    exact process_unknown hfind hev
  · intro id n hfind further hfurther
    obtain ⟨hmem, rfl⟩ := hR.holds.findNode_mem hfind
    obtain ⟨outs', s', r', hrun', hR', hsurvives⟩ := survives_run hR hmem further
    refine ⟨outs', s', hrun', fun hlt => ?_⟩
    obtain ⟨n', hfind', hn'⟩ := hR'.holds.exists_node (hsurvives hfurther hlt)
    exact ⟨n', hfind', hn'⟩

/-- Client 2 cancels the order of client 1. -/
theorem stranger_cancels :
    ∃ outs s s' rep, runAll ReplayEngine.process
        (ReplayEngine.new (P := tinyParams) (M := IdMap) 7 100 (RiskEngine.new looseLimits : RiskEngine ExposureMap))
        [.newOrder (limitDay 1 1 .buy 100 5) 0] = some (outs, s) ∧
      (s.matching.book.findNode 1).map (fun n => (s.matching.book.node n).order.client) = some 1 ∧
      s.process (.cancel { orderId := 1, clientId := 2, symbolId := 7 }) = some (none, s') ∧
      s'.matching.book.findNode 1 = none ∧ s'.feed.sink.getLast? = some (.executionReport rep) ∧
      rep.execType = .cancelled :=
  ⟨_, _, _, _, rfl, rfl, rfl, rfl, rfl, rfl⟩

end Exchange
