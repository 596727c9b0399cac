import Exchange.Publication

/-!
# Time priority

The levels of the book are queues, and matching never looks at the sequence numbers of the orders.  Still, the queues
are sorted by sequence: an order joins at the back with the newest number, and a fill leaves an order in its place.
An incoming order therefore consumes the orders at a price by their sequence numbers.
-/

namespace Exchange

open OrderBook DenseMap

/-! ### The resting orders -/

/-- The sequence numbers of the orders increase and none is above `n`. -/
structure SequencedUpTo (n : Nat) (L : List Order) : Prop where
  sorted : (L.map Order.sequence).Pairwise (· < ·)
  bound : ∀ q ∈ L.map Order.sequence, q.toNat ≤ n

section

variable {n : Nat} {L L' : List Order} {o : Order}

theorem SequencedUpTo.sublist (h : SequencedUpTo n L) (hs : (L'.map Order.sequence).Sublist (L.map Order.sequence)) :
    SequencedUpTo n L' :=
  ⟨h.sorted.sublist hs, fun q hq => h.bound q (hs.subset hq)⟩

theorem SequencedUpTo.succ (h : SequencedUpTo n L) : SequencedUpTo (n + 1) L :=
  ⟨h.sorted, fun q hq => (h.bound q hq).trans (Nat.le_succ n)⟩

/-- An order with the next number joins at the back. -/
theorem SequencedUpTo.concat (h : SequencedUpTo n L) (ho : o.sequence.toNat = n + 1) :
    SequencedUpTo (n + 1) (L ++ [o]) := by
  have hlt : ∀ q ∈ L.map Order.sequence, q < o.sequence := by
    intro q hq
    rw [UInt64.lt_iff_toNat_lt, ho]
    exact Nat.lt_succ_of_le (h.bound q hq)
  constructor
  · rw [List.map_append, List.map_singleton, List.pairwise_append]
    refine ⟨h.sorted, List.pairwise_singleton .., ?_⟩
    intro q hq q' hq'
    rw [List.mem_singleton.1 hq']
    exact hlt q hq
  · intro q hq
    rw [List.map_append, List.map_singleton] at hq
    rcases List.mem_append.1 hq with hq | hq
    · exact (h.bound q hq).trans (Nat.le_succ n)
    · rw [List.mem_singleton.1 hq, ho]

end

namespace RefEngine

variable {P : Params} {r r' : RefEngine P} {a a' o : Order} {fs : List Fill} {res : NewOrderResult} {n : Nat}

theorem Executed.sequenced (h : r.Executed o fs a r') (hr : r.Valid) (hL : SequencedUpTo n r.resting) :
    SequencedUpTo n r'.resting :=
  hL.sublist (h.sweep.map_sublist (fun _ _ => rfl) hr)

theorem Submitted.sequenced (h : r.Submitted o res r' fs) (hr : r.Valid) (hL : SequencedUpTo n r.resting)
    (ho : o.sequence.toNat = n + 1) : SequencedUpTo (n + 1) r'.resting := by
  cases h with
  | refused _ _ => exact hL.succ
  | rested hx _ _ _ _ =>
    refine (hx.sequenced hr hL).concat ?_
    rw [hx.aggressor]
    exact ho
  | full hx _ _ _ _ => exact (hx.sequenced hr hL).succ
  | ended hx _ => exact (hx.sequenced hr hL).succ

end RefEngine

/-! ### Consumption -/

section

variable {P : Params} {r r' : RefEngine P} {a a' o : Order} {fs : List Fill} {L : List Order} {p : Int}

/-- The order an aggressor trades with first is the front of its level. -/
theorem ordersAt_of_pick (h : pick a L = some o) : ∃ t, ordersAt o.side o.price L = o :: t := by
  have hacc := (pick_mem h).2
  obtain ⟨l, c, hsplit, hbefore, -⟩ := firstMin_eq_some_append h
  have hsame : ordersAt o.side o.price L = ordersAt o.side o.price (L.filter (acceptable a)) := by
    unfold ordersAt
    rw [List.filter_filter]
    refine List.filter_congr fun x _ => ?_
    by_cases hx : x.side = o.side ∧ x.price = o.price
    · have hxacc : acceptable a x = true := by
        unfold acceptable at hacc ⊢
        rw [hx.1, hx.2]
        exact hacc
      simp [hx, hxacc]
    · simp [hx]
  have hnone : ordersAt o.side o.price l = [] := by
    unfold ordersAt
    rw [List.filter_eq_nil_iff]
    intro x hx hat
    have hlt := hbefore x hx
    have hprice : x.price = o.price := (of_decide_eq_true hat).2
    unfold rank at hlt
    rw [hprice] at hlt
    exact lt_irrefl _ hlt
  refine ⟨ordersAt o.side o.price c, ?_⟩
  rw [hsame, hsplit]
  unfold ordersAt at hnone ⊢
  rw [List.filter_append, hnone, List.filter_cons]
  simp

/-- A fill of all that is open takes the order out. -/
theorem reduceOrder_remaining (h : DistinctIds L) (ho : o ∈ L) :
    reduceOrder o.id o.remaining L = removeOrder o.id L := by
  obtain ⟨l, t, rfl⟩ := List.append_of_mem ho
  rw [reduceOrder_append h, removeOrder_append h]
  simp [leftover]

theorem ordersAt_removeOrder_front {t : List Order} (h : DistinctIds L) (hfront : ordersAt o.side o.price L = o :: t) :
    ordersAt o.side o.price (removeOrder o.id L) = t := by
  have hids : DistinctIds (o :: t) := by
    rw [← hfront]
    exact h.of_sublist (List.filter_sublist.map _)
  have hcomm : ordersAt o.side o.price (removeOrder o.id L) = removeOrder o.id (ordersAt o.side o.price L) := by
    unfold ordersAt removeOrder
    exact List.filter_comm ..
  rw [hcomm, hfront]
  exact removeOrder_append (l := []) hids

namespace RefEngine

/-- A sweep consumes the orders of a level from the front. -/
theorem Sweep.from_front (h : Sweep a r fs a' r') (hr : r.Valid) (p : Int) :
    (fs.filter fun f => decide (f.price = p)).map Fill.restingOrderId <+:
      (ordersAt (opposite a.side) p r.resting).map Order.id := by
  induction h with
  | done a r => exact List.nil_prefix
  | @fill a o a' r r' fs hpos hpick hrest ih =>
    obtain ⟨ho, hacc⟩ := pick_mem hpick
    have hside : o.side = opposite a.side := of_decide_eq_true (Bool.and_eq_true_iff.1 hacc).1
    have hlater := ih (hr.afterFill ho a)
    by_cases hp : o.price = p
    · subst hp
      obtain ⟨t, ht⟩ := ordersAt_of_pick hpick
      rw [← hside, ht, List.filter_cons, if_pos (by simp [fillOf]), List.map_cons, List.map_cons,
        List.cons_prefix_cons]
      refine ⟨rfl, ?_⟩
      by_cases hle : o.remaining ≤ a.remaining
      · -- the order is filled completely, and the next one is the front
        have hnext : ordersAt o.side o.price (r.afterFill a o).resting = t := by
          show ordersAt o.side o.price (reduceOrder o.id (min a.remaining o.remaining) r.resting) = t
          rw [min_eq_right hle, reduceOrder_remaining hr.ids ho]
          exact ordersAt_removeOrder_front hr.ids ht
        rw [← hnext, hside]
        exact hlater
      · -- the aggressor is filled
        have hzero : a.remaining - min a.remaining o.remaining = 0 := by omega
        cases hrest with
        | done => exact List.nil_prefix
        | fill hpos' _ _ =>
          have hpos'' : 0 < a.remaining - min a.remaining o.remaining := hpos'
          omega
    · have hsame : ordersAt (opposite a.side) p (r.afterFill a o).resting = ordersAt (opposite a.side) p r.resting :=
        ordersAt_reduceOrder hr.ids ho fun e => hp e.2.symm
      rw [List.filter_cons, if_neg (by simp [fillOf, hp]), ← hsame]
      exact hlater

theorem Submitted.from_front {res : NewOrderResult} (h : r.Submitted o res r' fs) (hr : r.Valid) (p : Int) :
    (fs.filter fun f => decide (f.price = p)).map Fill.restingOrderId <+:
      (ordersAt (opposite o.side) p r.resting).map Order.id := by
  cases h with
  | refused _ _ => exact List.nil_prefix
  | rested hx _ _ _ _ => exact hx.sweep.from_front hr p
  | full hx _ _ _ _ => exact hx.sweep.from_front hr p
  | ended hx _ => exact hx.sweep.from_front hr p

end RefEngine

end

/-! ### Runs -/

/-- The number of requests among the events. -/
def requestCount (events : List Event) : Nat := (events.filterMap Event.orderId?).length

theorem requestCount_append (evs evs' : List Event) :
    requestCount (evs ++ evs') = requestCount evs + requestCount evs' := by
  simp [requestCount]

section

variable {P : Params} {M X : Type} {s s' : ReplayEngine P M X}

@[simp] theorem nextSequence_publishLevel (s : ReplayEngine P M X) (symbol : SymbolId) (side : Side) (price : Int) :
    (s.publishLevel symbol side price).nextSequence = s.nextSequence := by
  unfold ReplayEngine.publishLevel
  cases s.matching.book.levelAt side price <;> rfl

@[simp] theorem nextSequence_publishRest (s : ReplayEngine P M X) (rested : Bool) (symbol : SymbolId) (side : Side)
    (price : Int) : (s.publishRest rested symbol side price).nextSequence = s.nextSequence := by
  cases rested with
  | true => exact nextSequence_publishLevel s symbol side price
  | false => rfl

@[simp] theorem nextSequence_publishReport (s : ReplayEngine P M X) (id : OrderId) (client : ClientId)
    (symbol : SymbolId) (fills : List Fill) (leaves : Int) (execType : ExecType) (reason : RejectReason) :
    (s.publishReport id client symbol fills leaves execType reason).nextSequence = s.nextSequence := rfl

variable [DenseMap X UInt64 ClientExposure]

@[simp] theorem nextSequence_applyFills (s : ReplayEngine P M X) (symbol : SymbolId) (fills : List Fill) :
    (s.applyFills symbol fills).nextSequence = s.nextSequence := by
  induction fills generalizing s with
  | nil => rfl
  | cons f fills ih => exact (ih _).trans (nextSequence_publishLevel _ symbol _ f.price)

/-- The sequence numbers up to `n` have been given out, and the resting orders are sorted by theirs. -/
structure SequencedBy (n : Nat) (s : ReplayEngine P M X) (r : RefEngine P) : Prop where
  next : s.nextSequence = UInt64.ofNat (n + 1)
  resting : SequencedUpTo n r.resting

variable [DenseMap M OrderId Nat] {r r' : RefEngine P} {ev : Event} {out : Option Submission} {n : Nat}

/-- An event uses at most one sequence number, and none if it is not a request. -/
theorem Outcome.sequenced (h : Outcome s r ev out s' r') (hr : r.Valid) (hs : SequencedBy n s r)
    (hn : n + requestCount [ev] < 2 ^ 64) : ∃ k ≤ requestCount [ev], SequencedBy (n + k) s' r' := by
  have hnext : n + 1 < 2 ^ 64 → s.nextSequence.toNat = n + 1 := by
    intro hlt
    rw [hs.next]
    exact UInt64.toNat_ofNat_of_lt' hlt
  have hsucc : s.nextSequence + 1 = UInt64.ofNat (n + 1 + 1) := by
    rw [hs.next]
    exact (UInt64.ofNat_add (n + 1) 1).symm
  cases h with
  | refusedByRisk _ => exact ⟨1, le_rfl, hsucc, hs.resting.succ⟩
  | submitted _ hsub _ =>
    refine ⟨1, le_rfl, ?_, hsub.sequenced hr hs.resting (hnext hn)⟩
    simp [ReplayEngine.sequenced, hsucc]
  | cancelRefused _ => exact ⟨0, Nat.zero_le _, hs.next, hs.resting⟩
  | cancelled _ _ _ =>
    refine ⟨0, Nat.zero_le _, ?_, hs.resting.sublist (List.filter_sublist.map _)⟩
    simp [hs.next]
  | replaceUnknown _ => exact ⟨0, Nat.zero_le _, hs.next, hs.resting⟩
  | replaceRefused _ _ _ _ _ => exact ⟨1, le_rfl, hsucc, hs.resting.succ⟩
  | @replaced _ _ _ o _ _ _ _ _ _ _ _ hsub _ _ =>
    have hremoved : SequencedUpTo n (removeOrder o.id r.resting) :=
      hs.resting.sublist (List.filter_sublist.map _)
    refine ⟨1, le_rfl, ?_, hsub.sequenced (hr.removeOrder o.id) hremoved (hnext hn)⟩
    simp [ReplayEngine.sequenced, hsucc]
  | engageKillSwitch => exact ⟨0, le_rfl, hs.next, hs.resting⟩
  | disengageKillSwitch => exact ⟨0, le_rfl, hs.next, hs.resting⟩

/-- Every run of fewer than 2^64 requests keeps the resting orders sorted. -/
theorem sequenced_run (symbol : SymbolId) (basePrice : Int) (risk : RiskEngine X) (events : List Event)
    (hcount : requestCount events < 2 ^ 64) :
    ∃ outs s r n, runAll ReplayEngine.process (ReplayEngine.new (P := P) (M := M) symbol basePrice risk) events =
        some (outs, s) ∧ Refines s.matching r ∧ SequencedUpTo n r.resting := by
  have hkeep : ∀ {evs : List Event} {s s' : ReplayEngine P M X} {r r' : RefEngine P} {ev : Event}
      {out : Option Submission}, Outcome s r ev out s' r' → Refines s.matching r →
      (requestCount evs < 2 ^ 64 → ∃ n ≤ requestCount evs, SequencedBy n s r) →
      requestCount (evs ++ [ev]) < 2 ^ 64 → ∃ n ≤ requestCount (evs ++ [ev]), SequencedBy n s' r' := by
    intro evs s s' r r' ev out houtcome hR hinv hlt
    rw [requestCount_append] at hlt ⊢
    obtain ⟨n, hn, hs⟩ := hinv (by omega)
    obtain ⟨k, hk, hs'⟩ := houtcome.sequenced hR.valid hs (by omega)
    exact ⟨n + k, by omega, hs'⟩
  obtain ⟨outs, s, r, hrun, hR, hinv⟩ := process_history
    (fun evs _ s r => requestCount evs < 2 ^ 64 → ∃ n ≤ requestCount evs, SequencedBy n s r) hkeep symbol basePrice risk
    events fun _ => ⟨0, le_rfl, rfl, List.Pairwise.nil, by simp [RefEngine.new]⟩
  obtain ⟨n, -, hs⟩ := hinv hcount
  exact ⟨outs, s, r, n, hrun, hR, hs.resting⟩

/-- The order a request submits consumes the levels of the other side from the front. -/
theorem Outcome.from_front (h : Outcome s r ev out s' r') (hr : r.Valid) {t : Submission} (ht : t ∈ out) (p : Int) :
    (t.fills.filter fun f => decide (f.price = p)).map Fill.restingOrderId <+:
      (ordersAt (opposite t.order.side) p r.resting).map Order.id := by
  cases h with
  | submitted _ hsub _ =>
    cases ht
    exact hsub.from_front hr p
  | replaceRefused _ _ _ _ _ =>
    cases ht
    exact List.nil_prefix
  | @replaced wire ts n o _ _ _ _ _ horder hmem _ hsub _ _ =>
    cases ht
    -- the replaced order is on the side of the new one
    have hside : (s.replacement wire ts n).side = o.side := by
      rw [ReplayEngine.replacement, horder]
      rfl
    have hsame : ordersAt (opposite o.side) p (removeOrder o.id r.resting) = ordersAt (opposite o.side) p r.resting :=
      ordersAt_removeOrder hr.ids hmem fun e => opposite_ne o.side e.1
    have hfront := hsub.from_front (hr.removeOrder o.id) p
    rw [hside, hsame] at hfront
    rw [hside]
    exact hfront
  | _ => cases ht

end

/-- Time priority is sequence order: after a run of fewer than 2^64 requests, every level is sorted by sequence, no
two resting orders share a sequence number, and the order the next request submits, if it does, trades at levels of
the book and fills the orders of a level one after the other from the front. -/
theorem fifo_is_sequence_order {P : Params} {M X : Type} [DenseMap M OrderId Nat] [DenseMap X UInt64 ClientExposure]
    (symbol : SymbolId) (basePrice : Int) (risk : RiskEngine X) (events : List Event)
    (hcount : requestCount events < 2 ^ 64) :
    ∃ outs s, runAll ReplayEngine.process (ReplayEngine.new (P := P) (M := M) symbol basePrice risk) events =
        some (outs, s) ∧
      (∀ side i, (s.matching.book.fifo side i).Pairwise fun x y => x.sequence < y.sequence) ∧
      (∀ id id' n n', s.matching.book.findNode id = some n → s.matching.book.findNode id' = some n' →
        (s.matching.book.node n).order.sequence = (s.matching.book.node n').order.sequence → id = id') ∧
      ∀ ev t s', s.process ev = some (some t, s') →
        (∀ f ∈ t.fills, ∃ i < P.numLevels, f.price = s.matching.book.priceAt i) ∧
        ∀ i, (t.fills.filter fun f => decide (f.price = s.matching.book.priceAt i)).map Fill.restingOrderId <+:
          (s.matching.book.fifo (opposite t.order.side) i).map Order.id := by
  obtain ⟨outs, s, r, n, hrun, hR, hseq⟩ := sequenced_run (P := P) (M := M) symbol basePrice risk events hcount
  refine ⟨outs, s, hrun, ?_, ?_, ?_⟩
  · intro side i
    rw [hR.holds.fifo]
    exact (List.pairwise_map.1 hseq.sorted).filter _
  · intro id id' n n' hn hn' hsame
    have hnodup : (r.resting.map Order.sequence).Nodup := hseq.sorted.imp fun hlt => UInt64.ne_of_lt hlt
    obtain ⟨hmem, hid⟩ := hR.holds.findNode_mem hn
    obtain ⟨hmem', hid'⟩ := hR.holds.findNode_mem hn'
    have horder := List.inj_on_of_nodup_map hnodup hmem hmem' hsame
    rw [← hid, ← hid', horder]
  · intro ev t s' hprocess
    obtain ⟨out, s'', r', hprocess', houtcome⟩ := process_outcome hR ev
    rw [hprocess] at hprocess'
    cases hprocess'
    constructor
    · intro f hf
      refine houtcome.fill_prices (Q := fun p => ∃ i, i < P.numLevels ∧ p = s.matching.book.priceAt i) hR.valid ?_ f hf
      intro x hx
      exact hR.holds.price hx
    · intro i
      rw [hR.holds.fifo]
      exact houtcome.from_front hR.valid rfl _

/-- Two Sells at one price, the first of which has been replaced and so comes second. -/
theorem fifo_is_sequence_order_replaced :
    ∃ outs s, runAll ReplayEngine.process
        (ReplayEngine.new (P := tinyParams) (M := IdMap) 7 100 (RiskEngine.new looseLimits : RiskEngine ExposureMap))
        [.newOrder (limitDay 1 1 .sell 101 2) 0, .newOrder (limitDay 2 2 .sell 101 3) 1,
         .replace { orderId := 1, newPrice := 101, newQuantity := 4, clientId := 1, symbolId := 7 } 2] =
        some (outs, s) ∧
      (s.matching.book.fifo .sell 1).Pairwise fun x y => x.sequence < y.sequence := by
  obtain ⟨outs, s, hrun, hsorted, -⟩ := fifo_is_sequence_order (P := tinyParams) (M := IdMap) 7 100
    (RiskEngine.new looseLimits : RiskEngine ExposureMap)
    [.newOrder (limitDay 1 1 .sell 101 2) 0, .newOrder (limitDay 2 2 .sell 101 3) 1,
     .replace { orderId := 1, newPrice := 101, newQuantity := 4, clientId := 1, symbolId := 7 } 2] (by decide)
  exact ⟨outs, s, hrun, hsorted .sell 1⟩

end Exchange
