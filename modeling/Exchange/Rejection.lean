import Exchange.Refinement

/-!
# Rejections

A submission that is rejected for an order that could have rested changes nothing: a sweep that leaves a remainder has
consumed at least one resting order, and so has made room.  `BookCapacityExceeded` is reported for a full book, but
also for a remainder whose price is off the ladder or whose id is taken.
-/

namespace Exchange

open OrderBook DenseMap

variable {P : Params} {M : Type} [DenseMap M OrderId Nat]

section

variable {e : MatchingEngine P M} {r r' : RefEngine P} {o a : Order} {fs : List Fill}

/-- A refusal before matching leaves the engine as it was. -/
theorem submit_refused (h : Refines e r) {reason : RejectReason} (href : r.Refused o reason) (out : List Fill) :
    e.submit o out = some ({ rejectReason := reason, remainingAfter := o.quantity }, e, out) := by
  have hfok : e.fokNotFillable o.fresh = some (decide (o.tif = .fok ∧ liquidity o r.resting < o.quantity)) :=
    fokNotFillable_eq h _
  unfold MatchingEngine.submit
  rw [h.symbol]
  cases reason <;> simp only [RefEngine.Refused] at href
  case unknownSymbol => rw [if_pos href]
  case invalidQuantity => rw [if_neg (not_not.2 href.1), if_pos href.2]
  case fokNotFillable =>
    rw [if_neg (not_not.2 href.1), if_neg (not_le.2 href.2.1)]
    dsimp only
    rw [hfok, decide_eq_true href.2.2]

/-- An aggressor with nothing to trade leaves the engine as it was. -/
theorem matchAgainstBook_settled (h : Refines e r) (hset : RefEngine.Settled a r) (out : List Fill) :
    e.matchAgainstBook a out = some { aggressor := a, engine := e, outFills := out } := by
  have hstop : RefEngine.matchStep { aggressor := a, engine := r, outFills := out } = .stop := by
    unfold RefEngine.matchStep
    dsimp only
    split_ifs with hpos
    · rw [hset hpos]
    · rfl
  have hsim := matchStep_sim { aggressor := a, engine := r, outFills := out }
    { aggressor := a, engine := e, outFills := out } ⟨rfl, rfl, h⟩
  rw [hstop] at hsim
  refine runLoop_stop ?_ _
  cases hreal : MatchingEngine.matchStep { aggressor := a, engine := e, outFills := out } with
  | stop => rfl
  | fault => rw [hreal] at hsim; cases hsim
  | next st => rw [hreal] at hsim; cases hsim

/-- A remainder that could have rested is refused only by a full book, and only if nothing has been traded. -/
theorem RefEngine.Executed.idle_of_full (h : r.Executed o fs a r') (hr : r.Valid) (hpos : 0 < a.remaining)
    (hfull : ¬ r'.CanRest a) (hid : ∀ x ∈ r.resting, x.id ≠ o.id) (hp : r.InRange o.price) : fs = [] := by
  by_contra hfs
  have hlt := h.sweep.length_lt hr h.settled hpos hfs
  have hres := (h.sweep.exhausted hr h.settled hpos).1
  have hprice : a.price = o.price ∧ a.id = o.id := by rw [h.aggressor]; exact ⟨rfl, rfl⟩
  refine hfull ⟨?_, ?_, hlt.trans_le hr.length⟩
  · rw [RefEngine.InRange, h.sweep.instrument.2, hprice.1]
    exact hp
  · intro x hx
    rw [hres] at hx
    rw [hprice.2]
    exact hid x (List.mem_filter.1 hx).1

/-- A rejection for an order whose id is free and which could rest at its price changes nothing. -/
theorem Refines.rejection_atomic (h : Refines e r) (hid : e.book.findNode o.id = none)
    (hp : o.type = .limit → o.tif = .day → r.InRange o.price) (out : List Fill) :
    ∃ res e' fills, e.submit o out = some (res, e', fills) ∧ (res.rejectReason ≠ .none → e' = e ∧ fills = out) := by
  have hid' := (h.holds.findNode_eq_none o.id).1 hid
  obtain ⟨res, e', r', fs, he, -, hsub, hR⟩ := submit_sim h o out
  cases hsub with
  | refused reason href => exact ⟨_, _, _, submit_refused h href out, fun _ => ⟨rfl, rfl⟩⟩
  | rested _ _ _ _ _ => exact ⟨_, _, _, he, fun hne => absurd rfl hne⟩
  | ended _ _ => exact ⟨_, _, _, he, fun hne => absurd rfl hne⟩
  | @full _ a r' hx hpos htype htif hfull =>
    have hrange := hp htype htif
    obtain rfl := hx.idle_of_full h.valid hpos hfull hid' hrange
    -- nothing was traded, so the remainder is the order itself and the book is full already
    have hset : RefEngine.Settled o.fresh r := by
      have := hx.settled
      have hsweep := hx.sweep
      cases hsweep
      exact this
    obtain ⟨err, hadd⟩ := h.holds.add_error (o := o.fresh) fun hok => by
      have hsweep := hx.sweep
      cases hsweep
      exact hfull ⟨hrange, hid', hok.2.2.2.2⟩
    refine ⟨{ rejectReason := .bookCapacityExceeded, remainingAfter := o.quantity }, e, out, ?_, fun _ => ⟨rfl, rfl⟩⟩
    unfold MatchingEngine.submit
    rw [if_neg (not_not.2 (hx.symbol.trans h.symbol.symm)), if_neg (not_le.2 hx.quantity)]
    dsimp only
    rw [fokNotFillable_eq h, decide_eq_false fun hf => by simp [Order.fresh, htif] at hf,
      matchAgainstBook_settled h hset]
    dsimp only
    unfold MatchingEngine.restRemainder
    rw [if_pos ⟨hx.quantity, htype, htif⟩, hadd]
    simp [Order.fresh]

end

/-- Rejection is atomic: in every reachable state, a rejected order whose id is not resting and, for a Day Limit
order, whose price is on the ladder has produced no fill and has not changed the engine. -/
theorem rejection_is_atomic (symbol : SymbolId) (basePrice : Int) (calls : List Call) (o : Order) (out : List Fill) :
    ∃ resps e, runAll MatchingEngine.call (MatchingEngine.new P M symbol basePrice) calls = some (resps, e) ∧
      (e.book.findNode o.id = none →
        (o.type = .limit → o.tif = .day → basePrice ≤ o.price ∧ o.price < basePrice + P.numLevels) →
        ∃ res e' fills, e.submit o out = some (res, e', fills) ∧
          (res.rejectReason ≠ .none → e' = e ∧ fills = out)) := by
  obtain ⟨resps, e, r, he, -, h, -, rfl⟩ := run_sim (P := P) (M := M) symbol basePrice calls
  exact ⟨resps, e, he, fun hid hp => h.rejection_atomic hid hp out⟩

/-! ### The capacity reason -/

/-- When the remainder of `o` was refused for lack of capacity, all slots of the pool were occupied at that moment,
the price was on the ladder and the id was free. -/
def CapacityTruthful (e : MatchingEngine P M) (o : Order) (out : List Fill) (res : NewOrderResult) : Prop :=
  res.rejectReason = .bookCapacityExceeded →
    ∃ st, e.matchAgainstBook o.fresh out = some st ∧ st.engine.book.pool.liveCount = P.maxOrders ∧
      (st.engine.book.indexOf o.price).isSome ∧ st.engine.book.findNode o.id = none

/-- A Day Limit order that is matched and keeps a remainder, with a price off the ladder or the id of an order it does
not trade with. -/
structure Unrestable (e : MatchingEngine P M) (o : Order) : Prop where
  symbol : o.symbol = e.book.symbol
  quantity : 0 < o.quantity
  type : o.type = .limit
  tif : o.tif = .day
  short : ∃ total, e.availableLiquidity o.side (o.type == .market) o.price o.quantity = some total ∧
    total < o.quantity
  clash : e.book.indexOf o.price = none ∨
    ∃ n, e.book.findNode o.id = some n ∧ acceptable o (e.book.node n).order = false

section

variable {e : MatchingEngine P M} {r r' : RefEngine P} {o a : Order} {fs : List Fill}

/-- The same, seen on the list of resting orders. -/
theorem Refines.unrestable_iff (h : Refines e r) :
    Unrestable e o ↔ o.symbol = r.symbol ∧ 0 < o.quantity ∧ o.type = .limit ∧ o.tif = .day ∧
      liquidity o r.resting < o.quantity ∧
      (¬ r.InRange o.price ∨ ∃ x ∈ r.resting, x.id = o.id ∧ acceptable o x = false) := by
  have hshort := h.short_iff o
  have hclash : (e.book.indexOf o.price = none ∨
      ∃ n, e.book.findNode o.id = some n ∧ acceptable o (e.book.node n).order = false) ↔
      (¬ r.InRange o.price ∨ ∃ x ∈ r.resting, x.id = o.id ∧ acceptable o x = false) := by
    refine or_congr ?_ ?_
    · rw [← Option.isNone_iff_eq_none, h.indexOf_isNone]
    · constructor
      · rintro ⟨n, hn, hacc⟩
        obtain ⟨hmem, hid⟩ := h.holds.findNode_mem hn
        exact ⟨_, hmem, hid, hacc⟩
      · rintro ⟨x, hx, hxid, hacc⟩
        obtain ⟨n, hn, rfl⟩ := h.holds.exists_node hx
        exact ⟨n, hxid ▸ hn, hacc⟩
  constructor
  · rintro ⟨h1, h2, h3, h4, h5, h6⟩
    exact ⟨h1.trans h.symbol, h2, h3, h4, hshort.1 h5, hclash.1 h6⟩
  · rintro ⟨h1, h2, h3, h4, h5, h6⟩
    exact ⟨h1.trans h.symbol.symm, h2, h3, h4, hshort.2 h5, hclash.2 h6⟩

/-- After a sweep that leaves a remainder, an id is taken by the orders the aggressor does not accept. -/
theorem RefEngine.Executed.id_taken_iff (h : r.Executed o fs a r') (hr : r.Valid) (hpos : 0 < a.remaining)
    (id : OrderId) : (∃ x ∈ r'.resting, x.id = id) ↔ ∃ x ∈ r.resting, x.id = id ∧ acceptable o x = false := by
  have hres : r'.resting = r.resting.filter fun x => !acceptable o x :=
    (h.sweep.exhausted hr h.settled hpos).1
  rw [hres]
  constructor
  · rintro ⟨x, hx, hxid⟩
    obtain ⟨hx, hacc⟩ := List.mem_filter.1 hx
    exact ⟨x, hx, hxid, by simpa using hacc⟩
  · rintro ⟨x, hx, hxid, hacc⟩
    exact ⟨x, List.mem_filter.2 ⟨hx, by simp [hacc]⟩, hxid⟩

/-- What stands in the way of resting the remainder, besides capacity, can be read off the state before the sweep. -/
theorem RefEngine.Executed.clash_iff (h : r.Executed o fs a r') (hr : r.Valid) (hpos : 0 < a.remaining) :
    (¬ r.InRange o.price ∨ ∃ x ∈ r.resting, x.id = o.id ∧ acceptable o x = false) ↔
      ¬ (r'.InRange a.price ∧ ∀ x ∈ r'.resting, x.id ≠ a.id) := by
  have hprice : a.price = o.price := by rw [h.aggressor]
  have hid : a.id = o.id := by rw [h.aggressor]
  have hrange : r'.InRange o.price ↔ r.InRange o.price := by
    rw [RefEngine.InRange, RefEngine.InRange, h.sweep.instrument.2]
  rw [hprice, hid, hrange, ← h.id_taken_iff hr hpos, not_and_or]
  simp only [not_forall, ne_eq, not_not, exists_prop]

/-- An executed order keeps a remainder if and only if there is not enough for it. -/
theorem RefEngine.Executed.remaining_pos_iff (h : r.Executed o fs a r') (hr : r.Valid) :
    0 < a.remaining ↔ liquidity o r.resting < o.quantity := by
  have hzero : a.remaining = 0 ↔ o.quantity ≤ liquidity o r.resting :=
    h.sweep.remaining_eq_zero hr h.settled h.quantity.le
  have hnonneg := h.remaining_nonneg
  omega

/-- The state in which the remainder of an executed order is to be rested. -/
theorem Refines.matched (h : Refines e r) (hx : r.Executed o fs a r') (out : List Fill) :
    ∃ st, e.matchAgainstBook o.fresh out = some st ∧ Refines st.engine r' := by
  obtain ⟨fs₂, a₂, r₂, hmatch, hsweep, hset⟩ := RefEngine.matchAgainstBook_sweep h.valid o.fresh out
  obtain ⟨-, -, rfl⟩ := hx.sweep.unique hx.settled hsweep hset
  obtain ⟨st, hst, -, -, hR⟩ := matchAgainstBook_sim h _ out hmatch
  exact ⟨st, hst, hR⟩

theorem Refines.capacityTruthful_iff (h : Refines e r) {res : NewOrderResult} (hsub : r.Submitted o res r' fs)
    (out : List Fill) : CapacityTruthful e o out res ↔ ¬ Unrestable e o := by
  rw [h.unrestable_iff]
  cases hsub with
  | refused reason href =>
    constructor
    · rintro - ⟨h1, h2, -, h4, -⟩
      cases reason <;> simp only [RefEngine.Refused] at href
      case unknownSymbol => exact href h1
      case invalidQuantity => omega
      case fokNotFillable => rw [h4] at href; cases href.2.2.1
    · rintro - rfl
      exact href.elim
  | rested hx hpos _ _ hrest =>
    refine ⟨?_, fun _ hreason => by cases hreason⟩
    rintro - ⟨-, -, -, -, -, hclash⟩
    exact (hx.clash_iff h.valid hpos).1 hclash ⟨hrest.1, hrest.2.1⟩
  | ended hx hend =>
    refine ⟨?_, fun _ hreason => by cases hreason⟩
    rintro - ⟨-, -, htype, htif, hshort, -⟩
    exact hend ⟨(hx.remaining_pos_iff h.valid).2 hshort, htype, htif⟩
  | @full _ a r' hx hpos htype htif hfull =>
    obtain ⟨st, hst, hR⟩ := h.matched hx out
    have hclash := hx.clash_iff h.valid hpos
    have hprice : a.price = o.price := by rw [hx.aggressor]
    have hid : a.id = o.id := by rw [hx.aggressor]
    rw [hprice, hid] at hclash
    constructor
    · rintro htrue ⟨-, -, -, -, -, hbad⟩
      obtain ⟨st', hst', -, hin, hfree⟩ := htrue rfl
      rw [hst] at hst'
      cases hst'
      exact hclash.1 hbad ⟨(hR.indexOf_isSome _).1 hin, (hR.holds.findNode_eq_none o.id).1 hfree⟩
    · intro hok _
      have hshort := (hx.remaining_pos_iff h.valid).1 hpos
      obtain ⟨hin, hfree⟩ : r'.InRange o.price ∧ ∀ x ∈ r'.resting, x.id ≠ o.id := by
        by_contra hnot
        exact hok ⟨hx.symbol, hx.quantity, htype, htif, hshort, hclash.2 hnot⟩
      refine ⟨st, hst, ?_, (hR.indexOf_isSome _).2 hin, (hR.holds.findNode_eq_none o.id).2 hfree⟩
      -- with nothing else in the way, it was the capacity
      have hle := hR.valid.length
      rw [hR.holds.liveCount]
      by_contra hne
      refine hfull ⟨?_, ?_, by omega⟩
      · rw [hprice]; exact hin
      · rw [hid]; exact hfree

end

/-- In every reachable state, `BookCapacityExceeded` is truthful exactly for the orders that are not `Unrestable`. -/
theorem capacity_truthful_iff (symbol : SymbolId) (basePrice : Int) (calls : List Call) (o : Order) (out : List Fill) :
    ∃ resps e, runAll MatchingEngine.call (MatchingEngine.new P M symbol basePrice) calls = some (resps, e) ∧
      ∃ res e' fills, e.submit o out = some (res, e', fills) ∧ (CapacityTruthful e o out res ↔ ¬ Unrestable e o) := by
  obtain ⟨resps, e, r, he, -, h, -⟩ := run_sim (P := P) (M := M) symbol basePrice calls
  obtain ⟨res, e', r', fs, hsubmit, -, hsub, -⟩ := submit_sim h o out
  exact ⟨resps, e, he, res, e', _, hsubmit, h.capacityTruthful_iff hsub out⟩

/-- A Day Limit order priced off the ladder is refused for lack of capacity by an empty book. -/
theorem capacity_exceeded_by_price :
    ∃ res e' st, (MatchingEngine.new tinyParams IdMap 7 100).submit
        { id := 1, symbol := 7, price := 200, quantity := 5 } [] = some (res, e', []) ∧
      res.rejectReason = .bookCapacityExceeded ∧
      (MatchingEngine.new tinyParams IdMap 7 100).matchAgainstBook
        (Order.fresh { id := 1, symbol := 7, price := 200, quantity := 5 }) [] = some st ∧
      st.engine.book.pool.liveCount = 0 ∧ tinyParams.maxOrders = 2 :=
  ⟨_, _, _, rfl, rfl, rfl, rfl, rfl⟩

end Exchange
