import Exchange.Volume
import Exchange.Publication
import Exchange.Audit
import Exchange.Lib.Wrapping

/-!
# Sessions of synthetic orders

`SyntheticOrderGenerator` of `jane/replay/synthetic_generator.hpp` draws Day orders around a fixed price, and the
pipeline processes them one after the other.  What the random source delivers is left open: a `Draw` is anything the
distributions can return.

If the limits are wide enough for the length of the session, no order is rejected, by risk or by matching, however the
draws fall.  The position of a client is bounded by what it has sent.  Its loss is bounded as well, since all trades
happen within the band of prices the orders come from.
-/

namespace Exchange

open OrderBook DenseMap RiskEngine

/-- The seed, the two fractions and the arrival rate only steer the random source and are left out. -/
structure SyntheticConfig where
  symbol : SymbolId := 1
  midPrice : Int := 1000
  priceSpreadTicks : Int := 50
  minQuantity : Int := 1
  maxQuantity : Int := 100

namespace SyntheticConfig

/-- The prices orders are drawn from. -/
def InBand (config : SyntheticConfig) (price : Int) : Prop :=
  config.midPrice - config.priceSpreadTicks ≤ price ∧ price ≤ config.midPrice + config.priceSpreadTicks

instance (config : SyntheticConfig) (price : Int) : Decidable (config.InBand price) :=
  inferInstanceAs (Decidable (_ ∧ _))

end SyntheticConfig

/-- What the distributions return for one order. -/
structure Draw (config : SyntheticConfig) where
  price : Int
  quantity : Int
  side : Side
  orderType : OrderType
  inBand : config.InBand price
  minQuantity_le : config.minQuantity ≤ quantity
  le_maxQuantity : quantity ≤ config.maxQuantity

/-- A drawn order, with the client it is sent for and the time. -/
structure Arrival (config : SyntheticConfig) where
  draw : Draw config
  client : ClientId
  timestamp : Int

namespace SyntheticConfig

variable (config : SyntheticConfig)

def nextOrder (draw : Draw config) (orderId : UInt64) (clientId : UInt32) : NewOrderMessage where
  orderId := orderId
  price := draw.price
  quantity := draw.quantity
  clientId := clientId
  symbolId := config.symbol
  side := draw.side
  orderType := draw.orderType
  timeInForce := .day

/-- The requests of a session after `n` orders: the ids count on. -/
def session : Nat → List (Arrival config) → List Event
  | _, [] => []
  | n, a :: as => .newOrder (config.nextOrder a.draw (UInt64.ofNat (n + 1)) a.client) a.timestamp :: session (n + 1) as

/-- The ladder holds the band, and the pool and the limits are made for `count` orders. -/
structure Fits (P : Params) (basePrice : Int) (limits : Limits) (count : Nat) : Prop where
  low : basePrice ≤ config.midPrice - config.priceSpreadTicks
  high : config.midPrice + config.priceSpreadTicks < basePrice + P.numLevels
  quantity : 0 < config.minQuantity
  pool : count ≤ P.maxOrders
  size : config.maxQuantity ≤ limits.maxOrderSize
  position : count * config.maxQuantity ≤ limits.maxPosition
  loss : limits.maxLossPerClient ≤ -(count * config.maxQuantity * (2 * config.priceSpreadTicks))

end SyntheticConfig

/-! ### The invariant -/

section

variable {P : Params} {M X : Type} [DenseMap X UInt64 ClientExposure] {config : SyntheticConfig} {basePrice : Int}
  {limits : Limits} {n count : Nat} {fs : List Fill} {s : ReplayEngine P M X} {r : RefEngine P}

/-- After `n` orders of a session, all accepted, with the fills `fs`. -/
structure Sound (config : SyntheticConfig) (basePrice : Int) (limits : Limits) (n : Nat) (fs : List Fill)
    (s : ReplayEngine P M X) (r : RefEngine P) : Prop where
  limits : s.risk.limits = limits
  killSwitch : s.risk.killSwitchEngaged = false
  symbol : r.symbol = config.symbol
  basePrice : r.basePrice = basePrice
  uncrossed : Uncrossed r.resting
  length : r.resting.length ≤ n
  ids : ∀ o ∈ r.resting, ∃ k, k < n ∧ o.id = UInt64.ofNat (k + 1)
  band : ∀ o ∈ r.resting, config.InBand o.price
  fills : ∀ f ∈ fs, f.symbol = config.symbol ∧ 0 < f.quantity ∧ config.InBand f.price
  volume : ∀ c side, volume c side fs + openQuantity c side r.resting ≤ n * config.maxQuantity
  accounts : AccountsOf s.risk fs
  marks : ∀ c, s.risk.account c config.symbol = {} ∨ config.InBand (s.risk.account c config.symbol).lastMarkPrice
  reports : (s.feed.sink.filterMap Message.report?).map ExecutionReportMessage.rejectReason = List.replicate n .none

namespace Sound

theorem volume_le (h : Sound config basePrice limits n fs s r) (hr : r.Valid) (c : ClientId) (side : Side) :
    0 ≤ Exchange.volume c side fs ∧ Exchange.volume c side fs ≤ n * config.maxQuantity := by
  have hsum := h.volume c side
  have hopen := openQuantity_nonneg (c := c) (s := side) hr.remaining_pos
  exact ⟨volume_nonneg fun f hf => (h.fills f hf).2.1, by omega⟩

theorem fillsOn_eq (h : Sound config basePrice limits n fs s r) : fillsOn config.symbol fs = fs :=
  List.filter_eq_self.2 fun f hf => decide_eq_true (h.fills f hf).1

theorem position_eq (h : Sound config basePrice limits n fs s r) (c : ClientId) :
    s.risk.position c config.symbol = Exchange.volume c .buy fs - Exchange.volume c .sell fs := by
  rw [(h.accounts c config.symbol).1, h.fillsOn_eq, bought_eq]

theorem pnl_ge (h : Sound config basePrice limits n fs s r) (hr : r.Valid)
    (hwidth : 0 ≤ n * config.maxQuantity * (2 * config.priceSpreadTicks)) (c : ClientId) :
    -(n * config.maxQuantity * (2 * config.priceSpreadTicks)) ≤ s.risk.pnl c config.symbol := by
  rw [RiskEngine.pnl_eq]
  rcases h.marks c with hnone | ⟨hlow, hhigh⟩
  · have hzero : (s.risk.account c config.symbol).markToMarketPnl = 0 := by rw [hnone]; rfl
    omega
  · have hcash := (h.accounts c config.symbol).2
    rw [h.fillsOn_eq] at hcash
    have hpaid := paid_le (c := c) (fun f hf => (h.fills f hf).2.1) fun f hf => (h.fills f hf).2.2
    have hband : config.midPrice + config.priceSpreadTicks - (config.midPrice - config.priceSpreadTicks) =
        2 * config.priceSpreadTicks := by omega
    have hcash' : (config.midPrice - config.priceSpreadTicks) * Exchange.volume c .sell fs -
        (config.midPrice + config.priceSpreadTicks) * Exchange.volume c .buy fs ≤
          s.risk.cashFlow c config.symbol := by
      rw [hcash]
      omega
    have hbound := pnl_lower_bound hcash' hlow hhigh (h.volume_le hr c .buy).2 (h.volume_le hr c .sell).2
    rw [hband, ← h.position_eq, RiskEngine.position_eq] at hbound
    exact hbound

end Sound

/-! ### The next order -/

/-- A session that fits has room for another order of any draw. -/
theorem Draw.room (draw : Draw config) (hfit : config.Fits P basePrice limits count) (hn : n < count) :
    (0 < draw.quantity ∧ n * config.maxQuantity + draw.quantity ≤ limits.maxPosition) ∧
      0 ≤ n * config.maxQuantity * (2 * config.priceSpreadTicks) ∧
      limits.maxLossPerClient ≤ -(n * config.maxQuantity * (2 * config.priceSpreadTicks)) := by
  have hmin := draw.minQuantity_le
  have hmax := draw.le_maxQuantity
  have hpos := hfit.quantity
  have hband := draw.inBand
  have hspread : 0 ≤ 2 * config.priceSpreadTicks := by
    unfold SyntheticConfig.InBand at hband
    omega
  have hsucc : ((n : Int) + 1) * config.maxQuantity ≤ count * config.maxQuantity :=
    Int.mul_le_mul_of_nonneg_right (by omega) (by omega)
  have hle : n * config.maxQuantity * (2 * config.priceSpreadTicks) ≤
      count * config.maxQuantity * (2 * config.priceSpreadTicks) := by
    refine Int.mul_le_mul_of_nonneg_right ?_ hspread
    exact Int.mul_le_mul_of_nonneg_right (by omega) (by omega)
  have hnonneg : 0 ≤ n * config.maxQuantity * (2 * config.priceSpreadTicks) :=
    Int.mul_nonneg (Int.mul_nonneg (by omega) (by omega)) hspread
  have hposition := hfit.position
  have hloss := hfit.loss
  rw [Int.add_mul, Int.one_mul] at hsucc
  exact ⟨⟨by omega, by omega⟩, hnonneg, by omega⟩

namespace Sound

theorem approved (h : Sound config basePrice limits n fs s r) (hr : r.Valid)
    (hfit : config.Fits P basePrice limits count) (hn : n < count) (draw : Draw config) {o : Order}
    (hsymbol : o.symbol = config.symbol) (hquantity : o.quantity = draw.quantity) :
    s.risk.checkNewOrder o = .none := by
  obtain ⟨⟨hpos, hroom⟩, hwidth, hloss⟩ := draw.room hfit hn
  obtain ⟨hbuy, hbuy'⟩ := h.volume_le hr o.client .buy
  obtain ⟨hsell, hsell'⟩ := h.volume_le hr o.client .sell
  have hsize := hfit.size
  have hmax := draw.le_maxQuantity
  have hposition := h.position_eq o.client
  have hpnl := h.pnl_ge hr hwidth o.client
  unfold RiskEngine.position at hposition
  unfold RiskEngine.pnl at hpnl
  unfold checkNewOrder
  dsimp only
  rw [h.killSwitch, h.limits, hsymbol, hposition, if_neg Bool.false_ne_true, if_neg (by omega)]
  have hsigned : signed o.side o.quantity = draw.quantity ∨ signed o.side o.quantity = -draw.quantity := by
    rw [hquantity]
    cases o.side
    · exact Or.inl rfl
    · exact Or.inr rfl
  rw [if_neg (by omega)]
  cases hfind : find s.risk.exposure (accountKey o.client config.symbol) with
  | none => rfl
  | some x =>
    rw [hfind] at hpnl
    have hnot : ¬ x.markToMarketPnl < limits.maxLossPerClient := Int.not_lt.2 (hloss.trans hpnl)
    rw [if_neg (by simpa using hnot)]

end Sound

end

/-! ### What a submission leaves in the book -/

section

variable {P : Params} {r r' : RefEngine P} {o : Order} {res : NewOrderResult} {fs : List Fill}

/-- Every order in the book was there before the submission, or is the rest of the submitted one. -/
theorem RefEngine.Submitted.origin (h : r.Submitted o res r' fs) (hr : r.Valid) {x : Order} (hx : x ∈ r'.resting) :
    (∃ y ∈ r.resting, x.id = y.id ∧ x.price = y.price) ∨ (x.id = o.id ∧ x.price = o.price) := by
  have hswept : ∀ {a : Order} {r₁ : RefEngine P}, RefEngine.Sweep o.fresh r fs a r₁ → x ∈ r₁.resting →
      ∃ y ∈ r.resting, x.id = y.id ∧ x.price = y.price := by
    intro a r₁ hsweep hmem
    obtain ⟨y, hy, hxy⟩ := hsweep.mem hr hmem
    exact ⟨y, hy, by rw [hxy], by rw [hxy]⟩
  cases h with
  | refused _ _ => exact Or.inl ⟨x, hx, rfl, rfl⟩
  | @rested _ a r₁ hexec _ _ _ _ =>
    rcases List.mem_append.1 hx with hx | hx
    · exact Or.inl (hswept hexec.sweep hx)
    · obtain rfl : x = a := by simpa using hx
      rw [hexec.aggressor]
      exact Or.inr ⟨rfl, rfl⟩
  | full hexec _ _ _ _ => exact Or.inl (hswept hexec.sweep hx)
  | ended hexec _ => exact Or.inl (hswept hexec.sweep hx)

theorem RefEngine.Submitted.length_le (h : r.Submitted o res r' fs) : r'.resting.length ≤ r.resting.length + 1 := by
  cases h with
  | refused _ _ => exact Nat.le_succ _
  | rested hexec _ _ _ _ =>
    have hle := hexec.sweep.length_le
    simp only [List.length_append, List.length_singleton]
    omega
  | full hexec _ _ _ _ => exact hexec.sweep.length_le.trans (Nat.le_succ _)
  | ended hexec _ => exact hexec.sweep.length_le.trans (Nat.le_succ _)

end

section

variable {P : Params} {M X : Type} [DenseMap X UInt64 ClientExposure] {config : SyntheticConfig} {basePrice : Int}
  {limits : Limits} {n count : Nat} {fs : List Fill} {s : ReplayEngine P M X} {r : RefEngine P}

/-- An account that has traded is marked at the price of one of its trades. -/
theorem marks_recordFills {Q : Int → Prop} (k : RiskEngine X) (symbol : SymbolId) (c : ClientId)
    (hk : k.account c symbol = {} ∨ Q (k.account c symbol).lastMarkPrice) (hfs : ∀ f ∈ fs, Q f.price) :
    (k.recordFills symbol fs).account c symbol = {} ∨ Q ((k.recordFills symbol fs).account c symbol).lastMarkPrice := by
  have hone : ∀ (k : RiskEngine X) (client : ClientId) (side : Side) (price quantity : Int), Q price →
      (k.account c symbol = {} ∨ Q (k.account c symbol).lastMarkPrice) →
      ((k.recordFill client symbol side price quantity).account c symbol = {} ∨
        Q ((k.recordFill client symbol side price quantity).account c symbol).lastMarkPrice) := by
    intro k client side price quantity hprice hk
    by_cases hclient : client = c
    · subst hclient
      rw [account_recordFill_self]
      exact Or.inr hprice
    · rw [account_recordFill_of_ne k fun h => hclient h.1]
      exact hk
  induction fs generalizing k with
  | nil => exact hk
  | cons f fs ih =>
    have hprice := hfs f List.mem_cons_self
    rw [recordFills_cons]
    refine ih _ ?_ fun g hg => hfs g (List.mem_cons_of_mem f hg)
    exact hone _ _ _ _ _ hprice (hone _ _ _ _ _ hprice hk)

namespace Sound

/-- Matching accepts the order: it is well-formed, its price is on the ladder, its id is new and there is a slot. -/
theorem accepted (h : Sound config basePrice limits n fs s r) (hr : r.Valid)
    (hfit : config.Fits P basePrice limits count) (hn : n < count) (draw : Draw config) {o : Order}
    (hsymbol : o.symbol = config.symbol) (hquantity : o.quantity = draw.quantity) (hprice : o.price = draw.price)
    (htif : o.tif = .day) (hid : o.id = UInt64.ofNat (n + 1)) {res : NewOrderResult} {r' : RefEngine P}
    {fs' : List Fill} (hsub : r.Submitted o res r' fs') : res.rejectReason = .none := by
  obtain ⟨⟨hpos, -⟩, -⟩ := draw.room hfit hn
  cases hsub with
  | refused reason href =>
    cases reason <;> simp only [RefEngine.Refused] at href
    case unknownSymbol => exact absurd (hsymbol.trans h.symbol.symm) href
    case invalidQuantity => omega
    case fokNotFillable =>
      obtain ⟨-, -, hfok, -⟩ := href
      rw [htif] at hfok
      cases hfok
  | rested _ _ _ _ _ => rfl
  | ended _ _ => rfl
  | @full _ a r₁ hx _ _ _ hfull =>
    have ha := hx.aggressor
    have hband := draw.inBand
    have hlow := hfit.low
    have hhigh := hfit.high
    have hpool := hfit.pool
    have hmost := P.maxOrders_le
    refine absurd ⟨?_, ?_, ?_⟩ hfull
    · unfold SyntheticConfig.InBand at hband
      rw [RefEngine.InRange, hx.sweep.instrument.2, h.basePrice, ha]
      show _ ≤ o.price ∧ o.price < _
      omega
    · intro x hx'
      obtain ⟨y, hy, hxy⟩ := hx.sweep.mem hr hx'
      obtain ⟨k, hk, hyid⟩ := h.ids y hy
      rw [hxy, ha]
      show y.id ≠ o.id
      rw [hyid, hid]
      intro heq
      have := ofNat_inj_of_lt (by omega) (by omega) heq
      omega
    · have hlen := hx.sweep.length_le
      have hlen' := h.length
      omega

theorem submitted (h : Sound config basePrice limits n fs s r) (hr : r.Valid) (draw : Draw config) {o : Order}
    (hpos : 0 < o.quantity) (hquantity : o.quantity = draw.quantity) (hprice : o.price = draw.price)
    (hid : o.id = UInt64.ofNat (n + 1)) {res : NewOrderResult} {r' : RefEngine P} {fills : List Fill}
    (hsub : r.Submitted o res r' fills) {s' : ReplayEngine P M X}
    (hrisk : s'.risk = s.risk.recordFills config.symbol fills) (haccounts : AccountsOf s'.risk (fs ++ fills))
    (hreports : (s'.feed.sink.filterMap Message.report?).map ExecutionReportMessage.rejectReason =
      List.replicate n .none ++ [.none]) :
    Sound config basePrice limits (n + 1) (fs ++ fills) s' r' := by
  have hband : ∀ f ∈ fills, f.symbol = config.symbol ∧ 0 < f.quantity ∧ config.InBand f.price := by
    intro f hf
    obtain ⟨x, hx, -, hfill⟩ := hsub.counterparty hr hf
    exact ⟨(hsub.fill_symbol hr hf).trans h.symbol, hfill.quantity_pos, by rw [hfill.price]; exact h.band x hx⟩
  refine
    { limits := by rw [hrisk, limits_recordFills]; exact h.limits
      killSwitch := by rw [hrisk, killSwitch_recordFills]; exact h.killSwitch
      symbol := hsub.instrument.1.trans h.symbol
      basePrice := hsub.instrument.2.trans h.basePrice
      uncrossed := hsub.uncrossed hr h.uncrossed
      length := hsub.length_le.trans (Nat.succ_le_succ h.length)
      ids := ?_
      band := ?_
      fills := ?_
      volume := ?_
      accounts := haccounts
      marks := fun c => ?_
      reports := by rw [hreports, List.replicate_succ'] }
  · intro x hx
    rcases hsub.origin hr hx with ⟨y, hy, hxy, -⟩ | ⟨hxo, -⟩
    · obtain ⟨k, hk, hyid⟩ := h.ids y hy
      exact ⟨k, by omega, hxy.trans hyid⟩
    · exact ⟨n, by omega, hxo.trans hid⟩
  · intro x hx
    rcases hsub.origin hr hx with ⟨y, hy, -, hxy⟩ | ⟨-, hxo⟩
    · rw [hxy]
      exact h.band y hy
    · rw [hxo, hprice]
      exact draw.inBand
  · intro f hf
    rcases List.mem_append.1 hf with hf | hf
    · exact h.fills f hf
    · exact hband f hf
  · intro c side
    have hbefore := h.volume c side
    have hmore := hsub.volume_le hr hpos.le c side
    have hmax := draw.le_maxQuantity
    rw [volume_append, Int.natCast_add, Int.add_mul, Int.natCast_one, Int.one_mul]
    split_ifs at hmore <;> omega
  · rw [hrisk]
    exact marks_recordFills s.risk config.symbol c (h.marks c) fun f hf => (hband f hf).2.2

variable [DenseMap M OrderId Nat]

/-- The next order is accepted, and the invariant holds after it. -/
theorem next (h : Sound config basePrice limits n fs s r) (hR : Refines s.matching r)
    (hfit : config.Fits P basePrice limits count) (hn : n < count) (a : Arrival config) :
    ∃ out s' r', s.process (.newOrder (config.nextOrder a.draw (UInt64.ofNat (n + 1)) a.client) a.timestamp) =
        some (out, s') ∧ Refines s'.matching r' ∧
      Sound config basePrice limits (n + 1) (fs ++ submissionFills out) s' r' := by
  obtain ⟨out, s', r', hprocess, houtcome⟩ :=
    process_outcome hR (.newOrder (config.nextOrder a.draw (UInt64.ofNat (n + 1)) a.client) a.timestamp)
  have hhandled := houtcome.handled hR
  have haccounts := (hhandled.records hR.valid).accountsOf h.accounts
  refine ⟨out, s', r', hprocess, hhandled.refines hR, ?_⟩
  cases houtcome with
  | refusedByRisk hrisk => exact absurd (h.approved hR.valid hfit hn a.draw rfl rfl) hrisk
  | @submitted _ _ e' _ res fills hrisk hsub hR' =>
    have hnone := h.accepted hR.valid hfit hn a.draw rfl rfl rfl rfl rfl hsub
    obtain ⟨⟨hpos, -⟩, -⟩ := a.draw.room hfit hn
    have hpublished := ((publishes_fills config.symbol fills (s.sequenced e')).trans
      (publishes_rest ((s.sequenced e').applyFills config.symbol fills) config.symbol a.draw.side a.draw.price
        res.rested)).risk
    rw [List.append_nil] at hpublished
    refine h.submitted hR.valid a.draw hpos rfl rfl rfl hsub hpublished haccounts ?_
    -- market data, and then the report of the order
    obtain ⟨ms, happends, hmarket⟩ :=
      (emits_fills (Q := fun _ => True) config.symbol fills (s.sequenced e') fun _ _ => trivial).trans
        (emits_rest ((s.sequenced e').applyFills config.symbol fills) config.symbol a.draw.side res.rested
          (show (fun _ : Int => True) a.draw.price from trivial))
    have hquiet : ms.filterMap Message.report? = [] := List.filterMap_eq_nil_iff.2 hmarket.others
    have hsink := (happends.trans (appends_report _ (UInt64.ofNat (n + 1)) a.client config.symbol fills
      res.remainingAfter (ReplayEngine.newOrderExecType res fills) res.rejectReason)).sink
    refine (congrArg (fun sink => (sink.filterMap Message.report?).map ExecutionReportMessage.rejectReason) hsink).trans
      ?_
    have hbefore := h.reports
    show ((s.feed.sink ++ _).filterMap Message.report?).map _ = _
    rw [List.filterMap_append, List.filterMap_append, hquiet, List.map_append, hbefore]
    simp [Message.report?, reportOf, hnone]

/-- A whole session. -/
theorem run (h : Sound config basePrice limits n fs s r) (hR : Refines s.matching r)
    (hfit : config.Fits P basePrice limits count) (arrivals : List (Arrival config))
    (hcount : n + arrivals.length ≤ count) :
    ∃ outs s' r', runAll ReplayEngine.process s (config.session n arrivals) = some (outs, s') ∧
      Refines s'.matching r' ∧
      Sound config basePrice limits (n + arrivals.length) (fs ++ runFills outs) s' r' := by
  induction arrivals generalizing n fs s r with
  | nil => exact ⟨[], s, r, rfl, hR, by simpa [runFills] using h⟩
  | cons a arrivals ih =>
    rw [List.length_cons] at hcount
    obtain ⟨out, s₁, r₁, hprocess, hR₁, h₁⟩ := h.next hR hfit (by omega) a
    obtain ⟨outs, s', r', hrun, hR', h'⟩ := ih h₁ hR₁ (by omega)
    refine ⟨out :: outs, s', r', ?_, hR', ?_⟩
    · rw [SyntheticConfig.session, runAll_cons hprocess, hrun]
      rfl
    · have hcons : runFills (out :: outs) = submissionFills out ++ runFills outs := rfl
      rw [hcons, ← List.append_assoc, List.length_cons, Nat.add_comm arrivals.length, ← Nat.add_assoc]
      exact h'

end Sound

end

/-- No order of a session that fits is rejected.  In any session of at most `count` orders on a new book, with new
accounts and a ladder, a pool and limits made for `count` orders, and whatever is drawn: every order is reported as
accepted, the audit of the book finds nothing, and every client's position and loss stay within what the session
can make of them. -/
theorem synthetic_session_accepted {P : Params} {M X : Type} [DenseMap M OrderId Nat]
    [DenseMap X UInt64 ClientExposure] (config : SyntheticConfig) (basePrice : Int) (limits : Limits) (count : Nat)
    (hfit : config.Fits P basePrice limits count) (arrivals : List (Arrival config))
    (hcount : arrivals.length ≤ count) :
    ∃ outs s, runAll ReplayEngine.process
        (ReplayEngine.new (P := P) (M := M) config.symbol basePrice (RiskEngine.new limits : RiskEngine X))
        (config.session 0 arrivals) = some (outs, s) ∧
      (s.feed.sink.filterMap Message.report?).map ExecutionReportMessage.rejectReason =
        List.replicate arrivals.length .none ∧
      s.matching.book.checkBookInvariants = some [] ∧
      ∀ c, -(arrivals.length * config.maxQuantity) ≤ s.risk.position c config.symbol ∧
        s.risk.position c config.symbol ≤ arrivals.length * config.maxQuantity ∧
        -(arrivals.length * config.maxQuantity * (2 * config.priceSpreadTicks)) ≤ s.risk.pnl c config.symbol := by
  have hnew : Sound config basePrice limits 0 []
      (ReplayEngine.new (P := P) (M := M) config.symbol basePrice (RiskEngine.new limits : RiskEngine X))
      (RefEngine.new P config.symbol basePrice) := by
    refine ⟨rfl, rfl, rfl, rfl, ?_, Nat.le_refl 0, ?_, ?_, ?_, ?_, accountsOf_new limits, fun c => Or.inl ?_, rfl⟩
    · intro x hx
      cases hx
    · intro x hx
      cases hx
    · intro x hx
      cases hx
    · intro f hf
      cases hf
    · intro c side
      simp [volume, openQuantity, RefEngine.new]
    · unfold account ReplayEngine.new RiskEngine.new
      simp
  obtain ⟨outs, s, r, hrun, hR, h⟩ := hnew.run (refines_new config.symbol basePrice) hfit arrivals (by omega)
  rw [Nat.zero_add] at h
  refine ⟨outs, s, hrun, h.reports, hR.checkBookInvariants h.uncrossed, fun c => ?_⟩
  obtain ⟨hbuy, hbuy'⟩ := h.volume_le hR.valid c .buy
  obtain ⟨hsell, hsell'⟩ := h.volume_le hR.valid c .sell
  have hposition := h.position_eq c
  refine ⟨by omega, by omega, h.pnl_ge hR.valid ?_ c⟩
  cases arrivals with
  | nil => simp
  | cons a arrivals =>
    have hmax := a.draw.minQuantity_le.trans a.draw.le_maxQuantity
    have hpos := hfit.quantity
    have hband := a.draw.inBand
    unfold SyntheticConfig.InBand at hband
    exact Int.mul_nonneg (Int.mul_nonneg (by omega) (by omega)) (by omega)

/-- The configuration of the stress test: 3000 orders around 1200 in a band of 300 ticks. -/
def stressConfig : SyntheticConfig := { midPrice := 1200, priceSpreadTicks := 150 }

def stressParams : Params where
  numLevels := 400
  maxOrders := 4000
  maxOrders_pos := by decide
  maxOrders_le := by decide

def stressLimits : Limits := { maxOrderSize := 1000000, maxPosition := 1000000, maxLossPerClient := -1000000000 }

/-- An order of the largest size at the middle of the band. -/
def stressArrival (side : Side) (client : ClientId) : Arrival stressConfig where
  draw :=
    { price := 1200, quantity := 100, side := side, orderType := .limit, inBand := by decide,
      minQuantity_le := by decide, le_maxQuantity := by decide }
  client := client
  timestamp := 0

theorem synthetic_session_accepted_stress :
    stressConfig.Fits stressParams 1000 stressLimits 3000 ∧
    ∃ outs s, runAll ReplayEngine.process
        (ReplayEngine.new (P := stressParams) (M := IdMap) 1 1000
          (RiskEngine.new stressLimits : RiskEngine ExposureMap))
        (stressConfig.session 0
          (List.replicate 1500 (stressArrival .sell 1) ++ List.replicate 1500 (stressArrival .buy 2))) =
          some (outs, s) ∧
      (s.feed.sink.filterMap Message.report?).map ExecutionReportMessage.rejectReason =
        List.replicate 3000 .none := by
  have hfit : stressConfig.Fits stressParams 1000 stressLimits 3000 :=
    ⟨by decide, by decide, by decide, by decide, by decide, by decide, by decide⟩
  have hlength : (List.replicate 1500 (stressArrival .sell 1) ++
      List.replicate 1500 (stressArrival .buy 2)).length = 3000 := by
    rw [List.length_append, List.length_replicate, List.length_replicate]
  obtain ⟨outs, s, hrun, hreports, -⟩ := synthetic_session_accepted (P := stressParams) (M := IdMap) (X := ExposureMap)
    stressConfig 1000 stressLimits 3000 hfit _ hlength.le
  rw [hlength] at hreports
  exact ⟨hfit, outs, s, hrun, hreports⟩

end Exchange
