import Exchange.Aggregates
import Exchange.BestPrices
import Exchange.Splitting
import Exchange.Uncrossed
import Exchange.Venues
import Exchange.Volume
import Mathlib.Tactic.Ring

/-!
# The arbitrage strategy

`ArbitrageStrategy` of `jane/strategy/arbitrage.hpp`: watches the best prices of two symbols, and when one can be
bought for less than the other can be sold for, sends an immediate-or-cancel leg to each.  Prices and quantities are
exact integers.

* an immediate-or-cancel order at the opposite touch trades at that price only, and as much of it as is there;
* a leg does not disturb the risk check of the other, whose account it does not touch;
* so a round of the strategy earns the edge it has seen on every lot that both legs fill, whatever the price at which
  the two positions are marked afterwards (`arbitrage_locks_in_edge`).
-/

namespace Exchange

open DenseMap OrderBook RiskEngine

structure ArbitrageConfig where
  symbolA : SymbolId
  symbolB : SymbolId
  client : ClientId
  clipSize : Int := 10
  minEdgeTicks : Int := 2

structure ArbitrageAction where
  buyLeg : NewOrderMessage
  sellLeg : NewOrderMessage
  edgeTicks : Int

structure ArbitrageStrategy where
  config : ArbitrageConfig
  nextOrderId : UInt64

namespace ArbitrageStrategy

def makeLeg (t : ArbitrageStrategy) (symbol : SymbolId) (side : Side) (price : Int) :
    NewOrderMessage × ArbitrageStrategy :=
  ({ orderId := t.nextOrderId
     price := price
     quantity := t.config.clipSize
     clientId := t.config.client
     symbolId := symbol
     side := side
     orderType := .limit
     timeInForce := .ioc },
    { t with nextOrderId := t.nextOrderId + 1 })

/-- The initialisers of the action are evaluated in order, so the buy leg gets the first id. -/
def makeAction (t : ArbitrageStrategy) (buySymbol : SymbolId) (buyPrice : Int) (sellSymbol : SymbolId)
    (sellPrice edge : Int) : ArbitrageAction × ArbitrageStrategy :=
  let (buyLeg, t) := t.makeLeg buySymbol .buy buyPrice
  let (sellLeg, t) := t.makeLeg sellSymbol .sell sellPrice
  ({ buyLeg := buyLeg, sellLeg := sellLeg, edgeTicks := edge }, t)

/-- What `check` does in one direction: buy one symbol at its best ask, sell the other at its best bid. -/
def checkDirection (t : ArbitrageStrategy) (buySymbol sellSymbol : SymbolId) (bestBid bestAsk : Option Int) :
    Option (ArbitrageAction × ArbitrageStrategy) :=
  match bestBid, bestAsk with
  | some bid, some ask =>
    let edge := bid - ask
    if edge ≥ t.config.minEdgeTicks then some (t.makeAction buySymbol ask sellSymbol bid edge) else none
  | _, _ => none

def check (t : ArbitrageStrategy) (aBestBid aBestAsk bBestBid bBestAsk : Option Int) :
    Option ArbitrageAction × ArbitrageStrategy :=
  match t.checkDirection t.config.symbolA t.config.symbolB bBestBid aBestAsk with
  | some (action, t) => (some action, t)
  | none =>
    match t.checkDirection t.config.symbolB t.config.symbolA aBestBid bBestAsk with
    | some (action, t) => (some action, t)
    | none => (none, t)

/-- A leg of the strategy on `side` of `symbol`. -/
structure LegOn (config : ArbitrageConfig) (symbol : SymbolId) (side : Side) (wire : NewOrderMessage) : Prop where
  symbol : wire.symbolId = symbol
  client : wire.clientId = config.client
  side : wire.side = side
  type : wire.orderType = .limit
  tif : wire.timeInForce = .ioc
  quantity : wire.quantity = config.clipSize

/-- The legs of an action that buys `buySymbol` at its best ask and sells `sellSymbol` at its best bid. -/
structure Legs (config : ArbitrageConfig) (buySymbol sellSymbol : SymbolId) (bestBid bestAsk : Option Int)
    (action : ArbitrageAction) : Prop where
  buyLeg : LegOn config buySymbol .buy action.buyLeg
  sellLeg : LegOn config sellSymbol .sell action.sellLeg
  bestAsk : bestAsk = some action.buyLeg.price
  bestBid : bestBid = some action.sellLeg.price
  edge : action.edgeTicks = action.sellLeg.price - action.buyLeg.price
  minEdge : config.minEdgeTicks ≤ action.edgeTicks

variable {t t' : ArbitrageStrategy} {action : ArbitrageAction}

theorem checkDirection_legs {buySymbol sellSymbol : SymbolId} {bestBid bestAsk : Option Int}
    (h : t.checkDirection buySymbol sellSymbol bestBid bestAsk = some (action, t')) :
    Legs t.config buySymbol sellSymbol bestBid bestAsk action := by
  unfold checkDirection at h
  split at h
  · rename_i bid ask
    dsimp only at h
    split_ifs at h with hedge
    cases h
    exact ⟨⟨rfl, rfl, rfl, rfl, rfl, rfl⟩, ⟨rfl, rfl, rfl, rfl, rfl, rfl⟩, rfl, rfl, rfl, hedge⟩
  · cases h

/-- An action buys on one of the symbols and sells on the other. -/
theorem check_legs {aBestBid aBestAsk bBestBid bBestAsk : Option Int}
    (h : t.check aBestBid aBestAsk bBestBid bBestAsk = (some action, t')) :
    Legs t.config t.config.symbolA t.config.symbolB bBestBid aBestAsk action ∨
      Legs t.config t.config.symbolB t.config.symbolA aBestBid bBestAsk action := by
  unfold check at h
  split at h
  · rename_i hdir
    cases h
    exact Or.inl (checkDirection_legs hdir)
  · split at h
    · rename_i hdir
      cases h
      exact Or.inr (checkDirection_legs hdir)
    · cases h

end ArbitrageStrategy

/-! ### An order at the touch -/

section

variable {P : Params} {M : Type} [DenseMap M OrderId Nat] {b : OrderBook P M} {L : List Order} {a : Order} {p : Int}

/-- The orders a limit order at the opposite touch accepts are those at the touch. -/
theorem OrderBook.Holds.acceptable_touch (h : b.Holds L) (htype : a.type = .limit)
    (hbest : (b.bestIndexFor (opposite a.side)).map b.priceAt = some a.price) :
    L.filter (acceptable a) = ordersAt (opposite a.side) a.price L := by
  obtain ⟨i, hi, hprice⟩ := Option.map_eq_some_iff.1 hbest
  obtain ⟨n, -, hmem, hmin⟩ := h.best_some hi
  have hopp : opposite (opposite a.side) = a.side := by cases a.side <;> rfl
  rw [hopp] at hmin
  have hn : (b.node n).order.price = a.price := (mem_ordersAt.1 hmem).2.2.trans hprice
  apply List.filter_congr
  intro o ho
  by_cases hside : o.side = opposite a.side
  · have hrank : rank a.side (b.node n).order ≤ rank a.side o :=
      firstMin_le hmin (List.mem_filter.2 ⟨ho, by simpa using hside⟩)
    have hcross : crosses a.side a.price o.price = decide (o.price = a.price) := by
      unfold rank at hrank
      rw [hn] at hrank
      unfold crosses
      cases hs : a.side <;> simp only [hs, reduceCtorEq, if_true, if_false] at hrank ⊢ <;>
        exact decide_eq_decide.2 (by omega)
    simp [acceptable, accepts_eq, htype, hside, hcross]
  · simp [acceptable, hside]

theorem OrderBook.Holds.liquidity_touch (h : b.Holds L) (htype : a.type = .limit)
    (hbest : (b.bestIndexFor (opposite a.side)).map b.priceAt = some a.price) :
    liquidity a L = b.quantityAt (opposite a.side) a.price := by
  obtain ⟨i, hi, hprice⟩ := Option.map_eq_some_iff.1 hbest
  have hlt : i < P.numLevels := by
    obtain ⟨n, -, hmem, -⟩ := h.best_some hi
    obtain ⟨hmem, -, hat⟩ := mem_ordersAt.1 hmem
    obtain ⟨j, hj, hpj⟩ := h.price hmem
    rw [hat, priceAt_inj] at hpj
    exact hpj ▸ hj
  unfold liquidity OrderBook.quantityAt
  rw [h.acceptable_touch htype hbest, ← hprice, indexOf_priceAt hlt, Option.elim_some, h.fifo]

/-- Something rests at the touch. -/
theorem OrderBook.Holds.liquidity_touch_pos (h : b.Holds L) (hpos : ∀ o ∈ L, 0 < o.remaining) (htype : a.type = .limit)
    (hbest : (b.bestIndexFor (opposite a.side)).map b.priceAt = some a.price) : 0 < liquidity a L := by
  obtain ⟨o, ho, hside, hprice⟩ := h.exists_of_best hbest
  have hmem : o ∈ L.filter (acceptable a) := by
    rw [h.acceptable_touch htype hbest]
    exact mem_ordersAt.2 ⟨ho, hside, hprice⟩
  unfold liquidity
  refine List.sum_pos _ (fun q hq => ?_) (List.ne_nil_of_mem (List.mem_map_of_mem hmem))
  obtain ⟨x, hx, rfl⟩ := List.mem_map.1 hq
  exact hpos x (List.mem_filter.1 hx).1

end

/-! ### A leg -/

section

variable {P : Params} {M X : Type} [DenseMap M OrderId Nat] [DenseMap X UInt64 ClientExposure]
  {s : ReplayEngine P M X} {r : RefEngine P}

/-- An immediate-or-cancel order at the opposite touch that risk lets through: it trades at its price, as much as
rests there, and the risk engine records that. -/
theorem process_at_touch (hR : Refines s.matching r) {wire : NewOrderMessage} {ts : Int}
    (hsymbol : wire.symbolId = r.symbol) (htype : wire.orderType = .limit) (htif : wire.timeInForce = .ioc)
    (hq : 0 < wire.quantity)
    (hbest : (s.matching.book.bestIndexFor (opposite wire.side)).map s.matching.book.priceAt = some wire.price)
    (hforeign : ∀ o, s.matching.book.Resting o → o.client ≠ wire.clientId)
    (hrisk : s.risk.checkNewOrder (s.orderOf wire ts) = .none) :
    ∃ sub s' r', s.process (.newOrder wire ts) = some (some sub, s') ∧ Refines s'.matching r' ∧
      r'.symbol = r.symbol ∧ sub.rested = false ∧ OneSided wire.clientId wire.side sub.fills ∧
      (∀ f ∈ sub.fills, f.price = wire.price) ∧
      (sub.fills.map Fill.quantity).sum =
        min wire.quantity (s.matching.book.quantityAt (opposite wire.side) wire.price) ∧
      0 < (sub.fills.map Fill.quantity).sum ∧ s'.risk = s.risk.recordFills r.symbol sub.fills := by
  obtain ⟨out, s', r', hprocess, houtcome⟩ := process_outcome hR (.newOrder wire ts)
  have hhandled := houtcome.handled hR
  have hrecorded := hhandled.recordFills hR.valid (by simp [Event.orderId?])
  have hsymbol' := (hhandled.records hR.valid).symbol
  have hR' := hhandled.refines hR
  cases houtcome with
  | refusedByRisk hrefused => exact absurd hrisk hrefused
  | @submitted _ _ e' _ res fills _ hsub _ =>
    have hioc : (s.orderOf wire ts).Aggressive := Or.inl ⟨htype, htif⟩
    obtain ⟨a, hx⟩ := hsub.aggressive hioc hsymbol hq
    have hliq : liquidity (s.orderOf wire ts) r.resting =
        s.matching.book.quantityAt (opposite wire.side) wire.price := hR.holds.liquidity_touch htype hbest
    have hliq_pos := hR.holds.liquidity_touch_pos (a := s.orderOf wire ts) hR.valid.remaining_pos htype hbest
    have hquantity : (fills.map Fill.quantity).sum =
        min wire.quantity (s.matching.book.quantityAt (opposite wire.side) wire.price) := by
      have hsum : (fills.map Fill.quantity).sum + a.remaining = wire.quantity := hx.sweep.quantity
      have hzero := hx.sweep.remaining_eq_zero hR.valid hx.settled hq.le
      have hleft := hx.remaining_nonneg
      by_cases hfilled : a.remaining = 0
      · have hle : wire.quantity ≤ liquidity (s.orderOf wire ts) r.resting := hzero.1 hfilled
        omega
      · have hrest : a.remaining = wire.quantity - liquidity (s.orderOf wire ts) r.resting :=
          (hx.sweep.exhausted hR.valid hx.settled (by omega)).2
        omega
    refine ⟨_, _, r', hprocess, hR', hsymbol', ?_, ⟨?_, ?_⟩, ?_, hquantity, ?_, hrecorded⟩
    · cases hsub with
      | rested _ _ _ hday _ =>
        rw [show (s.orderOf wire ts).tif = .ioc from htif] at hday
        cases hday
      | _ => rfl
    · intro f hf
      obtain ⟨x, -, -, hfill⟩ := hsub.counterparty hR.valid hf
      exact ⟨hfill.aggressorClientId, hfill.aggressorSide⟩
    · intro f hf
      obtain ⟨x, hxr, -, hfill⟩ := hsub.counterparty hR.valid hf
      rw [hfill.restingClientId]
      exact hforeign x (hR.holds.resting_iff.2 hxr)
    · intro f hf
      obtain ⟨x, hxr, hacc, hfill⟩ := hsub.counterparty hR.valid hf
      have hmem : x ∈ r.resting.filter (acceptable (s.orderOf wire ts)) := List.mem_filter.2 ⟨hxr, hacc⟩
      rw [hR.holds.acceptable_touch htype hbest] at hmem
      rw [hfill.price]
      exact (mem_ordersAt.1 hmem).2.2
    · show 0 < (fills.map Fill.quantity).sum
      omega

end

/-! ### A round of the strategy -/

/-- The quantity filled of a submission. -/
def Submission.filled (sub : Submission) : Int := (sub.fills.map Fill.quantity).sum

section

variable {X : Type} [DenseMap X UInt64 ClientExposure]

/-- What the cash and the positions of a client in two symbols are worth, when both are marked at one price. -/
def RiskEngine.worth (k : RiskEngine X) (c : ClientId) (symbol other : SymbolId) (mark : Int) : Int :=
  k.cashFlow c symbol + k.cashFlow c other + (k.position c symbol + k.position c other) * mark

/-- A leg on each symbol: the price at which the positions are marked matters for the difference of the quantities
only. -/
theorem worth_recordFills {symbol other : SymbolId} (hne : symbol ≠ other) (k : RiskEngine X) {c : ClientId}
    {buyPrice sellPrice : Int} {buys sells : List Fill} (hbuys : OneSided c .buy buys)
    (hbuyPrice : ∀ f ∈ buys, f.price = buyPrice) (hsells : OneSided c .sell sells)
    (hsellPrice : ∀ f ∈ sells, f.price = sellPrice) (mark : Int) :
    ((k.recordFills symbol buys).recordFills other sells).worth c symbol other mark =
      k.worth c symbol other mark + (sells.map Fill.quantity).sum * (sellPrice - mark) -
        (buys.map Fill.quantity).sum * (buyPrice - mark) := by
  have hposition : ∀ (k : RiskEngine X) (fs : List Fill) {s s' : SymbolId}, s ≠ s' →
      (k.recordFills s fs).position c s' = k.position c s' := by
    intro k fs s s' hss
    rw [position_eq, position_eq, account_recordFills_of_ne hss]
  have hcash : ∀ (k : RiskEngine X) (fs : List Fill) {s s' : SymbolId}, s ≠ s' →
      (k.recordFills s fs).cashFlow c s' = k.cashFlow c s' := by
    intro k fs s s' hss
    rw [RiskEngine.cashFlow, account_recordFills_of_ne hss, RiskEngine.cashFlow]
  unfold RiskEngine.worth
  rw [hcash _ sells hne.symm, hposition _ sells hne.symm, cashFlow_recordFills, cashFlow_recordFills,
    position_recordFills, position_recordFills, hcash k buys hne, hposition k buys hne, hbuys.bought_eq,
    hbuys.paid_eq hbuyPrice, hsells.bought_eq, hsells.paid_eq hsellPrice]
  simp only [signed, if_true, reduceCtorEq, if_false]
  ring

end

namespace Venues

variable {ι : Type} {P : ι → Params} {M X : Type} [DenseMap X UInt64 ClientExposure]

/-- The two legs have come back from the venues `x` and `y`. -/
structure Round (config : ArbitrageConfig) (action : ArbitrageAction) (symbol : ι → SymbolId)
    (s s' : Venues ι P M X) (x y : ι) (buy sell : Submission) : Prop where
  ended : buy.rested = false ∧ sell.rested = false
  buyPrice : ∀ f ∈ buy.fills, f.price = action.buyLeg.price
  sellPrice : ∀ f ∈ sell.fills, f.price = action.sellLeg.price
  filled : 0 < buy.filled ∧ 0 < sell.filled
  bought : buy.filled = min config.clipSize ((s.matching x).book.quantityAt .sell action.buyLeg.price)
  sold : sell.filled = min config.clipSize ((s.matching y).book.quantityAt .buy action.sellLeg.price)
  worth : ∀ mark, s'.risk.worth config.client (symbol x) (symbol y) mark =
    s.risk.worth config.client (symbol x) (symbol y) mark + sell.filled * (action.sellLeg.price - mark) -
      buy.filled * (action.buyLeg.price - mark)
  hedged : buy.filled = sell.filled → ∀ mark, s'.risk.worth config.client (symbol x) (symbol y) mark =
    s.risk.worth config.client (symbol x) (symbol y) mark + buy.filled * action.edgeTicks

variable [DecidableEq ι] [DenseMap M OrderId Nat] {symbol : ι → SymbolId} {s : Venues ι P M X} {x y : ι}
  {config : ArbitrageConfig} {action : ArbitrageAction}

/-- Both legs trade: neither venue sees the other's leg, and risk judges the second as if the first had not been
sent. -/
theorem Holds.round (hs : s.Holds symbol) (hsymbol : Function.Injective symbol) (hxy : x ≠ y)
    (hlegs : ArbitrageStrategy.Legs config (symbol x) (symbol y) (s.matching y).book.bestBid
      (s.matching x).book.bestAsk action)
    (hclip : 0 < config.clipSize)
    (hforeign : ∀ i, i = x ∨ i = y → ∀ o, (s.matching i).book.Resting o → o.client ≠ config.client)
    {tsBuy tsSell : Int} (hbuy : s.risk.checkNewOrder ((s.venue x).orderOf action.buyLeg tsBuy) = .none)
    (hsell : s.risk.checkNewOrder ((s.venue y).orderOf action.sellLeg tsSell) = .none) :
    ∃ buy sell s₁ s₂, s.process (x, .newOrder action.buyLeg tsBuy) = some (some buy, s₁) ∧
      s₁.process (y, .newOrder action.sellLeg tsSell) = some (some sell, s₂) ∧
      Round config action symbol s s₂ x y buy sell := by
  have hleg : ∀ {i : ι} {side : Side} {wire : NewOrderMessage} {ts : Int} {u : ReplayEngine (P i) M X},
      (i = x ∨ i = y) → ArbitrageStrategy.LegOn config (symbol i) side wire → u.matching = s.matching i →
      ((s.matching i).book.bestIndexFor (opposite side)).map (s.matching i).book.priceAt = some wire.price →
      u.risk.checkNewOrder (u.orderOf wire ts) = .none →
      ∃ sub u', u.process (.newOrder wire ts) = some (some sub, u') ∧ sub.rested = false ∧
        OneSided config.client side sub.fills ∧ (∀ f ∈ sub.fills, f.price = wire.price) ∧
        sub.filled = min config.clipSize ((s.matching i).book.quantityAt (opposite side) wire.price) ∧
        0 < sub.filled ∧ u'.risk = u.risk.recordFills (symbol i) sub.fills := by
    intro i side wire ts u hi hleg hmatching hbest hrisk
    obtain ⟨r, hR, hr⟩ := hs i
    rw [← hmatching] at hR hbest
    have hforeign' : ∀ o, u.matching.book.Resting o → o.client ≠ wire.clientId := by
      rw [hmatching, hleg.client]
      exact hforeign i hi
    obtain ⟨sub, u', -, hprocess, -, -, hrested, hsided, hprice, hfilled, hpos, hrecorded⟩ :=
      process_at_touch hR (hleg.symbol.trans hr.symm) hleg.type hleg.tif (by rw [hleg.quantity]; exact hclip)
        (by rw [hleg.side]; exact hbest) hforeign' hrisk
    rw [hleg.client, hleg.side] at hsided
    rw [hleg.quantity, hleg.side, hmatching] at hfilled
    rw [hr] at hrecorded
    exact ⟨sub, u', hprocess, hrested, hsided, hprice, hfilled, hpos, hrecorded⟩
  obtain ⟨buy, u, hbought, hbuyRested, hbuySided, hbuyPrice, hbuyFilled, hbuyPos, hbuyRisk⟩ :=
    hleg (u := s.venue x) (Or.inl rfl) hlegs.buyLeg rfl hlegs.bestAsk hbuy
  have hother : (s.setVenue x u).venue y = { s.venue y with risk := u.risk, feed := u.feed } :=
    venue_setVenue_of_ne s hxy.symm u
  have halike : SymbolAlike (symbol y) u.risk s.risk := by
    rw [hbuyRisk]
    exact SymbolAlike.recordFills_of_ne (fun hsame => hxy (hsymbol hsame)) s.risk buy.fills
  have hsell' : u.risk.checkNewOrder ((s.venue y).orderOf action.sellLeg tsSell) = .none :=
    (halike.checkNewOrder hlegs.sellLeg.symbol).trans hsell
  obtain ⟨sell, v, hsold, hsellRested, hsellSided, hsellPrice, hsellFilled, hsellPos, hsellRisk⟩ :=
    hleg (u := { s.venue y with risk := u.risk, feed := u.feed }) (Or.inr rfl) hlegs.sellLeg rfl hlegs.bestBid hsell'
  have hworth : ∀ mark, ((s.setVenue x u).setVenue y v).risk.worth config.client (symbol x) (symbol y) mark =
      s.risk.worth config.client (symbol x) (symbol y) mark + sell.filled * (action.sellLeg.price - mark) -
        buy.filled * (action.buyLeg.price - mark) := by
    intro mark
    have hrisk : ((s.setVenue x u).setVenue y v).risk =
        (s.risk.recordFills (symbol x) buy.fills).recordFills (symbol y) sell.fills := by
      rw [← show u.risk = s.risk.recordFills (symbol x) buy.fills from hbuyRisk]
      exact hsellRisk
    rw [hrisk]
    exact worth_recordFills (fun hsame => hxy (hsymbol hsame)) s.risk hbuySided hbuyPrice hsellSided hsellPrice mark
  refine ⟨buy, sell, s.setVenue x u, (s.setVenue x u).setVenue y v, ?_, ?_, ⟨hbuyRested, hsellRested⟩,
    hbuyPrice, hsellPrice, ⟨hbuyPos, hsellPos⟩, hbuyFilled, hsellFilled, hworth, ?_⟩
  · rw [Venues.process, hbought, Option.map_some]
  · rw [Venues.process, hother, hsold, Option.map_some]
  · -- the mark cancels between the legs
    intro hfilled mark
    rw [hworth mark, hlegs.edge, ← hfilled]
    ring

/-- Whatever has happened at the venues before: when the strategy acts on two of them where it has no orders of its
own, with a positive clip, and risk approves of both legs as things stand, then both legs trade, at the best prices it
has seen and for as much as rests there, and nothing of them is left in the books.  If they fill alike, every lot earns
the edge, which is no less than the minimum, whatever the common price at which the two positions are marked. -/
theorem arbitrage_locks_in_edge (hsymbol : Function.Injective symbol) (basePrice : ι → Int) (risk : RiskEngine X)
    (reqs : List (ι × Event)) :
    ∃ outs s, runAll process (new (P := P) (M := M) symbol basePrice risk) reqs = some (outs, s) ∧
      ∀ (t t' : ArbitrageStrategy) (a b : ι) (action : ArbitrageAction), a ≠ b → t.config.symbolA = symbol a →
        t.config.symbolB = symbol b → 0 < t.config.clipSize →
        (∀ i, i = a ∨ i = b → ∀ o, (s.matching i).book.Resting o → o.client ≠ t.config.client) →
        t.check (s.matching a).book.bestBid (s.matching a).book.bestAsk (s.matching b).book.bestBid
          (s.matching b).book.bestAsk = (some action, t') →
        t.config.minEdgeTicks ≤ action.edgeTicks ∧
        ∃ x y, (x = a ∧ y = b ∨ x = b ∧ y = a) ∧ action.buyLeg.symbolId = symbol x ∧
          action.sellLeg.symbolId = symbol y ∧
          ∀ tsBuy tsSell, s.risk.checkNewOrder ((s.venue x).orderOf action.buyLeg tsBuy) = .none →
            s.risk.checkNewOrder ((s.venue y).orderOf action.sellLeg tsSell) = .none →
            ∃ buy sell s₁ s₂, s.process (x, .newOrder action.buyLeg tsBuy) = some (some buy, s₁) ∧
              s₁.process (y, .newOrder action.sellLeg tsSell) = some (some sell, s₂) ∧
              Round t.config action symbol s s₂ x y buy sell := by
  obtain ⟨outs, s, hrun, hs⟩ := holds_run (P := P) (M := M) symbol basePrice risk reqs
  refine ⟨outs, s, hrun, ?_⟩
  intro t t' a b action hab ha hb hclip hforeign hcheck
  have hlegs := ArbitrageStrategy.check_legs hcheck
  rw [ha, hb] at hlegs
  rcases hlegs with hlegs | hlegs
  · exact ⟨hlegs.minEdge, a, b, Or.inl ⟨rfl, rfl⟩, hlegs.buyLeg.symbol, hlegs.sellLeg.symbol,
      fun _ _ hbuy hsell => hs.round hsymbol hab hlegs hclip hforeign hbuy hsell⟩
  · exact ⟨hlegs.minEdge, b, a, Or.inr ⟨rfl, rfl⟩, hlegs.buyLeg.symbol, hlegs.sellLeg.symbol,
      fun _ _ hbuy hsell => hs.round hsymbol hab.symm hlegs hclip (fun i hi => hforeign i hi.symm) hbuy hsell⟩

/-- An ask on one venue and a higher bid on the other. -/
def pairRequests : List (Bool × Event) :=
  [(true, .newOrder (limitDay 1 1 .sell 100 5) 1),
    (false, .newOrder { limitDay 2 2 .buy 102 3 with symbolId := 8 } 2)]

def pairStrategy : ArbitrageStrategy where
  config := { symbolA := 7, symbolB := 8, client := 9, clipSize := 2 }
  nextOrderId := 10

/-- The strategy buys two lots at 100 and sells two at 102. -/
theorem arbitrage_locks_in_edge_pair :
    ∃ outs s buy sell s₁ s₂,
      runAll process (new (P := fun _ => tinyParams) (M := IdMap) pairSymbol (fun _ => 100)
        (RiskEngine.new (X := ExposureMap) looseLimits)) pairRequests = some (outs, s) ∧
      s.process (true, .newOrder (pairStrategy.makeAction 7 100 8 102 2).1.buyLeg 3) = some (some buy, s₁) ∧
      s₁.process (false, .newOrder (pairStrategy.makeAction 7 100 8 102 2).1.sellLeg 4) = some (some sell, s₂) ∧
      Round pairStrategy.config (pairStrategy.makeAction 7 100 8 102 2).1 pairSymbol s s₂ true false buy sell := by
  obtain ⟨outs, s, hrun, hround⟩ := arbitrage_locks_in_edge (P := fun _ => tinyParams) (M := IdMap)
    pairSymbol_injective (fun _ => 100) (RiskEngine.new (X := ExposureMap) looseLimits) pairRequests
  -- what holds of the state the run leads to is evaluated
  have hstate : ∀ Q : Venues Bool (fun _ => tinyParams) IdMap ExposureMap → Prop,
      (runAll process (new (P := fun _ => tinyParams) (M := IdMap) pairSymbol (fun _ => 100)
        (RiskEngine.new (X := ExposureMap) looseLimits)) pairRequests).elim False (fun p => Q p.2) → Q s := by
    intro Q hQ
    rw [hrun] at hQ
    exact hQ
  have hforeign : ∀ i o, (s.matching i).book.Resting o → o.client ≠ 9 := by
    have hnodes : ∀ i n, ((s.matching i).book.node n).order.client ≠ 9 := by
      refine hstate (fun s => ∀ i n, ((s.matching i).book.node n).order.client ≠ 9) ?_
      show ∀ i n, _
      intro i n
      cases i <;> cases n
      · exact show (2 : ClientId) ≠ 9 by decide
      · exact show (0 : ClientId) ≠ 9 by decide
      · exact show (1 : ClientId) ≠ 9 by decide
      · exact show (0 : ClientId) ≠ 9 by decide
    rintro i o ⟨n, -, rfl⟩
    exact hnodes i n
  have hcheck := hstate (fun s => pairStrategy.check (s.matching true).book.bestBid (s.matching true).book.bestAsk
    (s.matching false).book.bestBid (s.matching false).book.bestAsk =
      (some (pairStrategy.makeAction 7 100 8 102 2).1, (pairStrategy.makeAction 7 100 8 102 2).2)) rfl
  have hbuy := hstate (fun s => s.risk.checkNewOrder
    ((s.venue true).orderOf (pairStrategy.makeAction 7 100 8 102 2).1.buyLeg 3) = .none) rfl
  have hsell := hstate (fun s => s.risk.checkNewOrder
    ((s.venue false).orderOf (pairStrategy.makeAction 7 100 8 102 2).1.sellLeg 4) = .none) rfl
  obtain ⟨-, x, y, hxy, hx, -, hlegs⟩ :=
    hround pairStrategy _ true false _ (by decide) rfl rfl (by decide) (fun i _ => hforeign i) hcheck
  rcases hxy with ⟨rfl, rfl⟩ | ⟨rfl, rfl⟩
  · obtain ⟨buy, sell, s₁, s₂, hbought, hsold, h⟩ := hlegs 3 4 hbuy hsell
    exact ⟨outs, s, buy, sell, s₁, s₂, hrun, hbought, hsold, h⟩
  · exact absurd hx (by decide)

end Venues

end Exchange
