import Exchange.Publisher

/-!
# The market maker

`MarketMaker` of `jane/strategy/market_maker.hpp`: rests a bid and an ask around the middle of the market, moves them
when the middle moves, and pulls a side when the inventory has reached its cap.  Prices and quantities are exact
integers.

`on_tick` does the same on both sides with the roles exchanged; `requote` is what it does on one side, and `Requoted`
lists the five things that can happen there.
-/

namespace Exchange

structure MarketMakerConfig where
  symbol : SymbolId
  client : ClientId
  halfSpreadTicks : Int := 5
  quoteSize : Int := 10
  maxInventory : Int := 500
  initialReferencePrice : Int := 1000

/-- `new_bid`, `replace_bid` and `cancel_bid` of a `MarketMakerAction`, or the same for the ask. -/
structure SideAction where
  newOrder : Option NewOrderMessage := none
  replace : Option ReplaceOrderMessage := none
  cancel : Option CancelOrderMessage := none

structure MarketMakerAction where
  bid : SideAction := {}
  ask : SideAction := {}

/-- `resting_bid_id_` and `last_quoted_bid_`, or the same for the ask. -/
structure Quote where
  restingId : Option OrderId := none
  lastQuoted : Int := 0

structure MarketMaker where
  config : MarketMakerConfig
  nextOrderId : UInt64
  bid : Quote := {}
  ask : Quote := {}

def MarketMakerAction.on (action : MarketMakerAction) : Side → SideAction
  | .buy => action.bid
  | .sell => action.ask

namespace MarketMaker

def new (config : MarketMakerConfig) (firstOrderId : UInt64) : MarketMaker :=
  { config := config, nextOrderId := firstOrderId }

def quote (m : MarketMaker) : Side → Quote
  | .buy => m.bid
  | .sell => m.ask

def setQuote (m : MarketMaker) (side : Side) (quote : Quote) : MarketMaker :=
  match side with
  | .buy => { m with bid := quote }
  | .sell => { m with ask := quote }

/-- Integer division truncates towards zero. -/
def computeMid (config : MarketMakerConfig) : (bestBid bestAsk : Option Int) → Int
  | some bid, some ask => (bid + ask).tdiv 2
  | some bid, none => bid + config.halfSpreadTicks
  | none, some ask => ask - config.halfSpreadTicks
  | none, none => config.initialReferencePrice

/-- The message only: the counter is incremented by the caller. -/
def makeNewOrder (m : MarketMaker) (side : Side) (price : Int) : NewOrderMessage where
  orderId := m.nextOrderId
  price := price
  quantity := m.config.quoteSize
  clientId := m.config.client
  symbolId := m.config.symbol
  side := side
  orderType := .limit
  timeInForce := .day

def makeReplace (m : MarketMaker) (id : OrderId) (newPrice : Int) : ReplaceOrderMessage where
  orderId := id
  newPrice := newPrice
  newQuantity := m.config.quoteSize
  clientId := m.config.client
  symbolId := m.config.symbol

def makeCancel (m : MarketMaker) (id : OrderId) : CancelOrderMessage where
  orderId := id
  clientId := m.config.client
  symbolId := m.config.symbol

/-- What `on_tick` does on one side. -/
def requote (m : MarketMaker) (side : Side) (allowed : Bool) (target : Int) : SideAction × MarketMaker :=
  if allowed then
    match (m.quote side).restingId with
    | none =>
      ({ newOrder := some (m.makeNewOrder side target) },
        { m with nextOrderId := m.nextOrderId + 1 }.setQuote side ⟨some m.nextOrderId, target⟩)
    | some id =>
      if target ≠ (m.quote side).lastQuoted then
        ({ replace := some (m.makeReplace id target) }, m.setQuote side ⟨some id, target⟩)
      else ({}, m)
  else
    match (m.quote side).restingId with
    | some id => ({ cancel := some (m.makeCancel id) }, m.setQuote side ⟨none, (m.quote side).lastQuoted⟩)
    | none => ({}, m)

def onTick (m : MarketMaker) (bestBid bestAsk : Option Int) (inventory : Int) : MarketMakerAction × MarketMaker :=
  let mid := computeMid m.config bestBid bestAsk
  let targetBid := mid - m.config.halfSpreadTicks
  let targetAsk := mid + m.config.halfSpreadTicks
  let bidAllowed := decide (inventory < m.config.maxInventory)
  let bid := m.requote .buy bidAllowed targetBid
  let askAllowed := decide (inventory > -m.config.maxInventory)
  let ask := bid.2.requote .sell askAllowed targetAsk
  (⟨bid.1, ask.1⟩, ask.2)

/-- What `notify_order_gone` does on one side. -/
def forget (m : MarketMaker) (side : Side) (id : OrderId) : MarketMaker :=
  if (m.quote side).restingId = some id then m.setQuote side ⟨none, (m.quote side).lastQuoted⟩ else m

def notifyOrderGone (m : MarketMaker) (id : OrderId) : MarketMaker := (m.forget .buy id).forget .sell id

/-! ### Quotes -/

section

variable (m : MarketMaker) (side : Side) (q : Quote)

@[simp] theorem quote_setQuote : (m.setQuote side q).quote side = q := by cases side <;> rfl

theorem quote_setQuote_of_ne {side side' : Side} (h : side' ≠ side) :
    (m.setQuote side q).quote side' = m.quote side' := by
  cases side <;> cases side' <;> first | rfl | exact absurd rfl h

@[simp] theorem config_setQuote : (m.setQuote side q).config = m.config := by cases side <;> rfl

@[simp] theorem nextOrderId_setQuote : (m.setQuote side q).nextOrderId = m.nextOrderId := by cases side <;> rfl

@[simp] theorem quote_nextOrderId (n : UInt64) :
    ({ m with nextOrderId := n } : MarketMaker).quote side = m.quote side := by
  cases side <;> rfl

end

/-! ### One side of a tick -/

/-- What can happen on one side: a fresh order, a moved one, nothing because the price is right, a cancel, or nothing
because the side is not allowed and not quoted. -/
inductive Requoted (m : MarketMaker) (side : Side) (target : Int) : Bool → SideAction → MarketMaker → Prop
  | fresh (h : (m.quote side).restingId = none) : Requoted m side target true
      { newOrder := some (m.makeNewOrder side target) }
      ({ m with nextOrderId := m.nextOrderId + 1 }.setQuote side ⟨some m.nextOrderId, target⟩)
  | moved {id : OrderId} (h : (m.quote side).restingId = some id) : Requoted m side target true
      { replace := some (m.makeReplace id target) } (m.setQuote side ⟨some id, target⟩)
  | kept {id : OrderId} (h : (m.quote side).restingId = some id) (hprice : (m.quote side).lastQuoted = target) :
      Requoted m side target true {} m
  | pulled {id : OrderId} (h : (m.quote side).restingId = some id) : Requoted m side target false
      { cancel := some (m.makeCancel id) } (m.setQuote side ⟨none, (m.quote side).lastQuoted⟩)
  | out (h : (m.quote side).restingId = none) : Requoted m side target false {} m

theorem requoted (m : MarketMaker) (side : Side) (allowed : Bool) (target : Int) :
    m.Requoted side target allowed (m.requote side allowed target).1 (m.requote side allowed target).2 := by
  unfold requote
  cases allowed with
  | true =>
    rw [if_pos rfl]
    cases hid : (m.quote side).restingId with
    | none => exact .fresh hid
    | some id =>
      dsimp only
      by_cases hprice : target = (m.quote side).lastQuoted
      · rw [if_neg (not_not.2 hprice)]
        exact .kept hid hprice.symm
      · rw [if_pos hprice]
        exact .moved hid
  | false =>
    rw [if_neg Bool.false_ne_true]
    cases hid : (m.quote side).restingId with
    | none => exact .out hid
    | some id => exact .pulled hid

section

variable {m m' : MarketMaker} {side : Side} {target : Int} {allowed : Bool} {action : SideAction}

theorem Requoted.config_eq (h : m.Requoted side target allowed action m') : m'.config = m.config := by
  cases h <;> simp

/-- The other side is not touched. -/
theorem Requoted.quote_of_ne (h : m.Requoted side target allowed action m') {other : Side} (hne : other ≠ side) :
    m'.quote other = m.quote other := by
  cases h with
  | fresh _ => rw [quote_setQuote_of_ne _ _ hne, quote_nextOrderId]
  | moved _ => exact quote_setQuote_of_ne _ _ hne
  | kept _ _ => rfl
  | pulled _ => exact quote_setQuote_of_ne _ _ hne
  | out _ => rfl

/-- Afterwards the side is quoted exactly if it is allowed, and then at the target. -/
theorem Requoted.quote_eq (h : m.Requoted side target allowed action m') :
    if allowed then ∃ id, m'.quote side = ⟨some id, target⟩ else (m'.quote side).restingId = none := by
  cases h with
  | fresh _ => exact ⟨m.nextOrderId, by simp⟩
  | @moved id _ => exact ⟨id, by simp⟩
  | @kept id hid hprice => exact ⟨id, by rw [← hid, ← hprice]⟩
  | pulled _ => simp
  | out hid => simpa using hid

/-- A side that is quoted afterwards is allowed, and quoted at the target. -/
theorem Requoted.of_quoted (h : m.Requoted side target allowed action m') (hne : (m'.quote side).restingId ≠ none) :
    allowed = true ∧ (m'.quote side).lastQuoted = target := by
  have hquote := h.quote_eq
  cases allowed with
  | true =>
    obtain ⟨id, heq⟩ := hquote
    rw [heq]
    exact ⟨rfl, rfl⟩
  | false => exact absurd hquote hne

end

/-- A tick requotes the bid, then the ask. -/
theorem requoted_onTick (m : MarketMaker) (bestBid bestAsk : Option Int) (inventory : Int) :
    ∃ m₁, m.Requoted .buy (computeMid m.config bestBid bestAsk - m.config.halfSpreadTicks)
        (decide (inventory < m.config.maxInventory)) (m.onTick bestBid bestAsk inventory).1.bid m₁ ∧
      m₁.Requoted .sell (computeMid m.config bestBid bestAsk + m.config.halfSpreadTicks)
        (decide (inventory > -m.config.maxInventory)) (m.onTick bestBid bestAsk inventory).1.ask
        (m.onTick bestBid bestAsk inventory).2 :=
  ⟨_, m.requoted .buy _ _, requoted _ .sell _ _⟩

/-- A quote that is gone is not tracked any more, and no other is forgotten. -/
theorem quote_forget (m : MarketMaker) (side other : Side) (id : OrderId) :
    (m.forget side id).quote other =
      if other = side ∧ (m.quote other).restingId = some id then ⟨none, (m.quote other).lastQuoted⟩
      else m.quote other := by
  unfold forget
  by_cases hside : other = side
  · subst hside
    by_cases hid : (m.quote other).restingId = some id
    · simp [hid]
    · simp [hid]
  · have hother : ¬ (other = side ∧ (m.quote other).restingId = some id) := fun h => hside h.1
    rw [if_neg hother]
    split
    · exact quote_setQuote_of_ne _ _ hside
    · rfl

theorem quote_notifyOrderGone (m : MarketMaker) (side : Side) (id : OrderId) :
    (m.notifyOrderGone id).quote side =
      if (m.quote side).restingId = some id then ⟨none, (m.quote side).lastQuoted⟩ else m.quote side := by
  unfold notifyOrderGone
  cases side with
  | buy =>
    rw [quote_forget, if_neg (by simp), quote_forget]
    simp
  | sell =>
    have hbid : (m.forget .buy id).quote .sell = m.quote .sell := by
      rw [quote_forget, if_neg (by simp)]
    rw [quote_forget, hbid]
    simp

/-- A quote that is tracked afterwards is the one from before. -/
theorem quote_notifyOrderGone_of_quoted {m : MarketMaker} {side : Side} {id : OrderId}
    (h : ((m.notifyOrderGone id).quote side).restingId ≠ none) : (m.notifyOrderGone id).quote side = m.quote side := by
  rw [quote_notifyOrderGone] at h ⊢
  by_cases hid : (m.quote side).restingId = some id
  · rw [if_pos hid] at h
    exact absurd rfl h
  · rw [if_neg hid]

/-- Only quotes change. -/
theorem notifyOrderGone_frame {β : Type} (f : MarketMaker → β) (hf : ∀ m side q, f (setQuote m side q) = f m)
    (m : MarketMaker) (id : OrderId) : f (m.notifyOrderGone id) = f m := by
  have hforget : ∀ (m : MarketMaker) (side : Side), f (m.forget side id) = f m := by
    intro m side
    unfold forget
    split
    · exact hf m side _
    · rfl
  unfold notifyOrderGone
  rw [hforget, hforget]

theorem config_notifyOrderGone (m : MarketMaker) (id : OrderId) : (m.notifyOrderGone id).config = m.config :=
  notifyOrderGone_frame config config_setQuote m id

theorem nextOrderId_notifyOrderGone (m : MarketMaker) (id : OrderId) :
    (m.notifyOrderGone id).nextOrderId = m.nextOrderId :=
  notifyOrderGone_frame nextOrderId nextOrderId_setQuote m id

end MarketMaker

end Exchange
