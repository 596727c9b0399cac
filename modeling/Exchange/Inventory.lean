import Exchange.MarketMaker
import Exchange.RiskEngine
import Exchange.Lib.Loop
import Mathlib.Logic.Function.Basic

/-!
# The inventory cap

The position of a market maker whose quotes are filled.  It changes only by fills of tracked quotes, a quote fills at
most the quantity it was last sent with, and `on_tick` is called with the position after each fill and before the
next.

`on_tick` pulls a side only when the position has reached the cap.  A quote sent just below the cap has the full size,
so the position can pass the cap, by the size of a quote less one and by no more.
-/

namespace Exchange

/-- The quantity of the quote, if it is sent anew. -/
def SideAction.sentQuantity (action : SideAction) : Option Int :=
  (action.newOrder.map NewOrderMessage.quantity).or (action.replace.map ReplaceOrderMessage.newQuantity)

inductive TradingEvent where
  | tick (bestBid bestAsk : Option Int)
  | fill (side : Side) (quantity : Int)
  | gone (id : OrderId)

/-- A market maker and its position, with what may still be filled of each quote and whether a tick is due. -/
structure Trading where
  maker : MarketMaker
  position : Int
  left : Side → Int := fun _ => 0
  due : Bool := false

namespace Trading

def new (config : MarketMakerConfig) (firstOrderId : UInt64) (position : Int) : Trading :=
  { maker := .new config firstOrderId, position := position }

def tick (t : Trading) (bestBid bestAsk : Option Int) : Trading where
  maker := (t.maker.onTick bestBid bestAsk t.position).2
  position := t.position
  left side := ((t.maker.onTick bestBid bestAsk t.position).1.on side).sentQuantity.getD (t.left side)
  due := false

def fill (t : Trading) (side : Side) (quantity : Int) : Trading where
  maker := t.maker
  position := t.position + RiskEngine.signed side quantity
  left := Function.update t.left side (t.left side - quantity)
  due := true

/-- A fill of an untracked quote, of more than is left of a quote, or before the tick that is due is not one of the
runs considered. -/
def step (t : Trading) : TradingEvent → Option (Unit × Trading)
  | .tick bestBid bestAsk => some ((), t.tick bestBid bestAsk)
  | .fill side quantity =>
    if (t.maker.quote side).restingId ≠ none ∧ 0 < quantity ∧ quantity ≤ t.left side ∧ t.due = false then
      some ((), t.fill side quantity)
    else none
  | .gone id => some ((), { t with maker := t.maker.notifyOrderGone id })

/-- The position is within `bound`, and unless a tick is due the quoted sides are those that are allowed. -/
structure Bounded (config : MarketMakerConfig) (bound : Int) (t : Trading) : Prop where
  config_eq : t.maker.config = config
  left_le : ∀ side, (t.maker.quote side).restingId ≠ none → t.left side ≤ config.quoteSize
  bid_allowed : t.due = false → (t.maker.quote .buy).restingId ≠ none → t.position < config.maxInventory
  ask_allowed : t.due = false → (t.maker.quote .sell).restingId ≠ none → -config.maxInventory < t.position
  within : -bound ≤ t.position ∧ t.position ≤ bound

end Trading

/-- A quote that is sent has the configured size. -/
theorem requoted_left_le {m m' : MarketMaker} {side : Side} {target : Int} {allowed : Bool} {action : SideAction}
    (hr : m.Requoted side target allowed action m') {left : Int}
    (hleft : (m.quote side).restingId ≠ none → left ≤ m.config.quoteSize) (hne : (m'.quote side).restingId ≠ none) :
    action.sentQuantity.getD left ≤ m.config.quoteSize := by
  cases hr with
  | fresh _ => exact Int.le_refl m.config.quoteSize
  | moved _ => exact Int.le_refl m.config.quoteSize
  | kept _ _ => exact hleft hne
  | pulled _ =>
    rw [MarketMaker.quote_setQuote] at hne
    exact absurd rfl hne
  | out hnone => exact absurd hnone hne

theorem requoted_sentQuantity {m m' : MarketMaker} {side : Side} {target : Int} {action : SideAction}
    (hr : m.Requoted side target true action m') (hnone : (m.quote side).restingId = none) :
    action.sentQuantity = some m.config.quoteSize := by
  cases hr with
  | fresh _ => rfl
  | moved _ => rfl
  | kept hid _ =>
    rw [hnone] at hid
    cases hid

namespace Trading.Bounded

variable {config : MarketMakerConfig} {bound : Int} {t t' : Trading}

theorem new (first : UInt64) {position : Int} (hlow : -bound ≤ position) (hhigh : position ≤ bound) :
    (Trading.new config first position).Bounded config bound where
  config_eq := rfl
  left_le side hne := by cases side <;> exact absurd rfl hne
  bid_allowed _ hne := absurd rfl hne
  ask_allowed _ hne := absurd rfl hne
  within := ⟨hlow, hhigh⟩

theorem tick (h : t.Bounded config bound) (bestBid bestAsk : Option Int) :
    (t.tick bestBid bestAsk).Bounded config bound := by
  obtain ⟨m₁, hbid, hask⟩ := t.maker.requoted_onTick bestBid bestAsk t.position
  have hconfig := h.config_eq
  have hconfig₁ : m₁.config = config := hbid.config_eq.trans hconfig
  -- requoting the ask leaves the bid as it is, and the other way round
  have hbuy : (t.tick bestBid bestAsk).maker.quote .buy = m₁.quote .buy := hask.quote_of_ne (by decide)
  have hsell : m₁.quote .sell = t.maker.quote .sell := hbid.quote_of_ne (by decide)
  refine ⟨hask.config_eq.trans hconfig₁, ?_, ?_, ?_, h.within⟩
  · intro side hne
    cases side with
    | buy =>
      have hleft := h.left_le .buy
      rw [hbuy] at hne
      rw [← hconfig] at hleft ⊢
      exact requoted_left_le hbid hleft hne
    | sell =>
      have hleft := h.left_le .sell
      rw [← hsell, ← hconfig₁] at hleft
      rw [← hconfig₁]
      exact requoted_left_le hask hleft hne
  · intro _ hne
    rw [hbuy] at hne
    rw [← hconfig]
    exact of_decide_eq_true (hbid.of_quoted hne).1
  · intro _ hne
    rw [← hconfig]
    exact of_decide_eq_true (hask.of_quoted hne).1

/-- A fill keeps the position within the bound if a whole quote sent below the cap does. -/
theorem fill (hroom : ∀ p, -bound ≤ p → p < config.maxInventory → p + config.quoteSize ≤ bound)
    (h : t.Bounded config bound) {side : Side} {quantity : Int} (hne : (t.maker.quote side).restingId ≠ none)
    (hpos : 0 < quantity) (hle : quantity ≤ t.left side) (hdue : t.due = false) :
    (t.fill side quantity).Bounded config bound := by
  have hsize : quantity ≤ config.quoteSize := Int.le_trans hle (h.left_le side hne)
  obtain ⟨hlow, hhigh⟩ := h.within
  refine ⟨h.config_eq, ?_, nofun, nofun, ?_⟩
  · intro other hother
    have hleft := h.left_le other hother
    by_cases hside : other = side
    · subst hside
      show Function.update t.left other (t.left other - quantity) other ≤ config.quoteSize
      rw [Function.update_self]
      omega
    · show Function.update t.left side (t.left side - quantity) other ≤ config.quoteSize
      rw [Function.update_of_ne hside]
      exact hleft
  · cases side with
    | buy =>
      have hbid := hroom t.position hlow (h.bid_allowed hdue hne)
      show -bound ≤ t.position + quantity ∧ t.position + quantity ≤ bound
      omega
    | sell =>
      have hallowed := h.ask_allowed hdue hne
      have hask := hroom (-t.position) (by omega) (by omega)
      show -bound ≤ t.position + -quantity ∧ t.position + -quantity ≤ bound
      omega

theorem gone (h : t.Bounded config bound) (id : OrderId) :
    ({ t with maker := t.maker.notifyOrderGone id } : Trading).Bounded config bound := by
  have hquote : ∀ side, ((t.maker.notifyOrderGone id).quote side).restingId ≠ none →
      (t.maker.quote side).restingId ≠ none := by
    intro side hne
    have heq := MarketMaker.quote_notifyOrderGone_of_quoted hne
    rwa [heq] at hne
  exact
    { config_eq := (t.maker.config_notifyOrderGone id).trans h.config_eq
      left_le := fun side hne => h.left_le side (hquote side hne)
      bid_allowed := fun hdue hne => h.bid_allowed hdue (hquote .buy hne)
      ask_allowed := fun hdue hne => h.ask_allowed hdue (hquote .sell hne)
      within := h.within }

theorem step (hroom : ∀ p, -bound ≤ p → p < config.maxInventory → p + config.quoteSize ≤ bound)
    (h : t.Bounded config bound) {e : TradingEvent} {o : Unit} (hstep : t.step e = some (o, t')) :
    t'.Bounded config bound := by
  cases e with
  | tick bestBid bestAsk =>
    cases hstep
    exact h.tick bestBid bestAsk
  | fill side quantity =>
    rw [Trading.step] at hstep
    split_ifs at hstep with hfill
    cases hstep
    obtain ⟨hne, hpos, hle, hdue⟩ := hfill
    exact h.fill hroom hne hpos hle hdue
  | gone id =>
    cases hstep
    exact h.gone id

theorem runAll (hroom : ∀ p, -bound ≤ p → p < config.maxInventory → p + config.quoteSize ≤ bound)
    (h : t.Bounded config bound) {events : List TradingEvent} {outs : List Unit}
    (hrun : runAll Trading.step t events = some (outs, t')) : t'.Bounded config bound :=
  runAll_keeps (fun _ _ t => t.Bounded config bound) (fun _ _ _ _ _ _ h hstep => h.step hroom hstep) h hrun

end Trading.Bounded

/-- The cap is passed by the size of a quote less one at most. -/
theorem position_le_cap_add_quoteSize {config : MarketMakerConfig} (hsize : 1 ≤ config.quoteSize) {first : UInt64}
    {start : Int} (hlow : -config.maxInventory ≤ start) (hhigh : start ≤ config.maxInventory)
    {events : List TradingEvent} {outs : List Unit} {t : Trading}
    (hrun : runAll Trading.step (Trading.new config first start) events = some (outs, t)) :
    -(config.maxInventory + (config.quoteSize - 1)) ≤ t.position ∧
      t.position ≤ config.maxInventory + (config.quoteSize - 1) := by
  have hstart : (Trading.new config first start).Bounded config (config.maxInventory + (config.quoteSize - 1)) :=
    .new first (by omega) (by omega)
  exact (hstart.runAll (fun p _ hp => by omega) hrun).within

/-- Below the cap the first tick quotes a bid, which may be filled in full. -/
theorem runAll_tick_fill {config : MarketMakerConfig} (hsize : 1 ≤ config.quoteSize) (first : UInt64) {start : Int}
    (hstart : start < config.maxInventory) :
    ∃ t, runAll Trading.step (Trading.new config first start) [.tick none none, .fill .buy config.quoteSize] =
      some ([(), ()], t) ∧ t.position = start + config.quoteSize := by
  obtain ⟨m₁, hbid, hask⟩ := (MarketMaker.new config first).requoted_onTick none none start
  have hallowed : decide (start < (MarketMaker.new config first).config.maxInventory) = true := decide_eq_true hstart
  rw [hallowed] at hbid
  have hquoted : (((Trading.new config first start).tick none none).maker.quote .buy).restingId ≠ none := by
    obtain ⟨id, hid⟩ := hbid.quote_eq
    have hbuy := hask.quote_of_ne (show Side.buy ≠ .sell by decide)
    show (((MarketMaker.new config first).onTick none none start).2.quote .buy).restingId ≠ none
    rw [hbuy, hid]
    exact nofun
  have hleft : ((Trading.new config first start).tick none none).left .buy = config.quoteSize := by
    have hsent := requoted_sentQuantity hbid rfl
    show ((MarketMaker.new config first).onTick none none start).1.bid.sentQuantity.getD 0 = config.quoteSize
    rw [hsent]
    rfl
  have hfill : ((Trading.new config first start).tick none none).step (.fill .buy config.quoteSize) =
      some ((), ((Trading.new config first start).tick none none).fill .buy config.quoteSize) :=
    if_pos ⟨hquoted, by omega, by omega, rfl⟩
  refine ⟨((Trading.new config first start).tick none none).fill .buy config.quoteSize, ?_, rfl⟩
  rw [runAll_cons rfl, runAll_cons hfill]
  rfl

/-- The position stays within the cap in every run exactly if a quote is of one unit at most, or the cap leaves no
room for a quote at all. -/
theorem inventory_cap_iff (config : MarketMakerConfig) (first : UInt64) :
    (∀ start, -config.maxInventory ≤ start → start ≤ config.maxInventory → ∀ events outs t,
      runAll Trading.step (Trading.new config first start) events = some (outs, t) →
        -config.maxInventory ≤ t.position ∧ t.position ≤ config.maxInventory) ↔
      config.quoteSize ≤ 1 ∨ config.maxInventory ≤ 0 := by
  constructor
  · intro hcap
    by_contra hcond
    obtain ⟨hsize, hmax⟩ := not_or.1 hcond
    have hbelow : config.maxInventory - 1 < config.maxInventory := by omega
    obtain ⟨t, hrun, hposition⟩ := runAll_tick_fill (show 1 ≤ config.quoteSize by omega) first hbelow
    have hwithin := hcap (config.maxInventory - 1) (by omega) (by omega) _ _ t hrun
    omega
  · intro hcond start hlow hhigh events outs t hrun
    have hstart : (Trading.new config first start).Bounded config config.maxInventory := .new first hlow hhigh
    refine (hstart.runAll ?_ hrun).within
    intro p hp hlt
    omega

/-- With the default configuration: the market maker is long 495, quotes a bid of ten and is filled. -/
theorem inventory_cap_passed :
    ∃ t, runAll Trading.step (Trading.new { symbol := 1, client := 9 } 1 495) [.tick none none, .fill .buy 10] =
      some ([(), ()], t) ∧ t.maker.config.maxInventory = 500 ∧ t.position = 505 :=
  ⟨_, rfl, rfl, rfl⟩

end Exchange
