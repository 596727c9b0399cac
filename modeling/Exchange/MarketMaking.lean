import Exchange.BestPrices
import Exchange.QuoteTracking
import Exchange.Volume

/-!
# The market maker on the exchange

A market maker whose messages go to a replay engine, in which others trade too.  A tick passes the best prices of the
book and the position the risk engine has recorded to `on_tick` and sends what it returns, the bid first.  Between
ticks, and between a fill and the driver's `notify_order_gone`, the others may do anything that keeps off the client
id and the order ids of the market maker.

* its quotes never trade when they arrive, so it never takes liquidity and never trades with itself;
* every order it has in the book is the one it tracks on that side;
* its position plus what it has open on a side is at most the cap and a quote less one, however many fills come
  between two ticks.
-/

namespace Exchange

open DenseMap OrderBook RiskEngine

/-! ### Orders that do not trade -/

namespace RefEngine

variable {P : Params} {r r' : RefEngine P} {o : Order} {fs : List Fill} {res : NewOrderResult}

/-- An order that accepts nothing in the book does not trade. -/
theorem Submitted.fills_eq_nil (h : Submitted r o res r' fs) (hr : r.Valid)
    (hpassive : ∀ x ∈ r.resting, acceptable o x = false) : fs = [] := by
  rw [List.eq_nil_iff_forall_not_mem]
  intro f hf
  obtain ⟨x, hx, hacc, -⟩ := h.counterparty hr hf
  rw [hpassive x hx] at hacc
  cases hacc

/-- An order that does not trade is added to the book as it is, or not at all. -/
theorem Submitted.of_fills_nil (h : Submitted r o res r' []) :
    r'.resting = r.resting ∨ r'.resting = r.resting ++ [o.fresh] := by
  cases h with
  | refused _ _ => exact Or.inl rfl
  | rested hx _ _ _ _ =>
    cases hx.sweep
    exact Or.inr rfl
  | full hx _ _ _ _ =>
    cases hx.sweep
    exact Or.inl rfl
  | ended hx _ =>
    cases hx.sweep
    exact Or.inl rfl

end RefEngine

/-! ### The loop -/

/-- The message for one side as a request. -/
def SideAction.event (action : SideAction) (timestamp : Int) : Option Event :=
  match action.newOrder, action.replace, action.cancel with
  | some wire, _, _ => some (.newOrder wire timestamp)
  | none, some wire, _ => some (.replace wire timestamp)
  | none, none, some wire => some (.cancel wire)
  | none, none, none => none

/-- A tick of the market maker, the driver's look whether the tracked order of a side still rests, or a request of
somebody else. -/
inductive MarketEvent where
  | tick (bidTimestamp askTimestamp : Int)
  | poll (side : Side)
  | other (ev : Event)

structure MarketMaking (P : Params) (M X : Type) where
  engine : ReplayEngine P M X
  maker : MarketMaker

namespace MarketMaking

variable {P : Params} {M X : Type} [DenseMap M OrderId Nat]

/-- An empty book and no quotes, with a risk engine in any state. -/
def new (config : MarketMakerConfig) (firstOrderId : UInt64) (basePrice : Int) (risk : RiskEngine X) :
    MarketMaking P M X where
  engine := ReplayEngine.new config.symbol basePrice risk
  maker := MarketMaker.new config firstOrderId

/-- The driver tells the market maker if the order it tracks is not in the book any more. -/
def poll (t : MarketMaking P M X) (side : Side) : MarketMaker :=
  match (t.maker.quote side).restingId with
  | none => t.maker
  | some id => if t.engine.matching.book.findNode id = none then t.maker.notifyOrderGone id else t.maker

variable [DenseMap X UInt64 ClientExposure]

/-- The message for one side, if there is one, is sent. -/
def send (s : ReplayEngine P M X) (action : SideAction) (timestamp : Int) :
    Option (Option Submission × ReplayEngine P M X) :=
  match action.event timestamp with
  | none => some (none, s)
  | some ev => s.process ev

def tick (t : MarketMaking P M X) (bidTimestamp askTimestamp : Int) :
    Option (List (Option Submission) × MarketMaking P M X) :=
  let book := t.engine.matching.book
  let position := t.engine.risk.position t.maker.config.client t.maker.config.symbol
  let (action, maker) := t.maker.onTick book.bestBid book.bestAsk position
  match send t.engine action.bid bidTimestamp with
  | none => none
  | some (bid, engine) =>
    match send engine action.ask askTimestamp with
    | none => none
    | some (ask, engine) => some ([bid, ask], { engine := engine, maker := maker })

def step (t : MarketMaking P M X) : MarketEvent → Option (List (Option Submission) × MarketMaking P M X)
  | .tick bidTimestamp askTimestamp => t.tick bidTimestamp askTimestamp
  | .poll side => some ([], { t with maker := t.poll side })
  | .other ev => (t.engine.process ev).map fun p => ([p.1], { t with engine := p.2 })

end MarketMaking

/-- The event keeps off the market maker: it does not trade as its client, and names none of its first `N` order ids.
-/
def Event.KeepsOff (config : MarketMakerConfig) (first : UInt64) (N : Nat) : Event → Prop
  | .newOrder wire _ => wire.clientId ≠ config.client ∧ ∀ k < N, wire.orderId ≠ first + UInt64.ofNat k
  | .cancel wire => ∀ k < N, wire.orderId ≠ first + UInt64.ofNat k
  | .replace wire _ => ∀ k < N, wire.orderId ≠ first + UInt64.ofNat k
  | .engageKillSwitch => True
  | .disengageKillSwitch => True

def MarketEvent.KeepsOff (config : MarketMakerConfig) (first : UInt64) (N : Nat) : MarketEvent → Prop
  | .other ev => ev.KeepsOff config first N
  | _ => True

instance (config : MarketMakerConfig) (first : UInt64) (N : Nat) :
    (ev : Event) → Decidable (ev.KeepsOff config first N)
  | .newOrder wire _ =>
    inferInstanceAs (Decidable (wire.clientId ≠ config.client ∧ ∀ k < N, wire.orderId ≠ first + UInt64.ofNat k))
  | .cancel wire => inferInstanceAs (Decidable (∀ k < N, wire.orderId ≠ first + UInt64.ofNat k))
  | .replace wire _ => inferInstanceAs (Decidable (∀ k < N, wire.orderId ≠ first + UInt64.ofNat k))
  | .engageKillSwitch => isTrue trivial
  | .disengageKillSwitch => isTrue trivial

instance (config : MarketMakerConfig) (first : UInt64) (N : Nat) :
    (e : MarketEvent) → Decidable (e.KeepsOff config first N)
  | .tick _ _ => isTrue trivial
  | .poll _ => isTrue trivial
  | .other ev => inferInstanceAs (Decidable (ev.KeepsOff config first N))

/-! ### The orders of the market maker in the book -/

/-- The market maker has issued `n` ids.  Its orders in the book are the ones it tracks, and the orders of others have
none of its first `N` ids. -/
structure QuotesIn (config : MarketMakerConfig) (first : UInt64) (N n : Nat) (m : MarketMaker) (L : List Order) :
    Prop where
  config_eq : m.config = config
  next : m.nextOrderId = first + UInt64.ofNat n
  issued : ∀ side id, (m.quote side).restingId = some id → ∃ k < n, id = first + UInt64.ofNat k
  apart : ∀ id, (m.quote .buy).restingId = some id → (m.quote .sell).restingId ≠ some id
  own : ∀ o ∈ L, o.client = config.client → (m.quote o.side).restingId = some o.id
  foreign : ∀ o ∈ L, o.client ≠ config.client → ∀ k < N, o.id ≠ first + UInt64.ofNat k

namespace QuotesIn

variable {config : MarketMakerConfig} {first : UInt64} {N n n' : Nat} {m m' : MarketMaker} {L L' : List Order}
  {o : Order} {side : Side} {id : OrderId}

theorem apart' (h : QuotesIn config first N n m L) {s s' : Side} (hs : s ≠ s') (hid : (m.quote s).restingId = some id) :
    (m.quote s').restingId ≠ some id := by
  cases s <;> cases s'
  · exact absurd rfl hs
  · exact h.apart id hid
  · exact fun hbid => h.apart id hbid hid
  · exact absurd rfl hs

/-- A resting order with a tracked id is the market maker's, on the side on which it is tracked. -/
theorem ours (h : QuotesIn config first N n m L) (hn : n ≤ N) (ho : o ∈ L)
    (hid : (m.quote side).restingId = some o.id) : o.client = config.client ∧ o.side = side := by
  have hclient : o.client = config.client := by
    by_contra hforeign
    obtain ⟨k, hk, hok⟩ := h.issued side o.id hid
    exact h.foreign o ho hforeign k (by omega) hok
  refine ⟨hclient, ?_⟩
  by_contra hside
  exact h.apart' hside (h.own o ho hclient) hid

/-- Nothing changes but what is tracked on one side, and the orders the market maker has there. -/
theorem change (side : Side) (h : QuotesIn config first N n m L) (hconfig : m'.config = m.config)
    (hnext : m'.nextOrderId = first + UInt64.ofNat n') (hn : n ≤ n')
    (hother : ∀ s, s ≠ side → m'.quote s = m.quote s)
    (hid : ∀ id, (m'.quote side).restingId = some id →
      (∃ k < n', id = first + UInt64.ofNat k) ∧ ∀ s, s ≠ side → (m.quote s).restingId ≠ some id)
    (hL : ∀ x ∈ L', x.client = config.client ∧ x.side = side ∧ (m'.quote side).restingId = some x.id ∨
      x ∈ L ∧ (x.client = config.client → x.side = side → (m'.quote side).restingId = some x.id)) :
    QuotesIn config first N n' m' L' where
  config_eq := hconfig.trans h.config_eq
  next := hnext
  issued s id hs := by
    by_cases hside : s = side
    · subst hside
      exact (hid id hs).1
    · rw [hother s hside] at hs
      obtain ⟨k, hk, rfl⟩ := h.issued s id hs
      exact ⟨k, by omega, rfl⟩
  apart id hbuy hsell := by
    cases side with
    | buy =>
      rw [hother .sell (by decide)] at hsell
      exact (hid id hbuy).2 .sell (by decide) hsell
    | sell =>
      rw [hother .buy (by decide)] at hbuy
      exact (hid id hsell).2 .buy (by decide) hbuy
  own x hx hclient := by
    rcases hL x hx with ⟨-, rfl, hquote⟩ | ⟨hxL, hquote⟩
    · exact hquote
    · by_cases hside : x.side = side
      · rw [hside]
        exact hquote hclient hside
      · rw [hother x.side hside]
        exact h.own x hxL hclient
  foreign x hx hclient := by
    rcases hL x hx with ⟨hown, -, -⟩ | ⟨hxL, -⟩
    · exact absurd hown hclient
    · exact h.foreign x hxL hclient

/-- The quantity of the market maker on a side is that of the tracked order. -/
theorem openQuantity_eq_zero (hnone : ∀ x ∈ L, x.client = config.client → x.side ≠ side) :
    openQuantity config.client side L = 0 := by
  unfold openQuantity
  refine List.sum_eq_zero fun q hq => ?_
  obtain ⟨x, hx, rfl⟩ := List.mem_map.1 hq
  exact if_neg fun hmine => hnone x hx hmine.1 hmine.2

end QuotesIn

/-! ### One message -/

section

variable {P : Params} {M X : Type} [DenseMap M OrderId Nat] [DenseMap X UInt64 ClientExposure]
  {s s' : ReplayEngine P M X} {r r' : RefEngine P} {config : MarketMakerConfig} {first : UInt64} {N n : Nat}
  {m m' : MarketMaker} {side : Side} {target : Int} {allowed : Bool} {action : SideAction} {out : Option Submission}

/-- Nobody in the book accepts a quote of `side` at `price`. -/
def Passive (side : Side) (price : Int) (L : List Order) : Prop :=
  ∀ x ∈ L, x.side = opposite side → crosses side price x.price = false

theorem Passive.acceptable {L : List Order} {o : Order} (h : Passive side target L) (hside : o.side = side)
    (htype : o.type = .limit) (hprice : o.price = target) : ∀ x ∈ L, acceptable o x = false := by
  intro x hx
  rw [Exchange.acceptable, accepts_eq]
  by_cases hopp : x.side = opposite side
  · simp [hside, htype, hprice, h x hx hopp]
  · simp [hside, hopp]

/-- An event without fills, in a book that is not crossed. -/
structure QuietStep (s s' : ReplayEngine P M X) (r r' : RefEngine P) : Prop where
  refines : Refines s'.matching r'
  uncrossed : Uncrossed r'.resting
  symbol : r'.symbol = r.symbol
  position : ∀ c sym, s'.risk.position c sym = s.risk.position c sym

theorem Outcome.quiet {ev : Event} (h : Outcome s r ev out s' r') (hR : Refines s.matching r)
    (hu : Uncrossed r.resting) (hfills : submissionFills out = []) : QuietStep s s' r r' where
  refines := (h.handled hR).refines hR
  uncrossed := h.uncrossed hR.valid hu
  symbol := ((h.handled hR).records hR.valid).symbol
  position c sym := by
    have haccount := ((h.handled hR).records hR.valid).account c sym
    rw [hfills] at haccount
    rw [position_eq, haccount, position_eq]
    rfl

/-- What sending the message for one side does: the order it places or moves does not trade, and the quantity open on
that side is that of the tracked order. -/
structure Sent (config : MarketMakerConfig) (first : UInt64) (N n n' : Nat) (side : Side) (target : Int)
    (allowed : Bool) (s s' : ReplayEngine P M X) (r r' : RefEngine P) (m' : MarketMaker) : Prop
    extends QuietStep s s' r r' where
  quotes : QuotesIn config first N n' m' r'.resting
  count : n ≤ n' ∧ n' ≤ n + 1
  placed : ∀ x ∈ r'.resting, x ∈ r.resting ∨ x.side = side ∧ x.price = target
  opened : ∀ sd, openQuantity config.client sd r'.resting ≤ openQuantity config.client sd r.resting ∨
    sd = side ∧ allowed = true ∧ openQuantity config.client sd r'.resting ≤ config.quoteSize

/-- An order of the market maker has come to rest at the end of `base`, or not at all. -/
structure Placed (config : MarketMakerConfig) (side : Side) (target : Int) (base L' : List Order) (o : Order) :
    Prop where
  client : o.client = config.client
  side_eq : o.side = side
  price : o.price = target
  remaining : o.remaining = config.quoteSize
  others : ∀ x ∈ base, x.client = config.client → x.side ≠ side
  resting : L' = base ∨ L' = base ++ [o]

section

variable {base L L' : List Order} {o : Order} {n' : Nat}

theorem Placed.mem (h : Placed config side target base L' o) {x : Order} (hx : x ∈ L') : x ∈ base ∨ x = o := by
  rcases h.resting with rfl | rfl
  · exact Or.inl hx
  · simpa using hx

theorem Placed.quotes (h : Placed config side target base L' o) (hL : QuotesIn config first N n m L)
    (hbase : ∀ x ∈ base, x ∈ L) (hconfig : m'.config = m.config)
    (hnext : m'.nextOrderId = first + UInt64.ofNat n') (hn : n ≤ n') (hother : ∀ s, s ≠ side → m'.quote s = m.quote s)
    (hquote : (m'.quote side).restingId = some o.id) (hissued : ∃ k < n', o.id = first + UInt64.ofNat k)
    (hapart : ∀ s, s ≠ side → (m.quote s).restingId ≠ some o.id) : QuotesIn config first N n' m' L' := by
  refine hL.change _ hconfig hnext hn hother ?_ ?_
  · intro id hid
    rw [hquote] at hid
    obtain rfl := Option.some.inj hid
    exact ⟨hissued, hapart⟩
  · intro x hx
    rcases h.mem hx with hx | rfl
    · exact Or.inr ⟨hbase x hx, fun hclient hside => absurd hside (h.others x hx hclient)⟩
    · exact Or.inl ⟨h.client, h.side_eq, hquote⟩

theorem Placed.placed (h : Placed config side target base L' o) (hbase : ∀ x ∈ base, x ∈ L) :
    ∀ x ∈ L', x ∈ L ∨ x.side = side ∧ x.price = target := by
  intro x hx
  rcases h.mem hx with hx | rfl
  · exact Or.inl (hbase x hx)
  · exact Or.inr ⟨h.side_eq, h.price⟩

/-- The quantity open on the side is that of the order, if it rests. -/
theorem Placed.opened (h : Placed config side target base L' o)
    (hbase : ∀ sd, openQuantity config.client sd base ≤ openQuantity config.client sd L) (sd : Side) :
    openQuantity config.client sd L' ≤ openQuantity config.client sd L ∨
      sd = side ∧ true = true ∧ openQuantity config.client sd L' ≤ config.quoteSize := by
  rcases h.resting with rfl | rfl
  · exact Or.inl (hbase sd)
  · have hlast : openQuantity config.client sd [o] = if side = sd then config.quoteSize else 0 := by
      simp [openQuantity, openOf, h.client, h.side_eq, h.remaining]
    rw [openQuantity_append, hlast]
    by_cases hsd : side = sd
    · subst hsd
      rw [if_pos rfl, QuotesIn.openQuantity_eq_zero h.others, zero_add]
      exact Or.inr ⟨rfl, rfl, le_rfl⟩
    · rw [if_neg hsd, add_zero]
      exact Or.inl (hbase sd)

end

/-- A fresh quote. -/
theorem QuotesIn.fresh (h : QuotesIn config first N n m r.resting) (hn : n < N) (hN : N ≤ 2 ^ 64)
    (hnone : (m.quote side).restingId = none) (hR : Refines s.matching r) (hu : Uncrossed r.resting)
    (hpassive : Passive side target r.resting) (ts : Int) :
    ∃ out s' r', s.process (.newOrder (m.makeNewOrder side target) ts) = some (out, s') ∧ submissionFills out = [] ∧
      Sent config first N n (n + 1) side target true s s' r r'
        ({ m with nextOrderId := m.nextOrderId + 1 }.setQuote side ⟨some m.nextOrderId, target⟩) := by
  obtain ⟨out, s', r', hprocess, houtcome⟩ := process_outcome hR (.newOrder (m.makeNewOrder side target) ts)
  have hresting : submissionFills out = [] ∧ (r'.resting = r.resting ∨
      r'.resting = r.resting ++ [(s.orderOf (m.makeNewOrder side target) ts).fresh]) := by
    cases houtcome with
    | refusedByRisk _ => exact ⟨rfl, Or.inl rfl⟩
    | submitted _ hsub _ =>
      have hfills := hsub.fills_eq_nil hR.valid (hpassive.acceptable rfl rfl rfl)
      subst hfills
      exact ⟨rfl, hsub.of_fills_nil⟩
  obtain ⟨hfills, hresting⟩ := hresting
  have hplaced : Placed config side target r.resting r'.resting
      (s.orderOf (m.makeNewOrder side target) ts).fresh := by
    refine ⟨congrArg MarketMakerConfig.client h.config_eq, rfl, rfl,
      congrArg MarketMakerConfig.quoteSize h.config_eq, ?_, hresting⟩
    intro x hx hclient hside
    have hquote := h.own x hx hclient
    rw [hside, hnone] at hquote
    cases hquote
  refine ⟨out, s', r', hprocess, hfills, ⟨houtcome.quiet hR hu hfills, ?_, by omega,
    hplaced.placed fun _ => id, hplaced.opened fun _ => le_rfl⟩⟩
  have hnext : m.nextOrderId + 1 = first + UInt64.ofNat (n + 1) := by
    rw [h.next, UInt64.ofNat_add, UInt64.add_assoc]
    rfl
  refine hplaced.quotes h (fun _ => id) (by simp) (by simpa using hnext) (by omega) ?_ (by simp; rfl)
    ⟨n, by omega, h.next⟩ ?_
  · intro sd hsd
    rw [MarketMaker.quote_setQuote_of_ne _ _ hsd, MarketMaker.quote_nextOrderId]
  · -- the id has not been issued before
    intro sd _ htracked
    obtain ⟨k, hk, hid⟩ := h.issued sd _ htracked
    have hsame : first + UInt64.ofNat n = first + UInt64.ofNat k := h.next.symm.trans hid
    have := ofNat_inj_of_lt (by omega) (by omega) ((UInt64.add_right_inj first).1 hsame)
    omega

/-- A quote that is moved, or stays where it is because it is not in the book or the price is off the ladder. -/
theorem QuotesIn.moved (h : QuotesIn config first N n m r.resting) (hn : n ≤ N) {id : OrderId}
    (hid : (m.quote side).restingId = some id) (hR : Refines s.matching r) (hu : Uncrossed r.resting)
    (hpassive : Passive side target r.resting) (ts : Int) :
    ∃ out s' r', s.process (.replace (m.makeReplace id target) ts) = some (out, s') ∧ submissionFills out = [] ∧
      Sent config first N n n side target true s s' r r' (m.setQuote side ⟨some id, target⟩) := by
  obtain ⟨out, s', r', hprocess, houtcome⟩ := process_outcome hR (.replace (m.makeReplace id target) ts)
  have hquiet := houtcome.quiet hR hu
  have hother : ∀ sd, sd ≠ side → (m.setQuote side ⟨some id, target⟩).quote sd = m.quote sd :=
    fun sd hsd => MarketMaker.quote_setQuote_of_ne _ _ hsd
  have hissued := h.issued side id hid
  have hapart : ∀ sd, sd ≠ side → (m.quote sd).restingId ≠ some id := fun sd hsd => h.apart' hsd.symm hid
  have hsame : ∀ x ∈ r.resting, x.client = config.client → x.side = side → x.id = id := by
    intro x hx hclient hside
    have hquote := h.own x hx hclient
    rw [hside, hid] at hquote
    exact (Option.some.inj hquote).symm
  have hunchanged : QuotesIn config first N n (m.setQuote side ⟨some id, target⟩) r.resting := by
    refine h.change side (by simp) (by simpa using h.next) le_rfl hother ?_ ?_
    · intro id' hid'
      rw [MarketMaker.quote_setQuote] at hid'
      obtain rfl := Option.some.inj hid'
      exact ⟨hissued, hapart⟩
    · intro x hx
      refine Or.inr ⟨hx, fun hclient hside => ?_⟩
      rw [MarketMaker.quote_setQuote, hsame x hx hclient hside]
  cases houtcome with
  | replaceUnknown _ =>
    exact ⟨_, _, _, hprocess, rfl, ⟨hquiet rfl, hunchanged, by omega, fun _ hx => Or.inl hx, fun _ => Or.inl le_rfl⟩⟩
  | replaceRefused _ _ _ _ _ =>
    exact ⟨_, _, _, hprocess, rfl, ⟨hquiet rfl, hunchanged, by omega, fun _ hx => Or.inl hx, fun _ => Or.inl le_rfl⟩⟩
  | @replaced _ _ node o _ _ _ fills _ horder hmem hid' hsub _ _ =>
    have hoid : o.id = id := hid'
    obtain ⟨hclient, hside⟩ := h.ours hn hmem (by rw [hoid]; exact hid)
    have hbase : ∀ x ∈ removeOrder o.id r.resting, x ∈ r.resting := fun x hx => (mem_removeOrder.1 hx).1
    have hreplacement : s.replacement (m.makeReplace id target) ts node =
        o.replaced target m.config.quoteSize s.nextSequence ts := by
      rw [ReplayEngine.replacement, horder]
      rfl
    rw [hreplacement] at hsub
    have hfills := hsub.fills_eq_nil (hR.valid.removeOrder o.id)
      (Passive.acceptable (fun x hx => hpassive x (hbase x hx)) hside (hR.valid.order o hmem).type rfl)
    subst hfills
    have hplaced : Placed config side target (removeOrder o.id r.resting) r'.resting
        (o.replaced target m.config.quoteSize s.nextSequence ts).fresh := by
      refine ⟨hclient, hside, rfl, congrArg MarketMakerConfig.quoteSize h.config_eq, ?_, hsub.of_fills_nil⟩
      intro x hx hxc hxs
      exact (mem_removeOrder.1 hx).2 ((hsame x (hbase x hx) hxc hxs).trans hoid.symm)
    refine ⟨_, _, _, hprocess, rfl, ⟨hquiet rfl, ?_, by omega, hplaced.placed hbase, hplaced.opened fun sd => ?_⟩⟩
    · refine hplaced.quotes h hbase (by simp) (by simpa using h.next) le_rfl hother ?_ ?_ ?_
      · rw [MarketMaker.quote_setQuote]
        exact congrArg some hoid.symm
      · exact hoid ▸ hissued
      · exact hoid ▸ hapart
    · rw [openQuantity_removeOrder hR.valid.ids hmem]
      have := openOf_nonneg (c := config.client) (s := sd) (hR.valid.remaining_pos o hmem).le
      omega

/-- A quote that is pulled. -/
theorem QuotesIn.pulled (h : QuotesIn config first N n m r.resting) {id : OrderId}
    (hid : (m.quote side).restingId = some id) (hR : Refines s.matching r) (hu : Uncrossed r.resting) (last : Int) :
    ∃ out s' r', s.process (.cancel (m.makeCancel id)) = some (out, s') ∧ submissionFills out = [] ∧
      Sent config first N n n side target false s s' r r' (m.setQuote side ⟨none, last⟩) := by
  obtain ⟨out, s', r', hprocess, houtcome⟩ := process_outcome hR (.cancel (m.makeCancel id))
  have hfills : submissionFills out = [] := by cases houtcome <;> rfl
  have hgone : (∀ x ∈ r'.resting, x ∈ r.resting ∧ x.id ≠ id) ∧
      ∀ sd, openQuantity config.client sd r'.resting ≤ openQuantity config.client sd r.resting := by
    cases houtcome with
    | cancelRefused hfree => exact ⟨fun x hx => ⟨hx, hfree x hx⟩, fun _ => le_rfl⟩
    | @cancelled _ o _ hmem hid' _ =>
      have hoid : o.id = id := hid'
      refine ⟨fun x hx => hoid ▸ mem_removeOrder.1 hx, fun sd => ?_⟩
      have hopen := openQuantity_removeOrder hR.valid.ids hmem config.client sd
      have := openOf_nonneg (c := config.client) (s := sd) (hR.valid.remaining_pos o hmem).le
      show openQuantity config.client sd (removeOrder o.id r.resting) ≤ _
      omega
  refine ⟨out, s', r', hprocess, hfills, ⟨houtcome.quiet hR hu hfills, ?_, by omega,
    fun x hx => Or.inl (hgone.1 x hx).1, fun sd => Or.inl (hgone.2 sd)⟩⟩
  refine h.change side (by simp) (by simpa using h.next) le_rfl
    (fun sd hsd => MarketMaker.quote_setQuote_of_ne _ _ hsd) ?_ ?_
  · intro id' hid'
    rw [MarketMaker.quote_setQuote] at hid'
    cases hid'
  · intro x hx
    obtain ⟨hxr, hne⟩ := hgone.1 x hx
    refine Or.inr ⟨hxr, fun hclient hside => ?_⟩
    have hquote := h.own x hxr hclient
    rw [hside, hid] at hquote
    exact absurd (Option.some.inj hquote).symm hne

/-- Whatever a tick decides for one side, sending it trades nothing and leaves every order of the market maker
tracked. -/
theorem QuotesIn.send (h : QuotesIn config first N n m r.resting) (hn : n < N) (hN : N ≤ 2 ^ 64)
    (hr : m.Requoted side target allowed action m') (hR : Refines s.matching r) (hu : Uncrossed r.resting)
    (hpassive : Passive side target r.resting) (ts : Int) :
    ∃ out s' r' n', MarketMaking.send s action ts = some (out, s') ∧ submissionFills out = [] ∧
      Sent config first N n n' side target allowed s s' r r' m' := by
  have hstay : Sent config first N n n side target allowed s s r r m :=
    ⟨⟨hR, hu, rfl, fun _ _ => rfl⟩, h, by omega, fun _ hx => Or.inl hx, fun _ => Or.inl le_rfl⟩
  cases hr with
  | fresh hnone =>
    obtain ⟨out, s', r', hprocess, hfills, hsent⟩ := h.fresh hn hN hnone hR hu hpassive ts
    exact ⟨out, s', r', n + 1, hprocess, hfills, hsent⟩
  | moved hid =>
    obtain ⟨out, s', r', hprocess, hfills, hsent⟩ := h.moved hn.le hid hR hu hpassive ts
    exact ⟨out, s', r', n, hprocess, hfills, hsent⟩
  | kept _ _ => exact ⟨none, s, r, n, rfl, rfl, hstay⟩
  | pulled hid =>
    obtain ⟨out, s', r', hprocess, hfills, hsent⟩ := h.pulled hid hR hu (m.quote side).lastQuoted
    exact ⟨out, s', r', n, hprocess, hfills, hsent⟩
  | out _ => exact ⟨none, s, r, n, rfl, rfl, hstay⟩

/-! ### A tick -/

/-- The targets of a tick are passive in the book whose best prices it was given. -/
theorem Refines.passive {e : MatchingEngine P M} (hR : Refines e r) (hu : Uncrossed r.resting)
    (hspread : 1 ≤ config.halfSpreadTicks) :
    Passive .buy (MarketMaker.computeMid config e.book.bestBid e.book.bestAsk - config.halfSpreadTicks) r.resting ∧
      Passive .sell (MarketMaker.computeMid config e.book.bestBid e.book.bestAsk + config.halfSpreadTicks)
        r.resting := by
  have huncrossed : ∀ bid ask, e.book.bestBid = some bid → e.book.bestAsk = some ask → bid < ask :=
    fun bid ask => hR.best_lt hu
  obtain ⟨hbelow, habove⟩ := computeMid_passive hspread huncrossed
  have hprice : ∀ x ∈ r.resting, x.price ∈ e.book.prices x.side :=
    fun x hx => ⟨x, hR.holds.resting_iff.2 hx, rfl, rfl⟩
  constructor
  · intro x hx hside
    have hmem := hprice x hx
    rw [hside] at hmem
    cases hask : e.book.bestAsk with
    | none =>
      rw [opposite_buy, hR.holds.bestAsk_eq_none.1 hask] at hmem
      exact hmem.elim
    | some ask =>
      have hle : ask ≤ x.price := (hR.holds.isLeast_of_bestAsk hask).2 hmem
      have hlt := hbelow ask hask
      rw [hask] at hlt
      simp only [crosses, if_true, decide_eq_false_iff_not]
      omega
  · intro x hx hside
    have hmem := hprice x hx
    rw [hside] at hmem
    cases hbid : e.book.bestBid with
    | none =>
      rw [opposite_sell, hR.holds.bestBid_eq_none.1 hbid] at hmem
      exact hmem.elim
    | some bid =>
      have hle : x.price ≤ bid := (hR.holds.isGreatest_of_bestBid hbid).2 hmem
      have hlt := habove bid hbid
      rw [hbid] at hlt
      simp only [crosses, reduceCtorEq, if_false, decide_eq_false_iff_not]
      omega

/-- The market maker and the exchange after any number of events: `n` ids have been issued. -/
structure MarketMaking.Safe (config : MarketMakerConfig) (first : UInt64) (N n : Nat) (t : MarketMaking P M X)
    (r : RefEngine P) : Prop where
  refines : Refines t.engine.matching r
  uncrossed : Uncrossed r.resting
  symbol : r.symbol = config.symbol
  quotes : QuotesIn config first N n t.maker r.resting
  capped : ∀ sd, exposure t.engine.risk config.symbol config.client sd r.resting ≤
    config.maxInventory + (config.quoteSize - 1)

namespace MarketMaking.Safe

variable {t : MarketMaking P M X}

theorem new (config : MarketMakerConfig) (hsize : 1 ≤ config.quoteSize) (first : UInt64) (N : Nat) (basePrice : Int)
    {risk : RiskEngine X} (hlow : -config.maxInventory ≤ risk.position config.client config.symbol)
    (hhigh : risk.position config.client config.symbol ≤ config.maxInventory) :
    (MarketMaking.new config first basePrice risk : MarketMaking P M X).Safe config first N 0
      (RefEngine.new P config.symbol basePrice) where
  refines := refines_new config.symbol basePrice
  uncrossed x hx := by cases hx
  symbol := rfl
  quotes :=
    { config_eq := rfl
      next := (UInt64.add_zero first).symm
      issued := fun side id hid => by cases side <;> cases hid
      apart := fun id hid => by cases hid
      own := fun x hx => by cases hx
      foreign := fun x hx => by cases hx }
  capped sd := by
    have hzero : openQuantity config.client sd [] = 0 := rfl
    show signed sd (risk.position config.client config.symbol) + openQuantity config.client sd [] ≤ _
    rw [hzero]
    cases sd
    · rw [signed_buy]
      omega
    · rw [signed_sell]
      omega

theorem tick (h : t.Safe config first N n r) (hspread : 1 ≤ config.halfSpreadTicks) (hn : n + 2 ≤ N)
    (hN : N ≤ 2 ^ 64) (bidTimestamp askTimestamp : Int) :
    ∃ outs t' r' n', t.tick bidTimestamp askTimestamp = some (outs, t') ∧ runFills outs = [] ∧ n' ≤ n + 2 ∧
      t'.Safe config first N n' r' := by
  obtain ⟨hR, hu, hsymbol, hquotes, hcapped⟩ := h
  have hconfig := hquotes.config_eq
  obtain ⟨hbidPassive, haskPassive⟩ := hR.passive hu hspread
  obtain ⟨m₁, hbid, hask⟩ := t.maker.requoted_onTick t.engine.matching.book.bestBid t.engine.matching.book.bestAsk
    (t.engine.risk.position t.maker.config.client t.maker.config.symbol)
  rw [hconfig] at hbid hask
  obtain ⟨bid, s₁, r₁, n₁, hsendBid, hbidFills, hbidSent⟩ :=
    hquotes.send (by omega) hN hbid hR hu hbidPassive bidTimestamp
  -- the bid is below the ask, so it does not make the ask aggressive
  have haskPassive₁ : Passive .sell
      (MarketMaker.computeMid config t.engine.matching.book.bestBid t.engine.matching.book.bestAsk +
        config.halfSpreadTicks) r₁.resting := by
    intro x hx hside
    rcases hbidSent.placed x hx with hx | ⟨-, hprice⟩
    · exact haskPassive x hx hside
    · rw [hprice]
      simp only [crosses, reduceCtorEq, if_false, decide_eq_false_iff_not]
      omega
  obtain ⟨hlow₁, hhigh₁⟩ := hbidSent.count
  obtain ⟨ask, s₂, r₂, n₂, hsendAsk, haskFills, haskSent⟩ :=
    hbidSent.quotes.send (by omega) hN hask hbidSent.refines hbidSent.uncrossed haskPassive₁ askTimestamp
  obtain ⟨hlow₂, hhigh₂⟩ := haskSent.count
  refine ⟨[bid, ask], ⟨s₂, _⟩, r₂, n₂, ?_, ?_, by omega, ⟨haskSent.refines, haskSent.uncrossed, ?_, haskSent.quotes,
    ?_⟩⟩
  · unfold MarketMaking.tick
    dsimp only
    rw [hconfig, hsendBid]
    dsimp only
    rw [hsendAsk]
  · simp [runFills, hbidFills, haskFills]
  · rw [haskSent.symbol, hbidSent.symbol, hsymbol]
  · intro sd
    have hposition : s₂.risk.position config.client config.symbol =
        t.engine.risk.position config.client config.symbol :=
      (haskSent.position _ _).trans (hbidSent.position _ _)
    have hold := hcapped sd
    have hbidOpen := hbidSent.opened sd
    have haskOpen := haskSent.opened sd
    unfold exposure at hold ⊢
    rw [hposition]
    cases sd with
    | buy =>
      simp only [signed_buy, reduceCtorEq, false_and, or_false, true_and, decide_eq_true_eq] at *
      omega
    | sell =>
      simp only [signed_sell, reduceCtorEq, false_and, or_false, true_and, decide_eq_true_eq] at *
      omega

theorem poll (h : t.Safe config first N n r) (side : Side) :
    ({ t with maker := t.poll side } : MarketMaking P M X).Safe config first N n r := by
  refine ⟨h.refines, h.uncrossed, h.symbol, ?_, h.capped⟩
  show QuotesIn config first N n (t.poll side) r.resting
  unfold MarketMaking.poll
  cases hid : (t.maker.quote side).restingId with
  | none => exact h.quotes
  | some id =>
    dsimp only
    by_cases hgone : t.engine.matching.book.findNode id = none
    · rw [if_pos hgone]
      have hfree := (h.refines.holds.findNode_eq_none id).1 hgone
      have hquote : ∀ {sd : Side} {id' : OrderId}, ((t.maker.notifyOrderGone id).quote sd).restingId = some id' →
          (t.maker.quote sd).restingId = some id' := by
        intro sd id' hid'
        rwa [MarketMaker.quote_notifyOrderGone_of_quoted (by rw [hid']; exact nofun)] at hid'
      exact
        { config_eq := (t.maker.config_notifyOrderGone id).trans h.quotes.config_eq
          next := (t.maker.nextOrderId_notifyOrderGone id).trans h.quotes.next
          issued := fun sd id' hid' => h.quotes.issued sd id' (hquote hid')
          apart := fun id' hbuy hsell => h.quotes.apart id' (hquote hbuy) (hquote hsell)
          own := fun x hx hclient => by
            have hown := h.quotes.own x hx hclient
            rw [MarketMaker.quote_notifyOrderGone, hown, if_neg fun hsame => hfree x hx (Option.some.inj hsame), hown]
          foreign := h.quotes.foreign }
    · rw [if_neg hgone]
      exact h.quotes

end MarketMaking.Safe

/-! ### The others -/

/-- What an event of the others can do: they are the aggressors of its fills, the orders it leaves in the book are
those of before or theirs, and it does not raise the exposure of the market maker. -/
structure Aloof (config : MarketMakerConfig) (first : UInt64) (N : Nat) (s s' : ReplayEngine P M X)
    (r r' : RefEngine P) (fills : List Fill) : Prop where
  aggressor : ∀ f ∈ fills, f.aggressorClientId ≠ config.client
  resting : ∀ x ∈ r'.resting, (∃ y ∈ r.resting, x = { y with remaining := x.remaining }) ∨
    x.client ≠ config.client ∧ ∀ k < N, x.id ≠ first + UInt64.ofNat k
  exposure : ∀ sd, exposure s'.risk r.symbol config.client sd r'.resting ≤
    Exchange.exposure s.risk r.symbol config.client sd r.resting

omit [DenseMap M OrderId Nat] in
/-- An order of somebody else, submitted to a part `base` of the book. -/
theorem aloof_of_submitted {base : RefEngine P} {o : Order} {res : NewOrderResult} {fills : List Fill}
    (hsub : base.Submitted o res r' fills) (hbase : base.Valid) (hclient : o.client ≠ config.client)
    (hid : ∀ k < N, o.id ≠ first + UInt64.ofNat k) (hmem : ∀ x ∈ base.resting, x ∈ r.resting)
    (hopen : ∀ sd, openQuantity config.client sd base.resting ≤ openQuantity config.client sd r.resting)
    (hposition : s'.risk.position config.client r.symbol =
      (s.risk.recordFills r.symbol fills).position config.client r.symbol) :
    Aloof config first N s s' r r' fills where
  aggressor f hf := by
    obtain ⟨x, -, -, hfill⟩ := hsub.counterparty hbase hf
    rw [hfill.aggressorClientId]
    exact hclient
  resting x hx := by
    rcases hsub.mem hbase hx with ⟨y, hy, hxy⟩ | ⟨hxo, -⟩
    · exact Or.inl ⟨y, hmem y hy, hxy⟩
    · rw [hxo]
      exact Or.inr ⟨hclient, hid⟩
  exposure sd := by
    have hle := hsub.exposure_le hbase s.risk r.symbol config.client sd
    rw [if_neg fun hmine => hclient hmine.1.1, add_zero] at hle
    have hbaseOpen := hopen sd
    unfold Exchange.exposure at hle ⊢
    rw [hposition]
    omega

theorem Outcome.aloof {ev : Event} (h : Outcome s r ev out s' r') (hR : Refines s.matching r)
    (hquotes : QuotesIn config first N n m r.resting) (hn : n ≤ N) (hev : ev.KeepsOff config first N) :
    Aloof config first N s s' r r' (submissionFills out) := by
  have hposition : s'.risk.position config.client r.symbol =
      (s.risk.recordFills r.symbol (submissionFills out)).position config.client r.symbol := by
    rw [position_eq, ((h.handled hR).records hR.valid).account, position_eq]
  -- an order the others may name is not one of the market maker's
  have hforeign : ∀ o ∈ r.resting, (∀ k < N, o.id ≠ first + UInt64.ofNat k) → o.client ≠ config.client := by
    intro o ho hid hclient
    obtain ⟨k, hk, hok⟩ := hquotes.issued o.side o.id (hquotes.own o ho hclient)
    exact hid k (by omega) hok
  have hremove : ∀ o ∈ r.resting, ∀ sd,
      openQuantity config.client sd (removeOrder o.id r.resting) ≤ openQuantity config.client sd r.resting := by
    intro o ho sd
    rw [openQuantity_removeOrder hR.valid.ids ho]
    have := openOf_nonneg (c := config.client) (s := sd) (hR.valid.remaining_pos o ho).le
    omega
  have hidle : ∀ {t : ReplayEngine P M X}, t.risk.position config.client r.symbol =
      (s.risk.recordFills r.symbol []).position config.client r.symbol → Aloof config first N s t r r [] := by
    intro t ht
    refine ⟨fun f hf => (List.not_mem_nil hf).elim, fun x hx => Or.inl ⟨x, hx, rfl⟩, fun sd => ?_⟩
    unfold exposure
    rw [ht]
    exact le_rfl
  cases h with
  | submitted _ hsub _ => exact aloof_of_submitted hsub hR.valid hev.1 hev.2 (fun _ => id) (fun _ => le_rfl) hposition
  | @cancelled wire o _ hmem _ _ =>
    refine ⟨fun f hf => (List.not_mem_nil hf).elim, fun x hx => Or.inl ⟨x, (mem_removeOrder.1 hx).1, rfl⟩,
      fun sd => ?_⟩
    have hopen := hremove o hmem sd
    unfold exposure
    rw [hposition]
    exact Int.add_le_add_left hopen _
  | @replaced wire ts node o _ _ _ fills _ horder hmem hid hsub _ _ =>
    have hoid : ∀ k < N, o.id ≠ first + UInt64.ofNat k := hid ▸ hev
    have hclient : (s.replacement wire ts node).client ≠ config.client := by
      rw [ReplayEngine.replacement, horder]
      exact hforeign o hmem hoid
    have hid' : ∀ k < N, (s.replacement wire ts node).id ≠ first + UInt64.ofNat k := by
      rw [ReplayEngine.replacement, horder]
      exact hoid
    exact aloof_of_submitted hsub (hR.valid.removeOrder o.id) hclient hid' (fun x hx => (mem_removeOrder.1 hx).1)
      (hremove o hmem) hposition
  | replaceRefused _ _ _ _ _ => exact hidle hposition
  | refusedByRisk _ => exact hidle hposition
  | cancelRefused _ => exact hidle hposition
  | replaceUnknown _ => exact hidle hposition
  | engageKillSwitch => exact hidle hposition
  | disengageKillSwitch => exact hidle hposition

theorem MarketMaking.Safe.other {t : MarketMaking P M X} (h : t.Safe config first N n r) (hn : n ≤ N) {ev : Event}
    (hev : ev.KeepsOff config first N) :
    ∃ out s' r', t.engine.process ev = some (out, s') ∧
      (∀ f ∈ submissionFills out, f.aggressorClientId ≠ config.client) ∧
      ({ t with engine := s' } : MarketMaking P M X).Safe config first N n r' := by
  obtain ⟨hR, hu, hsymbol, hquotes, hcapped⟩ := h
  obtain ⟨out, s', r', hprocess, houtcome⟩ := process_outcome hR ev
  have haloof := houtcome.aloof hR hquotes hn hev
  have hhandled := houtcome.handled hR
  refine ⟨out, s', r', hprocess, haloof.aggressor, ⟨hhandled.refines hR, houtcome.uncrossed hR.valid hu,
    (hhandled.records hR.valid).symbol.trans hsymbol, ?_, fun sd => ?_⟩⟩
  · refine ⟨hquotes.config_eq, hquotes.next, hquotes.issued, hquotes.apart, ?_, ?_⟩
    · intro x hx hclient
      rcases haloof.resting x hx with ⟨y, hy, hxy⟩ | ⟨hforeign, -⟩
      · rw [hxy] at hclient ⊢
        exact hquotes.own y hy hclient
      · exact absurd hclient hforeign
    · intro x hx hclient
      rcases haloof.resting x hx with ⟨y, hy, hxy⟩ | ⟨-, hid⟩
      · rw [hxy] at hclient ⊢
        exact hquotes.foreign y hy hclient
      · exact hid
  · have hle := haloof.exposure sd
    rw [hsymbol] at hle
    exact hle.trans (hcapped sd)

/-! ### Whole runs -/

/-- The number of ticks. -/
def tickCount (events : List MarketEvent) : Nat :=
  (events.filter fun e => match e with | .tick _ _ => true | _ => false).length

theorem MarketMaking.Safe.run {t : MarketMaking P M X} (h : t.Safe config first N n r)
    (hspread : 1 ≤ config.halfSpreadTicks) (hN : N ≤ 2 ^ 64) {events : List MarketEvent}
    (hcount : n + 2 * tickCount events ≤ N) (hevents : ∀ e ∈ events, e.KeepsOff config first N) :
    ∃ outs t' r' n', runAll MarketMaking.step t events = some (outs, t') ∧
      (∀ f ∈ runFills outs.flatten, f.aggressorClientId ≠ config.client) ∧ t'.Safe config first N n' r' := by
  induction events generalizing t r n with
  | nil => exact ⟨[], t, r, n, rfl, fun f hf => (List.not_mem_nil hf).elim, h⟩
  | cons e events ih =>
    -- one event, with the ids it issues
    have hstep : ∃ outs t' r' n', t.step e = some (outs, t') ∧
        (∀ f ∈ runFills outs, f.aggressorClientId ≠ config.client) ∧ n' + 2 * tickCount events ≤ N ∧
        t'.Safe config first N n' r' := by
      cases e with
      | tick bidTimestamp askTimestamp =>
        have hticks : tickCount (.tick bidTimestamp askTimestamp :: events) = tickCount events + 1 := rfl
        obtain ⟨outs, t', r', n', htick, hfills, hn', hsafe⟩ :=
          h.tick hspread (by omega) hN bidTimestamp askTimestamp
        refine ⟨outs, t', r', n', htick, ?_, by omega, hsafe⟩
        rw [hfills]
        exact fun f hf => (List.not_mem_nil hf).elim
      | poll side =>
        exact ⟨[], _, r, n, rfl, fun f hf => (List.not_mem_nil hf).elim, hcount, h.poll side⟩
      | other ev =>
        have hticks : tickCount (.other ev :: events) = tickCount events := rfl
        obtain ⟨out, s', r', hprocess, hfills, hsafe⟩ := h.other (by omega) (hevents _ List.mem_cons_self)
        refine ⟨[out], _, r', n, ?_, ?_, by omega, hsafe⟩
        · rw [MarketMaking.step, hprocess, Option.map_some]
        · simpa [runFills] using hfills
    obtain ⟨outs, t₁, r₁, n₁, hfirst, hfills, hcount₁, hsafe⟩ := hstep
    obtain ⟨rest, t', r', n', hrun, hrest, hsafe'⟩ :=
      ih hsafe hcount₁ fun e he => hevents e (List.mem_cons_of_mem _ he)
    refine ⟨outs :: rest, t', r', n', by rw [runAll_cons hfirst, hrun]; rfl, ?_, hsafe'⟩
    intro f hf
    have hsplit : runFills (outs :: rest).flatten = runFills outs ++ runFills rest.flatten := by
      simp [runFills]
    rw [hsplit] at hf
    rcases List.mem_append.1 hf with hf | hf
    · exact hfills f hf
    · exact hrest f hf

/-- A market maker with a positive spread and size, which starts within its cap and does not run out of order ids.
Whatever the others do and whenever it is ticked or told of orders that are gone: it is never the aggressor of a fill,
so it never trades with itself either; its orders in the book are those it tracks, one on each side at most; and its
position passes the cap by a quote less one at most. -/
theorem market_making_safe (config : MarketMakerConfig) (hspread : 1 ≤ config.halfSpreadTicks)
    (hsize : 1 ≤ config.quoteSize) (first : UInt64) (basePrice : Int) (risk : RiskEngine X)
    (hlow : -config.maxInventory ≤ risk.position config.client config.symbol)
    (hhigh : risk.position config.client config.symbol ≤ config.maxInventory) (events : List MarketEvent)
    (hcount : 2 * tickCount events ≤ 2 ^ 64)
    (hevents : ∀ e ∈ events, e.KeepsOff config first (2 * tickCount events)) :
    ∃ outs t, runAll MarketMaking.step (MarketMaking.new (P := P) (M := M) config first basePrice risk) events =
        some (outs, t) ∧
      (∀ f ∈ runFills outs.flatten, f.aggressorClientId ≠ config.client) ∧
      (∀ o, t.engine.matching.book.Resting o → o.client = config.client →
        (t.maker.quote o.side).restingId = some o.id) ∧
      -(config.maxInventory + (config.quoteSize - 1)) ≤ t.engine.risk.position config.client config.symbol ∧
      t.engine.risk.position config.client config.symbol ≤ config.maxInventory + (config.quoteSize - 1) := by
  have hnew : (MarketMaking.new (P := P) (M := M) config first basePrice risk).Safe config first
      (2 * tickCount events) 0 (RefEngine.new P config.symbol basePrice) :=
    .new config hsize first _ basePrice hlow hhigh
  obtain ⟨outs, t, r, n, hrun, hfills, hsafe⟩ := hnew.run hspread hcount (by omega) hevents
  have hopen : ∀ sd, 0 ≤ openQuantity config.client sd r.resting :=
    fun sd => openQuantity_nonneg hsafe.refines.valid.remaining_pos
  have hbuy := hsafe.capped .buy
  have hsell := hsafe.capped .sell
  have hopenBuy := hopen .buy
  have hopenSell := hopen .sell
  unfold exposure at hbuy hsell
  rw [signed_buy] at hbuy
  rw [signed_sell] at hsell
  refine ⟨outs, t, hrun, hfills, ?_, by omega, by omega⟩
  intro o ho hclient
  exact hsafe.quotes.own o (hsafe.refines.holds.resting_iff.1 ho) hclient

end

/-- A small quote, for concrete runs. -/
def smallQuotes : MarketMakerConfig where
  symbol := 7
  client := 9
  halfSpreadTicks := 1
  quoteSize := 2
  maxInventory := 3
  initialReferencePrice := 101

/-- The ask is lifted, and the next tick quotes anew. -/
theorem market_making_safe_lifted :
    let events : List MarketEvent :=
      [.tick 1 2, .other (.newOrder (limitDay 50 1 .buy 102 2) 3), .poll .sell, .tick 4 5]
    (∀ e ∈ events, e.KeepsOff smallQuotes 10 (2 * tickCount events)) ∧
      ∃ outs t, runAll MarketMaking.step (MarketMaking.new (P := tinyParams) (M := IdMap) smallQuotes 10 100
          (RiskEngine.new (X := ExposureMap) looseLimits)) events = some (outs, t) ∧
        (∀ f ∈ runFills outs.flatten, f.aggressorClientId ≠ 9) ∧
        (∀ o, t.engine.matching.book.Resting o → o.client = 9 → (t.maker.quote o.side).restingId = some o.id) ∧
        -4 ≤ t.engine.risk.position 9 7 ∧ t.engine.risk.position 9 7 ≤ 4 :=
  ⟨by decide, market_making_safe smallQuotes (by decide) (by decide) 10 100 _ (by decide) (by decide) _ (by decide)
    (by decide)⟩

end Exchange
