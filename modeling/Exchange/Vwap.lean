import Exchange.BestPrices
import Exchange.VolumeCurve
import Exchange.Volume

/-!
# Sliced execution

`VwapExecutor` of `jane/strategy/vwap.hpp`: cuts a parent order into slices along a volume curve and sends them one
after the other, each immediate-or-cancel at the limit of the parent.

The slices go to a replay engine in which others trade too.  Whatever they do, the client trades at its limit or
better and on its side only, nothing of its orders is left in the book, and it never trades more than the slices come
to.  If there are many slices for the quantity, this can be more than the parent.
-/

namespace Exchange

open DenseMap OrderBook RiskEngine

structure VwapExecutor where
  config : VwapConfig
  nextOrderId : UInt64
  sliceSizes : List Int
  slicesSent : Nat := 0

namespace VwapExecutor

def new (libm : Libm) (config : VwapConfig) (firstOrderId : UInt64) : VwapExecutor where
  config := config
  nextOrderId := firstOrderId
  sliceSizes := buildSliceSizes libm config

def done (v : VwapExecutor) : Bool := decide (v.sliceSizes.length ≤ v.slicesSent)

/-- The next slice has been taken. -/
def advance (v : VwapExecutor) : VwapExecutor :=
  { v with nextOrderId := v.nextOrderId + 1, slicesSent := v.slicesSent + 1 }

def nextSlice (v : VwapExecutor) : Option NewOrderMessage × VwapExecutor :=
  if v.done then (none, v)
  else
    (some
      { orderId := v.nextOrderId
        price := v.config.limitPrice
        quantity := v.sliceSizes.getD v.slicesSent 0
        clientId := v.config.client
        symbolId := v.config.symbol
        side := v.config.side
        orderType := .limit
        timeInForce := .ioc },
      v.advance)

/-- The quantities sent so far; a slice that is not positive is refused. -/
def sent (v : VwapExecutor) : Int := ((v.sliceSizes.take v.slicesSent).map (max 0)).sum

theorem sent_advance {v : VwapExecutor} (h : v.done = false) :
    v.advance.sent = v.sent + max 0 (v.sliceSizes.getD v.slicesSent 0) := by
  have hlt : v.slicesSent < v.sliceSizes.length := by simpa [done] using h
  simp only [sent, advance]
  rw [List.take_add_one, List.map_append, List.sum_append]
  simp [hlt, List.getD_eq_getElem?_getD]

theorem sent_le (v : VwapExecutor) : v.sent ≤ (v.sliceSizes.map (max 0)).sum := by
  have hsplit := List.sum_take_add_sum_drop (v.sliceSizes.map (max 0)) v.slicesSent
  have hrest : 0 ≤ ((v.sliceSizes.map (max 0)).drop v.slicesSent).sum := by
    refine List.sum_nonneg fun q hq => ?_
    obtain ⟨x, -, rfl⟩ := List.mem_map.1 (List.mem_of_mem_drop hq)
    exact le_max_left 0 x
  rw [sent, List.map_take]
  omega

end VwapExecutor

/-! ### The loop -/

/-- The next slice is sent, or somebody else makes a request. -/
inductive VwapEvent where
  | slice (timestamp : Int)
  | other (ev : Event)

structure SlicedExecution (P : Params) (M X : Type) where
  engine : ReplayEngine P M X
  executor : VwapExecutor

/-- Nobody else submits orders for the client. -/
def VwapEvent.NotBy (client : ClientId) : VwapEvent → Prop
  | .other (.newOrder wire _) => wire.clientId ≠ client
  | _ => True

namespace SlicedExecution

variable {P : Params} {M X : Type} [DenseMap M OrderId Nat] [DenseMap X UInt64 ClientExposure]

def new (libm : Libm) (config : VwapConfig) (firstOrderId : UInt64) (basePrice : Int) (risk : RiskEngine X) :
    SlicedExecution P M X where
  engine := ReplayEngine.new config.symbol basePrice risk
  executor := VwapExecutor.new libm config firstOrderId

def step (t : SlicedExecution P M X) : VwapEvent → Option (Option Submission × SlicedExecution P M X)
  | .slice timestamp =>
    match t.executor.nextSlice with
    | (none, executor) => some (none, { t with executor := executor })
    | (some wire, executor) =>
      (t.engine.process (.newOrder wire timestamp)).map fun p => (p.1, { engine := p.2, executor := executor })
  | .other ev => (t.engine.process ev).map fun p => (p.1, { t with engine := p.2 })

end SlicedExecution

/-! ### One event -/

theorem RefEngine.Submitted.filled_le {P : Params} {r r' : RefEngine P} {o : Order} {res : NewOrderResult}
    {fs : List Fill} (h : r.Submitted o res r' fs) : (fs.map Fill.quantity).sum ≤ max 0 o.quantity := by
  have hexecuted : ∀ {a : Order} {r₁ : RefEngine P}, r.Executed o fs a r₁ →
      (fs.map Fill.quantity).sum ≤ max 0 o.quantity := by
    intro a r₁ hx
    have hsum : (fs.map Fill.quantity).sum + a.remaining = o.quantity := hx.sweep.quantity
    have hleft := hx.remaining_nonneg
    omega
  cases h with
  | refused _ _ => exact le_max_left 0 _
  | rested hx _ _ _ _ => exact hexecuted hx
  | full hx _ _ _ _ => exact hexecuted hx
  | ended hx _ => exact hexecuted hx

/-- The client is not the resting party of the fill, and if it is the aggressor, then on its side and at its limit or
better. -/
def Fill.Protected (config : VwapConfig) (f : Fill) : Prop :=
  f.restingClientId ≠ config.client ∧ (f.aggressorClientId = config.client →
    f.aggressorSide = config.side ∧
      if config.side = .buy then f.price ≤ config.limitPrice else config.limitPrice ≤ f.price)

section

variable {P : Params} {M X : Type} [DenseMap M OrderId Nat] [DenseMap X UInt64 ClientExposure]
  {s s' : ReplayEngine P M X} {r r' : RefEngine P} {ev : Event} {out : Option Submission} {c : ClientId}

theorem Outcome.position (h : Outcome s r ev out s' r') (hR : Refines s.matching r) (c : ClientId) :
    s'.risk.position c r.symbol = s.risk.position c r.symbol + bought c (submissionFills out) := by
  rw [position_eq, ((h.handled hR).records hR.valid).account, ← position_eq, position_recordFills]

/-- An order of another client meets only other clients, if the client has no orders in the book. -/
theorem RefEngine.Submitted.absent {o : Order} {res : NewOrderResult} {fs : List Fill} (h : r.Submitted o res r' fs)
    (hr : r.Valid) (habsent : ∀ x ∈ r.resting, x.client ≠ c) (ho : o.client ≠ c) :
    (∀ f ∈ fs, f.aggressorClientId ≠ c ∧ f.restingClientId ≠ c) ∧ ∀ x ∈ r'.resting, x.client ≠ c := by
  constructor
  · intro f hf
    obtain ⟨x, hx, -, hfill⟩ := h.counterparty hr hf
    rw [hfill.aggressorClientId, hfill.restingClientId]
    exact ⟨ho, habsent x hx⟩
  · intro x hx
    rcases h.mem hr hx with ⟨y, hy, hxy⟩ | ⟨hxo, -⟩
    · rw [hxy]
      exact habsent y hy
    · rw [hxo]
      exact ho

theorem Outcome.absent (h : Outcome s r ev out s' r') (hr : r.Valid) (habsent : ∀ x ∈ r.resting, x.client ≠ c)
    (hev : VwapEvent.NotBy c (.other ev)) :
    (∀ f ∈ submissionFills out, f.aggressorClientId ≠ c ∧ f.restingClientId ≠ c) ∧
      ∀ x ∈ r'.resting, x.client ≠ c := by
  have hidle : (∀ f ∈ ([] : List Fill), f.aggressorClientId ≠ c ∧ f.restingClientId ≠ c) ∧
      ∀ x ∈ r.resting, x.client ≠ c := ⟨fun f hf => (List.not_mem_nil hf).elim, habsent⟩
  have hremoved : ∀ id, ∀ x ∈ removeOrder id r.resting, x.client ≠ c :=
    fun id x hx => habsent x (mem_removeOrder.1 hx).1
  cases h with
  | submitted _ hsub _ => exact hsub.absent hr habsent hev
  | cancelled _ _ _ => exact ⟨hidle.1, hremoved _⟩
  | @replaced wire ts n o _ _ _ _ _ horder hmem _ hsub _ _ =>
    refine hsub.absent (hr.removeOrder o.id) (hremoved o.id) ?_
    rw [ReplayEngine.replacement, horder]
    exact habsent o hmem
  | refusedByRisk _ => exact hidle
  | cancelRefused _ => exact hidle
  | replaceUnknown _ => exact hidle
  | replaceRefused _ _ _ _ _ => exact hidle
  | engageKillSwitch => exact hidle
  | disengageKillSwitch => exact hidle

omit [DenseMap M OrderId Nat] [DenseMap X UInt64 ClientExposure] in
theorem bought_eq_zero {fs : List Fill} (h : ∀ f ∈ fs, f.aggressorClientId ≠ c ∧ f.restingClientId ≠ c) :
    bought c fs = 0 := by
  refine List.sum_eq_zero fun q hq => ?_
  obtain ⟨f, hf, rfl⟩ := List.mem_map.1 hq
  rw [Fill.signedFor, if_neg (h f hf).1, if_neg (h f hf).2, add_zero]

variable {config : VwapConfig} {libm : Libm} {start : Int} {t : SlicedExecution P M X}

namespace SlicedExecution

/-- The client has nothing in the book, and has traded no more than the slices that were sent. -/
structure Sound (libm : Libm) (config : VwapConfig) (start : Int) (t : SlicedExecution P M X)
    (r : RefEngine P) : Prop where
  refines : Refines t.engine.matching r
  symbol : r.symbol = config.symbol
  config_eq : t.executor.config = config
  sizes : t.executor.sliceSizes = VwapExecutor.buildSliceSizes libm config
  absent : ∀ o ∈ r.resting, o.client ≠ config.client
  traded : 0 ≤ signed config.side (t.engine.risk.position config.client config.symbol - start) ∧
    signed config.side (t.engine.risk.position config.client config.symbol - start) ≤ t.executor.sent

theorem sound_new (libm : Libm) (config : VwapConfig) (first : UInt64) (basePrice : Int) (risk : RiskEngine X) :
    (SlicedExecution.new libm config first basePrice risk : SlicedExecution P M X).Sound libm config
      (risk.position config.client config.symbol) (RefEngine.new P config.symbol basePrice) where
  refines := refines_new config.symbol basePrice
  symbol := rfl
  config_eq := rfl
  sizes := rfl
  absent o ho := by cases ho
  traded := by
    have hzero : signed config.side 0 = 0 := by cases config.side <;> rfl
    show 0 ≤ signed config.side (risk.position config.client config.symbol -
        risk.position config.client config.symbol) ∧
      signed config.side (risk.position config.client config.symbol -
        risk.position config.client config.symbol) ≤ 0
    rw [Int.sub_self, hzero]
    exact ⟨le_rfl, le_rfl⟩

/-- What a slice does: it trades on the side of the parent, at its limit or better, for no more than its size, and
leaves nothing in the book. -/
theorem slice_fills {wire : NewOrderMessage} {timestamp : Int} (hR : Refines s.matching r)
    (houtcome : Outcome s r (.newOrder wire timestamp) out s' r') (hclient : wire.clientId = config.client)
    (hside : wire.side = config.side) (hprice : wire.price = config.limitPrice) (htype : wire.orderType = .limit)
    (htif : wire.timeInForce = .ioc) (habsent : ∀ o ∈ r.resting, o.client ≠ config.client) :
    OneSided config.client config.side (submissionFills out) ∧
      (∀ f ∈ submissionFills out, f.Protected config) ∧
      0 ≤ ((submissionFills out).map Fill.quantity).sum ∧
      ((submissionFills out).map Fill.quantity).sum ≤ max 0 wire.quantity ∧
      ∀ o ∈ r'.resting, o.client ≠ config.client := by
  cases houtcome with
  | refusedByRisk _ =>
    exact ⟨⟨fun f hf => (List.not_mem_nil hf).elim, fun f hf => (List.not_mem_nil hf).elim⟩,
      fun f hf => (List.not_mem_nil hf).elim, le_rfl, le_max_left 0 _, habsent⟩
  | @submitted _ _ _ _ _ fills _ hsub _ =>
    have hfill : ∀ f ∈ fills, (f.aggressorClientId = config.client ∧ f.aggressorSide = config.side) ∧
        f.restingClientId ≠ config.client ∧
        (if config.side = .buy then f.price ≤ config.limitPrice else config.limitPrice ≤ f.price) ∧
        0 < f.quantity := by
      intro f hf
      obtain ⟨x, hx, hacc, hof⟩ := hsub.counterparty hR.valid hf
      have haccepts : accepts (s.orderOf wire timestamp) x.price = true := (Bool.and_eq_true_iff.1 hacc).2
      refine ⟨⟨hof.aggressorClientId.trans hclient, hof.aggressorSide.trans hside⟩, ?_, ?_, hof.quantity_pos⟩
      · rw [hof.restingClientId]
        exact habsent x hx
      · rw [hof.price]
        simpa [accepts, ReplayEngine.orderOf, htype, hside, hprice] using haccepts
    refine ⟨⟨fun f hf => (hfill f hf).1, fun f hf => (hfill f hf).2.1⟩,
      fun f hf => ⟨(hfill f hf).2.1, fun _ => ⟨(hfill f hf).1.2, (hfill f hf).2.2.1⟩⟩, ?_, hsub.filled_le, ?_⟩
    · refine List.sum_nonneg fun q hq => ?_
      obtain ⟨f, hf, rfl⟩ := List.mem_map.1 hq
      exact (hfill f hf).2.2.2.le
    · intro o ho
      rcases hsub.mem hR.valid ho with ⟨y, hy, hoy⟩ | ⟨-, hday⟩
      · rw [hoy]
        exact habsent y hy
      · rw [show (s.orderOf wire timestamp).tif = .ioc from htif] at hday
        cases hday

theorem Sound.slice (h : t.Sound libm config start r) (timestamp : Int) :
    ∃ out t' r', t.step (.slice timestamp) = some (out, t') ∧ t'.Sound libm config start r' ∧
      ∀ f ∈ submissionFills out, f.Protected config := by
  obtain ⟨hR, hsymbol, hconfig, hsizes, habsent, hlow, hhigh⟩ := h
  cases hdone : t.executor.done with
  | true =>
    have hnext : t.executor.nextSlice = (none, t.executor) := if_pos hdone
    refine ⟨none, t, r, ?_, ⟨hR, hsymbol, hconfig, hsizes, habsent, hlow, hhigh⟩,
      fun f hf => (List.not_mem_nil hf).elim⟩
    rw [SlicedExecution.step, hnext]
  | false =>
    obtain ⟨wire, hnext, hwire, hclient, hside, hprice, htype, htif⟩ : ∃ wire,
        t.executor.nextSlice = (some wire, t.executor.advance) ∧
        wire.quantity = t.executor.sliceSizes.getD t.executor.slicesSent 0 ∧ wire.clientId = config.client ∧
        wire.side = config.side ∧ wire.price = config.limitPrice ∧ wire.orderType = .limit ∧
        wire.timeInForce = .ioc := by
      rw [← hconfig]
      exact ⟨_, if_neg (by simp [hdone]), rfl, rfl, rfl, rfl, rfl, rfl⟩
    obtain ⟨out, s', r', hprocess, houtcome⟩ := process_outcome hR (.newOrder wire timestamp)
    obtain ⟨hsided, hprotected, hnonneg, hle, habsent'⟩ :=
      slice_fills hR houtcome hclient hside hprice htype htif habsent
    have hhandled := houtcome.handled hR
    have hposition := houtcome.position hR config.client
    rw [hsided.bought_eq, hsymbol] at hposition
    have hsent := VwapExecutor.sent_advance hdone
    refine ⟨out, ⟨s', t.executor.advance⟩, r', ?_, ⟨hhandled.refines hR, ?_, hconfig, hsizes, habsent', ?_⟩,
      hprotected⟩
    · rw [SlicedExecution.step, hnext]
      dsimp only
      rw [hprocess, Option.map_some]
    · exact (hhandled.records hR.valid).symbol.trans hsymbol
    · have hmoved : ∀ p q : Int, signed config.side (p + signed config.side q - start) =
          signed config.side (p - start) + q := by
        intro p q
        cases config.side
        · simp only [signed_buy]
          omega
        · simp only [signed_sell]
          omega
      dsimp only
      rw [hposition, hmoved, hsent, ← hwire]
      omega

/-- Nothing the others do moves the position of a client with no orders in the book. -/
theorem Sound.other (h : t.Sound libm config start r) {ev : Event}
    (hev : VwapEvent.NotBy config.client (.other ev)) :
    ∃ out t' r', t.step (.other ev) = some (out, t') ∧ t'.Sound libm config start r' ∧
      ∀ f ∈ submissionFills out, f.Protected config := by
  obtain ⟨hR, hsymbol, hconfig, hsizes, habsent, htraded⟩ := h
  obtain ⟨out, s', r', hprocess, houtcome⟩ := process_outcome hR ev
  obtain ⟨hfills, habsent'⟩ := houtcome.absent hR.valid habsent hev
  have hhandled := houtcome.handled hR
  have hposition := houtcome.position hR config.client
  rw [bought_eq_zero hfills, add_zero, hsymbol] at hposition
  refine ⟨out, { t with engine := s' }, r', ?_, ⟨hhandled.refines hR, ?_, hconfig, hsizes, habsent', ?_⟩,
    fun f hf => ⟨(hfills f hf).2, fun hc => absurd hc (hfills f hf).1⟩⟩
  · rw [SlicedExecution.step, hprocess, Option.map_some]
  · exact (hhandled.records hR.valid).symbol.trans hsymbol
  · dsimp only
    rw [hposition]
    exact htraded

end SlicedExecution

/-! ### Whole runs -/

/-- A parent order sent in slices, whatever the others do in between, as long as nobody else submits orders for its
client: the client is never the resting party of a fill, and trades on its side, at its limit or better; nothing of it
is left in the book; and it has traded no more than the slices sent so far.  The slices sum to the parent, but one that
is negative is refused: what is sent can pass the parent, by at most half a lot per slice, and not at all if half the
square of the number of slices is at most the parent quantity. -/
theorem parent_order_respected (libm : Libm) (config : VwapConfig) (first : UInt64) (basePrice : Int)
    (risk : RiskEngine X) (events : List VwapEvent) (hevents : ∀ e ∈ events, e.NotBy config.client) :
    ∃ outs t, runAll SlicedExecution.step
        (SlicedExecution.new (P := P) (M := M) libm config first basePrice risk) events = some (outs, t) ∧
      (∀ f ∈ runFills outs, f.Protected config) ∧
      (∀ o, t.engine.matching.book.Resting o → o.client ≠ config.client) ∧
      0 ≤ signed config.side (t.engine.risk.position config.client config.symbol -
        risk.position config.client config.symbol) ∧
      signed config.side (t.engine.risk.position config.client config.symbol -
        risk.position config.client config.symbol) ≤ t.executor.sent ∧
      t.executor.sliceSizes.sum = config.totalQuantity ∧
      (0 ≤ config.totalQuantity → config.totalQuantity * (config.numSlices + 4) ≤ 2 ^ 51 →
        2 * t.executor.sent ≤ 2 * config.totalQuantity + config.numSlices ∧
        ((config.numSlices : Int) ^ 2 ≤ 2 * config.totalQuantity → t.executor.sent ≤ config.totalQuantity)) := by
  have hstep : ∀ (t : SlicedExecution P M X) (e : VwapEvent),
      (∃ r, t.Sound libm config (risk.position config.client config.symbol) r) → e.NotBy config.client →
      ∃ out t', t.step e = some (out, t') ∧
        (∃ r, t'.Sound libm config (risk.position config.client config.symbol) r) ∧
        ∀ f ∈ submissionFills out, f.Protected config := by
    rintro t e ⟨r, h⟩ he
    cases e with
    | slice timestamp =>
      obtain ⟨out, t', r', hs, hsound, hfills⟩ := h.slice timestamp
      exact ⟨out, t', hs, ⟨r', hsound⟩, hfills⟩
    | other ev =>
      obtain ⟨out, t', r', hs, hsound, hfills⟩ := h.other he
      exact ⟨out, t', hs, ⟨r', hsound⟩, hfills⟩
  have hnew := SlicedExecution.sound_new (P := P) (M := M) libm config first basePrice risk
  obtain ⟨outs, t, hrun, ⟨r, hsound⟩, houts⟩ := runAll_rule_of_mem _ _ hstep hevents ⟨_, hnew⟩
  refine ⟨outs, t, hrun, ?_, ?_, hsound.traded.1, hsound.traded.2, ?_, ?_⟩
  · intro f hf
    obtain ⟨out, hout, hf⟩ := List.mem_flatMap.1 hf
    exact houts out hout f hf
  · intro o ho
    exact hsound.absent o (hsound.refines.holds.resting_iff.1 ho)
  · rw [hsound.sizes, VwapExecutor.sum_buildSliceSizes]
  · intro hT hfits
    have hsent := t.executor.sent_le
    rw [hsound.sizes, VwapExecutor.sum_positive_slices libm hT] at hsent
    have hallocated := VwapConfig.two_mul_allocated_le libm config hT hfits
    refine ⟨by omega, fun hfew => ?_⟩
    have := VwapConfig.allocated_le_total libm config hT hfits hfew
    omega

end

/-- Six lots in three slices of three, none and three lots, against four that rest at the limit. -/
theorem parent_order_respected_part :
    let events : List VwapEvent :=
      [.other (.newOrder (limitDay 1 1 .sell 101 4) 1), .slice 2, .slice 3, .slice 4]
    VwapExecutor.buildSliceSizes Libm.nearest sixLots = [3, 0, 3] ∧
      (∀ e ∈ events, e.NotBy sixLots.client) ∧
      ∃ outs t, runAll SlicedExecution.step (SlicedExecution.new (P := tinyParams) (M := IdMap) Libm.nearest sixLots
          10 100 (RiskEngine.new (X := ExposureMap) looseLimits)) events = some (outs, t) ∧
        (∀ f ∈ runFills outs, f.Protected sixLots) ∧
        (∀ o, t.engine.matching.book.Resting o → o.client ≠ 9) ∧
        0 ≤ signed .buy (t.engine.risk.position 9 7 - 0) ∧
        signed .buy (t.engine.risk.position 9 7 - 0) ≤ t.executor.sent ∧ t.executor.sent ≤ 6 := by
  have hevents : ∀ e ∈ [VwapEvent.other (.newOrder (limitDay 1 1 .sell 101 4) 1), .slice 2, .slice 3, .slice 4],
      e.NotBy 9 := by
    simp [VwapEvent.NotBy, limitDay]
  obtain ⟨outs, t, hrun, hfills, hbook, hlow, hhigh, -, hparent⟩ :=
    parent_order_respected (P := tinyParams) (M := IdMap) Libm.nearest sixLots 10 100
      (RiskEngine.new (X := ExposureMap) looseLimits) _ hevents
  -- Nine is at most twelve, so that the three slices do not pass the parent.
  exact ⟨VwapExecutor.buildSliceSizes_sixLots, hevents, outs, t, hrun, hfills, hbook, hlow, hhigh,
    (hparent (by decide) (by decide)).2 (by decide)⟩

end Exchange
