import Exchange.Requests

/-!
# What a request publishes

Every request appends to the sink trades and book deltas, numbered on from the next feed sequence, and then one
execution report, which has no number.
-/

namespace Exchange

open OrderBook DenseMap

/-! ### Messages -/

namespace Message

/-- The feed sequence of a message of the public feed. -/
def sequence? : Message → Option UInt64
  | executionReport _ => none
  | trade msg => some msg.sequence
  | bookDelta msg => some msg.sequence
  | bookSnapshot msg => some msg.sequence

def trade? : Message → Option TradeMessage
  | trade msg => some msg
  | _ => none

def report? : Message → Option ExecutionReportMessage
  | executionReport msg => some msg
  | _ => none

end Message

/-- The number after those of the messages, if the numbers run on from `n` without a gap. -/
def numberedFrom : UInt64 → List Message → Option UInt64
  | n, [] => some n
  | n, m :: ms =>
    match m.sequence? with
    | none => numberedFrom n ms
    | some k => if k = n then numberedFrom (n + 1) ms else none

theorem numberedFrom_append (n : UInt64) (ms ms' : List Message) :
    numberedFrom n (ms ++ ms') = (numberedFrom n ms).bind fun k => numberedFrom k ms' := by
  induction ms generalizing n with
  | nil => rfl
  | cons m ms ih =>
    rw [List.cons_append, numberedFrom, numberedFrom]
    cases m.sequence? with
    | none => exact ih n
    | some k =>
      dsimp only
      by_cases hk : k = n
      · rw [if_pos hk, if_pos hk, ih]
      · rw [if_neg hk, if_neg hk]
        rfl

/-- What a fill and its trade message have in common. -/
structure Print where
  matchId : UInt64
  price : Int
  quantity : Int
  aggressorSide : Side
  deriving DecidableEq

def Fill.print (f : Fill) : Print := ⟨f.matchId, f.price, f.quantity, f.aggressorSide⟩

def TradeMessage.print (t : TradeMessage) : Print := ⟨t.matchId, t.price, t.quantity, t.aggressorSide⟩

/-- The trades among the messages. -/
def prints (ms : List Message) : List Print := (ms.filterMap Message.trade?).map TradeMessage.print

theorem prints_append (ms ms' : List Message) : prints (ms ++ ms') = prints ms ++ prints ms' := by
  simp [prints]

/-- The bytes of the messages. -/
def wireBytes (ms : List Message) : List UInt8 := Wire.stream 65539 (ms.map Message.toWire)

theorem wireBytes_append (ms ms' : List Message) : wireBytes (ms ++ ms') = wireBytes ms ++ wireBytes ms' := by
  simp [wireBytes, Wire.stream]

theorem wireBytes_singleton (m : Message) : wireBytes [m] = m.toWire.encoded 65539 := by
  simp [wireBytes, Wire.stream]

/-- The size of the publisher's buffers does not matter. -/
theorem encode_eq_wide {α : Type} [Wire.MessageTraits α] (payload : α) {outSize : Nat} (hwide : outSize ≤ 65539)
    (h : 4 + (Wire.MessageTraits.layout (α := α)).size ≤ outSize) :
    Wire.encode outSize payload = Wire.encode 65539 payload := by
  rw [Wire.encode_eq payload h, Wire.encode_eq payload (h.trans hwide)]

theorem encode_report (m : ExecutionReportMessage) : Wire.encode 128 m.toWire = wireBytes [.executionReport m] := by
  rw [encode_eq_wide _ (by decide) (by decide), wireBytes_singleton]
  rfl

theorem encode_trade (m : TradeMessage) : Wire.encode 64 m.toWire = wireBytes [.trade m] := by
  rw [encode_eq_wide _ (by decide) (by decide), wireBytes_singleton]
  rfl

theorem encode_delta (m : BookDeltaMessage) : Wire.encode 64 m.toWire = wireBytes [.bookDelta m] := by
  rw [encode_eq_wide _ (by decide) (by decide), wireBytes_singleton]
  rfl

/-! ### Appending to the sink -/

section

variable {P : Params} {M X : Type}

/-- On the way from `s` to `s'` the messages `ms` have been published; their trades are those of the fills. -/
structure Appends (s s' : ReplayEngine P M X) (fills : List Fill) (ms : List Message) : Prop where
  sink : s'.feed.sink = s.feed.sink ++ ms
  bytes : s'.feed.bytes = s.feed.bytes ++ wireBytes ms
  fits : ∀ m ∈ ms, m.toWire.Fits
  numbered : numberedFrom s.feed.nextSequence ms = some s'.feed.nextSequence
  trades : prints ms = fills.map Fill.print
  scratch : s.feed.snapshotScratch ≤ s'.feed.snapshotScratch

variable {s s₁ s₂ : ReplayEngine P M X} {fills fills₁ fills₂ : List Fill} {ms ms₁ ms₂ : List Message}

theorem Appends.trans (h₁ : Appends s s₁ fills₁ ms₁) (h₂ : Appends s₁ s₂ fills₂ ms₂) :
    Appends s s₂ (fills₁ ++ fills₂) (ms₁ ++ ms₂) where
  sink := by rw [h₂.sink, h₁.sink, List.append_assoc]
  bytes := by rw [h₂.bytes, h₁.bytes, wireBytes_append, List.append_assoc]
  fits m hm := (List.mem_append.1 hm).elim (h₁.fits m) (h₂.fits m)
  numbered := by
    rw [numberedFrom_append, h₁.numbered]
    exact h₂.numbered
  trades := by rw [prints_append, h₁.trades, h₂.trades, List.map_append]
  scratch := h₁.scratch.trans h₂.scratch

theorem appends_refl (s : ReplayEngine P M X) : Appends s s [] [] where
  sink := (List.append_nil _).symm
  bytes := (List.append_nil _).symm
  fits := by simp
  numbered := rfl
  trades := rfl
  scratch := le_rfl

/-- The feed is all that matters. -/
theorem Appends.of_feed (h : Appends s₁ s₂ fills ms) (hfeed : s₁.feed = s.feed) : Appends s s₂ fills ms := by
  obtain ⟨h1, h2, h3, h4, h5, h6⟩ := h
  rw [hfeed] at h1 h2 h4 h6
  exact ⟨h1, h2, h3, h4, h5, h6⟩

/-- The report `publish_report` builds. -/
def reportOf (id : OrderId) (client : ClientId) (symbol : SymbolId) (fills : List Fill) (leavesQuantity : Int)
    (execType : ExecType) (rejectReason : RejectReason) : ExecutionReportMessage where
  orderId := id
  matchId := (ReplayEngine.reportFills fills).2.2
  price := (ReplayEngine.reportFills fills).2.1
  lastQuantity := (ReplayEngine.reportFills fills).1
  leavesQuantity := leavesQuantity
  clientId := client
  symbolId := symbol
  execType := execType
  rejectReason := rejectReason

theorem appends_report (s : ReplayEngine P M X) (id : OrderId) (client : ClientId) (symbol : SymbolId)
    (fills : List Fill) (leaves : Int) (execType : ExecType) (reason : RejectReason) :
    Appends s (s.publishReport id client symbol fills leaves execType reason) []
      [.executionReport (reportOf id client symbol fills leaves execType reason)] where
  sink := rfl
  bytes := by
    rw [← encode_report]
    rfl
  fits := by simp [Message.toWire, Wire.Message.Fits]
  numbered := rfl
  trades := rfl
  scratch := le_rfl

theorem appends_trade (s : ReplayEngine P M X) (symbol : SymbolId) (f : Fill) :
    ∃ t, Appends s { s with feed := s.feed.publishTrade symbol f } [f] [.trade t] := by
  refine ⟨{ sequence := s.feed.nextSequence, matchId := f.matchId, price := f.price, quantity := f.quantity,
            symbolId := symbol, aggressorSide := f.aggressorSide }, rfl, ?_, ?_, ?_, rfl, le_rfl⟩
  · rw [← encode_trade]
    rfl
  · simp [Message.toWire, Wire.Message.Fits]
  · show (if s.feed.nextSequence = s.feed.nextSequence then _ else _) = _
    rw [if_pos rfl]
    rfl

theorem appends_levelUpdate (s : ReplayEngine P M X) (symbol : SymbolId) (side : Side) (price : Int)
    (level : PriceLevel) :
    ∃ d, d.price = price ∧
      Appends s { s with feed := s.feed.publishLevelUpdate symbol side price level } [] [.bookDelta d] := by
  refine ⟨{ sequence := s.feed.nextSequence, price := price, aggregateQuantity := level.totalQuantity,
            symbolId := symbol, orderCount := level.orderCount, side := side,
            action := if level.orderCount = 0 then .delete else .update }, rfl, rfl, ?_, ?_, ?_, rfl, le_rfl⟩
  · rw [← encode_delta]
    rfl
  · simp [Message.toWire, Wire.Message.Fits]
  · show (if s.feed.nextSequence = s.feed.nextSequence then _ else _) = _
    rw [if_pos rfl]
    rfl

/-! ### Market data -/

/-- Trades, and deltas of levels whose prices meet `Q`. -/
structure MarketData (Q : Int → Prop) (ms : List Message) : Prop where
  deltas : ∀ d, Message.bookDelta d ∈ ms → Q d.price
  others : ∀ m ∈ ms, m.report? = none

variable {Q : Int → Prop}

theorem MarketData.append (h₁ : MarketData Q ms₁) (h₂ : MarketData Q ms₂) : MarketData Q (ms₁ ++ ms₂) where
  deltas d hd := (List.mem_append.1 hd).elim (h₁.deltas d) (h₂.deltas d)
  others m hm := (List.mem_append.1 hm).elim (h₁.others m) (h₂.others m)

theorem marketData_nil : MarketData Q [] := ⟨by simp, by simp⟩

/-- The market data of some fills has been published. -/
def Emits (Q : Int → Prop) (s s' : ReplayEngine P M X) (fills : List Fill) : Prop :=
  ∃ ms, Appends s s' fills ms ∧ MarketData Q ms

theorem Emits.trans (h₁ : Emits Q s s₁ fills₁) (h₂ : Emits Q s₁ s₂ fills₂) : Emits Q s s₂ (fills₁ ++ fills₂) := by
  obtain ⟨ms₁, happ₁, hdata₁⟩ := h₁
  obtain ⟨ms₂, happ₂, hdata₂⟩ := h₂
  exact ⟨ms₁ ++ ms₂, happ₁.trans happ₂, hdata₁.append hdata₂⟩

theorem emits_refl (s : ReplayEngine P M X) : Emits Q s s [] := ⟨[], appends_refl s, marketData_nil⟩

theorem emits_level (s : ReplayEngine P M X) (symbol : SymbolId) (side : Side) {price : Int} (hQ : Q price) :
    Emits Q s (s.publishLevel symbol side price) [] := by
  unfold ReplayEngine.publishLevel
  cases s.matching.book.levelAt side price with
  | none => exact emits_refl s
  | some level =>
    obtain ⟨d, hd, happ⟩ := appends_levelUpdate s symbol side price level
    refine ⟨[.bookDelta d], happ, ?_, by simp [Message.report?]⟩
    intro d' hd'
    obtain rfl : d' = d := by simpa using hd'
    rw [hd]
    exact hQ

theorem emits_rest (s : ReplayEngine P M X) (symbol : SymbolId) (side : Side) {price : Int} (rested : Bool)
    (hQ : Q price) : Emits Q s (s.publishRest rested symbol side price) [] := by
  cases rested with
  | true => exact emits_level s symbol side hQ
  | false => exact emits_refl s

variable [DenseMap X UInt64 ClientExposure]

theorem emits_fill (s : ReplayEngine P M X) (symbol : SymbolId) {f : Fill} (hQ : Q f.price) :
    Emits Q s (s.applyFill symbol f) [f] := by
  obtain ⟨t, htrade⟩ := appends_trade s symbol f
  let s₁ : ReplayEngine P M X := { s with feed := s.feed.publishTrade symbol f, risk := s.risk.recordFills symbol [f] }
  have hrecorded : Appends s s₁ [f] [.trade t] := ⟨htrade.1, htrade.2, htrade.3, htrade.4, htrade.5, htrade.6⟩
  have hfirst : Emits Q s s₁ [f] := ⟨[.trade t], hrecorded, by simp, by simp [Message.report?]⟩
  exact hfirst.trans (emits_level s₁ symbol (opposite f.aggressorSide) hQ)

theorem emits_fills (symbol : SymbolId) (fills : List Fill) (s : ReplayEngine P M X) (hQ : ∀ f ∈ fills, Q f.price) :
    Emits Q s (s.applyFills symbol fills) fills := by
  induction fills generalizing s with
  | nil => exact emits_refl s
  | cons f fills ih =>
    have hhead := emits_fill s symbol (hQ f (List.mem_cons_self ..))
    have htail := ih (s.applyFill symbol f) fun f' hf' => hQ f' (List.mem_cons_of_mem _ hf')
    exact hhead.trans htail

end

/-! ### Reports -/

theorem reportFills_eq (fills : List Fill) : ReplayEngine.reportFills fills =
    ((fills.map Fill.quantity).sum, fills.getLast?.elim 0 Fill.price, fills.getLast?.elim 0 Fill.matchId) := by
  have hfold : ∀ (fills : List Fill) (acc : Int × Int × UInt64),
      fills.foldl (fun acc f => (acc.1 + f.quantity, f.price, f.matchId)) acc =
        (acc.1 + (fills.map Fill.quantity).sum, fills.getLast?.elim acc.2.1 Fill.price,
          fills.getLast?.elim acc.2.2 Fill.matchId) := by
    intro fills
    induction fills with
    | nil => simp
    | cons f fills ih =>
      intro acc
      rw [List.foldl_cons, ih, List.map_cons, List.sum_cons, add_assoc, List.getLast?_cons]
      cases fills.getLast? <;> rfl
  rw [ReplayEngine.reportFills, hfold, zero_add]

/-- The id of the order a request is about. -/
def Event.orderId? : Event → Option OrderId
  | .newOrder wire _ => some wire.orderId
  | .cancel wire => some wire.orderId
  | .replace wire _ => some wire.orderId
  | .engageKillSwitch => none
  | .disengageKillSwitch => none

/-- The price of the event, if it has one, meets `Q`. -/
def Event.Priced (Q : Int → Prop) : Event → Prop
  | .newOrder wire _ => Q wire.price
  | .replace wire _ => Q wire.newPrice
  | _ => True

section

variable {P : Params} {M X : Type} [DenseMap M OrderId Nat]

/-- What is filled and what is left make up the quantity of the request, if it is a new order or a replace that goes
through.  Other requests leave nothing. -/
def AccountsFor (s : ReplayEngine P M X) (filled leaves : Int) : Event → Prop
  | .newOrder wire _ => filled + leaves = wire.quantity
  | .cancel _ => leaves = 0
  | .replace wire _ =>
    (∀ n, s.Replaces wire n → filled + leaves = wire.newQuantity) ∧ ((∀ n, ¬ s.Replaces wire n) → leaves = 0)
  | _ => True

/-- A request is answered: market data of its fills has been published, and then one report. -/
structure Answers (Q : Int → Prop) (s s' : ReplayEngine P M X) (ev : Event) (id : OrderId) (fills : List Fill)
    (ms : List Message) (rep : ExecutionReportMessage) : Prop where
  appends : Appends s s' fills (ms ++ [.executionReport rep])
  marketData : MarketData Q ms
  orderId : rep.orderId = id
  lastQuantity : rep.lastQuantity = (fills.map Fill.quantity).sum
  matchId : rep.matchId = fills.getLast?.elim 0 Fill.matchId
  price : rep.price = fills.getLast?.elim 0 Fill.price
  accounts : AccountsFor s rep.lastQuantity rep.leavesQuantity ev

variable {Q : Int → Prop} {s s₁ s' : ReplayEngine P M X} {r r' : RefEngine P} {fills : List Fill} {ev : Event}
  {leaves : Int}

private theorem Emits.answers (h : Emits Q s₁ s' fills) (hfeed : s₁.feed = s.feed)
    (hacc : AccountsFor s (fills.map Fill.quantity).sum leaves ev) (id : OrderId) (client : ClientId)
    (symbol : SymbolId) (execType : ExecType) (reason : RejectReason) :
    ∃ ms rep, Answers Q s (s'.publishReport id client symbol fills leaves execType reason) ev id fills ms rep := by
  obtain ⟨ms, happ, hdata⟩ := h
  have hall := (happ.of_feed hfeed).trans (appends_report s' id client symbol fills leaves execType reason)
  rw [List.append_nil] at hall
  refine ⟨ms, _, hall, hdata, rfl, ?_, ?_, ?_, ?_⟩
  · simp only [reportOf, reportFills_eq]
  · simp only [reportOf, reportFills_eq]
  · simp only [reportOf, reportFills_eq]
  · simp only [reportOf, reportFills_eq]
    exact hacc

variable [DenseMap X UInt64 ClientExposure]

theorem Outcome.answers {out : Option Submission} (h : Outcome s r ev out s' r') (hR : Refines s.matching r)
    (hQ : ∀ o ∈ r.resting, Q o.price) (hev : ev.Priced Q) {id : OrderId} (hid : ev.orderId? = some id) :
    ∃ ms rep, Answers Q s s' ev id (submissionFills out) ms rep := by
  have hquiet : Emits Q s s [] := emits_refl s
  have hprices := h.fill_prices hR.valid hQ
  cases h with
  | refusedByRisk hrisk =>
    cases hid
    refine (emits_refl (s.sequenced s.matching)).answers (s := s) rfl ?_ ..
    exact zero_add _
  | @submitted wire ts e' _ res fills hrisk hsub hR' =>
    cases hid
    have hfills := emits_fills wire.symbolId fills (s.sequenced e') hprices
    have hrest := emits_rest ((s.sequenced e').applyFills wire.symbolId fills) wire.symbolId wire.side res.rested hev
    have hall := hfills.trans hrest
    rw [List.append_nil] at hall
    refine hall.answers (s := s) rfl ?_ ..
    exact hsub.quantity
  | cancelRefused hfree =>
    cases hid
    refine hquiet.answers (s := s) rfl ?_ ..
    rfl
  | @cancelled wire o e' hmem _ hR' =>
    cases hid
    have hlevel := emits_level { s with matching := e' } o.symbol o.side (hQ o hmem)
    refine hlevel.answers (s := s) rfl ?_ ..
    rfl
  | @replaceUnknown wire ts hfree =>
    cases hid
    have hnot := not_replaces_of_free hR hfree
    refine hquiet.answers (s := s) rfl ?_ ..
    exact ⟨fun n hrep => absurd hrep (hnot n), fun _ => rfl⟩
  | @replaceRefused wire ts n o e' reason _ _ _ hbad hR' =>
    cases hid
    have hnot := not_replaces hR hbad
    refine (emits_refl (s.sequenced e')).answers (s := s) rfl ?_ ..
    exact ⟨fun n hrep => absurd hrep (hnot n), fun _ => rfl⟩
  | @replaced wire ts n o e' _ res fills hrep horder hmem _ hsub hacc hR' =>
    cases hid
    have hfills := emits_fills o.symbol fills (s.sequenced e') hprices
    have hold := emits_level ((s.sequenced e').applyFills o.symbol fills) o.symbol o.side (hQ o hmem)
    have hrest := emits_rest (((s.sequenced e').applyFills o.symbol fills).publishLevel o.symbol o.side o.price)
      o.symbol o.side res.rested hev
    have hall := (hfills.trans hold).trans hrest
    rw [List.append_nil, List.append_nil] at hall
    refine hall.answers (s := s) rfl ?_ ..
    exact ⟨fun _ _ => hsub.quantity, fun hnot => absurd hrep (hnot n)⟩
  | engageKillSwitch => cases hid
  | disengageKillSwitch => cases hid

end

end Exchange
