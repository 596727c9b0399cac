import Exchange.Publisher
import Exchange.RiskEngine

/-!
# The replay engine

`ReplayEngine` of `jane/replay/replay_engine.hpp`: sequences a request, runs the risk gate, hands the order to
matching, updates the exposures and publishes trades, book deltas and an execution report.  The fill buffer is cleared
before each use, so it is not part of the state.  Besides the new state, a request returns what it made of its order,
which the source keeps in local variables.
-/

namespace Exchange

structure ReplayEngine (P : Params) (M X : Type) where
  matching : MatchingEngine P M
  risk : RiskEngine X
  feed : MarketDataPublisher := {}
  nextSequence : Sequence := 1

/-- An order a request has passed to matching, with the fills it got as aggressor and whether it was left resting. -/
structure Submission where
  order : Order
  fills : List Fill
  rested : Bool

namespace ReplayEngine

variable {P : Params} {M X : Type}

/-- The sums and last values `publish_report` collects from the fills. -/
def reportFills (fills : List Fill) : Int × Int × UInt64 :=
  fills.foldl (fun acc f => (acc.1 + f.quantity, f.price, f.matchId)) (0, 0, 0)

def publishReport (s : ReplayEngine P M X) (id : OrderId) (client : ClientId) (symbol : SymbolId) (fills : List Fill)
    (leavesQuantity : Int) (execType : ExecType) (rejectReason : RejectReason) : ReplayEngine P M X :=
  let (totalFilled, lastPrice, lastMatchId) := reportFills fills
  let msg : ExecutionReportMessage :=
    { orderId := id
      matchId := lastMatchId
      price := lastPrice
      lastQuantity := totalFilled
      leavesQuantity := leavesQuantity
      clientId := client
      symbolId := symbol
      execType := execType
      rejectReason := rejectReason }
  { s with feed := s.feed.publishExecutionReport msg }

def publishLevel (s : ReplayEngine P M X) (symbol : SymbolId) (side : Side) (price : Int) : ReplayEngine P M X :=
  match s.matching.book.levelAt side price with
  | none => s
  | some level => { s with feed := s.feed.publishLevelUpdate symbol side price level }

section

variable [DenseMap X UInt64 ClientExposure]

/-- One iteration of `apply_fills`. -/
def applyFill (symbol : SymbolId) (s : ReplayEngine P M X) (f : Fill) : ReplayEngine P M X :=
  let s := { s with feed := s.feed.publishTrade symbol f }
  let restingSide := opposite f.aggressorSide
  let risk := s.risk.recordFill f.restingClientId symbol restingSide f.price f.quantity
  let risk := risk.recordFill f.aggressorClientId symbol f.aggressorSide f.price f.quantity
  { s with risk := risk }.publishLevel symbol restingSide f.price

def applyFills (s : ReplayEngine P M X) (symbol : SymbolId) (fills : List Fill) : ReplayEngine P M X :=
  fills.foldl (applyFill symbol) s

end

/-- The order `process_new_order` builds from the message. -/
def orderOf (s : ReplayEngine P M X) (wire : NewOrderMessage) (timestamp : Int) : Order where
  id := wire.orderId
  client := wire.clientId
  symbol := wire.symbolId
  side := wire.side
  type := wire.orderType
  tif := wire.timeInForce
  price := wire.price
  quantity := wire.quantity
  remaining := wire.quantity
  sequence := s.nextSequence
  timestamp := timestamp

def newOrderExecType (result : NewOrderResult) (fills : List Fill) : ExecType :=
  if result.rejectReason ≠ .none then .rejected
  else if result.remainingAfter = 0 then .fill
  else if fills ≠ [] then .partialFill
  else if result.rested then .new
  else .cancelled

section

variable [DenseMap M OrderId Nat] [DenseMap X UInt64 ClientExposure]

def processNewOrder (s : ReplayEngine P M X) (wire : NewOrderMessage) (timestamp : Int) :
    Option (Option Submission × ReplayEngine P M X) :=
  let order := s.orderOf wire timestamp
  let s := { s with nextSequence := s.nextSequence + 1 }
  let riskReason := s.risk.checkNewOrder order
  if riskReason ≠ .none then
    some (none, s.publishReport order.id order.client order.symbol [] order.quantity .rejected riskReason)
  else
    match s.matching.submit order [] with
    | none => none
    | some (result, matching, fills) =>
      let s := { s with matching := matching }.applyFills order.symbol fills
      let s := if result.rested then s.publishLevel order.symbol order.side order.price else s
      let s := s.publishReport order.id order.client order.symbol fills result.remainingAfter
        (newOrderExecType result fills) result.rejectReason
      some (some { order := order, fills := fills, rested := result.rested }, s)

def processCancel (s : ReplayEngine P M X) (wire : CancelOrderMessage) : ReplayEngine P M X :=
  match s.matching.book.findNode wire.orderId with
  | none => s.publishReport wire.orderId wire.clientId wire.symbolId [] 0 .rejected .unknownOrder
  | some existing =>
    let order := (s.matching.book.node existing).order
    let (result, matching) := s.matching.cancel wire.orderId
    let s := { s with matching := matching }
    if result.accepted then
      (s.publishLevel order.symbol order.side order.price).publishReport wire.orderId order.client order.symbol [] 0
        .cancelled .none
    else s

def processReplace (s : ReplayEngine P M X) (wire : ReplaceOrderMessage) (timestamp : Int) :
    Option (Option Submission × ReplayEngine P M X) :=
  match s.matching.book.findNode wire.orderId with
  | none => some (none, s.publishReport wire.orderId wire.clientId wire.symbolId [] 0 .rejected .unknownOrder)
  | some existing =>
    let order := (s.matching.book.node existing).order
    let seq := s.nextSequence
    let s := { s with nextSequence := s.nextSequence + 1 }
    match s.matching.replace wire.orderId wire.newPrice wire.newQuantity seq timestamp [] with
    | none => none
    | some (result, matching, fills) =>
      let s := { s with matching := matching }
      let updated := order.replaced wire.newPrice wire.newQuantity seq timestamp
      let submission : Submission := { order := updated, fills := fills, rested := result.rested }
      if !result.accepted then
        some (some submission,
          s.publishReport wire.orderId order.client order.symbol [] 0 .rejected result.rejectReason)
      else
        let s := s.applyFills order.symbol fills
        let s := s.publishLevel order.symbol order.side order.price
        let s := if result.rested then s.publishLevel order.symbol order.side wire.newPrice else s
        let execType : ExecType :=
          if result.remainingAfter = 0 then .fill else if fills ≠ [] then .partialFill else .replaced
        some (some submission,
          s.publishReport wire.orderId order.client order.symbol fills result.remainingAfter execType .none)

end

end ReplayEngine

/-! ### Runs -/

/-- A request, or the operation of the kill switch. -/
inductive Event where
  | newOrder (wire : NewOrderMessage) (timestamp : Int)
  | cancel (wire : CancelOrderMessage)
  | replace (wire : ReplaceOrderMessage) (timestamp : Int)
  | engageKillSwitch
  | disengageKillSwitch

/-- A replay engine on an empty book and an empty feed, with a risk engine in any state. -/
def ReplayEngine.new {P : Params} {M X : Type} [DenseMap M OrderId Nat] (symbol : SymbolId) (basePrice : Int)
    (risk : RiskEngine X) : ReplayEngine P M X where
  matching := MatchingEngine.new P M symbol basePrice
  risk := risk

def ReplayEngine.process {P : Params} {M X : Type} [DenseMap M OrderId Nat] [DenseMap X UInt64 ClientExposure]
    (s : ReplayEngine P M X) : Event → Option (Option Submission × ReplayEngine P M X)
  | .newOrder wire timestamp => s.processNewOrder wire timestamp
  | .cancel wire => some (none, s.processCancel wire)
  | .replace wire timestamp => s.processReplace wire timestamp
  | .engageKillSwitch => some (none, { s with risk := s.risk.engageKillSwitch })
  | .disengageKillSwitch => some (none, { s with risk := s.risk.disengageKillSwitch })

/-- The message for a Day Limit order on symbol 7, for concrete runs. -/
def limitDay (id : OrderId) (client : ClientId) (side : Side) (price quantity : Int) : NewOrderMessage where
  orderId := id
  price := price
  quantity := quantity
  clientId := client
  symbolId := 7
  side := side
  orderType := .limit
  timeInForce := .day

/-- Limits for concrete runs. -/
def looseLimits : Limits := { maxOrderSize := 10, maxPosition := 10, maxLossPerClient := -1000 }

end Exchange
