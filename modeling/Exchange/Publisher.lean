import Exchange.MatchingEngine
import Exchange.Stream

/-!
# Messages and the market data publisher

The messages of `jane/protocol/messages.hpp` with the types the engine computes with, and `MarketDataPublisher` of
`jane/marketdata/publisher.hpp`.  The sink starts empty.
-/

namespace Exchange

structure NewOrderMessage where
  orderId : UInt64
  price : Int
  quantity : Int
  clientId : UInt32
  symbolId : UInt32
  side : Side
  orderType : OrderType
  timeInForce : TimeInForce

structure CancelOrderMessage where
  orderId : UInt64
  clientId : UInt32
  symbolId : UInt32

structure ReplaceOrderMessage where
  orderId : UInt64
  newPrice : Int
  newQuantity : Int
  clientId : UInt32
  symbolId : UInt32

inductive ExecType where
  | new
  | partialFill
  | fill
  | cancelled
  | replaced
  | rejected
  deriving DecidableEq

structure ExecutionReportMessage where
  orderId : UInt64
  matchId : UInt64
  price : Int
  lastQuantity : Int
  leavesQuantity : Int
  clientId : UInt32
  symbolId : UInt32
  execType : ExecType
  rejectReason : RejectReason
  deriving DecidableEq

structure TradeMessage where
  sequence : UInt64
  matchId : UInt64
  price : Int
  quantity : Int
  symbolId : UInt32
  aggressorSide : Side
  deriving DecidableEq

inductive DeltaAction where
  | update
  | delete
  deriving DecidableEq

structure BookDeltaMessage where
  sequence : UInt64
  price : Int
  aggregateQuantity : Int
  symbolId : UInt32
  orderCount : Nat
  side : Side
  action : DeltaAction
  deriving DecidableEq

structure PriceLevelRecord where
  price : Int
  aggregateQuantity : Int
  orderCount : Nat
  deriving DecidableEq

/-- `BookSnapshotHeader` and the level records after it, whose numbers are the level counts of the header. -/
structure BookSnapshotMessage where
  sequence : UInt64
  symbolId : UInt32
  bids : List PriceLevelRecord
  asks : List PriceLevelRecord
  deriving DecidableEq

/-- What the exchange sends. -/
inductive Message where
  | executionReport (msg : ExecutionReportMessage)
  | trade (msg : TradeMessage)
  | bookDelta (msg : BookDeltaMessage)
  | bookSnapshot (msg : BookSnapshotMessage)
  deriving DecidableEq

/-! ### On the wire -/

def Side.code : Side → UInt8
  | buy => 0
  | sell => 1

def ExecType.code : ExecType → UInt8
  | new => 0
  | partialFill => 1
  | fill => 2
  | cancelled => 3
  | replaced => 4
  | rejected => 5

def RejectReason.code : RejectReason → UInt8
  | none => 0
  | invalidPrice => 1
  | invalidQuantity => 2
  | unknownSymbol => 3
  | unknownOrder => 4
  | duplicateOrderId => 5
  | fokNotFillable => 6
  | bookCapacityExceeded => 7
  | riskMaxOrderSize => 8
  | riskMaxPosition => 9
  | riskMaxLoss => 10
  | riskKillSwitch => 11

def DeltaAction.code : DeltaAction → UInt8
  | update => 0
  | delete => 1

def ExecutionReportMessage.toWire (m : ExecutionReportMessage) : Wire.ExecutionReportMessage where
  orderId := m.orderId
  matchId := m.matchId
  price := Int64.ofInt m.price
  lastQuantity := Int64.ofInt m.lastQuantity
  leavesQuantity := Int64.ofInt m.leavesQuantity
  clientId := m.clientId
  symbolId := m.symbolId
  execType := m.execType.code
  rejectReason := m.rejectReason.code

def TradeMessage.toWire (m : TradeMessage) : Wire.TradeMessage where
  sequence := m.sequence
  matchId := m.matchId
  price := Int64.ofInt m.price
  quantity := Int64.ofInt m.quantity
  symbolId := m.symbolId
  aggressorSide := m.aggressorSide.code

def BookDeltaMessage.toWire (m : BookDeltaMessage) : Wire.BookDeltaMessage where
  sequence := m.sequence
  price := Int64.ofInt m.price
  aggregateQuantity := Int64.ofInt m.aggregateQuantity
  symbolId := m.symbolId
  orderCount := UInt32.ofNat m.orderCount
  side := m.side.code
  action := m.action.code

def PriceLevelRecord.toWire (m : PriceLevelRecord) : Wire.PriceLevelRecord where
  price := Int64.ofInt m.price
  aggregateQuantity := Int64.ofInt m.aggregateQuantity
  orderCount := UInt32.ofNat m.orderCount

def BookSnapshotMessage.toWire (m : BookSnapshotMessage) : Wire.BookSnapshot where
  sequence := m.sequence
  symbolId := m.symbolId
  bids := m.bids.map PriceLevelRecord.toWire
  asks := m.asks.map PriceLevelRecord.toWire

def Message.toWire : Message → Wire.Message
  | executionReport msg => .executionReport msg.toWire
  | trade msg => .trade msg.toWire
  | bookDelta msg => .bookDelta msg.toWire
  | bookSnapshot msg => .bookSnapshot msg.toWire

/-! ### The publisher -/

/-- The sink is kept twice: as the messages, and as the bytes that have been written for them. -/
structure MarketDataPublisher where
  sink : List Message := []
  bytes : List UInt8 := []
  nextSequence : UInt64 := 1
  /-- The size of `snapshot_scratch_`. -/
  snapshotScratch : Nat := 8192

namespace MarketDataPublisher

def publishTrade (feed : MarketDataPublisher) (symbol : SymbolId) (fill : Fill) : MarketDataPublisher :=
  let msg : TradeMessage :=
    { sequence := feed.nextSequence
      matchId := fill.matchId
      price := fill.price
      quantity := fill.quantity
      symbolId := symbol
      aggressorSide := fill.aggressorSide }
  { feed with
    sink := feed.sink ++ [.trade msg]
    bytes := feed.bytes ++ Wire.encode 64 msg.toWire
    nextSequence := feed.nextSequence + 1 }

def publishExecutionReport (feed : MarketDataPublisher) (msg : ExecutionReportMessage) : MarketDataPublisher :=
  { feed with
    sink := feed.sink ++ [.executionReport msg]
    bytes := feed.bytes ++ Wire.encode 128 msg.toWire }

/-- Whether a level is deleted is read off its order count. -/
def publishLevelUpdate (feed : MarketDataPublisher) (symbol : SymbolId) (side : Side) (price : Int)
    (level : PriceLevel) : MarketDataPublisher :=
  let msg : BookDeltaMessage :=
    { sequence := feed.nextSequence
      price := price
      aggregateQuantity := level.totalQuantity
      symbolId := symbol
      orderCount := level.orderCount
      side := side
      action := if level.orderCount = 0 then .delete else .update }
  { feed with
    sink := feed.sink ++ [.bookDelta msg]
    bytes := feed.bytes ++ Wire.encode 64 msg.toWire
    nextSequence := feed.nextSequence + 1 }

/-- The visitor `publish_snapshot` passes to `for_each_level`. -/
def collect (depth : Nat) (price : Int) (lvl : PriceLevel) (out : List PriceLevelRecord) :
    Bool × List PriceLevelRecord :=
  let out := out ++ [{ price := price, aggregateQuantity := lvl.totalQuantity, orderCount := lvl.orderCount }]
  (decide (out.length < depth), out)

/-- The attempts to encode a snapshot, each in a scratch buffer twice as large as the one before.  Returns the bytes
written and the size of the buffer in the end. -/
def encodeAttempts (msg : Wire.BookSnapshot) : Nat → Nat → List UInt8 × Nat
  | 0, scratch => ([], scratch)
  | attempts + 1, scratch =>
    let written := Wire.encodeSnapshot scratch msg.sequence msg.symbolId msg.bids msg.asks
    if written ≠ [] then (written, scratch) else encodeAttempts msg attempts (scratch * 2)

/-- The end of `publish_snapshot`; a snapshot that has not been encoded is dropped. -/
def writeSnapshot (feed : MarketDataPublisher) (symbol : SymbolId) (bids asks : List PriceLevelRecord) :
    MarketDataPublisher :=
  let msg : BookSnapshotMessage := { sequence := feed.nextSequence, symbolId := symbol, bids := bids, asks := asks }
  let (written, scratch) := encodeAttempts msg.toWire 4 feed.snapshotScratch
  if written = [] then { feed with snapshotScratch := scratch }
  else
    { feed with
      sink := feed.sink ++ [.bookSnapshot msg]
      bytes := feed.bytes ++ written
      nextSequence := feed.nextSequence + 1
      snapshotScratch := scratch }

def publishSnapshot {P : Params} {M : Type} (feed : MarketDataPublisher) (symbol : SymbolId) (book : OrderBook P M)
    (depth : Nat) : Option MarketDataPublisher :=
  match book.forEachLevel .buy (collect depth) [] with
  | none => none
  | some bids =>
    match book.forEachLevel .sell (collect depth) [] with
    | none => none
    | some asks => some (feed.writeSnapshot symbol bids asks)

end MarketDataPublisher

end Exchange
