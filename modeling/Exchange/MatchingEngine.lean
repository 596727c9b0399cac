import Exchange.OrderBook

/-!
# The matching engine

`MatchingEngine<NumLevels, MaxOrders>` of `jane/matching/matching_engine.hpp`.  A call returns its result, the engine
it leaves behind and the caller's fill buffer, to which it has appended.  `none` stands for a call that does not
return: the match loop dereferences a null pointer, or a loop does not end.
-/

namespace Exchange

structure Fill where
  matchId : UInt64
  restingOrderId : OrderId
  restingClientId : ClientId
  aggressorOrderId : OrderId
  aggressorClientId : ClientId
  symbol : SymbolId
  price : Int
  quantity : Int
  aggressorSide : Side
  restingFullyFilled : Bool
  deriving DecidableEq

structure NewOrderResult where
  rejectReason : RejectReason := .none
  fillCount : Nat := 0
  rested : Bool := false
  remainingAfter : Int := 0
  deriving DecidableEq

structure CancelResult where
  accepted : Bool := false
  deriving DecidableEq

structure ReplaceResult where
  accepted : Bool := false
  rejectReason : RejectReason := .none
  fillCount : Nat := 0
  rested : Bool := false
  remainingAfter : Int := 0
  deriving DecidableEq

structure MatchingEngine (P : Params) (M : Type) where
  book : OrderBook P M
  nextMatchId : UInt64 := 1

/-- The variables of the match loop of an engine of type `E`. -/
structure MatchState (E : Type) where
  aggressor : Order
  engine : E
  outFills : List Fill

/-- Whether an aggressor on `side` with limit `limitPrice` accepts `price`. -/
def crosses (side : Side) (limitPrice price : Int) : Bool :=
  if side = .buy then decide (limitPrice ≥ price) else decide (limitPrice ≤ price)

/-- The fill of `quantity` between `aggressor` and `resting`. -/
def fillOf (matchId : UInt64) (aggressor resting : Order) (price quantity : Int) : Fill where
  matchId := matchId
  restingOrderId := resting.id
  restingClientId := resting.client
  aggressorOrderId := aggressor.id
  aggressorClientId := aggressor.client
  symbol := aggressor.symbol
  price := price
  quantity := quantity
  aggressorSide := aggressor.side
  restingFullyFilled := quantity == resting.remaining

namespace MatchingEngine

variable {P : Params} {M : Type}

def new (P : Params) (M : Type) [DenseMap M OrderId Nat] (symbol : SymbolId) (basePrice : Int) :
    MatchingEngine P M where
  book := OrderBook.new P M symbol basePrice

/-- The visitor `available_liquidity` passes to `for_each_level`. -/
def sumLiquidity (aggressorSide : Side) (isMarket : Bool) (limitPrice cap : Int) (levelPrice : Int) (lvl : PriceLevel)
    (total : Int) : Bool × Int :=
  if !isMarket && !crosses aggressorSide limitPrice levelPrice then (false, total)
  else
    let total := total + lvl.totalQuantity
    (decide (total < cap), total)

def availableLiquidity (e : MatchingEngine P M) (aggressorSide : Side) (isMarket : Bool) (limitPrice cap : Int) :
    Option Int :=
  e.book.forEachLevel (opposite aggressorSide) (sumLiquidity aggressorSide isMarket limitPrice cap) 0

/-- Whether `order` is fill-or-kill and the book cannot fill it. -/
def fokNotFillable (e : MatchingEngine P M) (order : Order) : Option Bool :=
  if order.tif = .fok then
    (e.availableLiquidity order.side (order.type == .market) order.price order.quantity).map
      fun available => decide (available < order.quantity)
  else some false

section

variable [DenseMap M OrderId Nat]

/-- One iteration of the loop of `match_against_book`. -/
def matchStep (st : MatchState (MatchingEngine P M)) : Iteration (MatchState (MatchingEngine P M)) :=
  let aggressor := st.aggressor
  let book := st.engine.book
  let oppositeSide := opposite aggressor.side
  if aggressor.remaining > 0 then
    match (if oppositeSide = .buy then book.bestBid else book.bestAsk) with
    | none => .stop
    | some best =>
      if aggressor.type = .limit ∧ crosses aggressor.side aggressor.price best = false then .stop
      else
        match book.frontAt oppositeSide best with
        | none => .fault
        | some node =>
          let resting := (book.node node).order
          let fillQty := min aggressor.remaining resting.remaining
          .next
            { aggressor := { aggressor with remaining := aggressor.remaining - fillQty }
              engine :=
                { book := (book.reduceQuantity resting.id fillQty).2
                  nextMatchId := st.engine.nextMatchId + 1 }
              outFills := st.outFills ++ [fillOf st.engine.nextMatchId aggressor resting best fillQty] }
  else .stop

/-- `match_against_book`; every iteration fills at least one lot, which bounds their number. -/
def matchAgainstBook (e : MatchingEngine P M) (aggressor : Order) (outFills : List Fill) :
    Option (MatchState (MatchingEngine P M)) :=
  runLoop matchStep (aggressor.remaining.toNat + 1) { aggressor := aggressor, engine := e, outFills := outFills }

/-- The end of `submit`: a Day Limit remainder comes to rest. -/
def restRemainder (e : MatchingEngine P M) (order : Order) (result : NewOrderResult) :
    NewOrderResult × MatchingEngine P M :=
  if order.remaining > 0 ∧ order.type = .limit ∧ order.tif = .day then
    match e.book.add order with
    | (.ok _, book) => ({ result with rested := true }, { e with book := book })
    | (.error _, book) => ({ result with rejectReason := .bookCapacityExceeded }, { e with book := book })
  else (result, e)

def submit (e : MatchingEngine P M) (order : Order) (outFills : List Fill) :
    Option (NewOrderResult × MatchingEngine P M × List Fill) :=
  let result : NewOrderResult := { remainingAfter := order.quantity }
  if order.symbol ≠ e.book.symbol then some ({ result with rejectReason := .unknownSymbol }, e, outFills)
  else if order.quantity ≤ 0 then some ({ result with rejectReason := .invalidQuantity }, e, outFills)
  else
    let order := order.fresh
    match e.fokNotFillable order with
    | none => none
    | some true => some ({ result with rejectReason := .fokNotFillable }, e, outFills)
    | some false =>
      match e.matchAgainstBook order outFills with
      | none => none
      | some st =>
        let result := { result with fillCount := st.outFills.length - outFills.length }
        let (result, e) := st.engine.restRemainder st.aggressor result
        some ({ result with remainingAfter := st.aggressor.remaining }, e, st.outFills)

def cancel (e : MatchingEngine P M) (id : OrderId) : CancelResult × MatchingEngine P M :=
  match e.book.cancel id with
  | (.ok _, book) => ({ accepted := true }, { e with book := book })
  | (.error _, book) => ({ accepted := false }, { e with book := book })

/-- What `replace` reports about the order it submitted. -/
def replaceResult (submitted : NewOrderResult) : ReplaceResult where
  accepted := submitted.rejectReason == .none
  rejectReason := submitted.rejectReason
  fillCount := submitted.fillCount
  rested := submitted.rested
  remainingAfter := submitted.remainingAfter

def replace (e : MatchingEngine P M) (id : OrderId) (newPrice newQuantity : Int) (newSequence : Sequence)
    (newTimestamp : Int) (outFills : List Fill) : Option (ReplaceResult × MatchingEngine P M × List Fill) :=
  match e.book.findNode id with
  | none => some ({ rejectReason := .unknownOrder }, e, outFills)
  | some existing =>
    if newQuantity ≤ 0 then some ({ rejectReason := .invalidQuantity }, e, outFills)
    else if (e.book.indexOf newPrice).isNone then some ({ rejectReason := .invalidPrice }, e, outFills)
    else
      let updated := (e.book.node existing).order.replaced newPrice newQuantity newSequence newTimestamp
      let e := { e with book := (e.book.cancel id).2 }
      (e.submit updated outFills).map fun p => (replaceResult p.1, p.2)

end

end MatchingEngine

/-! ### Calls -/

/-- A call of an engine, with the caller's fill buffer. -/
inductive Call where
  | submit (order : Order) (outFills : List Fill)
  | cancel (id : OrderId)
  | replace (id : OrderId) (newPrice newQuantity : Int) (newSequence : Sequence) (newTimestamp : Int)
      (outFills : List Fill)

/-- What the caller gets back: the result and the fill buffer. -/
inductive Response where
  | submit (result : NewOrderResult) (outFills : List Fill)
  | cancel (result : CancelResult)
  | replace (result : ReplaceResult) (outFills : List Fill)
  deriving DecidableEq

def MatchingEngine.call {P : Params} {M : Type} [DenseMap M OrderId Nat] (e : MatchingEngine P M) :
    Call → Option (Response × MatchingEngine P M)
  | .submit order outFills => (e.submit order outFills).map fun p => (.submit p.1 p.2.2, p.2.1)
  | .cancel id => some (.cancel (e.cancel id).1, (e.cancel id).2)
  | .replace id p q seq ts outFills =>
    (e.replace id p q seq ts outFills).map fun p => (.replace p.1 p.2.2, p.2.1)

/-! ### A small engine -/

/-- Four price levels and two orders, for concrete runs. -/
def tinyParams : Params where
  numLevels := 4
  maxOrders := 2
  maxOrders_pos := by decide
  maxOrders_le := by decide

/-- An id map for concrete runs. -/
abbrev IdMap : Type := AList fun _ : OrderId => Nat

end Exchange
