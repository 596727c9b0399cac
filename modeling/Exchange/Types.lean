import Mathlib.Data.Int.Notation

/-!
# Core vocabulary

The types of `jane/core/types.hpp` and `jane/core/order.hpp`.  Identifiers keep their machine width (they are only
compared and, for sequences and match ids, incremented); prices (in ticks), quantities, times and money are exact
integers.
-/

namespace Exchange

abbrev OrderId := UInt64
abbrev Sequence := UInt64
abbrev SymbolId := UInt32
abbrev ClientId := UInt32

inductive Side where
  | buy
  | sell
  deriving DecidableEq, Repr, Inhabited

def opposite (s : Side) : Side := if s = .buy then .sell else .buy

inductive OrderType where
  | limit
  | market
  deriving DecidableEq, Repr, Inhabited

inductive TimeInForce where
  | day
  | ioc
  | fok
  deriving DecidableEq, Repr, Inhabited

/-- Why an order, cancel or replace did not proceed; `none` means that it did. -/
inductive RejectReason where
  | none
  | invalidPrice
  | invalidQuantity
  | unknownSymbol
  | unknownOrder
  | duplicateOrderId
  | fokNotFillable
  | bookCapacityExceeded
  | riskMaxOrderSize
  | riskMaxPosition
  | riskMaxLoss
  | riskKillSwitch
  deriving DecidableEq, Repr, Inhabited

structure Order where
  id : OrderId := 0
  client : ClientId := 0
  symbol : SymbolId := 0
  side : Side := .buy
  type : OrderType := .limit
  tif : TimeInForce := .day
  price : Int := 0
  quantity : Int := 0
  remaining : Int := 0
  sequence : Sequence := 0
  timestamp : Int := 0
  deriving DecidableEq, Repr, Inhabited

/-- The order with nothing filled yet. -/
def Order.fresh (o : Order) : Order := { o with remaining := o.quantity }

/-- `updated` in both `replace` functions: the order under its new terms, with nothing filled. -/
def Order.replaced (o : Order) (newPrice newQuantity : Int) (newSequence : Sequence) (newTimestamp : Int) : Order :=
  { o with
    price := newPrice
    quantity := newQuantity
    remaining := newQuantity
    sequence := newSequence
    timestamp := newTimestamp }

@[simp] theorem opposite_buy : opposite .buy = .sell := rfl

@[simp] theorem opposite_sell : opposite .sell = .buy := rfl

theorem opposite_ne (s : Side) : opposite s ≠ s := by cases s <;> decide

/-- The template parameters of a book, with the `static_assert`s `SlabPool` puts on its capacity. -/
structure Params where
  numLevels : Nat
  maxOrders : Nat
  maxOrders_pos : 0 < maxOrders
  maxOrders_le : maxOrders ≤ 4294967295

end Exchange
