import Exchange.MatchingEngine
import Exchange.Lib.Priority
import Mathlib.Algebra.BigOperators.Group.List.Basic
import Mathlib.Algebra.Ring.Int.Defs

/-!
# The reference engine

What the matching engine is for, without its data structures: the book is one list of resting orders, in the order in
which they came to rest.  Matching repeatedly takes, of the opposite orders at a price the aggressor accepts, the best
priced one, and among equals the earliest.

`Sweep` describes the fills of one incoming order and what they do to the list.  Everything that holds of the match
loop is an induction over it.
-/

namespace Exchange

/-- Whether the aggressor `a` may trade at the price `p`: a buyer pays at most its limit, a seller receives at least
its limit. -/
def accepts (a : Order) (p : Int) : Bool :=
  a.type == .market || decide (if a.side = .buy then p ≤ a.price else a.price ≤ p)

theorem crosses_eq (side : Side) (limitPrice price : Int) :
    crosses side limitPrice price = decide (if side = .buy then price ≤ limitPrice else limitPrice ≤ price) := by
  unfold crosses
  split_ifs <;> rfl

theorem accepts_eq (a : Order) (p : Int) : accepts a p = (a.type == .market || crosses a.side a.price p) := by
  rw [accepts, crosses_eq]

/-- Whether the aggressor `a` may trade with the resting order `o`. -/
def acceptable (a o : Order) : Bool := decide (o.side = opposite a.side) && accepts a o.price

/-- Lower is better for an aggressor on side `s`. -/
def rank (s : Side) (o : Order) : Int := if s = .buy then o.price else -o.price

/-- The order an aggressor trades with first. -/
def pick (a : Order) (resting : List Order) : Option Order := firstMin (rank a.side) (resting.filter (acceptable a))

/-- A fill of `q` against the order with this id: it keeps its place until nothing is left of it. -/
def reduceOrder (id : OrderId) (q : Int) (resting : List Order) : List Order :=
  resting.filterMap fun o =>
    if o.id = id then (if o.remaining = q then none else some { o with remaining := o.remaining - q }) else some o

def removeOrder (id : OrderId) (resting : List Order) : List Order := resting.filter fun o => decide (o.id ≠ id)

/-- The quantity an aggressor could trade. -/
def liquidity (a : Order) (resting : List Order) : Int := ((resting.filter (acceptable a)).map Order.remaining).sum

structure RefEngine (P : Params) where
  symbol : SymbolId
  basePrice : Int
  resting : List Order := []
  nextMatchId : UInt64 := 1

namespace RefEngine

variable {P : Params}

def new (P : Params) (symbol : SymbolId) (basePrice : Int) : RefEngine P where
  symbol := symbol
  basePrice := basePrice

def InRange (r : RefEngine P) (p : Int) : Prop := r.basePrice ≤ p ∧ p < r.basePrice + P.numLevels

instance (r : RefEngine P) (p : Int) : Decidable (r.InRange p) := inferInstanceAs (Decidable (_ ∧ _))

/-- The engine after the aggressor `a` has traded with `o`. -/
def afterFill (r : RefEngine P) (a o : Order) : RefEngine P :=
  { r with
    resting := reduceOrder o.id (min a.remaining o.remaining) r.resting
    nextMatchId := r.nextMatchId + 1 }

def matchStep (st : MatchState (RefEngine P)) : Iteration (MatchState (RefEngine P)) :=
  let a := st.aggressor
  if a.remaining > 0 then
    match pick a st.engine.resting with
    | none => .stop
    | some o =>
      .next
        { aggressor := { a with remaining := a.remaining - min a.remaining o.remaining }
          engine := st.engine.afterFill a o
          outFills := st.outFills ++ [fillOf st.engine.nextMatchId a o o.price (min a.remaining o.remaining)] }
  else .stop

def matchAgainstBook (r : RefEngine P) (aggressor : Order) (outFills : List Fill) :
    Option (MatchState (RefEngine P)) :=
  runLoop matchStep (aggressor.remaining.toNat + 1) { aggressor := aggressor, engine := r, outFills := outFills }

/-- Whether the remainder `order` can come to rest. -/
def CanRest (r : RefEngine P) (order : Order) : Prop :=
  r.InRange order.price ∧ (∀ o ∈ r.resting, o.id ≠ order.id) ∧ r.resting.length < P.maxOrders

instance (r : RefEngine P) (order : Order) : Decidable (r.CanRest order) := inferInstanceAs (Decidable (_ ∧ _ ∧ _))

def restRemainder (r : RefEngine P) (order : Order) (result : NewOrderResult) : NewOrderResult × RefEngine P :=
  if order.remaining > 0 ∧ order.type = .limit ∧ order.tif = .day then
    if r.CanRest order then ({ result with rested := true }, { r with resting := r.resting ++ [order] })
    else ({ result with rejectReason := .bookCapacityExceeded }, r)
  else (result, r)

def submit (r : RefEngine P) (order : Order) (outFills : List Fill) :
    Option (NewOrderResult × RefEngine P × List Fill) :=
  let result : NewOrderResult := { remainingAfter := order.quantity }
  if order.symbol ≠ r.symbol then some ({ result with rejectReason := .unknownSymbol }, r, outFills)
  else if order.quantity ≤ 0 then some ({ result with rejectReason := .invalidQuantity }, r, outFills)
  else if order.tif = .fok ∧ liquidity order r.resting < order.quantity then
    some ({ result with rejectReason := .fokNotFillable }, r, outFills)
  else
    match r.matchAgainstBook order.fresh outFills with
    | none => none
    | some st =>
      let result := { result with fillCount := st.outFills.length - outFills.length }
      let (result, r) := st.engine.restRemainder st.aggressor result
      some ({ result with remainingAfter := st.aggressor.remaining }, r, st.outFills)

def cancel (r : RefEngine P) (id : OrderId) : CancelResult × RefEngine P :=
  if ∃ o ∈ r.resting, o.id = id then ({ accepted := true }, { r with resting := removeOrder id r.resting })
  else ({ accepted := false }, r)

def replace (r : RefEngine P) (id : OrderId) (newPrice newQuantity : Int) (newSequence : Sequence)
    (newTimestamp : Int) (outFills : List Fill) : Option (ReplaceResult × RefEngine P × List Fill) :=
  match r.resting.find? fun o => decide (o.id = id) with
  | none => some ({ rejectReason := .unknownOrder }, r, outFills)
  | some existing =>
    if newQuantity ≤ 0 then some ({ rejectReason := .invalidQuantity }, r, outFills)
    else if ¬ r.InRange newPrice then some ({ rejectReason := .invalidPrice }, r, outFills)
    else
      let updated := existing.replaced newPrice newQuantity newSequence newTimestamp
      let r := { r with resting := removeOrder id r.resting }
      (r.submit updated outFills).map fun p => (MatchingEngine.replaceResult p.1, p.2)

def call (r : RefEngine P) : Call → Option (Response × RefEngine P)
  | .submit order outFills => (r.submit order outFills).map fun p => (.submit p.1 p.2.2, p.2.1)
  | .cancel id => some (.cancel (r.cancel id).1, (r.cancel id).2)
  | .replace id p q seq ts outFills =>
    (r.replace id p q seq ts outFills).map fun p => (.replace p.1 p.2.2, p.2.1)

end RefEngine

end Exchange
