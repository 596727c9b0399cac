import Exchange.LadderSide
import Exchange.SlabPool
import Exchange.Lib.DenseMap
import Exchange.Lib.Loop

/-!
# The order book

`OrderBook<NumLevels, MaxOrders>` of `jane/book/order_book.hpp`.  Every operation returns its result together with the
book it leaves behind.  The map from order ids to nodes is any implementation of the hash map interface.
-/

namespace Exchange

open DenseMap

inductive AddError where
  | priceOutOfRange
  | duplicateOrderId
  | poolExhausted
  | invalidQuantity
  | marketOrderCannotRest
  deriving DecidableEq

inductive CancelError where
  | notFound
  deriving DecidableEq

inductive ReduceError where
  | notFound
  | invalidFillAmount
  deriving DecidableEq

inductive ReplaceError where
  | notFound
  | priceOutOfRange
  | invalidQuantity
  | poolExhausted
  deriving DecidableEq

structure OrderBook (P : Params) (M : Type) where
  symbol : SymbolId
  basePrice : Int
  bids : LadderSide P.numLevels true
  asks : LadderSide P.numLevels false
  pool : SlabPool OrderNode P.maxOrders
  orderIndex : M
  orderCount : Nat

namespace OrderBook

variable {P : Params} {M : Type}

def new (P : Params) (M : Type) [DenseMap M OrderId Nat] (symbol : SymbolId) (basePrice : Int) : OrderBook P M where
  symbol := symbol
  basePrice := basePrice
  bids := LadderSide.new P.numLevels true
  asks := LadderSide.new P.numLevels false
  pool := SlabPool.new OrderNode P.maxOrders
  orderIndex := empty
  orderCount := 0

def nodes (b : OrderBook P M) : Heap := b.pool.storage

/-- The node a pointer points to. -/
def node (b : OrderBook P M) (n : Nat) : OrderNode := b.nodes n

def indexOf (b : OrderBook P M) (p : Int) : Option Nat :=
  let offset := p - b.basePrice
  if offset < 0 ∨ P.numLevels ≤ offset.toNat then none else some offset.toNat

def priceAt (b : OrderBook P M) (i : Nat) : Int := b.basePrice + i

def levelFor (b : OrderBook P M) (s : Side) (i : Nat) : PriceLevel :=
  if s = .buy then b.bids.level i else b.asks.level i

/-- An assignment through the reference that `level_for` returns. -/
def setLevelFor (b : OrderBook P M) (s : Side) (i : Nat) (lvl : PriceLevel) : OrderBook P M :=
  { b with
    bids := if s = .buy then b.bids.setLevel i lvl else b.bids
    asks := if s = .buy then b.asks else b.asks.setLevel i lvl }

def noteNonemptyFor (b : OrderBook P M) (s : Side) (i : Nat) : OrderBook P M :=
  { b with
    bids := if s = .buy then b.bids.noteNonempty i else b.bids
    asks := if s = .buy then b.asks else b.asks.noteNonempty i }

def noteMaybeEmptyFor (b : OrderBook P M) (s : Side) (i : Nat) : OrderBook P M :=
  { b with
    bids := if s = .buy then b.bids.noteMaybeEmpty i else b.bids
    asks := if s = .buy then b.asks else b.asks.noteMaybeEmpty i }

/-- The stores through node pointers made so far. -/
def withNodes (b : OrderBook P M) (st : Heap) : OrderBook P M := { b with pool := b.pool.write st }

def bestBid (b : OrderBook P M) : Option Int := b.bids.bestIndex.map b.priceAt

def bestAsk (b : OrderBook P M) : Option Int := b.asks.bestIndex.map b.priceAt

def levelAt (b : OrderBook P M) (s : Side) (price : Int) : Option PriceLevel :=
  (b.indexOf price).map (b.levelFor s)

def frontAt (b : OrderBook P M) (s : Side) (price : Int) : Option Nat :=
  (b.indexOf price).bind fun i => (b.levelFor s i).head

def bestIndexFor (b : OrderBook P M) (s : Side) : Option Nat :=
  if s = .buy then b.bids.bestIndex else b.asks.bestIndex

def nextAfterFor (b : OrderBook P M) (s : Side) (i : Nat) : Option Nat :=
  if s = .buy then b.bids.nextAfter i else b.asks.nextAfter i

/-- One iteration of `for_each_level`.  The visitor carries a state `α` and says whether to go on. -/
def visitLevel {α : Type} (b : OrderBook P M) (s : Side) (visit : Int → PriceLevel → α → Bool × α) :
    Option Nat × α → Iteration (Option Nat × α)
  | (none, _) => .stop
  | (some i, acc) =>
    match visit (b.priceAt i) (b.levelFor s i) acc with
    | (false, acc) => .next (none, acc)
    | (true, acc) => .next (b.nextAfterFor s i, acc)

/-- `for_each_level`; every level is visited at most once, so `NumLevels + 2` iterations are enough. -/
def forEachLevel {α : Type} (b : OrderBook P M) (s : Side) (visit : Int → PriceLevel → α → Bool × α) (acc : α) :
    Option α :=
  (runLoop (b.visitLevel s visit) (P.numLevels + 2) (b.bestIndexFor s, acc)).map Prod.snd

/-- The orders resting at one level, oldest first. -/
def fifo (b : OrderBook P M) (s : Side) (i : Nat) : List Order :=
  (walk (fun n => (b.node n).next) P.maxOrders (b.levelFor s i).head).map fun n => (b.node n).order

section

variable [DenseMap M OrderId Nat]

/-- The node of a resting order. -/
def findNode (b : OrderBook P M) (id : OrderId) : Option Nat := find b.orderIndex id

/-- The part of `add` that links the freshly allocated `node` into the level at `index`. -/
def place (b : OrderBook P M) (order : Order) (index node : Nat) : OrderBook P M :=
  let st := b.nodes.modify node fun x => { x with order := order }
  let st := st.modify node fun x => { x with levelIndex := index }
  let lvl := b.levelFor order.side index
  let wasEmpty := lvl.empty
  let (st, lvl) := levelPushBack st lvl node
  let b := (b.withNodes st).setLevelFor order.side index lvl
  let b := if wasEmpty then b.noteNonemptyFor order.side index else b
  { b with
    orderIndex := emplace b.orderIndex order.id node
    orderCount := b.orderCount + 1 }

def add (b : OrderBook P M) (order : Order) : Except AddError OrderId × OrderBook P M :=
  if order.type ≠ .limit then (.error .marketOrderCannotRest, b)
  else if order.remaining ≤ 0 then (.error .invalidQuantity, b)
  else
    match b.indexOf order.price with
    | none => (.error .priceOutOfRange, b)
    | some index =>
      if (find b.orderIndex order.id).isSome then (.error .duplicateOrderId, b)
      else
        match b.pool.allocate with
        | (none, pool) => (.error .poolExhausted, { b with pool := pool })
        | (some node, pool) => (.ok order.id, { b with pool := pool }.place order index node)

def unlinkAndFree (b : OrderBook P M) (node : Nat) : OrderBook P M :=
  let index := (b.node node).levelIndex
  let side := (b.node node).order.side
  let (st, lvl) := levelUnlink b.nodes (b.levelFor side index) node
  let b := (b.withNodes st).setLevelFor side index lvl
  let b := b.noteMaybeEmptyFor (b.node node).order.side index
  { b with pool := b.pool.deallocate node }

def cancel (b : OrderBook P M) (id : OrderId) : Except CancelError Unit × OrderBook P M :=
  match find b.orderIndex id with
  | none => (.error .notFound, b)
  | some node =>
    let b := b.unlinkAndFree node
    (.ok (), { b with
      orderIndex := erase b.orderIndex id
      orderCount := b.orderCount - 1 })

def reduceQuantity (b : OrderBook P M) (id : OrderId) (fillAmount : Int) :
    Except ReduceError Unit × OrderBook P M :=
  match find b.orderIndex id with
  | none => (.error .notFound, b)
  | some node =>
    if fillAmount ≤ 0 ∨ fillAmount > (b.node node).order.remaining then (.error .invalidFillAmount, b)
    else
      let index := (b.node node).levelIndex
      let nodeSide := (b.node node).order.side
      let lvl := b.levelFor nodeSide index
      let takeFill := fun (x : OrderNode) =>
        { x with order := { x.order with remaining := x.order.remaining - fillAmount } }
      if fillAmount = (b.node node).order.remaining then
        let (st, lvl) := levelUnlink b.nodes lvl node
        let b := (b.withNodes (st.modify node takeFill)).setLevelFor nodeSide index lvl
        let b := b.noteMaybeEmptyFor nodeSide index
        (.ok (), { b with
          orderIndex := erase b.orderIndex id
          pool := b.pool.deallocate node
          orderCount := b.orderCount - 1 })
      else
        let b := b.withNodes (b.nodes.modify node takeFill)
        (.ok (), b.setLevelFor nodeSide index { lvl with totalQuantity := lvl.totalQuantity - fillAmount })

def replace (b : OrderBook P M) (id : OrderId) (newPrice : Int) (newQuantity : Int) (newSequence : Sequence)
    (newTimestamp : Int) : Except ReplaceError Unit × OrderBook P M :=
  match find b.orderIndex id with
  | none => (.error .notFound, b)
  | some node =>
    if newQuantity ≤ 0 then (.error .invalidQuantity, b)
    else if (b.indexOf newPrice).isNone then (.error .priceOutOfRange, b)
    else
      let updated := (b.node node).order.replaced newPrice newQuantity newSequence newTimestamp
      let b := b.unlinkAndFree node
      let b := { b with
        orderIndex := erase b.orderIndex id
        orderCount := b.orderCount - 1 }
      match b.add updated with
      | (.error _, b) => (.error .poolExhausted, b)
      | (.ok _, b) => (.ok (), b)

end

/-! ### Indices and levels -/

section

variable {b : OrderBook P M}

theorem indexOf_eq_some {p : Int} {i : Nat} : b.indexOf p = some i ↔ i < P.numLevels ∧ p = b.priceAt i := by
  unfold indexOf priceAt
  dsimp only
  split
  · rename_i h
    constructor
    · intro h'; cases h'
    · rintro ⟨h1, h2⟩; omega
  · rename_i h
    rw [Option.some.injEq]
    constructor
    · intro h'; omega
    · rintro ⟨h1, h2⟩; omega

theorem indexOf_eq_none {p : Int} :
    b.indexOf p = none ↔ ¬ (b.basePrice ≤ p ∧ p < b.basePrice + P.numLevels) := by
  unfold indexOf
  dsimp only
  split
  · rename_i h
    simp only [true_iff]
    omega
  · rename_i h
    simp only [reduceCtorEq, false_iff, not_not]
    omega

theorem indexOf_priceAt {i : Nat} (hi : i < P.numLevels) : b.indexOf (b.priceAt i) = some i :=
  indexOf_eq_some.2 ⟨hi, rfl⟩

theorem priceAt_inj {i j : Nat} : b.priceAt i = b.priceAt j ↔ i = j := by
  unfold priceAt
  omega

theorem bestPrice_eq (b : OrderBook P M) (s : Side) :
    (if s = .buy then b.bestBid else b.bestAsk) = (b.bestIndexFor s).map b.priceAt := by
  unfold bestIndexFor bestBid bestAsk
  split <;> rfl

theorem levelFor_setLevelFor (b : OrderBook P M) (s s' : Side) (i j : Nat) (lvl : PriceLevel) :
    (b.setLevelFor s i lvl).levelFor s' j = if s' = s ∧ j = i then lvl else b.levelFor s' j := by
  unfold setLevelFor levelFor
  by_cases hj : j = i
  · subst hj
    cases s <;> cases s' <;> simp
  · cases s <;> cases s' <;> simp [hj, LadderSide.level_setLevel_of_ne]

@[simp] theorem levelFor_noteNonemptyFor (b : OrderBook P M) (s s' : Side) (i j : Nat) :
    (b.noteNonemptyFor s i).levelFor s' j = b.levelFor s' j := by
  unfold noteNonemptyFor levelFor
  cases s <;> cases s' <;> simp

@[simp] theorem levelFor_noteMaybeEmptyFor (b : OrderBook P M) (s s' : Side) (i j : Nat) :
    (b.noteMaybeEmptyFor s i).levelFor s' j = b.levelFor s' j := by
  unfold noteMaybeEmptyFor levelFor
  cases s <;> cases s' <;> simp

end

end OrderBook

end Exchange
