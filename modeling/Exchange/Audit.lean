import Exchange.Uncrossed
import Exchange.LevelWalk

/-!
# The structural audit

`check_book_invariants` of `jane/correctness/invariants.hpp`: a read-only walk over the levels of a book that lists
what it finds wrong.  On a book whose ladders are intact the list is empty if and only if the book is uncrossed and
every occupied level is a well-formed queue with the right aggregates; the memory behind the node pointers is
arbitrary.  Books that operations lead to have at most the crossing to report, and the books of a matching engine have
nothing to report.
-/

namespace Exchange

open OrderBook DenseMap

namespace OrderBook

variable {P : Params} {M : Type}

/-- The variables of the walk along the queue of one level. -/
structure FifoWalk where
  node : Option Nat
  prev : Option Nat := none
  summed : Int := 0
  counted : Nat := 0
  violations : List String

/-- What is wrong with one node, when the walk has come from `prev`. -/
def checkNode (side : Side) (price : Int) (prev : Option Nat) (x : OrderNode) : List String :=
  (if x.order.remaining ≤ 0 then
    ["non-positive remaining quantity (" ++ toString x.order.remaining ++ ") resting at price " ++ toString price]
    else []) ++
  (if x.order.side ≠ side then ["order resting on the wrong side's level at price " ++ toString price] else []) ++
  (if x.prev ≠ prev then ["broken FIFO back-link at price " ++ toString price] else [])

/-- The body of the walk's loop at the node `n`. -/
def FifoWalk.visit (b : OrderBook P M) (side : Side) (price : Int) (w : FifoWalk) (n : Nat) : FifoWalk where
  node := (b.node n).next
  prev := some n
  summed := w.summed + (b.node n).order.remaining
  counted := w.counted + 1
  violations := w.violations ++ checkNode side price w.prev (b.node n)

def walkNode (b : OrderBook P M) (side : Side) (price : Int) (w : FifoWalk) : Iteration FifoWalk :=
  match w.node with
  | none => .stop
  | some n => .next (w.visit b side price n)

/-- What is wrong with a level, once the walk has reached the end of its queue. -/
def checkLevelEnd (level : PriceLevel) (price : Int) (w : FifoWalk) : List String :=
  (if level.tail ≠ w.prev then
    ["level.tail inconsistent with the FIFO walk's end at price " ++ toString price] else []) ++
  (if w.summed ≠ level.totalQuantity then
    ["level.total_quantity=" ++ toString level.totalQuantity ++ " != sum of resting orders=" ++ toString w.summed ++
      " at price " ++ toString price] else []) ++
  (if w.counted ≠ level.orderCount then
    ["level.order_count=" ++ toString level.orderCount ++ " != actual FIFO length=" ++ toString w.counted ++
      " at price " ++ toString price] else [])

/-- The visitor: one level's violations behind those found before.  A walk over more nodes than the pool has runs in
circles, and the audit does not return. -/
def checkLevel (b : OrderBook P M) (side : Side) (price : Int) (level : PriceLevel) (violations : List String) :
    Option (List String) :=
  (runLoop (b.walkNode side price) (P.maxOrders + 1) { node := level.head, violations := violations }).map
    fun w => w.violations ++ checkLevelEnd level price w

def checkSide (b : OrderBook P M) (side : Side) (violations : List String) : Option (List String) :=
  (b.forEachLevel side (fun price level found => (true, found.bind (b.checkLevel side price level)))
    (some violations)).join

def checkCrossed (b : OrderBook P M) : List String :=
  match b.bestBid, b.bestAsk with
  | some bid, some ask =>
    if bid ≥ ask then
      ["crossed book: best_bid=" ++ toString bid ++ " >= best_ask=" ++ toString ask]
    else []
  | _, _ => []

def checkBookInvariants (b : OrderBook P M) : Option (List String) :=
  (b.checkSide .buy b.checkCrossed).bind (b.checkSide .sell)

/-! ### One level -/

/-- The violations along the nodes `l`, when the walk has come from `prev`. -/
def queueViolations (b : OrderBook P M) (side : Side) (price : Int) : Option Nat → List Nat → List String
  | _, [] => []
  | prev, n :: l => checkNode side price prev (b.node n) ++ queueViolations b side price (some n) l

/-- The walk when it has passed the nodes `l`. -/
def FifoWalk.after (b : OrderBook P M) (side : Side) (price : Int) (w : FifoWalk) (l : List Nat) : FifoWalk where
  node := none
  prev := l.getLast?.or w.prev
  summed := w.summed + (l.map fun n => (b.node n).order.remaining).sum
  counted := w.counted + l.length
  violations := w.violations ++ queueViolations b side price w.prev l

section

variable {b : OrderBook P M} {side : Side} {price : Int} {w w' : FifoWalk} {l : List Nat}

theorem FifoWalk.after_cons (w : FifoWalk) (n : Nat) (l : List Nat) :
    w.after b side price (n :: l) = (w.visit b side price n).after b side price l := by
  unfold after visit
  congr 1
  · rw [List.getLast?_cons]
    cases l.getLast? <;> rfl
  · simp only [List.map_cons, List.sum_cons]
    omega
  · simp only [List.length_cons]
    omega
  · simp only [queueViolations, List.append_assoc]

/-- The walk ends exactly when the links do, and has then seen every node once. -/
theorem runLoop_walkNode {fuel : Nat} : runLoop (b.walkNode side price) fuel w = some w' ↔
    ∃ l, WalkEnds (fun n => (b.node n).next) w.node l ∧ l.length < fuel ∧ w' = w.after b side price l := by
  induction fuel generalizing w with
  | zero => simp [runLoop]
  | succ fuel ih =>
    cases hnode : w.node with
    | none =>
      have hnil : w.after b side price [] = w := by
        obtain ⟨node, prev, summed, counted, violations⟩ := w
        cases hnode
        simp [FifoWalk.after, queueViolations]
      rw [runLoop_stop (by rw [walkNode, hnode]), Option.some.injEq]
      constructor
      · rintro rfl
        exact ⟨[], rfl, by simp, hnil.symm⟩
      · rintro ⟨l, hwalk, -, rfl⟩
        obtain rfl : l = [] := hwalk.unique rfl
        exact hnil.symm
    | some n =>
      have hstep : b.walkNode side price w = .next (w.visit b side price n) := by rw [walkNode, hnode]
      rw [runLoop_next hstep, ih]
      constructor
      · rintro ⟨l, hwalk, hlen, rfl⟩
        exact ⟨n :: l, ⟨rfl, hwalk⟩, by simpa using hlen, (w.after_cons n l).symm⟩
      · rintro ⟨l, hwalk, hlen, rfl⟩
        cases l with
        | nil => cases hwalk
        | cons m l =>
          obtain ⟨hm, hwalk⟩ := hwalk
          cases hm
          exact ⟨l, hwalk, by simpa using hlen, w.after_cons n l⟩

/-- No node along the queue is reported if and only if all are sound and point back along the walk. -/
theorem queueViolations_eq_nil {prev : Option Nat} : queueViolations b side price prev l = [] ↔
    (∀ n ∈ l, 0 < (b.node n).order.remaining ∧ (b.node n).order.side = side) ∧
      BackLinked (fun n => (b.node n).prev) prev l := by
  induction l generalizing prev with
  | nil => simp [queueViolations, BackLinked]
  | cons n l ih =>
    have hnode : checkNode side price prev (b.node n) = [] ↔
        (0 < (b.node n).order.remaining ∧ (b.node n).order.side = side) ∧ (b.node n).prev = prev := by
      simp only [checkNode, List.append_eq_nil_iff, ite_eq_right_iff, reduceCtorEq, imp_false, not_not, Int.not_le]
    simp only [queueViolations, List.append_eq_nil_iff, ih, hnode, List.forall_mem_cons, BackLinked]
    constructor
    · rintro ⟨⟨hn, hprev⟩, hl, hback⟩
      exact ⟨⟨hn, hl⟩, hprev, hback⟩
    · rintro ⟨⟨hn, hl⟩, hprev, hback⟩
      exact ⟨⟨hn, hprev⟩, hl, hback⟩

/-- What the audit demands of one level: `l` is its queue. -/
structure LevelSound (b : OrderBook P M) (side : Side) (level : PriceLevel) (l : List Nat) : Prop where
  threaded : Threaded b.nodes level l
  length : l.length ≤ P.maxOrders
  node : ∀ n ∈ l, 0 < (b.node n).order.remaining ∧ (b.node n).order.side = side
  total : level.totalQuantity = (l.map fun n => (b.node n).order.remaining).sum
  count : level.orderCount = l.length

/-- The violations of a level come behind those found before. -/
theorem checkLevel_append (level : PriceLevel) (v : List String) :
    b.checkLevel side price level v = (b.checkLevel side price level []).map (v ++ ·) := by
  ext vs
  simp only [checkLevel, Option.map_map, Option.map_eq_some_iff, runLoop_walkNode]
  constructor
  · rintro ⟨_, ⟨l, hwalk, hlen, rfl⟩, rfl⟩
    exact ⟨_, ⟨l, hwalk, hlen, rfl⟩, by simp [FifoWalk.after, checkLevelEnd]⟩
  · rintro ⟨_, ⟨l, hwalk, hlen, rfl⟩, rfl⟩
    exact ⟨_, ⟨l, hwalk, hlen, rfl⟩, by simp [FifoWalk.after, checkLevelEnd]⟩

theorem checkLevel_eq_nil (price : Int) {level : PriceLevel} :
    b.checkLevel side price level [] = some [] ↔ ∃ l, b.LevelSound side level l := by
  unfold checkLevel
  simp only [Option.map_eq_some_iff, runLoop_walkNode]
  constructor
  · rintro ⟨_, ⟨l, hwalk, hlen, rfl⟩, hnil⟩
    obtain ⟨hqueue, hend⟩ := List.append_eq_nil_iff.1 hnil
    obtain ⟨hnodes, hback⟩ := queueViolations_eq_nil.1 (by simpa [FifoWalk.after] using hqueue)
    simp only [checkLevelEnd, FifoWalk.after, List.append_eq_nil_iff, ite_eq_right_iff, reduceCtorEq, imp_false,
      not_not, Option.or_none, zero_add] at hend
    obtain ⟨⟨htail, htotal⟩, hcount⟩ := hend
    exact ⟨l, dlist_iff.2 ⟨hwalk, hback, htail⟩, by omega, hnodes, htotal.symm, hcount.symm⟩
  · rintro ⟨l, h⟩
    obtain ⟨hwalk, hback, htail⟩ := dlist_iff.1 h.threaded
    have hlen := h.length
    refine ⟨_, ⟨l, hwalk, by omega, rfl⟩, ?_⟩
    rw [List.append_eq_nil_iff]
    constructor
    · exact queueViolations_eq_nil.2 ⟨h.node, hback⟩
    · simp [checkLevelEnd, FifoWalk.after, htail, h.total, h.count]

end

/-! ### All levels -/

section

variable {b : OrderBook P M} {side : Side}

/-- The levels of a side that are all sound add nothing to what was found before. -/
theorem checkSide_sound (hb : b.bids.Inv) (ha : b.asks.Inv)
    (h : ∀ i, ∃ l, b.LevelSound side (b.levelFor side i) l) (v : List String) : b.checkSide side v = some v := by
  have hvisit : ∀ is : List Nat, b.visitAll side
      (fun price level found => (true, found.bind (b.checkLevel side price level))) is (some v) = some v := by
    intro is
    induction is with
    | nil => rfl
    | cons i is ih =>
      have hlevel : b.checkLevel side (b.priceAt i) (b.levelFor side i) v = some v := by
        rw [checkLevel_append, (checkLevel_eq_nil _).2 (h i), Option.map_some, List.append_nil]
      simp only [visitAll, Option.bind_some, hlevel, ih]
  rw [checkSide, forEachLevel_eq hb ha, Option.join_some, hvisit]

theorem checkCrossed_eq_nil :
    b.checkCrossed = [] ↔ ∀ bid ask, b.bestBid = some bid → b.bestAsk = some ask → bid < ask := by
  unfold checkCrossed
  cases hbid : b.bestBid with
  | none => simp
  | some bid =>
    cases hask : b.bestAsk with
    | none => simp
    | some ask => simp

end

end OrderBook

/-- On a book that represents its resting orders, the crossing is all there can be to report. -/
theorem OrderBook.Rep.checkBookInvariants {P : Params} {M : Type} [DenseMap M OrderId Nat] {b : OrderBook P M}
    {rest : List Nat} (h : b.Rep rest) : b.checkBookInvariants = some b.checkCrossed := by
  have hsound : ∀ side i, ∃ l, b.LevelSound side (b.levelFor side i) l := by
    intro side i
    refine ⟨queueAt b.nodes rest side i, h.queues.threaded side i, ?_, fun n hn => ?_, h.queues.total side i,
      h.queues.count side i⟩
    · exact (List.length_filter_le _ _).trans h.length_le
    · obtain ⟨hrest, hside, -⟩ := mem_queueAt.1 hn
      exact ⟨(h.node n hrest).remaining, hside⟩
  rw [OrderBook.checkBookInvariants, checkSide_sound h.bids h.asks (hsound .buy), Option.bind_some,
    checkSide_sound h.bids h.asks (hsound .sell)]

/-- In every state that book operations lead to, the audit returns, and it reports a crossed book with its two best
prices if the best prices cross and nothing otherwise. -/
theorem audit_of_book_run {P : Params} {M : Type} [DenseMap M OrderId Nat] (symbol : SymbolId) (basePrice : Int)
    (ops : List BookOp) :
    ∃ b : OrderBook P M, b = ops.foldl apply (new P M symbol basePrice) ∧
      ((∃ bid ask, b.bestBid = some bid ∧ b.bestAsk = some ask ∧ ask ≤ bid ∧ b.checkBookInvariants =
          some ["crossed book: best_bid=" ++ toString bid ++ " >= best_ask=" ++ toString ask]) ∨
        ((∀ bid ask, b.bestBid = some bid → b.bestAsk = some ask → bid < ask) ∧
          b.checkBookInvariants = some [])) := by
  refine ⟨_, rfl, ?_⟩
  obtain ⟨rest, hrep⟩ := rep_run (P := P) (M := M) symbol basePrice ops
  generalize ops.foldl apply (new P M symbol basePrice) = b at hrep
  rw [hrep.checkBookInvariants]
  by_cases hnil : b.checkCrossed = []
  · exact Or.inr ⟨checkCrossed_eq_nil.1 hnil, by rw [hnil]⟩
  · left
    unfold checkCrossed at hnil ⊢
    cases hbid : b.bestBid with
    | none => simp [hbid] at hnil
    | some bid =>
      cases hask : b.bestAsk with
      | none => simp [hbid, hask] at hnil
      | some ask =>
        have hcross : bid ≥ ask := by
          by_contra hlt
          simp [hbid, hask, hlt] at hnil
        exact ⟨bid, ask, rfl, rfl, hcross, by simp only [if_pos hcross]⟩

/-- The audit finds nothing in an engine that refines an uncrossed reference engine. -/
theorem Refines.checkBookInvariants {P : Params} {M : Type} [DenseMap M OrderId Nat] {e : MatchingEngine P M}
    {r : RefEngine P} (hR : Refines e r) (hu : Uncrossed r.resting) : e.book.checkBookInvariants = some [] := by
  obtain ⟨rest, hrep, -⟩ := hR.holds
  rw [hrep.checkBookInvariants, checkCrossed_eq_nil.2 fun bid ask hbid hask => hR.best_lt hu hbid hask]

/-- In every state a run of matching engine calls leads to, the audit returns and finds nothing. -/
theorem audit_of_engine_run {P : Params} {M : Type} [DenseMap M OrderId Nat] (symbol : SymbolId) (basePrice : Int)
    (calls : List Call) :
    ∃ resps e, runAll MatchingEngine.call (MatchingEngine.new P M symbol basePrice) calls = some (resps, e) ∧
      e.book.checkBookInvariants = some [] := by
  obtain ⟨resps, e, r, he, -, hR, hu⟩ :=
    run_sim_uncrossed calls (refines_new (P := P) (M := M) symbol basePrice) (by intro x hx; cases hx)
  exact ⟨resps, e, he, hR.checkBookInvariants hu⟩

end Exchange
