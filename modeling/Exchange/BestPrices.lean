import Exchange.BookView
import Mathlib.Order.Bounds.Basic

/-!
# Best prices

The best bid is the highest and the best ask the lowest price of the resting orders of its side, and the bitmaps mark
exactly the levels with resting orders, however the book has been used.
-/

namespace Exchange

namespace OrderBook

variable {P : Params} {M : Type} [DenseMap M OrderId Nat]

/-- `o` is found in the book under its id. -/
def Resting (b : OrderBook P M) (o : Order) : Prop := ∃ n, b.findNode o.id = some n ∧ (b.node n).order = o

/-- The prices of the resting orders of one side. -/
def prices (b : OrderBook P M) (s : Side) : Set Int := {p | ∃ o, b.Resting o ∧ o.side = s ∧ o.price = p}

variable {b : OrderBook P M} {L : List Order}

theorem Holds.resting_iff (h : b.Holds L) {o : Order} : b.Resting o ↔ o ∈ L := by
  constructor
  · intro hrest
    obtain ⟨n, hn, rfl⟩ := hrest
    exact (h.findNode_mem hn).1
  · intro ho
    exact h.exists_node ho

theorem Holds.mem_prices (h : b.Holds L) {s : Side} {p : Int} : p ∈ b.prices s ↔ ordersAt s p L ≠ [] := by
  constructor
  · intro hp
    obtain ⟨o, ho, hs, hprice⟩ := hp
    exact List.ne_nil_of_mem (mem_ordersAt.2 ⟨h.resting_iff.1 ho, hs, hprice⟩)
  · intro hne
    obtain ⟨o, ho⟩ := List.exists_mem_of_ne_nil _ hne
    obtain ⟨hmem, hs, hprice⟩ := mem_ordersAt.1 ho
    exact ⟨o, h.resting_iff.2 hmem, hs, hprice⟩

theorem Holds.level_occupied (h : b.Holds L) (s : Side) (i : Nat) :
    (b.levelFor s i).empty = false ↔ b.priceAt i ∈ b.prices s := by
  rw [h.level_empty, h.mem_prices]

/-- The bits of the two bitmaps. -/
theorem Holds.occupied_iff (h : b.Holds L) (i : Nat) :
    (b.bids.occupied.test i = true ↔ b.priceAt i ∈ b.prices .buy) ∧
      (b.asks.occupied.test i = true ↔ b.priceAt i ∈ b.prices .sell) := by
  obtain ⟨hbids, hasks⟩ := h.ladders
  have hbuy := h.level_occupied .buy i
  have hsell := h.level_occupied .sell i
  rw [hbids.bits, hasks.bits, ← hbuy, ← hsell]
  constructor
  · rw [Bool.not_eq_true']
    rfl
  · rw [Bool.not_eq_true']
    rfl

/-- Every price of a side is that of a level. -/
theorem Holds.exists_level (h : b.Holds L) {s : Side} {p : Int} (hp : p ∈ b.prices s) : ∃ i, p = b.priceAt i := by
  obtain ⟨o, ho, -, rfl⟩ := hp
  obtain ⟨i, -, hi⟩ := h.price (h.resting_iff.1 ho)
  exact ⟨i, hi⟩

theorem Holds.isBest (h : b.Holds L) (s : Side) :
    LadderSide.IsBest (decide (s = .buy)) (fun i => b.priceAt i ∈ b.prices s) (b.bestIndexFor s) := by
  have hbest : LadderSide.IsBest (decide (s = .buy)) (fun i => (b.levelFor s i).empty = false) (b.bestIndexFor s) := by
    obtain ⟨rest, hrep, -⟩ := h
    exact hrep.isBest s
  simp only [h.level_occupied] at hbest
  exact hbest

/-- There is a best price if and only if there are resting orders. -/
theorem Holds.best_eq_none (h : b.Holds L) (s : Side) : b.bestIndexFor s = none ↔ b.prices s = ∅ := by
  have hbest := h.isBest s
  constructor
  · intro hnone
    rw [hnone] at hbest
    apply Set.eq_empty_iff_forall_notMem.2
    intro p hp
    obtain ⟨i, rfl⟩ := h.exists_level hp
    exact hbest i hp
  · intro hempty
    cases hi : b.bestIndexFor s with
    | none => rfl
    | some i =>
      rw [hi] at hbest
      have hmem := hbest.1
      rw [hempty] at hmem
      cases hmem

theorem Holds.isGreatest_of_bestBid (h : b.Holds L) {p : Int} (hp : b.bestBid = some p) :
    IsGreatest (b.prices .buy) p := by
  obtain ⟨i, hi, rfl⟩ := Option.map_eq_some_iff.1 hp
  have hbest := h.isBest .buy
  have hindex : b.bestIndexFor .buy = some i := hi
  rw [hindex] at hbest
  refine ⟨hbest.1, ?_⟩
  intro q hq
  obtain ⟨j, rfl⟩ := h.exists_level hq
  have hle := hbest.2 j hq
  simp only [LadderSide.isBetter, decide_true, ↓reduceIte, decide_eq_false_iff_not] at hle
  unfold priceAt
  omega

theorem Holds.isLeast_of_bestAsk (h : b.Holds L) {p : Int} (hp : b.bestAsk = some p) :
    IsLeast (b.prices .sell) p := by
  obtain ⟨i, hi, rfl⟩ := Option.map_eq_some_iff.1 hp
  have hbest := h.isBest .sell
  have hindex : b.bestIndexFor .sell = some i := hi
  rw [hindex] at hbest
  refine ⟨hbest.1, ?_⟩
  intro q hq
  obtain ⟨j, rfl⟩ := h.exists_level hq
  have hle := hbest.2 j hq
  simp only [LadderSide.isBetter, reduceCtorEq, decide_false, Bool.false_eq_true, ↓reduceIte,
    decide_eq_false_iff_not] at hle
  unfold priceAt
  omega

theorem Holds.bestBid_eq_none (h : b.Holds L) : b.bestBid = none ↔ b.prices .buy = ∅ := by
  rw [bestBid, Option.map_eq_none_iff]
  exact h.best_eq_none .buy

theorem Holds.bestAsk_eq_none (h : b.Holds L) : b.bestAsk = none ↔ b.prices .sell = ∅ := by
  rw [bestAsk, Option.map_eq_none_iff]
  exact h.best_eq_none .sell

/-- The best bid and the best ask in terms of the resting orders. -/
theorem Holds.best_iff (h : b.Holds L) (p : Int) :
    (b.bestBid = some p ↔ IsGreatest (b.prices .buy) p) ∧ (b.bestAsk = some p ↔ IsLeast (b.prices .sell) p) := by
  refine ⟨⟨h.isGreatest_of_bestBid, ?_⟩, ⟨h.isLeast_of_bestAsk, ?_⟩⟩
  · intro hp
    cases hbest : b.bestBid with
    | none =>
      have hmem := hp.1
      rw [h.bestBid_eq_none.1 hbest] at hmem
      cases hmem
    | some q => rw [(h.isGreatest_of_bestBid hbest).unique hp]
  · intro hp
    cases hbest : b.bestAsk with
    | none =>
      have hmem := hp.1
      rw [h.bestAsk_eq_none.1 hbest] at hmem
      cases hmem
    | some q => rw [(h.isLeast_of_bestAsk hbest).unique hp]

/-- Books with the same prices on both sides have the same best prices. -/
theorem Holds.best_congr {M' : Type} [DenseMap M' OrderId Nat] {b' : OrderBook P M'} {L' : List Order}
    (h : b.Holds L) (h' : b'.Holds L') (hprices : b'.prices = b.prices) :
    b'.bestBid = b.bestBid ∧ b'.bestAsk = b.bestAsk := by
  constructor
  · apply Option.ext
    intro p
    rw [(h'.best_iff p).1, (h.best_iff p).1, hprices]
  · apply Option.ext
    intro p
    rw [(h'.best_iff p).2, (h.best_iff p).2, hprices]

/-- However the book has been used since its construction: a bit of a bitmap is set if and only if an order rests at
its level, the best bid is the highest and the best ask the lowest price of the resting orders of its side, and there
is none if and only if there are no such orders. -/
theorem best_prices_exact (symbol : SymbolId) (basePrice : Int) (ops : List BookOp) :
    ∃ b, b = ops.foldl apply (new P M symbol basePrice) ∧
      (∀ i, (b.bids.occupied.test i = true ↔ b.priceAt i ∈ b.prices .buy) ∧
        (b.asks.occupied.test i = true ↔ b.priceAt i ∈ b.prices .sell)) ∧
      (∀ p, (b.bestBid = some p ↔ IsGreatest (b.prices .buy) p) ∧ (b.bestAsk = some p ↔ IsLeast (b.prices .sell) p)) ∧
      (b.bestBid = none ↔ b.prices .buy = ∅) ∧ (b.bestAsk = none ↔ b.prices .sell = ∅) := by
  obtain ⟨rest, hrep⟩ := rep_run (P := P) (M := M) symbol basePrice ops
  have h : (ops.foldl apply (new P M symbol basePrice)).Holds _ := ⟨rest, hrep, rfl⟩
  exact ⟨_, rfl, h.occupied_iff, h.best_iff, h.bestBid_eq_none, h.bestAsk_eq_none⟩

end OrderBook

end Exchange
