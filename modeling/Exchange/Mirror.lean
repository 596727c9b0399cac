import Exchange.Relabelling

/-!
# Bids and asks are mirror images

Swapping the sides and reflecting the prices in the middle of the ladder is a relabelling, so the engine treats the
two sides alike.
-/

namespace Exchange

variable {P : Params} {M : Type} [DenseMap M OrderId Nat]

/-- The mirror image: `base_price` and the price of the highest level change places, and so do buying and selling. -/
def mirror (P : Params) (basePrice : Int) : Relabelling P basePrice where
  side := opposite
  price p := 2 * basePrice + P.numLevels - 1 - p
  client := id
  time := id
  side_inj s t := by cases s <;> cases t <;> decide
  opposite_side _ := rfl
  crosses_price s l p := by
    cases s with
    | buy =>
      show decide (2 * basePrice + P.numLevels - 1 - l ≤ 2 * basePrice + P.numLevels - 1 - p) = decide (l ≥ p)
      rw [decide_eq_decide]
      omega
    | sell =>
      show decide (2 * basePrice + P.numLevels - 1 - l ≥ 2 * basePrice + P.numLevels - 1 - p) = decide (l ≤ p)
      rw [decide_eq_decide]
      omega
  inRange p := by omega

theorem priceAt_mirror (basePrice : Int) {i : Nat} (hi : i < P.numLevels) :
    basePrice + ((P.numLevels - 1 - i : Nat) : Int) = (mirror P basePrice).price (basePrice + (i : Int)) := by
  show _ = 2 * basePrice + P.numLevels - 1 - (basePrice + i)
  omega

/-- The mirrored run on a fresh engine has the same results and the mirrored fills, and every level of its book is the
mirror image of a level of the other side: the same orders in the same places, and the same totals. -/
theorem mirror_symmetry (symbol : SymbolId) (basePrice : Int) (calls : List Call) :
    ∃ resps e e', runAll MatchingEngine.call (MatchingEngine.new P M symbol basePrice) calls = some (resps, e) ∧
      runAll MatchingEngine.call (MatchingEngine.new P M symbol basePrice) (calls.map (mirror P basePrice).call) =
        some (resps.map (mirror P basePrice).response, e') ∧
      e'.nextMatchId = e.nextMatchId ∧ e'.book.orderCount = e.book.orderCount ∧
      ∀ s i, i < P.numLevels →
        e'.book.fifo (opposite s) (P.numLevels - 1 - i) = (e.book.fifo s i).map (mirror P basePrice).order ∧
        (e'.book.levelFor (opposite s) (P.numLevels - 1 - i)).totalQuantity = (e.book.levelFor s i).totalQuantity ∧
        (e'.book.levelFor (opposite s) (P.numLevels - 1 - i)).orderCount = (e.book.levelFor s i).orderCount := by
  obtain ⟨resps, e, e', r, hrun, hrun', h, h', hbase⟩ :=
    (mirror P basePrice).run_relabel (M := M) symbol calls
  refine ⟨resps, e, e', hrun, hrun', ?_, ?_, ?_⟩
  · rw [h'.nextMatchId, h.nextMatchId]
    rfl
  · rw [h'.holds.orderCount, h.holds.orderCount]
    exact List.length_map _
  · intro s i hi
    obtain ⟨htotal, hcount⟩ := h.holds.level s i
    obtain ⟨htotal', hcount'⟩ := h'.holds.level (opposite s) (P.numLevels - 1 - i)
    have hlevel : ordersAt (opposite s) (e'.book.priceAt (P.numLevels - 1 - i))
        ((mirror P basePrice).engine r).resting =
          (ordersAt s (e.book.priceAt i) r.resting).map (mirror P basePrice).order := by
      unfold OrderBook.priceAt
      rw [h'.basePrice, h.basePrice, show ((mirror P basePrice).engine r).basePrice = basePrice from hbase, hbase,
        priceAt_mirror basePrice hi]
      exact (mirror P basePrice).ordersAt_order s _ r.resting
    rw [h'.holds.fifo, h.holds.fifo, htotal', htotal, hcount', hcount, hlevel, List.map_map, List.length_map]
    exact ⟨rfl, rfl, rfl⟩

end Exchange
