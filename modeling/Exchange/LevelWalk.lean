import Exchange.BookView

/-!
# Walking the levels of one side

`for_each_level` visits the occupied levels of a side from best to worst, each once, until the visitor stops it.  The
fill-or-kill check adds up the levels at acceptable prices until it has enough; its answer agrees with the quantity of
all acceptable orders.
-/

namespace Exchange

/-- The best index is the first one of any list of the candidates from best to worst. -/
theorem LadderSide.IsBest.eq_head? {isBid : Bool} {p : Nat → Prop} {r : Option Nat} {l : List Nat}
    (h : IsBest isBid p r) (hsorted : l.Pairwise fun i j => isBetter isBid i j = true) (hmem : ∀ j, j ∈ l ↔ p j) :
    r = l.head? := by
  cases l with
  | nil =>
    cases r with
    | none => rfl
    | some k => exact absurd ((hmem k).2 h.1) (by simp)
  | cons i l =>
    have hi := (hmem i).1 (List.mem_cons_self ..)
    cases r with
    | none => exact absurd hi (h i)
    | some k =>
      rw [List.head?_cons, Option.some.injEq]
      rcases List.mem_cons.1 ((hmem k).2 h.1) with hk | hk
      · exact hk
      · have := (List.pairwise_cons.1 hsorted).1 k hk
        rw [h.2 i hi] at this
        cases this

namespace OrderBook

section

variable {P : Params} {M : Type} {α : Type}

/-- The indices of the levels with orders, from best to worst. -/
def occupiedLevels (b : OrderBook P M) (s : Side) : List Nat :=
  (if s = .buy then (List.range P.numLevels).reverse else List.range P.numLevels).filter
    fun i => !(b.levelFor s i).empty

/-- The visitor, applied to these levels in turn until it says stop. -/
def visitAll (b : OrderBook P M) (s : Side) (visit : Int → PriceLevel → α → Bool × α) : List Nat → α → α
  | [], acc => acc
  | i :: is, acc =>
    match visit (b.priceAt i) (b.levelFor s i) acc with
    | (false, acc) => acc
    | (true, acc) => visitAll b s visit is acc

theorem occupiedLevels_sorted (b : OrderBook P M) (s : Side) :
    (b.occupiedLevels s).Pairwise fun i j => LadderSide.isBetter (decide (s = .buy)) i j = true := by
  apply List.Pairwise.filter
  cases s with
  | buy =>
    rw [if_pos rfl, List.pairwise_reverse]
    exact List.pairwise_lt_range.imp fun h => by simpa [LadderSide.isBetter] using h
  | sell =>
    rw [if_neg (by simp)]
    exact List.pairwise_lt_range.imp fun h => by simpa [LadderSide.isBetter] using h

theorem occupiedLevels_nodup (b : OrderBook P M) (s : Side) : (b.occupiedLevels s).Nodup := by
  refine (b.occupiedLevels_sorted s).imp fun h e => ?_
  rw [e, LadderSide.isBetter_self] at h
  cases h

theorem occupiedLevels_length (b : OrderBook P M) (s : Side) : (b.occupiedLevels s).length ≤ P.numLevels := by
  refine (List.length_filter_le _ _).trans ?_
  split <;> simp

theorem lt_of_mem_occupiedLevels {b : OrderBook P M} {s : Side} {i : Nat} (hi : i ∈ b.occupiedLevels s) :
    i < P.numLevels := by
  have hmem := (List.mem_filter.1 hi).1
  split at hmem <;> simpa using hmem

theorem mem_occupiedLevels {b : OrderBook P M} (hb : b.bids.Inv) (ha : b.asks.Inv) {s : Side} {i : Nat} :
    i ∈ b.occupiedLevels s ↔ (b.levelFor s i).empty = false := by
  have hrange : P.numLevels ≤ i → (b.levelFor s i).empty = true := by
    cases s with
    | buy => exact hb.range i
    | sell => exact ha.range i
  unfold occupiedLevels
  rw [List.mem_filter]
  constructor
  · intro h
    simpa using h.2
  · intro h
    have : i < P.numLevels := by
      by_contra hge
      rw [hrange (by omega)] at h
      cases h
    exact ⟨by split <;> simp [this], by simp [h]⟩

theorem bestIndexFor_eq {b : OrderBook P M} (hb : b.bids.Inv) (ha : b.asks.Inv) (s : Side) :
    b.bestIndexFor s = (b.occupiedLevels s).head? := by
  refine LadderSide.IsBest.eq_head? (p := fun i => (b.levelFor s i).empty = false) ?_ (b.occupiedLevels_sorted s)
    fun j => mem_occupiedLevels hb ha
  cases s with
  | buy => exact hb.best
  | sell => exact ha.best

/-- The level after an occupied one. -/
theorem nextAfterFor_eq {b : OrderBook P M} (hb : b.bids.Inv) (ha : b.asks.Inv) {s : Side} {pre post : List Nat}
    {i : Nat} (h : b.occupiedLevels s = pre ++ i :: post) : b.nextAfterFor s i = post.head? := by
  have hsorted := b.occupiedLevels_sorted s
  rw [h] at hsorted
  obtain ⟨-, hpost, hpre⟩ := List.pairwise_append.1 hsorted
  have hafter : LadderSide.IsBest (decide (s = .buy)) (fun j => (b.levelFor s j).empty = false ∧
      LadderSide.isBetter (decide (s = .buy)) i j = true) (b.nextAfterFor s i) := by
    cases s with
    | buy =>
      have := LadderSide.isBest_nextAfter hb.clean i
      simp only [hb.bits, Bool.not_eq_true'] at this
      exact this
    | sell =>
      have := LadderSide.isBest_nextAfter ha.clean i
      simp only [ha.bits, Bool.not_eq_true'] at this
      exact this
  refine hafter.eq_head? (List.pairwise_cons.1 hpost).2 fun j => ?_
  rw [← mem_occupiedLevels hb ha, h]
  constructor
  · intro hj
    exact ⟨by simp [hj], (List.pairwise_cons.1 hpost).1 j hj⟩
  · rintro ⟨hj, hij⟩
    rcases List.mem_append.1 hj with hj | hj
    · -- what comes before `i` is better than `i`
      have := hpre j hj i (List.mem_cons_self ..)
      rw [LadderSide.not_isBetter_trans (LadderSide.isBetter_self _ i) this] at hij
      cases hij
    · rcases List.mem_cons.1 hj with rfl | hj
      · rw [LadderSide.isBetter_self] at hij
        cases hij
      · exact hj

/-- `for_each_level` ends, and has applied the visitor to the occupied levels from best to worst. -/
theorem forEachLevel_eq {b : OrderBook P M} (hb : b.bids.Inv) (ha : b.asks.Inv) (s : Side)
    (visit : Int → PriceLevel → α → Bool × α) (acc : α) :
    b.forEachLevel s visit acc = some (b.visitAll s visit (b.occupiedLevels s) acc) := by
  have hloop : ∀ (post pre : List Nat), b.occupiedLevels s = pre ++ post → ∀ (fuel : Nat) (acc : α),
      post.length + 1 < fuel →
        runLoop (b.visitLevel s visit) fuel (post.head?, acc) = some (none, b.visitAll s visit post acc) := by
    intro post
    induction post with
    | nil =>
      intro pre _ fuel acc hfuel
      obtain ⟨fuel, rfl⟩ : ∃ k, fuel = k + 1 := ⟨fuel - 1, by omega⟩
      exact runLoop_stop rfl fuel
    | cons i post ih =>
      intro pre hocc fuel acc hfuel
      rw [List.length_cons] at hfuel
      obtain ⟨fuel, rfl⟩ : ∃ k, fuel = k + 2 := ⟨fuel - 2, by omega⟩
      cases hv : visit (b.priceAt i) (b.levelFor s i) acc with
      | mk go acc' =>
        cases go with
        | false =>
          have hstep : b.visitLevel s visit (some i, acc) = .next (none, acc') := by simp [visitLevel, hv]
          rw [List.head?_cons, runLoop_next hstep, runLoop_stop rfl]
          simp [visitAll, hv]
        | true =>
          have hstep : b.visitLevel s visit (some i, acc) = .next (post.head?, acc') := by
            simp [visitLevel, hv, nextAfterFor_eq hb ha hocc]
          rw [List.head?_cons, runLoop_next hstep, ih (pre ++ [i]) (by simpa using hocc) _ _ (by omega)]
          simp [visitAll, hv]
  unfold forEachLevel
  have hlen := b.occupiedLevels_length s
  rw [bestIndexFor_eq hb ha, hloop (b.occupiedLevels s) [] rfl _ _ (by omega)]
  rfl

/-! ### The fill-or-kill check -/

/-- The acceptable quantity at the levels `is`. -/
private def liquidityAt (b : OrderBook P M) (a : Order) (L : List Order) (is : List Nat) : Int :=
  ((L.filter fun o => acceptable a o && decide (o.price ∈ is.map b.priceAt)).map Order.remaining).sum

private theorem sum_filter_or {l : List Order} {p q : Order → Bool} (hdis : ∀ x ∈ l, p x = true → q x = false) :
    ((l.filter fun x => p x || q x).map Order.remaining).sum =
      ((l.filter p).map Order.remaining).sum + ((l.filter q).map Order.remaining).sum := by
  induction l with
  | nil => simp
  | cons x l ih =>
    have ih' := ih fun y hy => hdis y (List.mem_cons_of_mem _ hy)
    have hx := hdis x (List.mem_cons_self ..)
    simp only [List.filter_cons]
    cases hp : p x with
    | true => simp only [hx hp, Bool.or_false, if_true, List.map_cons, List.sum_cons, ih']; simp; omega
    | false =>
      cases hq : q x with
      | true => simp only [Bool.or_true, if_true, List.map_cons, List.sum_cons, ih']; simp; omega
      | false => simpa using ih'

private theorem liquidityAt_cons (b : OrderBook P M) (a : Order) (L : List Order) {i : Nat} {is : List Nat}
    (hi : i ∉ is) : liquidityAt b a L (i :: is) = (if accepts a (b.priceAt i) then
      ((ordersAt (opposite a.side) (b.priceAt i) L).map Order.remaining).sum else 0) + liquidityAt b a L is := by
  have hsplit : (fun o => acceptable a o && decide (o.price ∈ (i :: is).map b.priceAt)) = fun o : Order =>
      (acceptable a o && decide (o.price = b.priceAt i)) ||
        (acceptable a o && decide (o.price ∈ is.map b.priceAt)) := by
    funext o
    rw [← Bool.and_or_distrib_left, List.map_cons]
    simp only [List.mem_cons, Bool.decide_or]
  have hhead : L.filter (fun o => acceptable a o && decide (o.price = b.priceAt i)) =
      if accepts a (b.priceAt i) then ordersAt (opposite a.side) (b.priceAt i) L else [] := by
    split_ifs with hacc
    · unfold ordersAt
      apply List.filter_congr
      intro o _
      by_cases hp : o.price = b.priceAt i
      · simp [acceptable, hp, hacc]
      · simp [hp]
    · rw [List.filter_eq_nil_iff]
      intro o _
      by_cases hp : o.price = b.priceAt i
      · simp [acceptable, hp, hacc]
      · simp [hp]
  unfold liquidityAt
  rw [hsplit, sum_filter_or, hhead]
  · split_ifs <;> simp
  · intro o _ ho
    have hp : o.price = b.priceAt i := of_decide_eq_true (Bool.and_eq_true_iff.1 ho).2
    have hni : b.priceAt i ∉ is.map b.priceAt := by
      rw [List.mem_map]
      rintro ⟨j, hj, hji⟩
      exact hi (priceAt_inj.1 hji ▸ hj)
    simp only [hp, decide_eq_false hni, Bool.and_false]

/-- Prices get worse along the walk. -/
private theorem accepts_of_isBetter {b : OrderBook P M} {a : Order} {i j : Nat}
    (h : LadderSide.isBetter (decide (opposite a.side = .buy)) i j = true) (hj : accepts a (b.priceAt j) = true) :
    accepts a (b.priceAt i) = true := by
  rw [accepts, Bool.or_eq_true] at *
  refine hj.imp_right fun hj => ?_
  unfold priceAt LadderSide.isBetter at *
  cases hs : a.side <;> simp [hs] at * <;> omega

private theorem liquidityAt_nonneg {b : OrderBook P M} {a : Order} {L : List Order} (hpos : ∀ o ∈ L, 0 < o.remaining)
    (is : List Nat) : 0 ≤ liquidityAt b a L is := by
  refine List.sum_nonneg fun x hx => ?_
  obtain ⟨o, ho, rfl⟩ := List.mem_map.1 hx
  exact (hpos o (List.mem_filter.1 ho).1).le

private theorem liquidityAt_eq_zero {b : OrderBook P M} {a : Order} {L : List Order} {is : List Nat}
    (h : ∀ i ∈ is, accepts a (b.priceAt i) = false) : liquidityAt b a L is = 0 := by
  unfold liquidityAt
  rw [List.filter_eq_nil_iff.2]
  · rfl
  · intro o _ ho
    obtain ⟨h1, h2⟩ := Bool.and_eq_true_iff.1 ho
    obtain ⟨i, hi, hp⟩ := List.mem_map.1 (of_decide_eq_true h2)
    have := (Bool.and_eq_true_iff.1 h1).2
    rw [← hp, h i hi] at this
    cases this

private theorem visitAll_sumLiquidity {b : OrderBook P M} {L : List Order} (a : Order) (cap : Int)
    (hpos : ∀ o ∈ L, 0 < o.remaining)
    (htotal : ∀ i, (b.levelFor (opposite a.side) i).totalQuantity =
      ((ordersAt (opposite a.side) (b.priceAt i) L).map Order.remaining).sum) :
    ∀ is : List Nat, is.Nodup →
      is.Pairwise (fun i j => LadderSide.isBetter (decide (opposite a.side = .buy)) i j = true) → ∀ total : Int,
      b.visitAll (opposite a.side) (MatchingEngine.sumLiquidity a.side (a.type == .market) a.price cap) is total < cap ↔
        total + liquidityAt b a L is < cap := by
  intro is
  induction is with
  | nil => intro _ _ total; simp [visitAll, liquidityAt]
  | cons i is ih =>
    intro hnd hsorted total
    obtain ⟨hi, hnd⟩ := List.nodup_cons.1 hnd
    obtain ⟨hworse, hsorted⟩ := List.pairwise_cons.1 hsorted
    have hnn := liquidityAt_nonneg (b := b) (a := a) hpos is
    rw [liquidityAt_cons b a L hi, visitAll, MatchingEngine.sumLiquidity, ← Bool.not_or, ← accepts_eq]
    cases hacc : accepts a (b.priceAt i) with
    | false =>
      -- the first unacceptable level ends the walk, and all later ones are unacceptable too
      have hzero : liquidityAt b a L is = 0 := liquidityAt_eq_zero fun j hj => by
        by_contra hne
        rw [accepts_of_isBetter (hworse j hj) (by simpa using hne)] at hacc
        cases hacc
      rw [hzero]
      simp
    | true =>
      simp only [Bool.not_true, Bool.false_eq_true, if_false, if_true, htotal]
      by_cases hlt : total + ((ordersAt (opposite a.side) (b.priceAt i) L).map Order.remaining).sum < cap
      · rw [decide_eq_true hlt]
        dsimp only
        rw [ih hnd hsorted, add_assoc]
      · rw [decide_eq_false hlt]
        dsimp only
        omega

private theorem liquidityAt_eq_sum (b : OrderBook P M) (a : Order) (L : List Order) {is : List Nat} (hnd : is.Nodup) :
    liquidityAt b a L is = (is.map fun i => if accepts a (b.priceAt i) then
      ((ordersAt (opposite a.side) (b.priceAt i) L).map Order.remaining).sum else 0).sum := by
  induction is with
  | nil => simp [liquidityAt]
  | cons i is ih =>
    obtain ⟨hi, hnd⟩ := List.nodup_cons.1 hnd
    rw [liquidityAt_cons b a L hi, List.map_cons, List.sum_cons, ih hnd]

/-- Every acceptable order rests at an occupied level. -/
private theorem Holds.liquidityAt_occupiedLevels [DenseMap M OrderId Nat] {b : OrderBook P M} {L : List Order}
    (h : b.Holds L) (a : Order) : liquidityAt b a L (b.occupiedLevels (opposite a.side)) = liquidity a L := by
  obtain ⟨hb, ha⟩ := h.ladders
  unfold liquidityAt liquidity
  congr 2
  apply List.filter_congr
  intro o ho
  cases hacc : acceptable a o with
  | false => rfl
  | true =>
    obtain ⟨i, -, hp⟩ := h.price ho
    have hs : o.side = opposite a.side := of_decide_eq_true (Bool.and_eq_true_iff.1 hacc).1
    have hocc : i ∈ b.occupiedLevels (opposite a.side) :=
      (mem_occupiedLevels hb ha).2 ((h.level_empty _ i).2 (List.ne_nil_of_mem (mem_ordersAt.2 ⟨ho, hs, hp⟩)))
    simpa using ⟨i, hocc, hp.symm⟩

/-- The acceptable quantity is the sum of the acceptable levels. -/
theorem Holds.liquidity_eq_sum [DenseMap M OrderId Nat] {b : OrderBook P M} {L : List Order} (h : b.Holds L)
    (a : Order) : liquidity a L = ((b.occupiedLevels (opposite a.side)).map fun i =>
      if accepts a (b.priceAt i) then (b.levelFor (opposite a.side) i).totalQuantity else 0).sum := by
  rw [← h.liquidityAt_occupiedLevels, liquidityAt_eq_sum b a L (b.occupiedLevels_nodup _)]
  simp only [(h.level _ _).1]

end

/-- The quantity `available_liquidity` finds is enough if and only if the acceptable orders are. -/
theorem Holds.availableLiquidity {P : Params} {M : Type} [DenseMap M OrderId Nat] {e : MatchingEngine P M}
    {L : List Order} (h : e.book.Holds L) (a : Order) (cap : Int) :
    ∃ total, e.availableLiquidity a.side (a.type == .market) a.price cap = some total ∧
      (total < cap ↔ liquidity a L < cap) := by
  have hpos : ∀ o ∈ L, 0 < o.remaining := fun o ho => h.remaining_pos ho
  obtain ⟨hb, ha⟩ := h.ladders
  refine ⟨_, forEachLevel_eq hb ha _ _ _, ?_⟩
  rw [visitAll_sumLiquidity a cap hpos (fun i => (h.level _ i).1) _ (e.book.occupiedLevels_nodup _)
    (e.book.occupiedLevels_sorted _), zero_add, h.liquidityAt_occupiedLevels]

end OrderBook

end Exchange
