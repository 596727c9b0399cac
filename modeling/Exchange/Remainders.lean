import Exchange.QueuePriority
import Exchange.Rejection
import Exchange.Traversal

/-!
# What becomes of an order, told before it is matched

Whether the remainder of an order will rest, and whether the order fills a given resting one completely, shows in the
book before the order is matched: in the quantity at the prices it accepts, in the quantity that trades before the
resting order, and in the slots and ids that are in use.
-/

namespace Exchange

open OrderBook DenseMap

/-! ### Orders in front of another one -/

/-- The quantity an aggressor `a` trades until the order `x` is used up, with `A` before and `B` after `x` in the
list. -/
def quantityThrough (a x : Order) (A B : List Order) : Int :=
  ((A.filter fun y => acceptable a y && decide (rank a.side y ≤ rank a.side x)).map Order.remaining).sum +
    ((B.filter fun y => acceptable a y && decide (rank a.side y < rank a.side x)).map Order.remaining).sum + x.remaining

section

variable {a x : Order} {A B : List Order}

theorem reduceOrder_distrib (id : OrderId) (q : Int) (A B : List Order) :
    reduceOrder id q (A ++ B) = reduceOrder id q A ++ reduceOrder id q B := List.filterMap_append

theorem sum_remaining_nonneg {L : List Order} (h : ∀ y ∈ L, 0 < y.remaining) (p : Order → Bool) :
    0 ≤ ((L.filter p).map Order.remaining).sum := by
  refine List.sum_nonneg fun q hq => ?_
  obtain ⟨y, hy, rfl⟩ := List.mem_map.1 hq
  exact (h y (List.mem_filter.1 hy).1).le

theorem remaining_le_quantityThrough (h : ∀ y ∈ A ++ x :: B, 0 < y.remaining) :
    x.remaining ≤ quantityThrough a x A B := by
  have hA := sum_remaining_nonneg (L := A) (fun y hy => h y (by simp [hy]))
    fun y => acceptable a y && decide (rank a.side y ≤ rank a.side x)
  have hB := sum_remaining_nonneg (L := B) (fun y hy => h y (by simp [hy]))
    fun y => acceptable a y && decide (rank a.side y < rank a.side x)
  unfold quantityThrough
  omega

theorem quantityThrough_first (hA : ∀ y ∈ A.filter (acceptable a), rank a.side x < rank a.side y)
    (hB : ∀ y ∈ B.filter (acceptable a), rank a.side x ≤ rank a.side y) :
    quantityThrough a x A B = x.remaining := by
  have hnilA : (A.filter fun y => acceptable a y && decide (rank a.side y ≤ rank a.side x)) = [] := by
    refine List.filter_eq_nil_iff.2 fun y hy hboth => ?_
    obtain ⟨hacc, hle⟩ := Bool.and_eq_true_iff.1 hboth
    exact absurd (hA y (List.mem_filter.2 ⟨hy, hacc⟩)) (not_lt.2 (of_decide_eq_true hle))
  have hnilB : (B.filter fun y => acceptable a y && decide (rank a.side y < rank a.side x)) = [] := by
    refine List.filter_eq_nil_iff.2 fun y hy hboth => ?_
    obtain ⟨hacc, hlt⟩ := Bool.and_eq_true_iff.1 hboth
    exact absurd (hB y (List.mem_filter.2 ⟨hy, hacc⟩)) (not_le.2 (of_decide_eq_true hlt))
  rw [quantityThrough, hnilA, hnilB]
  simp

theorem quantityThrough_before {o : Order} (hids : DistinctIds (A ++ x :: B)) (ho : o ∈ A)
    (hacc : acceptable a o = true) (hle : rank a.side o ≤ rank a.side x) (q : Int) :
    reduceOrder o.id q (A ++ x :: B) = reduceOrder o.id q A ++ x :: B ∧
      quantityThrough a x (reduceOrder o.id q A) B = quantityThrough a x A B - q := by
  have hne : ∀ y ∈ x :: B, y.id ≠ o.id := by
    obtain ⟨l, r, rfl⟩ := List.append_of_mem ho
    rw [List.append_assoc] at hids
    exact fun y hy => hids.ne_of_append y (by simp at hy ⊢; tauto)
  constructor
  · rw [reduceOrder_distrib, reduceOrder_of_ne hne]
  · have hsum := sum_filter_reduceOrder (p := fun y => acceptable a y && decide (rank a.side y ≤ rank a.side x))
      (fun _ _ => rfl) (hids.of_sublist ((List.sublist_append_left A _).map _)) ho q
    rw [if_pos (by simp [hacc, hle])] at hsum
    rw [quantityThrough, hsum, quantityThrough]
    omega

theorem quantityThrough_after {o : Order} (hids : DistinctIds (A ++ x :: B)) (ho : o ∈ B)
    (hacc : acceptable a o = true) (hlt : rank a.side o < rank a.side x) (q : Int) :
    reduceOrder o.id q (A ++ x :: B) = A ++ x :: reduceOrder o.id q B ∧
      quantityThrough a x A (reduceOrder o.id q B) = quantityThrough a x A B - q := by
  have hne : ∀ y ∈ A ++ [x], y.id ≠ o.id := by
    obtain ⟨l, r, rfl⟩ := List.append_of_mem ho
    rw [show A ++ x :: (l ++ o :: r) = (A ++ x :: l) ++ o :: r by simp] at hids
    exact fun y hy => hids.ne_of_append y (by simp at hy ⊢; tauto)
  constructor
  · rw [List.append_cons A x B, reduceOrder_distrib, reduceOrder_of_ne hne]
    simp
  · have hsub : B.Sublist (A ++ x :: B) := ((List.sublist_cons_self x B).trans (List.sublist_append_right A _))
    have hsum := sum_filter_reduceOrder (p := fun y => acceptable a y && decide (rank a.side y < rank a.side x))
      (fun _ _ => rfl) (hids.of_sublist (hsub.map _)) ho q
    rw [if_pos (by simp [hacc, hlt])] at hsum
    rw [quantityThrough, hsum, quantityThrough]
    omega

end

namespace RefEngine

variable {P : Params} {r r' : RefEngine P} {a a' o x : Order} {fs : List Fill}

theorem Sweep.gone_of_not_mem (h : Sweep a r fs a' r') (hr : r.Valid) {id : OrderId}
    (hid : ∀ y ∈ r.resting, y.id ≠ id) : ∀ y ∈ r'.resting, y.id ≠ id := by
  intro y hy
  obtain ⟨z, hz, hyz⟩ := h.mem hr hy
  rw [hyz]
  exact hid z hz

theorem Sweep.mem_of_unacceptable (h : Sweep a r fs a' r') (hr : r.Valid) (hx : x ∈ r.resting)
    (hacc : acceptable a x = false) : x ∈ r'.resting := by
  have hmem : x ∈ r.resting.filter fun y => !acceptable a y := List.mem_filter.2 ⟨hx, by simp [hacc]⟩
  rw [← h.unacceptable hr] at hmem
  exact (List.mem_filter.1 hmem).1

/-- A settled sweep uses up an acceptable order if and only if its quantity covers the order and all that trade before
it. -/
theorem Sweep.gone_iff (h : Sweep a r fs a' r') (hr : r.Valid) (hend : Settled a' r') {A B : List Order}
    (hsplit : r.resting = A ++ x :: B) (hacc : acceptable a x = true) :
    (∀ y ∈ r'.resting, y.id ≠ x.id) ↔ quantityThrough a x A B ≤ a.remaining := by
  induction h generalizing A B with
  | done a r =>
    have hx : x ∈ r.resting := by simp [hsplit]
    have hspent : ¬ 0 < a.remaining := by
      intro hpos
      rw [pick_eq_none.1 (hend hpos) x hx] at hacc
      cases hacc
    have hle := remaining_le_quantityThrough (a := a) (hsplit ▸ hr.remaining_pos)
    have hxpos := hr.remaining_pos x hx
    exact iff_of_false (fun hgone => hgone x hx rfl) (by omega)
  | @fill a o a' r r' fs hpos hpick hrest ih =>
    obtain ⟨ho, hoacc⟩ := pick_mem hpick
    have hvalid := hr.afterFill ho a
    have hids := hr.ids
    have hpick' := hpick
    rw [hsplit] at hids
    rw [pick, hsplit, List.filter_append, List.filter_cons, if_pos hacc] at hpick'
    rcases firstMin_append_cons_cases hpick' with ⟨hoA, hle⟩ | ⟨rfl, hA, hB⟩ | ⟨hoB, hlt⟩
    · obtain ⟨hreduce, hthrough⟩ :=
        quantityThrough_before hids (List.mem_filter.1 hoA).1 hoacc hle (min a.remaining o.remaining)
      have hnext : quantityThrough a x (reduceOrder o.id (min a.remaining o.remaining) A) B ≤ _ ↔ _ :=
        (ih hvalid hend (by rw [RefEngine.afterFill, hsplit, hreduce]) hacc).symm
      rw [← hnext, hthrough]
      dsimp only
      omega
    · -- the order itself is next
      rw [quantityThrough_first hA hB]
      have hxpos := hr.remaining_pos o ho
      by_cases hcovers : o.remaining ≤ a.remaining
      · refine iff_of_true (hrest.gone_of_not_mem hvalid fun y hy => ?_) hcovers
        rcases (mem_reduceOrder hr.ids ho).1 hy with ⟨-, hne⟩ | ⟨-, hne⟩
        · exact hne
        · exact absurd (by omega) hne
      · refine iff_of_false (fun hgone => ?_) hcovers
        -- the aggressor is filled, and the sweep ends here
        cases hrest with
        | done => 
          refine hgone _ ((mem_reduceOrder hr.ids ho).2 (Or.inr ⟨rfl, by omega⟩)) rfl
        | fill hpos' _ _ =>
          dsimp only at hpos'
          omega
    · obtain ⟨hreduce, hthrough⟩ :=
        quantityThrough_after hids (List.mem_filter.1 hoB).1 hoacc hlt (min a.remaining o.remaining)
      have hnext : quantityThrough a x A (reduceOrder o.id (min a.remaining o.remaining) B) ≤ _ ↔ _ :=
        (ih hvalid hend (by rw [RefEngine.afterFill, hsplit, hreduce]) hacc).symm
      rw [← hnext, hthrough]
      dsimp only
      omega

/-! ### Whether a remainder rests -/

/-- A Day Limit order that can rest: its price is on the ladder, no order it does not trade with has its id, and there
is a free slot, or there will be one after the order has traded. -/
structure FindsRoom (r : RefEngine P) (o : Order) : Prop where
  type : o.type = .limit
  tif : o.tif = .day
  price : r.InRange o.price
  id : ∀ x ∈ r.resting, x.id = o.id → acceptable o x = true
  room : r.resting.length < P.maxOrders ∨ ∃ x ∈ r.resting, acceptable o x = true

theorem Executed.canRest_iff (h : r.Executed o fs a r') (hr : r.Valid) (hpos : 0 < a.remaining)
    (htype : o.type = .limit) (htif : o.tif = .day) : r'.CanRest a ↔ r.FindsRoom o := by
  have hres : r'.resting = r.resting.filter fun x => !acceptable o x :=
    (h.sweep.exhausted hr h.settled hpos).1
  have hprice : a.price = o.price := by rw [h.aggressor]
  have hid : a.id = o.id := by rw [h.aggressor]
  have hrange : r'.InRange a.price ↔ r.InRange o.price := by
    rw [InRange, InRange, h.sweep.instrument.2, hprice]
  have hfree : (∀ x ∈ r'.resting, x.id ≠ a.id) ↔ ∀ x ∈ r.resting, x.id = o.id → acceptable o x = true := by
    have htaken := not_congr (h.id_taken_iff hr hpos o.id)
    rw [hid]
    simpa using htaken
  have hroom : r'.resting.length < P.maxOrders ↔
      r.resting.length < P.maxOrders ∨ ∃ x ∈ r.resting, acceptable o x = true := by
    have hle := hr.length
    by_cases hex : ∃ x ∈ r.resting, acceptable o x = true
    · have hlt : r'.resting.length < r.resting.length := by
        rw [hres, List.length_filter_lt_length_iff_exists]
        simpa using hex
      exact iff_of_true (by omega) (Or.inr hex)
    · have hall : r'.resting = r.resting := by
        rw [hres, List.filter_eq_self]
        intro x hx
        by_contra hacc
        exact hex ⟨x, hx, by simpa using hacc⟩
      rw [hall]
      exact (or_iff_left hex).symm
  constructor
  · intro hrest
    exact ⟨htype, htif, hrange.1 hrest.1, hfree.1 hrest.2.1, hroom.1 hrest.2.2⟩
  · intro hrest
    exact ⟨hrange.2 hrest.price, hfree.2 hrest.id, hroom.2 hrest.room⟩

/-- `o` is refused before matching. -/
def Refuses (r : RefEngine P) (o : Order) : Prop :=
  o.symbol ≠ r.symbol ∨ o.quantity ≤ 0 ∨ o.tif = .fok ∧ liquidity o r.resting < o.quantity

theorem Refused.refuses {reason : RejectReason} (h : r.Refused o reason) : r.Refuses o := by
  cases reason <;> simp only [Refused] at h
  case unknownSymbol => exact Or.inl h
  case invalidQuantity => exact Or.inr (Or.inl h.2)
  case fokNotFillable => exact Or.inr (Or.inr h.2.2)

theorem Executed.not_refuses (h : r.Executed o fs a r') : ¬ r.Refuses o := by
  rintro (hsymbol | hquantity | ⟨htif, hshort⟩)
  · exact hsymbol h.symbol
  · exact absurd h.quantity (not_lt.2 hquantity)
  · exact absurd (h.fillable htif) (not_le.2 hshort)

theorem Submitted.rested_iff {res : NewOrderResult} (h : r.Submitted o res r' fs) (hr : r.Valid) :
    res.rested = true ↔ ¬ r.Refuses o ∧ liquidity o r.resting < o.quantity ∧ r.FindsRoom o := by
  cases h with
  | refused reason href => exact iff_of_false (by simp) fun h => h.1 href.refuses
  | rested hx hpos htype htif hrest =>
    exact iff_of_true rfl
      ⟨hx.not_refuses, (hx.remaining_pos_iff hr).1 hpos, (hx.canRest_iff hr hpos htype htif).1 hrest⟩
  | full hx hpos htype htif hfull =>
    exact iff_of_false (by simp) fun h => hfull ((hx.canRest_iff hr hpos htype htif).2 h.2.2)
  | ended hx hend =>
    exact iff_of_false (by simp) fun h => hend ⟨(hx.remaining_pos_iff hr).2 h.2.1, h.2.2.type, h.2.2.tif⟩

end RefEngine

/-! ### Reading it off the book -/

section

variable {P : Params} {M : Type}

/-- The quantity resting at the prices `o` accepts. -/
def OrderBook.coverage (b : OrderBook P M) (o : Order) : Int :=
  (((b.priceLevels (opposite o.side)).filter fun l => accepts o l.1).map fun l => l.2.totalQuantity).sum

/-- The quantity on the side of `x` that trades before `x` is used up: the levels with a better price, the orders in
front of it in its queue, and `x` itself. -/
def OrderBook.quantityThrough (b : OrderBook P M) (x : Order) : Int :=
  (((b.priceLevels x.side).filter fun l => decide (if x.side = .buy then x.price < l.1 else l.1 < x.price)).map
      fun l => l.2.totalQuantity).sum +
    ((ahead x.id ((b.indexOf x.price).elim [] (b.fifo x.side))).map Order.remaining).sum + x.remaining

variable [DenseMap M OrderId Nat]

/-- `o` is refused before matching. -/
def OrderBook.Refuses (b : OrderBook P M) (o : Order) : Prop :=
  o.symbol ≠ b.symbol ∨ o.quantity ≤ 0 ∨ o.tif = .fok ∧ b.coverage o < o.quantity

/-- A Day Limit order that can rest. -/
structure OrderBook.FindsRoom (b : OrderBook P M) (o : Order) : Prop where
  type : o.type = .limit
  tif : o.tif = .day
  price : (b.indexOf o.price).isSome
  id : ∀ n, b.findNode o.id = some n → acceptable o (b.node n).order = true
  room : b.orderCount < P.maxOrders ∨ ∃ id n, b.findNode id = some n ∧ acceptable o (b.node n).order = true

variable {b : OrderBook P M} {L : List Order} {o x : Order}

theorem OrderBook.Holds.coverage (h : b.Holds L) (o : Order) : b.coverage o = liquidity o L := by
  rw [h.liquidity_eq_sum]
  unfold OrderBook.coverage priceLevels
  induction b.occupiedLevels (opposite o.side) with
  | nil => rfl
  | cons i is ih =>
    rw [List.map_cons, List.filter_cons, List.map_cons, List.sum_cons, ← ih]
    by_cases hacc : accepts o (b.priceAt i) <;> simp [hacc]

theorem OrderBook.Holds.forall_node (h : b.Holds L) (id : OrderId) (p : Order → Prop) :
    (∀ n, b.findNode id = some n → p (b.node n).order) ↔ ∀ x ∈ L, x.id = id → p x := by
  constructor
  · rintro hall x hx rfl
    obtain ⟨n, hn, rfl⟩ := h.exists_node hx
    exact hall n hn
  · intro hall n hn
    obtain ⟨hmem, hid⟩ := h.findNode_mem hn
    exact hall _ hmem hid

theorem OrderBook.Holds.exists_node_iff (h : b.Holds L) (p : Order → Prop) :
    (∃ id n, b.findNode id = some n ∧ p (b.node n).order) ↔ ∃ x ∈ L, p x := by
  constructor
  · rintro ⟨id, n, hn, hp⟩
    exact ⟨_, (h.findNode_mem hn).1, hp⟩
  · rintro ⟨x, hx, hp⟩
    obtain ⟨n, hn, rfl⟩ := h.exists_node hx
    exact ⟨_, n, hn, hp⟩

variable {e : MatchingEngine P M} {r : RefEngine P}

theorem Refines.refuses_iff (h : Refines e r) : e.book.Refuses o ↔ r.Refuses o := by
  rw [OrderBook.Refuses, RefEngine.Refuses, h.symbol, h.holds.coverage]

theorem Refines.findsRoom_iff (h : Refines e r) : e.book.FindsRoom o ↔ r.FindsRoom o := by
  have hid := h.holds.forall_node o.id fun x => acceptable o x = true
  have hex := h.holds.exists_node_iff fun x => acceptable o x = true
  have hcount : e.book.orderCount = r.resting.length := h.holds.orderCount
  constructor
  · rintro ⟨htype, htif, hprice, hfree, hroom⟩
    rw [hcount, hex] at hroom
    exact ⟨htype, htif, (h.indexOf_isSome _).1 hprice, hid.1 hfree, hroom⟩
  · rintro ⟨htype, htif, hprice, hfree, hroom⟩
    rw [← hcount, ← hex] at hroom
    exact ⟨htype, htif, (h.indexOf_isSome _).2 hprice, hid.2 hfree, hroom⟩

/-- A limit order one tick better than `x`: it trades with what is better priced. -/
def improving (x : Order) : Order :=
  { side := opposite x.side, price := if x.side = .buy then x.price + 1 else x.price - 1 }

theorem accepts_improving (x : Order) (p : Int) :
    accepts (improving x) p = true ↔ if x.side = .buy then x.price < p else p < x.price := by
  have htype : ((improving x).type == OrderType.market) = false := rfl
  rw [accepts, htype, Bool.false_or, decide_eq_true_iff]
  unfold improving
  cases x.side
  · show x.price + 1 ≤ p ↔ x.price < p
    omega
  · show p ≤ x.price - 1 ↔ p < x.price
    omega

theorem opposite_improving (x : Order) : opposite (improving x).side = x.side := by
  unfold improving
  cases x.side <;> rfl

theorem acceptable_improving (x y : Order) :
    acceptable (improving x) y = true ↔
      y.side = x.side ∧ if x.side = .buy then x.price < y.price else y.price < x.price := by
  rw [acceptable, opposite_improving, Bool.and_eq_true, decide_eq_true_iff, accepts_improving]

theorem acceptable_side {a : Order} (h : acceptable a x = true) : x.side = opposite a.side :=
  of_decide_eq_true (Bool.and_eq_true_iff.1 h).1

/-- With an order, an aggressor accepts all orders of its side that rank no worse. -/
theorem acceptable_mono {a y : Order} (hx : acceptable a x = true) (hside : y.side = x.side)
    (hle : rank a.side y ≤ rank a.side x) : acceptable a y = true := by
  rw [acceptable, hside, acceptable_side hx, accepts_mono hle (Bool.and_eq_true_iff.1 hx).2]
  simp

theorem rank_lt_iff_price {a y : Order} (hx : acceptable a x = true) :
    rank a.side y < rank a.side x ↔ if x.side = .buy then x.price < y.price else y.price < x.price := by
  rw [acceptable_side hx]
  unfold rank
  cases a.side <;> simp [opposite]

theorem acceptable_before {a : Order} (hx : acceptable a x = true) :
    (fun y => acceptable a y && decide (rank a.side y < rank a.side x)) = acceptable (improving x) := by
  funext y
  rw [Bool.eq_iff_iff, acceptable_improving, ← rank_lt_iff_price hx, Bool.and_eq_true, decide_eq_true_iff]
  constructor
  · rintro ⟨hy, hlt⟩
    exact ⟨(acceptable_side hy).trans (acceptable_side hx).symm, hlt⟩
  · rintro ⟨hside, hlt⟩
    exact ⟨acceptable_mono hx hside hlt.le, hlt⟩

theorem acceptable_level {a : Order} (hx : acceptable a x = true) :
    (fun y => acceptable a y && decide (rank a.side y = rank a.side x)) =
      fun y => decide (y.side = x.side ∧ y.price = x.price) := by
  funext y
  have hprice : rank a.side y = rank a.side x ↔ y.price = x.price := by
    unfold rank
    split_ifs <;> omega
  rw [Bool.eq_iff_iff, Bool.and_eq_true, decide_eq_true_iff, decide_eq_true_iff, hprice]
  constructor
  · rintro ⟨hy, heq⟩
    exact ⟨(acceptable_side hy).trans (acceptable_side hx).symm, heq⟩
  · rintro ⟨hside, heq⟩
    exact ⟨acceptable_mono hx hside (hprice.2 heq).le, heq⟩

/-- A sum over the orders up to a rank, and the part of it at that rank. -/
theorem sum_filter_le (p : Order → Bool) (f : Order → Int) (k : Int) (L : List Order) :
    ((L.filter fun y => p y && decide (f y ≤ k)).map Order.remaining).sum =
      ((L.filter fun y => p y && decide (f y < k)).map Order.remaining).sum +
        ((L.filter fun y => p y && decide (f y = k)).map Order.remaining).sum := by
  induction L with
  | nil => rfl
  | cons y L ih =>
    simp only [List.filter_cons, Bool.and_eq_true, decide_eq_true_iff]
    rcases lt_trichotomy (f y) k with hlt | heq | hgt
    · by_cases hp : p y = true
      · simp [hp, hlt, hlt.le, hlt.ne, ih, add_assoc]
      · simp [hp, ih]
    · by_cases hp : p y = true
      · simp [hp, heq, ih]
        omega
      · simp [hp, ih]
    · simp [hgt.not_ge, hgt.not_gt, hgt.ne', ih]

theorem OrderBook.Holds.quantityThrough {a : Order} {A B : List Order} (h : b.Holds (A ++ x :: B))
    (hx : acceptable a x = true) : b.quantityThrough x = Exchange.quantityThrough a x A B := by
  have hbetter : (((b.priceLevels x.side).filter fun l =>
      decide (if x.side = .buy then x.price < l.1 else l.1 < x.price)).map fun l => l.2.totalQuantity).sum =
        liquidity (improving x) (A ++ x :: B) := by
    rw [← h.coverage, OrderBook.coverage, opposite_improving]
    congr 2
    refine List.filter_congr fun l _ => ?_
    rw [Bool.eq_iff_iff, accepts_improving, decide_eq_true_iff]
  have hahead : ahead x.id ((b.indexOf x.price).elim [] (b.fifo x.side)) = ordersAt x.side x.price A := by
    obtain ⟨i, hi, hprice⟩ := h.price (List.mem_append_right A (List.mem_cons_self ..))
    rw [hprice, indexOf_priceAt hi, Option.elim_some, h.fifo, ← hprice, ahead_ordersAt h.distinctIds]
  have hself : acceptable (improving x) x = false := by
    rw [← acceptable_before hx]
    simp
  rw [OrderBook.quantityThrough, hbetter, hahead, Exchange.quantityThrough, sum_filter_le, acceptable_before hx,
    acceptable_level hx, liquidity, List.filter_append, List.filter_cons_of_neg (by simp [hself]), List.map_append,
    List.sum_append, ordersAt]
  omega

end

end Exchange
