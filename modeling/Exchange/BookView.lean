import Exchange.BookInvariant
import Exchange.Sweep

/-!
# The book as a list of orders

`OrderBook.Holds b L`: the book `b` is a correct representation of the resting orders `L`, listed in the order in
which they came to rest.  The operations of the book are then operations on the list, and its queries read off the
list.
-/

namespace Exchange

open DenseMap

/-- The orders of one side and price. -/
def ordersAt (s : Side) (p : Int) (L : List Order) : List Order :=
  L.filter fun o => decide (o.side = s ∧ o.price = p)

theorem mem_ordersAt {s : Side} {p : Int} {L : List Order} {o : Order} :
    o ∈ ordersAt s p L ↔ o ∈ L ∧ o.side = s ∧ o.price = p := by
  simp [ordersAt]

namespace OrderBook

variable {P : Params} {M : Type} [DenseMap M OrderId Nat]

def Holds (b : OrderBook P M) (L : List Order) : Prop :=
  ∃ rest, b.Rep rest ∧ L = rest.map fun n => (b.node n).order

variable {b b' : OrderBook P M} {L : List Order} {o : Order}

theorem holds_new (symbol : SymbolId) (basePrice : Int) : (new P M symbol basePrice).Holds [] :=
  ⟨[], rep_new symbol basePrice, rfl⟩

theorem Holds.ladders (h : b.Holds L) : b.bids.Inv ∧ b.asks.Inv := by
  obtain ⟨rest, hrep, -⟩ := h
  exact ⟨hrep.bids, hrep.asks⟩

theorem Holds.orderCount (h : b.Holds L) : b.orderCount = L.length := by
  obtain ⟨rest, hrep, rfl⟩ := h
  rw [List.length_map, hrep.count]

theorem Holds.liveCount (h : b.Holds L) : b.pool.liveCount = L.length := by
  obtain ⟨rest, hrep, rfl⟩ := h
  obtain ⟨free, hpool⟩ := hrep.pool
  rw [List.length_map, hpool.count]

theorem Holds.distinctIds (h : b.Holds L) : DistinctIds L := by
  obtain ⟨rest, hrep, rfl⟩ := h
  unfold DistinctIds
  rw [List.map_map]
  exact hrep.nodup.map_on fun x hx y hy hid => hrep.id_inj hx hy hid

theorem Holds.remaining_pos (h : b.Holds L) (ho : o ∈ L) : 0 < o.remaining := by
  obtain ⟨rest, hrep, rfl⟩ := h
  obtain ⟨n, hn, rfl⟩ := List.mem_map.1 ho
  exact (hrep.node n hn).remaining

theorem Holds.price (h : b.Holds L) (ho : o ∈ L) : ∃ i < P.numLevels, o.price = b.priceAt i := by
  obtain ⟨rest, hrep, rfl⟩ := h
  obtain ⟨n, hn, rfl⟩ := List.mem_map.1 ho
  exact ⟨_, (hrep.node n hn).range, (hrep.node n hn).price⟩

/-! ### Looking up -/

theorem Holds.find?_eq (h : b.Holds L) (id : OrderId) :
    (L.find? fun o => decide (o.id = id)) = (b.findNode id).map fun n => (b.node n).order := by
  have hids := h.distinctIds
  obtain ⟨rest, hrep, rfl⟩ := h
  cases hf : b.findNode id with
  | none =>
    rw [Option.map_none, List.find?_eq_none]
    intro o ho
    obtain ⟨n, hn, rfl⟩ := List.mem_map.1 ho
    have := (hrep.index id n).not.1 (by rw [show find b.orderIndex id = none from hf]; simp)
    simpa [hn] using this
  | some n =>
    obtain ⟨hn, hid⟩ := (hrep.index id n).1 hf
    have hmem := List.mem_map_of_mem (f := fun n => (b.node n).order) hn
    rw [Option.map_some]
    cases hfind : (rest.map fun n => (b.node n).order).find? fun o => decide (o.id = id) with
    | none =>
      have := List.find?_eq_none.1 hfind _ hmem
      simp [hid] at this
    | some o =>
      have hoid : o.id = id := by simpa using List.find?_some hfind
      rw [hids.eq_of_id (List.mem_of_find?_eq_some hfind) hmem (hoid.trans hid.symm)]

theorem Holds.findNode_mem (h : b.Holds L) {id : OrderId} {n : Nat} (hfind : b.findNode id = some n) :
    (b.node n).order ∈ L ∧ (b.node n).order.id = id := by
  have hfind? := h.find?_eq id
  rw [hfind, Option.map_some] at hfind?
  exact ⟨List.mem_of_find?_eq_some hfind?, by simpa using List.find?_some hfind?⟩

theorem Holds.findNode_eq_none (h : b.Holds L) (id : OrderId) :
    b.findNode id = none ↔ ∀ o ∈ L, o.id ≠ id := by
  have := h.find?_eq id
  rw [← Option.map_eq_none_iff (f := fun n => (b.node n).order), ← this, List.find?_eq_none]
  simp

theorem Holds.exists_node (h : b.Holds L) (ho : o ∈ L) : ∃ n, b.findNode o.id = some n ∧ (b.node n).order = o := by
  obtain ⟨rest, hrep, rfl⟩ := h
  obtain ⟨n, hn, rfl⟩ := List.mem_map.1 ho
  exact ⟨n, hrep.find_node hn, rfl⟩

/-- The quantity of the order with this id that is still open, 0 if it is not resting. -/
def restingQuantity (b : OrderBook P M) (id : OrderId) : Int :=
  (b.findNode id).elim 0 fun n => (b.node n).order.remaining

theorem Holds.restingQuantity_eq (h : b.Holds L) (ho : o ∈ L) : b.restingQuantity o.id = o.remaining := by
  obtain ⟨n, hn, hnode⟩ := h.exists_node ho
  rw [restingQuantity, hn, Option.elim_some, hnode]

theorem Holds.restingQuantity_eq_zero (h : b.Holds L) {id : OrderId} (hid : ∀ x ∈ L, x.id ≠ id) :
    b.restingQuantity id = 0 := by
  rw [restingQuantity, (h.findNode_eq_none id).2 hid, Option.elim_none]

/-! ### Operations -/

theorem Holds.add_ok (h : b.Holds L) (htype : o.type = .limit) (hrem : 0 < o.remaining)
    (hp : (b.indexOf o.price).isSome) (hid : ∀ x ∈ L, x.id ≠ o.id) (hcap : L.length < P.maxOrders) :
    ∃ b', b.add o = (.ok o.id, b') ∧ b'.Holds (L ++ [o]) ∧ SameInstrument b b' := by
  have hfind := (h.findNode_eq_none o.id).2 hid
  obtain ⟨rest, hrep, rfl⟩ := h
  obtain ⟨i, hi⟩ := Option.isSome_iff_exists.1 hp
  obtain ⟨n, b', hadd, -, hrep', hnew, hold, hsame⟩ :=
    hrep.add_ok htype hrem hi hfind (by simpa using hcap)
  refine ⟨b', hadd, ⟨rest ++ [n], hrep', ?_⟩, hsame⟩
  rw [List.map_append, List.map_cons, List.map_nil, hnew]
  congr 1
  exact (List.map_congr_left hold).symm

theorem Holds.add_error (h : b.Holds L)
    (hbad : ¬ (o.type = .limit ∧ 0 < o.remaining ∧ (b.indexOf o.price).isSome ∧ (∀ x ∈ L, x.id ≠ o.id) ∧
      L.length < P.maxOrders)) : ∃ e, b.add o = (.error e, b) := by
  have hfind := h.findNode_eq_none o.id
  obtain ⟨rest, hrep, rfl⟩ := h
  refine hrep.add_error fun hok => hbad ?_
  rw [List.length_map, ← hfind]
  exact hok

private theorem map_erase_eq {rest : List Nat} {n : Nat} (hrep : b.Rep rest) (hn : n ∈ rest)
    (hold : ∀ x ∈ rest.erase n, (b'.node x).order = (b.node x).order) :
    removeOrder (b.node n).order.id (rest.map fun n => (b.node n).order) =
      (rest.erase n).map fun n => (b'.node n).order := by
  rw [List.map_congr_left hold, hrep.nodup.erase_eq_filter]
  unfold removeOrder
  rw [List.filter_map]
  congr 1
  apply List.filter_congr
  intro x hx
  by_cases hxn : x = n
  · subst hxn; simp
  · have : (b.node x).order.id ≠ (b.node n).order.id := fun e => hxn (hrep.id_inj hx hn e)
    simp [hxn, this]

theorem Holds.cancel_ok (h : b.Holds L) (ho : o ∈ L) :
    ∃ b', b.cancel o.id = (.ok (), b') ∧ b'.Holds (removeOrder o.id L) ∧ SameInstrument b b' := by
  obtain ⟨rest, hrep, rfl⟩ := h
  obtain ⟨n, hn, rfl⟩ := List.mem_map.1 ho
  obtain ⟨b', hcancel, hrep', hold, hsame⟩ := hrep.cancel_ok hn
  exact ⟨b', hcancel, ⟨_, hrep', map_erase_eq hrep hn hold⟩, hsame⟩

theorem Holds.replace_ok (h : b.Holds L) (ho : o ∈ L) {p q : Int} (seq : Sequence) (ts : Int) (hq : 0 < q)
    (hp : (b.indexOf p).isSome) :
    ∃ b', b.replace o.id p q seq ts = (.ok (), b') ∧ b'.Holds (removeOrder o.id L ++ [o.replaced p q seq ts]) ∧
      SameInstrument b b' := by
  obtain ⟨rest, hrep, rfl⟩ := h
  obtain ⟨n, hn, rfl⟩ := List.mem_map.1 ho
  obtain ⟨m, b', hreplace, -, hrep', hnew, hold, hsame⟩ := hrep.replace_ok hn seq ts hq hp
  refine ⟨b', hreplace, ⟨_, hrep', ?_⟩, hsame⟩
  rw [map_erase_eq hrep hn hold, List.map_append, List.map_cons, List.map_nil, hnew]

theorem Holds.reduce (h : b.Holds L) (ho : o ∈ L) {q : Int} (hq : 0 < q) (hle : q ≤ o.remaining) :
    ∃ b', b.reduceQuantity o.id q = (.ok (), b') ∧ b'.Holds (reduceOrder o.id q L) ∧ SameInstrument b b' := by
  have hids := h.distinctIds
  obtain ⟨rest, hrep, rfl⟩ := h
  obtain ⟨n, hn, rfl⟩ := List.mem_map.1 ho
  rcases hle.lt_or_eq with hlt | rfl
  · obtain ⟨b', hred, hrep', hnew, hold, hsame⟩ := hrep.reduce_part hn hq hlt
    refine ⟨b', hred, ⟨rest, hrep', ?_⟩, hsame⟩
    unfold reduceOrder
    rw [List.filterMap_map, ← List.filterMap_eq_map]
    apply List.filterMap_congr
    intro x hx
    dsimp only [Function.comp]
    by_cases hxn : x = n
    · subst hxn
      rw [if_pos rfl, if_neg (by omega), hnew]
    · rw [if_neg fun e => hxn (hrep.id_inj hx hn e), hold x hxn]
  · obtain ⟨b', hred, hrep', hold, hsame⟩ := hrep.reduce_full hn
    refine ⟨b', hred, ⟨_, hrep', ?_⟩, hsame⟩
    rw [← map_erase_eq hrep hn hold]
    -- a full fill leaves nothing
    obtain ⟨l, r, hlr⟩ := List.append_of_mem ho
    rw [hlr] at hids ⊢
    rw [reduceOrder_append hids, removeOrder_append hids, leftover, if_pos rfl, List.append_nil]

/-! ### Levels -/

theorem Rep.queue_orders {rest : List Nat} (h : b.Rep rest) (s : Side) (i : Nat) :
    (queueAt b.nodes rest s i).map (fun n => (b.node n).order) =
      ordersAt s (b.priceAt i) (rest.map fun n => (b.node n).order) := by
  unfold ordersAt queueAt
  rw [List.filter_map]
  congr 1
  apply List.filter_congr
  intro n hn
  simp only [atLevel, Function.comp, (h.node n hn).price, priceAt_inj]
  rfl

/-- The aggregates of a level. -/
theorem Holds.level (h : b.Holds L) (s : Side) (i : Nat) :
    (b.levelFor s i).totalQuantity = ((ordersAt s (b.priceAt i) L).map Order.remaining).sum ∧
      (b.levelFor s i).orderCount = (ordersAt s (b.priceAt i) L).length := by
  obtain ⟨rest, hrep, rfl⟩ := h
  rw [← hrep.queue_orders, hrep.queues.total, hrep.queues.count, List.length_map, List.map_map]
  exact ⟨rfl, rfl⟩

theorem Holds.level_empty (h : b.Holds L) (s : Side) (i : Nat) :
    (b.levelFor s i).empty = false ↔ ordersAt s (b.priceAt i) L ≠ [] := by
  rw [PriceLevel.empty, (h.level s i).2, beq_eq_false_iff_ne, Ne, List.length_eq_zero_iff]

/-- The queue of a level, oldest first. -/
theorem Holds.fifo (h : b.Holds L) (s : Side) (i : Nat) : b.fifo s i = ordersAt s (b.priceAt i) L := by
  obtain ⟨rest, hrep, rfl⟩ := h
  unfold OrderBook.fifo
  have hlen : (queueAt b.nodes rest s i).length ≤ P.maxOrders := (List.length_filter_le _ _).trans hrep.length_le
  rw [← hrep.queue_orders, ← (hrep.queues.threaded s i).walk_eq hlen]
  rfl

theorem Holds.frontAt (h : b.Holds L) (s : Side) {i : Nat} (hi : i < P.numLevels) :
    (b.frontAt s (b.priceAt i)).map (fun n => (b.node n).order) = (ordersAt s (b.priceAt i) L).head? := by
  obtain ⟨rest, hrep, rfl⟩ := h
  unfold OrderBook.frontAt
  rw [indexOf_priceAt hi, ← hrep.queue_orders, List.head?_map, Option.bind_some,
    (hrep.queues.threaded s i).head_eq]

/-- The node at the front of a level is that of a resting order. -/
theorem Holds.frontAt_live (h : b.Holds L) {s : Side} {p : Int} {n : Nat} (hfront : b.frontAt s p = some n) :
    b.findNode (b.node n).order.id = some n := by
  obtain ⟨rest, hrep, rfl⟩ := h
  unfold OrderBook.frontAt at hfront
  obtain ⟨i, -, hhead⟩ := Option.bind_eq_some_iff.1 hfront
  rw [(hrep.queues.threaded s i).head_eq] at hhead
  exact hrep.find_node (mem_queueAt.1 (List.mem_of_head? hhead)).1

/-! ### The best price -/

theorem Rep.isBest {rest : List Nat} (h : b.Rep rest) (s : Side) :
    LadderSide.IsBest (decide (s = .buy)) (fun i => (b.levelFor s i).empty = false) (b.bestIndexFor s) := by
  cases s with
  | buy => exact h.bids.best
  | sell => exact h.asks.best

theorem Holds.best_none (h : b.Holds L) {s : Side} (hbest : b.bestIndexFor s = none) : ∀ o ∈ L, o.side ≠ s := by
  intro o ho hs
  obtain ⟨i, -, hp⟩ := h.price ho
  have hne := (h.level_empty s i).2 (List.ne_nil_of_mem (mem_ordersAt.2 ⟨ho, hs, hp⟩))
  obtain ⟨rest, hrep, -⟩ := h
  have := hrep.isBest s
  rw [hbest] at this
  exact this i hne

/-- The order at the front of the best level is the first one in price/time priority. -/
theorem Holds.best_some (h : b.Holds L) {s : Side} {i : Nat} (hbest : b.bestIndexFor s = some i) :
    ∃ n, b.frontAt s (b.priceAt i) = some n ∧ (b.node n).order ∈ ordersAt s (b.priceAt i) L ∧
      firstMin (rank (opposite s)) (L.filter fun o => decide (o.side = s)) = some (b.node n).order := by
  have hIs : LadderSide.IsBest (decide (s = .buy)) (fun i => (b.levelFor s i).empty = false) (some i) := by
    obtain ⟨rest, hrep, -⟩ := h
    rw [← hbest]
    exact hrep.isBest s
  obtain ⟨hne, hmax⟩ := hIs
  have hne' := (h.level_empty s i).1 hne
  have hi : i < P.numLevels := by
    obtain ⟨o, ho⟩ := List.exists_mem_of_ne_nil _ hne'
    obtain ⟨j, hj, hp⟩ := h.price (mem_ordersAt.1 ho).1
    rw [(mem_ordersAt.1 ho).2.2, priceAt_inj] at hp
    exact hp ▸ hj
  obtain ⟨o, ho⟩ := Option.isSome_iff_exists.1 (List.isSome_head?.2 hne')
  have hfront := h.frontAt s hi
  rw [ho, Option.map_eq_some_iff] at hfront
  obtain ⟨n, hn, rfl⟩ := hfront
  have hmem := List.mem_of_head? ho
  refine ⟨n, hn, hmem, firstMin_eq_of_find? ?_ ?_⟩
  · -- no other level of the side is better
    intro y hy
    obtain ⟨hyL, hys⟩ := List.mem_filter.1 hy
    obtain ⟨j, -, hyp⟩ := h.price hyL
    have hj := hmax j ((h.level_empty s j).2
      (List.ne_nil_of_mem (mem_ordersAt.2 ⟨hyL, by simpa using hys, hyp⟩)))
    unfold rank
    rw [(mem_ordersAt.1 hmem).2.2, hyp]
    unfold LadderSide.isBetter priceAt at *
    cases s <;> simp at hj ⊢ <;> omega
  · rw [List.find?_filter, ← List.head?_filter, ← ho]
    unfold ordersAt
    congr 1
    apply List.filter_congr
    intro y _
    rw [decide_eq_decide, decide_eq_true_eq, decide_eq_true_eq]
    refine and_congr_right fun _ => ?_
    unfold rank
    rw [(mem_ordersAt.1 hmem).2.2]
    split <;> omega

end OrderBook

end Exchange
