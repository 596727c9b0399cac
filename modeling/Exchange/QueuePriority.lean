import Exchange.Refinement
import Mathlib.Algebra.Order.Group.Int

/-!
# Time priority is never lost

While an order rests and nobody touches it, it is not overtaken.  Whatever calls come in that do not name it, if it
still rests afterwards then it rests at its price with at most its quantity, the orders ahead of it in its queue are
some of those that were ahead of it before, and there is no more quantity ahead of it than before.
-/

namespace Exchange

open OrderBook

/-- The id of the order a call is about. -/
def Call.orderId : Call → OrderId
  | .submit o _ => o.id
  | .cancel id => id
  | .replace id _ _ _ _ _ => id

/-- The orders of a queue in front of the one with this id. -/
def ahead (id : OrderId) (queue : List Order) : List Order := queue.takeWhile fun o => decide (o.id ≠ id)

/-! ### What is left of a list of orders -/

/-- `x` is what is left of `y` after some fills. -/
def LeftOf (x y : Order) : Prop := x = { y with remaining := x.remaining } ∧ x.remaining ≤ y.remaining

instance : Std.Refl LeftOf := ⟨fun _ => ⟨rfl, le_rfl⟩⟩

instance : IsTrans Order LeftOf where
  trans x y z := by
    rintro ⟨hxy, hle⟩ ⟨hyz, hle'⟩
    refine ⟨?_, hle.trans hle'⟩
    rw [hxy, hyz]

section

variable {A B L : List Order} {x y : Order} {id : OrderId} {q : Int}

theorem leftOf_reduceOrder (id : OrderId) (A : List Order) (hq : 0 ≤ q) :
    List.SublistForall₂ LeftOf (reduceOrder id q A) A := by
  induction A with
  | nil => exact .nil
  | cons y A ih =>
    unfold reduceOrder at *
    rw [List.filterMap_cons]
    by_cases hid : y.id = id
    · by_cases hrem : y.remaining = q
      · simp only [hid, hrem, if_true]
        exact .cons_right ih
      · simp only [hid, hrem, if_true, if_false]
        refine .cons ⟨by simp [hid], ?_⟩ ih
        show y.remaining - q ≤ y.remaining
        omega
    · simp only [hid, if_false]
      exact .cons ⟨rfl, le_rfl⟩ ih

/-- Fills do not move orders between queues. -/
theorem leftOf_ordersAt (h : List.SublistForall₂ LeftOf B A) (s : Side) (p : Int) :
    List.SublistForall₂ LeftOf (ordersAt s p B) (ordersAt s p A) := by
  induction h with
  | nil => exact .nil
  | @cons y z B A hyz _ ih =>
    have hside : y.side = z.side := by rw [hyz.1]
    have hprice : y.price = z.price := by rw [hyz.1]
    unfold ordersAt at *
    rw [List.filter_cons, List.filter_cons, hside, hprice]
    split_ifs
    · exact .cons hyz ih
    · exact ih
  | @cons_right z B A _ ih =>
    unfold ordersAt at *
    rw [List.filter_cons]
    split_ifs
    · exact .cons_right ih
    · exact ih

theorem leftOf_ids (h : List.SublistForall₂ LeftOf B A) : (B.map Order.id).Sublist (A.map Order.id) := by
  induction h with
  | nil => exact List.nil_sublist _
  | @cons y z B A hyz _ ih =>
    rw [List.map_cons, List.map_cons, show y.id = z.id by rw [hyz.1]]
    exact ih.cons_cons _
  | cons_right _ ih => exact ih.cons _

theorem leftOf_sum (h : List.SublistForall₂ LeftOf B A) (hA : ∀ y ∈ A, 0 ≤ y.remaining) :
    (B.map Order.remaining).sum ≤ (A.map Order.remaining).sum := by
  induction h with
  | nil =>
    refine List.sum_nonneg fun q hq => ?_
    obtain ⟨y, hy, rfl⟩ := List.mem_map.1 hq
    exact hA y hy
  | @cons y z B A hyz _ ih =>
    have hrest := ih fun w hw => hA w (List.mem_cons_of_mem _ hw)
    have hle := hyz.2
    simp only [List.map_cons, List.sum_cons]
    omega
  | @cons_right z B A _ ih =>
    have hrest := ih fun w hw => hA w (List.mem_cons_of_mem _ hw)
    have hz := hA z (List.mem_cons_self ..)
    simp only [List.map_cons, List.sum_cons]
    omega

/-- In front of an order in its queue are the orders of its level that come before it in the list. -/
theorem ahead_ordersAt (h : DistinctIds (A ++ x :: B)) :
    ahead x.id (ordersAt x.side x.price (A ++ x :: B)) = ordersAt x.side x.price A := by
  have hA : ∀ y ∈ ordersAt x.side x.price A, decide (y.id ≠ x.id) = true := by
    intro y hy
    exact decide_eq_true (h.ne_of_append y (List.mem_append_left _ (mem_ordersAt.1 hy).1))
  have hsplit : ordersAt x.side x.price (A ++ x :: B) =
      ordersAt x.side x.price A ++ x :: ordersAt x.side x.price B := by
    unfold ordersAt
    rw [List.filter_append, List.filter_cons, if_pos (by simp)]
  unfold ahead
  rw [hsplit, List.takeWhile_append_of_pos hA, List.takeWhile_cons_of_neg (by simp), List.append_nil]

end

/-! ### The place of an order -/

/-- What becomes of the order `x` with the orders `A` before it: in the list `L` it is gone, or what is left of it has
nothing before it but what is left of some of `A`. -/
def KeepsPlace (x : Order) (A L : List Order) : Prop :=
  (∀ y ∈ L, y.id ≠ x.id) ∨ ∃ A' x' B', L = A' ++ x' :: B' ∧ LeftOf x' x ∧ List.SublistForall₂ LeftOf A' A

section

variable {A L : List Order} {x : Order} {id : OrderId} {q : Int}

theorem keepsPlace_self (A B : List Order) (x : Order) : KeepsPlace x A (A ++ x :: B) :=
  Or.inr ⟨A, x, B, rfl, ⟨rfl, le_rfl⟩, (List.Sublist.refl A).sublistForall₂⟩

theorem KeepsPlace.append (h : KeepsPlace x A L) {o : Order} (ho : o.id ≠ x.id) : KeepsPlace x A (L ++ [o]) := by
  rcases h with hgone | ⟨A', x', B', rfl, hx, hA⟩
  · left
    intro y hy
    rcases List.mem_append.1 hy with hy | hy
    · exact hgone y hy
    · obtain rfl : y = o := by simpa using hy
      exact ho
  · exact Or.inr ⟨A', x', B' ++ [o], by simp, hx, hA⟩

theorem KeepsPlace.removeOrder (h : KeepsPlace x A L) (hid : id ≠ x.id) : KeepsPlace x A (removeOrder id L) := by
  rcases h with hgone | ⟨A', x', B', rfl, hx, hA⟩
  · exact Or.inl fun y hy => hgone y (mem_removeOrder.1 hy).1
  · have hx' : x'.id ≠ id := by rw [hx.1]; exact Ne.symm hid
    refine Or.inr ⟨Exchange.removeOrder id A', x', Exchange.removeOrder id B', ?_, hx, ?_⟩
    · unfold Exchange.removeOrder
      rw [List.filter_append, List.filter_cons, if_pos (by simpa using hx')]
    · exact IsTrans.trans _ _ _ (List.Sublist.sublistForall₂ List.filter_sublist) hA

theorem KeepsPlace.reduceOrder (h : KeepsPlace x A L) (hids : DistinctIds L) (hq : 0 ≤ q) (id : OrderId) :
    KeepsPlace x A (reduceOrder id q L) := by
  have hmem : ∀ {l : List Order} {y : Order}, y ∈ Exchange.reduceOrder id q l → ∃ z ∈ l, z.id = y.id := by
    intro l y hy
    have hids := (leftOf_ids (leftOf_reduceOrder id l hq)).subset (List.mem_map_of_mem hy)
    exact List.mem_map.1 hids
  rcases h with hgone | ⟨A', x', B', rfl, hx, hA⟩
  · refine Or.inl fun y hy => ?_
    obtain ⟨z, hz, hzy⟩ := hmem hy
    exact hzy ▸ hgone z hz
  · have hxid : x'.id = x.id := by rw [hx.1]
    have hA' : List.SublistForall₂ LeftOf (Exchange.reduceOrder id q A') A :=
      IsTrans.trans _ _ _ (leftOf_reduceOrder id A' hq) hA
    have hsplit : Exchange.reduceOrder id q (A' ++ x' :: B') =
        Exchange.reduceOrder id q A' ++ (Exchange.reduceOrder id q [x'] ++ Exchange.reduceOrder id q B') := by
      unfold Exchange.reduceOrder
      rw [← List.filterMap_append, ← List.filterMap_append, List.singleton_append]
    rw [hsplit]
    cases hleft : Exchange.reduceOrder id q [x'] with
    | nil =>
      -- the order is used up, and no other order has its id
      have hne := hids.ne_of_append
      refine Or.inl fun y hy => ?_
      rw [List.nil_append] at hy
      rw [← hxid]
      rcases List.mem_append.1 hy with hy | hy
      · obtain ⟨z, hz, hzy⟩ := hmem hy
        exact hzy ▸ hne z (List.mem_append_left _ hz)
      · obtain ⟨z, hz, hzy⟩ := hmem hy
        exact hzy ▸ hne z (List.mem_append_right _ hz)
    | cons x'' rest =>
      have hone := leftOf_reduceOrder id [x'] hq
      rw [hleft] at hone
      refine Or.inr ⟨_, x'', rest ++ Exchange.reduceOrder id q B', rfl, ?_, hA'⟩
      cases hone with
      | cons hx'' _ => exact IsTrans.trans _ _ _ hx'' hx
      | cons_right h => cases h

end

namespace RefEngine

variable {P : Params} {r r' : RefEngine P} {a a' o x : Order} {A : List Order} {fs : List Fill}

theorem Sweep.keepsPlace (h : Sweep a r fs a' r') (hr : r.Valid) (hx : KeepsPlace x A r.resting) :
    KeepsPlace x A r'.resting := by
  induction h with
  | done a r => exact hx
  | @fill a o a' r r' fs hpos hpick _ ih =>
    have ho := (pick_mem hpick).1
    have hopen := hr.remaining_pos o ho
    exact ih (hr.afterFill ho a) (hx.reduceOrder hr.ids (by omega) o.id)

theorem Submitted.keepsPlace {res : NewOrderResult} (h : Submitted r o res r' fs) (hr : r.Valid) (ho : o.id ≠ x.id)
    (hx : KeepsPlace x A r.resting) : KeepsPlace x A r'.resting := by
  cases h with
  | refused _ _ => exact hx
  | rested hexec _ _ _ _ =>
    refine (hexec.sweep.keepsPlace hr hx).append ?_
    rw [hexec.aggressor]
    exact ho
  | full hexec _ _ _ _ => exact hexec.sweep.keepsPlace hr hx
  | ended hexec _ => exact hexec.sweep.keepsPlace hr hx

theorem call_keepsPlace (hr : r.Valid) (hx : KeepsPlace x A r.resting) {c : Call} (hc : c.orderId ≠ x.id)
    {resp : Response} (h : r.call c = some (resp, r')) : KeepsPlace x A r'.resting := by
  cases c with
  | submit o out =>
    obtain ⟨res, r₁, fs, hsubmit, hsub⟩ := submit_submitted hr o out
    rw [call, hsubmit] at h
    cases h
    exact hsub.keepsPlace hr hc hx
  | cancel id =>
    cases h
    unfold cancel
    split
    · exact hx.removeOrder hc
    · exact hx
  | replace id p q seq ts out =>
    obtain ⟨res, r₁, fs, hreplace, hrep⟩ := replace_replaced hr id p q seq ts out
    rw [call, hreplace] at h
    cases h
    cases hrep with
    | unknownOrder _ => exact hx
    | invalidQuantity _ _ => exact hx
    | invalidPrice _ _ _ => exact hx
    | resubmitted _ hid _ _ hsub =>
      refine hsub.keepsPlace (hr.removeOrder id) ?_ (hx.removeOrder hc)
      show _ ≠ x.id
      rw [show (Order.replaced _ p q seq ts).id = _ from hid]
      exact hc

end RefEngine

/-! ### The engine -/

section

variable {P : Params} {M : Type} [DenseMap M OrderId Nat]

/-- On the way from `b` to `b'`, the order `o` with this id has become `o'` and has not been overtaken: it rests at
the same price for no more than before, and those ahead of it are some of those ahead of it before, for no more
quantity than before. -/
structure PlaceKept (b b' : OrderBook P M) (id : OrderId) (o o' : Order) : Prop where
  order : o' = { o with remaining := o'.remaining }
  remaining : o'.remaining ≤ o.remaining
  ahead : ∀ i, b.priceAt i = o.price →
    ((ahead id (b'.fifo o.side i)).map Order.id).Sublist ((ahead id (b.fifo o.side i)).map Order.id)
  quantity : ∀ i, b.priceAt i = o.price →
    ((Exchange.ahead id (b'.fifo o.side i)).map Order.remaining).sum ≤
      ((Exchange.ahead id (b.fifo o.side i)).map Order.remaining).sum

variable {e e' : MatchingEngine P M} {r r' : RefEngine P} {x : Order} {A B : List Order}

theorem Refines.run_keepsPlace (hR : Refines e r) (hx : KeepsPlace x A r.resting) {calls : List Call}
    (hcalls : ∀ c ∈ calls, c.orderId ≠ x.id) :
    ∃ resps e' r', runAll MatchingEngine.call e calls = some (resps, e') ∧ Refines e' r' ∧
      r'.basePrice = r.basePrice ∧ KeepsPlace x A r'.resting := by
  induction calls generalizing e r with
  | nil => exact ⟨[], e, r, rfl, hR, rfl, hx⟩
  | cons c calls ih =>
    obtain ⟨resp, e₁, r₁, he, hr, hR₁, -, hbase⟩ := call_sim hR c
    have hx₁ := RefEngine.call_keepsPlace hR.valid hx (hcalls c (List.mem_cons_self ..)) hr
    obtain ⟨resps, e', r', hrun, hR', hbase', hx'⟩ := ih hR₁ hx₁ fun d hd => hcalls d (List.mem_cons_of_mem _ hd)
    exact ⟨resp :: resps, e', r', by rw [runAll_cons he, hrun]; rfl, hR', hbase'.trans hbase, hx'⟩

/-- The place of an order in the list, seen in the queues of the book. -/
theorem KeepsPlace.placeKept (hR : Refines e r) (hR' : Refines e' r') (hbase : r'.basePrice = r.basePrice)
    (hrest : r.resting = A ++ x :: B) (hx : KeepsPlace x A r'.resting) {y : Order} (hy : y ∈ r'.resting)
    (hid : y.id = x.id) : PlaceKept e.book e'.book x.id x y := by
  have hprice : ∀ i, e'.book.priceAt i = e.book.priceAt i := by
    intro i
    unfold OrderBook.priceAt
    rw [hR.basePrice, hR'.basePrice, hbase]
  rcases hx with hgone | ⟨A', x', B', hrest', hx', hA⟩
  · exact absurd hid (hgone y hy)
  · have hyx : y = x' := hR'.valid.ids.eq_of_id hy (by rw [hrest']; simp) (by rw [hid, hx'.1])
    subst hyx
    have hahead : ∀ i, e.book.priceAt i = x.price → ahead x.id (e.book.fifo x.side i) = ordersAt x.side x.price A := by
      intro i hi
      rw [hR.holds.fifo, hi, hrest]
      exact ahead_ordersAt (hrest ▸ hR.valid.ids)
    have hahead' : ∀ i, e.book.priceAt i = x.price →
        ahead x.id (e'.book.fifo x.side i) = ordersAt x.side x.price A' := by
      intro i hi
      have hself := ahead_ordersAt (hrest' ▸ hR'.valid.ids)
      rw [hR'.holds.fifo, hprice, hi, hrest']
      rwa [hid, show y.side = x.side by rw [hx'.1], show y.price = x.price by rw [hx'.1]] at hself
    have hleft := leftOf_ordersAt hA x.side x.price
    refine ⟨hx'.1, hx'.2, fun i hi => ?_, fun i hi => ?_⟩
    · rw [hahead i hi, hahead' i hi]
      exact leftOf_ids hleft
    · rw [hahead i hi, hahead' i hi]
      refine leftOf_sum hleft fun z hz => ?_
      exact (hR.valid.remaining_pos z (by rw [hrest]; simp [(mem_ordersAt.1 hz).1])).le

end

/-- An order that nobody touches is not overtaken: after any history, and after any further calls that do not name its
id, if it still rests then it has kept its place. -/
theorem priority_kept {P : Params} {M : Type} [DenseMap M OrderId Nat] (symbol : SymbolId) (basePrice : Int)
    (history calls : List Call) (id : OrderId) (hcalls : ∀ c ∈ calls, c.orderId ≠ id) :
    ∃ past e resps e',
      runAll MatchingEngine.call (MatchingEngine.new P M symbol basePrice) history = some (past, e) ∧
      runAll MatchingEngine.call e calls = some (resps, e') ∧
      ∀ n n', e.book.findNode id = some n → e'.book.findNode id = some n' →
        PlaceKept e.book e'.book id (e.book.node n).order (e'.book.node n').order := by
  obtain ⟨past, e, r, he, -, hR, -⟩ := run_sim (P := P) (M := M) symbol basePrice history
  by_cases hrests : ∃ x ∈ r.resting, x.id = id
  · obtain ⟨x, hmem, rfl⟩ := hrests
    obtain ⟨A, B, hrest⟩ := List.append_of_mem hmem
    obtain ⟨resps, e', r', hrun, hR', hbase, hx⟩ :=
      hR.run_keepsPlace (hrest ▸ keepsPlace_self A B x) hcalls
    refine ⟨past, e, resps, e', he, hrun, fun n n' hn hn' => ?_⟩
    obtain ⟨hnmem, hnid⟩ := hR.holds.findNode_mem hn
    obtain ⟨hmem', hid'⟩ := hR'.holds.findNode_mem hn'
    rw [hR.valid.ids.eq_of_id hnmem hmem hnid]
    exact hx.placeKept hR hR' hbase hrest hmem' hid'
  · have hfree : ∀ y ∈ r.resting, y.id ≠ id := fun y hy hyid => hrests ⟨y, hy, hyid⟩
    obtain ⟨resps, e', -, hrun, -⟩ := hR.run_keepsPlace (x := { id := id }) (A := []) (Or.inl hfree) hcalls
    refine ⟨past, e, resps, e', he, hrun, fun n n' hn _ => ?_⟩
    rw [(hR.holds.findNode_eq_none id).2 hfree] at hn
    cases hn

/-- A bid behind another one at its price, while a seller trades with the first. -/
theorem priority_kept_behind : ∃ past e resps e',
    runAll MatchingEngine.call (MatchingEngine.new tinyParams IdMap 7 100)
      [.submit { id := 1, symbol := 7, price := 101, quantity := 5 } [],
        .submit { id := 2, symbol := 7, price := 101, quantity := 3 } []] = some (past, e) ∧
    runAll MatchingEngine.call e [.submit { id := 3, symbol := 7, side := .sell, price := 101, quantity := 2 } []] =
      some (resps, e') ∧
    ∀ n n', e.book.findNode 2 = some n → e'.book.findNode 2 = some n' →
      PlaceKept e.book e'.book 2 (e.book.node n).order (e'.book.node n').order :=
  priority_kept 7 100 _ _ 2 (by decide)

end Exchange
