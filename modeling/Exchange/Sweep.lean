import Exchange.Reference
import Mathlib.Algebra.Order.BigOperators.Group.List

/-!
# What an incoming order does to the reference book

The match loop of the reference engine always ends, and its effect is a `Sweep`: a sequence of fills, each against the
order `pick` chooses.  A sweep conserves quantity, touches only acceptable orders, and ends with the aggressor filled
or with no acceptable order left.
-/

namespace Exchange

/-! ### The list of resting orders -/

def DistinctIds (resting : List Order) : Prop := (resting.map Order.id).Nodup

section

variable {L : List Order} {o x : Order} {id : OrderId} {q : Int}

theorem DistinctIds.eq_of_id (h : DistinctIds L) (hx : x ∈ L) (ho : o ∈ L) (hid : x.id = o.id) : x = o :=
  List.inj_on_of_nodup_map h hx ho hid

theorem DistinctIds.of_sublist {L' : List Order} (h : DistinctIds L) (hs : (L'.map Order.id).Sublist (L.map Order.id)) :
    DistinctIds L' := List.Nodup.sublist hs h

/-- The orders before and after a given one have other ids. -/
theorem DistinctIds.ne_of_append {l r : List Order} (h : DistinctIds (l ++ o :: r)) :
    ∀ x ∈ l ++ r, x.id ≠ o.id := by
  have h' : (o.id :: (l ++ r).map Order.id).Nodup := by
    unfold DistinctIds at h
    rw [List.map_append, List.map_cons] at h
    rw [List.map_append]
    exact List.nodup_middle.1 h
  intro x hx e
  exact (List.nodup_cons.1 h').1 (List.mem_map.2 ⟨x, hx, e⟩)

theorem reduceOrder_of_ne (h : ∀ x ∈ L, x.id ≠ id) : reduceOrder id q L = L := by
  unfold reduceOrder
  induction L with
  | nil => rfl
  | cons x L ih =>
    rw [List.filterMap_cons, if_neg (h x (List.mem_cons_self ..))]
    exact congrArg (x :: ·) (ih fun y hy => h y (List.mem_cons_of_mem _ hy))

theorem removeOrder_of_ne (h : ∀ x ∈ L, x.id ≠ id) : removeOrder id L = L :=
  List.filter_eq_self.2 fun x hx => by simpa using h x hx

/-- What is left of `o` after a fill of `q`. -/
def leftover (o : Order) (q : Int) : List Order :=
  if o.remaining = q then [] else [{ o with remaining := o.remaining - q }]

theorem reduceOrder_append {l r : List Order} (h : DistinctIds (l ++ o :: r)) :
    reduceOrder o.id q (l ++ o :: r) = l ++ leftover o q ++ r := by
  have hne := h.ne_of_append
  have hl := reduceOrder_of_ne (q := q) fun x hx => hne x (List.mem_append_left _ hx)
  have hr := reduceOrder_of_ne (q := q) fun x hx => hne x (List.mem_append_right _ hx)
  unfold reduceOrder leftover at *
  rw [List.filterMap_append, List.filterMap_cons, hl, hr, if_pos rfl]
  split_ifs <;> simp

theorem removeOrder_append {l r : List Order} (h : DistinctIds (l ++ o :: r)) :
    removeOrder o.id (l ++ o :: r) = l ++ r := by
  have hne := h.ne_of_append
  have hl := removeOrder_of_ne fun x hx => hne x (List.mem_append_left _ hx)
  have hr := removeOrder_of_ne fun x hx => hne x (List.mem_append_right _ hx)
  unfold removeOrder at *
  rw [List.filter_append, List.filter_cons, hl, hr]
  simp

theorem mem_removeOrder : x ∈ removeOrder id L ↔ x ∈ L ∧ x.id ≠ id := by
  simp [removeOrder]

theorem DistinctIds.removeOrder (h : DistinctIds L) (id : OrderId) : DistinctIds (removeOrder id L) :=
  h.of_sublist (List.filter_sublist.map _)

/-- A fill takes nothing but quantity: it keeps the order of whatever else the orders carry. -/
theorem map_reduceOrder_sublist {α : Type} {f : Order → α} (hf : ∀ o q, f { o with remaining := q } = f o)
    (h : DistinctIds L) (ho : o ∈ L) (q : Int) : ((reduceOrder o.id q L).map f).Sublist (L.map f) := by
  have hleft : ((leftover o q).map f).Sublist [f o] := by
    unfold leftover
    split_ifs
    · exact List.nil_sublist _
    · rw [List.map_singleton, hf]
  obtain ⟨l, r, rfl⟩ := List.append_of_mem ho
  rw [reduceOrder_append h]
  simp only [List.map_append, List.map_cons, List.append_assoc]
  exact (List.Sublist.refl _).append (hleft.append (List.Sublist.refl _))

theorem DistinctIds.reduceOrder (h : DistinctIds L) (ho : o ∈ L) (q : Int) : DistinctIds (reduceOrder o.id q L) :=
  h.of_sublist (map_reduceOrder_sublist (fun _ _ => rfl) h ho q)

/-- An order after a fill is an order from before it, but for its remaining quantity. -/
theorem mem_reduceOrder (h : DistinctIds L) (ho : o ∈ L) : x ∈ reduceOrder o.id q L ↔
    x ∈ L ∧ x.id ≠ o.id ∨ x = { o with remaining := o.remaining - q } ∧ o.remaining ≠ q := by
  obtain ⟨l, r, rfl⟩ := List.append_of_mem ho
  have hne := h.ne_of_append
  have hleft : x ∈ leftover o q ↔ x = { o with remaining := o.remaining - q } ∧ o.remaining ≠ q := by
    unfold leftover
    split_ifs with hq <;> simp [hq]
  rw [reduceOrder_append h, List.mem_append, List.mem_append, hleft]
  constructor
  · rintro ((hx | hx) | hx)
    · exact Or.inl ⟨by simp [hx], hne x (by simp [hx])⟩
    · exact Or.inr hx
    · exact Or.inl ⟨by simp [hx], hne x (by simp [hx])⟩
  · rintro (⟨hx, hxid⟩ | hx)
    · rcases List.mem_append.1 hx with hx | hx
      · exact Or.inl (Or.inl hx)
      · rcases List.mem_cons.1 hx with rfl | hx
        · exact absurd rfl hxid
        · exact Or.inr hx
    · exact Or.inl (Or.inr hx)

theorem length_reduceOrder_le (id : OrderId) (q : Int) (L : List Order) : (reduceOrder id q L).length ≤ L.length :=
  List.length_filterMap_le _ _

end

/-! ### What is filled against one order -/

def filledAgainst (id : OrderId) (fs : List Fill) : Int :=
  ((fs.filter fun f => decide (f.restingOrderId = id)).map Fill.quantity).sum

def remainingOf (id : OrderId) (resting : List Order) : Int :=
  ((resting.filter fun o => decide (o.id = id)).map Order.remaining).sum

theorem filledAgainst_cons (id : OrderId) (f : Fill) (fs : List Fill) :
    filledAgainst id (f :: fs) = (if f.restingOrderId = id then f.quantity else 0) + filledAgainst id fs := by
  unfold filledAgainst
  rw [List.filter_cons]
  by_cases hid : f.restingOrderId = id <;> simp [hid]

theorem filledAgainst_append (id : OrderId) (fs gs : List Fill) :
    filledAgainst id (fs ++ gs) = filledAgainst id fs + filledAgainst id gs := by
  unfold filledAgainst
  rw [List.filter_append, List.map_append, List.sum_append]

theorem filledAgainst_nonneg {fs : List Fill} (h : ∀ f ∈ fs, 0 < f.quantity) (id : OrderId) :
    0 ≤ filledAgainst id fs := by
  refine List.sum_nonneg fun q hq => ?_
  obtain ⟨f, hf, rfl⟩ := List.mem_map.1 hq
  exact (h f (List.mem_filter.1 hf).1).le

theorem remainingOf_eq {L : List Order} {o : Order} (h : DistinctIds L) (ho : o ∈ L) :
    remainingOf o.id L = o.remaining := by
  obtain ⟨l, r, rfl⟩ := List.append_of_mem ho
  have hne := h.ne_of_append
  have hl : l.filter (fun x => decide (x.id = o.id)) = [] :=
    List.filter_eq_nil_iff.2 fun x hx => by simpa using hne x (List.mem_append_left _ hx)
  have hr : r.filter (fun x => decide (x.id = o.id)) = [] :=
    List.filter_eq_nil_iff.2 fun x hx => by simpa using hne x (List.mem_append_right _ hx)
  unfold remainingOf
  rw [List.filter_append, List.filter_cons, hl, hr]
  simp

theorem remainingOf_eq_zero {L : List Order} {id : OrderId} (h : ∀ x ∈ L, x.id ≠ id) : remainingOf id L = 0 := by
  unfold remainingOf
  rw [List.filter_eq_nil_iff.2 fun x hx => by simpa using h x hx]
  rfl

/-- A fill takes its quantity from every sum over orders that are chosen by anything but their remaining quantity. -/
theorem sum_filter_reduceOrder {p : Order → Bool}
    (hp : ∀ (x : Order) (q : Int), p { x with remaining := x.remaining - q } = p x) {L : List Order} {o : Order}
    (h : DistinctIds L) (ho : o ∈ L) (q : Int) :
    (((reduceOrder o.id q L).filter p).map Order.remaining).sum =
      ((L.filter p).map Order.remaining).sum - if p o then q else 0 := by
  obtain ⟨l, r, rfl⟩ := List.append_of_mem ho
  have hleft : (((leftover o q).filter p).map Order.remaining).sum = if p o then o.remaining - q else 0 := by
    unfold leftover
    by_cases hq : o.remaining = q
    · simp [hq]
    · rw [if_neg hq, List.filter_singleton, hp]
      cases p o <;> simp
  rw [reduceOrder_append h]
  simp only [List.filter_append, List.filter_cons, List.map_append, List.sum_append, hleft]
  cases p o
  · simp
  · simp
    omega

theorem remainingOf_reduceOrder {L : List Order} {o : Order} (h : DistinctIds L) (ho : o ∈ L) (q : Int) (id : OrderId) :
    remainingOf id (reduceOrder o.id q L) = remainingOf id L - if o.id = id then q else 0 := by
  have hsum := sum_filter_reduceOrder (p := fun x => decide (x.id = id)) (fun _ _ => rfl) h ho q
  simpa only [remainingOf, decide_eq_true_eq] using hsum

/-! ### Acceptable orders -/

section

variable {L : List Order} {a o : Order} {q : Int}

theorem pick_mem (h : pick a L = some o) : o ∈ L ∧ acceptable a o = true :=
  List.mem_filter.1 (firstMin_mem h)

theorem acceptable_of_side_eq (h : o.side = a.side) : acceptable a o = false := by
  unfold acceptable
  cases hs : a.side <;> simp [h, hs, opposite]

theorem pick_eq_none : pick a L = none ↔ ∀ o ∈ L, acceptable a o = false := by
  unfold pick
  rw [firstMin_eq_none, List.filter_eq_nil_iff]
  simp

private theorem acceptable_leftover (hacc : acceptable a o = true) :
    (leftover o q).filter (acceptable a) = leftover o q := by
  unfold leftover
  split_ifs
  · rfl
  · exact List.filter_eq_self.2 fun x hx => by
      obtain rfl : x = _ := by simpa using hx
      exact hacc

theorem liquidity_reduceOrder (h : DistinctIds L) (ho : o ∈ L) (hacc : acceptable a o = true) (q : Int) :
    liquidity a (reduceOrder o.id q L) = liquidity a L - q := by
  have hsum := sum_filter_reduceOrder (p := acceptable a) (fun _ _ => rfl) h ho q
  rwa [if_pos hacc] at hsum

theorem liquidity_reduceOrder_le (h : DistinctIds L) (ho : o ∈ L) (hq : 0 ≤ q) (x : Order) :
    liquidity x (reduceOrder o.id q L) ≤ liquidity x L := by
  have hsum : liquidity x (reduceOrder o.id q L) = _ :=
    sum_filter_reduceOrder (p := acceptable x) (fun _ _ => rfl) h ho q
  rw [hsum, liquidity]
  split_ifs <;> omega

theorem unacceptable_reduceOrder (h : DistinctIds L) (ho : o ∈ L) (hacc : acceptable a o = true) (q : Int) :
    (reduceOrder o.id q L).filter (fun x => !acceptable a x) = L.filter fun x => !acceptable a x := by
  obtain ⟨l, r, rfl⟩ := List.append_of_mem ho
  have hnil : (leftover o q).filter (fun x => !acceptable a x) = [] := by
    rw [← acceptable_leftover (q := q) hacc, List.filter_filter]
    simp
  rw [reduceOrder_append h, List.filter_append, List.filter_append, hnil, List.filter_append, List.filter_cons]
  simp [hacc]

theorem liquidity_nonneg (hpos : ∀ o ∈ L, 0 < o.remaining) : 0 ≤ liquidity a L := by
  refine List.sum_nonneg fun x hx => ?_
  obtain ⟨o, ho, rfl⟩ := List.mem_map.1 hx
  exact (hpos o (List.mem_filter.1 ho).1).le

end

/-! ### Valid engines -/

namespace RefEngine

variable {P : Params}

/-- What holds of every order in the book. -/
structure Restable (r : RefEngine P) (o : Order) : Prop where
  remaining : 0 < o.remaining
  type : o.type = .limit
  tif : o.tif = .day
  symbol : o.symbol = r.symbol
  range : r.InRange o.price

structure Valid (r : RefEngine P) : Prop where
  ids : DistinctIds r.resting
  order : ∀ o ∈ r.resting, r.Restable o
  length : r.resting.length ≤ P.maxOrders

theorem valid_new (symbol : SymbolId) (basePrice : Int) : (new P symbol basePrice).Valid where
  ids := List.nodup_nil
  order := by simp [new]
  length := Nat.zero_le _

variable {r r' : RefEngine P} {a a' o : Order} {fs : List Fill}

theorem Valid.remaining_pos (h : r.Valid) : ∀ o ∈ r.resting, 0 < o.remaining := fun o ho => (h.order o ho).remaining

theorem Valid.afterFill (h : r.Valid) (ho : o ∈ r.resting) (a : Order) : (r.afterFill a o).Valid where
  ids := h.ids.reduceOrder ho _
  order x hx := by
    rcases (mem_reduceOrder h.ids ho).1 hx with ⟨hx, -⟩ | ⟨rfl, hne⟩
    · obtain ⟨h1, h2, h3, h4, h5⟩ := h.order x hx
      exact ⟨h1, h2, h3, h4, h5⟩
    · obtain ⟨h1, h2, h3, h4, h5⟩ := h.order o ho
      refine ⟨?_, h2, h3, h4, h5⟩
      show 0 < o.remaining - min a.remaining o.remaining
      omega
  length := (length_reduceOrder_le _ _ _).trans h.length

theorem Valid.removeOrder (h : r.Valid) (id : OrderId) :
    ({ r with resting := Exchange.removeOrder id r.resting } : RefEngine P).Valid where
  ids := h.ids.removeOrder id
  order x hx := by
    obtain ⟨h1, h2, h3, h4, h5⟩ := h.order x (mem_removeOrder.1 hx).1
    exact ⟨h1, h2, h3, h4, h5⟩
  length := (List.length_filter_le _ _).trans h.length

theorem Valid.rest (h : r.Valid) (hrest : r.CanRest o) (hpos : 0 < o.remaining) (htype : o.type = .limit)
    (htif : o.tif = .day) (hsym : o.symbol = r.symbol) :
    ({ r with resting := r.resting ++ [o] } : RefEngine P).Valid where
  ids := by
    unfold DistinctIds
    rw [List.map_append, List.nodup_append]
    refine ⟨h.ids, by simp, ?_⟩
    rintro x hx y hy
    obtain ⟨o', ho', rfl⟩ := List.mem_map.1 hx
    obtain rfl : y = o.id := by simpa using hy
    exact hrest.2.1 o' ho'
  order x hx := by
    rcases List.mem_append.1 hx with hx | hx
    · obtain ⟨h1, h2, h3, h4, h5⟩ := h.order x hx
      exact ⟨h1, h2, h3, h4, h5⟩
    · obtain rfl : x = o := by simpa using hx
      exact ⟨hpos, htype, htif, hsym, hrest.1⟩
  length := by
    rw [List.length_append]
    exact hrest.2.2

/-! ### Sweeps -/

/-- The fills `fs` of the aggressor `a` in the engine `r`, which end with `a'` and `r'`. -/
inductive Sweep : Order → RefEngine P → List Fill → Order → RefEngine P → Prop
  | done (a : Order) (r : RefEngine P) : Sweep a r [] a r
  | fill {a o a' : Order} {r r' : RefEngine P} {fs : List Fill} (hpos : 0 < a.remaining)
      (hpick : pick a r.resting = some o)
      (hrest : Sweep { a with remaining := a.remaining - min a.remaining o.remaining } (r.afterFill a o) fs a' r') :
      Sweep a r (fillOf r.nextMatchId a o o.price (min a.remaining o.remaining) :: fs) a' r'

theorem Sweep.snoc (h : Sweep a r fs a' r') (hpos : 0 < a'.remaining) (hpick : pick a' r'.resting = some o) :
    Sweep a r (fs ++ [fillOf r'.nextMatchId a' o o.price (min a'.remaining o.remaining)])
      { a' with remaining := a'.remaining - min a'.remaining o.remaining } (r'.afterFill a' o) := by
  induction h with
  | done a r => exact .fill hpos hpick (.done _ _)
  | fill hpos' hpick' _ ih => exact .fill hpos' hpick' (ih hpos hpick)

theorem Sweep.valid (h : Sweep a r fs a' r') (hr : r.Valid) : r'.Valid := by
  induction h with
  | done a r => exact hr
  | fill _ hpick _ ih => exact ih (hr.afterFill (pick_mem hpick).1 _)

theorem Sweep.instrument (h : Sweep a r fs a' r') : r'.symbol = r.symbol ∧ r'.basePrice = r.basePrice := by
  induction h with
  | done a r => exact ⟨rfl, rfl⟩
  | fill _ _ _ ih => exact ih

theorem Sweep.length_le (h : Sweep a r fs a' r') : r'.resting.length ≤ r.resting.length := by
  induction h with
  | done a r => exact le_rfl
  | fill _ _ _ ih => exact ih.trans (length_reduceOrder_le _ _ _)

theorem Sweep.map_sublist {α : Type} {f : Order → α} (hf : ∀ o q, f { o with remaining := q } = f o)
    (h : Sweep a r fs a' r') (hr : r.Valid) : (r'.resting.map f).Sublist (r.resting.map f) := by
  induction h with
  | done a r => exact List.Sublist.refl _
  | fill _ hpick _ ih =>
    have ho := (pick_mem hpick).1
    exact (ih (hr.afterFill ho _)).trans (map_reduceOrder_sublist hf hr.ids ho _)

/-- Only the remaining quantity of the aggressor changes. -/
theorem Sweep.aggressor (h : Sweep a r fs a' r') : a' = { a with remaining := a'.remaining } := by
  induction h with
  | done a r => rfl
  | fill _ _ _ ih => exact ih

theorem Sweep.remaining_nonneg (h : Sweep a r fs a' r') (ha : 0 ≤ a.remaining) : 0 ≤ a'.remaining := by
  induction h with
  | done a r => exact ha
  | fill hpos _ _ ih =>
    apply ih
    show 0 ≤ _ - min _ _
    omega

theorem Sweep.quantity (h : Sweep a r fs a' r') : (fs.map Fill.quantity).sum + a'.remaining = a.remaining := by
  induction h with
  | done a r => simp
  | fill _ _ _ ih =>
    rw [List.map_cons, List.sum_cons, add_assoc, ih]
    simp [fillOf]

theorem Sweep.liquidity (h : Sweep a r fs a' r') (hr : r.Valid) :
    Exchange.liquidity a r'.resting = Exchange.liquidity a r.resting - (a.remaining - a'.remaining) := by
  induction h with
  | done a r => simp
  | @fill a o a' r r' fs _ hpick _ ih =>
    obtain ⟨ho, hacc⟩ := pick_mem hpick
    have hstep := liquidity_reduceOrder hr.ids ho hacc (min a.remaining o.remaining)
    have := ih (hr.afterFill ho _)
    change Exchange.liquidity a r'.resting = Exchange.liquidity a (reduceOrder _ _ _) - _ at this
    rw [this, hstep]
    dsimp only
    omega

/-- A sweep leaves less for every other order. -/
theorem Sweep.liquidity_le (h : Sweep a r fs a' r') (hr : r.Valid) (x : Order) :
    Exchange.liquidity x r'.resting ≤ Exchange.liquidity x r.resting := by
  induction h with
  | done a r => exact le_rfl
  | @fill a o a' r r' fs hpos hpick _ ih =>
    obtain ⟨ho, -⟩ := pick_mem hpick
    have hrem := hr.remaining_pos o ho
    have hq : 0 ≤ min a.remaining o.remaining := by omega
    exact (ih (hr.afterFill ho _)).trans (liquidity_reduceOrder_le hr.ids ho hq x)

/-- Orders the aggressor does not accept are not touched. -/
theorem Sweep.unacceptable (h : Sweep a r fs a' r') (hr : r.Valid) :
    r'.resting.filter (fun x => !acceptable a x) = r.resting.filter fun x => !acceptable a x := by
  induction h with
  | done a r => rfl
  | @fill a o a' r r' fs _ hpick _ ih =>
    obtain ⟨ho, hacc⟩ := pick_mem hpick
    exact (ih (hr.afterFill ho _)).trans (unacceptable_reduceOrder hr.ids ho hacc _)

/-- What a sweep takes from an order is what the order loses. -/
theorem Sweep.filledAgainst (h : Sweep a r fs a' r') (hr : r.Valid) (id : OrderId) :
    Exchange.filledAgainst id fs + remainingOf id r'.resting = remainingOf id r.resting := by
  induction h with
  | done a r => simp [Exchange.filledAgainst]
  | @fill a o a' r r' fs _ hpick _ ih =>
    obtain ⟨ho, -⟩ := pick_mem hpick
    have hstep := remainingOf_reduceOrder hr.ids ho (min a.remaining o.remaining) id
    have hrest := ih (hr.afterFill ho a)
    change _ = remainingOf id (reduceOrder _ _ _) at hrest
    rw [hstep] at hrest
    rw [filledAgainst_cons, add_assoc, hrest]
    exact add_sub_cancel _ _

/-- What rests after a sweep rested before it, but for the remaining quantities. -/
theorem Sweep.mem (h : Sweep a r fs a' r') (hr : r.Valid) {x : Order} (hx : x ∈ r'.resting) :
    ∃ y ∈ r.resting, x = { y with remaining := x.remaining } := by
  induction h with
  | done a r => exact ⟨x, hx, rfl⟩
  | @fill a o a' r r' fs _ hpick _ ih =>
    obtain ⟨ho, -⟩ := pick_mem hpick
    obtain ⟨y, hy, hxy⟩ := ih (hr.afterFill ho _) hx
    rcases (mem_reduceOrder hr.ids ho).1 hy with ⟨hy, -⟩ | ⟨rfl, -⟩
    · exact ⟨y, hy, hxy⟩
    · exact ⟨o, ho, hxy⟩

/-- An order that is not filled completely is left in the book, with nothing but its remaining quantity changed. -/
theorem Sweep.survives (h : Sweep a r fs a' r') (hr : r.Valid) {x : Order} (hx : x ∈ r.resting)
    (hlt : Exchange.filledAgainst x.id fs < x.remaining) :
    { x with remaining := x.remaining - Exchange.filledAgainst x.id fs } ∈ r'.resting := by
  have hsum := h.filledAgainst hr x.id
  rw [remainingOf_eq hr.ids hx] at hsum
  by_cases hgone : ∀ y ∈ r'.resting, y.id ≠ x.id
  · rw [remainingOf_eq_zero hgone] at hsum
    omega
  · push Not at hgone
    obtain ⟨y, hy, hid⟩ := hgone
    obtain ⟨z, hz, hyz⟩ := h.mem hr hy
    have hzid : z.id = x.id := by rw [← hid, hyz]
    obtain rfl := hr.ids.eq_of_id hz hx hzid
    have hleft := remainingOf_eq (h.valid hr).ids hy
    rw [hid] at hleft
    have hrem : z.remaining - Exchange.filledAgainst z.id fs = y.remaining := by omega
    rw [hrem, ← hyz]
    exact hy

/-- The fill `f` is one of the aggressor `a` with the resting order `x`. -/
structure FillOf (a x : Order) (f : Fill) : Prop where
  restingOrderId : f.restingOrderId = x.id
  restingClientId : f.restingClientId = x.client
  aggressorClientId : f.aggressorClientId = a.client
  aggressorSide : f.aggressorSide = a.side
  symbol : f.symbol = a.symbol
  price : f.price = x.price
  quantity_pos : 0 < f.quantity
  quantity_le : f.quantity ≤ x.remaining

/-- Every fill of a sweep is with an acceptable order of the book before it. -/
theorem Sweep.counterparty (h : Sweep a r fs a' r') (hr : r.Valid) {f : Fill} (hf : f ∈ fs) :
    ∃ x ∈ r.resting, acceptable a x = true ∧ FillOf a x f := by
  induction h with
  | done a r => cases hf
  | @fill a o a' r r' fs hpos hpick _ ih =>
    obtain ⟨ho, hacc⟩ := pick_mem hpick
    have hopen := hr.remaining_pos o ho
    rcases List.mem_cons.1 hf with rfl | hf
    · refine ⟨o, ho, hacc, ⟨rfl, rfl, rfl, rfl, rfl, rfl, ?_, ?_⟩⟩
      · show 0 < min a.remaining o.remaining
        omega
      · show min a.remaining o.remaining ≤ o.remaining
        omega
    · obtain ⟨x, hx, hxacc, h1, h2, h3, h4, h5, h6, h7, h8⟩ := ih (hr.afterFill ho a) hf
      rcases (mem_reduceOrder hr.ids ho).1 hx with ⟨hx, -⟩ | ⟨rfl, -⟩
      · exact ⟨x, hx, hxacc, ⟨h1, h2, h3, h4, h5, h6, h7, h8⟩⟩
      · -- an order that is left in part has only lost quantity
        refine ⟨o, ho, hacc, ⟨h1, h2, h3, h4, h5, h6, h7, h8.trans ?_⟩⟩
        show o.remaining - min a.remaining o.remaining ≤ o.remaining
        omega

/-- The match loop is done: the aggressor is filled, or nothing is left for it. -/
def Settled (a : Order) (r : RefEngine P) : Prop := 0 < a.remaining → pick a r.resting = none

/-- A settled sweep is determined by where it starts. -/
theorem Sweep.unique (h : Sweep a r fs a' r') (hend : Settled a' r') {fs₂ : List Fill} {a₂ : Order} {r₂ : RefEngine P}
    (h₂ : Sweep a r fs₂ a₂ r₂) (hend₂ : Settled a₂ r₂) : fs = fs₂ ∧ a' = a₂ ∧ r' = r₂ := by
  induction h generalizing fs₂ with
  | done a r =>
    cases h₂ with
    | done => exact ⟨rfl, rfl, rfl⟩
    | fill hpos hpick _ => rw [hend hpos] at hpick; cases hpick
  | fill hpos hpick _ ih =>
    cases h₂ with
    | done => rw [hend₂ hpos] at hpick; cases hpick
    | fill _ hpick₂ h₂ =>
      rw [hpick] at hpick₂
      cases hpick₂
      obtain ⟨rfl, rfl, rfl⟩ := ih hend h₂
      exact ⟨rfl, rfl, rfl⟩

/-- A sweep that leaves the aggressor with a remainder has consumed every acceptable order. -/
theorem Sweep.exhausted (h : Sweep a r fs a' r') (hr : r.Valid) (hend : Settled a' r') (hpos : 0 < a'.remaining) :
    r'.resting = r.resting.filter (fun x => !acceptable a x) ∧
      a'.remaining = a.remaining - Exchange.liquidity a r.resting := by
  have hnone : ∀ o ∈ r'.resting, acceptable a o = false := by
    have := pick_eq_none.1 (hend hpos)
    rw [h.aggressor] at this
    exact this
  constructor
  · rw [← h.unacceptable hr]
    exact (List.filter_eq_self.2 fun x hx => by simp [hnone x hx]).symm
  · have hzero : Exchange.liquidity a r'.resting = 0 := by
      unfold Exchange.liquidity
      rw [List.filter_eq_nil_iff.2 fun x hx => by simp [hnone x hx]]
      rfl
    have := h.liquidity hr
    omega

/-- A sweep that leaves a remainder makes room. -/
theorem Sweep.length_lt (h : Sweep a r fs a' r') (hr : r.Valid) (hend : Settled a' r')
    (hpos : 0 < a'.remaining) (hfs : fs ≠ []) : r'.resting.length < r.resting.length := by
  rw [(h.exhausted hr hend hpos).1]
  cases h with
  | done => exact absurd rfl hfs
  | fill _ hpick _ =>
    obtain ⟨ho, hacc⟩ := pick_mem hpick
    exact List.length_filter_lt_length_iff_exists.2 ⟨_, ho, by simp [hacc]⟩

/-- A settled sweep fills the aggressor if and only if there is enough for it. -/
theorem Sweep.remaining_eq_zero (h : Sweep a r fs a' r') (hr : r.Valid) (hend : Settled a' r')
    (ha : 0 ≤ a.remaining) : a'.remaining = 0 ↔ a.remaining ≤ Exchange.liquidity a r.resting := by
  have hliq := h.liquidity hr
  have hnn := liquidity_nonneg (a := a) (h.valid hr).remaining_pos
  have ha' := h.remaining_nonneg ha
  constructor
  · intro h0
    omega
  · intro hle
    by_contra hne
    have := (h.exhausted hr hend (by omega)).2
    omega

/-- The match loop ends, and what it has done is a sweep. -/
theorem matchAgainstBook_sweep (hr : r.Valid) (a : Order) (outFills : List Fill) :
    ∃ fs a' r', r.matchAgainstBook a outFills = some { aggressor := a', engine := r', outFills := outFills ++ fs } ∧
      Sweep a r fs a' r' ∧ Settled a' r' := by
  have hrule := runLoop_rule (matchStep (P := P))
    (fun st => ∃ fs, st.outFills = outFills ++ fs ∧ Sweep a r fs st.aggressor st.engine)
    (fun st => st.aggressor.remaining.toNat) ?_ ?_ (a.remaining.toNat + 1)
    { aggressor := a, engine := r, outFills := outFills } ⟨[], by simp, .done a r⟩ (Nat.lt_succ_self _)
  · obtain ⟨⟨a', r', out⟩, hrun, ⟨fs, hout, hsweep⟩, hstop⟩ := hrule
    refine ⟨fs, a', r', ?_, hsweep, fun hpos => ?_⟩
    · rw [← hout]
      exact hrun
    · cases hpick : pick a' r'.resting with
      | none => rfl
      | some o => simp [matchStep, hpos, hpick] at hstop
  · rintro st - hfault
    unfold matchStep at hfault
    dsimp only at hfault
    split_ifs at hfault
    split at hfault <;> cases hfault
  · rintro st st' ⟨fs, hout, hsweep⟩ hnext
    unfold matchStep at hnext
    dsimp only at hnext
    split_ifs at hnext with hpos
    split at hnext
    · cases hnext
    · rename_i o hpick
      cases hnext
      refine ⟨⟨_, ?_, hsweep.snoc hpos hpick⟩, ?_⟩
      · rw [hout, List.append_assoc]
      · have := (hsweep.valid hr).remaining_pos o (pick_mem hpick).1
        dsimp only
        omega

end RefEngine

end Exchange
