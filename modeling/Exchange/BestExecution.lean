import Exchange.SweepShape
import Exchange.BestPrices
import Exchange.Lib.Allocation
import Mathlib.Algebra.Order.Ring.Int

/-!
# Best execution

Whoever sends an order gets the best deal the book has for it.  Against every other way to take quantities from the
acceptable resting orders, the fills of a submission take at least as much, and for the same quantity a buyer pays no
more and a seller receives no less.
-/

namespace Exchange

open OrderBook

/-- What the fills are worth. -/
def notional (fs : List Fill) : Int := (fs.map fun f => f.price * f.quantity).sum

/-- Another way to execute `a`: the quantities to take from some of the acceptable orders among those that `resting`
tells. -/
structure Execution (a : Order) (resting : Order → Prop) (alt : List (Order × Int)) : Prop where
  distinct : (alt.map fun t => t.1.id).Nodup
  resting : ∀ t ∈ alt, resting t.1
  acceptable : ∀ t ∈ alt, acceptable a t.1 = true
  quantity : ∀ t ∈ alt, 0 ≤ t.2 ∧ t.2 ≤ t.1.remaining

/-- What is taken in all. -/
def takenQuantity (alt : List (Order × Int)) : Int := (alt.map Prod.snd).sum

/-- What is paid or received for it. -/
def takenNotional (alt : List (Order × Int)) : Int := (alt.map fun t => t.1.price * t.2).sum

/-! ### Orders by their ids -/

/-- The rank of the order with this id. -/
def rankOf (s : Side) (L : List Order) (id : OrderId) : Int :=
  (L.find? fun o => decide (o.id = id)).elim 0 (rank s)

theorem rankOf_eq {s : Side} {L : List Order} {o : Order} (h : DistinctIds L) (ho : o ∈ L) :
    rankOf s L o.id = rank s o := by
  unfold rankOf
  cases hfind : L.find? fun x => decide (x.id = o.id) with
  | none =>
    have hne := List.find?_eq_none.1 hfind o ho
    simp at hne
  | some x =>
    have hid : x.id = o.id := by simpa using List.find?_some hfind
    rw [h.eq_of_id (List.mem_of_find?_eq_some hfind) ho hid]
    rfl

/-- The ids of the orders `a` may trade with. -/
def acceptableIds (a : Order) (L : List Order) : Finset OrderId := ((L.filter (acceptable a)).map Order.id).toFinset

theorem mem_acceptableIds {a : Order} {L : List Order} {id : OrderId} :
    id ∈ acceptableIds a L ↔ ∃ x ∈ L, acceptable a x = true ∧ x.id = id := by
  simp [acceptableIds, and_assoc]

namespace RefEngine

variable {P : Params} {r r' : RefEngine P} {a a' x y : Order} {fs : List Fill}

/-! ### No order is passed over -/

/-- Before a worse priced order trades, a better priced one has traded in full. -/
theorem Sweep.exhausts (h : Sweep a r fs a' r') (hr : r.Valid) (hx : x ∈ r.resting) (hxa : acceptable a x = true)
    (hy : y ∈ r.resting) (hlt : rank a.side x < rank a.side y) (hfilled : 0 < Exchange.filledAgainst y.id fs) :
    Exchange.filledAgainst x.id fs = x.remaining := by
  induction h with
  | done a r => simp [Exchange.filledAgainst] at hfilled
  | @fill a o a' r r' fs hpos hpick hrest ih =>
    have ho := (pick_mem hpick).1
    have hox : rank a.side o ≤ rank a.side x := firstMin_le hpick (List.mem_filter.2 ⟨hx, hxa⟩)
    have hyo : o.id ≠ y.id := by
      intro hid
      rw [hr.ids.eq_of_id ho hy hid] at hox
      omega
    have hfills : ∀ id, Exchange.filledAgainst id
        (fillOf r.nextMatchId a o o.price (min a.remaining o.remaining) :: fs) =
          (if o.id = id then min a.remaining o.remaining else 0) + Exchange.filledAgainst id fs :=
      fun id => filledAgainst_cons id _ fs
    rw [hfills] at hfilled ⊢
    rw [if_neg hyo, zero_add] at hfilled
    -- the order `y` is filled later, so `o` is used up
    have hlater : ∀ f ∈ fs, min a.remaining o.remaining = o.remaining ∧ f.restingOrderId ≠ o.id := by
      intro f hf
      obtain ⟨hfull, z, -, hz, -, hfz, -⟩ := Sweep.later hr hpick hrest hf
      exact ⟨hfull, hfz ▸ hz⟩
    by_cases hid : o.id = x.id
    · obtain rfl := hr.ids.eq_of_id ho hx hid
      cases fs with
      | nil => simp [Exchange.filledAgainst] at hfilled
      | cons g fs =>
        have hnone : Exchange.filledAgainst o.id (g :: fs) = 0 :=
          show drawn Fill.restingOrderId Fill.quantity (g :: fs) o.id = 0 from
            drawn_eq_zero fun f hf => (hlater f hf).2
        rw [if_pos rfl, hnone, add_zero]
        exact (hlater g (List.mem_cons_self ..)).1
    · have hx' : x ∈ (r.afterFill a o).resting := (mem_reduceOrder hr.ids ho).2 (Or.inl ⟨hx, Ne.symm hid⟩)
      have hy' : y ∈ (r.afterFill a o).resting := (mem_reduceOrder hr.ids ho).2 (Or.inl ⟨hy, Ne.symm hyo⟩)
      rw [if_neg hid, zero_add]
      exact ih (hr.afterFill ho a) hx' hxa hy' hlt hfilled

theorem Sweep.cheapestFirst (h : Sweep a r fs a' r') (hr : r.Valid) :
    CheapestFirst (acceptableIds a r.resting) (rankOf a.side r.resting) (fun id => remainingOf id r.resting)
      (fun id => Exchange.filledAgainst id fs) := by
  intro i hi j hj hlt hfilled
  obtain ⟨x, hx, hxa, rfl⟩ := mem_acceptableIds.1 hi
  obtain ⟨y, hy, -, rfl⟩ := mem_acceptableIds.1 hj
  rw [rankOf_eq hr.ids hx, rankOf_eq hr.ids hy] at hlt
  show Exchange.filledAgainst x.id fs = remainingOf x.id r.resting
  rw [remainingOf_eq hr.ids hx]
  exact h.exhausts hr hx hxa hy hlt hfilled

/-! ### The cheapest execution -/

/-- A sum over prices as the side `s` sees them. -/
private theorem sum_signed {τ : Type} (s : Side) (price qty : τ → Int) (ts : List τ) :
    (ts.map fun t => (if s = .buy then price t else -price t) * qty t).sum =
      if s = .buy then (ts.map fun t => price t * qty t).sum else -(ts.map fun t => price t * qty t).sum := by
  induction ts with
  | nil => simp
  | cons t ts ih =>
    simp only [List.map_cons, List.sum_cons, ih]
    split_ifs
    · rfl
    · rw [Int.neg_mul]
      omega

variable {alt : List (Order × Int)}

/-- What a sweep and another execution take, order by order. -/
private theorem Sweep.priced (h : Sweep a r fs a' r') (hr : r.Valid) {f : Fill} (hf : f ∈ fs) :
    f.restingOrderId ∈ acceptableIds a r.resting ∧
      rankOf a.side r.resting f.restingOrderId = if a.side = .buy then f.price else -f.price := by
  obtain ⟨x, hx, hacc, hfill⟩ := h.counterparty hr hf
  rw [hfill.restingOrderId, rankOf_eq hr.ids hx, rank, hfill.price]
  exact ⟨mem_acceptableIds.2 ⟨x, hx, hacc, rfl⟩, rfl⟩

private theorem execution_priced (halt : Execution a (· ∈ r.resting) alt) (hr : r.Valid) {t : Order × Int}
    (ht : t ∈ alt) :
    t.1.id ∈ acceptableIds a r.resting ∧
      rankOf a.side r.resting t.1.id = if a.side = .buy then t.1.price else -t.1.price := by
  rw [rankOf_eq hr.ids (halt.resting t ht), rank]
  exact ⟨mem_acceptableIds.2 ⟨t.1, halt.resting t ht, halt.acceptable t ht, rfl⟩, rfl⟩

private theorem execution_drawn (halt : Execution a (· ∈ r.resting) alt) (hr : r.Valid) {id : OrderId}
    (hid : id ∈ acceptableIds a r.resting) :
    0 ≤ drawn (fun t => t.1.id) Prod.snd alt id ∧
      drawn (fun t => t.1.id) Prod.snd alt id ≤ remainingOf id r.resting := by
  by_cases hdrawn : ∃ t ∈ alt, t.1.id = id
  · obtain ⟨t, ht, rfl⟩ := hdrawn
    have hone : drawn (fun t => t.1.id) Prod.snd alt t.1.id = t.2 := drawn_of_nodup halt.distinct ht
    rw [hone, remainingOf_eq hr.ids (halt.resting t ht)]
    exact halt.quantity t ht
  · obtain ⟨x, hx, -, rfl⟩ := mem_acceptableIds.1 hid
    push Not at hdrawn
    rw [drawn_eq_zero hdrawn, remainingOf_eq hr.ids hx]
    exact ⟨Int.le_refl 0, (hr.remaining_pos x hx).le⟩

/-- For the same quantity, no other execution is better. -/
theorem Sweep.best (h : Sweep a r fs a' r') (hr : r.Valid) (halt : Execution a (· ∈ r.resting) alt)
    (hsum : takenQuantity alt = (fs.map Fill.quantity).sum) :
    if a.side = .buy then notional fs ≤ takenNotional alt else takenNotional alt ≤ notional fs := by
  have hpos : ∀ f ∈ fs, 0 < f.quantity := by
    intro f hf
    obtain ⟨x, -, -, hfill⟩ := h.counterparty hr hf
    exact hfill.quantity_pos
  have htotal : ∑ id ∈ acceptableIds a r.resting, drawn (fun t => t.1.id) Prod.snd alt id =
      ∑ id ∈ acceptableIds a r.resting, Exchange.filledAgainst id fs := by
    have hfills := sum_drawn Fill.quantity fun f hf => (h.priced hr hf).1
    have hdraws := sum_drawn Prod.snd fun t ht => (execution_priced halt hr ht).1
    rw [hdraws, show (alt.map Prod.snd).sum = _ from hsum]
    exact hfills.symm
  have hle := (h.cheapestFirst hr).cost_le (fun id _ => filledAgainst_nonneg hpos id)
    (fun id hid => execution_drawn halt hr hid) htotal
  have hfills := sum_mul_drawn Fill.quantity (rankOf a.side r.resting) fun f hf => (h.priced hr hf).1
  have hdraws := sum_mul_drawn Prod.snd (rankOf a.side r.resting) fun t ht => (execution_priced halt hr ht).1
  rw [List.map_congr_left fun f hf => by rw [(h.priced hr hf).2], sum_signed] at hfills
  rw [List.map_congr_left fun t ht => by rw [(execution_priced halt hr ht).2], sum_signed] at hdraws
  rw [hdraws] at hle
  have hle' := hfills.symm.le.trans hle
  unfold notional takenNotional
  split_ifs at hle' ⊢
  · exact hle'
  · omega

/-- Another execution takes no more than there is. -/
theorem execution_le_liquidity (halt : Execution a (· ∈ r.resting) alt) (hr : r.Valid) :
    takenQuantity alt ≤ liquidity a r.resting := by
  have hnodup : ((r.resting.filter (Exchange.acceptable a)).map Order.id).Nodup :=
    List.Nodup.sublist (List.filter_sublist.map _) hr.ids
  have hdraws := sum_drawn Prod.snd fun t ht => (execution_priced halt hr ht).1
  calc takenQuantity alt
      = ∑ id ∈ acceptableIds a r.resting, drawn (fun t => t.1.id) Prod.snd alt id := hdraws.symm
    _ ≤ ∑ id ∈ acceptableIds a r.resting, remainingOf id r.resting :=
        Finset.sum_le_sum fun id hid => (execution_drawn halt hr hid).2
    _ = liquidity a r.resting := by
        unfold acceptableIds liquidity
        rw [List.sum_toFinset _ hnodup, List.map_map]
        congr 1
        refine List.map_congr_left fun x hx => ?_
        exact remainingOf_eq hr.ids (List.mem_filter.1 hx).1

/-- A settled sweep takes as much as any other execution that stays within the aggressor's quantity. -/
theorem Sweep.most (h : Sweep a r fs a' r') (hr : r.Valid) (hend : Settled a' r') (ha : 0 ≤ a.remaining)
    (halt : Execution a (· ∈ r.resting) alt) (hle : takenQuantity alt ≤ a.remaining) :
    takenQuantity alt ≤ (fs.map Fill.quantity).sum := by
  have hquantity := h.quantity
  have hnonneg := h.remaining_nonneg ha
  by_cases hpos : 0 < a'.remaining
  · have hexhausted := (h.exhausted hr hend hpos).2
    have hliquidity := execution_le_liquidity halt hr
    omega
  · omega

variable {o : Order} {res : NewOrderResult}

theorem Submitted.best (h : Submitted r o res r' fs) (hr : r.Valid) (halt : Execution o (· ∈ r.resting) alt)
    (hsum : takenQuantity alt = (fs.map Fill.quantity).sum) :
    if o.side = .buy then notional fs ≤ takenNotional alt else takenNotional alt ≤ notional fs := by
  have hfresh : Execution o.fresh (· ∈ r.resting) alt := ⟨halt.distinct, halt.resting, halt.acceptable, halt.quantity⟩
  cases h with
  | refused _ _ => exact (Sweep.done o.fresh r).best hr hfresh hsum
  | rested hx _ _ _ _ => exact hx.sweep.best hr hfresh hsum
  | full hx _ _ _ _ => exact hx.sweep.best hr hfresh hsum
  | ended hx _ => exact hx.sweep.best hr hfresh hsum

theorem Submitted.most (h : Submitted r o res r' fs) (hr : r.Valid) (hmatched : res.rejectReason ∉ refusals)
    (halt : Execution o (· ∈ r.resting) alt) (hle : takenQuantity alt ≤ o.quantity) :
    takenQuantity alt ≤ (fs.map Fill.quantity).sum := by
  have hfresh : Execution o.fresh (· ∈ r.resting) alt := ⟨halt.distinct, halt.resting, halt.acceptable, halt.quantity⟩
  cases h with
  | refused reason href =>
    refine absurd ?_ hmatched
    show reason ∈ refusals
    cases reason with
    | unknownSymbol => decide
    | invalidQuantity => decide
    | fokNotFillable => decide
    | _ => exact href.elim
  | rested hx _ _ _ _ => exact hx.sweep.most hr hx.settled hx.quantity.le hfresh hle
  | full hx _ _ _ _ => exact hx.sweep.most hr hx.settled hx.quantity.le hfresh hle
  | ended hx _ => exact hx.sweep.most hr hx.settled hx.quantity.le hfresh hle

end RefEngine

variable {P : Params} {M : Type} [DenseMap M OrderId Nat]

/-- In every state a run of calls leads to, the fills of a submission are the best execution of its order: unless the
order is refused before matching, no other execution within its quantity takes more, and no other execution of the
same quantity has a lower cost for a buyer or a higher yield for a seller. -/
theorem best_execution (symbol : SymbolId) (basePrice : Int) (calls : List Call) (o : Order) (out : List Fill) :
    ∃ resps e res e' fs,
      runAll MatchingEngine.call (MatchingEngine.new P M symbol basePrice) calls = some (resps, e) ∧
      e.submit o out = some (res, e', out ++ fs) ∧
      ∀ alt, Execution o e.book.Resting alt →
        (res.rejectReason ∉ refusals → takenQuantity alt ≤ o.quantity →
          takenQuantity alt ≤ (fs.map Fill.quantity).sum) ∧
        (takenQuantity alt = (fs.map Fill.quantity).sum →
          if o.side = .buy then notional fs ≤ takenNotional alt else takenNotional alt ≤ notional fs) := by
  obtain ⟨resps, e, r, he, -, hR, -⟩ := run_sim (P := P) (M := M) symbol basePrice calls
  obtain ⟨res, e', r', fs, hsubmit, -, hsub, -⟩ := submit_sim hR o out
  refine ⟨resps, e, res, e', fs, he, hsubmit, fun alt halt => ?_⟩
  have halt' : Execution o (· ∈ r.resting) alt :=
    ⟨halt.distinct, fun t ht => hR.holds.resting_iff.1 (halt.resting t ht), halt.acceptable, halt.quantity⟩
  exact ⟨fun hmatched hle => hsub.most hR.valid hmatched halt' hle, fun hsum => hsub.best hR.valid halt' hsum⟩

end Exchange
