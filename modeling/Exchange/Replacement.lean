import Exchange.Rejection

/-!
# A replace never loses an order

`replace` takes the old order out before it submits the new one, so a refusal of the submission would lose the order.
Its own checks rule that out: they are made before the book is touched, and an order that passes them is filled, or
rests with what is left of it at the back of its new level.
-/

namespace Exchange

open OrderBook DenseMap

namespace RefEngine

variable {P : Params} {r r' : RefEngine P} {o : Order} {fs : List Fill} {res : NewOrderResult}

/-- An accepted Day Limit order is filled, or its remainder has become the last order of the book. -/
theorem Submitted.filled_or_last (h : Submitted r o res r' fs) (hacc : res.rejectReason = .none)
    (htype : o.type = .limit) (htif : o.tif = .day) :
    ((fs.map Fill.quantity).sum = o.quantity ∧ ∃ a, Sweep o.fresh r fs a r') ∨
      ∃ r₁ a, Sweep o.fresh r fs a r₁ ∧ r' = { r₁ with resting := r₁.resting ++ [a] } ∧
        (fs.map Fill.quantity).sum + a.remaining = o.quantity := by
  cases h with
  | refused reason href =>
    have hreason : reason = .none := hacc
    subst hreason
    exact href.elim
  | @rested _ a r₁ hx _ _ _ _ => exact Or.inr ⟨r₁, a, hx.sweep, rfl, hx.sweep.quantity⟩
  | full _ _ _ _ _ => cases hacc
  | @ended _ a _ hx hend =>
    have hquantity : (fs.map Fill.quantity).sum + a.remaining = o.quantity := hx.sweep.quantity
    have hnonneg := hx.remaining_nonneg
    have hnot : ¬ 0 < a.remaining := fun hpos => hend ⟨hpos, htype, htif⟩
    exact Or.inl ⟨by omega, a, hx.sweep⟩

end RefEngine

section

variable {P : Params} {M : Type} [DenseMap M OrderId Nat]

/-- The id is resting and the new terms are valid. -/
structure Replaceable (e : MatchingEngine P M) (id : OrderId) (newPrice newQuantity : Int) : Prop where
  found : (e.book.findNode id).isSome
  quantity : 0 < newQuantity
  price : (e.book.indexOf newPrice).isSome

/-- The order `id` of `side` is the last one at the level of `price`. -/
def OrderBook.BackOfLevel (b : OrderBook P M) (side : Side) (price : Int) (id : OrderId) : Prop :=
  ∃ i front o, b.indexOf price = some i ∧ b.fifo side i = front ++ [o] ∧ o.id = id

variable {e e' : MatchingEngine P M} {r r' : RefEngine P}

theorem OrderBook.Holds.backOfLevel {b : OrderBook P M} {L : List Order} {a : Order} (h : b.Holds (L ++ [a])) :
    b.BackOfLevel a.side a.price a.id := by
  obtain ⟨i, hi, hprice⟩ := h.price (o := a) (by simp)
  refine ⟨i, ordersAt a.side a.price L, a, ?_, ?_, rfl⟩
  · rw [hprice]
    exact indexOf_priceAt hi
  · rw [h.fifo, ← hprice]
    simp [ordersAt, List.filter_append]

/-- The submission of a replacement for `existing`, which has been taken out. -/
theorem Refines.replacement_kept {existing : Order} {p q : Int} {seq : Sequence} {ts : Int} {res : NewOrderResult}
    {fs : List Fill} (hr : r.Valid) (hmem : existing ∈ r.resting) (hR : Refines e' r')
    (hsub : RefEngine.Submitted { r with resting := removeOrder existing.id r.resting } (existing.replaced p q seq ts)
      res r' fs) (hacc : res.rejectReason = .none) :
    (fs.map Fill.quantity).sum + e'.book.restingQuantity existing.id = q ∧
      ((fs.map Fill.quantity).sum ≠ q → e'.book.BackOfLevel existing.side p existing.id) := by
  have hrestable := hr.order existing hmem
  rcases hsub.filled_or_last hacc hrestable.type hrestable.tif with ⟨hsum, a, hsweep⟩ | ⟨r₁, a, hsweep, rfl, hsum⟩
  · have hgone : ∀ x ∈ r'.resting, x.id ≠ existing.id := by
      intro x hx
      obtain ⟨y, hy, hxy⟩ := hsweep.mem (hr.removeOrder existing.id) hx
      rw [hxy]
      exact (mem_removeOrder.1 hy).2
    have hfilled : (fs.map Fill.quantity).sum = q := hsum
    rw [hR.holds.restingQuantity_eq_zero hgone, hfilled]
    exact ⟨add_zero q, fun hne => absurd rfl hne⟩
  · have ha := hsweep.aggressor
    have hid : a.id = existing.id := by rw [ha]; rfl
    have hside : a.side = existing.side := by rw [ha]; rfl
    have hprice : a.price = p := by rw [ha]; rfl
    have hlast : a ∈ r₁.resting ++ [a] := by simp
    have hopen := hR.holds.restingQuantity_eq hlast
    have hback := hR.holds.backOfLevel
    rw [hid] at hopen
    rw [hside, hprice, hid] at hback
    rw [hopen]
    exact ⟨hsum, fun _ => hback⟩

/-- A replace that fails one of its checks has no effect. -/
theorem replace_refused {id : OrderId} {p q : Int} (h : ¬ Replaceable e id p q) (seq : Sequence) (ts : Int)
    (out : List Fill) : ∃ res, e.replace id p q seq ts out = some (res, e, out) ∧ res.accepted = false := by
  unfold MatchingEngine.replace
  cases hfind : e.book.findNode id with
  | none => exact ⟨_, rfl, rfl⟩
  | some n =>
    dsimp only
    by_cases hq : q ≤ 0
    · rw [if_pos hq]
      exact ⟨_, rfl, rfl⟩
    · have hp : (e.book.indexOf p).isNone = true := by
        by_contra hsome
        refine h ⟨by rw [hfind]; rfl, not_le.1 hq, ?_⟩
        rw [Option.isSome_iff_ne_none]
        exact fun hnone => hsome (Option.isNone_iff_eq_none.2 hnone)
      rw [if_neg hq, if_pos hp]
      exact ⟨_, rfl, rfl⟩

theorem Refines.replace_kept (h : Refines e r) {id : OrderId} {p q : Int} (hok : Replaceable e id p q)
    (seq : Sequence) (ts : Int) (out : List Fill) :
    ∃ res e' fs, e.replace id p q seq ts out = some (res, e', out ++ fs) ∧ res.accepted = true ∧
      (fs.map Fill.quantity).sum + e'.book.restingQuantity id = q ∧
      ((fs.map Fill.quantity).sum ≠ q →
        ∀ n, e.book.findNode id = some n → e'.book.BackOfLevel (e.book.node n).order.side p id) := by
  obtain ⟨res, e', r', fs, he, -, hreplaced, hR⟩ := replace_sim h id p q seq ts out
  have hp := (h.indexOf_isSome p).1 hok.price
  cases hreplaced with
  | unknownOrder hunknown =>
    have hnone := (h.holds.findNode_eq_none id).2 hunknown
    have hsome := hok.found
    rw [hnone] at hsome
    cases hsome
  | invalidQuantity _ hq => exact absurd hok.quantity (not_lt.2 hq)
  | invalidPrice _ _ hbad => exact absurd hp hbad
  | @resubmitted existing res _ _ hmem hid _ _ hsub =>
    subst hid
    have hacc := hsub.accepted_of_replaced h.valid hmem hok.quantity hp
    obtain ⟨hsum, hback⟩ := Refines.replacement_kept h.valid hmem hR hsub hacc
    refine ⟨_, e', fs, he, by simp [MatchingEngine.replaceResult, hacc], hsum, ?_⟩
    intro hne n hn
    obtain ⟨m, hm, hnode⟩ := h.holds.exists_node hmem
    rw [hm] at hn
    cases hn
    rw [hnode]
    exact hback hne

end

/-- In every reachable state, a replace of a resting order by valid terms is accepted, and what it has filled and what
then rests under the id add up to the new quantity; a remainder is at the back of its level.  Any other replace is
not accepted and changes neither the engine nor the fill buffer. -/
theorem replace_never_loses_order {P : Params} {M : Type} [DenseMap M OrderId Nat] (symbol : SymbolId)
    (basePrice : Int) (calls : List Call) (id : OrderId) (newPrice newQuantity : Int) (newSequence : Sequence)
    (newTimestamp : Int) (out : List Fill) :
    ∃ resps e, runAll MatchingEngine.call (MatchingEngine.new P M symbol basePrice) calls = some (resps, e) ∧
      (Replaceable e id newPrice newQuantity →
        ∃ res e' fs, e.replace id newPrice newQuantity newSequence newTimestamp out = some (res, e', out ++ fs) ∧
          res.accepted = true ∧ (fs.map Fill.quantity).sum + e'.book.restingQuantity id = newQuantity ∧
          ((fs.map Fill.quantity).sum ≠ newQuantity →
            ∀ n, e.book.findNode id = some n → e'.book.BackOfLevel (e.book.node n).order.side newPrice id)) ∧
      (¬ Replaceable e id newPrice newQuantity →
        ∃ res, e.replace id newPrice newQuantity newSequence newTimestamp out = some (res, e, out) ∧
          res.accepted = false) := by
  obtain ⟨resps, e, r, he, -, h, -⟩ := run_sim (P := P) (M := M) symbol basePrice calls
  refine ⟨resps, e, he, ?_, ?_⟩
  · intro hok
    exact h.replace_kept hok newSequence newTimestamp out
  · intro hbad
    exact replace_refused hbad newSequence newTimestamp out

end Exchange
