import Exchange.Refinement

/-!
# The book is never crossed

Every resting bid is priced below every resting ask.  An order comes to rest only when the match loop has left it a
remainder, and then no acceptable order is left on the other side.
-/

namespace Exchange

open OrderBook DenseMap

/-- Every bid is priced strictly below every ask. -/
def Uncrossed (L : List Order) : Prop :=
  ∀ x ∈ L, ∀ y ∈ L, x.side = .buy → y.side = .sell → x.price < y.price

section

variable {P : Params} {r r' : RefEngine P} {a a' o : Order} {fs : List Fill} {res : NewOrderResult}

namespace RefEngine

theorem Sweep.uncrossed (h : Sweep a r fs a' r') (hr : r.Valid) (hu : Uncrossed r.resting) : Uncrossed r'.resting := by
  intro x hx y hy
  obtain ⟨x', hx', hxe⟩ := h.mem hr hx
  obtain ⟨y', hy', hye⟩ := h.mem hr hy
  rw [hxe, hye]
  exact hu x' hx' y' hy'

/-- An order with nothing acceptable on the other side may come to rest. -/
theorem uncrossed_rest {L : List Order} (hu : Uncrossed L) (htype : a.type = .limit)
    (hnone : ∀ o ∈ L, acceptable a o = false) : Uncrossed (L ++ [a]) := by
  have hcross : ∀ o ∈ L, o.side = opposite a.side →
      if a.side = .buy then a.price < o.price else o.price < a.price := by
    intro o ho hs
    simpa [acceptable, accepts, hs, htype] using hnone o ho
  intro x hx y hy hxs hys
  simp only [List.mem_append, List.mem_singleton] at hx hy
  rcases hx with hx | rfl
  · rcases hy with hy | rfl
    · exact hu x hx y hy hxs hys
    · simpa [hys] using hcross x hx (by rw [hxs, hys]; rfl)
  · rcases hy with hy | rfl
    · simpa [hxs] using hcross y hy (by rw [hxs, hys]; rfl)
    · rw [hxs] at hys
      cases hys

theorem Submitted.uncrossed (h : Submitted r o res r' fs) (hr : r.Valid) (hu : Uncrossed r.resting) :
    Uncrossed r'.resting := by
  cases h with
  | refused _ _ => exact hu
  | rested hx hpos ht _ _ =>
    refine uncrossed_rest (hx.sweep.uncrossed hr hu) ?_ (pick_eq_none.1 (hx.settled hpos))
    rw [hx.aggressor]
    exact ht
  | full hx _ _ _ _ => exact hx.sweep.uncrossed hr hu
  | ended hx _ => exact hx.sweep.uncrossed hr hu

theorem uncrossed_removeOrder {L : List Order} (hu : Uncrossed L) (id : OrderId) : Uncrossed (removeOrder id L) :=
  fun x hx y hy => hu x (mem_removeOrder.1 hx).1 y (mem_removeOrder.1 hy).1

theorem call_uncrossed (hr : r.Valid) (hu : Uncrossed r.resting) {c : Call} {resp : Response}
    (h : r.call c = some (resp, r')) : Uncrossed r'.resting := by
  cases c with
  | submit o out =>
    obtain ⟨res, r₁, fs, hsubmit, hsub⟩ := submit_submitted hr o out
    rw [call, hsubmit] at h
    cases h
    exact hsub.uncrossed hr hu
  | cancel id =>
    cases h
    unfold cancel
    split
    · exact uncrossed_removeOrder hu id
    · exact hu
  | replace id p q seq ts out =>
    obtain ⟨res, r₁, fs, hreplace, hrep⟩ := replace_replaced hr id p q seq ts out
    rw [call, hreplace] at h
    cases h
    cases hrep with
    | unknownOrder _ => exact hu
    | invalidQuantity _ _ => exact hu
    | invalidPrice _ _ _ => exact hu
    | resubmitted _ _ _ _ h => exact h.uncrossed (hr.removeOrder id) (uncrossed_removeOrder hu id)

end RefEngine

end

variable {P : Params} {M : Type} [DenseMap M OrderId Nat]

/-- The best price of a side is the price of an order resting there. -/
theorem OrderBook.Holds.exists_of_best {b : OrderBook P M} {L : List Order} (h : b.Holds L) {s : Side} {p : Int}
    (hbest : (b.bestIndexFor s).map b.priceAt = some p) : ∃ o ∈ L, o.side = s ∧ o.price = p := by
  obtain ⟨i, hi, rfl⟩ := Option.map_eq_some_iff.1 hbest
  obtain ⟨n, -, hmem, -⟩ := h.best_some hi
  exact ⟨_, mem_ordersAt.1 hmem⟩

theorem Refines.best_lt {e : MatchingEngine P M} {r : RefEngine P} (hR : Refines e r) (hu : Uncrossed r.resting)
    {bid ask : Int} (hbid : e.book.bestBid = some bid) (hask : e.book.bestAsk = some ask) : bid < ask := by
  obtain ⟨x, hx, hxs, rfl⟩ := hR.holds.exists_of_best (s := .buy) hbid
  obtain ⟨y, hy, hys, rfl⟩ := hR.holds.exists_of_best (s := .sell) hask
  exact hu x hx y hy hxs hys

/-- Every run of calls keeps the simulation with an uncrossed reference engine. -/
theorem run_sim_uncrossed (calls : List Call) {e : MatchingEngine P M} {r : RefEngine P} (hR : Refines e r)
    (hu : Uncrossed r.resting) :
    ∃ resps e' r', runAll MatchingEngine.call e calls = some (resps, e') ∧ runAll RefEngine.call r calls =
      some (resps, r') ∧ Refines e' r' ∧ Uncrossed r'.resting := by
  exact runAll_sim (fun e r => Refines e r ∧ Uncrossed r.resting)
    (fun e r c hr => by
      obtain ⟨resp, e', r', he, hr', hR, -⟩ := call_sim hr.1 c
      exact ⟨resp, e', r', he, hr', hR, RefEngine.call_uncrossed hr.1.valid hr.2 hr'⟩) calls e r ⟨hR, hu⟩

/-- In every state a run of calls leads to, the best bid is below the best ask, and so is every resting bid below
every resting ask. -/
theorem never_crossed (symbol : SymbolId) (basePrice : Int) (calls : List Call) :
    ∃ resps e, runAll MatchingEngine.call (MatchingEngine.new P M symbol basePrice) calls = some (resps, e) ∧
      (∀ bid ask, e.book.bestBid = some bid → e.book.bestAsk = some ask → bid < ask) ∧
      ∀ i j, ∀ x ∈ e.book.fifo .buy i, ∀ y ∈ e.book.fifo .sell j, x.price < y.price := by
  obtain ⟨resps, e, r, he, -, h, hu⟩ :=
    run_sim_uncrossed calls (refines_new (P := P) (M := M) symbol basePrice) (by intro x hx; cases hx)
  refine ⟨resps, e, he, fun bid ask hbid hask => h.best_lt hu hbid hask, fun i j x hx y hy => ?_⟩
  rw [h.holds.fifo, mem_ordersAt] at hx hy
  exact hu x hx.1 y hy.1 hx.2.1 hy.2.1

end Exchange
