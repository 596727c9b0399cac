import Exchange.Refinement

/-!
# The match loop

`match_against_book` throws two results away: that of `reduce_quantity`, and in `replace` that of `cancel`.  Both are
always successes, and every iteration that goes on trades with the order at the front of the best level, so the loop
ends after at most one iteration for each resting order and one more.
-/

namespace Exchange

open OrderBook MatchingEngine

variable {P : Params} {M : Type} [DenseMap M OrderId Nat]

/-- An iteration of the match loop trades with the order of node `n`, at the front of the best level. -/
structure FillsAt (st st' : MatchState (MatchingEngine P M)) (best : Int) (n : Nat) (q : Int) : Prop where
  bestPrice : (if opposite st.aggressor.side = .buy then st.engine.book.bestBid else st.engine.book.bestAsk) = some best
  front : st.engine.book.frontAt (opposite st.aggressor.side) best = some n
  live : st.engine.book.findNode (st.engine.book.node n).order.id = some n
  quantity : q = min st.aggressor.remaining (st.engine.book.node n).order.remaining
  quantity_pos : 1 ≤ q
  reduced : (st.engine.book.reduceQuantity (st.engine.book.node n).order.id q).1 = .ok ()
  book : st'.engine.book = (st.engine.book.reduceQuantity (st.engine.book.node n).order.id q).2
  outFills : st'.outFills =
    st.outFills ++ [fillOf st.engine.nextMatchId st.aggressor (st.engine.book.node n).order best q]
  /-- The book has applied the fill. -/
  applied : st'.engine.book.restingQuantity (st.engine.book.node n).order.id =
    st.engine.book.restingQuantity (st.engine.book.node n).order.id - q
  gone : q = (st.engine.book.node n).order.remaining ↔
    st'.engine.book.findNode (st.engine.book.node n).order.id = none

/-- What is left of an order after a fill. -/
theorem OrderBook.Holds.reduced {b b' : OrderBook P M} {L : List Order} {o : Order} {q : Int} (h : b.Holds L)
    (h' : b'.Holds (reduceOrder o.id q L)) (ho : o ∈ L) :
    b'.restingQuantity o.id = o.remaining - q ∧ (q = o.remaining ↔ b'.findNode o.id = none) := by
  have hids := h.distinctIds
  rw [h'.findNode_eq_none]
  by_cases hq : o.remaining = q
  · have hgone : ∀ x ∈ reduceOrder o.id q L, x.id ≠ o.id := by
      intro x hx
      rcases (mem_reduceOrder hids ho).1 hx with hx | hx
      · exact hx.2
      · exact absurd hq hx.2
    refine ⟨?_, ⟨fun _ => hgone, fun _ => hq.symm⟩⟩
    rw [h'.restingQuantity_eq_zero hgone, hq]
    omega
  · have hleft : ({ o with remaining := o.remaining - q } : Order) ∈ reduceOrder o.id q L :=
      (mem_reduceOrder hids ho).2 (Or.inr ⟨rfl, hq⟩)
    refine ⟨h'.restingQuantity_eq hleft, ⟨fun heq => absurd heq.symm hq, fun hgone => ?_⟩⟩
    exact absurd rfl (hgone { o with remaining := o.remaining - q } hleft)

theorem length_reduceOrder_full {L : List Order} {o : Order} (h : DistinctIds L) (ho : o ∈ L) :
    (reduceOrder o.id o.remaining L).length + 1 = L.length := by
  obtain ⟨l, r, rfl⟩ := List.append_of_mem ho
  rw [reduceOrder_append h, leftover, if_pos rfl]
  simp
  omega

/-- A fill ends the match loop, or takes an order from the book. -/
theorem resting_lt_of_fill {r : RefEngine P} {a o : Order} (h : DistinctIds r.resting) (ho : o ∈ r.resting) :
    (if 0 < a.remaining - min a.remaining o.remaining then (r.afterFill a o).resting.length else 0) <
      r.resting.length := by
  split_ifs with hleft
  · -- the resting order is filled, the aggressor is not
    have hfull : min a.remaining o.remaining = o.remaining := by omega
    have hlen := length_reduceOrder_full h ho
    show (reduceOrder o.id (min a.remaining o.remaining) r.resting).length < _
    rw [hfull]
    omega
  · exact List.length_pos_of_mem ho

/-- One iteration in an engine with a correct book. -/
theorem matchStep_fills {st st' : MatchState (MatchingEngine P M)} {r : RefEngine P} (h : Refines st.engine r)
    (hnext : matchStep st = .next st') :
    ∃ best n q r', FillsAt st st' best n q ∧ Refines st'.engine r' ∧
      st'.aggressor = { st.aggressor with remaining := st.aggressor.remaining - q } ∧
      (if 0 < st'.aggressor.remaining then r'.resting.length else 0) < r.resting.length ∧
      0 < st.aggressor.remaining := by
  obtain ⟨a, e, out⟩ := st
  dsimp only at h
  unfold matchStep at hnext
  dsimp only at hnext
  by_cases hpos : a.remaining > 0
  · rw [if_pos hpos, bestPrice_eq] at hnext
    cases hbest : e.book.bestIndexFor (opposite a.side) with
    | none => rw [hbest] at hnext; cases hnext
    | some i =>
      obtain ⟨n, hfront, hprice, hpick⟩ := pick_of_best_some (a := a) h.holds hbest
      rw [hbest, Option.map_some] at hnext
      dsimp only at hnext
      split_ifs at hnext with hcross
      rw [hfront] at hnext
      cases hnext
      rw [← accepts_eq_false_iff, Bool.not_eq_false] at hcross
      rw [if_pos hcross] at hpick
      have hmem := (pick_mem hpick).1
      have hopen := h.holds.remaining_pos hmem
      obtain ⟨b', hred, hR⟩ := h.fill hmem hpos
      obtain ⟨happlied, hgone⟩ := h.holds.reduced hR.holds hmem
      have hlive := h.holds.frontAt_live hfront
      have hq : 1 ≤ min a.remaining (e.book.node n).order.remaining := by omega
      refine ⟨e.book.priceAt i, n, _, r.afterFill a (e.book.node n).order,
        ⟨?_, hfront, hlive, rfl, hq, ?_, rfl, rfl, ?_, ?_⟩, ?_, rfl, resting_lt_of_fill h.valid.ids hmem, hpos⟩
      · rw [bestPrice_eq, hbest]
        rfl
      · rw [hred]
      · dsimp only
        rw [hred, h.holds.restingQuantity_eq hmem]
        exact happlied
      · dsimp only
        rw [hred]
        exact hgone
      · dsimp only
        rw [hred]
        exact hR
  · rw [if_neg hpos] at hnext
    cases hnext

theorem matchStep_ne_fault {st : MatchState (MatchingEngine P M)} {r : RefEngine P} (h : Refines st.engine r) :
    matchStep st ≠ .fault := by
  intro hfault
  have hsim := matchStep_sim { aggressor := st.aggressor, engine := r, outFills := st.outFills } st ⟨rfl, rfl, h⟩
  rw [hfault] at hsim
  cases href : RefEngine.matchStep { aggressor := st.aggressor, engine := r, outFills := st.outFills } with
  | stop => rw [href] at hsim; cases hsim
  | next t => rw [href] at hsim; cases hsim
  | fault =>
    unfold RefEngine.matchStep at href
    dsimp only at href
    split_ifs at href
    split at href <;> cases href

section

variable {e : MatchingEngine P M} {r : RefEngine P}

/-- All states of the loop have a correct book. -/
theorem Refines.of_stateAfter (h : Refines e r) {a : Order} {out : List Fill} {k : Nat}
    {st : MatchState (MatchingEngine P M)}
    (hst : stateAfter matchStep k { aggressor := a, engine := e, outFills := out } = some st) :
    ∃ r', Refines st.engine r' := by
  refine stateAfter_rule (fun st => ∃ r', Refines st.engine r') ?_ ⟨r, h⟩ hst
  intro st st' hinv hnext
  obtain ⟨r, hR⟩ := hinv
  obtain ⟨_, _, _, r', -, hR', -⟩ := matchStep_fills hR hnext
  exact ⟨r', hR'⟩

/-- The loop ends after at most as many iterations as there are resting orders, and one more. -/
theorem Refines.loop_ends (h : Refines e r) (a : Order) (out : List Fill) :
    ∃ st, runLoop matchStep (e.book.orderCount + 1) { aggressor := a, engine := e, outFills := out } = some st := by
  -- an aggressor that is filled has no iterations left
  have hrule := runLoop_rule (matchStep (P := P) (M := M)) (fun st => ∃ r', Refines st.engine r')
    (fun st => if 0 < st.aggressor.remaining then st.engine.book.orderCount else 0) ?_ ?_ (e.book.orderCount + 1)
    { aggressor := a, engine := e, outFills := out } ⟨r, h⟩ ?_
  · obtain ⟨st, hrun, -⟩ := hrule
    exact ⟨st, hrun⟩
  · intro st hinv
    obtain ⟨r, hR⟩ := hinv
    exact matchStep_ne_fault hR
  · intro st st' hinv hnext
    obtain ⟨r, hR⟩ := hinv
    obtain ⟨_, _, _, r', -, hR', -, hlt, hpos⟩ := matchStep_fills hR hnext
    refine ⟨⟨r', hR'⟩, ?_⟩
    rw [if_pos hpos, hR.holds.orderCount, hR'.holds.orderCount]
    exact hlt
  · dsimp only
    split_ifs <;> omega

theorem Refines.matchAgainstBook_eq (h : Refines e r) (a : Order) (out : List Fill) :
    ∃ st, e.matchAgainstBook a out = some st ∧
      runLoop matchStep (e.book.orderCount + 1) { aggressor := a, engine := e, outFills := out } = some st := by
  obtain ⟨st, hrun⟩ := h.loop_ends a out
  obtain ⟨fs, a', r', hmatch, -⟩ := RefEngine.matchAgainstBook_sweep h.valid a out
  obtain ⟨st', hst', -⟩ := matchAgainstBook_sim h a out hmatch
  have heq : st' = st := runLoop_unique hst' hrun
  rw [heq] at hst'
  exact ⟨st, hst', hrun⟩

end

/-- In every state a run of calls leads to, the match loop ends within one iteration for each resting order and one
more, whatever the aggressor; no iteration fails, and one that goes on trades with a live order and is applied by the
book.  A `cancel` of an order that was found succeeds. -/
theorem match_loop_safe (symbol : SymbolId) (basePrice : Int) (calls : List Call) :
    ∃ resps e, runAll MatchingEngine.call (MatchingEngine.new P M symbol basePrice) calls = some (resps, e) ∧
      (∀ a out, ∃ st, e.matchAgainstBook a out = some st ∧
        runLoop matchStep (e.book.orderCount + 1) { aggressor := a, engine := e, outFills := out } = some st ∧
        ∀ k st₁, stateAfter matchStep k { aggressor := a, engine := e, outFills := out } = some st₁ →
          matchStep st₁ ≠ .fault ∧ ∀ st₂, matchStep st₁ = .next st₂ → ∃ best n q, FillsAt st₁ st₂ best n q) ∧
      ∀ id n, e.book.findNode id = some n → (e.book.cancel id).1 = .ok () := by
  obtain ⟨resps, e, r, he, -, h, -⟩ := run_sim (P := P) (M := M) symbol basePrice calls
  refine ⟨resps, e, he, ?_, ?_⟩
  · intro a out
    obtain ⟨st, hmatch, hrun⟩ := h.matchAgainstBook_eq a out
    refine ⟨st, hmatch, hrun, ?_⟩
    intro k st₁ hst₁
    obtain ⟨r₁, hR₁⟩ := h.of_stateAfter hst₁
    refine ⟨matchStep_ne_fault hR₁, ?_⟩
    intro st₂ hnext
    obtain ⟨best, n, q, -, hfills, -⟩ := matchStep_fills hR₁ hnext
    exact ⟨best, n, q, hfills⟩
  · intro id n hfind
    obtain ⟨hmem, hid⟩ := h.holds.findNode_mem hfind
    obtain ⟨b', hcancel, -⟩ := h.holds.cancel_ok hmem
    rw [← hid, hcancel]

end Exchange
