import Exchange.Refinement

/-!
# Fill-or-kill

A fill-or-kill order is accepted exactly when the same order as immediate-or-cancel would be filled completely, and
then does exactly what that order does; otherwise it does nothing.
-/

namespace Exchange

open OrderBook DenseMap

variable {P : Params} {M : Type} [DenseMap M OrderId Nat]

namespace MatchingEngine

/-- The same order with another time in force. -/
def withTif (o : Order) (tif : TimeInForce) : Order := { o with tif := tif }

/-- The match loop does not look at the time in force. -/
private def TifRel (tif : TimeInForce) (st st' : MatchState (MatchingEngine P M)) : Prop :=
  st' = { st with aggressor := withTif st.aggressor tif }

private theorem matchStep_tif (tif : TimeInForce) (st st' : MatchState (MatchingEngine P M)) (h : TifRel tif st st') :
    Iteration.Sim (TifRel tif) (matchStep st) (matchStep st') := by
  subst h
  unfold matchStep withTif
  dsimp only
  by_cases hpos : st.aggressor.remaining > 0
  · rw [if_pos hpos, if_pos hpos]
    cases (if opposite st.aggressor.side = .buy then st.engine.book.bestBid else st.engine.book.bestAsk) with
    | none => trivial
    | some best =>
      dsimp only
      by_cases hcross : st.aggressor.type = .limit ∧ crosses st.aggressor.side st.aggressor.price best = false
      · rw [if_pos hcross, if_pos hcross]
        trivial
      · rw [if_neg hcross, if_neg hcross]
        cases st.engine.book.frontAt (opposite st.aggressor.side) best with
        | none => trivial
        | some n => exact rfl
  · rw [if_neg hpos, if_neg hpos]
    trivial

theorem matchAgainstBook_tif (e : MatchingEngine P M) (a : Order) (tif : TimeInForce) {out : List Fill}
    {st : MatchState (MatchingEngine P M)} (h : e.matchAgainstBook a out = some st) :
    e.matchAgainstBook (withTif a tif) out = some { st with aggressor := withTif st.aggressor tif } := by
  obtain ⟨st', hst', rfl⟩ := runLoop_sim (TifRel tif) (matchStep_tif tif) _ _ _ st rfl h
  exact hst'

/-- What remains of an order that is not a Day order is dropped. -/
theorem restRemainder_of_ne_day {e : MatchingEngine P M} {a : Order} (h : a.tif ≠ .day) (res : NewOrderResult) :
    e.restRemainder a res = (res, e) := by
  unfold restRemainder
  rw [if_neg fun hday => h hday.2.2]

/-- An immediate-or-cancel order only runs the match loop. -/
theorem submit_ioc {e : MatchingEngine P M} {o : Order} {out : List Fill} {st : MatchState (MatchingEngine P M)}
    (hsym : o.symbol = e.book.symbol) (hq : 0 < o.quantity)
    (hst : e.matchAgainstBook (withTif o .ioc).fresh out = some st)
    (htif : st.aggressor.tif = .ioc) :
    e.submit (withTif o .ioc) out =
      some ({ fillCount := st.outFills.length - out.length, remainingAfter := st.aggressor.remaining },
        st.engine, st.outFills) := by
  unfold submit
  rw [if_neg (not_not.2 (show (withTif o .ioc).symbol = _ from hsym)),
    if_neg (not_le.2 (show 0 < (withTif o .ioc).quantity from hq))]
  dsimp only
  rw [show e.fokNotFillable (withTif o .ioc).fresh = some false from rfl, hst]
  dsimp only
  rw [restRemainder_of_ne_day (by rw [htif]; decide)]

/-- A fill-or-kill order that is not refused does the same. -/
theorem submit_fok {e : MatchingEngine P M} {o : Order} {out : List Fill} {st : MatchState (MatchingEngine P M)}
    (hsym : o.symbol = e.book.symbol) (hq : 0 < o.quantity)
    (hst : e.matchAgainstBook (withTif o .fok).fresh out = some st)
    (htif : st.aggressor.tif = .fok) {short : Bool}
    (hshort : e.fokNotFillable (withTif o .fok).fresh = some short) :
    e.submit (withTif o .fok) out =
      if short then some ({ rejectReason := .fokNotFillable, remainingAfter := o.quantity }, e, out)
      else some ({ fillCount := st.outFills.length - out.length, remainingAfter := st.aggressor.remaining },
        st.engine, st.outFills) := by
  unfold submit
  rw [if_neg (not_not.2 (show (withTif o .fok).symbol = _ from hsym)),
    if_neg (not_le.2 (show 0 < (withTif o .fok).quantity from hq))]
  dsimp only
  rw [hshort, hst]
  cases short with
  | true => rfl
  | false =>
    dsimp only
    rw [restRemainder_of_ne_day (by rw [htif]; decide)]
    rfl

end MatchingEngine

open MatchingEngine

/-- The fill-or-kill order `o` does all that `o` does as immediate-or-cancel, or nothing. -/
structure AllOrNothing (e : MatchingEngine P M) (o : Order) (out : List Fill)
    (ioc fok : NewOrderResult × MatchingEngine P M × List Fill) : Prop where
  submit_ioc : e.submit (withTif o .ioc) out = some ioc
  submit_fok : e.submit (withTif o .fok) out = some fok
  accepted_iff : fok.1.rejectReason = .none ↔ ioc.1.remainingAfter = 0
  accepted : fok.1.rejectReason = .none → fok.2 = ioc.2
  refused : fok.1.rejectReason ≠ .none →
    fok.1.rejectReason = .fokNotFillable ∧ fok.1.remainingAfter = o.quantity ∧ fok.2 = (e, out)

theorem Refines.allOrNothing {e : MatchingEngine P M} {r : RefEngine P} (h : Refines e r) {o : Order}
    (hsym : o.symbol = e.book.symbol) (hq : 0 < o.quantity) (out : List Fill) :
    ∃ ioc fok, AllOrNothing e o out ioc fok := by
  obtain ⟨fs, a, r', hmatch, hsweep, hsettled⟩ :=
    RefEngine.matchAgainstBook_sweep h.valid (withTif o .ioc).fresh out
  obtain ⟨st, hst, ha, hout, -⟩ := matchAgainstBook_sim h _ out hmatch
  have htif : st.aggressor.tif = .ioc := by rw [ha, hsweep.aggressor]; rfl
  have hfok := matchAgainstBook_tif e _ .fok hst
  have hshort := fokNotFillable_eq h (withTif o .fok).fresh
  have hzero : a.remaining = 0 ↔ o.quantity ≤ liquidity o r.resting :=
    hsweep.remaining_eq_zero h.valid hsettled hq.le
  have hioc' := submit_ioc hsym hq hst htif
  have hfok' := submit_fok hsym hq hfok rfl hshort
  by_cases hliq : liquidity o r.resting < o.quantity
  · rw [if_pos (decide_eq_true ⟨rfl, hliq⟩)] at hfok'
    refine ⟨_, _, hioc', hfok', ?_, ?_, ?_⟩
    · simp only [reduceCtorEq, false_iff]
      rw [ha, hzero]
      omega
    · intro hnone
      cases hnone
    · exact fun _ => ⟨rfl, rfl, rfl⟩
  · rw [if_neg fun hdec => hliq (of_decide_eq_true hdec).2] at hfok'
    refine ⟨_, _, hioc', hfok', ?_, ?_, ?_⟩
    · simp only [true_iff]
      rw [ha, hzero]
      omega
    · exact fun _ => rfl
    · exact fun hne => absurd rfl hne

/-- In every reachable state, fill-or-kill is all or nothing, and its check agrees with the match loop. -/
theorem fok_all_or_nothing (symbol : SymbolId) (basePrice : Int) (calls : List Call) (o : Order) (out : List Fill)
    (hsym : o.symbol = symbol) (hq : 0 < o.quantity) :
    ∃ resps e, runAll MatchingEngine.call (MatchingEngine.new P M symbol basePrice) calls = some (resps, e) ∧
      ∃ ioc fok, AllOrNothing e o out ioc fok := by
  obtain ⟨resps, e, r, he, -, h, hrsym, -⟩ := run_sim (P := P) (M := M) symbol basePrice calls
  exact ⟨resps, e, he, h.allOrNothing (by rw [hsym, h.symbol, hrsym]) hq out⟩

theorem fok_all_or_nothing_buy :
    ∃ resps e, runAll MatchingEngine.call (MatchingEngine.new tinyParams IdMap 7 100)
      [.submit { id := 1, symbol := 7, side := .sell, price := 101, quantity := 10 } []] = some (resps, e) ∧
      ∃ ioc fok, AllOrNothing e { id := 2, symbol := 7, price := 102, quantity := 10 } [] ioc fok :=
  fok_all_or_nothing 7 100 _ _ [] rfl (by decide)

end Exchange
