import Exchange.LevelWalk
import Exchange.Submission

/-!
# The engine refines the reference engine

The two engines run in lock step: one iteration of the match loop, and then every call, has the same effect on both,
as seen through `Refines`.  So no call fails, and all results and fills are those of the reference engine.
-/

namespace Exchange

open OrderBook DenseMap

variable {P : Params} {M : Type} [DenseMap M OrderId Nat]

/-- The engine `e` implements the state `r` of the reference engine. -/
structure Refines (e : MatchingEngine P M) (r : RefEngine P) : Prop where
  holds : e.book.Holds r.resting
  symbol : e.book.symbol = r.symbol
  basePrice : e.book.basePrice = r.basePrice
  nextMatchId : e.nextMatchId = r.nextMatchId
  valid : r.Valid

theorem refines_new (symbol : SymbolId) (basePrice : Int) :
    Refines (MatchingEngine.new P M symbol basePrice) (RefEngine.new P symbol basePrice) where
  holds := holds_new symbol basePrice
  symbol := rfl
  basePrice := rfl
  nextMatchId := rfl
  valid := RefEngine.valid_new symbol basePrice

section

variable {e : MatchingEngine P M} {r : RefEngine P}

theorem Refines.indexOf_isSome (h : Refines e r) (p : Int) : (e.book.indexOf p).isSome ↔ r.InRange p := by
  rw [Option.isSome_iff_ne_none, Ne, indexOf_eq_none, not_not, h.basePrice, RefEngine.InRange]

theorem Refines.indexOf_isNone (h : Refines e r) (p : Int) : (e.book.indexOf p).isNone = true ↔ ¬ r.InRange p := by
  rw [← h.indexOf_isSome]
  cases e.book.indexOf p <;> simp

/-- A book for the same instrument that holds other orders. -/
theorem Refines.update (h : Refines e r) {b : OrderBook P M} {L : List Order} (hb : b.Holds L)
    (hsame : SameInstrument e.book b) (hvalid : ({ r with resting := L } : RefEngine P).Valid) :
    Refines { e with book := b } { r with resting := L } where
  holds := hb
  symbol := hsame.1.trans h.symbol
  basePrice := hsame.2.trans h.basePrice
  nextMatchId := h.nextMatchId
  valid := hvalid

/-! ### One iteration of the match loop -/

/-- Acceptable orders are those of the opposite side at an acceptable price. -/
private theorem filter_acceptable (a : Order) (L : List Order) :
    L.filter (acceptable a) =
      (L.filter fun o => decide (o.side = opposite a.side)).filter fun o => accepts a o.price := by
  rw [List.filter_filter]
  apply List.filter_congr
  intro o _
  exact Bool.and_comm _ _

private theorem opposite_opposite (s : Side) : opposite (opposite s) = s := by
  cases s <;> rfl

/-- An aggressor that does not accept the best price accepts no worse one. -/
theorem accepts_mono {a o o' : Order} (h : rank a.side o ≤ rank a.side o')
    (hacc : accepts a o'.price = true) : accepts a o.price = true := by
  rw [accepts, Bool.or_eq_true] at *
  refine hacc.imp_right fun hacc => ?_
  unfold rank at *
  cases hs : a.side <;> simp [hs] at * <;> omega

theorem pick_of_best_none {b : OrderBook P M} {L : List Order} {a : Order} (h : b.Holds L)
    (hbest : b.bestIndexFor (opposite a.side) = none) : pick a L = none := by
  rw [pick_eq_none]
  intro o ho
  simp [acceptable, h.best_none hbest o ho]

theorem pick_of_best_some {b : OrderBook P M} {L : List Order} {a : Order} (h : b.Holds L) {i : Nat}
    (hbest : b.bestIndexFor (opposite a.side) = some i) :
    ∃ n, b.frontAt (opposite a.side) (b.priceAt i) = some n ∧ (b.node n).order.price = b.priceAt i ∧
      pick a L = if accepts a (b.priceAt i) then some (b.node n).order else none := by
  obtain ⟨n, hfront, hmem, hmin⟩ := h.best_some hbest
  obtain ⟨-, -, hprice⟩ := mem_ordersAt.1 hmem
  rw [opposite_opposite] at hmin
  refine ⟨n, hfront, hprice, ?_⟩
  split_ifs with hacc
  · rw [pick, filter_acceptable]
    exact firstMin_filter hmin (hprice ▸ hacc)
  · rw [pick_eq_none]
    intro o ho
    by_contra hne
    obtain ⟨hside, ho'⟩ := Bool.and_eq_true_iff.1 (Bool.not_eq_false _ ▸ hne)
    refine hacc (hprice ▸ accepts_mono ?_ ho')
    exact firstMin_le hmin (List.mem_filter.2 ⟨ho, hside⟩)

end

/-- The test that ends the match loop. -/
theorem accepts_eq_false_iff (a : Order) (p : Int) :
    accepts a p = false ↔ a.type = .limit ∧ crosses a.side a.price p = false := by
  rw [accepts_eq]
  cases a.type <;> simp

/-- A fill in both engines. -/
theorem Refines.fill {e : MatchingEngine P M} {r : RefEngine P} (h : Refines e r) {a o : Order} (ho : o ∈ r.resting)
    (hpos : 0 < a.remaining) :
    ∃ b', e.book.reduceQuantity o.id (min a.remaining o.remaining) = (.ok (), b') ∧
      Refines { book := b', nextMatchId := e.nextMatchId + 1 } (r.afterFill a o) := by
  have hopen := h.holds.remaining_pos ho
  obtain ⟨b', hred, hholds, hsame⟩ := h.holds.reduce ho (q := min a.remaining o.remaining) (by omega) (by omega)
  exact ⟨b', hred, hholds, hsame.1.trans h.symbol, hsame.2.trans h.basePrice, congrArg (· + 1) h.nextMatchId,
    h.valid.afterFill ho a⟩

/-- The states of the two match loops correspond. -/
structure MatchRel (t : MatchState (RefEngine P)) (st : MatchState (MatchingEngine P M)) : Prop where
  aggressor : st.aggressor = t.aggressor
  outFills : st.outFills = t.outFills
  engine : Refines st.engine t.engine

theorem matchStep_sim (t : MatchState (RefEngine P)) (st : MatchState (MatchingEngine P M)) (h : MatchRel t st) :
    Iteration.Sim MatchRel (RefEngine.matchStep t) (MatchingEngine.matchStep st) := by
  obtain ⟨a, r, out⟩ := t
  obtain ⟨a', e, out'⟩ := st
  obtain ⟨rfl, rfl, hr⟩ := h
  dsimp only at hr
  unfold RefEngine.matchStep MatchingEngine.matchStep
  dsimp only
  by_cases hpos : a'.remaining > 0
  · rw [if_pos hpos, if_pos hpos, bestPrice_eq]
    cases hbest : e.book.bestIndexFor (opposite a'.side) with
    | none =>
      rw [pick_of_best_none hr.holds hbest]
      trivial
    | some i =>
      obtain ⟨n, hfront, hprice, hpick⟩ := pick_of_best_some (a := a') hr.holds hbest
      have hcross := accepts_eq_false_iff a' (e.book.priceAt i)
      rw [hpick, Option.map_some]
      dsimp only
      by_cases hacc : accepts a' (e.book.priceAt i) = true
      · rw [if_pos hacc, if_neg (by rw [← hcross]; simp [hacc]), hfront]
        rw [if_pos hacc] at hpick
        obtain ⟨b', hred, hR⟩ := hr.fill (pick_mem hpick).1 hpos
        refine ⟨rfl, ?_, ?_⟩
        · show out' ++ _ = out' ++ _
          rw [hr.nextMatchId, hprice]
        · dsimp only
          rw [hred]
          exact hR
      · rw [if_neg hacc, if_pos (hcross.1 (by simpa using hacc))]
        trivial
  · rw [if_neg hpos, if_neg hpos]
    trivial

section

variable {e : MatchingEngine P M} {r : RefEngine P}

theorem matchAgainstBook_sim (h : Refines e r) (a : Order) (out : List Fill) {t : MatchState (RefEngine P)}
    (ht : r.matchAgainstBook a out = some t) :
    ∃ st, e.matchAgainstBook a out = some st ∧ MatchRel t st :=
  runLoop_sim MatchRel matchStep_sim _ _ _ t ⟨rfl, rfl, h⟩ ht

/-- Whether there is enough for an order, read off the book. -/
theorem Refines.short_iff (h : Refines e r) (o : Order) :
    (∃ total, e.availableLiquidity o.side (o.type == .market) o.price o.quantity = some total ∧ total < o.quantity) ↔
      liquidity o r.resting < o.quantity := by
  obtain ⟨total, htotal, hiff⟩ := h.holds.availableLiquidity o o.quantity
  rw [htotal, ← hiff]
  simp

theorem fokNotFillable_eq (h : Refines e r) (o : Order) :
    e.fokNotFillable o = some (decide (o.tif = .fok ∧ liquidity o r.resting < o.quantity)) := by
  unfold MatchingEngine.fokNotFillable
  split_ifs with htif
  · obtain ⟨total, htotal, hiff⟩ := h.holds.availableLiquidity o o.quantity
    rw [htotal]
    simp [htif, hiff]
  · simp [htif]

theorem restRemainder_sim (h : Refines e r) {a : Order} (hsym : a.symbol = r.symbol) (res : NewOrderResult) :
    (e.restRemainder a res).1 = (r.restRemainder a res).1 ∧
      Refines (e.restRemainder a res).2 (r.restRemainder a res).2 := by
  unfold MatchingEngine.restRemainder RefEngine.restRemainder
  by_cases hday : a.remaining > 0 ∧ a.type = .limit ∧ a.tif = .day
  · obtain ⟨hpos, htype, htif⟩ := hday
    rw [if_pos ⟨hpos, htype, htif⟩, if_pos ⟨hpos, htype, htif⟩]
    by_cases hrest : r.CanRest a
    · obtain ⟨b', hadd, hholds, hsame⟩ :=
        h.holds.add_ok htype hpos ((h.indexOf_isSome _).2 hrest.1) hrest.2.1 hrest.2.2
      rw [if_pos hrest, hadd]
      exact ⟨rfl, h.update hholds hsame (h.valid.rest hrest hpos htype htif hsym)⟩
    · obtain ⟨err, hadd⟩ := h.holds.add_error (o := a) fun hok =>
        hrest ⟨(h.indexOf_isSome _).1 hok.2.2.1, hok.2.2.2.1, hok.2.2.2.2⟩
      rw [if_neg hrest, hadd]
      exact ⟨rfl, h⟩
  · rw [if_neg hday, if_neg hday]
    exact ⟨rfl, h⟩

/-! ### Calls -/

private theorem submit_sim_aux (h : Refines e r) {o : Order} {out out' : List Fill} {res : NewOrderResult}
    {r' : RefEngine P} (hsubmit : r.submit o out = some (res, r', out')) :
    ∃ e', e.submit o out = some (res, e', out') ∧ Refines e' r' := by
  have hfok : e.fokNotFillable o.fresh =
      some (decide (o.tif = .fok ∧ liquidity o r.resting < o.quantity)) := fokNotFillable_eq h _
  revert hsubmit
  unfold MatchingEngine.submit RefEngine.submit
  dsimp only
  rw [h.symbol, hfok]
  split_ifs with hsym hq hshort
  · rintro hsubmit; cases hsubmit; exact ⟨e, rfl, h⟩
  · rintro hsubmit; cases hsubmit; exact ⟨e, rfl, h⟩
  · rintro hsubmit
    cases hsubmit
    rw [decide_eq_true hshort]
    exact ⟨e, rfl, h⟩
  · rw [decide_eq_false hshort]
    dsimp only
    obtain ⟨fs, a, r₁, hmatch, hsweep, -⟩ :=
      RefEngine.matchAgainstBook_sweep h.valid o.fresh out
    obtain ⟨st, hst, ha, hout, hR⟩ := matchAgainstBook_sim h _ out hmatch
    have hsym' : a.symbol = r₁.symbol := by
      rw [hsweep.aggressor, hsweep.instrument.1]
      exact not_not.1 hsym
    obtain ⟨hres, hR'⟩ := restRemainder_sim hR hsym'
      { remainingAfter := o.quantity, fillCount := (out ++ fs).length - out.length : NewOrderResult }
    rw [hmatch, hst]
    dsimp only
    rw [ha, hout, hres]
    rintro hsubmit
    cases hsubmit
    exact ⟨_, rfl, hR'⟩

theorem submit_sim (h : Refines e r) (o : Order) (out : List Fill) :
    ∃ res e' r' fs, e.submit o out = some (res, e', out ++ fs) ∧ r.submit o out = some (res, r', out ++ fs) ∧
      r.Submitted o res r' fs ∧ Refines e' r' := by
  obtain ⟨res, r', fs, hr, hsubmitted⟩ := RefEngine.submit_submitted h.valid o out
  obtain ⟨e', he, hR⟩ := submit_sim_aux h hr
  exact ⟨res, e', r', fs, he, hr, hsubmitted, hR⟩

theorem cancel_sim (h : Refines e r) (id : OrderId) :
    (e.cancel id).1 = (r.cancel id).1 ∧ Refines (e.cancel id).2 (r.cancel id).2 := by
  unfold MatchingEngine.cancel RefEngine.cancel
  by_cases hid : ∃ o ∈ r.resting, o.id = id
  · obtain ⟨o, ho, rfl⟩ := hid
    obtain ⟨b', hcancel, hholds, hsame⟩ := h.holds.cancel_ok ho
    rw [if_pos ⟨o, ho, rfl⟩, hcancel]
    exact ⟨rfl, h.update hholds hsame (h.valid.removeOrder o.id)⟩
  · rw [if_neg hid, cancel_error ((h.holds.findNode_eq_none id).2 fun o ho e => hid ⟨o, ho, e⟩)]
    exact ⟨rfl, h⟩

/-- The engine in which `replace` submits the order again. -/
theorem Refines.cancelled (h : Refines e r) {id : OrderId} {n : Nat} (hfind : e.book.findNode id = some n) :
    Refines { e with book := (e.book.cancel id).2 } { r with resting := removeOrder id r.resting } := by
  obtain ⟨hmem, hid⟩ := h.holds.findNode_mem hfind
  obtain ⟨b', hcancel, hholds, hsame⟩ := h.holds.cancel_ok hmem
  rw [hid] at hcancel hholds
  rw [hcancel]
  exact h.update hholds hsame (h.valid.removeOrder id)

private theorem replace_sim_aux (h : Refines e r) {id : OrderId} {p q : Int} {seq : Sequence} {ts : Int}
    {out out' : List Fill} {res : ReplaceResult} {r' : RefEngine P}
    (hreplace : r.replace id p q seq ts out = some (res, r', out')) :
    ∃ e', e.replace id p q seq ts out = some (res, e', out') ∧ Refines e' r' := by
  revert hreplace
  unfold MatchingEngine.replace RefEngine.replace
  rw [h.holds.find?_eq id]
  cases hfind : e.book.findNode id with
  | none => rintro hreplace; cases hreplace; exact ⟨e, rfl, h⟩
  | some n =>
    obtain ⟨hmem, hid⟩ := h.holds.findNode_mem hfind
    rw [Option.map_some]
    dsimp only
    by_cases hq : q ≤ 0
    · rw [if_pos hq, if_pos hq]
      rintro hreplace; cases hreplace; exact ⟨e, rfl, h⟩
    by_cases hp : r.InRange p
    · rw [if_neg hq, if_neg hq, if_neg (not_not.2 hp), if_neg ((h.indexOf_isNone p).not.2 (not_not.2 hp))]
      obtain ⟨b', hcancel, hholds, hsame⟩ := h.holds.cancel_ok hmem
      rw [hid] at hcancel hholds
      rw [hcancel]
      obtain ⟨res', e', r'', fs', he, hr, -, hR⟩ :=
        submit_sim (h.update hholds hsame (h.valid.removeOrder id)) ((e.book.node n).order.replaced p q seq ts) out
      rw [he, hr]
      rintro hreplace
      cases hreplace
      exact ⟨e', rfl, hR⟩
    · rw [if_neg hq, if_neg hq, if_pos hp, if_pos ((h.indexOf_isNone p).2 hp)]
      rintro hreplace; cases hreplace; exact ⟨e, rfl, h⟩

theorem replace_sim (h : Refines e r) (id : OrderId) (p q : Int) (seq : Sequence) (ts : Int) (out : List Fill) :
    ∃ res e' r' fs, e.replace id p q seq ts out = some (res, e', out ++ fs) ∧
      r.replace id p q seq ts out = some (res, r', out ++ fs) ∧ r.Replaced id p q seq ts res r' fs ∧
      Refines e' r' := by
  obtain ⟨res, r', fs, hr, hreplaced⟩ := RefEngine.replace_replaced h.valid id p q seq ts out
  obtain ⟨e', he, hR⟩ := replace_sim_aux h hr
  exact ⟨res, e', r', fs, he, hr, hreplaced, hR⟩

theorem call_sim (h : Refines e r) (c : Call) :
    ∃ resp e' r', e.call c = some (resp, e') ∧ r.call c = some (resp, r') ∧ Refines e' r' ∧
      r'.symbol = r.symbol ∧ r'.basePrice = r.basePrice := by
  cases c with
  | submit o out =>
    obtain ⟨res, e', r', fs, he, hr, hsub, hR⟩ := submit_sim h o out
    exact ⟨_, e', r', by rw [MatchingEngine.call, he]; rfl, by rw [RefEngine.call, hr]; rfl, hR, hsub.instrument⟩
  | cancel id =>
    obtain ⟨hres, hR⟩ := cancel_sim h id
    exact ⟨_, _, _, rfl, by rw [hres]; rfl, hR, r.cancel_instrument id⟩
  | replace id p q seq ts out =>
    obtain ⟨res, e', r', fs, he, hr, hrep, hR⟩ := replace_sim h id p q seq ts out
    exact ⟨_, e', r', by rw [MatchingEngine.call, he]; rfl, by rw [RefEngine.call, hr]; rfl, hR, hrep.instrument⟩

end

/-- Every run from the empty engine is the run of the reference engine. -/
theorem run_sim (symbol : SymbolId) (basePrice : Int) (calls : List Call) :
    ∃ resps e r, runAll MatchingEngine.call (MatchingEngine.new P M symbol basePrice) calls = some (resps, e) ∧
      runAll RefEngine.call (RefEngine.new P symbol basePrice) calls = some (resps, r) ∧ Refines e r ∧
      r.symbol = symbol ∧ r.basePrice = basePrice := by
  refine runAll_sim (fun e r => Refines e r ∧ r.symbol = symbol ∧ r.basePrice = basePrice) ?_ calls _ _
    ⟨refines_new symbol basePrice, rfl, rfl⟩
  rintro e r c ⟨h, hsym, hbase⟩
  obtain ⟨resp, e', r', he, hr, hR, hsym', hbase'⟩ := call_sim h c
  exact ⟨resp, e', r', he, hr, hR, hsym'.trans hsym, hbase'.trans hbase⟩

/-- Price/time priority.  A run of calls on the engine always returns, with the results, the fills and the match ids
of the reference engine, and leaves every level with the queue of orders the reference engine has there. -/
theorem matching_engine_refines (symbol : SymbolId) (basePrice : Int) (calls : List Call) :
    ∃ resps e r, runAll MatchingEngine.call (MatchingEngine.new P M symbol basePrice) calls = some (resps, e) ∧
      runAll RefEngine.call (RefEngine.new P symbol basePrice) calls = some (resps, r) ∧
      e.nextMatchId = r.nextMatchId ∧ e.book.orderCount = r.resting.length ∧
      ∀ s i, e.book.fifo s i = r.resting.filter fun o => decide (o.side = s ∧ o.price = basePrice + (i : Int)) := by
  obtain ⟨resps, e, r, he, hr, h, -, hbase⟩ := run_sim (P := P) (M := M) symbol basePrice calls
  refine ⟨resps, e, r, he, hr, h.nextMatchId, h.holds.orderCount, fun s i => ?_⟩
  rw [h.holds.fifo, ordersAt, priceAt, h.basePrice, hbase]

end Exchange
