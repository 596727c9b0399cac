import Exchange.Refinement

/-!
# Relabelling orders

A relabelling changes the sides, prices, clients and timestamps of all orders in a way that keeps which prices an
order accepts and which prices are on the ladder.  The reference engine does not see the difference: relabelled calls
have the same results and relabelled fills, and leave the relabelled orders resting.
-/

namespace Exchange

/-- A relabelling for an engine with the levels of `P` from `basePrice` on. -/
structure Relabelling (P : Params) (basePrice : Int) where
  side : Side → Side
  price : Int → Int
  client : ClientId → ClientId
  time : Int → Int
  side_inj : ∀ s t, side s = side t ↔ s = t
  opposite_side : ∀ s, opposite (side s) = side (opposite s)
  crosses_price : ∀ s l p, crosses (side s) (price l) (price p) = crosses s l p
  inRange : ∀ p, (basePrice ≤ price p ∧ price p < basePrice + P.numLevels) ↔
    basePrice ≤ p ∧ p < basePrice + P.numLevels

namespace Relabelling

variable {P : Params} {basePrice : Int} (g : Relabelling P basePrice)

def order (o : Order) : Order :=
  { o with
    side := g.side o.side
    price := g.price o.price
    client := g.client o.client
    timestamp := g.time o.timestamp }

def fill (f : Fill) : Fill :=
  { f with
    restingClientId := g.client f.restingClientId
    aggressorClientId := g.client f.aggressorClientId
    price := g.price f.price
    aggressorSide := g.side f.aggressorSide }

def engine (r : RefEngine P) : RefEngine P := { r with resting := r.resting.map g.order }

def call : Call → Call
  | .submit o out => .submit (g.order o) (out.map g.fill)
  | .cancel id => .cancel id
  | .replace id p q seq ts out => .replace id (g.price p) q seq (g.time ts) (out.map g.fill)

def response : Response → Response
  | .submit res out => .submit res (out.map g.fill)
  | .cancel res => .cancel res
  | .replace res out => .replace res (out.map g.fill)

/-! ### The list of resting orders -/

theorem accepts_order (a : Order) (p : Int) : accepts (g.order a) (g.price p) = accepts a p := by
  rw [accepts_eq, accepts_eq]
  unfold order
  dsimp only
  rw [g.crosses_price]

theorem acceptable_order (a o : Order) : acceptable (g.order a) (g.order o) = acceptable a o := by
  have hside : g.side o.side = opposite (g.side a.side) ↔ o.side = opposite a.side := by
    rw [g.opposite_side, g.side_inj]
  have hprice := g.accepts_order a o.price
  unfold acceptable
  rw [show (g.order o).price = g.price o.price from rfl, hprice]
  simp only [order, hside]

/-- One order is better than another if an aggressor with the limit of the first would not take the second. -/
theorem rank_lt_iff (s : Side) (x y : Order) : rank s x < rank s y ↔ crosses s x.price y.price = false := by
  unfold rank crosses
  cases s <;> simp

theorem rank_order (s : Side) (x y : Order) :
    rank (g.side s) (g.order x) < rank (g.side s) (g.order y) ↔ rank s x < rank s y := by
  rw [rank_lt_iff, rank_lt_iff, ← g.crosses_price s x.price y.price]
  rfl

theorem pick_order (a : Order) (L : List Order) : pick (g.order a) (L.map g.order) = (pick a L).map g.order := by
  have hacc : acceptable (g.order a) ∘ g.order = acceptable a := funext fun o => g.acceptable_order a o
  unfold pick
  rw [List.filter_map, hacc]
  exact firstMin_map (g.rank_order a.side)

theorem price_inj (p q : Int) : g.price p = g.price q ↔ p = q := by
  refine ⟨fun h => ?_, congrArg g.price⟩
  have hle := g.crosses_price .buy p q
  have hge := g.crosses_price .buy q p
  rw [h] at hle hge
  unfold crosses at hle hge
  cases hs : g.side .buy <;> simp [hs] at hle hge <;> omega

theorem ordersAt_order (s : Side) (p : Int) (L : List Order) :
    ordersAt (g.side s) (g.price p) (L.map g.order) = (ordersAt s p L).map g.order := by
  unfold ordersAt
  rw [List.filter_map]
  congr 1
  refine List.filter_congr ?_
  intro x _
  simp [order, g.side_inj, g.price_inj]

theorem reduceOrder_order (id : OrderId) (q : Int) (L : List Order) :
    reduceOrder id q (L.map g.order) = (reduceOrder id q L).map g.order := by
  unfold reduceOrder
  rw [List.filterMap_map, List.map_filterMap]
  refine List.filterMap_congr ?_
  intro x _
  by_cases hid : x.id = id
  · by_cases hq : x.remaining = q <;> simp [order, hid, hq]
  · simp [order, hid]

theorem removeOrder_order (id : OrderId) (L : List Order) :
    removeOrder id (L.map g.order) = (removeOrder id L).map g.order := by
  unfold removeOrder
  rw [List.filter_map]
  rfl

theorem find?_order (id : OrderId) (L : List Order) :
    (L.map g.order).find? (fun o => decide (o.id = id)) = (L.find? fun o => decide (o.id = id)).map g.order := by
  rw [List.find?_map]
  rfl

theorem liquidity_order (a : Order) (L : List Order) : liquidity (g.order a) (L.map g.order) = liquidity a L := by
  have hacc : acceptable (g.order a) ∘ g.order = acceptable a := funext fun o => g.acceptable_order a o
  unfold liquidity
  rw [List.filter_map, hacc, List.map_map]
  rfl

/-! ### The engine -/

/-- The states of two match loops, one of them relabelled. -/
def MatchRelabelled (st st' : MatchState (RefEngine P)) : Prop :=
  st'.aggressor = g.order st.aggressor ∧ st'.engine = g.engine st.engine ∧ st'.outFills = st.outFills.map g.fill

theorem matchStep_relabel (st st' : MatchState (RefEngine P)) (h : g.MatchRelabelled st st') :
    Iteration.Sim g.MatchRelabelled (RefEngine.matchStep st) (RefEngine.matchStep st') := by
  obtain ⟨a, r, out⟩ := st
  obtain ⟨a', r', out'⟩ := st'
  obtain ⟨rfl, rfl, rfl⟩ := h
  have hpick := g.pick_order a r.resting
  unfold RefEngine.matchStep
  dsimp only [engine]
  rw [hpick]
  by_cases hpos : a.remaining > 0
  · rw [if_pos hpos, if_pos (show (g.order a).remaining > 0 from hpos)]
    cases pick a r.resting with
    | none => trivial
    | some o =>
      refine ⟨rfl, ?_, ?_⟩
      · dsimp only [engine, RefEngine.afterFill]
        rw [← g.reduceOrder_order]
        rfl
      · dsimp only
        rw [List.map_append]
        rfl
  · rw [if_neg hpos, if_neg (show ¬ (g.order a).remaining > 0 from hpos)]
    trivial

variable {r r' : RefEngine P}

theorem matchAgainstBook_relabel {a : Order} {out : List Fill} {st : MatchState (RefEngine P)}
    (h : r.matchAgainstBook a out = some st) :
    ∃ st', (g.engine r).matchAgainstBook (g.order a) (out.map g.fill) = some st' ∧ g.MatchRelabelled st st' :=
  runLoop_sim g.MatchRelabelled g.matchStep_relabel _ _ _ st ⟨rfl, rfl, rfl⟩ h

theorem inRange_engine (hbase : r.basePrice = basePrice) (p : Int) :
    (g.engine r).InRange (g.price p) ↔ r.InRange p := by
  unfold RefEngine.InRange engine
  dsimp only
  rw [hbase]
  exact g.inRange p

theorem canRest_engine (hbase : r.basePrice = basePrice) (a : Order) :
    (g.engine r).CanRest (g.order a) ↔ r.CanRest a := by
  unfold RefEngine.CanRest
  refine and_congr (g.inRange_engine hbase a.price) (and_congr ?_ ?_)
  · simp [engine, order]
  · simp [engine]

theorem restRemainder_relabel (hbase : r.basePrice = basePrice) (a : Order) (res : NewOrderResult) :
    (g.engine r).restRemainder (g.order a) res = ((r.restRemainder a res).1, g.engine (r.restRemainder a res).2) := by
  have hday : (g.order a).remaining > 0 ∧ (g.order a).type = .limit ∧ (g.order a).tif = .day ↔
      a.remaining > 0 ∧ a.type = .limit ∧ a.tif = .day := Iff.rfl
  unfold RefEngine.restRemainder
  by_cases hrests : a.remaining > 0 ∧ a.type = .limit ∧ a.tif = .day
  · rw [if_pos hrests, if_pos (hday.2 hrests)]
    by_cases hcan : r.CanRest a
    · rw [if_pos hcan, if_pos ((g.canRest_engine hbase a).2 hcan)]
      simp [engine]
    · rw [if_neg hcan, if_neg fun h => hcan ((g.canRest_engine hbase a).1 h)]
  · rw [if_neg hrests, if_neg fun h => hrests (hday.1 h)]

theorem submit_relabel (hr : r.Valid) (hbase : r.basePrice = basePrice) {o : Order} {out out' : List Fill}
    {res : NewOrderResult} (h : r.submit o out = some (res, r', out')) :
    (g.engine r).submit (g.order o) (out.map g.fill) = some (res, g.engine r', out'.map g.fill) := by
  have hliq : liquidity (g.order o) (g.engine r).resting = liquidity o r.resting := g.liquidity_order o r.resting
  have hshort : (g.order o).tif = .fok ∧ liquidity (g.order o) (g.engine r).resting < (g.order o).quantity ↔
      o.tif = .fok ∧ liquidity o r.resting < o.quantity := by
    rw [hliq]
    rfl
  revert h
  unfold RefEngine.submit
  by_cases hsym : o.symbol ≠ r.symbol
  · rw [if_pos hsym, if_pos (show (g.order o).symbol ≠ (g.engine r).symbol from hsym)]
    rintro h; cases h; rfl
  rw [if_neg hsym, if_neg (show ¬ (g.order o).symbol ≠ (g.engine r).symbol from hsym)]
  by_cases hq : o.quantity ≤ 0
  · rw [if_pos hq, if_pos (show (g.order o).quantity ≤ 0 from hq)]
    rintro h; cases h; rfl
  rw [if_neg hq, if_neg (show ¬ (g.order o).quantity ≤ 0 from hq)]
  by_cases hfok : o.tif = .fok ∧ liquidity o r.resting < o.quantity
  · rw [if_pos hfok, if_pos (hshort.2 hfok)]
    rintro h; cases h; rfl
  rw [if_neg hfok, if_neg fun h => hfok (hshort.1 h)]
  obtain ⟨fs, a, r₁, hmatch, hsweep, -⟩ := RefEngine.matchAgainstBook_sweep hr o.fresh out
  obtain ⟨⟨a', r₁', out₁⟩, hmatch', ha, hr₁, hout⟩ := g.matchAgainstBook_relabel hmatch
  dsimp only at ha hr₁ hout
  subst ha hr₁ hout
  have hrest := g.restRemainder_relabel (hsweep.instrument.2.trans hbase) a
  rw [hmatch, show (g.order o).fresh = g.order o.fresh from rfl, hmatch']
  dsimp only
  rw [hrest, List.length_map, List.length_map]
  rintro h
  cases h
  rfl

theorem cancel_relabel (id : OrderId) : (g.engine r).cancel id = ((r.cancel id).1, g.engine (r.cancel id).2) := by
  have hiff : (∃ o ∈ (g.engine r).resting, o.id = id) ↔ ∃ o ∈ r.resting, o.id = id := by
    simp [engine, order]
  unfold RefEngine.cancel
  by_cases hid : ∃ o ∈ r.resting, o.id = id
  · rw [if_pos hid, if_pos (hiff.2 hid)]
    dsimp only [engine]
    rw [g.removeOrder_order]
  · rw [if_neg hid, if_neg fun h => hid (hiff.1 h)]

theorem replace_relabel (hr : r.Valid) (hbase : r.basePrice = basePrice) {id : OrderId} {p q : Int} {seq : Sequence}
    {ts : Int} {out out' : List Fill} {res : ReplaceResult} (h : r.replace id p q seq ts out = some (res, r', out')) :
    (g.engine r).replace id (g.price p) q seq (g.time ts) (out.map g.fill) =
      some (res, g.engine r', out'.map g.fill) := by
  revert h
  unfold RefEngine.replace
  rw [show (g.engine r).resting = r.resting.map g.order from rfl, g.find?_order]
  cases hfind : r.resting.find? fun o => decide (o.id = id) with
  | none => rintro h; cases h; rfl
  | some existing =>
    rw [Option.map_some]
    dsimp only
    by_cases hq : q ≤ 0
    · rw [if_pos hq, if_pos hq]
      rintro h; cases h; rfl
    rw [if_neg hq, if_neg hq]
    by_cases hp : r.InRange p
    · rw [if_neg (not_not.2 hp), if_neg (not_not.2 ((g.inRange_engine hbase p).2 hp))]
      obtain ⟨res', r'', fs, hsubmit, -⟩ :=
        RefEngine.submit_submitted (hr.removeOrder id) (existing.replaced p q seq ts) out
      have hrelabel := g.submit_relabel (hr.removeOrder id) hbase hsubmit
      have hengine : g.engine { r with resting := removeOrder id r.resting } =
          { g.engine r with resting := removeOrder id (r.resting.map g.order) } := by
        unfold engine
        dsimp only
        rw [g.removeOrder_order]
      rw [hengine] at hrelabel
      rw [hsubmit, show (g.order existing).replaced (g.price p) q seq (g.time ts) =
        g.order (existing.replaced p q seq ts) from rfl, hrelabel]
      rintro h
      cases h
      rfl
    · rw [if_pos hp, if_pos fun h => hp ((g.inRange_engine hbase p).1 h)]
      rintro h; cases h; rfl

/-- A relabelled call has the same result. -/
theorem call_relabel (hr : r.Valid) (hbase : r.basePrice = basePrice) {c : Call} {resp : Response}
    (h : r.call c = some (resp, r')) : (g.engine r).call (g.call c) = some (g.response resp, g.engine r') := by
  cases c with
  | submit o out =>
    obtain ⟨res, r₁, fs, hsubmit, -⟩ := RefEngine.submit_submitted hr o out
    rw [RefEngine.call, hsubmit] at h
    cases h
    rw [call, RefEngine.call, g.submit_relabel hr hbase hsubmit]
    rfl
  | cancel id =>
    cases h
    rw [call, RefEngine.call, g.cancel_relabel]
    rfl
  | replace id p q seq ts out =>
    obtain ⟨res, r₁, fs, hreplace, -⟩ := RefEngine.replace_replaced hr id p q seq ts out
    rw [RefEngine.call, hreplace] at h
    cases h
    rw [call, RefEngine.call, g.replace_relabel hr hbase hreplace]
    rfl

/-- Corresponding runs of two engines. -/
theorem run_relabel {M : Type} [DenseMap M OrderId Nat] (symbol : SymbolId) (calls : List Call) :
    ∃ resps e e' r, runAll MatchingEngine.call (MatchingEngine.new P M symbol basePrice) calls = some (resps, e) ∧
      runAll MatchingEngine.call (MatchingEngine.new P M symbol basePrice) (calls.map g.call) =
        some (resps.map g.response, e') ∧
      Refines e r ∧ Refines e' (g.engine r) ∧ r.basePrice = basePrice := by
  have hstep : ∀ (e e' : MatchingEngine P M) (c c' : Call),
      (∃ r, Refines e r ∧ Refines e' (g.engine r) ∧ r.basePrice = basePrice) → g.call c = c' →
      ∃ resp resp' e₁ e₁', e.call c = some (resp, e₁) ∧ e'.call c' = some (resp', e₁') ∧ g.response resp = resp' ∧
        ∃ r, Refines e₁ r ∧ Refines e₁' (g.engine r) ∧ r.basePrice = basePrice := by
    rintro e e' c _ ⟨r, h, h', hbase⟩ rfl
    obtain ⟨resp, e₁, r₁, he, hr, hR, -, hbase₁⟩ := call_sim h c
    obtain ⟨resp', e₁', r₁', he', hr', hR', -, -⟩ := call_sim h' (g.call c)
    rw [g.call_relabel h.valid hbase hr] at hr'
    cases hr'
    exact ⟨resp, _, e₁, e₁', he, he', rfl, r₁, hR, hR', hbase₁.trans hbase⟩
  have hcalls : List.Forall₂ (fun c c' => g.call c = c') calls (calls.map g.call) :=
    List.forall₂_map_left_iff.1 (List.forall₂_refl _)
  obtain ⟨resps, resps', e, e', hrun, hrun', hresps, r, h, h', hbase⟩ :=
    runAll_forall₂ _ hstep hcalls _ _ ⟨_, refines_new symbol basePrice, refines_new symbol basePrice, rfl⟩
  have heq : resps.map g.response = resps' := by
    rw [← List.forall₂_eq_eq_eq, List.forall₂_map_left_iff]
    exact hresps
  rw [← heq] at hrun'
  exact ⟨resps, e, e', r, hrun, hrun', h, h', hbase⟩

end Relabelling

end Exchange
