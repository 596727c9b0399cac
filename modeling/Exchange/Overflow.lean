import Exchange.Lib.Wrapping
import Exchange.Rejection
import Exchange.Session

/-!
# Signed arithmetic on the values of a new order

`check_new_order` negates the quantity of a sell and adds the result to the position, and `index_of` subtracts the
base price from the price, all in `std::int64_t` and on numbers as they came from the wire.  The checked versions of
these functions fault where such an operation leaves the range of the type, and this module says for which orders they
do. It also shows that `index_of` answers correctly even where its subtraction wraps around, for every ladder that
fits into memory.
-/

namespace Exchange

open OrderBook DenseMap

/-! ### `index_of` in 64 bits -/

/-- `index_of` with a subtraction that wraps around. -/
def OrderBook.indexOf64 (numLevels : Nat) (basePrice p : Int64) : Option Nat :=
  let offset := p - basePrice
  if offset < 0 ∨ numLevels ≤ offset.toUInt64.toNat then none else some offset.toUInt64.toNat

theorem indexOf64_isSome (numLevels : Nat) (basePrice p : Int64) :
    (indexOf64 numLevels basePrice p).isSome ↔
      0 ≤ (p - basePrice).toInt ∧ (p - basePrice).toInt < numLevels := by
  have hsign : p - basePrice < 0 ↔ (p - basePrice).toInt < 0 := by
    rw [Int64.lt_iff_toInt_lt, Int64.toInt_zero]
  unfold indexOf64
  dsimp only
  split_ifs with hout
  · simp only [Option.isSome_none, Bool.false_eq_true, false_iff]
    rintro ⟨hpos, hlt⟩
    have hnat := toNat_toUInt64 hpos
    rcases hout with hneg | hhigh
    · exact absurd (hsign.1 hneg) (not_lt.2 hpos)
    · omega
  · obtain ⟨hneg, hhigh⟩ := not_or.1 hout
    have hpos : 0 ≤ (p - basePrice).toInt := not_lt.1 fun h => hneg (hsign.2 h)
    have hnat := toNat_toUInt64 hpos
    simp only [Option.isSome_some, true_iff]
    omega

/-- The difference of two prices is exact, or off by `2 ^ 64`. -/
theorem toInt_sub_cases (p basePrice : Int64) :
    (p - basePrice).toInt = p.toInt - basePrice.toInt ∨
      (p - basePrice).toInt = p.toInt - basePrice.toInt + 2 ^ 64 ∨
      (p - basePrice).toInt = p.toInt - basePrice.toInt - 2 ^ 64 := by
  have hp := p.toInt_lt
  have hp' := p.le_toInt
  have hbase := basePrice.toInt_lt
  have hbase' := basePrice.le_toInt
  rw [Int64.toInt_sub, Int.bmod_def]
  split_ifs <;> omega

/-- `index_of` finds exactly the prices of the ladder, unless the ladder has more than `2 ^ 63` levels. -/
theorem indexOf64_iff {numLevels : Nat} {basePrice : Int64} (h : InInt64 (basePrice.toInt + numLevels)) :
    (∀ p : Int64, (indexOf64 numLevels basePrice p).isSome ↔
      basePrice.toInt ≤ p.toInt ∧ p.toInt < basePrice.toInt + numLevels) ↔ numLevels ≤ 2 ^ 63 := by
  have hbase := basePrice.le_toInt
  obtain ⟨-, htop⟩ := h
  constructor
  · intro hall
    by_contra hlarge
    -- the price 2^63 above the base is on the ladder, but its offset is negative
    have hp : (Int64.ofInt (basePrice.toInt + 2 ^ 63)).toInt = basePrice.toInt + 2 ^ 63 :=
      Int64.toInt_ofInt_of_le (by omega) (by omega)
    have hsome := (hall (Int64.ofInt (basePrice.toInt + 2 ^ 63))).2 (by omega)
    obtain ⟨hpos, -⟩ := (indexOf64_isSome _ _ _).1 hsome
    have hcases := toInt_sub_cases (Int64.ofInt (basePrice.toInt + 2 ^ 63)) basePrice
    have hlt := (Int64.ofInt (basePrice.toInt + 2 ^ 63) - basePrice).toInt_lt
    omega
  · intro hsmall p
    rw [indexOf64_isSome]
    have hp := p.toInt_lt
    have hp' := p.le_toInt
    have hcases := toInt_sub_cases p basePrice
    have hlt := (p - basePrice).toInt_lt
    have hle := (p - basePrice).le_toInt
    omega

/-! ### Checked operations -/

/-- The result of a signed operation, if it is in the range of `std::int64_t`. -/
def checked (x : Int) : Option Int := if InInt64 x then some x else none

/-- `check_new_order`, which faults if one of its operations on the quantity overflows. -/
def RiskEngine.checkNewOrderChecked {X : Type} [DenseMap X UInt64 ClientExposure] (k : RiskEngine X) (order : Order) :
    Option RejectReason :=
  if k.killSwitchEngaged then some .riskKillSwitch
  else if order.quantity > k.limits.maxOrderSize then some .riskMaxOrderSize
  else
    let found := find k.exposure (accountKey order.client order.symbol)
    let currentPosition := found.elim 0 ClientExposure.position
    let delta := if order.side = .buy then some order.quantity else checked (-order.quantity)
    (delta.bind fun delta => checked (currentPosition + delta)).map fun prospective =>
      if prospective > k.limits.maxPosition ∨ prospective < -k.limits.maxPosition then .riskMaxPosition
      else if found.elim false fun x => decide (x.markToMarketPnl < k.limits.maxLossPerClient) then .riskMaxLoss
      else .none

variable {P : Params} {M X : Type} [DenseMap M OrderId Nat]

/-- The end of `submit`, which faults if the subtraction in `index_of` overflows. -/
def MatchingEngine.restRemainderChecked (e : MatchingEngine P M) (order : Order) (result : NewOrderResult) :
    Option (NewOrderResult × MatchingEngine P M) :=
  if order.remaining > 0 ∧ order.type = .limit ∧ order.tif = .day then
    -- `add` has no reason to refuse such an order before it calls `index_of`
    (checked (order.price - e.book.basePrice)).map fun _ => e.restRemainder order result
  else some (e.restRemainder order result)

/-- The same for `submit`. -/
def MatchingEngine.submitChecked (e : MatchingEngine P M) (order : Order) (outFills : List Fill) :
    Option (NewOrderResult × MatchingEngine P M × List Fill) :=
  let result : NewOrderResult := { remainingAfter := order.quantity }
  if order.symbol ≠ e.book.symbol then some ({ result with rejectReason := .unknownSymbol }, e, outFills)
  else if order.quantity ≤ 0 then some ({ result with rejectReason := .invalidQuantity }, e, outFills)
  else
    let order := order.fresh
    match e.fokNotFillable order with
    | none => none
    | some true => some ({ result with rejectReason := .fokNotFillable }, e, outFills)
    | some false =>
      match e.matchAgainstBook order outFills with
      | none => none
      | some st =>
        let result := { result with fillCount := st.outFills.length - outFills.length }
        (st.engine.restRemainderChecked st.aggressor result).map fun p =>
          ({ p.1 with remainingAfter := st.aggressor.remaining }, p.2, st.outFills)

variable [DenseMap X UInt64 ClientExposure]

/-- The same for `process_new_order`. -/
def ReplayEngine.processNewOrderChecked (s : ReplayEngine P M X) (wire : NewOrderMessage) (timestamp : Int) :
    Option (Option Submission × ReplayEngine P M X) :=
  let order := s.orderOf wire timestamp
  (s.risk.checkNewOrderChecked order).bind fun riskReason =>
    if riskReason ≠ .none then s.processNewOrder wire timestamp
    else (s.matching.submitChecked order []).bind fun _ => s.processNewOrder wire timestamp

/-! ### When an operation overflows -/

/-- An order for the symbol of the engine that is matched and keeps a Day Limit remainder. -/
structure KeepsRemainder (e : MatchingEngine P M) (o : Order) : Prop where
  symbol : o.symbol = e.book.symbol
  quantity : 0 < o.quantity
  type : o.type = .limit
  tif : o.tif = .day
  short : ∃ total, e.availableLiquidity o.side (o.type == .market) o.price o.quantity = some total ∧
    total < o.quantity

/-- If the risk check comes to use the quantity, neither it nor its sum with the position is too large for the side
of the order; if the order comes to rest, its price is not too far from the base price. -/
structure Representable (s : ReplayEngine P M X) (o : Order) : Prop where
  buy : s.risk.killSwitchEngaged = false → o.quantity ≤ s.risk.limits.maxOrderSize → o.side = .buy →
    -2 ^ 63 - s.risk.position o.client o.symbol ≤ o.quantity ∧
      o.quantity < 2 ^ 63 - s.risk.position o.client o.symbol
  sell : s.risk.killSwitchEngaged = false → o.quantity ≤ s.risk.limits.maxOrderSize → o.side = .sell →
    -2 ^ 63 < o.quantity ∧ o.quantity ≤ 2 ^ 63 ∧
      s.risk.position o.client o.symbol - 2 ^ 63 < o.quantity ∧
      o.quantity ≤ s.risk.position o.client o.symbol + 2 ^ 63
  price : s.risk.checkNewOrder o = .none → KeepsRemainder s.matching o →
    s.matching.book.basePrice - 2 ^ 63 ≤ o.price ∧ o.price < s.matching.book.basePrice + 2 ^ 63

section

variable {s : ReplayEngine P M X} {e : MatchingEngine P M} {r : RefEngine P} {o : Order}

/-- The results of the two operations on the quantity are in range, if they are performed. -/
def RiskEngine.QuantityFits (k : RiskEngine X) (o : Order) : Prop :=
  k.killSwitchEngaged = false → o.quantity ≤ k.limits.maxOrderSize →
    (o.side = .sell → InInt64 (-o.quantity)) ∧ InInt64 (k.position o.client o.symbol + signed o.side o.quantity)

theorem checked_cases (x : Int) : (checked x = some x ∧ InInt64 x) ∨ (checked x = none ∧ ¬ InInt64 x) := by
  by_cases h : InInt64 x
  · exact Or.inl ⟨if_pos h, h⟩
  · exact Or.inr ⟨if_neg h, h⟩

theorem checkNewOrderChecked_cases (k : RiskEngine X) (o : Order) :
    (k.checkNewOrderChecked o = some (k.checkNewOrder o) ∧ k.QuantityFits o) ∨
      (k.checkNewOrderChecked o = none ∧ ¬ k.QuantityFits o) := by
  unfold RiskEngine.checkNewOrderChecked RiskEngine.checkNewOrder RiskEngine.QuantityFits
  cases hkill : k.killSwitchEngaged with
  | true => exact Or.inl ⟨rfl, fun h => by cases h⟩
  | false =>
    by_cases hsize : o.quantity > k.limits.maxOrderSize
    · rw [if_pos hsize, if_pos hsize]
      exact Or.inl ⟨rfl, fun _ h => absurd hsize (not_lt.2 h)⟩
    · have hle := not_lt.1 hsize
      rw [if_neg hsize, if_neg hsize]
      rw [if_neg Bool.false_ne_true, if_neg Bool.false_ne_true]
      dsimp only [RiskEngine.position]
      cases hside : o.side with
      | buy =>
        rw [if_pos rfl, Option.bind_some, show RiskEngine.signed .buy o.quantity = o.quantity from rfl]
        rcases checked_cases ((find k.exposure (RiskEngine.accountKey o.client o.symbol)).elim 0
          ClientExposure.position + o.quantity) with ⟨hsum, hin⟩ | ⟨hsum, hout⟩
        · exact Or.inl ⟨by rw [hsum, Option.map_some], fun _ _ => ⟨nofun, hin⟩⟩
        · exact Or.inr ⟨by rw [hsum, Option.map_none], fun h => hout (h rfl hle).2⟩
      | sell =>
        rw [if_neg (show ¬ Side.sell = .buy by decide), show RiskEngine.signed .sell o.quantity = -o.quantity from rfl]
        rcases checked_cases (-o.quantity) with ⟨hneg, hin⟩ | ⟨hneg, hout⟩
        · rw [hneg, Option.bind_some]
          rcases checked_cases ((find k.exposure (RiskEngine.accountKey o.client o.symbol)).elim 0
            ClientExposure.position + -o.quantity) with ⟨hsum, hin'⟩ | ⟨hsum, hout⟩
          · exact Or.inl ⟨by rw [hsum, Option.map_some], fun _ _ => ⟨fun _ => hin, hin'⟩⟩
          · exact Or.inr ⟨by rw [hsum, Option.map_none], fun h => hout (h rfl hle).2⟩
        · exact Or.inr ⟨by rw [hneg, Option.bind_none, Option.map_none], fun h => hout ((h rfl hle).1 rfl)⟩

theorem Refines.keepsRemainder_iff (h : Refines e r) :
    KeepsRemainder e o ↔
      o.symbol = r.symbol ∧ 0 < o.quantity ∧ o.type = .limit ∧ o.tif = .day ∧ liquidity o r.resting < o.quantity := by
  have hshort := h.short_iff o
  constructor
  · rintro ⟨h1, h2, h3, h4, h5⟩
    exact ⟨h1.trans h.symbol, h2, h3, h4, hshort.1 h5⟩
  · rintro ⟨h1, h2, h3, h4, h5⟩
    exact ⟨h1.trans h.symbol.symm, h2, h3, h4, hshort.2 h5⟩

/-- `submit` calls `index_of` for the orders that keep a remainder. -/
theorem Refines.submitChecked_isSome (h : Refines e r) (o : Order) (out : List Fill) :
    (e.submitChecked o out).isSome ↔ (KeepsRemainder e o → InInt64 (o.price - e.book.basePrice)) := by
  rw [h.keepsRemainder_iff]
  unfold MatchingEngine.submitChecked
  rw [h.symbol]
  dsimp only
  by_cases hsym : o.symbol = r.symbol
  swap
  · rw [if_pos hsym]
    exact ⟨fun _ hk => absurd hk.1 hsym, fun _ => rfl⟩
  rw [if_neg (not_not.2 hsym)]
  by_cases hquantity : o.quantity ≤ 0
  · rw [if_pos hquantity]
    exact ⟨fun _ hk => absurd hk.2.1 (not_lt.2 hquantity), fun _ => rfl⟩
  rw [if_neg hquantity, fokNotFillable_eq h]
  by_cases hfok : o.fresh.tif = .fok ∧ liquidity o.fresh r.resting < o.fresh.quantity
  · rw [decide_eq_true hfok]
    refine ⟨fun _ hk => ?_, fun _ => rfl⟩
    exact absurd (hk.2.2.2.1.symm.trans hfok.1) (by decide)
  rw [decide_eq_false hfok]
  obtain ⟨fs, a, r', hmatch, hsweep, hset⟩ := RefEngine.matchAgainstBook_sweep h.valid o.fresh out
  have hx : r.Executed o fs a r' :=
    { symbol := hsym
      quantity := not_le.1 hquantity
      fillable := fun htif => not_lt.1 fun hlt => hfok ⟨htif, hlt⟩
      sweep := hsweep
      settled := hset }
  obtain ⟨st, hst, hagg, -, hR⟩ := matchAgainstBook_sim h _ out hmatch
  have hbase : st.engine.book.basePrice = e.book.basePrice := by
    rw [hR.basePrice, hsweep.instrument.2, h.basePrice]
  have ha : st.aggressor = { o with remaining := a.remaining } := hagg.trans hx.aggressor
  rw [hst]
  dsimp only
  rw [Option.isSome_map, MatchingEngine.restRemainderChecked, hbase, ha]
  have hpos := hx.remaining_pos_iff h.valid
  by_cases hrest : 0 < a.remaining ∧ o.type = .limit ∧ o.tif = .day
  · rw [if_pos hrest, Option.isSome_map, checked]
    have hkeep : o.symbol = r.symbol ∧ 0 < o.quantity ∧ o.type = .limit ∧ o.tif = .day ∧
        liquidity o r.resting < o.quantity := ⟨hsym, hx.quantity, hrest.2.1, hrest.2.2, hpos.1 hrest.1⟩
    dsimp only
    split_ifs with hprice
    · exact ⟨fun _ _ => hprice, fun _ => rfl⟩
    · exact ⟨nofun, fun himp => absurd (himp hkeep) hprice⟩
  · rw [if_neg hrest]
    exact ⟨fun _ hk => absurd ⟨hpos.2 hk.2.2.2.2, hk.2.2.1, hk.2.2.2.1⟩ hrest, fun _ => rfl⟩

omit [DenseMap M OrderId Nat] in
/-- The condition on an order, in terms of the results of the operations. -/
theorem representable_iff : Representable s o ↔ s.risk.QuantityFits o ∧
    (s.risk.checkNewOrder o = .none → KeepsRemainder s.matching o →
      InInt64 (o.price - s.matching.book.basePrice)) := by
  unfold RiskEngine.QuantityFits InInt64 RiskEngine.signed
  constructor
  · rintro ⟨hbuy, hsell, hprice⟩
    refine ⟨fun hkill hsize => ?_, fun hnone hkeep => ?_⟩
    · cases hside : o.side with
      | buy =>
        have := hbuy hkill hsize hside
        exact ⟨nofun, by rw [if_pos rfl]; omega⟩
      | sell =>
        have := hsell hkill hsize hside
        exact ⟨fun _ => by omega, by rw [if_neg (by decide)]; omega⟩
    · have := hprice hnone hkeep
      omega
  · rintro ⟨hfits, hprice⟩
    refine ⟨fun hkill hsize hside => ?_, fun hkill hsize hside => ?_, fun hnone hkeep => ?_⟩
    · have := (hfits hkill hsize).2
      rw [if_pos hside] at this
      omega
    · have hneg := (hfits hkill hsize).1 hside
      have hsum := (hfits hkill hsize).2
      rw [if_neg (by rw [hside]; decide)] at hsum
      omega
    · have := hprice hnone hkeep
      omega

/-- No operation on the values of a new order overflows if and only if the order is representable. -/
theorem processNewOrderChecked_isSome (hR : Refines s.matching r) (wire : NewOrderMessage) (timestamp : Int) :
    (s.processNewOrderChecked wire timestamp).isSome ↔ Representable s (s.orderOf wire timestamp) := by
  obtain ⟨out, s', r', hprocess, -⟩ := process_handled hR (.newOrder wire timestamp)
  have hsome : s.processNewOrder wire timestamp = some (out, s') := hprocess
  rw [representable_iff]
  unfold ReplayEngine.processNewOrderChecked
  dsimp only
  rcases checkNewOrderChecked_cases s.risk (s.orderOf wire timestamp) with ⟨hcheck, hfits⟩ | ⟨hcheck, hfits⟩
  · rw [hcheck, Option.bind_some, hsome]
    by_cases hnone : s.risk.checkNewOrder (s.orderOf wire timestamp) = .none
    · rw [if_neg (not_not.2 hnone), Option.isSome_bind]
      simp only [Option.isSome_some, Option.any_true, hR.submitChecked_isSome, hfits, hnone, true_and, forall_const]
    · rw [if_pos hnone]
      exact ⟨fun _ => ⟨hfits, fun h => absurd h hnone⟩, fun _ => rfl⟩
  · rw [hcheck, Option.bind_none]
    exact ⟨nofun, fun h => absurd h.1 hfits⟩

end

/-- In every reachable state, the operations on the price and the quantity of a new order stay in range exactly for
the representable orders.  For every base price with a representable upper end of the ladder, `index_of` finds exactly
the prices of a ladder of at most `2 ^ 63` levels. -/
theorem order_arithmetic_iff (symbol : SymbolId) (basePrice : Int64) (risk : RiskEngine X) (events : List Event)
    (wire : NewOrderMessage) (timestamp : Int) :
    (∃ outs s, runAll ReplayEngine.process (ReplayEngine.new (P := P) (M := M) symbol basePrice.toInt risk) events =
        some (outs, s) ∧
      ((s.processNewOrderChecked wire timestamp).isSome ↔ Representable s (s.orderOf wire timestamp))) ∧
    (InInt64 (basePrice.toInt + P.numLevels) →
      ((∀ p : Int64, (indexOf64 P.numLevels basePrice p).isSome ↔
        basePrice.toInt ≤ p.toInt ∧ p.toInt < basePrice.toInt + P.numLevels) ↔ P.numLevels ≤ 2 ^ 63)) := by
  obtain ⟨outs, s, r, hrun, hR, -⟩ := process_run (P := P) (M := M) (fun _ _ => True) (fun _ _ _ => trivial)
    symbol basePrice.toInt risk events trivial
  exact ⟨⟨outs, s, hrun, processNewOrderChecked_isSome hR wire timestamp⟩, indexOf64_iff⟩

/-- A sell of the least quantity there is passes the size check of an engine without positions, and its negation
overflows. -/
theorem sell_of_least_quantity_overflows :
    let s : ReplayEngine tinyParams IdMap ExposureMap := ReplayEngine.new 7 100 (RiskEngine.new looseLimits)
    s.risk.position 1 7 = 0 ∧ InInt64 (100 + tinyParams.numLevels) ∧
      s.processNewOrderChecked (limitDay 1 1 .sell 100 (-2 ^ 63)) 0 = none :=
  ⟨rfl, by decide, by decide⟩

end Exchange
