import Exchange.Gate
import Mathlib.Algebra.Order.Group.Abs
import Mathlib.Algebra.Order.Group.Int

/-!
# The position limit over whole runs

`check_new_order` compares an order with the position its client has at that moment.  Resting orders of the client,
which were approved one by one, can all fill later, so the position can pass `max_position`.  What cannot grow beyond
bounds is the exposure of a client on one side: its position plus the quantity it has resting there.  A fill of a
resting order leaves the exposure as it is, so only an approved order raises it.
-/

namespace Exchange

open OrderBook DenseMap RiskEngine

/-! ### Open quantity -/

/-- What the order counts for in the open quantity of client `c` on side `s`. -/
def openOf (c : ClientId) (s : Side) (o : Order) : Int := if o.client = c ∧ o.side = s then o.remaining else 0

def openQuantity (c : ClientId) (s : Side) (L : List Order) : Int := (L.map (openOf c s)).sum

section

variable {L : List Order} {o : Order} {c : ClientId} {s : Side} {q cap : Int}

theorem openQuantity_append (c : ClientId) (s : Side) (L L' : List Order) :
    openQuantity c s (L ++ L') = openQuantity c s L + openQuantity c s L' := by
  simp [openQuantity]

theorem openQuantity_cons (c : ClientId) (s : Side) (o : Order) (L : List Order) :
    openQuantity c s (o :: L) = openOf c s o + openQuantity c s L := by
  simp [openQuantity]

theorem openQuantity_reduceOrder (h : DistinctIds L) (ho : o ∈ L) (c : ClientId) (s : Side) (q : Int) :
    openQuantity c s (reduceOrder o.id q L) = openQuantity c s L - if o.client = c ∧ o.side = s then q else 0 := by
  obtain ⟨l, t, rfl⟩ := List.append_of_mem ho
  have hleft : openQuantity c s (leftover o q) = openOf c s o - if o.client = c ∧ o.side = s then q else 0 := by
    unfold leftover openOf
    split_ifs <;> simp_all [openQuantity, openOf]
  rw [reduceOrder_append h, openQuantity_append, openQuantity_append, openQuantity_append, openQuantity_cons, hleft]
  omega

theorem openQuantity_removeOrder (h : DistinctIds L) (ho : o ∈ L) (c : ClientId) (s : Side) :
    openQuantity c s (removeOrder o.id L) = openQuantity c s L - openOf c s o := by
  obtain ⟨l, t, rfl⟩ := List.append_of_mem ho
  rw [removeOrder_append h, openQuantity_append, openQuantity_append, openQuantity_cons]
  omega

theorem openOf_nonneg (ho : 0 ≤ o.remaining) : 0 ≤ openOf c s o := by
  unfold openOf
  split_ifs
  · exact ho
  · exact le_rfl

theorem openQuantity_nonneg (h : ∀ o ∈ L, 0 < o.remaining) : 0 ≤ openQuantity c s L := by
  refine List.sum_nonneg fun x hx => ?_
  obtain ⟨o, ho, rfl⟩ := List.mem_map.1 hx
  exact openOf_nonneg (h o ho).le

theorem openQuantity_le (hcap : 0 ≤ cap) (h : ∀ o ∈ L, o.remaining ≤ cap) : openQuantity c s L ≤ L.length * cap := by
  have hterm : ∀ x ∈ L.map (openOf c s), x ≤ cap := by
    intro x hx
    obtain ⟨o, ho, rfl⟩ := List.mem_map.1 hx
    unfold openOf
    split_ifs
    · exact h o ho
    · exact hcap
  have hsum := List.sum_le_card_nsmul _ cap hterm
  simpa [openQuantity] using hsum

/-- An order on the other side does not count. -/
theorem openQuantity_le_of_opposite (hcap : 0 ≤ cap) (h : ∀ o ∈ L, o.remaining ≤ cap) (ho : o ∈ L)
    (hside : o.side ≠ s) : openQuantity c s L ≤ (L.length - 1) * cap := by
  obtain ⟨l, t, rfl⟩ := List.append_of_mem ho
  have hl := openQuantity_le (c := c) (s := s) hcap fun x (hx : x ∈ l ++ t) => h x (by
    rcases List.mem_append.1 hx with hx | hx <;> simp [hx])
  have hzero : openOf c s o = 0 := if_neg fun e => hside e.2
  have hlen : ((l ++ o :: t).length : Int) - 1 = (l ++ t).length := by
    simp only [List.length_append, List.length_cons]
    omega
  rw [hlen, openQuantity_append, openQuantity_cons, hzero, zero_add, ← openQuantity_append]
  exact hl

end

/-! ### Exposure -/

section

variable {P : Params} {X : Type} [DenseMap X UInt64 ClientExposure] {k : RiskEngine X} {symbol : SymbolId}

/-- The position of client `c` towards side `s`, with what it has resting there. -/
def exposure (k : RiskEngine X) (symbol : SymbolId) (c : ClientId) (s : Side) (L : List Order) : Int :=
  signed s (k.position c symbol) + openQuantity c s L

@[simp] theorem signed_buy (q : Int) : signed .buy q = q := rfl

@[simp] theorem signed_sell (q : Int) : signed .sell q = -q := rfl

theorem recordFills_cons (k : RiskEngine X) (symbol : SymbolId) (f : Fill) (fs : List Fill) :
    k.recordFills symbol (f :: fs) = (k.recordFills symbol [f]).recordFills symbol fs := rfl

theorem position_recordFills_one (k : RiskEngine X) (symbol sym : SymbolId) (f : Fill) (c : ClientId) :
    (k.recordFills symbol [f]).position c sym = k.position c sym +
      (if f.restingClientId = c ∧ symbol = sym then signed (opposite f.aggressorSide) f.quantity else 0) +
      if f.aggressorClientId = c ∧ symbol = sym then signed f.aggressorSide f.quantity else 0 := by
  show ((k.recordFill _ _ _ _ _).recordFill _ _ _ _ _).position c sym = _
  rw [position_recordFill, position_recordFill]

theorem position_recordFills_of_ne {sym : SymbolId} (hne : symbol ≠ sym) (k : RiskEngine X) (fs : List Fill)
    (c : ClientId) : (k.recordFills symbol fs).position c sym = k.position c sym := by
  induction fs generalizing k with
  | nil => rfl
  | cons f fs ih =>
    rw [recordFills_cons, ih, position_recordFills_one]
    simp [hne]

@[simp] theorem limits_recordFills (k : RiskEngine X) (symbol : SymbolId) (fs : List Fill) :
    (k.recordFills symbol fs).limits = k.limits := by
  induction fs generalizing k with
  | nil => rfl
  | cons f fs ih =>
    rw [recordFills_cons, ih]
    rfl

theorem killSwitch_recordFills (k : RiskEngine X) (symbol : SymbolId) (fs : List Fill) :
    (k.recordFills symbol fs).killSwitchEngaged = k.killSwitchEngaged := by
  induction fs generalizing k with
  | nil => rfl
  | cons f fs ih =>
    rw [recordFills_cons, ih]
    rfl

/-- One fill raises the exposure of its aggressor on its side, and no other. -/
theorem exposure_fill {L : List Order} {a o : Order} {q : Int} (h : DistinctIds L) (ho : o ∈ L)
    (hside : o.side = opposite a.side) (hq : 0 ≤ q) (k : RiskEngine X) (symbol : SymbolId) (matchId : UInt64)
    (c : ClientId) (s : Side) :
    exposure (k.recordFills symbol [fillOf matchId a o o.price q]) symbol c s (reduceOrder o.id q L) ≤
      exposure k symbol c s L + if a.client = c ∧ a.side = s then q else 0 := by
  unfold exposure
  rw [position_recordFills_one, openQuantity_reduceOrder h ho, hside]
  -- on the aggressor's side the resting party can only lose position, on the other side it gains what it had open
  cases s <;> cases hs : a.side <;> by_cases hr : o.client = c <;> by_cases ha : a.client = c <;>
    simp [fillOf, hs, hr, ha] <;> omega

namespace RefEngine

variable {r r' : RefEngine P} {a a' o : Order} {fs : List Fill} {res : NewOrderResult} {cap : Int}

theorem Sweep.exposure_le (h : Sweep a r fs a' r') (hr : r.Valid) (k : RiskEngine X) (symbol : SymbolId) (c : ClientId)
    (s : Side) :
    exposure (k.recordFills symbol fs) symbol c s r'.resting ≤
      exposure k symbol c s r.resting + if a.client = c ∧ a.side = s then a.remaining - a'.remaining else 0 := by
  induction h generalizing k with
  | done a r =>
    have hzero : (if a.client = c ∧ a.side = s then a.remaining - a.remaining else 0) = 0 := by simp
    rw [hzero, add_zero]
    exact le_rfl
  | @fill a o a' r r' fs hpos hpick _ ih =>
    obtain ⟨ho, hacc⟩ := pick_mem hpick
    have hside : o.side = opposite a.side := of_decide_eq_true (Bool.and_eq_true_iff.1 hacc).1
    have hrem := hr.remaining_pos o ho
    have hq : 0 ≤ min a.remaining o.remaining := by omega
    have hfirst := exposure_fill hr.ids ho hside hq k symbol r.nextMatchId c s
    have hrest := ih (hr.afterFill ho a)
      (k.recordFills symbol [fillOf r.nextMatchId a o o.price (min a.remaining o.remaining)])
    have hresting : (r.afterFill a o).resting = reduceOrder o.id (min a.remaining o.remaining) r.resting := rfl
    rw [hresting] at hrest
    dsimp only at hrest
    rw [recordFills_cons]
    by_cases hmine : a.client = c ∧ a.side = s
    · rw [if_pos hmine] at hfirst hrest ⊢
      omega
    · rw [if_neg hmine] at hfirst hrest ⊢
      omega

theorem Sweep.aggressor_le (h : Sweep a r fs a' r') (hr : r.Valid) : a'.remaining ≤ a.remaining := by
  induction h with
  | done a r => exact le_rfl
  | @fill a o a' r r' fs hpos hpick _ ih =>
    obtain ⟨ho, -⟩ := pick_mem hpick
    have hrem := hr.remaining_pos o ho
    have hrest : a'.remaining ≤ a.remaining - min a.remaining o.remaining := ih (hr.afterFill ho a)
    omega

/-- A sweep makes no order larger. -/
theorem Sweep.remaining_le (h : Sweep a r fs a' r') (hr : r.Valid) (hcap : ∀ o ∈ r.resting, o.remaining ≤ cap) :
    ∀ o ∈ r'.resting, o.remaining ≤ cap := by
  induction h with
  | done a r => exact hcap
  | @fill a o a' r r' fs hpos hpick _ ih =>
    obtain ⟨ho, -⟩ := pick_mem hpick
    refine ih (hr.afterFill ho a) fun x hx => ?_
    rcases (mem_reduceOrder hr.ids ho).1 hx with ⟨hx, -⟩ | ⟨rfl, -⟩
    · exact hcap x hx
    · have hle := hcap o ho
      have hrem := hr.remaining_pos o ho
      show o.remaining - min a.remaining o.remaining ≤ cap
      omega

theorem Sweep.exists_opposite (h : Sweep a r fs a' r') (hfs : fs ≠ []) : ∃ o ∈ r.resting, o.side ≠ a.side := by
  cases h with
  | done => exact absurd rfl hfs
  | @fill _ o _ _ _ _ _ hpick _ =>
    obtain ⟨ho, hacc⟩ := pick_mem hpick
    have hside : o.side = opposite a.side := of_decide_eq_true (Bool.and_eq_true_iff.1 hacc).1
    refine ⟨o, ho, ?_⟩
    rw [hside]
    cases a.side <;> decide

/-- Where an order trades or rests, the book had room besides the orders on its side. -/
theorem Submitted.room (h : Submitted r o res r' fs) (hactive : fs ≠ [] ∨ res.rested = true) :
    (∃ x ∈ r.resting, x.side ≠ o.side) ∨ r.resting.length < P.maxOrders := by
  cases h with
  | refused _ _ => simp at hactive
  | @rested _ a r₁ hx _ _ _ hrest =>
    by_cases hfs : fs = []
    · subst hfs
      have hsweep := hx.sweep
      cases hsweep with
      | done => exact Or.inr hrest.2.2
    · exact Or.inl (hx.sweep.exists_opposite hfs)
  | full hx _ _ _ _ => exact Or.inl (hx.sweep.exists_opposite (hactive.resolve_right (by simp)))
  | ended hx _ => exact Or.inl (hx.sweep.exists_opposite (hactive.resolve_right (by simp)))

theorem Executed.exposure_le (h : r.Executed o fs a r') (hr : r.Valid) (k : RiskEngine X) (symbol : SymbolId)
    (c : ClientId) (s : Side) :
    exposure (k.recordFills symbol fs) symbol c s r'.resting ≤
      exposure k symbol c s r.resting + if o.client = c ∧ o.side = s then o.quantity - a.remaining else 0 :=
  h.sweep.exposure_le hr k symbol c s

/-- For an order that is not left resting. -/
theorem Executed.exposure_le_of_gone (h : r.Executed o fs a r') (hr : r.Valid) (k : RiskEngine X) (symbol : SymbolId)
    (c : ClientId) (s : Side) :
    exposure (k.recordFills symbol fs) symbol c s r'.resting ≤ exposure k symbol c s r.resting +
      if (o.client = c ∧ o.side = s) ∧ (fs ≠ [] ∨ false = true) then o.quantity else 0 := by
  have hsweep := h.exposure_le hr k symbol c s
  have hnonneg := h.remaining_nonneg
  by_cases hmine : o.client = c ∧ o.side = s
  · rw [if_pos hmine] at hsweep
    by_cases hfs : fs = []
    · subst hfs
      have hsame : a.remaining = o.quantity := h.sweep.remaining_of_nil
      rw [if_neg (by simp)]
      omega
    · rw [if_pos ⟨hmine, Or.inl hfs⟩]
      omega
  · rw [if_neg hmine] at hsweep
    rw [if_neg fun hif => hmine hif.1]
    exact hsweep

/-- A submission raises only the exposure of its client on its side, by at most its quantity, and only if it trades or
rests. -/
theorem Submitted.exposure_le (h : Submitted r o res r' fs) (hr : r.Valid) (k : RiskEngine X) (symbol : SymbolId)
    (c : ClientId) (s : Side) :
    exposure (k.recordFills symbol fs) symbol c s r'.resting ≤ exposure k symbol c s r.resting +
      if (o.client = c ∧ o.side = s) ∧ (fs ≠ [] ∨ res.rested = true) then o.quantity else 0 := by
  cases h with
  | refused _ _ =>
    rw [if_neg (by simp), add_zero]
    exact le_rfl
  | @rested _ a r₁ hx _ _ _ _ =>
    have hsweep := hx.exposure_le hr k symbol c s
    have ha : openOf c s a = if o.client = c ∧ o.side = s then a.remaining else 0 := by
      unfold openOf
      rw [hx.aggressor]
    have hlast : exposure (k.recordFills symbol fs) symbol c s (r₁.resting ++ [a]) =
        exposure (k.recordFills symbol fs) symbol c s r₁.resting + openOf c s a := by
      simp only [exposure, openQuantity, List.map_append, List.sum_append, List.map_cons, List.map_nil, List.sum_cons,
        List.sum_nil]
      omega
    show exposure (k.recordFills symbol fs) symbol c s (r₁.resting ++ [a]) ≤ _
    rw [hlast, ha]
    by_cases hmine : o.client = c ∧ o.side = s
    · rw [if_pos hmine] at hsweep ⊢
      rw [if_pos ⟨hmine, Or.inr rfl⟩]
      omega
    · rw [if_neg hmine] at hsweep ⊢
      rw [if_neg fun hif => hmine hif.1]
      omega
  | full hx _ _ _ _ => exact hx.exposure_le_of_gone hr k symbol c s
  | ended hx _ => exact hx.exposure_le_of_gone hr k symbol c s

/-- No order in the book is larger than the orders that were submitted. -/
theorem Submitted.remaining_le (h : Submitted r o res r' fs) (hr : r.Valid) (hcap : ∀ x ∈ r.resting, x.remaining ≤ cap)
    (ho : o.quantity ≤ cap) : ∀ x ∈ r'.resting, x.remaining ≤ cap := by
  cases h with
  | refused _ _ => exact hcap
  | @rested _ a r₁ hx _ _ _ _ =>
    have hswept := hx.sweep.remaining_le hr hcap
    have ha : a.remaining ≤ o.quantity := hx.sweep.aggressor_le hr
    intro x hx'
    rcases List.mem_append.1 hx' with hx' | hx'
    · exact hswept x hx'
    · obtain rfl : x = a := by simpa using hx'
      exact ha.trans ho
  | full hx _ _ _ _ => exact hx.sweep.remaining_le hr hcap
  | ended hx _ => exact hx.sweep.remaining_le hr hcap

/-- Where an order trades or rests, the orders on its side fill at most all but one of the slots. -/
theorem Submitted.openQuantity_le (h : Submitted r o res r' fs) (hr : r.Valid) (hcap : 0 ≤ cap)
    (hsize : ∀ x ∈ r.resting, x.remaining ≤ cap) (hactive : fs ≠ [] ∨ res.rested = true) (c : ClientId) :
    openQuantity c o.side r.resting ≤ (P.maxOrders - 1) * cap := by
  have hlen := hr.length
  rcases h.room hactive with ⟨x, hx, hside⟩ | hfree
  · refine (openQuantity_le_of_opposite hcap hsize hx hside).trans ?_
    exact Int.mul_le_mul_of_nonneg_right (by omega) hcap
  · refine (Exchange.openQuantity_le hcap hsize).trans ?_
    exact Int.mul_le_mul_of_nonneg_right (by omega) hcap

theorem Submitted.symbol_of_active (h : Submitted r o res r' fs) (hactive : fs ≠ [] ∨ res.rested = true) :
    o.symbol = r.symbol := by
  cases h with
  | refused _ _ => simp at hactive
  | rested hx _ _ _ _ => exact hx.symbol
  | full hx _ _ _ _ => exact hx.symbol
  | ended hx _ => exact hx.symbol

/-- Fills are recorded under the symbol of the book. -/
theorem Submitted.recordFills_symbol (h : Submitted r o res r' fs) (k : RiskEngine X) :
    k.recordFills o.symbol fs = k.recordFills r.symbol fs := by
  by_cases hfs : fs = []
  · rw [hfs]
    rfl
  · rw [h.symbol_of_active (Or.inl hfs)]

end RefEngine

/-! ### Whole runs -/

/-- The most a client's position can come to: the limit, and all but one of the slots of the book with orders of the
largest size in them. -/
def positionBound (P : Params) (limits : Limits) : Int :=
  limits.maxPosition + (P.maxOrders - 1) * max 0 limits.maxOrderSize

structure Bounded (limits : Limits) (k : RiskEngine X) (r : RefEngine P) : Prop where
  sameLimits : k.limits = limits
  size : ∀ o ∈ r.resting, o.remaining ≤ max 0 limits.maxOrderSize
  exposure : ∀ c s, Exchange.exposure k r.symbol c s r.resting ≤ positionBound P limits
  foreign : ∀ c symbol, symbol ≠ r.symbol → k.position c symbol = 0

variable {r r' : RefEngine P} {limits : Limits} {o : Order} {fs : List Fill} {res : NewOrderResult}

theorem positionBound_nonneg (hmax : 0 ≤ limits.maxPosition) : 0 ≤ positionBound P limits := by
  have hpos := P.maxOrders_pos
  have hslots : 0 ≤ ((P.maxOrders : Int) - 1) * max 0 limits.maxOrderSize :=
    Int.mul_nonneg (by omega) (le_max_left 0 _)
  unfold positionBound
  omega

theorem bounded_new (hmax : 0 ≤ limits.maxPosition) (symbol : SymbolId) (basePrice : Int) :
    Bounded limits (RiskEngine.new limits : RiskEngine X) (RefEngine.new P symbol basePrice) := by
  have hposition : ∀ c sym, (RiskEngine.new limits : RiskEngine X).position c sym = 0 := by
    intro c sym
    unfold RiskEngine.position RiskEngine.new
    rw [find_empty]
    rfl
  have hbound := positionBound_nonneg (P := P) hmax
  refine ⟨rfl, by simp [RefEngine.new], ?_, fun c sym _ => hposition c sym⟩
  intro c s
  unfold exposure
  rw [hposition]
  cases s <;> simpa [RefEngine.new, openQuantity] using hbound

theorem Bounded.removeOrder (h : Bounded limits k r) (hr : r.Valid) (ho : o ∈ r.resting) :
    Bounded limits k ({ r with resting := Exchange.removeOrder o.id r.resting } : RefEngine P) where
  sameLimits := h.sameLimits
  size x hx := h.size x (mem_removeOrder.1 hx).1
  exposure c s := by
    have hbound := h.exposure c s
    have hnonneg : 0 ≤ openOf c s o := openOf_nonneg (hr.remaining_pos o ho).le
    have hremoved := openQuantity_removeOrder hr.ids ho c s
    unfold Exchange.exposure at hbound ⊢
    dsimp only
    omega
  foreign := h.foreign

/-- The step: an approved order keeps the bound.  It fits with the position of its client alone, and the other orders
on its side fill at most all but one of the slots. -/
theorem Bounded.submitted (h : Bounded limits k r) (hr : r.Valid) (hok : k.checkNewOrder o = .none)
    (hsub : r.Submitted o res r' fs) : Bounded limits (k.recordFills r.symbol fs) r' := by
  obtain ⟨-, hsize, hup, hdown⟩ := checkNewOrder_eq_none hok
  rw [h.sameLimits] at hsize hup hdown
  have hsymbol := hsub.instrument.1
  refine ⟨by rw [limits_recordFills, h.sameLimits], ?_, ?_, ?_⟩
  · exact hsub.remaining_le hr h.size (hsize.trans (le_max_right 0 _))
  · intro c s
    rw [hsymbol]
    have hexp := hsub.exposure_le hr k r.symbol c s
    by_cases hraise : (o.client = c ∧ o.side = s) ∧ (fs ≠ [] ∨ res.rested = true)
    · rw [if_pos hraise] at hexp
      obtain ⟨⟨rfl, rfl⟩, hactive⟩ := hraise
      have hfits : signed o.side (k.position o.client o.symbol) + o.quantity ≤ limits.maxPosition := by
        cases hs : o.side <;> simp only [hs, signed_buy, signed_sell] at hup hdown ⊢ <;> omega
      have hopen := hsub.openQuantity_le hr (le_max_left 0 _) h.size hactive o.client
      rw [hsub.symbol_of_active hactive] at hfits
      unfold Exchange.exposure positionBound at *
      omega
    · rw [if_neg hraise, add_zero] at hexp
      exact hexp.trans (h.exposure c s)
  · intro c sym hne
    rw [hsymbol] at hne
    rw [position_recordFills_of_ne hne.symm]
    exact h.foreign c sym hne

end

section

variable {P : Params} {M X : Type} [DenseMap M OrderId Nat] [DenseMap X UInt64 ClientExposure]
  {s s' : ReplayEngine P M X} {r r' : RefEngine P} {limits : Limits}

theorem Bounded.unchanged {symbol : SymbolId} {T : Levels P M} (h : Bounded limits s.risk r)
    (heff : Effect s s' r' symbol [] T) : Bounded limits s'.risk r := by
  rw [heff.risk]
  exact h

theorem Handled.bounded {ev : Event} {out : Option Submission} (h : Handled s r ev out s' r') (hr : r.Valid)
    (hb : Bounded limits s.risk r) (hchecked : RiskChecked s ev) : Bounded limits s'.risk r' := by
  cases h with
  | refusedByRisk _ heff => exact hb.unchanged heff
  | @submitted wire ts _ _ _ fills hrisk hsub heff =>
    have hrecorded : s'.risk = s.risk.recordFills r.symbol fills := heff.risk.trans (hsub.recordFills_symbol s.risk)
    rw [hrecorded]
    exact hb.submitted hr hrisk hsub
  | cancelRefused heff => exact hb.unchanged heff
  | cancelled hmem heff => exact (hb.removeOrder hr hmem).unchanged heff
  | replaceRefused _ _ heff => exact hb.unchanged heff
  | @replaced wire ts n o _ _ _ fills hrep horder hmem hsub _ heff =>
    have hsymbol : o.symbol = r.symbol := (hr.order o hmem).symbol
    rw [heff.risk, hsymbol]
    exact (hb.removeOrder hr hmem).submitted (hr.removeOrder o.id) (hchecked n hrep) hsub
  | engageKillSwitch => exact ⟨hb.sameLimits, hb.size, hb.exposure, hb.foreign⟩
  | disengageKillSwitch => exact ⟨hb.sameLimits, hb.size, hb.exposure, hb.foreign⟩

/-- A bounded exposure on both sides bounds the position. -/
theorem Bounded.position {k : RiskEngine X} (h : Bounded limits k r) (hr : r.Valid)
    (hbound : 0 ≤ positionBound P limits) (c : ClientId) (symbol : SymbolId) :
    |k.position c symbol| ≤ positionBound P limits := by
  by_cases hsymbol : symbol = r.symbol
  · subst hsymbol
    have hbuy := h.exposure c .buy
    have hsell := h.exposure c .sell
    have hopenBuy : 0 ≤ openQuantity c .buy r.resting := openQuantity_nonneg hr.remaining_pos
    have hopenSell : 0 ≤ openQuantity c .sell r.resting := openQuantity_nonneg hr.remaining_pos
    unfold Exchange.exposure at hbuy hsell
    rw [signed_buy] at hbuy
    rw [signed_sell] at hsell
    exact abs_le.2 ⟨by omega, by omega⟩
  · rw [h.foreign c symbol hsymbol]
    simpa using hbound

end

/-- In every run whose replace requests are refused or pass the risk check, the position of a client stays within the
limit and what all but one of the slots of the book can hold. -/
theorem position_le_bound {P : Params} {M X : Type} [DenseMap M OrderId Nat] [DenseMap X UInt64 ClientExposure]
    (limits : Limits) (hmax : 0 ≤ limits.maxPosition) (symbol : SymbolId) (basePrice : Int) (events : List Event)
    (hchecked : AllSteps ReplayEngine.process RiskChecked
      (ReplayEngine.new (P := P) (M := M) symbol basePrice (RiskEngine.new limits : RiskEngine X)) events) :
    ∃ outs s, runAll ReplayEngine.process
        (ReplayEngine.new (P := P) (M := M) symbol basePrice (RiskEngine.new limits : RiskEngine X)) events =
          some (outs, s) ∧
      ∀ c sym, |s.risk.position c sym| ≤ limits.maxPosition + (P.maxOrders - 1) * max 0 limits.maxOrderSize := by
  obtain ⟨outs, s, r, hrun, hR, hb⟩ := process_run_rule (fun s r => Bounded limits s.risk r)
    (fun hhandled hr hb hev => hhandled.bounded hr hb hev) (bounded_new hmax symbol basePrice) hchecked
  exact ⟨outs, s, hrun, hb.position hR.valid (positionBound_nonneg hmax)⟩

/-- A Buy of 5 is replaced by one of 10, which the limits allow, and sold to. -/
theorem position_le_bound_replaced :
    ∃ outs s, runAll ReplayEngine.process
        (ReplayEngine.new (P := tinyParams) (M := IdMap) 7 100
          (RiskEngine.new { maxOrderSize := 10, maxPosition := 10, maxLossPerClient := -1000 } :
            RiskEngine ExposureMap))
        [.newOrder (limitDay 1 1 .buy 100 5) 0,
          .replace { orderId := 1, newPrice := 101, newQuantity := 10, clientId := 1, symbolId := 7 } 1,
          .newOrder (limitDay 2 2 .sell 101 10) 2] = some (outs, s) ∧
      ∀ c sym, |s.risk.position c sym| ≤ 10 + (2 - 1) * max 0 10 := by
  refine position_le_bound _ (by decide) 7 100 _ ⟨trivial, ?_, trivial, trivial⟩
  intro n hrep
  obtain rfl : (0 : Nat) = n := Option.some.inj hrep.found
  rfl

/-- Two Buys of 10 each are approved while client 1 has no position.  Both fill, and leave it with twice its limit,
which is what the bound allows in a book of two slots. -/
theorem position_above_limit :
    ∃ outs s, runAll ReplayEngine.process
        (ReplayEngine.new (P := tinyParams) (M := IdMap) 7 100
          (RiskEngine.new { maxOrderSize := 10, maxPosition := 10, maxLossPerClient := -1000 } :
            RiskEngine ExposureMap))
        [.newOrder (limitDay 1 1 .buy 100 10) 0, .newOrder (limitDay 2 1 .buy 100 10) 1,
          .newOrder (limitDay 3 2 .sell 100 10) 2, .newOrder (limitDay 4 3 .sell 100 10) 3] = some (outs, s) ∧
      s.risk.limits.maxPosition = 10 ∧ s.risk.position 1 7 = 20 :=
  ⟨_, _, rfl, rfl, rfl⟩

end Exchange
