import Exchange.FillOrKill
import Exchange.Remainders
import Exchange.Session

/-!
# Level aggregates in 64 bits

`total_quantity` of a level and the running total of `available_liquidity` are `std::int64_t`.  The levels of the
model keep the exact total; what the program has in its place is that number modulo `2 ^ 64`, read as a signed one,
since all it does with a total is to add and to subtract.  The engine reads the totals only in the fill-or-kill check,
so that is the one place where the 64-bit engine of this module differs from the exact one.  Its totals are exact if
and only if the quantity resting on each side is less than `2 ^ 63`.
-/

namespace Exchange

open OrderBook DenseMap

/-! ### The totals of the program -/

/-- `total_quantity` as the program has it. -/
def PriceLevel.total64 (l : PriceLevel) : Int64 := Int64.ofInt l.totalQuantity

theorem levelPushBack_total64 (st : Heap) (level : PriceLevel) (n : Nat) :
    (levelPushBack st level n).2.total64 = level.total64 + Int64.ofInt (st n).order.remaining := by
  rw [PriceLevel.total64, levelPushBack_totalQuantity, Int64.ofInt_add]
  rfl

theorem levelUnlink_total64 (st : Heap) (level : PriceLevel) (n : Nat) :
    (levelUnlink st level n).2.total64 = level.total64 - Int64.ofInt (st n).order.remaining := by
  rw [PriceLevel.total64, levelUnlink_totalQuantity, Int64.ofInt_sub]
  rfl

namespace MatchingEngine

variable {P : Params} {M : Type}

/-- The visitor of `available_liquidity`. -/
def sumLiquidity64 (aggressorSide : Side) (isMarket : Bool) (limitPrice cap : Int) (levelPrice : Int)
    (lvl : PriceLevel) (total : Int64) : Bool × Int64 :=
  if !isMarket && !crosses aggressorSide limitPrice levelPrice then (false, total)
  else
    let total := total + lvl.total64
    (decide (total.toInt < cap), total)

def availableLiquidity64 (e : MatchingEngine P M) (aggressorSide : Side) (isMarket : Bool) (limitPrice cap : Int) :
    Option Int64 :=
  e.book.forEachLevel (opposite aggressorSide) (sumLiquidity64 aggressorSide isMarket limitPrice cap) 0

def fokNotFillable64 (e : MatchingEngine P M) (order : Order) : Option Bool :=
  if order.tif = .fok then
    (e.availableLiquidity64 order.side (order.type == .market) order.price order.quantity).map
      fun available => decide (available.toInt < order.quantity)
  else some false

variable [DenseMap M OrderId Nat]

def submit64 (e : MatchingEngine P M) (order : Order) (outFills : List Fill) :
    Option (NewOrderResult × MatchingEngine P M × List Fill) :=
  let result : NewOrderResult := { remainingAfter := order.quantity }
  if order.symbol ≠ e.book.symbol then some ({ result with rejectReason := .unknownSymbol }, e, outFills)
  else if order.quantity ≤ 0 then some ({ result with rejectReason := .invalidQuantity }, e, outFills)
  else
    let order := order.fresh
    match e.fokNotFillable64 order with
    | none => none
    | some true => some ({ result with rejectReason := .fokNotFillable }, e, outFills)
    | some false =>
      match e.matchAgainstBook order outFills with
      | none => none
      | some st =>
        let result := { result with fillCount := st.outFills.length - outFills.length }
        let (result, e) := st.engine.restRemainder st.aggressor result
        some ({ result with remainingAfter := st.aggressor.remaining }, e, st.outFills)

def replace64 (e : MatchingEngine P M) (id : OrderId) (newPrice newQuantity : Int) (newSequence : Sequence)
    (newTimestamp : Int) (outFills : List Fill) : Option (ReplaceResult × MatchingEngine P M × List Fill) :=
  match e.book.findNode id with
  | none => some ({ rejectReason := .unknownOrder }, e, outFills)
  | some existing =>
    if newQuantity ≤ 0 then some ({ rejectReason := .invalidQuantity }, e, outFills)
    else if (e.book.indexOf newPrice).isNone then some ({ rejectReason := .invalidPrice }, e, outFills)
    else
      let updated := (e.book.node existing).order.replaced newPrice newQuantity newSequence newTimestamp
      let e := { e with book := (e.book.cancel id).2 }
      (e.submit64 updated outFills).map fun p => (replaceResult p.1, p.2)

def call64 (e : MatchingEngine P M) : Call → Option (Response × MatchingEngine P M)
  | .submit order outFills => (e.submit64 order outFills).map fun p => (.submit p.1 p.2.2, p.2.1)
  | .cancel id => some (.cancel (e.cancel id).1, (e.cancel id).2)
  | .replace id p q seq ts outFills =>
    (e.replace64 id p q seq ts outFills).map fun p => (.replace p.1 p.2.2, p.2.1)

end MatchingEngine

open MatchingEngine

/-! ### What is to be shown -/

section

variable {P : Params} {M : Type}

/-- The exact sum of the remaining quantities at a price. -/
def OrderBook.quantityAt (b : OrderBook P M) (s : Side) (price : Int) : Int :=
  (((b.indexOf price).elim [] (b.fifo s)).map Order.remaining).sum

/-- The exact sum of the levels of `log` that `available_liquidity` adds: the last one it visits may have a price the
aggressor does not accept. -/
def OrderBook.added (b : OrderBook P M) (aggressorSide : Side) (isMarket : Bool) (limitPrice : Int)
    (log : List (Int × PriceLevel)) : Int :=
  ((log.filter fun l => isMarket || crosses aggressorSide limitPrice l.1).map fun l =>
    b.quantityAt (opposite aggressorSide) l.1).sum

/-- The total of every level, and the running total of every call of `available_liquidity`, is the exact sum. -/
structure AggregatesExact (e : MatchingEngine P M) : Prop where
  level : ∀ s i, (e.book.levelFor s i).total64.toInt = ((e.book.fifo s i).map Order.remaining).sum
  liquidity : ∀ (aggressorSide : Side) (isMarket : Bool) (limitPrice cap : Int), ∃ total log,
    e.availableLiquidity64 aggressorSide isMarket limitPrice cap = some total ∧
    e.book.forEachLevel (opposite aggressorSide)
      (logged (sumLiquidity64 aggressorSide isMarket limitPrice cap)) (0, []) = some (total, log) ∧
    total.toInt = e.book.added aggressorSide isMarket limitPrice log ∧
    ∀ part, part <+: log → InInt64 (e.book.added aggressorSide isMarket limitPrice part)

/-- The quantity resting on one side. -/
def OrderBook.sideQuantity (b : OrderBook P M) (s : Side) : Int :=
  ((b.priceLevels s).map fun l => l.2.totalQuantity).sum

/-- If what `o` cannot trade will come to rest, its side has room for it below `2 ^ 63`. -/
def RemainderFits [DenseMap M OrderId Nat] (b : OrderBook P M) (o : Order) : Prop :=
  ¬ b.Refuses o → b.coverage o < o.quantity → b.FindsRoom o →
    b.sideQuantity o.side + (o.quantity - b.coverage o) < 2 ^ 63

/-- The same for the order of a call, which for a replacement finds the order it replaces gone. -/
def QuantitiesFit [DenseMap M OrderId Nat] (e : MatchingEngine P M) : Call → Prop
  | .submit o _ => RemainderFits e.book o
  | .cancel _ => True
  | .replace id p q seq ts _ => ∀ n, e.book.findNode id = some n →
    RemainderFits (e.book.cancel id).2 ((e.book.node n).order.replaced p q seq ts)

end

/-! ### Sums over levels -/

/-- A market order that trades with the whole of side `s`. -/
def wholeSide (s : Side) : Order := { side := opposite s, type := .market }

section

variable {P : Params} {M : Type} [DenseMap M OrderId Nat] {b : OrderBook P M} {L : List Order}

theorem OrderBook.Holds.sideQuantity (h : b.Holds L) (s : Side) : b.sideQuantity s = liquidity (wholeSide s) L := by
  rw [h.liquidity_eq_sum]
  have hside : opposite (wholeSide s).side = s := by cases s <;> rfl
  have haccepts : ∀ p, accepts (wholeSide s) p = true := fun p => by simp [accepts, wholeSide]
  simp only [haccepts, if_true, hside, OrderBook.sideQuantity, priceLevels, List.map_map]
  rfl

theorem OrderBook.Holds.quantityAt (h : b.Holds L) {s : Side} {l : Int × PriceLevel} (hl : l ∈ b.priceLevels s) :
    b.quantityAt s l.1 = l.2.totalQuantity := by
  obtain ⟨i, hi, rfl⟩ := List.mem_map.1 hl
  rw [OrderBook.quantityAt, indexOf_priceAt (lt_of_mem_occupiedLevels hi), Option.elim_some, h.fifo, (h.level s i).1]

theorem OrderBook.Holds.totalQuantity_nonneg (h : b.Holds L) (s : Side) (i : Nat) :
    0 ≤ (b.levelFor s i).totalQuantity := by
  rw [(h.level s i).1]
  refine List.sum_nonneg fun x hx => ?_
  obtain ⟨o, ho, rfl⟩ := List.mem_map.1 hx
  exact (h.remaining_pos (mem_ordersAt.1 ho).1).le

/-- The levels among those of one side have together at most the quantity of the side. -/
theorem OrderBook.Holds.sum_le (h : b.Holds L) {s : Side} {levels : List (Int × PriceLevel)}
    (hsub : levels.Sublist (b.priceLevels s)) :
    0 ≤ (levels.map fun l => l.2.totalQuantity).sum ∧
      (levels.map fun l => l.2.totalQuantity).sum ≤ b.sideQuantity s := by
  have hnonneg : ∀ x ∈ (b.priceLevels s).map fun l => l.2.totalQuantity, 0 ≤ x := by
    intro x hx
    obtain ⟨l, hl, rfl⟩ := List.mem_map.1 hx
    obtain ⟨i, -, rfl⟩ := List.mem_map.1 hl
    exact h.totalQuantity_nonneg s i
  have hsub' := hsub.map fun l => l.2.totalQuantity
  exact ⟨List.sum_nonneg fun x hx => hnonneg x (hsub'.subset hx), hsub'.sum_le_sum hnonneg⟩

/-- An empty level has no quantity, and the others are among those of the side. -/
theorem OrderBook.Holds.totalQuantity_le (h : b.Holds L) (s : Side) (i : Nat) :
    (b.levelFor s i).totalQuantity ≤ b.sideQuantity s := by
  obtain ⟨hb, ha⟩ := h.ladders
  cases hempty : (b.levelFor s i).empty with
  | true =>
    have hnil : ordersAt s (b.priceAt i) L = [] := by
      by_contra hne
      rw [(h.level_empty s i).2 hne] at hempty
      cases hempty
    rw [(h.level s i).1, hnil]
    exact (h.sum_le (List.nil_sublist _)).2
  | false =>
    have hmem : (b.priceAt i, b.levelFor s i) ∈ b.priceLevels s :=
      List.mem_map.2 ⟨i, (mem_occupiedLevels hb ha).2 hempty, rfl⟩
    have hone := (h.sum_le (List.singleton_sublist.2 hmem)).2
    simpa using hone

theorem foldl_sumLiquidity64 (aggressorSide : Side) (isMarket : Bool) (limitPrice cap : Int)
    (log : List (Int × PriceLevel)) (total : Int64) :
    log.foldl (fun total l => (sumLiquidity64 aggressorSide isMarket limitPrice cap l.1 l.2 total).2) total =
      total + Int64.ofInt ((log.filter fun l => isMarket || crosses aggressorSide limitPrice l.1).map fun l =>
        l.2.totalQuantity).sum := by
  induction log generalizing total with
  | nil => simp
  | cons l log ih =>
    rw [List.foldl_cons, ih, List.filter_cons, sumLiquidity64, ← Bool.not_or]
    cases hacc : isMarket || crosses aggressorSide limitPrice l.1 with
    | false => simp
    | true => simp [PriceLevel.total64, Int64.ofInt_add, Int64.add_assoc]

/-- While less than `2 ^ 63` rests on each side, all sums are exact. -/
theorem OrderBook.Holds.aggregatesExact {e : MatchingEngine P M} (h : e.book.Holds L)
    (hfits : ∀ s, e.book.sideQuantity s < 2 ^ 63) : AggregatesExact e where
  level s i := by
    have hnonneg := h.totalQuantity_nonneg s i
    have hle := h.totalQuantity_le s i
    have hside := hfits s
    rw [PriceLevel.total64, toInt_ofInt ⟨by omega, by omega⟩, h.fifo, (h.level s i).1]
  liquidity aggressorSide isMarket limitPrice cap := by
    obtain ⟨hb, ha⟩ := h.ladders
    have hside := hfits (opposite aggressorSide)
    obtain ⟨log, hlog, htotal, hup⟩ := visitAll_logged e.book (opposite aggressorSide)
      (sumLiquidity64 aggressorSide isMarket limitPrice cap) (e.book.occupiedLevels (opposite aggressorSide)) 0 []
    -- what is added at any moment is a part of the side
    have hadded : ∀ part, part <+: log → InInt64 (e.book.added aggressorSide isMarket limitPrice part) ∧
        e.book.added aggressorSide isMarket limitPrice part =
          ((part.filter fun l => isMarket || crosses aggressorSide limitPrice l.1).map fun l =>
            l.2.totalQuantity).sum := by
      intro part hpart
      have hsub : (part.filter fun l => isMarket || crosses aggressorSide limitPrice l.1).Sublist
          (e.book.priceLevels (opposite aggressorSide)) :=
        List.filter_sublist.trans (hpart.sublist.trans hup.initial.sublist)
      have hsum : e.book.added aggressorSide isMarket limitPrice part =
          ((part.filter fun l => isMarket || crosses aggressorSide limitPrice l.1).map fun l =>
            l.2.totalQuantity).sum := by
        unfold OrderBook.added
        rw [List.map_congr_left fun l hl => h.quantityAt (hsub.subset hl)]
      have hle := h.sum_le hsub
      rw [hsum]
      exact ⟨⟨by omega, by omega⟩, rfl⟩
    refine ⟨_, log, forEachLevel_eq hb ha _ _ _, ?_, ?_, fun part hpart => (hadded part hpart).1⟩
    · rw [forEachLevel_eq hb ha, hlog]
      rfl
    · obtain ⟨hin, hsum⟩ := hadded log (List.prefix_refl log)
      rw [htotal, foldl_sumLiquidity64, Int64.zero_add, ← hsum, toInt_ofInt hin]

theorem answers_unlimited (aggressorSide : Side) (limitPrice : Int) (log : List (Int × PriceLevel)) (total : Int64) :
    ∀ go ∈ answers (sumLiquidity64 aggressorSide true limitPrice (2 ^ 63)) log total, go = true := by
  induction log generalizing total with
  | nil => simp [answers]
  | cons l log ih =>
    intro go hgo
    rcases List.mem_cons.1 hgo with rfl | hgo
    · exact decide_eq_true (Int64.toInt_lt _)
    · exact ih _ go hgo

/-- A market order for more than there can be adds up the whole side. -/
theorem OrderBook.Holds.sideQuantity_lt {e : MatchingEngine P M} (h : e.book.Holds L) (hexact : AggregatesExact e)
    (s : Side) : e.book.sideQuantity s < 2 ^ 63 := by
  have hside : opposite (opposite s) = s := by cases s <;> rfl
  obtain ⟨hb, ha⟩ := h.ladders
  obtain ⟨total, log, -, hrun, -, hin⟩ := hexact.liquidity (opposite s) true 0 (2 ^ 63)
  obtain ⟨log', hlog, -, hup⟩ := visitAll_logged e.book (opposite (opposite s))
    (sumLiquidity64 (opposite s) true 0 (2 ^ 63)) (e.book.occupiedLevels (opposite (opposite s))) 0 []
  rw [forEachLevel_eq hb ha, hlog, List.nil_append] at hrun
  obtain ⟨-, rfl⟩ : _ ∧ log' = log := by simpa using hrun
  have hall : log' = e.book.priceLevels s := by
    rw [hside] at hup
    refine hup.stop.resolve_right fun hfalse => ?_
    exact Bool.false_ne_true (answers_unlimited _ _ _ _ false (List.mem_of_getLast? hfalse))
  have hsum : e.book.added (opposite s) true 0 log' = e.book.sideQuantity s := by
    unfold OrderBook.added OrderBook.sideQuantity
    rw [hside, hall]
    simp only [Bool.true_or, List.filter_true]
    rw [List.map_congr_left fun l hl => h.quantityAt hl]
  have hrange := hin log' (List.prefix_refl log')
  rw [hsum] at hrange
  exact hrange.2

theorem OrderBook.Holds.aggregatesExact_iff {e : MatchingEngine P M} (h : e.book.Holds L) :
    AggregatesExact e ↔ ∀ s, liquidity (wholeSide s) L < 2 ^ 63 := by
  simp only [← h.sideQuantity]
  exact ⟨h.sideQuantity_lt, h.aggregatesExact⟩

omit [DenseMap M OrderId Nat] in
/-- The fill-or-kill check adds up what the exact one adds up. -/
theorem visitAll_sumLiquidity64 (s aggressorSide : Side) (isMarket : Bool) (limitPrice cap : Int) {is : List Nat}
    (hnonneg : ∀ i ∈ is, 0 ≤ (b.levelFor s i).totalQuantity) {total : Int} (htotal : 0 ≤ total)
    (hsum : total + (is.map fun i => (b.levelFor s i).totalQuantity).sum < 2 ^ 63) :
    (b.visitAll s (sumLiquidity64 aggressorSide isMarket limitPrice cap) is (Int64.ofInt total)).toInt =
      b.visitAll s (sumLiquidity aggressorSide isMarket limitPrice cap) is total := by
  induction is generalizing total with
  | nil => exact toInt_ofInt ⟨by omega, by simpa using hsum⟩
  | cons i is ih =>
    have hi := hnonneg i (List.mem_cons_self ..)
    have hrest : 0 ≤ (is.map fun i => (b.levelFor s i).totalQuantity).sum := by
      refine List.sum_nonneg fun q hq => ?_
      obtain ⟨j, hj, rfl⟩ := List.mem_map.1 hq
      exact hnonneg j (List.mem_cons_of_mem _ hj)
    rw [List.map_cons, List.sum_cons] at hsum
    unfold visitAll sumLiquidity64 sumLiquidity
    by_cases hstop : (!isMarket && !crosses aggressorSide limitPrice (b.priceAt i)) = true
    · simp only [hstop, if_true]
      exact toInt_ofInt ⟨by omega, by omega⟩
    · have hadd : Int64.ofInt total + (b.levelFor s i).total64 =
          Int64.ofInt (total + (b.levelFor s i).totalQuantity) := (Int64.ofInt_add ..).symm
      have hexact : (Int64.ofInt (total + (b.levelFor s i).totalQuantity)).toInt =
          total + (b.levelFor s i).totalQuantity := toInt_ofInt ⟨by omega, by omega⟩
      simp only [hstop, hadd, hexact]
      by_cases hlt : total + (b.levelFor s i).totalQuantity < cap
      · simp only [hlt, decide_true]
        exact ih (fun j hj => hnonneg j (List.mem_cons_of_mem _ hj)) (by omega) (by omega)
      · simp only [hlt, decide_false]
        exact hexact

theorem OrderBook.Holds.fokNotFillable64_eq {e : MatchingEngine P M} (h : e.book.Holds L)
    (hfits : ∀ s, liquidity (wholeSide s) L < 2 ^ 63) (o : Order) : e.fokNotFillable64 o = e.fokNotFillable o := by
  obtain ⟨hb, ha⟩ := h.ladders
  have hside := hfits (opposite o.side)
  rw [← h.sideQuantity, OrderBook.sideQuantity, priceLevels, List.map_map] at hside
  have hvisit := visitAll_sumLiquidity64 (b := e.book) (opposite o.side) o.side (o.type == .market) o.price o.quantity
    (fun i _ => h.totalQuantity_nonneg _ i) (le_refl 0) (by rw [zero_add]; exact hside)
  unfold fokNotFillable64 fokNotFillable availableLiquidity64 MatchingEngine.availableLiquidity
  rw [forEachLevel_eq hb ha, forEachLevel_eq hb ha, Option.map_some, Option.map_some, ← hvisit]
  rfl

end

/-! ### What a call does to the quantities of the sides -/

section

variable {P : Params} {M : Type} {r r' : RefEngine P} {o : Order} {res : NewOrderResult} {fs : List Fill}

theorem acceptable_wholeSide (s : Side) (x : Order) : acceptable (wholeSide s) x = decide (x.side = s) := by
  unfold acceptable accepts wholeSide
  cases s <;> simp [opposite]

/-- The aggressor's own side is not touched. -/
theorem RefEngine.Executed.wholeSide_eq {a : Order} (h : r.Executed o fs a r') (hr : r.Valid) :
    liquidity (wholeSide o.side) r'.resting = liquidity (wholeSide o.side) r.resting := by
  have hown : ∀ L : List Order, L.filter (acceptable (wholeSide o.side)) =
      (L.filter fun x => !acceptable o x).filter (acceptable (wholeSide o.side)) := by
    intro L
    rw [List.filter_filter]
    refine List.filter_congr fun x _ => ?_
    rw [acceptable_wholeSide]
    by_cases hside : x.side = o.side
    · simp [acceptable_of_side_eq hside, hside]
    · simp [hside]
  have hkept : (r'.resting.filter fun x => !acceptable o x) = r.resting.filter fun x => !acceptable o x :=
    h.sweep.unacceptable hr
  rw [liquidity, liquidity, hown, hown r.resting, hkept]

/-- While the sides fit, they do so after a submission if and only if the side of the order has room for what comes to
rest of it. -/
theorem RefEngine.Submitted.fits_iff (h : r.Submitted o res r' fs) (hr : r.Valid)
    (hs : ∀ s, liquidity (wholeSide s) r.resting < 2 ^ 63) :
    (∀ s, liquidity (wholeSide s) r'.resting < 2 ^ 63) ↔
      (¬ r.Refuses o → liquidity o r.resting < o.quantity → r.FindsRoom o →
        liquidity (wholeSide o.side) r.resting + (o.quantity - liquidity o r.resting) < 2 ^ 63) := by
  have hiff := h.rested_iff hr
  cases h with
  | refused _ _ => exact iff_of_true hs fun h₁ h₂ h₃ => by simpa using hiff.2 ⟨h₁, h₂, h₃⟩
  | full hx _ _ _ _ =>
    exact iff_of_true (fun s => (hx.sweep.liquidity_le hr _).trans_lt (hs s)) fun h₁ h₂ h₃ => by
      simpa using hiff.2 ⟨h₁, h₂, h₃⟩
  | ended hx _ =>
    exact iff_of_true (fun s => (hx.sweep.liquidity_le hr _).trans_lt (hs s)) fun h₁ h₂ h₃ => by
      simpa using hiff.2 ⟨h₁, h₂, h₃⟩
  | @rested _ a r₁ hx hpos htype htif _ =>
    have hrem : a.remaining = o.quantity - liquidity o r.resting := (hx.sweep.exhausted hr hx.settled hpos).2
    have hside : a.side = o.side := by rw [hx.aggressor]
    have hlast : ∀ s, liquidity (wholeSide s) (r₁.resting ++ [a]) =
        liquidity (wholeSide s) r₁.resting + if o.side = s then a.remaining else 0 := by
      intro s
      unfold liquidity
      rw [List.filter_append, List.map_append, List.sum_append, List.filter_singleton, acceptable_wholeSide, hside]
      by_cases hown : o.side = s <;> simp [hown]
    obtain ⟨h₁, h₂, h₃⟩ := hiff.1 rfl
    constructor
    · intro hfits _ _ _
      have hfit := hfits o.side
      rw [hlast, if_pos rfl, hx.wholeSide_eq hr, hrem] at hfit
      exact hfit
    · intro hfits s
      have hfit := hfits h₁ h₂ h₃
      rw [hlast]
      by_cases hown : o.side = s
      · subst hown
        rw [if_pos rfl, hx.wholeSide_eq hr, hrem]
        exact hfit
      · rw [if_neg hown, add_zero]
        exact (hx.sweep.liquidity_le hr _).trans_lt (hs s)

variable [DenseMap M OrderId Nat] {e : MatchingEngine P M}

theorem submit64_eq (hfok : e.fokNotFillable64 o.fresh = e.fokNotFillable o.fresh) (out : List Fill) :
    e.submit64 o out = e.submit o out := by
  unfold submit64 submit
  dsimp only
  rewrite [hfok]
  rfl

/-- `submit` in 64 bits always returns, with a correct book. -/
theorem submit64_refines (h : Refines e r) (o : Order) (out : List Fill) :
    ∃ res e' fills r', e.submit64 o out = some (res, e', fills) ∧ Refines e' r' := by
  by_cases htif : o.tif = .fok
  · unfold submit64
    dsimp only
    by_cases hsym : o.symbol ≠ e.book.symbol
    · exact ⟨_, e, _, r, by rw [if_pos hsym], h⟩
    by_cases hquantity : o.quantity ≤ 0
    · exact ⟨_, e, _, r, by rw [if_neg hsym, if_pos hquantity], h⟩
    obtain ⟨hb, ha⟩ := h.holds.ladders
    rw [if_neg hsym, if_neg hquantity, fokNotFillable64, if_pos (show o.fresh.tif = .fok from htif),
      availableLiquidity64, forEachLevel_eq hb ha, Option.map_some]
    -- whatever the check says, a fill-or-kill order does not come to rest
    split
    · rename_i hnone
      cases hnone
    · exact ⟨_, e, _, r, rfl, h⟩
    · obtain ⟨fs, a, r₁, hmatch, hsweep, -⟩ := RefEngine.matchAgainstBook_sweep h.valid o.fresh out
      obtain ⟨st, hst, hagg, -, hR⟩ := matchAgainstBook_sim h _ out hmatch
      have hne : st.aggressor.tif ≠ .day := by
        have hfok : st.aggressor.tif = .fok := by
          rw [hagg, hsweep.aggressor]
          exact htif
        rw [hfok]
        decide
      rw [hst]
      dsimp only
      rw [restRemainder_of_ne_day hne]
      exact ⟨_, _, _, r₁, rfl, hR⟩
  · obtain ⟨res, e', r', fs, he, -, -, hR⟩ := submit_sim h o out
    have hfok : e.fokNotFillable64 o.fresh = e.fokNotFillable o.fresh := (if_neg htif).trans (if_neg htif).symm
    exact ⟨res, e', _, r', (submit64_eq hfok out).trans he, hR⟩

/-- While the sides fit, `submit` in 64 bits is the exact one. -/
theorem submit64_sim (h : Refines e r) (o : Order) (out : List Fill) :
    ∃ res e' fills r', e.submit64 o out = some (res, e', fills) ∧ Refines e' r' ∧
      ((∀ s, liquidity (wholeSide s) r.resting < 2 ^ 63) →
        ((∀ s, liquidity (wholeSide s) r'.resting < 2 ^ 63) ↔ RemainderFits e.book o)) := by
  by_cases hs : ∀ s, liquidity (wholeSide s) r.resting < 2 ^ 63
  · obtain ⟨res, e', r', fs, he, -, hsub, hR⟩ := submit_sim h o out
    refine ⟨res, e', _, r', (submit64_eq (h.holds.fokNotFillable64_eq hs _) out).trans he, hR, fun _ => ?_⟩
    rw [RemainderFits, h.refuses_iff, h.findsRoom_iff, h.holds.coverage, h.holds.sideQuantity]
    exact hsub.fits_iff h.valid hs
  · obtain ⟨res, e', fills, r', he, hR⟩ := submit64_refines h o out
    exact ⟨res, e', fills, r', he, hR, fun hs' => absurd hs' hs⟩

theorem liquidity_removeOrder_le {L : List Order} (hpos : ∀ x ∈ L, 0 < x.remaining) (a : Order) (id : OrderId) :
    liquidity a (removeOrder id L) ≤ liquidity a L := by
  have hsub : (removeOrder id L).Sublist L := List.filter_sublist
  refine ((hsub.filter (acceptable a)).map Order.remaining).sum_le_sum fun x hx => ?_
  obtain ⟨o, ho, rfl⟩ := List.mem_map.1 hx
  exact (hpos o (List.mem_filter.1 ho).1).le

/-- One call of the 64-bit engine. -/
theorem call64_sim (h : Refines e r) (c : Call) :
    ∃ resp e' r', e.call64 c = some (resp, e') ∧ Refines e' r' ∧
      ((∀ s, liquidity (wholeSide s) r.resting < 2 ^ 63) →
        ((∀ s, liquidity (wholeSide s) r'.resting < 2 ^ 63) ↔ QuantitiesFit e c)) := by
  cases c with
  | submit o out =>
    obtain ⟨res, e', fills, r', he, hR, hfits⟩ := submit64_sim h o out
    exact ⟨_, e', r', by rw [call64, he]; rfl, hR, hfits⟩
  | cancel id =>
    obtain ⟨-, hR⟩ := cancel_sim h id
    refine ⟨_, _, _, rfl, hR, fun hs => iff_of_true (fun s => lt_of_le_of_lt ?_ (hs s)) trivial⟩
    unfold RefEngine.cancel
    split_ifs
    · exact liquidity_removeOrder_le h.valid.remaining_pos _ id
    · exact le_rfl
  | replace id p q seq ts out =>
    unfold call64 replace64
    dsimp only
    cases hfind : e.book.findNode id with
    | none =>
      refine ⟨_, e, r, rfl, h, fun hs => iff_of_true hs ?_⟩
      intro n hn
      rw [hfind] at hn
      cases hn
    | some n =>
      dsimp only
      have hfit : QuantitiesFit e (.replace id p q seq ts out) ↔
          RemainderFits (e.book.cancel id).2 ((e.book.node n).order.replaced p q seq ts) := by
        simp [QuantitiesFit, hfind]
      by_cases hq : q ≤ 0
      · refine ⟨_, e, r, by rw [if_pos hq]; rfl, h, fun hs => iff_of_true hs (hfit.2 fun hok => ?_)⟩
        exact absurd (Or.inr (Or.inl hq)) hok
      have hcancelled := h.cancelled hfind
      by_cases hp : (e.book.indexOf p).isNone = true
      · refine ⟨_, e, r, by rw [if_neg hq, if_pos hp]; rfl, h, fun hs => iff_of_true hs (hfit.2 fun _ _ hroom => ?_)⟩
        exact absurd ((hcancelled.indexOf_isSome p).1 hroom.price) ((h.indexOf_isNone p).1 hp)
      rw [if_neg hq, if_neg hp]
      obtain ⟨res, e', fills, r', he, hR, hfits⟩ :=
        submit64_sim hcancelled ((e.book.node n).order.replaced p q seq ts) out
      refine ⟨_, e', r', by rw [he]; rfl, hR, fun hs => ?_⟩
      rw [hfit]
      exact hfits fun s => (liquidity_removeOrder_le h.valid.remaining_pos _ id).trans_lt (hs s)

end

/-- Every run of the 64-bit engine goes through, and its level totals are the exact ones modulo `2 ^ 64`.  All totals
are exact in all states of the run if and only if every order leaves less than `2 ^ 63` resting on its side. -/
theorem level_aggregates_exact {P : Params} {M : Type} [DenseMap M OrderId Nat] (symbol : SymbolId) (basePrice : Int)
    (calls : List Call) :
    ∃ resps e, runAll call64 (MatchingEngine.new P M symbol basePrice) calls = some (resps, e) ∧
      (∀ s i, (e.book.levelFor s i).total64 = Int64.ofInt ((e.book.fifo s i).map Order.remaining).sum) ∧
      (AllSteps call64 QuantitiesFit (MatchingEngine.new P M symbol basePrice) calls ↔
        AllSteps call64 (fun e _ => AggregatesExact e) (MatchingEngine.new P M symbol basePrice) calls ∧
          AggregatesExact e) := by
  obtain ⟨resps, e, hrun, ⟨r, hR⟩, hiff⟩ := runAll_iff_states (C := QuantitiesFit) (Q := AggregatesExact)
    (fun e : MatchingEngine P M => ∃ r, Refines e r)
    (fun e c ⟨r, hR⟩ => by
      obtain ⟨resp, e', r', hcall, hR', hfits⟩ := call64_sim hR c
      refine ⟨resp, e', hcall, ⟨r', hR'⟩, ?_⟩
      rw [hR.holds.aggregatesExact_iff, hR'.holds.aggregatesExact_iff]
      exact hfits)
    calls _ ⟨_, refines_new symbol basePrice⟩
    ((refines_new symbol basePrice).holds.aggregatesExact_iff.2 fun s => (by decide : (0 : Int) < 2 ^ 63))
  refine ⟨resps, e, hrun, fun s i => ?_, hiff⟩
  rw [PriceLevel.total64, hR.holds.fifo, (hR.holds.level s i).1]

/-- Two buys of the largest quantity there is rest at one price, and the total of the level is negative. -/
theorem level_total_wraps :
    ∃ resps e, runAll call64 (MatchingEngine.new tinyParams IdMap 7 100)
        [.submit { id := 1, symbol := 7, price := 100, quantity := 2 ^ 63 - 1 } [],
          .submit { id := 2, symbol := 7, price := 100, quantity := 2 ^ 63 - 1 } []] = some (resps, e) ∧
      (e.book.levelFor .buy 0).total64.toInt = -2 ∧
      ((e.book.fifo .buy 0).map Order.remaining).sum = 2 ^ 64 - 2 :=
  ⟨_, _, rfl, by decide, by decide⟩

end Exchange
