import Exchange.Refinement

/-!
# Splitting an aggressive order

An order that never rests takes what it can from the book and is gone.  Submitting it in two parts takes the same
orders: the second part goes on where the first one stopped, in the middle of a resting order if need be.
-/

namespace Exchange

/-! ### What an aggressor takes -/

/-- An aggressor for `q` on the terms of `a` trades with the orders `L`; `q'` and `L'` are what is left. -/
inductive Takes (a : Order) : Int → List Order → Int → List Order → Prop
  | done (q : Int) (L : List Order) : Takes a q L q L
  | fill {q q' : Int} {L L' : List Order} {o : Order} (hpos : 0 < q) (hpick : pick a L = some o)
      (hrest : Takes a (q - min q o.remaining) (reduceOrder o.id (min q o.remaining) L) q' L') : Takes a q L q' L'

section

variable {a o : Order} {q q' : Int} {L L' : List Order} {id : OrderId}

theorem acceptable_congr {b : Order} (hside : a.side = b.side) (htype : a.type = b.type) (hprice : a.price = b.price) :
    acceptable a = acceptable b := by
  funext x
  unfold acceptable accepts
  rw [hside, htype, hprice]

theorem pick_congr {b : Order} (hside : a.side = b.side) (htype : a.type = b.type) (hprice : a.price = b.price) :
    pick a = pick b := by
  funext L
  unfold pick
  rw [acceptable_congr hside htype hprice, hside]

/-- A fill that uses up no order only changes what remains of one. -/
theorem reduceOrder_eq_map (h : ∀ x ∈ L, x.id = id → x.remaining ≠ q) :
    reduceOrder id q L = L.map fun x => if x.id = id then { x with remaining := x.remaining - q } else x := by
  unfold reduceOrder
  rw [← List.filterMap_eq_map]
  refine List.filterMap_congr ?_
  intro x hx
  by_cases hid : x.id = id
  · simp [hid, h x hx hid]
  · simp [hid]

/-- Two fills of one order, of which the first does not use it up, are one fill. -/
theorem reduceOrder_reduceOrder (h : ∀ x ∈ L, x.id = id → x.remaining ≠ q) :
    reduceOrder id q' (reduceOrder id q L) = reduceOrder id (q + q') L := by
  rw [reduceOrder_eq_map h]
  unfold reduceOrder
  rw [List.filterMap_map]
  refine List.filterMap_congr ?_
  intro x _
  by_cases hid : x.id = id
  · have hiff : x.remaining - q = q' ↔ x.remaining = q + q' := by omega
    simp [hid, hiff, sub_sub]
  · simp [hid]

/-- An order that is left in part is still the first one. -/
theorem pick_reduceOrder (h : DistinctIds L) (hpick : pick a L = some o) (hq : o.remaining ≠ q) :
    pick a (reduceOrder o.id q L) = some { o with remaining := o.remaining - q } := by
  have hpart : ∀ x ∈ L, x.id = o.id → x.remaining ≠ q := by
    intro x hx hid
    rw [h.eq_of_id hx (pick_mem hpick).1 hid]
    exact hq
  rw [reduceOrder_eq_map hpart]
  have hacc : (acceptable a ∘ fun x : Order => if x.id = o.id then { x with remaining := x.remaining - q } else x) =
      acceptable a := by
    funext x
    by_cases hid : x.id = o.id <;> simp [hid, acceptable]
  have hrank : ∀ x : Order, rank a.side (if x.id = o.id then { x with remaining := x.remaining - q } else x) =
      rank a.side x := by
    intro x
    by_cases hid : x.id = o.id <;> simp [hid, rank]
  unfold pick at hpick ⊢
  rw [List.filter_map, hacc, firstMin_map (f := rank a.side) (by simp [hrank]), hpick]
  simp

theorem Takes.nothing (h : Takes a q L q' L') (hpick : 0 < q → pick a L = none) : q' = q ∧ L' = L := by
  cases h with
  | done => exact ⟨rfl, rfl⟩
  | fill hpos hpick' _ => rw [hpick hpos] at hpick'; cases hpick'

theorem Takes.unique (h : Takes a q L q' L') (hend : 0 < q' → pick a L' = none) {q₂ : Int} {L₂ : List Order}
    (h₂ : Takes a q L q₂ L₂) (hend₂ : 0 < q₂ → pick a L₂ = none) : q' = q₂ ∧ L' = L₂ := by
  induction h with
  | done q L =>
    obtain ⟨hq, hL⟩ := h₂.nothing hend
    exact ⟨hq.symm, hL.symm⟩
  | fill hpos hpick _ ih =>
    cases h₂ with
    | done => rw [hend₂ hpos] at hpick; cases hpick
    | fill _ hpick₂ h₂ =>
      rw [hpick] at hpick₂
      cases hpick₂
      exact ih hend h₂

/-- Taking `q₁` and then `q₂` is taking `q₁ + q₂`. -/
theorem Takes.trans {q₁ q₁' q₂ q₂' : Int} {L₁ L₂ : List Order} (h₁ : Takes a q₁ L q₁' L₁) (hids : DistinctIds L)
    (hq₁ : 0 ≤ q₁) (hend₁ : 0 < q₁' → pick a L₁ = none) (hq₂ : 0 < q₂) (h₂ : Takes a q₂ L₁ q₂' L₂)
    (hend₂ : 0 < q₂' → pick a L₂ = none) : Takes a (q₁ + q₂) L (q₁' + q₂') L₂ := by
  induction h₁ with
  | done q₁ L =>
    by_cases hq : q₁ = 0
    · rw [hq, zero_add, zero_add]
      exact h₂
    · -- nothing was there for the first part, so nothing is there for the second
      obtain ⟨rfl, rfl⟩ := h₂.nothing fun _ => hend₁ (by omega)
      exact .done _ _
  | @fill q₁ q₁' L L₁ o hpos hpick hrest ih =>
    have ho := (pick_mem hpick).1
    by_cases hle : o.remaining ≤ q₁
    · have hmin₁ : min q₁ o.remaining = o.remaining := by omega
      have hmin : min (q₁ + q₂) o.remaining = o.remaining := by omega
      have hmore := ih (hids.reduceOrder ho _) (by omega) hend₁ h₂
      refine .fill (by omega) hpick ?_
      rw [hmin]
      rw [hmin₁, show q₁ - o.remaining + q₂ = q₁ + q₂ - o.remaining by omega] at hmore
      exact hmore
    · -- the first part ends inside `o`, and the second goes on there
      have hmin₁ : min q₁ o.remaining = q₁ := by omega
      rw [hmin₁, sub_self] at hrest
      obtain ⟨rfl, rfl⟩ := hrest.nothing fun h => absurd h (lt_irrefl 0)
      have hpick₂ := pick_reduceOrder hids hpick (q := q₁) (by omega)
      cases h₂ with
      | done => rw [hend₂ hq₂] at hpick₂; cases hpick₂
      | fill _ hpick₂' hrest₂ =>
        rw [hpick₂] at hpick₂'
        cases hpick₂'
        have hpart : ∀ x ∈ L, x.id = o.id → x.remaining ≠ q₁ := by
          intro x hx hid
          rw [hids.eq_of_id hx ho hid]
          omega
        rw [reduceOrder_reduceOrder hpart] at hrest₂
        refine .fill (by omega) hpick ?_
        have hmin : min (q₁ + q₂) o.remaining = q₁ + min q₂ (o.remaining - q₁) := by omega
        have hsub : q₁ + q₂ - (q₁ + min q₂ (o.remaining - q₁)) = q₂ - min q₂ (o.remaining - q₁) := by omega
        rw [hmin, hsub, zero_add]
        exact hrest₂

end

/-! ### Sweeps of orders that do not rest -/

/-- The orders that never come to rest, and are not refused for want of liquidity. -/
def Order.Aggressive (o : Order) : Prop :=
  o.type = .limit ∧ o.tif = .ioc ∨ o.type = .market ∧ o.tif ≠ .fok

/-- `o₁` and `o₂` together are for what `o` is for, on the same terms. -/
structure SplitOf (o o₁ o₂ : Order) : Prop where
  aggressive : o.Aggressive
  aggressive₁ : o₁.Aggressive
  aggressive₂ : o₂.Aggressive
  symbol : o₁.symbol = o.symbol ∧ o₂.symbol = o.symbol
  side : o₁.side = o.side ∧ o₂.side = o.side
  type : o₁.type = o.type ∧ o₂.type = o.type
  price : o₁.price = o.price ∧ o₂.price = o.price
  quantity_pos : 0 < o₁.quantity ∧ 0 < o₂.quantity
  quantity : o.quantity = o₁.quantity + o₂.quantity

namespace RefEngine

variable {P : Params} {r r' : RefEngine P} {a a' b o : Order} {fs : List Fill} {res : NewOrderResult}

theorem Sweep.takes (h : Sweep a r fs a' r') (hside : a.side = b.side) (htype : a.type = b.type)
    (hprice : a.price = b.price) : Takes b a.remaining r.resting a'.remaining r'.resting := by
  induction h with
  | done a r => exact .done _ _
  | fill hpos hpick _ ih =>
    rw [pick_congr hside htype hprice] at hpick
    exact .fill hpos hpick (ih hside htype hprice)

/-- An aggressive order for a known symbol is matched and leaves nothing in the book. -/
theorem Submitted.aggressive (h : r.Submitted o res r' fs) (ho : o.Aggressive) (hsym : o.symbol = r.symbol)
    (hq : 0 < o.quantity) : ∃ a, r.Executed o fs a r' := by
  have hday : ¬ (o.type = .limit ∧ o.tif = .day) := by
    rintro ⟨htype, htif⟩
    rcases ho with ho | ho
    · rw [htif] at ho; cases ho.2
    · rw [htype] at ho; cases ho.1
  cases h with
  | refused reason hreason =>
    cases reason with
    | unknownSymbol => exact absurd hsym hreason
    | invalidQuantity => exact absurd hq (not_lt.2 hreason.2)
    | fokNotFillable =>
      have htif : o.tif = .fok := hreason.2.2.1
      rcases ho with ho | ho
      · rw [htif] at ho; cases ho.2
      · exact absurd htif ho.2
    | _ => exact hreason.elim
  | rested _ _ htype htif _ => exact absurd ⟨htype, htif⟩ hday
  | full _ _ htype htif _ => exact absurd ⟨htype, htif⟩ hday
  | ended hx _ => exact ⟨_, hx⟩

/-- The two parts take what the whole order takes. -/
theorem Executed.split {o₁ o₂ a₁ a₂ : Order} {r₁ r₂ : RefEngine P} {fs₁ fs₂ : List Fill} (hr : r.Valid)
    (hsplit : SplitOf o o₁ o₂) (h : r.Executed o fs a r') (h₁ : r.Executed o₁ fs₁ a₁ r₁)
    (h₂ : r₁.Executed o₂ fs₂ a₂ r₂) : a.remaining = a₁.remaining + a₂.remaining ∧ r'.resting = r₂.resting := by
  obtain ⟨-, -, -, -, ⟨hside₁, hside₂⟩, ⟨htype₁, htype₂⟩, ⟨hprice₁, hprice₂⟩, ⟨hpos₁, hpos₂⟩, hq⟩ := hsplit
  have hterms : ∀ {o' a' : Order} {s s' : RefEngine P} {gs : List Fill}, o'.side = o.side → o'.type = o.type →
      o'.price = o.price → s.Executed o' gs a' s' → 0 < a'.remaining → pick o s'.resting = none := by
    intro o' a' s s' gs hs ht hp hx hpos
    have hnone := hx.settled hpos
    rw [hx.aggressor] at hnone
    rw [← pick_congr (a := o') hs ht hp]
    exact hnone
  have ht := h.sweep.takes (b := o) rfl rfl rfl
  have ht₁ := h₁.sweep.takes (b := o) hside₁ htype₁ hprice₁
  have ht₂ := h₂.sweep.takes (b := o) hside₂ htype₂ hprice₂
  have hboth := ht₁.trans hr.ids hpos₁.le (hterms hside₁ htype₁ hprice₁ h₁) hpos₂ ht₂
    (hterms hside₂ htype₂ hprice₂ h₂)
  change Takes o o.quantity _ _ _ at ht
  rw [hq] at ht
  refine ht.unique (hterms rfl rfl rfl h) hboth ?_
  intro hpos
  by_cases hleft : 0 < a₂.remaining
  · exact hterms hside₂ htype₂ hprice₂ h₂ hleft
  · -- the second part is filled, so there was enough for the first one
    have hnone := hterms hside₁ htype₁ hprice₁ h₁ (by omega)
    rw [(ht₂.nothing fun _ => hnone).2]
    exact hnone

theorem Submitted.unknownSymbol (h : r.Submitted o res r' fs) (hsym : o.symbol ≠ r.symbol) : r' = r ∧ fs = [] := by
  cases h with
  | refused _ _ => exact ⟨rfl, rfl⟩
  | rested hx _ _ _ _ => exact absurd hx.symbol hsym
  | full hx _ _ _ _ => exact absurd hx.symbol hsym
  | ended hx _ => exact absurd hx.symbol hsym

/-- What the whole order and its two parts do, compared. -/
structure SplitAlike (r r' r₂ : RefEngine P) (fs fs₁ fs₂ : List Fill) : Prop where
  resting : r'.resting = r₂.resting
  quantity : (fs.map Fill.quantity).sum = (fs₁.map Fill.quantity).sum + (fs₂.map Fill.quantity).sum
  filledAgainst : ∀ id, filledAgainst id fs = filledAgainst id fs₁ + filledAgainst id fs₂
  price : ∀ f ∈ fs ++ fs₁ ++ fs₂, ∃ x ∈ r.resting, f.restingOrderId = x.id ∧ f.price = x.price

theorem Executed.splitAlike {o₁ o₂ a₁ a₂ : Order} {r₁ r₂ : RefEngine P} {fs₁ fs₂ : List Fill} (hr : r.Valid)
    (hsplit : SplitOf o o₁ o₂) (h : r.Executed o fs a r') (h₁ : r.Executed o₁ fs₁ a₁ r₁)
    (h₂ : r₁.Executed o₂ fs₂ a₂ r₂) : SplitAlike r r' r₂ fs fs₁ fs₂ := by
  obtain ⟨hrem, hrest⟩ := Executed.split hr hsplit h h₁ h₂
  have hr₁ := h₁.valid hr
  refine ⟨hrest, ?_, ?_, ?_⟩
  · have hsum : _ + _ = o.quantity := h.sweep.quantity
    have hsum₁ : _ + _ = o₁.quantity := h₁.sweep.quantity
    have hsum₂ : _ + _ = o₂.quantity := h₂.sweep.quantity
    have hq := hsplit.quantity
    omega
  · intro id
    have hone := h.sweep.filledAgainst hr id
    have hone₁ := h₁.sweep.filledAgainst hr id
    have hone₂ := h₂.sweep.filledAgainst hr₁ id
    rw [hrest] at hone
    omega
  · intro f hf
    rcases List.mem_append.1 hf with hf | hf
    · rcases List.mem_append.1 hf with hf | hf
      · obtain ⟨x, hx, -, hfill⟩ := h.sweep.counterparty hr hf
        exact ⟨x, hx, hfill.restingOrderId, hfill.price⟩
      · obtain ⟨x, hx, -, hfill⟩ := h₁.sweep.counterparty hr hf
        exact ⟨x, hx, hfill.restingOrderId, hfill.price⟩
    · -- what rests for the second part rested for the first
      obtain ⟨x, hx, -, hfill⟩ := h₂.sweep.counterparty hr₁ hf
      obtain ⟨y, hy, hxy⟩ := h₁.sweep.mem hr hx
      rw [hxy] at hfill
      exact ⟨y, hy, hfill.restingOrderId, hfill.price⟩

theorem Submitted.splitAlike {o₁ o₂ : Order} {r₁ r₂ : RefEngine P} {fs₁ fs₂ : List Fill} {res₁ res₂ : NewOrderResult}
    (hr : r.Valid) (hsplit : SplitOf o o₁ o₂) (h : r.Submitted o res r' fs) (h₁ : r.Submitted o₁ res₁ r₁ fs₁)
    (h₂ : r₁.Submitted o₂ res₂ r₂ fs₂) : SplitAlike r r' r₂ fs fs₁ fs₂ := by
  obtain ⟨hsym₁, hsym₂⟩ := hsplit.symbol
  obtain ⟨hpos₁, hpos₂⟩ := hsplit.quantity_pos
  by_cases hsym : o.symbol = r.symbol
  · obtain ⟨a, hx⟩ := h.aggressive hsplit.aggressive hsym (by rw [hsplit.quantity]; omega)
    obtain ⟨a₁, hx₁⟩ := h₁.aggressive hsplit.aggressive₁ (hsym₁.trans hsym) hpos₁
    obtain ⟨a₂, hx₂⟩ := h₂.aggressive hsplit.aggressive₂ (by rw [hsym₂, hsym, h₁.instrument.1]) hpos₂
    exact Executed.splitAlike hr hsplit hx hx₁ hx₂
  · obtain ⟨rfl, rfl⟩ := h.unknownSymbol hsym
    obtain ⟨rfl, rfl⟩ := h₁.unknownSymbol (by rw [hsym₁]; exact hsym)
    obtain ⟨rfl, rfl⟩ := h₂.unknownSymbol (by rw [hsym₂]; exact hsym)
    exact ⟨rfl, rfl, fun _ => rfl, by simp⟩

end RefEngine

/-! ### The engine -/

variable {P : Params} {M : Type} [DenseMap M OrderId Nat]

/-- Books of one instrument that hold the same orders show the same levels. -/
theorem Refines.levels_eq {e₁ e₂ : MatchingEngine P M} {r₁ r₂ : RefEngine P} (h₁ : Refines e₁ r₁) (h₂ : Refines e₂ r₂)
    (hrest : r₁.resting = r₂.resting) (hbase : r₁.basePrice = r₂.basePrice) (s : Side) (i : Nat) :
    e₁.book.fifo s i = e₂.book.fifo s i ∧
      (e₁.book.levelFor s i).totalQuantity = (e₂.book.levelFor s i).totalQuantity ∧
      (e₁.book.levelFor s i).orderCount = (e₂.book.levelFor s i).orderCount := by
  have hprice : e₁.book.priceAt i = e₂.book.priceAt i := by
    unfold OrderBook.priceAt
    rw [h₁.basePrice, h₂.basePrice, hbase]
  obtain ⟨htotal₁, hcount₁⟩ := h₁.holds.level s i
  obtain ⟨htotal₂, hcount₂⟩ := h₂.holds.level s i
  rw [h₁.holds.fifo, h₂.holds.fifo, htotal₁, htotal₂, hcount₁, hcount₂, hprice, hrest]
  exact ⟨rfl, rfl, rfl⟩

/-- In every state a run of calls leads to, an order that does not rest may be submitted in two parts: the levels are
the same in the end, and so is what has been filled, in all and against every resting order, at its own price. -/
theorem split_equivalent (symbol : SymbolId) (basePrice : Int) (calls : List Call) :
    ∃ resps e, runAll MatchingEngine.call (MatchingEngine.new P M symbol basePrice) calls = some (resps, e) ∧
      ∀ o o₁ o₂, SplitOf o o₁ o₂ → ∀ out out₁ out₂, ∃ res e' fs res₁ e₁ fs₁ res₂ e₂ fs₂,
        e.submit o out = some (res, e', out ++ fs) ∧
        e.submit o₁ out₁ = some (res₁, e₁, out₁ ++ fs₁) ∧ e₁.submit o₂ out₂ = some (res₂, e₂, out₂ ++ fs₂) ∧
        (∀ s i, e'.book.fifo s i = e₂.book.fifo s i ∧
          (e'.book.levelFor s i).totalQuantity = (e₂.book.levelFor s i).totalQuantity ∧
          (e'.book.levelFor s i).orderCount = (e₂.book.levelFor s i).orderCount) ∧
        (fs.map Fill.quantity).sum = (fs₁.map Fill.quantity).sum + (fs₂.map Fill.quantity).sum ∧
        (∀ id, filledAgainst id fs = filledAgainst id fs₁ + filledAgainst id fs₂) ∧
        ∀ f ∈ fs ++ fs₁ ++ fs₂, ∃ n, e.book.findNode f.restingOrderId = some n ∧
          f.price = (e.book.node n).order.price := by
  obtain ⟨resps, e, r, he, -, h, -⟩ := run_sim (P := P) (M := M) symbol basePrice calls
  refine ⟨resps, e, he, ?_⟩
  intro o o₁ o₂ hsplit out out₁ out₂
  obtain ⟨res, e', r', fs, hsubmit, -, hsub, h'⟩ := submit_sim h o out
  obtain ⟨res₁, e₁, r₁, fs₁, hsubmit₁, -, hsub₁, h₁⟩ := submit_sim h o₁ out₁
  obtain ⟨res₂, e₂, r₂, fs₂, hsubmit₂, -, hsub₂, h₂⟩ := submit_sim h₁ o₂ out₂
  have halike := RefEngine.Submitted.splitAlike h.valid hsplit hsub hsub₁ hsub₂
  have hbase : r'.basePrice = r₂.basePrice := by rw [hsub.instrument.2, hsub₂.instrument.2, hsub₁.instrument.2]
  refine ⟨res, e', fs, res₁, e₁, fs₁, res₂, e₂, fs₂, hsubmit, hsubmit₁, hsubmit₂,
    h'.levels_eq h₂ halike.resting hbase, halike.quantity, halike.filledAgainst, ?_⟩
  intro f hf
  obtain ⟨x, hx, hid, hprice⟩ := halike.price f hf
  obtain ⟨n, hfind, hn⟩ := h.holds.exists_node hx
  exact ⟨n, by rw [hid, hfind], by rw [hprice, hn]⟩

end Exchange
