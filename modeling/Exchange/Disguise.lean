import Exchange.Relabelling
import Exchange.BestPrices

/-!
# What matching does not look at

Two matching engines are alike if they hold the same orders, up to a renaming of the clients and whatever the
timestamps are.  Alike engines stay alike when they are given alike orders: neither clients nor timestamps have any
influence on matching.
-/

namespace Exchange

open OrderBook

variable {P : Params} {M : Type} [DenseMap M OrderId Nat]

/-- Renames the clients and forgets the timestamps. -/
def disguise (P : Params) (basePrice : Int) (γ : ClientId → ClientId) : Relabelling P basePrice where
  side := id
  price := id
  client := γ
  time _ := 0
  side_inj _ _ := Iff.rfl
  opposite_side _ := rfl
  crosses_price _ _ _ := rfl
  inRange _ := Iff.rfl

/-- `o'` is the order of the renamed client, at whatever time. -/
def OrderAlike (γ : ClientId → ClientId) (o o' : Order) : Prop :=
  o' = { o with client := γ o.client, timestamp := o'.timestamp }

def Fill.rename (γ : ClientId → ClientId) (f : Fill) : Fill :=
  { f with restingClientId := γ f.restingClientId, aggressorClientId := γ f.aggressorClientId }

/-- The books of the two engines hold alike orders, in the same places. -/
def MatchingAlike (γ : ClientId → ClientId) (e e' : MatchingEngine P M) : Prop :=
  ∃ r r', Refines e r ∧ Refines e' r' ∧ (disguise P r.basePrice γ).engine r = (disguise P r.basePrice id).engine r'

section

variable {γ : ClientId → ClientId} {b : Int} {o o' : Order}

theorem disguise_order_eq_iff : (disguise P b γ).order o = (disguise P b id).order o' ↔ OrderAlike γ o o' := by
  obtain ⟨_, _, _, _, _, _, _, _, _, _, _⟩ := o
  obtain ⟨_, _, _, _, _, _, _, _, _, _, _⟩ := o'
  unfold OrderAlike
  simp only [Relabelling.order, disguise, id_eq, Order.mk.injEq]
  tauto

theorem MatchingAlike.refl {e : MatchingEngine P M} {r : RefEngine P} (h : Refines e r) : MatchingAlike id e e :=
  ⟨r, r, h, h, rfl⟩

theorem basePrice_eq_of_disguise {r r' : RefEngine P} (h : (disguise P b γ).engine r = (disguise P b id).engine r') :
    r'.basePrice = r.basePrice := by
  have hbase := congrArg RefEngine.basePrice h
  exact hbase.symm

variable {e e' : MatchingEngine P M}

/-- Two calls that are the same in disguise have the same result and alike fills, and lead to alike books. -/
theorem MatchingAlike.of_disguised {ρ : Type} {call : Option (ρ × RefEngine P × List Fill)} {res res' : ρ}
    {r₁ r₁' : RefEngine P} {fs fs' : List Fill}
    (hone : call = some (res, (disguise P b γ).engine r₁, fs.map (disguise P b γ).fill))
    (htwo : call = some (res', (disguise P b id).engine r₁', fs'.map (disguise P b id).fill))
    (hR : Refines e r₁) (hR' : Refines e' r₁') (hbase : r₁.basePrice = b) :
    res' = res ∧ fs' = fs.map (Fill.rename γ) ∧ MatchingAlike γ e e' := by
  have hboth := htwo.symm.trans hone
  simp only [Option.some.injEq, Prod.mk.injEq] at hboth
  obtain ⟨hres, hr₁, hfs⟩ := hboth
  refine ⟨hres, (List.map_id fs').symm.trans hfs, r₁, r₁', hR, hR', ?_⟩
  rw [hbase]
  exact hr₁.symm

/-- Alike submissions have the same result and alike fills. -/
theorem MatchingAlike.submit (h : MatchingAlike γ e e') (ho : OrderAlike γ o o') :
    ∃ res e₁ e₁' fs, e.submit o [] = some (res, e₁, fs) ∧ e'.submit o' [] = some (res, e₁', fs.map (Fill.rename γ)) ∧
      MatchingAlike γ e₁ e₁' := by
  obtain ⟨r, r', hR, hR', heq⟩ := h
  obtain ⟨res, e₁, r₁, fs, he, hr, hsub, hR₁⟩ := submit_sim hR o []
  obtain ⟨res', e₁', r₁', fs', he', hr', hsub', hR₁'⟩ := submit_sim hR' o' []
  have hone := (disguise P r.basePrice γ).submit_relabel hR.valid rfl hr
  have htwo := (disguise P r.basePrice id).submit_relabel hR'.valid (basePrice_eq_of_disguise heq) hr'
  rw [heq, disguise_order_eq_iff.2 ho, List.nil_append] at hone
  rw [List.nil_append] at htwo
  obtain ⟨rfl, rfl, halike⟩ := MatchingAlike.of_disguised hone htwo hR₁ hR₁' hsub.instrument.2
  exact ⟨res', e₁, e₁', fs, he, he', halike⟩

theorem MatchingAlike.replace (h : MatchingAlike γ e e') (orderId : OrderId) (p q : Int) (seq : Sequence)
    (ts ts' : Int) :
    ∃ res e₁ e₁' fs, e.replace orderId p q seq ts [] = some (res, e₁, fs) ∧
      e'.replace orderId p q seq ts' [] = some (res, e₁', fs.map (Fill.rename γ)) ∧ MatchingAlike γ e₁ e₁' := by
  obtain ⟨r, r', hR, hR', heq⟩ := h
  obtain ⟨res, e₁, r₁, fs, he, hr, hrep, hR₁⟩ := replace_sim hR orderId p q seq ts []
  obtain ⟨res', e₁', r₁', fs', he', hr', -, hR₁'⟩ := replace_sim hR' orderId p q seq ts' []
  have hone := (disguise P r.basePrice γ).replace_relabel hR.valid rfl hr
  have htwo := (disguise P r.basePrice id).replace_relabel hR'.valid (basePrice_eq_of_disguise heq) hr'
  rw [heq, List.nil_append] at hone
  rw [List.nil_append] at htwo
  -- the disguised calls are the same call
  obtain ⟨rfl, rfl, halike⟩ := MatchingAlike.of_disguised hone htwo hR₁ hR₁' hrep.instrument.2
  exact ⟨res', e₁, e₁', fs, he, he', halike⟩

theorem MatchingAlike.cancel (h : MatchingAlike γ e e') (id : OrderId) :
    (e'.cancel id).1 = (e.cancel id).1 ∧ MatchingAlike γ (e.cancel id).2 (e'.cancel id).2 := by
  obtain ⟨r, r', hR, hR', heq⟩ := h
  obtain ⟨hres, hR₁⟩ := cancel_sim hR id
  obtain ⟨hres', hR₁'⟩ := cancel_sim hR' id
  have hone := (disguise P r.basePrice γ).cancel_relabel (r := r) id
  rw [heq, (disguise P r.basePrice _).cancel_relabel (r := r') id] at hone
  obtain ⟨hsame, hr₁⟩ := Prod.mk.inj hone
  refine ⟨by rw [hres, hres', hsame], _, _, hR₁, hR₁', ?_⟩
  rw [(r.cancel_instrument id).2]
  exact hr₁.symm

/-- Both books have an order with this id, and these orders are alike, or neither has one. -/
theorem MatchingAlike.findNode (h : MatchingAlike γ e e') (id : OrderId) :
    e.book.findNode id = none ∧ e'.book.findNode id = none ∨
      ∃ n n', e.book.findNode id = some n ∧ e'.book.findNode id = some n' ∧
        OrderAlike γ (e.book.node n).order (e'.book.node n').order := by
  obtain ⟨r, r', hR, hR', heq⟩ := h
  have hresting : r.resting.map (disguise P r.basePrice γ).order = r'.resting.map (disguise P r.basePrice _).order :=
    congrArg RefEngine.resting heq
  have hfind := (disguise P r.basePrice γ).find?_order id r.resting
  rw [hresting, Relabelling.find?_order, hR.holds.find?_eq, hR'.holds.find?_eq] at hfind
  cases hn : e.book.findNode id with
  | none =>
    refine Or.inl ⟨rfl, ?_⟩
    cases hn' : e'.book.findNode id with
    | none => rfl
    | some n' => rw [hn, hn'] at hfind; cases hfind
  | some n =>
    cases hn' : e'.book.findNode id with
    | none => rw [hn, hn'] at hfind; cases hfind
    | some n' =>
      rw [hn, hn'] at hfind
      simp only [Option.map_some, Option.some.injEq] at hfind
      exact Or.inr ⟨n, n', rfl, rfl, disguise_order_eq_iff.1 hfind.symm⟩

/-! ### The levels -/

/-- Two levels that look the same from outside. -/
def LevelAlike (l l' : PriceLevel) : Prop := l'.totalQuantity = l.totalQuantity ∧ l'.orderCount = l.orderCount

private theorem ordersAt_disguise {L L' : List Order}
    (h : L.map (disguise P b γ).order = L'.map (disguise P b id).order) (s : Side) (p : Int) :
    (ordersAt s p L).map (disguise P b γ).order = (ordersAt s p L').map (disguise P b id).order := by
  have hone := (disguise P b γ).ordersAt_order s p L
  rw [h] at hone
  have htwo := (disguise P b id).ordersAt_order s p L'
  exact hone.symm.trans htwo

/-- What does not depend on clients and timestamps is the same for the orders of every level. -/
theorem MatchingAlike.ordersAt (h : MatchingAlike γ e e') :
    ∃ L L', e.book.Holds L ∧ e'.book.Holds L' ∧ e'.book.basePrice = e.book.basePrice ∧
      ∀ s p, (Exchange.ordersAt s p L').map Order.id = (Exchange.ordersAt s p L).map Order.id ∧
        (Exchange.ordersAt s p L').map Order.remaining = (Exchange.ordersAt s p L).map Order.remaining := by
  obtain ⟨r, r', hR, hR', heq⟩ := h
  refine ⟨r.resting, r'.resting, hR.holds, hR'.holds, ?_, ?_⟩
  · rw [hR'.basePrice, hR.basePrice, basePrice_eq_of_disguise heq]
  · intro s p
    have hlevel := ordersAt_disguise (congrArg RefEngine.resting heq) s p
    have hids := congrArg (List.map Order.id) hlevel
    have hrems := congrArg (List.map Order.remaining) hlevel
    rw [List.map_map, List.map_map] at hids hrems
    exact ⟨hids.symm, hrems.symm⟩

theorem MatchingAlike.level (h : MatchingAlike γ e e') (s : Side) (i : Nat) :
    LevelAlike (e.book.levelFor s i) (e'.book.levelFor s i) ∧
      (e'.book.fifo s i).map Order.id = (e.book.fifo s i).map Order.id := by
  obtain ⟨L, L', hL, hL', hbase, horders⟩ := h.ordersAt
  have hprice : e'.book.priceAt i = e.book.priceAt i := by
    unfold priceAt
    rw [hbase]
  obtain ⟨hids, hrems⟩ := horders s (e.book.priceAt i)
  obtain ⟨htotal, hcount⟩ := hL.level s i
  obtain ⟨htotal', hcount'⟩ := hL'.level s i
  refine ⟨⟨?_, ?_⟩, ?_⟩
  · rw [htotal', htotal, hprice, hrems]
  · have hlength := congrArg List.length hids
    rw [List.length_map, List.length_map] at hlength
    rw [hcount', hcount, hprice, hlength]
  · rw [hL'.fifo, hL.fifo, hprice, hids]

theorem MatchingAlike.levelAt (h : MatchingAlike γ e e') (s : Side) (p : Int) :
    e.book.levelAt s p = none ∧ e'.book.levelAt s p = none ∨
      ∃ l l', e.book.levelAt s p = some l ∧ e'.book.levelAt s p = some l' ∧ LevelAlike l l' := by
  have hindex : e'.book.indexOf p = e.book.indexOf p := by
    obtain ⟨L, L', -, -, hbase, -⟩ := h.ordersAt
    unfold indexOf
    rw [hbase]
  unfold OrderBook.levelAt
  rw [hindex]
  cases e.book.indexOf p with
  | none => exact Or.inl ⟨rfl, rfl⟩
  | some i => exact Or.inr ⟨_, _, rfl, rfl, (h.level s i).1⟩

theorem MatchingAlike.best (h : MatchingAlike γ e e') :
    e'.book.bestBid = e.book.bestBid ∧ e'.book.bestAsk = e.book.bestAsk := by
  obtain ⟨L, L', hL, hL', -, horders⟩ := h.ordersAt
  refine hL.best_congr hL' ?_
  funext s
  ext p
  have hids := (horders s p).1
  rw [hL'.mem_prices, hL.mem_prices, Ne, Ne, ← List.map_eq_nil_iff (f := Order.id), hids, List.map_eq_nil_iff]

end

end Exchange
