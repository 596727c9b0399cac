import Exchange.BestPrices
import Exchange.Refinement

/-!
# Cancel undoes add

Adding an order and cancelling it again gives a book that cannot be told from the one before, by its best prices, its
queues and their aggregates, its lookups, its order count or the free list of its pool.  The same holds for an order
that the matching engine puts to rest without a fill.
-/

namespace Exchange

open DenseMap

namespace OrderBook

variable {P : Params} {M : Type} [DenseMap M OrderId Nat] {b b' b₁ : OrderBook P M} {rest : List Nat}

/-- Everything that can be observed of `b` is the same in `b'`. -/
structure Restored (b b' : OrderBook P M) : Prop where
  bestBid : b'.bestBid = b.bestBid
  bestAsk : b'.bestAsk = b.bestAsk
  fifo : ∀ s i, b'.fifo s i = b.fifo s i
  totalQuantity : ∀ s i, (b'.levelFor s i).totalQuantity = (b.levelFor s i).totalQuantity
  levelCount : ∀ s i, (b'.levelFor s i).orderCount = (b.levelFor s i).orderCount
  findNode : ∀ id, b'.findNode id = b.findNode id
  order : ∀ id n, b.findNode id = some n → (b'.node n).order = (b.node n).order
  orderCount : b'.orderCount = b.orderCount
  pool : b.pool.SameFree b'.pool

/-- Two books for the same instrument that keep the same orders in the same nodes. -/
theorem Rep.restored (h : b.Rep rest) (h' : b'.Rep rest) (horder : ∀ n ∈ rest, (b'.node n).order = (b.node n).order)
    (hsame : SameInstrument b b') (hpool : b.pool.SameFree b'.pool) : Restored b b' := by
  have hholds : b.Holds (rest.map fun n => (b.node n).order) := ⟨rest, h, rfl⟩
  have hholds' : b'.Holds (rest.map fun n => (b.node n).order) := ⟨rest, h', (List.map_congr_left horder).symm⟩
  have hprice : ∀ i, b'.priceAt i = b.priceAt i := fun i => by rw [priceAt, priceAt, hsame.2]
  have hprices : b'.prices = b.prices := by
    ext s p
    rw [hholds'.mem_prices, hholds.mem_prices]
  have hbest := hholds.best_congr hholds' hprices
  refine ⟨hbest.1, hbest.2, ?_, ?_, ?_, ?_, ?_, ?_, hpool⟩
  · intro s i
    rw [hholds'.fifo, hholds.fifo, hprice]
  · intro s i
    rw [(hholds'.level s i).1, (hholds.level s i).1, hprice]
  · intro s i
    rw [(hholds'.level s i).2, (hholds.level s i).2, hprice]
  · intro id
    apply Option.ext
    intro n
    show find b'.orderIndex id = some n ↔ find b.orderIndex id = some n
    rw [h'.index, h.index]
    exact and_congr_right fun hn => by rw [horder n hn]
  · intro id n hfind
    exact horder n ((h.index id n).1 hfind).1
  · rw [h'.count, h.count]

/-! ### The pool -/

/-- An accepted order is in the slot that the pool handed out. -/
theorem add_allocates {o : Order} {id : OrderId} (h : b.add o = (.ok id, b₁)) :
    ∃ n p st, b.pool.allocate = (some n, p) ∧ b₁.pool = p.write st ∧
      b₁.orderIndex = emplace b.orderIndex o.id n := by
  unfold add at h
  split_ifs at h
  · cases h
  · cases h
  · cases hi : b.indexOf o.price with
    | none => rw [hi] at h; cases h
    | some i => rw [hi] at h; cases h
  · cases hi : b.indexOf o.price with
    | none => rw [hi] at h; cases h
    | some i =>
      rw [hi] at h
      cases halloc : b.pool.allocate with
      | mk slot p =>
        rw [halloc] at h
        cases slot with
        | none => cases h
        | some n =>
          cases h
          obtain ⟨st, hpool, -, -, hindex, -⟩ := place_spec { b with pool := p } o i n
          exact ⟨n, p, st, rfl, hpool, hindex⟩

theorem cancel_deallocates {id : OrderId} {n : Nat} (hfind : find b.orderIndex id = some n)
    (h : b.cancel id = (.ok (), b₁)) : ∃ st, b₁.pool = (b.pool.write st).deallocate n := by
  unfold cancel at h
  rw [hfind] at h
  cases h
  exact ⟨_, rfl⟩

theorem Rep.add_cancel (h : b.Rep rest) {o : Order} {id : OrderId} (hadd : b.add o = (.ok id, b₁)) :
    ∃ b₂, b₁.cancel o.id = (.ok (), b₂) ∧ Restored b b₂ := by
  by_cases hok : o.type = .limit ∧ 0 < o.remaining ∧ (b.indexOf o.price).isSome ∧ find b.orderIndex o.id = none ∧
      rest.length < P.maxOrders
  · obtain ⟨htype, hrem, hp, hid, hcap⟩ := hok
    obtain ⟨i, hi⟩ := Option.isSome_iff_exists.1 hp
    obtain ⟨n, b₁', hadd', hn, hrep₁, hnew, hold, hsame⟩ := h.add_ok htype hrem hi hid hcap
    obtain ⟨m, p, st, halloc, hpool₁, hindex⟩ := add_allocates hadd
    rw [hadd] at hadd'
    cases hadd'
    obtain ⟨b₂, hcancel, hrep₂, hold₂, hsame₂⟩ :=
      hrep₁.cancel_ok (List.mem_append_right rest (List.mem_singleton_self n))
    rw [hnew] at hcancel
    rw [List.erase_append_right _ hn, List.erase_cons_head, List.append_nil] at hrep₂ hold₂
    -- the node that is freed is the one that was allocated
    have hfind : find b₁.orderIndex o.id = some m := by
      rw [hindex, find_emplace_self _ _ _ hid]
    obtain ⟨st₂, hpool₂⟩ := cancel_deallocates hfind hcancel
    refine ⟨b₂, hcancel, h.restored hrep₂ (fun x hx => (hold₂ x hx).trans (hold x hx))
      ⟨hsame₂.1.trans hsame.1, hsame₂.2.trans hsame.2⟩ ?_⟩
    rw [hpool₂, hpool₁]
    exact SlabPool.allocate_deallocate halloc st₂
  · obtain ⟨e, he⟩ := h.add_error hok
    rw [hadd] at he
    cases he

end OrderBook

/-! ### The matching engine -/

namespace MatchingEngine

open OrderBook

variable {P : Params} {M : Type} [DenseMap M OrderId Nat]

/-- Every iteration of the match loop that goes on has appended a fill. -/
theorem matchStep_grows (st st' : MatchState (MatchingEngine P M)) (h : matchStep st = .next st') :
    st.outFills.length < st'.outFills.length := by
  unfold matchStep at h
  dsimp only at h
  by_cases hpos : st.aggressor.remaining > 0
  · rw [if_pos hpos, bestPrice_eq] at h
    cases hbest : (st.engine.book.bestIndexFor (opposite st.aggressor.side)).map st.engine.book.priceAt with
    | none => rw [hbest] at h; cases h
    | some best =>
      rw [hbest] at h
      dsimp only at h
      split_ifs at h
      cases hfront : st.engine.book.frontAt (opposite st.aggressor.side) best with
      | none => rw [hfront] at h; cases h
      | some n =>
        rw [hfront] at h
        cases h
        simp
  · rw [if_neg hpos] at h
    cases h

/-- An order that comes to rest without a fill has only been added to the book. -/
theorem submit_unfilled {e e₁ : MatchingEngine P M} {o : Order} {out out₁ : List Fill} {res : NewOrderResult}
    (h : e.submit o out = some (res, e₁, out₁)) (hrested : res.rested = true) (hfills : res.fillCount = 0) :
    ∃ id, e.book.add o.fresh = (.ok id, e₁.book) := by
  unfold submit at h
  dsimp only at h
  split_ifs at h
  · cases h
    cases hrested
  · cases h
    cases hrested
  · cases hfok : e.fokNotFillable o.fresh with
    | none => rw [hfok] at h; cases h
    | some killed =>
      rw [hfok] at h
      cases killed with
      | true =>
        cases h
        cases hrested
      | false =>
        dsimp only at h
        cases hmatch : e.matchAgainstBook o.fresh out with
        | none => rw [hmatch] at h; cases h
        | some st =>
          rw [hmatch] at h
          cases h
          have hle : st.outFills.length ≤ out.length := by
            have hcount : ((st.engine.restRemainder st.aggressor _).1).fillCount = 0 := hfills
            unfold restRemainder at hcount
            split_ifs at hcount
            · split at hcount <;> exact Nat.sub_eq_zero_iff_le.1 hcount
            · exact Nat.sub_eq_zero_iff_le.1 hcount
          obtain rfl : st = { aggressor := o.fresh, engine := e, outFills := out } := by
            rcases runLoop_grows (fun st => st.outFills.length) matchStep_grows hmatch with hst | hst
            · exact hst
            · exact absurd hle (not_le.2 hst)
          have hrest : (e.restRemainder o.fresh _).1.rested = true := hrested
          unfold restRemainder at hrest ⊢
          dsimp only at hrest ⊢
          split_ifs at hrest ⊢
          cases hadd : e.book.add o.fresh with
          | mk r book =>
            rw [hadd] at hrest
            cases r with
            | error err => cases hrest
            | ok id => exact ⟨id, rfl⟩

end MatchingEngine

open OrderBook

/-- In every state that book operations lead to, an order that `add` accepts can be cancelled, and the book is then
restored; so is the book of an engine, in every state that calls lead to, by the cancel of an order that came to rest
without a fill. -/
theorem cancel_undoes_add {P : Params} {M : Type} [DenseMap M OrderId Nat] (symbol : SymbolId) (basePrice : Int) :
    (∀ (ops : List BookOp) (o : Order) (id : OrderId) (b₁ : OrderBook P M),
      (ops.foldl apply (new P M symbol basePrice)).add o = (.ok id, b₁) →
        ∃ b₂, b₁.cancel o.id = (.ok (), b₂) ∧ Restored (ops.foldl apply (new P M symbol basePrice)) b₂) ∧
    ∀ calls : List Call, ∃ resps e,
      runAll MatchingEngine.call (MatchingEngine.new P M symbol basePrice) calls = some (resps, e) ∧
        ∀ o out res e₁ out₁, e.submit o out = some (res, e₁, out₁) → res.rested = true → res.fillCount = 0 →
          ∃ e₂, e₁.cancel o.id = ({ accepted := true }, e₂) ∧ Restored e.book e₂.book := by
  constructor
  · intro ops o id b₁ hadd
    obtain ⟨rest, hrep⟩ := rep_run (P := P) (M := M) symbol basePrice ops
    exact hrep.add_cancel hadd
  · intro calls
    obtain ⟨resps, e, r, he, -, h, -⟩ := run_sim (P := P) (M := M) symbol basePrice calls
    refine ⟨resps, e, he, ?_⟩
    intro o out res e₁ out₁ hsubmit hrested hfills
    obtain ⟨rest, hrep, -⟩ := h.holds
    obtain ⟨id, hadd⟩ := MatchingEngine.submit_unfilled hsubmit hrested hfills
    obtain ⟨b₂, hcancel, hrestored⟩ := hrep.add_cancel hadd
    refine ⟨{ e₁ with book := b₂ }, ?_, hrestored⟩
    unfold MatchingEngine.cancel
    rw [show e₁.book.cancel o.id = (.ok (), b₂) from hcancel]

end Exchange
