import Exchange.BookView

/-!
# Book operations are all-or-nothing

A call of `add`, `cancel`, `reduce_quantity` or `replace` that returns an error leaves every part of the book as it
was.  For the first three the checks come before the first write.  `replace` frees the node and erases the id before
it calls `add`, which could refuse in five ways; none of them is possible at that point, so an order that has been
taken out is always put back.
-/

namespace Exchange

namespace OrderBook

open DenseMap

variable {P : Params} {M : Type} [DenseMap M OrderId Nat] {b : OrderBook P M} {L : List Order}

/-- What the four operations promise in the state `b`.  The equality of books is that of all their parts: both
ladders with their bitmaps and best indices, the id map, the order count and the pool with its free list. -/
structure Atomic (b : OrderBook P M) : Prop where
  add : ∀ o e, (b.add o).1 = .error e → (b.add o).2 = b
  cancel : ∀ id e, (b.cancel id).1 = .error e → (b.cancel id).2 = b
  reduceQuantity : ∀ id q e, (b.reduceQuantity id q).1 = .error e → (b.reduceQuantity id q).2 = b
  replace : ∀ id p q seq ts e, (b.replace id p q seq ts).1 = .error e →
    (b.replace id p q seq ts).2 = b ∧ e ≠ .poolExhausted
  replaced : ∀ id p q seq ts n i, b.findNode id = some n → 0 < q → b.indexOf p = some i →
    ∃ b', b.replace id p q seq ts = (.ok (), b') ∧
      b'.fifo (b.node n).order.side i =
        removeOrder id (b.fifo (b.node n).order.side i) ++ [(b.node n).order.replaced p q seq ts] ∧
      ((b.node n).order.replaced p q seq ts).id = id

theorem Holds.add_unchanged (h : b.Holds L) {o : Order} {e : AddError} (he : (b.add o).1 = .error e) :
    (b.add o).2 = b := by
  by_cases hok : o.type = .limit ∧ 0 < o.remaining ∧ (b.indexOf o.price).isSome ∧ (∀ x ∈ L, x.id ≠ o.id) ∧
      L.length < P.maxOrders
  · obtain ⟨htype, hrem, hp, hid, hcap⟩ := hok
    obtain ⟨b', hadd, -⟩ := h.add_ok htype hrem hp hid hcap
    rw [hadd] at he
    cases he
  · obtain ⟨e', hadd⟩ := h.add_error hok
    rw [hadd]

theorem Holds.cancel_unchanged (h : b.Holds L) {id : OrderId} {e : CancelError} (he : (b.cancel id).1 = .error e) :
    (b.cancel id).2 = b := by
  cases hfind : b.findNode id with
  | none => rw [cancel_error hfind]
  | some n =>
    obtain ⟨hmem, rfl⟩ := h.findNode_mem hfind
    obtain ⟨b', hcancel, -⟩ := h.cancel_ok hmem
    rw [hcancel] at he
    cases he

theorem Holds.reduceQuantity_unchanged (h : b.Holds L) {id : OrderId} {q : Int} {e : ReduceError}
    (he : (b.reduceQuantity id q).1 = .error e) : (b.reduceQuantity id q).2 = b := by
  by_cases hbad : ∀ n, find b.orderIndex id = some n → q ≤ 0 ∨ (b.node n).order.remaining < q
  · obtain ⟨e', hreduce⟩ := reduceQuantity_error hbad
    rw [hreduce]
  · push Not at hbad
    obtain ⟨n, hfind, hq, hle⟩ := hbad
    obtain ⟨hmem, rfl⟩ := h.findNode_mem hfind
    obtain ⟨b', hreduce, -⟩ := h.reduce hmem hq hle
    rw [hreduce] at he
    cases he

theorem Holds.replace_unchanged (h : b.Holds L) {id : OrderId} {p q : Int} {seq : Sequence} {ts : Int}
    {e : ReplaceError} (he : (b.replace id p q seq ts).1 = .error e) :
    (b.replace id p q seq ts).2 = b ∧ e ≠ .poolExhausted := by
  by_cases hbad : find b.orderIndex id = none ∨ q ≤ 0 ∨ b.indexOf p = none
  · obtain ⟨e', hreplace, hne⟩ := replace_error seq ts hbad
    rw [hreplace] at he
    cases he
    exact ⟨by rw [hreplace], hne⟩
  · push Not at hbad
    obtain ⟨hfound, hq, hp⟩ := hbad
    obtain ⟨n, hfind⟩ := Option.ne_none_iff_exists'.1 hfound
    obtain ⟨hmem, rfl⟩ := h.findNode_mem hfind
    obtain ⟨b', hreplace, -⟩ := h.replace_ok hmem seq ts hq (Option.isSome_iff_ne_none.2 hp)
    rw [hreplace] at he
    cases he

/-- The replaced order is at the back of its new level, behind what was there without it. -/
theorem Holds.replace_fifo (h : b.Holds L) {id : OrderId} {p q : Int} (seq : Sequence) (ts : Int) {n i : Nat}
    (hfind : b.findNode id = some n) (hq : 0 < q) (hi : b.indexOf p = some i) :
    ∃ b', b.replace id p q seq ts = (.ok (), b') ∧
      b'.fifo (b.node n).order.side i =
        removeOrder id (b.fifo (b.node n).order.side i) ++ [(b.node n).order.replaced p q seq ts] := by
  obtain ⟨hmem, rfl⟩ := h.findNode_mem hfind
  obtain ⟨b', hreplace, h', hsame⟩ := h.replace_ok hmem seq ts hq (by rw [hi]; rfl)
  have hprice : b'.priceAt i = p := by
    rw [priceAt, hsame.2]
    exact (indexOf_eq_some.1 hi).2.symm
  have hprice₀ : b.priceAt i = p := (indexOf_eq_some.1 hi).2.symm
  refine ⟨b', hreplace, ?_⟩
  rw [h'.fifo, h.fifo, hprice, hprice₀]
  have hnew : ordersAt (b.node n).order.side p [(b.node n).order.replaced p q seq ts] =
      [(b.node n).order.replaced p q seq ts] := by
    simp [ordersAt, Order.replaced]
  have hold : ordersAt (b.node n).order.side p (removeOrder (b.node n).order.id L) =
      removeOrder (b.node n).order.id (ordersAt (b.node n).order.side p L) := by
    simp only [ordersAt, removeOrder, List.filter_filter]
    congr 1
    funext x
    exact Bool.and_comm _ _
  calc ordersAt (b.node n).order.side p (removeOrder (b.node n).order.id L ++ [(b.node n).order.replaced p q seq ts])
      = ordersAt (b.node n).order.side p (removeOrder (b.node n).order.id L) ++
          ordersAt (b.node n).order.side p [(b.node n).order.replaced p q seq ts] := List.filter_append ..
    _ = _ := by rw [hold, hnew]

end OrderBook

open OrderBook

/-- In every state that a book can be brought to, its operations are all-or-nothing. -/
theorem book_operations_atomic {P : Params} {M : Type} [DenseMap M OrderId Nat] (symbol : SymbolId) (basePrice : Int)
    (ops : List BookOp) : (ops.foldl apply (new P M symbol basePrice)).Atomic := by
  obtain ⟨rest, hrep⟩ := rep_run (P := P) (M := M) symbol basePrice ops
  generalize ops.foldl apply (new P M symbol basePrice) = b at hrep
  have h : b.Holds (rest.map fun n => (b.node n).order) := ⟨rest, hrep, rfl⟩
  refine ⟨fun o e he => h.add_unchanged he, fun id e he => h.cancel_unchanged he,
    fun id q e he => h.reduceQuantity_unchanged he, fun id p q seq ts e he => h.replace_unchanged he, ?_⟩
  intro id p q seq ts n i hfind hq hi
  obtain ⟨b', hreplace, hfifo⟩ := h.replace_fifo seq ts hfind hq hi
  exact ⟨b', hreplace, hfifo, (h.findNode_mem hfind).2⟩

end Exchange
