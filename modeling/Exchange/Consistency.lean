import Exchange.BookInvariant
import Mathlib.Algebra.BigOperators.Ring.Finset
import Mathlib.Data.Fintype.BigOperators

/-!
# Consistency of the book's redundant structures

What an observer who walks the whole book finds: the chains of all levels, the id map, the pool and the two counters
describe the same set of orders.  This is the content of `check_book_invariants` in `jane/correctness/invariants.hpp`,
completed by the links, the id map and the pool.
-/

namespace Exchange

open DenseMap

namespace OrderBook

variable {P : Params} {M : Type} [DenseMap M OrderId Nat]

/-- The number of nodes on all the chains of both sides. -/
def chained (chain : Side → Fin P.numLevels → List Nat) : Nat :=
  ∑ i, ((chain .buy i).length + (chain .sell i).length)

/-- `chain s i` are the nodes of the level `i` of side `s`, from `head` to `tail`. -/
structure Consistent (b : OrderBook P M) (chain : Side → Fin P.numLevels → List Nat) : Prop where
  links : ∀ s (i : Fin P.numLevels), DList (fun n => (b.node n).next) (fun n => (b.node n).prev)
    (b.levelFor s i).head (b.levelFor s i).tail (chain s i)
  node : ∀ s i, ∀ n ∈ chain s i, (b.node n).order.side = s ∧ (b.node n).levelIndex = i ∧
    (b.node n).order.price = b.priceAt i ∧ 0 < (b.node n).order.remaining
  total : ∀ s (i : Fin P.numLevels), (b.levelFor s i).totalQuantity =
    ((chain s i).map fun n => (b.node n).order.remaining).sum
  count : ∀ s (i : Fin P.numLevels), (b.levelFor s i).orderCount = (chain s i).length
  index : ∀ id n, find b.orderIndex id = some n ↔ (∃ s i, n ∈ chain s i) ∧ (b.node n).order.id = id
  ids : ∀ s i s' i', ∀ n ∈ chain s i, ∀ m ∈ chain s' i', (b.node n).order.id = (b.node m).order.id → n = m
  live : ∃ free, Chain b.pool.nextFree kNone b.pool.freeHead free ∧
    ∀ n < P.maxOrders, n ∉ free ↔ ∃! p : Side × Fin P.numLevels, n ∈ chain p.1 p.2
  orderCount : b.orderCount = chained chain
  indexSize : size b.orderIndex = chained chain
  liveCount : b.pool.liveCount = chained chain

private theorem chained_queueAt (st : Heap) {rest : List Nat} (h : ∀ n ∈ rest, (st n).levelIndex < P.numLevels) :
    chained (P := P) (fun s i => queueAt st rest s i) = rest.length := by
  induction rest with
  | nil => simp [chained, queueAt]
  | cons n rest ih =>
    -- `n` counts once, at its own side and level
    have hone : ∀ i : Fin P.numLevels,
        (queueAt st (n :: rest) .buy i).length + (queueAt st (n :: rest) .sell i).length =
        (queueAt st rest .buy i).length + (queueAt st rest .sell i).length +
          if i = ⟨(st n).levelIndex, h n (List.mem_cons_self ..)⟩ then 1 else 0 := by
      intro i
      have hi : i = ⟨(st n).levelIndex, h n (List.mem_cons_self ..)⟩ ↔ (st n).levelIndex = i := by
        rw [Fin.ext_iff, eq_comm]
      simp only [queueAt, List.filter_cons, atLevel, decide_eq_true_eq, hi]
      cases (st n).order.side <;> by_cases hl : (st n).levelIndex = i <;> simp [hl] <;> omega
    rw [chained, Finset.sum_congr rfl fun i _ => hone i, Finset.sum_add_distrib, List.length_cons,
      ← ih fun m hm => h m (List.mem_cons_of_mem _ hm)]
    simp [chained]

theorem Rep.consistent {b : OrderBook P M} {rest : List Nat} (h : b.Rep rest) :
    b.Consistent fun s i => queueAt b.nodes rest s i := by
  have hsum := chained_queueAt (P := P) b.nodes fun n hn => (h.node n hn).range
  have hmem : ∀ n, n ∈ rest ↔ ∃ s, ∃ i : Fin P.numLevels, n ∈ queueAt b.nodes rest s i := by
    intro n
    constructor
    · intro hn
      exact ⟨_, ⟨_, (h.node n hn).range⟩, mem_queueAt.2 ⟨hn, rfl, rfl⟩⟩
    · rintro ⟨s, i, hn⟩
      exact (mem_queueAt.1 hn).1
  refine ⟨fun s i => h.queues.threaded s i, ?_, fun s i => h.queues.total s i, fun s i => h.queues.count s i, ?_, ?_,
    ?_, ?_, ?_, ?_⟩
  · intro s i n hn
    obtain ⟨hr, hs, hi⟩ := mem_queueAt.1 hn
    have hok := h.node n hr
    exact ⟨hs, hi, hi ▸ hok.price, hok.remaining⟩
  · intro id n
    rw [h.index, hmem]
  · intro s i s' i' n hn m hm
    exact h.id_inj (mem_queueAt.1 hn).1 (mem_queueAt.1 hm).1
  · obtain ⟨free, hpool⟩ := h.pool
    refine ⟨free, hpool.chain, fun n hn => ?_⟩
    rw [hpool.not_mem_free hn, hmem]
    constructor
    · rintro ⟨s, i, hni⟩
      refine ⟨(s, i), hni, ?_⟩
      rintro ⟨s', i'⟩ hni'
      obtain ⟨-, hs, hi⟩ := mem_queueAt.1 hni
      obtain ⟨-, hs', hi'⟩ := mem_queueAt.1 hni'
      exact Prod.ext (hs'.symm.trans hs) (Fin.ext (hi'.symm.trans hi))
    · rintro ⟨p, hp, -⟩
      exact ⟨p.1, p.2, hp⟩
  · rw [h.count, hsum]
  · rw [h.size, hsum]
  · obtain ⟨free, hpool⟩ := h.pool
    rw [hpool.count, hsum]

/-- However the book has been used since its construction, its structures are consistent. -/
theorem consistent_run (symbol : SymbolId) (basePrice : Int) (ops : List BookOp) :
    ∃ chain, (ops.foldl apply (new P M symbol basePrice)).Consistent chain := by
  obtain ⟨rest, h⟩ := rep_run (P := P) (M := M) symbol basePrice ops
  exact ⟨_, h.consistent⟩

end OrderBook

end Exchange
