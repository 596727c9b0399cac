import Exchange.LevelWalk

/-!
# What a level traversal visits

`for_each_level` calls its visitor on the non-empty levels of one side, each once, from the best price to the worst,
up to and including the first level on which the visitor returns `false`.  The calls are observed through a visitor
that does what the given one does and keeps a log of its arguments.
-/

namespace Exchange

namespace OrderBook

variable {P : Params} {M α : Type}

/-- The visitor `visit` with a log of its calls. -/
def logged (visit : Int → PriceLevel → α → Bool × α) (price : Int) (lvl : PriceLevel)
    (state : α × List (Int × PriceLevel)) : Bool × α × List (Int × PriceLevel) :=
  let (go, acc) := visit price lvl state.1
  (go, acc, state.2 ++ [(price, lvl)])

/-- What the visitor returns when it is called on these levels in turn. -/
def answers (visit : Int → PriceLevel → α → Bool × α) : List (Int × PriceLevel) → α → List Bool
  | [], _ => []
  | (price, lvl) :: levels, acc => (visit price lvl acc).1 :: answers visit levels (visit price lvl acc).2

/-- The non-empty levels of a side with their prices, from best to worst. -/
def priceLevels (b : OrderBook P M) (s : Side) : List (Int × PriceLevel) :=
  (b.occupiedLevels s).map fun i => (b.priceAt i, b.levelFor s i)

/-- `log` is the part of `levels` up to and including the first one on which the visitor returns `false`. -/
structure UpToFirstFalse (visit : Int → PriceLevel → α → Bool × α) (acc : α) (levels log : List (Int × PriceLevel)) :
    Prop where
  initial : log <+: levels
  goOn : ∀ a ∈ (answers visit log acc).dropLast, a = true
  stop : log = levels ∨ (answers visit log acc).getLast? = some false

/-! ### One level after the other -/

section

variable {visit : Int → PriceLevel → α → Bool × α} {acc : α} {levels log : List (Int × PriceLevel)} {price : Int}
  {lvl : PriceLevel}

theorem UpToFirstFalse.stopped (h : (visit price lvl acc).1 = false) :
    UpToFirstFalse visit acc ((price, lvl) :: levels) [(price, lvl)] where
  initial := by simp
  goOn := by simp [answers]
  stop := by simp [answers, h]

theorem UpToFirstFalse.cons (hgo : (visit price lvl acc).1 = true)
    (h : UpToFirstFalse visit (visit price lvl acc).2 levels log) :
    UpToFirstFalse visit acc ((price, lvl) :: levels) ((price, lvl) :: log) where
  initial := by simpa using h.initial
  goOn := by
    intro a ha
    unfold answers at ha
    cases hrest : answers visit log (visit price lvl acc).2 with
    | nil => simp [hrest] at ha
    | cons a' rest =>
      rw [hrest, List.dropLast_cons_cons, List.mem_cons] at ha
      rcases ha with rfl | ha
      · exact hgo
      · exact h.goOn a (by rw [hrest]; exact ha)
  stop := by
    rcases h.stop with rfl | hstop
    · exact Or.inl rfl
    · right
      unfold answers
      rw [List.getLast?_cons, hstop]
      rfl

end

/-- With the log kept, the visitor still ends in the state it ends in without, which is the one it comes to when it is
called on the levels of the log in turn, and the log has grown by the levels up to the first `false`. -/
theorem visitAll_logged (b : OrderBook P M) (s : Side) (visit : Int → PriceLevel → α → Bool × α) (is : List Nat)
    (acc : α) (log₀ : List (Int × PriceLevel)) :
    ∃ log, b.visitAll s (logged visit) is (acc, log₀) = (b.visitAll s visit is acc, log₀ ++ log) ∧
      b.visitAll s visit is acc = log.foldl (fun acc l => (visit l.1 l.2 acc).2) acc ∧
      UpToFirstFalse visit acc (is.map fun i => (b.priceAt i, b.levelFor s i)) log := by
  induction is generalizing acc log₀ with
  | nil => exact ⟨[], by simp [visitAll], rfl, ⟨List.nil_prefix, by simp [answers], Or.inl rfl⟩⟩
  | cons i is ih =>
    unfold visitAll
    cases hv : visit (b.priceAt i) (b.levelFor s i) acc with
    | mk go acc' =>
      cases go with
      | false =>
        refine ⟨[(b.priceAt i, b.levelFor s i)], by simp [logged, hv], ?_, UpToFirstFalse.stopped ?_⟩
        · simp [hv]
        · rw [hv]
      | true =>
        obtain ⟨log, hvisit, hfold, hlog⟩ := ih acc' (log₀ ++ [(b.priceAt i, b.levelFor s i)])
        refine ⟨(b.priceAt i, b.levelFor s i) :: log, ?_, ?_, UpToFirstFalse.cons ?_ ?_⟩
        · simp only [logged, hv, hvisit, List.append_assoc, List.cons_append, List.nil_append]
        · simp only [List.foldl_cons, hv, hfold]
        · rw [hv]
        · rw [hv]
          exact hlog

/-! ### The levels -/

theorem mem_priceLevels {b : OrderBook P M} (hb : b.bids.Inv) (ha : b.asks.Inv) {s : Side} {price : Int}
    {lvl : PriceLevel} :
    (price, lvl) ∈ b.priceLevels s ↔ b.levelAt s price = some lvl ∧ lvl.empty = false := by
  unfold priceLevels levelAt
  rw [List.mem_map, Option.map_eq_some_iff]
  constructor
  · rintro ⟨i, hi, heq⟩
    cases heq
    exact ⟨⟨i, indexOf_priceAt (lt_of_mem_occupiedLevels hi), rfl⟩, (mem_occupiedLevels hb ha).1 hi⟩
  · rintro ⟨⟨i, hi, rfl⟩, hempty⟩
    exact ⟨i, (mem_occupiedLevels hb ha).2 hempty, by rw [(indexOf_eq_some.1 hi).2]⟩

/-- The order of the traversal: falling prices for bids, rising prices for asks. -/
theorem priceLevels_sorted (b : OrderBook P M) (s : Side) :
    (b.priceLevels s).Pairwise fun x y => if s = .buy then y.1 < x.1 else x.1 < y.1 := by
  unfold priceLevels
  rw [List.pairwise_map]
  refine (b.occupiedLevels_sorted s).imp ?_
  intro i j hij
  unfold priceAt
  cases s with
  | buy =>
    have hlt : j < i := by simpa [LadderSide.isBetter] using hij
    simp only [↓reduceIte]
    omega
  | sell =>
    have hlt : i < j := by simpa [LadderSide.isBetter] using hij
    simp only [reduceCtorEq, ↓reduceIte]
    omega

end OrderBook

open OrderBook

/-- In every state that book operations lead to, for either side and any visitor, `for_each_level` ends, and the calls
it has made are on the non-empty levels of the side up to the first `false`, in the order of their prices. -/
theorem level_traversal_complete {P : Params} {M : Type} [DenseMap M OrderId Nat] (symbol : SymbolId)
    (basePrice : Int) (ops : List BookOp) (s : Side) {α : Type} (visit : Int → PriceLevel → α → Bool × α) (acc : α) :
    ∃ b : OrderBook P M, b = ops.foldl apply (new P M symbol basePrice) ∧
      (∃ acc' log, b.forEachLevel s visit acc = some acc' ∧
        b.forEachLevel s (logged visit) (acc, []) = some (acc', log) ∧
        UpToFirstFalse visit acc (b.priceLevels s) log) ∧
      (∀ price lvl, (price, lvl) ∈ b.priceLevels s ↔ b.levelAt s price = some lvl ∧ lvl.empty = false) ∧
      (b.priceLevels s).Pairwise fun x y => if s = .buy then y.1 < x.1 else x.1 < y.1 := by
  obtain ⟨rest, hrep⟩ := rep_run (P := P) (M := M) symbol basePrice ops
  refine ⟨_, rfl, ?_, fun price lvl => mem_priceLevels hrep.bids hrep.asks, priceLevels_sorted _ s⟩
  obtain ⟨log, hvisit, -, hlog⟩ := visitAll_logged (ops.foldl apply (new P M symbol basePrice)) s visit
    (occupiedLevels (ops.foldl apply (new P M symbol basePrice)) s) acc []
  refine ⟨_, log, forEachLevel_eq hrep.bids hrep.asks s visit acc, ?_, hlog⟩
  rw [forEachLevel_eq hrep.bids hrep.asks, hvisit]
  rfl

end Exchange
