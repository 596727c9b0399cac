import Exchange.OrderBook
import Exchange.LevelQueues

/-!
# The representation invariant of the order book

`OrderBook.Rep b rest`: the nodes `rest`, in the order in which they came to rest, are exactly the nodes linked into
the levels of `b`, the id map and the pool agree with them, and the occupancy bitmaps and best indices are right.
Every operation of the book keeps this; the specification lemmas also say what becomes of the resting orders.
-/

namespace Exchange

open DenseMap

namespace OrderBook

variable {P : Params} {M : Type}

/-! ### The ladders -/

theorem ladders_noteNonempty {b : OrderBook P M} {s : Side} {i : Nat} (lvl : PriceLevel) (hb : b.bids.Inv)
    (ha : b.asks.Inv) (hi : i < P.numLevels) (hlvl : lvl.empty = false) :
    ((b.setLevelFor s i lvl).noteNonemptyFor s i).bids.Inv ∧
      ((b.setLevelFor s i lvl).noteNonemptyFor s i).asks.Inv := by
  cases s with
  | buy => exact ⟨hb.noteNonempty hi hlvl, ha⟩
  | sell => exact ⟨hb, ha.noteNonempty hi hlvl⟩

theorem ladders_setLevel {b : OrderBook P M} {s : Side} {i : Nat} (lvl : PriceLevel) (hb : b.bids.Inv) (ha : b.asks.Inv)
    (hlvl : lvl.empty = (b.levelFor s i).empty) :
    (b.setLevelFor s i lvl).bids.Inv ∧ (b.setLevelFor s i lvl).asks.Inv := by
  cases s with
  | buy => exact ⟨hb.setLevel hlvl, ha⟩
  | sell => exact ⟨hb, ha.setLevel hlvl⟩

theorem ladders_noteMaybeEmpty {b : OrderBook P M} {s : Side} {i : Nat} (lvl : PriceLevel) (hb : b.bids.Inv)
    (ha : b.asks.Inv) (hlvl : (b.levelFor s i).empty = false) :
    ((b.setLevelFor s i lvl).noteMaybeEmptyFor s i).bids.Inv ∧
      ((b.setLevelFor s i lvl).noteMaybeEmptyFor s i).asks.Inv := by
  cases s with
  | buy => exact ⟨hb.noteMaybeEmpty hlvl, ha⟩
  | sell => exact ⟨hb, ha.noteMaybeEmpty hlvl⟩

/-! ### The invariant -/

/-- `b'` is a book for the same instrument. -/
def SameInstrument (b b' : OrderBook P M) : Prop := b'.symbol = b.symbol ∧ b'.basePrice = b.basePrice

/-- What holds of every resting node. -/
structure NodeOk (b : OrderBook P M) (n : Nat) : Prop where
  range : (b.node n).levelIndex < P.numLevels
  price : (b.node n).order.price = b.priceAt (b.node n).levelIndex
  remaining : 0 < (b.node n).order.remaining
  limit : (b.node n).order.type = .limit

/-- A node keeps its properties when its order and level index are kept. -/
theorem NodeOk.of_order_eq {b b' : OrderBook P M} {n : Nat} (h : b.NodeOk n) (ho : (b'.node n).order = (b.node n).order)
    (hi : (b'.node n).levelIndex = (b.node n).levelIndex) (hs : SameInstrument b b') : b'.NodeOk n where
  range := hi ▸ h.range
  price := by rw [ho, hi, h.price, priceAt, priceAt, hs.2]
  remaining := ho ▸ h.remaining
  limit := ho ▸ h.limit

variable [DenseMap M OrderId Nat]

structure Rep (b : OrderBook P M) (rest : List Nat) : Prop where
  queues : LevelQueues b.nodes b.levelFor rest
  node : ∀ n ∈ rest, b.NodeOk n
  bids : b.bids.Inv
  asks : b.asks.Inv
  index : ∀ id n, find b.orderIndex id = some n ↔ n ∈ rest ∧ (b.node n).order.id = id
  size : size b.orderIndex = rest.length
  count : b.orderCount = rest.length
  pool : ∃ free, b.pool.Rep free rest

section

variable {b b' : OrderBook P M} {rest : List Nat} {n : Nat}

theorem Rep.nodup (h : b.Rep rest) : rest.Nodup := by
  obtain ⟨_, hp⟩ := h.pool
  exact hp.live_nodup

theorem Rep.length_le (h : b.Rep rest) : rest.length ≤ P.maxOrders := by
  obtain ⟨_, hp⟩ := h.pool
  exact hp.length_le

theorem Rep.find_node (h : b.Rep rest) (hn : n ∈ rest) : find b.orderIndex (b.node n).order.id = some n :=
  (h.index _ n).2 ⟨hn, rfl⟩

/-- Resting orders have different ids. -/
theorem Rep.id_inj (h : b.Rep rest) {m : Nat} (hn : n ∈ rest) (hm : m ∈ rest)
    (hid : (b.node n).order.id = (b.node m).order.id) : n = m := by
  have h1 := h.find_node hn
  rw [hid, h.find_node hm] at h1
  exact (Option.some.inj h1).symm

theorem rep_new (symbol : SymbolId) (basePrice : Int) : (new P M symbol basePrice).Rep [] where
  queues := by
    refine ⟨fun s i => ⟨?_, ?_, trivial, by simp [queueAt]⟩, fun s i => ?_, fun s i => ?_⟩ <;>
      cases s <;> rfl
  node := by simp
  bids := LadderSide.inv_new
  asks := LadderSide.inv_new
  index id n := by simp [new]
  size := size_empty
  count := rfl
  pool := ⟨_, SlabPool.rep_new P.maxOrders_pos⟩

/-- The level of a resting node is not empty. -/
theorem Rep.level_nonempty (h : b.Rep rest) (hn : n ∈ rest) :
    (b.levelFor (b.node n).order.side (b.node n).levelIndex).empty = false := by
  have hmem : n ∈ queueAt b.nodes rest (b.node n).order.side (b.node n).levelIndex := mem_queueAt.2 ⟨hn, rfl, rfl⟩
  have := List.length_pos_of_mem hmem
  rw [← h.queues.count] at this
  simp only [PriceLevel.empty, beq_eq_false_iff_ne]
  omega

/-! ### `add` -/

theorem place_spec (b : OrderBook P M) (order : Order) (i n : Nat) :
    ∃ st, (b.place order i n).pool = b.pool.write st ∧
      st = (levelPushBack ((b.nodes.modify n fun x => { x with order := order }).modify n
        fun x => { x with levelIndex := i }) (b.levelFor order.side i) n).1 ∧
      (∀ s j, (b.place order i n).levelFor s j = if s = order.side ∧ j = i then
        (levelPushBack ((b.nodes.modify n fun x => { x with order := order }).modify n
          fun x => { x with levelIndex := i }) (b.levelFor order.side i) n).2 else b.levelFor s j) ∧
      (b.place order i n).orderIndex = emplace b.orderIndex order.id n ∧
      (b.place order i n).orderCount = b.orderCount + 1 ∧ SameInstrument b (b.place order i n) ∧
      (i < P.numLevels → b.bids.Inv → b.asks.Inv →
        (b.place order i n).bids.Inv ∧ (b.place order i n).asks.Inv) := by
  generalize hp : levelPushBack ((b.nodes.modify n fun x => { x with order := order }).modify n
        fun x => { x with levelIndex := i }) (b.levelFor order.side i) n = r
  have hcount : r.2.empty = false := by
    rw [← hp]
    simp [PriceLevel.empty]
  have hplace : b.place order i n =
      { (if (b.levelFor order.side i).empty then
          ((b.withNodes r.1).setLevelFor order.side i r.2).noteNonemptyFor order.side i
        else (b.withNodes r.1).setLevelFor order.side i r.2) with
        orderIndex := emplace b.orderIndex order.id n
        orderCount := b.orderCount + 1 } := by
    unfold place
    dsimp only
    rw [hp]
    split <;> rfl
  refine ⟨r.1, ?_, rfl, fun s j => ?_, ?_, ?_, ?_, ?_⟩
  · rw [hplace]; split <;> rfl
  · rw [hplace, ← levelFor_setLevelFor]
    split
    · exact levelFor_noteNonemptyFor ((b.withNodes r.1).setLevelFor order.side i r.2) order.side s i j
    · rfl
  · rw [hplace]
  · rw [hplace]
  · rw [hplace]; split <;> exact ⟨rfl, rfl⟩
  · intro hi hb ha
    rw [hplace]
    split
    · exact ladders_noteNonempty (b := b.withNodes r.1) r.2 hb ha hi hcount
    · rename_i he
      refine ladders_setLevel (b := b.withNodes r.1) r.2 hb ha ?_
      rw [hcount]
      exact (Bool.not_eq_true _ ▸ he).symm

/-- The index after a new order has been entered. -/
private theorem Rep.index_emplace (h : b.Rep rest) {id : OrderId} (hid : find b.orderIndex id = none)
    (hnew : (b'.node n).order.id = id) (hold : ∀ x ∈ rest, (b'.node x).order = (b.node x).order)
    (id' : OrderId) (x : Nat) :
    find (emplace b.orderIndex id n) id' = some x ↔ x ∈ rest ++ [n] ∧ (b'.node x).order.id = id' := by
  rw [List.mem_append, List.mem_singleton]
  by_cases hid' : id' = id
  · subst hid'
    rw [find_emplace_self _ _ _ hid, Option.some.injEq]
    constructor
    · rintro rfl
      exact ⟨Or.inr rfl, hnew⟩
    · rintro ⟨hx | hx, hxid⟩
      · -- no older order has the id
        have hfind := h.find_node hx
        rw [← hold x hx, hxid, hid] at hfind
        cases hfind
      · exact hx.symm
  · rw [find_emplace_ne _ _ _ _ hid', h.index]
    constructor
    · rintro ⟨hx, hxid⟩
      rw [← hold x hx] at hxid
      exact ⟨Or.inl hx, hxid⟩
    · rintro ⟨hx | hx, hxid⟩
      · rw [hold x hx] at hxid
        exact ⟨hx, hxid⟩
      · rw [hx, hnew] at hxid
        exact absurd hxid.symm hid'

/-- An order that passes every check of `add` is linked in behind all older ones. -/
theorem Rep.add_ok (h : b.Rep rest) {o : Order} {i : Nat} (htype : o.type = .limit) (hrem : 0 < o.remaining)
    (hi : b.indexOf o.price = some i) (hid : find b.orderIndex o.id = none) (hcap : rest.length < P.maxOrders) :
    ∃ n b', b.add o = (.ok o.id, b') ∧ n ∉ rest ∧ b'.Rep (rest ++ [n]) ∧ (b'.node n).order = o ∧
      (∀ x ∈ rest, (b'.node x).order = (b.node x).order) ∧ SameInstrument b b' := by
  obtain ⟨free, hpool⟩ := h.pool
  obtain ⟨n, free', p, halloc, hn, hp, hst⟩ := hpool.allocate_free P.maxOrders_le hcap
  obtain ⟨hilt, hprice⟩ := indexOf_eq_some.1 hi
  obtain ⟨st, e1, e2, e3, e4, e5, e6, e7⟩ := place_spec { b with pool := p } o i n
  have hadd : b.add o = (.ok o.id, { b with pool := p }.place o i n) := by
    unfold add
    rw [if_neg (by simp [htype]), if_neg (by omega)]
    simp [hi, hid, halloc]
  generalize { b with pool := p }.place o i n = b' at *
  -- the fresh node as `add` fills it in before linking it
  have hst₁ : ∀ x, x ≠ n → ((Heap.modify p.storage n fun x => { x with order := o }).modify n
      fun x => { x with levelIndex := i }) x = b.nodes x := by
    intro x hx
    rw [Heap.modify_of_ne hx, Heap.modify_of_ne hx, hst, Function.update_of_ne hx]
    rfl
  have hnodes : b'.nodes = st := by show b'.pool.storage = st; rw [e1]; rfl
  have hqueues : LevelQueues b'.nodes b'.levelFor (rest ++ [n]) := by
    rw [hnodes, e2]
    exact h.queues.push hn hst₁ (by rw [Heap.modify_self, Heap.modify_self])
      (by rw [Heap.modify_self]) e3
  have hnew : (b'.node n).order = o ∧ (b'.node n).levelIndex = i := by
    have := levelPushBack_sameOrders ((Heap.modify p.storage n fun x => { x with order := o }).modify n
      fun x => { x with levelIndex := i }) (b.levelFor o.side i) n n
    rw [Heap.modify_self, Heap.modify_self] at this
    show (b'.nodes n).order = o ∧ (b'.nodes n).levelIndex = i
    rw [hnodes, e2]
    exact this
  have hold : ∀ x ∈ rest, (b'.node x).order = (b.node x).order ∧ (b'.node x).levelIndex = (b.node x).levelIndex := by
    intro x hx
    have hxn : x ≠ n := by rintro rfl; exact hn hx
    have := levelPushBack_sameOrders ((Heap.modify p.storage n fun x => { x with order := o }).modify n
      fun x => { x with levelIndex := i }) (b.levelFor o.side i) n x
    rw [hst₁ x hxn] at this
    show (b'.nodes x).order = (b.nodes x).order ∧ (b'.nodes x).levelIndex = (b.nodes x).levelIndex
    rw [hnodes, e2]
    exact this
  refine ⟨n, b', hadd, hn, ⟨hqueues, ?_, ?_, ?_, ?_, ?_, ?_, ?_⟩, hnew.1, fun x hx => (hold x hx).1, e6⟩
  · intro x hx
    rcases List.mem_append.1 hx with hx | hx
    · exact (h.node x hx).of_order_eq (hold x hx).1 (hold x hx).2 e6
    · obtain rfl : x = n := by simpa using hx
      refine ⟨?_, ?_, ?_, ?_⟩ <;> simp only [hnew.1, hnew.2]
      · exact hilt
      · rw [hprice, priceAt, priceAt, e6.2]
      · exact hrem
      · exact htype
  · exact (e7 hilt h.bids h.asks).1
  · exact (e7 hilt h.bids h.asks).2
  · rw [e4]
    exact h.index_emplace hid (by rw [hnew.1]) fun x hx => (hold x hx).1
  · rw [e4, size_emplace _ _ _ hid]
    simp [h.size]
  · rw [e5]
    simp [h.count]
  · rw [e1]
    exact ⟨free', hp.write st⟩

/-! ### Removing a resting order -/

/-- The index after the order in node `n` has been taken out. -/
private theorem Rep.index_erase (h : b.Rep rest) (hn : n ∈ rest)
    (hold : ∀ x ∈ rest.erase n, (b'.node x).order = (b.node x).order) (id : OrderId) (x : Nat) :
    find (erase b.orderIndex (b.node n).order.id) id = some x ↔ x ∈ rest.erase n ∧ (b'.node x).order.id = id := by
  by_cases hid : id = (b.node n).order.id
  · subst hid
    rw [find_erase_self]
    constructor
    · intro hfind
      cases hfind
    · rintro ⟨hx, hxid⟩
      rw [hold x hx] at hxid
      have hxn : x = n := h.id_inj (List.mem_of_mem_erase hx) hn hxid
      rw [hxn] at hx
      exact absurd hx h.nodup.not_mem_erase
  · rw [find_erase_ne _ _ _ hid, h.index]
    constructor
    · rintro ⟨hx, hxid⟩
      have hxn : x ≠ n := by
        rintro rfl
        exact hid hxid.symm
      have hxe : x ∈ rest.erase n := (List.mem_erase_of_ne hxn).2 hx
      rw [← hold x hxe] at hxid
      exact ⟨hxe, hxid⟩
    · rintro ⟨hx, hxid⟩
      rw [hold x hx] at hxid
      exact ⟨List.mem_of_mem_erase hx, hxid⟩

/-- What `cancel` and a full fill have in common: `n` has been unlinked from its level and freed, and its id erased. -/
theorem Rep.remove (h : b.Rep rest) (hn : n ∈ rest)
    (hnodes : ∀ x, x ≠ n → b'.nodes x =
      (levelUnlink b.nodes (b.levelFor (b.node n).order.side (b.node n).levelIndex) n).1 x)
    (hlevels : ∀ s i, b'.levelFor s i = if s = (b.node n).order.side ∧ i = (b.node n).levelIndex then
      (levelUnlink b.nodes (b.levelFor (b.node n).order.side (b.node n).levelIndex) n).2 else b.levelFor s i)
    (hbids : b'.bids.Inv) (hasks : b'.asks.Inv)
    (hindex : b'.orderIndex = erase b.orderIndex (b.node n).order.id) (hcount : b'.orderCount = b.orderCount - 1)
    (hpool : ∃ st, b'.pool = (b.pool.write st).deallocate n) (hsame : SameInstrument b b') :
    b'.Rep (rest.erase n) ∧ ∀ x ∈ rest.erase n, (b'.node x).order = (b.node x).order := by
  have hne : ∀ x ∈ rest.erase n, x ≠ n := fun x hx => by
    rintro rfl
    exact h.nodup.not_mem_erase hx
  have hold : ∀ x ∈ rest.erase n, (b'.node x).order = (b.node x).order ∧
      (b'.node x).levelIndex = (b.node x).levelIndex := by
    intro x hx
    show (b'.nodes x).order = _ ∧ (b'.nodes x).levelIndex = _
    rw [hnodes x (hne x hx)]
    exact levelUnlink_sameOrders _ _ _ x
  have hlen := List.length_erase_of_mem hn
  refine ⟨⟨h.queues.unlink h.nodup hn rfl rfl hnodes hlevels, ?_, hbids, hasks, ?_, ?_, ?_, ?_⟩,
    fun x hx => (hold x hx).1⟩
  · intro x hx
    exact (h.node x (List.mem_of_mem_erase hx)).of_order_eq (hold x hx).1 (hold x hx).2 hsame
  · rw [hindex]
    exact h.index_erase hn fun x hx => (hold x hx).1
  · have := size_erase _ _ _ (h.find_node hn)
    rw [hindex, hlen, ← h.size]
    omega
  · rw [hcount, h.count, hlen]
  · obtain ⟨st, hst⟩ := hpool
    obtain ⟨free, hfree⟩ := h.pool
    rw [hst]
    exact ⟨_, (hfree.write st).deallocate hn⟩

/-- Unlinking a resting node, freeing it and erasing its id, as `cancel` and `replace` do. -/
theorem Rep.unlinkAndFree (h : b.Rep rest) (hn : n ∈ rest)
    (hb' : b' = { b.unlinkAndFree n with
      orderIndex := erase (b.unlinkAndFree n).orderIndex (b.node n).order.id
      orderCount := (b.unlinkAndFree n).orderCount - 1 }) :
    b'.Rep (rest.erase n) ∧ (∀ x ∈ rest.erase n, (b'.node x).order = (b.node x).order) ∧ SameInstrument b b' := by
  generalize hr : levelUnlink b.nodes (b.levelFor (b.node n).order.side (b.node n).levelIndex) n = r at *
  have hside : (r.1 n).order.side = (b.node n).order.side := by
    rw [← hr, (levelUnlink_sameOrders _ _ _ n).1]; rfl
  have hfree : b.unlinkAndFree n =
      { ((b.withNodes r.1).setLevelFor (b.node n).order.side (b.node n).levelIndex r.2).noteMaybeEmptyFor
          (b.node n).order.side (b.node n).levelIndex with pool := (b.pool.write r.1).deallocate n } := by
    unfold OrderBook.unlinkAndFree
    dsimp only
    rw [hr, show (((b.withNodes r.1).setLevelFor (b.node n).order.side (b.node n).levelIndex r.2).node n).order.side =
      (b.node n).order.side from hside]
    rfl
  have hinv := ladders_noteMaybeEmpty (b := b.withNodes r.1) r.2 h.bids h.asks (h.level_nonempty hn)
  have hsame : SameInstrument b b' := by rw [hb', hfree]; exact ⟨rfl, rfl⟩
  refine And.imp_right (fun h2 => ⟨h2, hsame⟩) (h.remove hn ?_ ?_ ?_ ?_ ?_ ?_ ⟨r.1, ?_⟩ hsame) <;>
    rw [hb', hfree]
  · intro x _; rw [hr]; rfl
  · intro s i
    rw [hr, ← levelFor_setLevelFor]
    exact levelFor_noteMaybeEmptyFor ((b.withNodes r.1).setLevelFor _ _ r.2) _ s _ i
  · exact hinv.1
  · exact hinv.2
  · rfl
  · rfl

theorem Rep.cancel_ok (h : b.Rep rest) (hn : n ∈ rest) :
    ∃ b', b.cancel (b.node n).order.id = (.ok (), b') ∧ b'.Rep (rest.erase n) ∧
      (∀ x ∈ rest.erase n, (b'.node x).order = (b.node x).order) ∧ SameInstrument b b' := by
  refine ⟨_, ?_, h.unlinkAndFree hn rfl⟩
  unfold cancel
  rw [h.find_node hn]

/-! ### Fills -/

/-- A full fill removes the order. -/
theorem Rep.reduce_full (h : b.Rep rest) (hn : n ∈ rest) :
    ∃ b', b.reduceQuantity (b.node n).order.id (b.node n).order.remaining = (.ok (), b') ∧
      b'.Rep (rest.erase n) ∧ (∀ x ∈ rest.erase n, (b'.node x).order = (b.node x).order) ∧
      SameInstrument b b' := by
  have hpos := (h.node n hn).remaining
  generalize hr : levelUnlink b.nodes (b.levelFor (b.node n).order.side (b.node n).levelIndex) n = r at *
  have hinv := ladders_noteMaybeEmpty (b := b.withNodes r.1) r.2 h.bids h.asks (h.level_nonempty hn)
  generalize hst : (r.1.modify n fun x => { x with order :=
    { x.order with remaining := x.order.remaining - (b.node n).order.remaining } }) = st
  have hred : b.reduceQuantity (b.node n).order.id (b.node n).order.remaining = (.ok (),
      { ((b.withNodes st).setLevelFor (b.node n).order.side (b.node n).levelIndex r.2).noteMaybeEmptyFor
          (b.node n).order.side (b.node n).levelIndex with
        orderIndex := erase b.orderIndex (b.node n).order.id
        pool := (b.pool.write st).deallocate n
        orderCount := b.orderCount - 1 }) := by
    unfold reduceQuantity
    rw [h.find_node hn]
    dsimp only
    rw [if_neg (by omega), if_pos rfl, hr, hst]
    rfl
  refine ⟨_, hred, ?_⟩
  refine And.imp_right (fun h2 => ⟨h2, ⟨rfl, rfl⟩⟩) (h.remove hn ?_ ?_ hinv.1 hinv.2 rfl rfl ⟨st, rfl⟩ ⟨rfl, rfl⟩)
  · intro x hx
    rw [hr]
    show st x = r.1 x
    rw [← hst, Heap.modify_of_ne hx]
  · intro s i
    rw [hr, ← levelFor_setLevelFor]
    exact levelFor_noteMaybeEmptyFor ((b.withNodes st).setLevelFor _ _ r.2) _ s _ i

/-- A partial fill keeps the order in its place. -/
theorem Rep.reduce_part (h : b.Rep rest) (hn : n ∈ rest) {q : Int} (hq : 0 < q) (hlt : q < (b.node n).order.remaining) :
    ∃ b', b.reduceQuantity (b.node n).order.id q = (.ok (), b') ∧ b'.Rep rest ∧
      (b'.node n).order = { (b.node n).order with remaining := (b.node n).order.remaining - q } ∧
      (∀ x, x ≠ n → b'.node x = b.node x) ∧ SameInstrument b b' := by
  generalize hst : (b.nodes.modify n fun x => { x with order :=
    { x.order with remaining := x.order.remaining - q } }) = st
  have hred : b.reduceQuantity (b.node n).order.id q = (.ok (),
      (b.withNodes st).setLevelFor (b.node n).order.side (b.node n).levelIndex
        { b.levelFor (b.node n).order.side (b.node n).levelIndex with
          totalQuantity := (b.levelFor (b.node n).order.side (b.node n).levelIndex).totalQuantity - q }) := by
    unfold reduceQuantity
    rw [h.find_node hn]
    dsimp only
    rw [if_neg (by omega), if_neg (by omega), hst]
  have hself : st n = { b.node n with order :=
      { (b.node n).order with remaining := (b.node n).order.remaining - q } } := by
    rw [← hst]; exact Heap.modify_self ..
  have hother : ∀ x, x ≠ n → st x = b.node x := fun x hx => by rw [← hst]; exact Heap.modify_of_ne hx ..
  have hid : ∀ x, (st x).order.id = (b.node x).order.id := by
    intro x
    by_cases hx : x = n
    · subst hx; rw [hself]
    · rw [hother x hx]
  have hinv := ladders_setLevel (b := b.withNodes st) (s := (b.node n).order.side) (i := (b.node n).levelIndex)
    { b.levelFor (b.node n).order.side (b.node n).levelIndex with
      totalQuantity := (b.levelFor (b.node n).order.side (b.node n).levelIndex).totalQuantity - q }
    h.bids h.asks rfl
  refine ⟨_, hred, ⟨?_, ?_, hinv.1, hinv.2, ?_, h.size, h.count, ?_⟩, congrArg OrderNode.order hself, hother,
    ⟨rfl, rfl⟩⟩
  · exact h.queues.reduce hn rfl rfl hst.symm fun s i => levelFor_setLevelFor (b.withNodes st) _ s _ i _
  · intro x hx
    by_cases hxn : x = n
    · subst hxn
      refine ⟨?_, ?_, ?_, ?_⟩
      · exact (congrArg OrderNode.levelIndex hself).trans_lt (h.node x hx).range
      · show (st x).order.price = b.priceAt (st x).levelIndex
        rw [hself]
        exact (h.node x hx).price
      · show 0 < (st x).order.remaining
        rw [hself]
        show 0 < (b.node x).order.remaining - q
        omega
      · show (st x).order.type = .limit
        rw [hself]
        exact (h.node x hx).limit
    · exact (h.node x hx).of_order_eq (congrArg OrderNode.order (hother x hxn))
        (congrArg OrderNode.levelIndex (hother x hxn)) ⟨rfl, rfl⟩
  · intro id x
    show find b.orderIndex id = some x ↔ x ∈ rest ∧ (st x).order.id = id
    rw [hid, h.index]
  · obtain ⟨free, hfree⟩ := h.pool
    exact ⟨free, hfree.write st⟩

/-! ### Refusals -/

/-- An order that fails one of the checks of `add` leaves the book as it was. -/
theorem Rep.add_error (h : b.Rep rest) {o : Order}
    (hbad : ¬ (o.type = .limit ∧ 0 < o.remaining ∧ (b.indexOf o.price).isSome ∧ find b.orderIndex o.id = none ∧
      rest.length < P.maxOrders)) : ∃ e, b.add o = (.error e, b) := by
  unfold add
  split_ifs with htype hrem hid
  · exact ⟨_, rfl⟩
  · exact ⟨_, rfl⟩
  · cases b.indexOf o.price <;> exact ⟨_, rfl⟩
  · cases hi : b.indexOf o.price with
    | none => exact ⟨_, rfl⟩
    | some i =>
      dsimp only
      have hfull : rest.length = P.maxOrders := by
        by_contra hne
        refine hbad ⟨by simpa using htype, by omega, by rw [hi]; rfl, by simpa using hid, ?_⟩
        have := h.length_le
        omega
      obtain ⟨free, hpool⟩ := h.pool
      rw [hpool.allocate_full hfull]
      exact ⟨_, rfl⟩

theorem cancel_error {id : OrderId} (hid : find b.orderIndex id = none) :
    b.cancel id = (.error .notFound, b) := by
  unfold cancel
  rw [hid]

theorem reduceQuantity_error {id : OrderId} {q : Int}
    (hbad : ∀ n, find b.orderIndex id = some n → q ≤ 0 ∨ (b.node n).order.remaining < q) :
    ∃ e, b.reduceQuantity id q = (.error e, b) := by
  unfold reduceQuantity
  cases hid : find b.orderIndex id with
  | none => exact ⟨_, rfl⟩
  | some n =>
    dsimp only
    rw [if_pos (hbad n hid)]
    exact ⟨_, rfl⟩

/-- The three validations of `replace` come before it touches the book. -/
theorem replace_error {id : OrderId} {p q : Int} (seq : Sequence) (ts : Int)
    (hbad : find b.orderIndex id = none ∨ q ≤ 0 ∨ b.indexOf p = none) :
    ∃ e, b.replace id p q seq ts = (.error e, b) ∧ e ≠ .poolExhausted := by
  unfold replace
  cases hid : find b.orderIndex id with
  | none => exact ⟨.notFound, rfl, by decide⟩
  | some n =>
    dsimp only
    by_cases hq : q ≤ 0
    · exact ⟨.invalidQuantity, by rw [if_pos hq], by decide⟩
    · have hnone : b.indexOf p = none := by simpa [hid, hq] using hbad
      exact ⟨.priceOutOfRange, by rw [if_neg hq, if_pos (by rw [hnone]; rfl)], by decide⟩

/-- A replace that passes its checks never fails: the order is re-queued behind all others. -/
theorem Rep.replace_ok (h : b.Rep rest) (hn : n ∈ rest) {p q : Int} (seq : Sequence) (ts : Int) (hq : 0 < q)
    (hp : (b.indexOf p).isSome) :
    ∃ m b', b.replace (b.node n).order.id p q seq ts = (.ok (), b') ∧ m ∉ rest.erase n ∧
      b'.Rep (rest.erase n ++ [m]) ∧ (b'.node m).order = (b.node n).order.replaced p q seq ts ∧
      (∀ x ∈ rest.erase n, (b'.node x).order = (b.node x).order) ∧ SameInstrument b b' := by
  generalize hb₁ : { b.unlinkAndFree n with
      orderIndex := erase (b.unlinkAndFree n).orderIndex (b.node n).order.id
      orderCount := (b.unlinkAndFree n).orderCount - 1 } = b₁
  obtain ⟨hrep, hord, hsame⟩ := h.unlinkAndFree hn hb₁.symm
  obtain ⟨i, hi⟩ := Option.isSome_iff_exists.1 hp
  have hi₁ : b₁.indexOf ((b.node n).order.replaced p q seq ts).price = some i := by
    rw [indexOf_eq_some, priceAt, hsame.2]
    exact indexOf_eq_some.1 hi
  have hid₁ : find b₁.orderIndex (b.node n).order.id = none := by
    rw [← hb₁]
    exact find_erase_self _ _
  have hlen := List.length_erase_of_mem hn
  have hpos := List.length_pos_of_mem hn
  have hle := h.length_le
  obtain ⟨m, b', hadd, hm, hrep', hnew, hold, hsame'⟩ :=
    hrep.add_ok (o := (b.node n).order.replaced p q seq ts) (h.node n hn).limit hq hi₁ hid₁ (by omega)
  refine ⟨m, b', ?_, hm, hrep', hnew, fun x hx => (hold x hx).trans (hord x hx),
    hsame'.1.trans hsame.1, hsame'.2.trans hsame.2⟩
  unfold replace
  rw [h.find_node hn]
  dsimp only
  rw [if_neg (by omega), if_neg (by simp [hi]), hb₁, hadd]

end

/-! ### Runs of book operations -/

inductive BookOp where
  | add (order : Order)
  | cancel (id : OrderId)
  | reduceQuantity (id : OrderId) (fillAmount : Int)
  | replace (id : OrderId) (newPrice newQuantity : Int) (newSequence : Sequence) (newTimestamp : Int)

/-- The book after one call, whatever the call returned. -/
def apply (b : OrderBook P M) : BookOp → OrderBook P M
  | .add order => (b.add order).2
  | .cancel id => (b.cancel id).2
  | .reduceQuantity id fillAmount => (b.reduceQuantity id fillAmount).2
  | .replace id p q seq ts => (b.replace id p q seq ts).2

theorem Rep.apply {b : OrderBook P M} {rest : List Nat} (h : b.Rep rest) (op : BookOp) :
    ∃ rest', (b.apply op).Rep rest' := by
  cases op with
  | add o =>
    show ∃ rest', (b.add o).2.Rep rest'
    by_cases hok : o.type = .limit ∧ 0 < o.remaining ∧ (b.indexOf o.price).isSome ∧
        find b.orderIndex o.id = none ∧ rest.length < P.maxOrders
    · obtain ⟨htype, hrem, hp, hid, hcap⟩ := hok
      obtain ⟨i, hi⟩ := Option.isSome_iff_exists.1 hp
      obtain ⟨n, b', hadd, -, hrep, -⟩ := h.add_ok htype hrem hi hid hcap
      exact ⟨_, by rw [hadd]; exact hrep⟩
    · obtain ⟨e, he⟩ := h.add_error hok
      exact ⟨rest, by rw [he]; exact h⟩
  | cancel id =>
    show ∃ rest', (b.cancel id).2.Rep rest'
    cases hid : find b.orderIndex id with
    | none => exact ⟨rest, by rw [cancel_error hid]; exact h⟩
    | some n =>
      obtain ⟨hn, rfl⟩ := (h.index id n).1 hid
      obtain ⟨b', hcancel, hrep, -⟩ := h.cancel_ok hn
      exact ⟨_, by rw [hcancel]; exact hrep⟩
  | reduceQuantity id q =>
    show ∃ rest', (b.reduceQuantity id q).2.Rep rest'
    by_cases hbad : ∀ n, find b.orderIndex id = some n → q ≤ 0 ∨ (b.node n).order.remaining < q
    · obtain ⟨e, he⟩ := reduceQuantity_error hbad
      exact ⟨rest, by rw [he]; exact h⟩
    · push Not at hbad
      obtain ⟨n, hid, hq, hle⟩ := hbad
      obtain ⟨hn, rfl⟩ := (h.index id n).1 hid
      rcases hle.lt_or_eq with hlt | rfl
      · obtain ⟨b', hred, hrep, -⟩ := h.reduce_part hn hq hlt
        exact ⟨_, by rw [hred]; exact hrep⟩
      · obtain ⟨b', hred, hrep, -⟩ := h.reduce_full hn
        exact ⟨_, by rw [hred]; exact hrep⟩
  | replace id p q seq ts =>
    show ∃ rest', (b.replace id p q seq ts).2.Rep rest'
    by_cases hbad : find b.orderIndex id = none ∨ q ≤ 0 ∨ b.indexOf p = none
    · obtain ⟨e, he, -⟩ := replace_error seq ts hbad
      exact ⟨rest, by rw [he]; exact h⟩
    · push Not at hbad
      obtain ⟨hid, hq, hp⟩ := hbad
      obtain ⟨n, hid⟩ := Option.ne_none_iff_exists'.1 hid
      obtain ⟨hn, rfl⟩ := (h.index id n).1 hid
      obtain ⟨m, b', hrep, -, hrep', -⟩ := h.replace_ok hn seq ts hq (Option.isSome_iff_ne_none.2 hp)
      exact ⟨_, by rw [hrep]; exact hrep'⟩

/-- Every state that calls of the book operations lead to keeps the invariant. -/
theorem rep_run (symbol : SymbolId) (basePrice : Int) (ops : List BookOp) :
    ∃ rest, (ops.foldl apply (new P M symbol basePrice)).Rep rest := by
  suffices ∀ (b : OrderBook P M) rest, b.Rep rest → ∃ rest', (ops.foldl apply b).Rep rest' from
    this _ _ (rep_new symbol basePrice)
  induction ops with
  | nil => exact fun b rest h => ⟨rest, h⟩
  | cons op ops ih =>
    intro b rest h
    obtain ⟨rest', h'⟩ := h.apply op
    exact ih _ _ h'

end OrderBook

end Exchange
