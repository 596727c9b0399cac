import Exchange.Session

/-!
# Late joiners

A subscriber may start from a snapshot instead of the beginning of the feed, and from then on apply the deltas with
higher numbers.  It then has what a subscriber from the start has: the levels of the book.
-/

namespace Exchange

open OrderBook DenseMap

/-! ### Subscribers -/

namespace Wire

/-- The map of a subscriber that reads the wire. -/
abbrev View : Type := UInt8 → Int64 → Option (Int64 × UInt32)

namespace View

def empty : View := fun _ _ => none

def set (v : View) (side : UInt8) (price : Int64) (level : Option (Int64 × UInt32)) : View :=
  fun s p => if s = side ∧ p = price then level else v s p

def applyDelta (v : View) (d : BookDeltaMessage) : View :=
  v.set d.side d.price (if d.action = DeltaAction.delete.code then none else some (d.aggregateQuantity, d.orderCount))

def addLevels (v : View) (side : UInt8) (levels : List PriceLevelRecord) : View :=
  levels.foldl (fun v l => v.set side l.price (some (l.aggregateQuantity, l.orderCount))) v

end View

def Message.delta? : Message → Option BookDeltaMessage
  | bookDelta m => some m
  | _ => none

/-- The map of a subscriber that has applied all deltas. -/
def fullView (msgs : List Message) : View := (msgs.filterMap Message.delta?).foldl View.applyDelta View.empty

namespace DecodedSnapshot

def view (snap : DecodedSnapshot) : View :=
  (View.empty.addLevels Side.buy.code snap.bids).addLevels Side.sell.code snap.asks

/-- The map of a subscriber that has started from the snapshot and applied the deltas with higher numbers. -/
def lateView (snap : DecodedSnapshot) (msgs : List Message) : View :=
  ((msgs.filterMap Message.delta?).filter fun d => decide (snap.header.sequence < d.sequence)).foldl View.applyDelta
    snap.view

end DecodedSnapshot

end Wire

/-! ### Maps on the wire -/

def Side.ofCode (c : UInt8) : Option Side :=
  if c = Side.buy.code then some .buy else if c = Side.sell.code then some .sell else none

theorem Side.ofCode_eq_some {c : UInt8} {s : Side} : Side.ofCode c = some s ↔ c = s.code := by
  unfold Side.ofCode
  constructor
  · intro h
    split_ifs at h with hbuy hsell
    · cases h
      exact hbuy
    · cases h
      exact hsell
  · intro h
    rw [h]
    cases s <;> rfl

namespace View

def set (v : View) (side : Side) (price : Int) (level : Option (Int × Nat)) : View :=
  fun s p => if s = side ∧ p = price then level else v s p

def levelOnWire (l : Int × Nat) : Int64 × UInt32 := (Int64.ofInt l.1, UInt32.ofNat l.2)

/-- The map in the types of the wire. -/
def onWire (v : View) : Wire.View := fun c p => (Side.ofCode c).bind fun s => (v s p.toInt).map levelOnWire

theorem onWire_of_none (v : View) {c : UInt8} (hc : Side.ofCode c = none) (p : Int64) : v.onWire c p = none := by
  unfold onWire
  rw [hc]
  rfl

theorem onWire_of_some (v : View) {c : UInt8} {s : Side} (hc : Side.ofCode c = some s) (p : Int64) :
    v.onWire c p = (v s p.toInt).map levelOnWire := by
  unfold onWire
  rw [hc]
  rfl

theorem onWire_empty : View.onWire (fun _ _ => none) = Wire.View.empty := by
  funext c p
  cases hc : Side.ofCode c with
  | none => exact onWire_of_none _ hc p
  | some s => exact onWire_of_some _ hc p

theorem onWire_set (v : View) (side : Side) {price : Int} (hprice : InInt64 price) (level : Option (Int × Nat)) :
    (v.set side price level).onWire =
      v.onWire.set side.code (Int64.ofInt price) (level.map levelOnWire) := by
  funext c p
  have hp : p.toInt = price ↔ p = Int64.ofInt price := by
    constructor
    · intro h
      rw [← h, Int64.ofInt_toInt]
    · intro h
      rw [h, toInt_ofInt hprice]
  unfold Wire.View.set
  cases hc : Side.ofCode c with
  | none =>
    have hne : c ≠ side.code := by
      intro h
      rw [Side.ofCode_eq_some.2 h] at hc
      cases hc
    rw [if_neg fun h => hne h.1, onWire_of_none _ hc, onWire_of_none _ hc]
  | some s =>
    have hs : s = side ↔ c = side.code := by
      rw [← Side.ofCode_eq_some, hc, Option.some_inj]
    have hiff : s = side ∧ p.toInt = price ↔ c = side.code ∧ p = Int64.ofInt price := and_congr hs hp
    rw [onWire_of_some _ hc, onWire_of_some _ hc, set]
    by_cases hat : s = side ∧ p.toInt = price
    · rw [if_pos hat, if_pos (hiff.1 hat)]
    · rw [if_neg hat, if_neg fun h => hat (hiff.2 h)]

theorem onWire_applyMessage (v : View) {d : BookDeltaMessage} (hd : InInt64 d.price) :
    (applyMessage v (.bookDelta d)).onWire = v.onWire.applyDelta d.toWire := by
  unfold Wire.View.applyDelta BookDeltaMessage.toWire
  cases haction : d.action with
  | update =>
    have hset : applyMessage v (.bookDelta d) = v.set d.side d.price (some (d.aggregateQuantity, d.orderCount)) := by
      simp only [applyMessage, haction]
      rfl
    rw [hset, onWire_set v d.side hd]
    rfl
  | delete =>
    have hset : applyMessage v (.bookDelta d) = v.set d.side d.price none := by
      simp only [applyMessage, haction]
      rfl
    rw [hset, onWire_set v d.side hd]
    rfl

/-- Reading the messages and reading them off the wire comes to the same. -/
theorem onWire_foldl (v : View) {ms : List Message} (h : ∀ d, Message.bookDelta d ∈ ms → InInt64 d.price) :
    (ms.foldl applyMessage v).onWire =
      ((ms.map Message.toWire).filterMap Wire.Message.delta?).foldl Wire.View.applyDelta v.onWire := by
  induction ms generalizing v with
  | nil => rfl
  | cons m ms ih =>
    have htail := fun v => ih v fun d hd => h d (List.mem_cons_of_mem _ hd)
    cases m with
    | bookDelta d =>
      have hd := h d (List.mem_cons_self ..)
      have hstep := htail (applyMessage v (.bookDelta d))
      rw [onWire_applyMessage v hd] at hstep
      exact hstep
    | _ => exact htail v

def addLevels (v : View) (side : Side) (levels : List PriceLevelRecord) : View :=
  levels.foldl (fun v l => v.set side l.price (some (l.aggregateQuantity, l.orderCount))) v

theorem onWire_addLevels (v : View) (side : Side) {levels : List PriceLevelRecord}
    (h : ∀ l ∈ levels, InInt64 l.price) :
    (v.addLevels side levels).onWire = v.onWire.addLevels side.code (levels.map PriceLevelRecord.toWire) := by
  induction levels generalizing v with
  | nil => rfl
  | cons l levels ih =>
    have hl := h l (List.mem_cons_self ..)
    have hstep := ih (v.set side l.price (some (l.aggregateQuantity, l.orderCount))) fun l' hl' =>
      h l' (List.mem_cons_of_mem _ hl')
    rw [onWire_set v side hl] at hstep
    exact hstep

end View

/-! ### The levels of a snapshot -/

section

variable {P : Params} {M : Type}

/-- The record of one level. -/
def levelRecord (b : OrderBook P M) (side : Side) (i : Nat) : PriceLevelRecord where
  price := b.priceAt i
  aggregateQuantity := (b.levelFor side i).totalQuantity
  orderCount := (b.levelFor side i).orderCount

/-- A snapshot has the best levels, `depth` of them but never fewer than one: the visitor appends a level before it
compares their number with `depth`. -/
theorem levelRecords_take (b : OrderBook P M) (depth : Nat) (side : Side) :
    levelRecords b depth side = ((b.occupiedLevels side).take (max depth 1)).map (levelRecord b side) := by
  have hvisit : ∀ (is : List Nat) (acc : List PriceLevelRecord),
      b.visitAll side (MarketDataPublisher.collect depth) is acc =
        acc ++ (is.take (max (depth - acc.length) 1)).map (levelRecord b side) := by
    intro is
    induction is with
    | nil =>
      intro acc
      rw [List.take_nil]
      exact (List.append_nil acc).symm
    | cons i is ih =>
      intro acc
      have hlen : (acc ++ [levelRecord b side i]).length = acc.length + 1 := by simp
      unfold visitAll
      by_cases hmore : acc.length + 1 < depth
      · have hgo : MarketDataPublisher.collect depth (b.priceAt i) (b.levelFor side i) acc =
            (true, acc ++ [levelRecord b side i]) := by
          unfold MarketDataPublisher.collect
          exact Prod.ext (decide_eq_true (by simpa using hmore)) rfl
        have hleft : max (depth - acc.length) 1 = max (depth - (acc.length + 1)) 1 + 1 := by omega
        rw [hgo]
        dsimp only
        rw [ih, hlen, hleft, List.take_succ_cons, List.map_cons, List.append_assoc, List.singleton_append]
      · have hstop : MarketDataPublisher.collect depth (b.priceAt i) (b.levelFor side i) acc =
            (false, acc ++ [levelRecord b side i]) := by
          unfold MarketDataPublisher.collect
          exact Prod.ext (decide_eq_false (by simpa using hmore)) rfl
        have hleft : max (depth - acc.length) 1 = 1 := by omega
        rw [hstop, hleft]
        rfl
  exact hvisit _ []

/-- A snapshot that is deep enough has all levels. -/
theorem levelRecords_eq {b : OrderBook P M} {depth : Nat} {side : Side}
    (h : (b.occupiedLevels side).length ≤ depth) :
    levelRecords b depth side = (b.occupiedLevels side).map (levelRecord b side) := by
  rw [levelRecords_take, List.take_of_length_le (by omega)]

variable {b : OrderBook P M} (hbids : b.bids.Inv) (hasks : b.asks.Inv)

include hbids hasks

theorem depth_of_occupied {side : Side} {i : Nat} (hi : i ∈ b.occupiedLevels side) :
    b.depth side (b.priceAt i) = some ((b.levelFor side i).totalQuantity, (b.levelFor side i).orderCount) := by
  have hrange := lt_of_mem_occupiedLevels hi
  have hcount : (b.levelFor side i).orderCount ≠ 0 := by
    have hne := (mem_occupiedLevels hbids hasks).1 hi
    rw [PriceLevel.empty] at hne
    simpa using hne
  unfold OrderBook.depth levelAt
  rw [indexOf_priceAt hrange, Option.map_some]
  exact if_neg hcount

theorem depth_of_free {side : Side} {p : Int} (hp : p ∉ (b.occupiedLevels side).map b.priceAt) :
    b.depth side p = none := by
  unfold OrderBook.depth levelAt
  cases hi : b.indexOf p with
  | none => rfl
  | some i =>
    obtain ⟨-, hprice⟩ := indexOf_eq_some.1 hi
    have hfree : i ∉ b.occupiedLevels side := fun hocc => hp (List.mem_map.2 ⟨i, hocc, hprice.symm⟩)
    rw [mem_occupiedLevels hbids hasks, PriceLevel.empty] at hfree
    exact if_pos (by simpa using hfree)

theorem addLevels_records (v : View) (side : Side) (s : Side) (p : Int) :
    v.addLevels side ((b.occupiedLevels side).map (levelRecord b side)) s p =
      if s = side ∧ p ∈ (b.occupiedLevels side).map b.priceAt then b.depth side p else v s p := by
  have hadd : ∀ (is : List Nat), (∀ i ∈ is, i ∈ b.occupiedLevels side) → ∀ v : View,
      v.addLevels side (is.map (levelRecord b side)) s p =
        if s = side ∧ p ∈ is.map b.priceAt then b.depth side p else v s p := by
    intro is
    induction is with
    | nil =>
      intro _ v
      simp [View.addLevels]
    | cons i is ih =>
      intro hocc v
      have hi := depth_of_occupied hbids hasks (hocc i (List.mem_cons_self ..))
      have htail := ih (fun j hj => hocc j (List.mem_cons_of_mem _ hj)) (v.set side (b.priceAt i)
        (some ((b.levelFor side i).totalQuantity, (b.levelFor side i).orderCount)))
      refine htail.trans ?_
      by_cases hlater : s = side ∧ p ∈ is.map b.priceAt
      · rw [if_pos hlater, if_pos ⟨hlater.1, List.mem_cons_of_mem _ hlater.2⟩]
      · rw [if_neg hlater, View.set]
        by_cases hhere : s = side ∧ p = b.priceAt i
        · rw [if_pos hhere, if_pos ⟨hhere.1, by simp [hhere.2]⟩, hhere.2, hi]
        · rw [if_neg hhere, if_neg]
          intro hat
          rcases List.mem_cons.1 hat.2 with hp | hp
          · exact hhere ⟨hat.1, hp⟩
          · exact hlater ⟨hat.1, hp⟩
  exact hadd _ (fun _ hi => hi) v

/-- A snapshot that is deep enough shows the depth of the book. -/
theorem snapshot_levels_eq_depth {depth : Nat} (hbuy : (b.occupiedLevels .buy).length ≤ depth)
    (hsell : (b.occupiedLevels .sell).length ≤ depth) :
    (View.addLevels (fun _ _ => none) .buy (levelRecords b depth .buy)).addLevels .sell (levelRecords b depth .sell) =
      b.depth := by
  funext s p
  rw [levelRecords_eq hbuy, levelRecords_eq hsell, addLevels_records hbids hasks, addLevels_records hbids hasks]
  cases s with
  | buy =>
    by_cases hp : p ∈ (b.occupiedLevels .buy).map b.priceAt
    · simp [hp]
    · simp [hp, depth_of_free hbids hasks hp]
  | sell =>
    by_cases hp : p ∈ (b.occupiedLevels .sell).map b.priceAt
    · simp [hp]
    · simp [hp, depth_of_free hbids hasks hp]

end

/-! ### Numbers -/

theorem mem_deltas {ms : List Message} {w : Wire.BookDeltaMessage}
    (h : w ∈ (ms.map Message.toWire).filterMap Wire.Message.delta?) :
    ∃ d, Message.bookDelta d ∈ ms ∧ w = d.toWire := by
  obtain ⟨wm, hwm, hw⟩ := List.mem_filterMap.1 h
  obtain ⟨m, hm, rfl⟩ := List.mem_map.1 hwm
  cases m with
  | bookDelta d => exact ⟨d, hm, (Option.some.inj hw).symm⟩
  | _ => cases hw

/-- With fewer than 2^64 messages, the numbers of the deltas tell what was sent before and what after a snapshot. -/
theorem delta_numbers {ms₁ ms₂ : List Message} {n k : UInt64} (h₁ : numberedFrom 1 ms₁ = some n)
    (h₂ : numberedFrom (n + 1) ms₂ = some k) (hlen : ms₁.length + 1 + ms₂.length < 2 ^ 64) :
    (∀ d, Message.bookDelta d ∈ ms₁ → ¬ n < d.sequence) ∧ ∀ d, Message.bookDelta d ∈ ms₂ → n < d.sequence := by
  have hcount₁ := List.length_filterMap_le Message.sequence? ms₁
  have hcount₂ := List.length_filterMap_le Message.sequence? ms₂
  obtain ⟨hseq₁, hn⟩ := sequences_of_numberedFrom (m := 1) h₁
  generalize (ms₁.filterMap Message.sequence?).length = c₁ at hcount₁ hseq₁ hn
  have hnext : n + 1 = UInt64.ofNat (1 + c₁ + 1) := by
    rw [hn]
    exact (UInt64.ofNat_add (1 + c₁) 1).symm
  rw [hnext] at h₂
  obtain ⟨hseq₂, -⟩ := sequences_of_numberedFrom h₂
  generalize (ms₂.filterMap Message.sequence?).length = c₂ at hcount₂ hseq₂
  have hnat : n.toNat = 1 + c₁ := by
    rw [hn]
    exact UInt64.toNat_ofNat_of_lt' (show 1 + c₁ < 2 ^ 64 by omega)
  constructor
  · intro d hd
    have hmem : d.sequence ∈ ms₁.filterMap Message.sequence? := List.mem_filterMap.2 ⟨_, hd, rfl⟩
    rw [hseq₁] at hmem
    obtain ⟨x, hx, hdx⟩ := List.mem_map.1 hmem
    obtain ⟨i, hi, rfl⟩ := List.mem_range'.1 hx
    rw [← hdx, UInt64.lt_iff_toNat_lt, hnat, UInt64.toNat_ofNat_of_lt' (show 1 + 1 * i < 2 ^ 64 by omega)]
    omega
  · intro d hd
    have hmem : d.sequence ∈ ms₂.filterMap Message.sequence? := List.mem_filterMap.2 ⟨_, hd, rfl⟩
    rw [hseq₂] at hmem
    obtain ⟨x, hx, hdx⟩ := List.mem_map.1 hmem
    obtain ⟨i, hi, rfl⟩ := List.mem_range'.1 hx
    rw [← hdx, UInt64.lt_iff_toNat_lt, hnat, UInt64.toNat_ofNat_of_lt' (show 1 + c₁ + 1 + 1 * i < 2 ^ 64 by omega)]
    omega

/-- So the late subscriber applies exactly the deltas after the snapshot. -/
theorem lateView_eq {snap : Wire.DecodedSnapshot} {msg : BookSnapshotMessage} {ms₁ ms₂ : List Message} {k : UInt64}
    (h₁ : numberedFrom 1 ms₁ = some snap.header.sequence)
    (h₂ : numberedFrom (snap.header.sequence + 1) ms₂ = some k)
    (hlen : (ms₁ ++ [Message.bookSnapshot msg] ++ ms₂).length < 2 ^ 64) :
    snap.lateView ((ms₁ ++ [Message.bookSnapshot msg] ++ ms₂).map Message.toWire) =
      ((ms₂.map Message.toWire).filterMap Wire.Message.delta?).foldl Wire.View.applyDelta snap.view := by
  rw [List.length_append, List.length_append, List.length_singleton] at hlen
  obtain ⟨hbefore, hafter⟩ := delta_numbers h₁ h₂ hlen
  have hnone : ((ms₁.map Message.toWire).filterMap Wire.Message.delta?).filter
      (fun d => decide (snap.header.sequence < d.sequence)) = [] := by
    rw [List.filter_eq_nil_iff]
    intro w hw hlt
    obtain ⟨d, hd, rfl⟩ := mem_deltas hw
    exact hbefore d hd (of_decide_eq_true hlt)
  have hall : ((ms₂.map Message.toWire).filterMap Wire.Message.delta?).filter
      (fun d => decide (snap.header.sequence < d.sequence)) =
        (ms₂.map Message.toWire).filterMap Wire.Message.delta? := by
    rw [List.filter_eq_self]
    intro w hw
    obtain ⟨d, hd, rfl⟩ := mem_deltas hw
    exact decide_eq_true (hafter d hd)
  have hsnap : ([Message.bookSnapshot msg].map Message.toWire).filterMap Wire.Message.delta? = [] := rfl
  unfold Wire.DecodedSnapshot.lateView
  rw [List.map_append, List.map_append, List.filterMap_append, List.filterMap_append, hsnap, List.append_nil,
    List.filter_append, hnone, hall, List.nil_append]

/-- No number is higher than the last one. -/
theorem lateView_of_last {snap : Wire.DecodedSnapshot} (h : snap.header.sequence.toNat + 1 = 2 ^ 64)
    (msgs : List Wire.Message) : snap.lateView msgs = snap.view := by
  have hnone : (msgs.filterMap Wire.Message.delta?).filter (fun d => decide (snap.header.sequence < d.sequence)) =
      [] := by
    rw [List.filter_eq_nil_iff]
    intro d _ hlt
    have hlt' := UInt64.lt_iff_toNat_lt.1 (of_decide_eq_true hlt)
    have hbound := d.sequence.toNat_lt
    omega
  unfold Wire.DecodedSnapshot.lateView
  rw [hnone]
  rfl

/-! ### Joining -/

section

variable {P : Params} {M X : Type} {s : ReplayEngine P M X} {r : RefEngine P} {depth : Nat}

/-- The snapshot of a book covers all its levels and fits the wire format. -/
structure Covers (b : OrderBook P M) (depth : Nat) : Prop where
  bids : (b.occupiedLevels .buy).length ≤ depth
  asks : (b.occupiedLevels .sell).length ≤ depth
  total : (b.occupiedLevels .buy).length + (b.occupiedLevels .sell).length ≤ 2729

theorem Covers.length (h : Covers s.matching.book depth) :
    (levelRecords s.matching.book depth .buy).length + (levelRecords s.matching.book depth .sell).length ≤ 2729 := by
  rw [levelRecords_eq h.bids, levelRecords_eq h.asks, List.length_map, List.length_map]
  exact h.total

variable [DenseMap M OrderId Nat]

/-- The prices of the occupied levels are prices of resting orders. -/
theorem Ready.record_price (hs : Ready s r) {side : Side} (h : (s.matching.book.occupiedLevels side).length ≤ depth) :
    ∀ l ∈ levelRecords s.matching.book depth side, InInt64 l.price := by
  obtain ⟨hbids, hasks⟩ := hs.refines.holds.ladders
  intro l hl
  rw [levelRecords_eq h] at hl
  obtain ⟨i, hi, rfl⟩ := List.mem_map.1 hl
  have hne := (hs.refines.holds.level_empty side i).1 ((mem_occupiedLevels hbids hasks).1 hi)
  obtain ⟨o, ho⟩ := List.exists_mem_of_ne_nil _ hne
  obtain ⟨hmem, -, hprice⟩ := mem_ordersAt.1 ho
  have hfits := hs.prices o hmem
  rw [hprice] at hfits
  exact hfits

/-- The snapshot of the book, if it is sent now. -/
def snapshotNow (s : ReplayEngine P M X) (symbol : SymbolId) (depth : Nat) : BookSnapshotMessage :=
  snapshotMessage s.feed symbol (levelRecords s.matching.book depth .buy) (levelRecords s.matching.book depth .sell)

/-- The snapshot as its reader sees it. -/
def decodedSnapshot (s : ReplayEngine P M X) (symbol : SymbolId) (depth : Nat) : Wire.DecodedSnapshot :=
  let msg := (snapshotNow s symbol depth).toWire
  { header := Wire.snapshotHeader msg.sequence msg.symbolId msg.bids msg.asks, bids := msg.bids, asks := msg.asks }

theorem decodedSnapshot_view (hs : Ready s r) (hcov : Covers s.matching.book depth) (symbol : SymbolId) :
    (decodedSnapshot s symbol depth).view = s.matching.book.depth.onWire := by
  obtain ⟨hbids, hasks⟩ := hs.refines.holds.ladders
  rw [← snapshot_levels_eq_depth hbids hasks hcov.bids hcov.asks,
    View.onWire_addLevels _ .sell (hs.record_price hcov.asks), View.onWire_addLevels _ .buy (hs.record_price hcov.bids)]
  rw [View.onWire_empty]
  rfl

/-- A snapshot that covers the book is sent, and can be decoded. -/
theorem Ready.sends_snapshot (hs : Ready s r) (hcov : Covers s.matching.book depth) (symbol : SymbolId)
    (hscratch : 8192 ≤ s.feed.snapshotScratch) :
    ∃ s' consumed, s.publishSnapshot s.matching.book symbol depth = some (none, s') ∧ Ready s' r ∧
      s' = { s with feed := s'.feed } ∧ Appends s s' [] [.bookSnapshot (snapshotNow s symbol depth)] ∧
      Wire.decodeSnapshot (s'.feed.bytes.drop s.feed.bytes.length) =
        .ok (decodedSnapshot s symbol depth) consumed := by
  obtain ⟨hbids, hasks⟩ := hs.refines.holds.ladders
  have hbytes : Wire.snapshotBytes (snapshotNow s symbol depth).toWire.bids (snapshotNow s symbol depth).toWire.asks ≤
      65512 := by
    have hlen := hcov.length
    simp only [Wire.snapshotBytes, snapshotNow, snapshotMessage, BookSnapshotMessage.toWire, List.length_map]
    omega
  have hfits : (Message.bookSnapshot (snapshotNow s symbol depth)).toWire.Fits := hbytes.trans (by omega)
  have hwritten : (MarketDataPublisher.encodeAttempts (snapshotNow s symbol depth).toWire 4
      s.feed.snapshotScratch).1 ≠ [] :=
    MarketDataPublisher.encodeAttempts_ne_nil hfits ((Nat.add_le_add_left hbytes 4).trans (by omega))
  have happ := appends_snapshot s symbol hwritten
  refine ⟨_, 4 + Wire.snapshotBytes (snapshotNow s symbol depth).toWire.bids (snapshotNow s symbol depth).toWire.asks,
    publishSnapshot_eq s hbids hasks symbol depth, ⟨hs.refines, hs.prices⟩, rfl, happ, ?_⟩
  rw [happ.bytes, List.drop_left, wireBytes_singleton]
  exact Wire.decodeSnapshot_encoded hfits le_rfl

/-- A stretch of a session as a subscriber sees it that was in sync before: it reads the deltas off the wire. -/
theorem Served.onWire {s s' : ReplayEngine P M X} {r r' : RefEngine P} {fills : List Fill} {ms : List Message}
    (h : Served s s' r r' fills) (happ : Appends s s' fills ms)
    (hdeltas : ∀ d, Message.bookDelta d ∈ ms → InInt64 d.price) (hs : Refines s.matching r)
    (hs' : Refines s'.matching r') (hview : viewOf s.feed.sink = depthOf r.resting) :
    ((ms.map Message.toWire).filterMap Wire.Message.delta?).foldl Wire.View.applyDelta s.matching.book.depth.onWire =
      s'.matching.book.depth.onWire := by
  have hview' := h.view hview
  rw [happ.sink, viewOf, List.foldl_append] at hview'
  rw [← View.onWire_foldl _ hdeltas, hs.holds.depth_eq, ← hview, hs'.holds.depth_eq, ← hview']
  rfl

variable [DenseMap X UInt64 ClientExposure]

/-- In every session with a snapshot that covers the book, the snapshot can be decoded.  As long as there are fewer
than 2^64 messages, a subscriber that starts from it and applies the deltas with higher numbers has the levels of the
book, and so has a subscriber that has applied all deltas. -/
theorem late_joiner_agrees (symbol : SymbolId) (basePrice : Int) (risk : RiskEngine X)
    (before later : List (SessionEvent P M)) (snapshotSymbol : SymbolId) (depth : Nat)
    (hfits : ∀ ev, .event ev ∈ before ++ later → ev.Fits) :
    ∃ outs₁ s₁, runAll ReplayEngine.serve (ReplayEngine.start 8192 symbol basePrice risk) before = some (outs₁, s₁) ∧
      (Covers s₁.matching.book depth →
        ∃ s₂ snap consumed outs₃ s₃ msgs,
          s₁.serve (.snapshot snapshotSymbol depth) = some (none, s₂) ∧
          Wire.decodeSnapshot (s₂.feed.bytes.drop s₁.feed.bytes.length) = .ok snap consumed ∧
          runAll ReplayEngine.serve s₂ later = some (outs₃, s₃) ∧
          Wire.parse s₃.feed.bytes = some { rest := [], messages := msgs } ∧
          (msgs.length < 2 ^ 64 →
            snap.lateView msgs = s₃.matching.book.depth.onWire ∧
              Wire.fullView msgs = s₃.matching.book.depth.onWire)) := by
  have hbefore : ∀ ev, .event ev ∈ before → ev.Fits := fun ev hev => hfits ev (List.mem_append_left _ hev)
  have hlater : ∀ ev, .event ev ∈ later → ev.Fits := fun ev hev => hfits ev (List.mem_append_right _ hev)
  have hstart := ready_start (P := P) (M := M) 8192 symbol basePrice risk
  obtain ⟨outs₁, s₁, r₁, hrun₁, hs₁, hserved₁⟩ := serve_run before hbefore hstart
  refine ⟨outs₁, s₁, hrun₁, fun hcov => ?_⟩
  obtain ⟨ms₁, happ₁, hdeltas₁⟩ := hserved₁.sends
  have hview₁ : viewOf s₁.feed.sink = depthOf r₁.resting := hserved₁.view rfl
  obtain ⟨s₂, consumed, hsnap, hs₂, -, happ₂, hdecoded⟩ := hs₁.sends_snapshot hcov snapshotSymbol happ₁.scratch
  have hview₂ : viewOf s₂.feed.sink = depthOf r₁.resting := by
    rw [happ₂.sink, viewOf_append (by simp), hview₁]
  obtain ⟨outs₃, s₃, r₃, hrun₃, hs₃, hserved₃⟩ := serve_run later hlater hs₂
  obtain ⟨ms₃, happ₃, hdeltas₃⟩ := hserved₃.sends
  have hall := (happ₁.trans happ₂).trans happ₃
  refine ⟨s₂, _, consumed, outs₃, s₃, _, hsnap, hdecoded, hrun₃, hall.parse_eq rfl, fun hlen => ⟨?_, ?_⟩⟩
  · -- the late subscriber has the depth of the book at the snapshot, and applies what came after it
    rw [List.length_map] at hlen
    have hnumbered₁ : numberedFrom 1 ms₁ = some (decodedSnapshot s₁ snapshotSymbol depth).header.sequence :=
      happ₁.numbered
    have hnumbered₃ := happ₃.numbered
    rw [happ₂.nextSequence_snapshot] at hnumbered₃
    have hdepth : s₁.matching.book.depth = s₂.matching.book.depth := by
      rw [hs₁.refines.holds.depth_eq, hs₂.refines.holds.depth_eq]
    rw [lateView_eq hnumbered₁ hnumbered₃ hlen, decodedSnapshot_view hs₁ hcov, hdepth]
    exact hserved₃.onWire happ₃ hdeltas₃ hs₂.refines hs₃.refines hview₂
  · have hdeltas : ∀ d, Message.bookDelta d ∈ ms₁ ++ [.bookSnapshot (snapshotNow s₁ snapshotSymbol depth)] ++ ms₃ →
        InInt64 d.price := by
      intro d hd
      rcases List.mem_append.1 hd with hd | hd
      · rcases List.mem_append.1 hd with hd | hd
        · exact hdeltas₁ d hd
        · cases List.mem_singleton.1 hd
      · exact hdeltas₃ d hd
    have hview₃ : viewOf s₃.feed.sink = depthOf r₃.resting := hserved₃.view hview₂
    rw [hall.sink] at hview₃
    rw [hs₃.refines.holds.depth_eq, ← hview₃, Wire.fullView, ← View.onWire_empty, ← View.onWire_foldl _ hdeltas]
    rfl

/-- Snapshots in a row use up as many numbers, and nothing else changes. -/
theorem repeated_snapshots (n : Nat) {s : ReplayEngine P M X} (hs : Ready s r) (hcov : Covers s.matching.book depth)
    (hscratch : 8192 ≤ s.feed.snapshotScratch) (symbol : SymbolId) :
    ∃ outs s' ms, runAll ReplayEngine.serve s (List.replicate n (.snapshot symbol depth)) = some (outs, s') ∧
      s' = { s with feed := s'.feed } ∧ Appends s s' [] ms ∧
      s'.feed.nextSequence = s.feed.nextSequence + UInt64.ofNat n := by
  induction n generalizing s with
  | zero => exact ⟨[], s, [], rfl, rfl, appends_refl s, (UInt64.add_zero _).symm⟩
  | succ n ih =>
    obtain ⟨s₁, -, hsnap, hs₁, hsame₁, happ₁, -⟩ := hs.sends_snapshot hcov symbol hscratch
    have hbook : s₁.matching = s.matching := by rw [hsame₁]
    obtain ⟨outs, s', ms, hrun, hsame, happ, hnext⟩ := ih hs₁ (by rw [hbook]; exact hcov)
      (hscratch.trans happ₁.scratch)
    refine ⟨none :: outs, s', _, ?_, ?_, happ₁.trans happ, ?_⟩
    · rw [List.replicate_succ, runAll_cons hsnap, hrun]
      rfl
    · rw [hsame, hsame₁]
    · rw [hnext, happ₁.nextSequence_snapshot, UInt64.add_assoc, Nat.add_comm n 1, UInt64.ofNat_add]
      rfl

end

/-- A subscriber joins on a book with one level, and then the order there is filled in part. -/
theorem late_joiner_agrees_partial_fill :
    ∃ outs₁ s₁, runAll ReplayEngine.serve
        (ReplayEngine.start (P := tinyParams) (M := IdMap) 8192 7 100
          (RiskEngine.new looseLimits : RiskEngine ExposureMap))
        [.event (.newOrder (limitDay 1 1 .sell 101 3) 0)] = some (outs₁, s₁) ∧
      Covers s₁.matching.book 1 ∧
      ∃ s₂ snap consumed outs₃ s₃ msgs,
        s₁.serve (.snapshot 7 1) = some (none, s₂) ∧
        Wire.decodeSnapshot (s₂.feed.bytes.drop s₁.feed.bytes.length) = .ok snap consumed ∧
        runAll ReplayEngine.serve s₂ [.event (.newOrder (limitDay 2 2 .buy 101 1) 1)] = some (outs₃, s₃) ∧
        Wire.parse s₃.feed.bytes = some { rest := [], messages := msgs } ∧
        (msgs.length < 2 ^ 64 →
          snap.lateView msgs = s₃.matching.book.depth.onWire ∧
            Wire.fullView msgs = s₃.matching.book.depth.onWire) := by
  obtain ⟨outs₁, s₁, hrun, hjoin⟩ := late_joiner_agrees (P := tinyParams) (M := IdMap) 7 100
    (RiskEngine.new looseLimits : RiskEngine ExposureMap) [.event (.newOrder (limitDay 1 1 .sell 101 3) 0)]
    [.event (.newOrder (limitDay 2 2 .buy 101 1) 1)] 7 1 (by
      intro ev hmem
      simp only [List.cons_append, List.nil_append, List.mem_cons, SessionEvent.event.injEq, List.not_mem_nil,
        or_false] at hmem
      rcases hmem with rfl | rfl
      · exact ⟨by decide, by decide⟩
      · exact ⟨by decide, by decide⟩)
  have hlevels : (runAll ReplayEngine.serve
      (ReplayEngine.start (P := tinyParams) (M := IdMap) 8192 7 100
        (RiskEngine.new looseLimits : RiskEngine ExposureMap))
      [.event (.newOrder (limitDay 1 1 .sell 101 3) 0)]).map
        (fun p => (p.2.matching.book.occupiedLevels .buy, p.2.matching.book.occupiedLevels .sell)) =
      some ([], [1]) := rfl
  rw [hrun] at hlevels
  obtain ⟨hbuy, hsell⟩ := Prod.mk.inj (Option.some.inj hlevels)
  have hcov : Covers s₁.matching.book 1 := ⟨by rw [hbuy]; decide, by rw [hsell]; decide, by rw [hbuy, hsell]; decide⟩
  exact ⟨outs₁, s₁, hrun, hcov, hjoin hcov⟩

/-- After 2^64 - 2 snapshots the next one has the highest number.  A subscriber that joins there ignores every later
delta, among them the one of a new order. -/
theorem late_joiner_misses_wrapped_delta :
    ∃ n outs₁ s₁ s₂ snap consumed outs₃ s₃ msgs,
      runAll ReplayEngine.serve
        (ReplayEngine.start (P := tinyParams) (M := IdMap) 8192 7 100
          (RiskEngine.new looseLimits : RiskEngine ExposureMap))
        (List.replicate n (.snapshot 7 1)) = some (outs₁, s₁) ∧
      Covers s₁.matching.book 1 ∧
      s₁.serve (.snapshot 7 1) = some (none, s₂) ∧
      Wire.decodeSnapshot (s₂.feed.bytes.drop s₁.feed.bytes.length) = .ok snap consumed ∧
      runAll ReplayEngine.serve s₂ [.event (.newOrder (limitDay 1 1 .buy 100 1) 0)] = some (outs₃, s₃) ∧
      Wire.parse s₃.feed.bytes = some { rest := [], messages := msgs } ∧
      snap.lateView msgs ≠ s₃.matching.book.depth.onWire := by
  obtain ⟨n, hn⟩ : ∃ n : Nat, n + 2 = 2 ^ 64 := ⟨2 ^ 64 - 2, by omega⟩
  let s₀ : ReplayEngine tinyParams IdMap ExposureMap := ReplayEngine.start 8192 7 100 (RiskEngine.new looseLimits)
  have hs₀ : Ready s₀ (RefEngine.new tinyParams 7 100) := ready_start 8192 7 100 _
  have hcov : Covers s₀.matching.book 1 := ⟨by decide, by decide, by decide⟩
  obtain ⟨outs₁, s₁, ms₁, hrun₁, hsame₁, happ₁, hnext₁⟩ := repeated_snapshots n hs₀ hcov le_rfl 7
  have hs₁ : Ready s₁ (RefEngine.new tinyParams 7 100) := by rw [hsame₁]; exact ⟨hs₀.refines, hs₀.prices⟩
  have hcov₁ : Covers s₁.matching.book 1 := by rw [hsame₁]; exact hcov
  obtain ⟨s₂, consumed, hsnap, hs₂, hsame₂, happ₂, hdecoded⟩ := hs₁.sends_snapshot hcov₁ 7 happ₁.scratch
  have hlast : (decodedSnapshot s₁ 7 1).header.sequence.toNat + 1 = 2 ^ 64 := by
    have hsequence : (decodedSnapshot s₁ 7 1).header.sequence = UInt64.ofNat (1 + n) := by
      rw [UInt64.ofNat_add]
      exact hnext₁
    rw [hsequence, UInt64.toNat_ofNat_of_lt' (show 1 + n < 2 ^ 64 by omega)]
    omega
  have hfits : ∀ ev, SessionEvent.event (P := tinyParams) (M := IdMap) ev ∈
      [.event (.newOrder (limitDay 1 1 .buy 100 1) 0)] → ev.Fits := by
    intro ev hmem
    cases List.mem_singleton.1 hmem
    exact ⟨by decide, by decide⟩
  obtain ⟨outs₃, s₃, r₃, hrun₃, -, hserved₃⟩ := serve_run _ hfits hs₂
  obtain ⟨ms₃, happ₃, -⟩ := hserved₃.sends
  refine ⟨n, outs₁, s₁, s₂, _, consumed, outs₃, s₃, _, hrun₁, hcov₁, hsnap, hdecoded, hrun₃,
    ((happ₁.trans happ₂).trans happ₃).parse_eq rfl, ?_⟩
  rw [lateView_of_last hlast, decodedSnapshot_view hs₁ hcov₁]
  -- the level of the order was empty at the snapshot
  have hbefore : s₁.matching.book.depth .buy 100 = none := by rw [hsame₁]; rfl
  have hafter : s₃.matching.book.depth .buy 100 = some (1, 1) := by
    have hdepth : (runAll ReplayEngine.serve { s₀ with feed := s₂.feed }
        [.event (.newOrder (limitDay 1 1 .buy 100 1) 0)]).map (fun p => p.2.matching.book.depth .buy 100) =
          some (some (1, 1)) := rfl
    have hengine : { s₀ with feed := s₂.feed } = s₂ := by rw [hsame₂, hsame₁]
    rw [hengine, hrun₃] at hdepth
    exact Option.some.inj hdepth
  intro heq
  have hat := congrFun (congrFun heq Side.buy.code) 100
  rw [View.onWire_of_some _ (Side.ofCode_eq_some.2 rfl), View.onWire_of_some _ (Side.ofCode_eq_some.2 rfl)] at hat
  have hprice : (100 : Int64).toInt = 100 := rfl
  rw [hprice, hbefore, hafter] at hat
  cases hat

end Exchange
