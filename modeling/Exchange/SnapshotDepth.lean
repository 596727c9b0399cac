import Exchange.LateJoiner

/-!
# The depth of a snapshot

`publish_snapshot` is to send the best `depth` levels of each side.  Its visitor appends a level before it compares
their number with `depth`, so that with depth 0 it sends the best level of each side that has one.  For every other
depth a decoded snapshot has the best levels of the book, no more than `depth`, with the quantities and the numbers of
their orders, provided that the sums of the quantities have not left the range of `std::int64_t`.
-/

namespace Exchange

open OrderBook DenseMap

section

variable {P : Params} {M : Type}

/-- The best `depth` levels of a side: price, sum of the open quantities and number of the orders. -/
def OrderBook.topLevels (b : OrderBook P M) (s : Side) (depth : Nat) : List (Int × Int × Nat) :=
  ((b.occupiedLevels s).take depth).map fun i =>
    (b.priceAt i, ((b.fifo s i).map Order.remaining).sum, (b.fifo s i).length)

/-- A level of a snapshot as its reader sees it. -/
def Wire.PriceLevelRecord.contents (l : Wire.PriceLevelRecord) : Int × Int × Nat :=
  (l.price.toInt, l.aggregateQuantity.toInt, l.orderCount.toNat)

/-- A reader that decodes the bytes gets the best `depth` levels of each side. -/
def ShowsTop (b : OrderBook P M) (depth : Nat) (bytes : List UInt8) : Prop :=
  ∃ header bids asks consumed, Wire.decodeSnapshot bytes = .ok ⟨header, bids, asks⟩ consumed ∧
    bids.map Wire.PriceLevelRecord.contents = b.topLevels .buy depth ∧
    asks.map Wire.PriceLevelRecord.contents = b.topLevels .sell depth

/-- The prices and quantities of the best `depth` levels have a place in a message. -/
def OrderBook.LevelsFit (b : OrderBook P M) (depth : Nat) : Prop :=
  ∀ s, ∀ i ∈ (b.occupiedLevels s).take depth,
    InInt64 (b.priceAt i) ∧ InInt64 ((b.fifo s i).map Order.remaining).sum

theorem toInt_ofInt_eq_iff {x : Int} : (Int64.ofInt x).toInt = x ↔ InInt64 x := by
  constructor
  · intro h
    rw [← h]
    exact ⟨Int64.le_toInt _, Int64.toInt_lt _⟩
  · exact toInt_ofInt

/-- A list that has been cut off after its first element, at the latest, shows the elements up to `n`. -/
theorem map_take_max_eq_iff {α β : Type} (f g : α → β) (l : List α) (n : Nat) :
    (l.take (max n 1)).map f = (l.take n).map g ↔ (0 < n ∨ l = []) ∧ ∀ a ∈ l.take n, f a = g a := by
  rcases Nat.eq_zero_or_pos n with rfl | hpos
  · cases l <;> simp
  · rw [max_eq_left hpos, List.map_inj_left]
    exact ⟨fun h => ⟨Or.inl hpos, h⟩, fun h => h.2⟩

/-- What `publish_snapshot` writes, if it writes anything. -/
theorem MarketDataPublisher.writeSnapshot_bytes {feed : MarketDataPublisher} {symbol : SymbolId}
    {bids asks : List PriceLevelRecord} {bytes : List UInt8}
    (h : (feed.writeSnapshot symbol bids asks).bytes = feed.bytes ++ bytes) (hne : bytes ≠ []) :
    (Wire.Message.bookSnapshot (snapshotMessage feed symbol bids asks).toWire).Fits ∧
      bytes = (Wire.Message.bookSnapshot (snapshotMessage feed symbol bids asks).toWire).encoded 65539 := by
  obtain ⟨-, hspec⟩ := encodeAttempts_spec (snapshotMessage feed symbol bids asks).toWire 4 feed.snapshotScratch
  by_cases hwritten : (encodeAttempts (snapshotMessage feed symbol bids asks).toWire 4 feed.snapshotScratch).1 = []
  · rw [writeSnapshot_dropped hwritten] at h
    exact absurd (List.self_eq_append_right.1 h) hne
  · obtain ⟨hfits, hbytes⟩ := hspec hwritten
    rw [writeSnapshot_written hwritten, hbytes] at h
    exact ⟨hfits, (List.append_cancel_left h).symm⟩

variable [DenseMap M OrderId Nat] {b : OrderBook P M} {L : List Order}

/-- The aggregates of the level are those of its queue, as far as they fit. -/
theorem OrderBook.Holds.levelRecord_contents (h : b.Holds L) (s : Side) (i : Nat) :
    (levelRecord b s i).toWire.contents = ((Int64.ofInt (b.priceAt i)).toInt,
      (Int64.ofInt ((b.fifo s i).map Order.remaining).sum).toInt, (b.fifo s i).length) := by
  have hlength : (b.fifo s i).length < 2 ^ 32 := by
    rw [h.fifo, ordersAt]
    have hle := List.length_filter_le (fun o : Order => decide (o.side = s ∧ o.price = b.priceAt i)) L
    have hcap : L.length ≤ P.maxOrders := by
      obtain ⟨rest, hrep, rfl⟩ := h
      rw [List.length_map]
      exact hrep.length_le
    have hmax := P.maxOrders_le
    omega
  unfold PriceLevelRecord.toWire levelRecord Wire.PriceLevelRecord.contents
  dsimp only
  rw [(h.level s i).1, (h.level s i).2, h.fifo, UInt32.toNat_ofNat_of_lt' (by rw [← h.fifo]; exact hlength)]

/-- A snapshot that has been written has the best `max depth 1` levels, in 64 bits. -/
theorem OrderBook.Holds.snapshot_decodes (h : b.Holds L) (feed : MarketDataPublisher) (symbol : SymbolId) (depth : Nat)
    {bytes : List UInt8}
    (hbytes : (feed.writeSnapshot symbol (levelRecords b depth .buy) (levelRecords b depth .sell)).bytes =
      feed.bytes ++ bytes) (hne : bytes ≠ []) :
    ShowsTop b depth bytes ↔
      (0 < depth ∨ b.occupiedLevels .buy = [] ∧ b.occupiedLevels .sell = []) ∧ b.LevelsFit depth := by
  obtain ⟨hfits, hencoded⟩ := MarketDataPublisher.writeSnapshot_bytes hbytes hne
  have hdecode := Wire.decodeSnapshot_encoded hfits (le_refl 65539)
  rw [← hencoded] at hdecode
  have hside : ∀ s, (((levelRecords b depth s).map PriceLevelRecord.toWire).map Wire.PriceLevelRecord.contents =
      b.topLevels s depth) ↔ (0 < depth ∨ b.occupiedLevels s = []) ∧ ∀ i ∈ (b.occupiedLevels s).take depth,
        InInt64 (b.priceAt i) ∧ InInt64 ((b.fifo s i).map Order.remaining).sum := by
    intro s
    rw [levelRecords_take, List.map_map, List.map_map, topLevels, map_take_max_eq_iff]
    simp only [Function.comp_apply, h.levelRecord_contents, Prod.mk.injEq, toInt_ofInt_eq_iff, and_true]
  have hshows : ShowsTop b depth bytes ↔ ∀ s,
      ((levelRecords b depth s).map PriceLevelRecord.toWire).map Wire.PriceLevelRecord.contents =
        b.topLevels s depth := by
    constructor
    · rintro ⟨header, bids, asks, consumed, hdecode', hbids, hasks⟩
      rw [hdecode] at hdecode'
      injection hdecode' with hpayload _
      injection hpayload with _ hbids' hasks'
      rw [← hbids'] at hbids
      rw [← hasks'] at hasks
      intro s
      cases s with
      | buy => exact hbids
      | sell => exact hasks
    · intro hall
      exact ⟨_, _, _, _, hdecode, hall .buy, hall .sell⟩
  rw [hshows]
  constructor
  · intro hall
    have hfit : b.LevelsFit depth := fun s => ((hside s).1 (hall s)).2
    rcases Nat.eq_zero_or_pos depth with hzero | hpos
    · have hempty : ∀ s, b.occupiedLevels s = [] := fun s => ((hside s).1 (hall s)).1.resolve_left (by omega)
      exact ⟨Or.inr ⟨hempty .buy, hempty .sell⟩, hfit⟩
    · exact ⟨Or.inl hpos, hfit⟩
  · rintro ⟨hdepth, hfit⟩ s
    refine (hside s).2 ⟨hdepth.imp_right fun hempty => ?_, hfit s⟩
    cases s with
    | buy => exact hempty.1
    | sell => exact hempty.2

end

/-- In every state that book operations lead to, for every publisher and depth: `publish_snapshot` goes through, and
if it writes a message, decoding it gives the best `depth` levels of each side if and only if `depth` is not 0 or the
book is empty, and the prices and quantities of these levels are 64-bit numbers. -/
theorem snapshot_depth_iff {P : Params} {M : Type} [DenseMap M OrderId Nat] (symbol : SymbolId) (basePrice : Int)
    (ops : List BookOp) (feed : MarketDataPublisher) (snapshotSymbol : SymbolId) (depth : Nat) :
    ∃ (b : OrderBook P M) (feed' : MarketDataPublisher), b = ops.foldl apply (new P M symbol basePrice) ∧
      feed.publishSnapshot snapshotSymbol b depth = some feed' ∧
      ∀ bytes, feed'.bytes = feed.bytes ++ bytes → bytes ≠ [] →
        (ShowsTop b depth bytes ↔
          (0 < depth ∨ b.occupiedLevels .buy = [] ∧ b.occupiedLevels .sell = []) ∧ b.LevelsFit depth) := by
  obtain ⟨rest, hrep⟩ := rep_run (P := P) (M := M) symbol basePrice ops
  generalize ops.foldl apply (new P M symbol basePrice) = b at hrep
  have h : b.Holds (rest.map fun n => (b.node n).order) := ⟨rest, hrep, rfl⟩
  refine ⟨b, _, rfl, feed.publishSnapshot_eq hrep.bids hrep.asks snapshotSymbol depth, ?_⟩
  intro bytes hbytes hne
  exact h.snapshot_decodes feed snapshotSymbol depth hbytes hne

/-- With depth 0 the only bid of a book is sent. -/
theorem snapshot_of_depth_zero_shows_bid :
    ∃ (b : OrderBook tinyParams IdMap) (feed : MarketDataPublisher),
      b = [BookOp.add { id := 1, symbol := 7, side := .buy, price := 100, quantity := 5, remaining := 5 }].foldl apply
        (new tinyParams IdMap 7 100) ∧
      ({} : MarketDataPublisher).publishSnapshot 7 b 0 = some feed ∧ feed.bytes.length = 44 ∧
      ¬ ShowsTop b 0 feed.bytes := by
  obtain ⟨rest, hrep⟩ := rep_run (P := tinyParams) (M := IdMap) 7 100
    [.add { id := 1, symbol := 7, side := .buy, price := 100, quantity := 5, remaining := 5 }]
  refine ⟨_, _, rfl, MarketDataPublisher.publishSnapshot_eq {} hrep.bids hrep.asks 7 0, by decide +kernel, ?_⟩
  rw [OrderBook.Holds.snapshot_decodes ⟨rest, hrep, rfl⟩ {} 7 0 (List.nil_append _).symm (by decide +kernel)]
  rintro ⟨hdepth | hempty, -⟩
  · exact absurd hdepth (by decide)
  · exact absurd hempty.1 (by decide +kernel)

end Exchange
