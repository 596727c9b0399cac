import Exchange.Codec

/-!
# Decoders accept canonical bytes only

What a decoder accepts is what the encoder writes for the decoded message, up to the reserved byte of the header,
which no decoder looks at.  A decoder looks at no byte after the message.
-/

namespace Exchange

namespace Wire

open Layout

/-! ### The layouts are exact -/

instance : Exact MessageHeader.layout where
  write_read bs h := by
    simp only [MessageHeader.layout] at h ⊢
    rw [write_readAt_zero (by rw [size_uint16]; omega)]
    simp (disch := (simp; omega)) only [take_append_write, size_uint16, size_uint8, Nat.reduceAdd]

instance : Exact NewOrderMessage.layout where
  write_read bs h := by
    simp only [NewOrderMessage.layout] at h ⊢
    rw [write_readAt_zero (by rw [size_uint64]; omega)]
    simp (disch := (simp; omega)) only [take_append_write, size_uint64, size_int64, size_uint32, size_uint8, size_bytes,
      Nat.reduceAdd]

instance : Exact CancelOrderMessage.layout where
  write_read bs h := by
    simp only [CancelOrderMessage.layout] at h ⊢
    rw [write_readAt_zero (by rw [size_uint64]; omega)]
    simp (disch := (simp; omega)) only [take_append_write, size_uint64, size_uint32, Nat.reduceAdd]

instance : Exact ReplaceOrderMessage.layout where
  write_read bs h := by
    simp only [ReplaceOrderMessage.layout] at h ⊢
    rw [write_readAt_zero (by rw [size_uint64]; omega)]
    simp (disch := (simp; omega)) only [take_append_write, size_uint64, size_int64, size_uint32, Nat.reduceAdd]

instance : Exact ExecutionReportMessage.layout where
  write_read bs h := by
    simp only [ExecutionReportMessage.layout] at h ⊢
    rw [write_readAt_zero (by rw [size_uint64]; omega)]
    simp (disch := (simp; omega)) only [take_append_write, size_uint64, size_int64, size_uint32, size_uint8, size_bytes,
      Nat.reduceAdd]

instance : Exact TradeMessage.layout where
  write_read bs h := by
    simp only [TradeMessage.layout] at h ⊢
    rw [write_readAt_zero (by rw [size_uint64]; omega)]
    simp (disch := (simp; omega)) only [take_append_write, size_uint64, size_int64, size_uint32, size_uint8, size_bytes,
      Nat.reduceAdd]

instance : Exact BookDeltaMessage.layout where
  write_read bs h := by
    simp only [BookDeltaMessage.layout] at h ⊢
    rw [write_readAt_zero (by rw [size_uint64]; omega)]
    simp (disch := (simp; omega)) only [take_append_write, size_uint64, size_int64, size_uint32, size_uint8, size_bytes,
      Nat.reduceAdd]

instance : Exact BookSnapshotHeader.layout where
  write_read bs h := by
    simp only [BookSnapshotHeader.layout] at h ⊢
    rw [write_readAt_zero (by rw [size_uint64]; omega)]
    simp (disch := (simp; omega)) only [take_append_write, size_uint64, size_uint32, size_uint16, Nat.reduceAdd]

instance : Exact PriceLevelRecord.layout where
  write_read bs h := by
    simp only [PriceLevelRecord.layout] at h ⊢
    rw [write_readAt_zero (by rw [size_int64]; omega)]
    simp (disch := (simp; omega)) only [take_append_write, size_int64, size_uint32, size_bytes, Nat.reduceAdd]

/-! ### The header -/

/-- A header with the reserved byte cleared. -/
theorem write_header {bytes : List UInt8} (h : 4 ≤ bytes.length) {header : MessageHeader}
    (hlength : header.length = (MessageHeader.layout.read bytes).length)
    (htype : header.type = (MessageHeader.layout.read bytes).type) (hreserved : header.reserved = 0) :
    MessageHeader.layout.write header = (bytes.take 4).set 3 0 := by
  have hread := Exact.write_read (l := MessageHeader.layout) bytes h
  rw [size_messageHeader] at hread
  rw [← hread]
  have hbyte : ∀ b : UInt8, uint8.write b = [b] := by
    intro b
    show [UInt8.ofNat b.toNat] = [b]
    rw [UInt8.ofNat_toNat]
  have hfirst : (uint16.write header.length ++ [header.type]).length = 3 := by simp
  simp only [MessageHeader.layout] at hlength htype ⊢
  rw [← hlength, ← htype, hreserved, hbyte, hbyte, hbyte, List.set_append_right _ _ (by omega), hfirst]
  rfl

theorem peekHeader_eq {bytes : List UInt8} (h : 4 ≤ bytes.length) :
    peekHeader bytes = some (MessageHeader.layout.read bytes) := by
  rw [peekHeader, size_messageHeader, if_neg (by omega)]

/-! ### Fixed-size messages -/

section

variable {α : Type} [MessageTraits α] {bytes : List UInt8} {payload : α} {consumed : Nat}

/-- What `decode` accepts. -/
theorem decode_eq_ok_iff :
    decode α bytes = .ok payload consumed ↔
      4 + (MessageTraits.layout (α := α)).size ≤ bytes.length ∧
      (MessageHeader.layout.read bytes).type = (MessageTraits.type α).code ∧
      (MessageHeader.layout.read bytes).length.toNat = (MessageTraits.layout (α := α)).size ∧
      payload = MessageTraits.layout.readAt 4 bytes ∧ consumed = 4 + (MessageTraits.layout (α := α)).size := by
  unfold decode
  dsimp only
  by_cases hheader : 4 ≤ bytes.length
  · rw [peekHeader_eq hheader]
    dsimp only
    rw [size_messageHeader]
    split_ifs with htype hlength hshort
    · simp [htype]
    · simp [hlength]
    · rw [not_not] at hlength
      rw [hlength] at hshort
      simp only [false_iff]
      omega
    · rw [not_not] at htype hlength
      rw [hlength] at hshort ⊢
      have hlong : 4 + (MessageTraits.layout (α := α)).size ≤ bytes.length := by omega
      simp only [DecodeResult.ok.injEq, htype, hlong, true_and]
      exact and_congr eq_comm eq_comm
  · rw [peekHeader_eq_none (by omega)]
    simp only [reduceCtorEq, false_iff]
    omega

end

/-- Bytes that are kept when everything after them is replaced. -/
private theorem take_kept {bytes rest : List UInt8} {k n : Nat} (hk : k ≤ n) (hn : n ≤ bytes.length) :
    (bytes.take n ++ rest).take k = bytes.take k := by
  rw [List.take_append_of_le_length (by rw [List.length_take]; omega), List.take_take, Nat.min_eq_left hk]

/-- What holds of the payload type `α`, for all bytes. -/
structure Canonical (α : Type) [MessageTraits α] : Prop where
  consumed_le : ∀ {bytes : List UInt8} {payload : α} {consumed : Nat}, decode α bytes = .ok payload consumed →
    consumed ≤ bytes.length
  reencode : ∀ {bytes : List UInt8} {payload : α} {consumed : Nat}, decode α bytes = .ok payload consumed →
    ∀ outSize, consumed ≤ outSize →
      encode outSize payload = (bytes.take consumed).set 3 0 ∧ (encode outSize payload).length = consumed
  ignores_rest : ∀ {bytes : List UInt8} {payload : α} {consumed : Nat}, decode α bytes = .ok payload consumed →
    ∀ rest, decode α (bytes.take consumed ++ rest) = .ok payload consumed
  too_small : ∀ (payload : α) (outSize : Nat), outSize < 4 + (MessageTraits.layout (α := α)).size →
    encode outSize payload = []

theorem canonical (α : Type) [MessageTraits α] [Exact (MessageTraits.layout (α := α))] : Canonical α where
  consumed_le h := by
    obtain ⟨hlen, -, -, -, rfl⟩ := decode_eq_ok_iff.1 h
    exact hlen
  reencode {bytes payload consumed} h outSize hout := by
    obtain ⟨hlen, htype, hlength, rfl, rfl⟩ := decode_eq_ok_iff.1 h
    have hheader : MessageHeader.layout.write (headerOf α) = (bytes.take 4).set 3 0 := by
      refine write_header (by omega) ?_ htype.symm rfl
      rw [← UInt16.ofNat_toNat (x := (MessageHeader.layout.read bytes).length), hlength]
      rfl
    have hpayload : MessageTraits.layout.write (MessageTraits.layout.readAt 4 bytes : α) =
        (bytes.drop 4).take (MessageTraits.layout (α := α)).size :=
      Exact.write_read _ (by rw [List.length_drop]; omega)
    have hencode : encode outSize (MessageTraits.layout.readAt 4 bytes : α) =
        (bytes.take (4 + (MessageTraits.layout (α := α)).size)).set 3 0 := by
      rw [encode_eq _ hout, hheader, hpayload, List.take_add,
        List.set_append_left _ _ (by rw [List.length_take]; omega)]
    refine ⟨hencode, ?_⟩
    rw [hencode, List.length_set, List.length_take]
    omega
  ignores_rest {bytes payload consumed} h rest := by
    obtain ⟨hlen, htype, hlength, rfl, rfl⟩ := decode_eq_ok_iff.1 h
    have hheader : MessageHeader.layout.read (bytes.take (4 + (MessageTraits.layout (α := α)).size) ++ rest) =
        MessageHeader.layout.read bytes :=
      read_congr (by rw [size_messageHeader]; omega) (take_kept (by rw [size_messageHeader]; omega) hlen)
    have hpayload : MessageTraits.layout.readAt 4 (bytes.take (4 + (MessageTraits.layout (α := α)).size) ++ rest) =
        (MessageTraits.layout.readAt 4 bytes : α) := readAt_congr hlen (take_kept (by omega) hlen)
    refine decode_eq_ok_iff.2 ⟨?_, by rw [hheader, htype], by rw [hheader, hlength], hpayload.symm, rfl⟩
    rw [List.length_append, List.length_take]
    omega
  too_small payload outSize hout := by
    unfold encode
    dsimp only
    rw [size_messageHeader, if_pos hout]

/-! ### Snapshots -/

section

variable {bytes : List UInt8} {snapshot : DecodedSnapshot} {consumed : Nat}

/-- What `decode_snapshot` accepts. -/
theorem decodeSnapshot_eq_ok_iff :
    decodeSnapshot bytes = .ok snapshot consumed ↔
      4 ≤ bytes.length ∧ consumed = 4 + (MessageHeader.layout.read bytes).length.toNat ∧ consumed ≤ bytes.length ∧
      (MessageHeader.layout.read bytes).type = MessageType.bookSnapshot.code ∧
      16 + (snapshot.header.bidLevelCount.toNat + snapshot.header.askLevelCount.toNat) * 24 =
        (MessageHeader.layout.read bytes).length.toNat ∧
      snapshot.header = BookSnapshotHeader.layout.readAt 4 bytes ∧
      snapshot.bids = PriceLevelRecord.layout.readAll snapshot.header.bidLevelCount.toNat (bytes.drop 20) ∧
      snapshot.asks = PriceLevelRecord.layout.readAll snapshot.header.askLevelCount.toNat
        ((bytes.drop 20).drop (snapshot.header.bidLevelCount.toNat * 24)) := by
  unfold decodeSnapshot
  by_cases hheader : 4 ≤ bytes.length
  · rw [peekHeader_eq hheader]
    dsimp only
    rw [size_messageHeader, size_bookSnapshotHeader, size_priceLevelRecord]
    split_ifs with htype hshort hsmall hcounts
    · simp [htype]
    · simp only [false_iff]
      omega
    · simp only [false_iff]
      omega
    · simp only [false_iff]
      rintro ⟨-, -, -, -, hcounts', hsnap, -⟩
      rw [hsnap] at hcounts'
      exact hcounts hcounts'
    · rw [not_not] at htype hcounts
      constructor
      · intro h
        cases h
        exact ⟨hheader, rfl, by omega, htype, hcounts, rfl, rfl, rfl⟩
      · rintro ⟨-, rfl, -, -, -, hsnap, hbids, hasks⟩
        obtain ⟨header, bids, asks⟩ := snapshot
        dsimp only at hsnap hbids hasks
        subst hsnap
        rw [hbids, hasks]
  · rw [peekHeader_eq_none (by omega)]
    simp only [reduceCtorEq, false_iff]
    omega

theorem decodeSnapshot_counts (h : decodeSnapshot bytes = .ok snapshot consumed) :
    snapshot.bids.length = snapshot.header.bidLevelCount.toNat ∧
      snapshot.asks.length = snapshot.header.askLevelCount.toNat := by
  obtain ⟨-, -, -, -, -, -, hbids, hasks⟩ := decodeSnapshot_eq_ok_iff.1 h
  rw [hbids, hasks, length_readAll, length_readAll]
  exact ⟨rfl, rfl⟩

theorem snapshotBytes_decoded (h : decodeSnapshot bytes = .ok snapshot consumed) :
    snapshotBytes snapshot.bids snapshot.asks = (MessageHeader.layout.read bytes).length.toNat := by
  obtain ⟨-, -, -, -, hcounts, -⟩ := decodeSnapshot_eq_ok_iff.1 h
  obtain ⟨hbids, hasks⟩ := decodeSnapshot_counts h
  unfold snapshotBytes
  rw [hbids, hasks, hcounts]

/-- The body that is written again is the one that was read. -/
theorem snapshotBody_decoded (h : decodeSnapshot bytes = .ok snapshot consumed) :
    snapshotBody snapshot.header.sequence snapshot.header.symbolId snapshot.bids snapshot.asks =
      (bytes.drop 4).take (MessageHeader.layout.read bytes).length.toNat := by
  obtain ⟨hlenBids, hlenAsks⟩ := decodeSnapshot_counts h
  obtain ⟨hheader, rfl, hlen, -, hcounts, hsnap, hbids, hasks⟩ := decodeSnapshot_eq_ok_iff.1 h
  generalize hnb : snapshot.header.bidLevelCount.toNat = nb at *
  generalize hna : snapshot.header.askLevelCount.toNat = na at *
  have hhead : snapshotHeader snapshot.header.sequence snapshot.header.symbolId snapshot.bids snapshot.asks =
      snapshot.header := by
    unfold snapshotHeader
    rw [hlenBids, hlenAsks, ← hnb, ← hna, UInt16.ofNat_toNat, UInt16.ofNat_toNat]
  have hwriteHead : BookSnapshotHeader.layout.write snapshot.header = (bytes.drop 4).take 16 := by
    rw [hsnap]
    exact Exact.write_read _ (by rw [List.length_drop, size_bookSnapshotHeader]; omega)
  have hwriteBids : PriceLevelRecord.layout.writeAll snapshot.bids = (bytes.drop 20).take (nb * 24) := by
    rw [hbids, writeAll_readAll nb (by rw [List.length_drop, size_priceLevelRecord]; omega), size_priceLevelRecord]
  have hwriteAsks : PriceLevelRecord.layout.writeAll snapshot.asks =
      ((bytes.drop 20).drop (nb * 24)).take (na * 24) := by
    rw [hasks, writeAll_readAll na (by rw [List.length_drop, List.length_drop, size_priceLevelRecord]; omega),
      size_priceLevelRecord]
  unfold snapshotBody
  rw [hhead, hwriteHead, hwriteBids, hwriteAsks, ← hcounts, Nat.add_mul, List.take_add, List.take_add,
    List.drop_drop (i := 16)]

end

/-- What holds of snapshots, for all bytes. -/
structure CanonicalSnapshots : Prop where
  consumed_le : ∀ {bytes : List UInt8} {snapshot : DecodedSnapshot} {consumed : Nat},
    decodeSnapshot bytes = .ok snapshot consumed → consumed ≤ bytes.length
  counts : ∀ {bytes : List UInt8} {snapshot : DecodedSnapshot} {consumed : Nat},
    decodeSnapshot bytes = .ok snapshot consumed →
      snapshot.bids.length = snapshot.header.bidLevelCount.toNat ∧
        snapshot.asks.length = snapshot.header.askLevelCount.toNat
  reencode : ∀ {bytes : List UInt8} {snapshot : DecodedSnapshot} {consumed : Nat},
    decodeSnapshot bytes = .ok snapshot consumed → ∀ outSize, consumed ≤ outSize →
      encodeSnapshot outSize snapshot.header.sequence snapshot.header.symbolId snapshot.bids snapshot.asks =
          (bytes.take consumed).set 3 0 ∧
        (encodeSnapshot outSize snapshot.header.sequence snapshot.header.symbolId snapshot.bids snapshot.asks).length =
          consumed
  ignores_rest : ∀ {bytes : List UInt8} {snapshot : DecodedSnapshot} {consumed : Nat},
    decodeSnapshot bytes = .ok snapshot consumed →
      ∀ rest, decodeSnapshot (bytes.take consumed ++ rest) = .ok snapshot consumed
  too_small : ∀ (sequence : UInt64) (symbolId : UInt32) (bids asks : List PriceLevelRecord) (outSize : Nat),
    outSize < 4 + snapshotBytes bids asks → encodeSnapshot outSize sequence symbolId bids asks = []

theorem canonicalSnapshots : CanonicalSnapshots where
  consumed_le h := (decodeSnapshot_eq_ok_iff.1 h).2.2.1
  counts := decodeSnapshot_counts
  reencode {bytes snapshot consumed} h outSize hout := by
    have hbytes := snapshotBytes_decoded h
    have hbody := snapshotBody_decoded h
    obtain ⟨hheader, rfl, hlen, htype, -⟩ := decodeSnapshot_eq_ok_iff.1 h
    have hmax := (MessageHeader.layout.read bytes).length.toNat_lt
    have hframe : MessageHeader.layout.write (snapshotFrame snapshot.bids snapshot.asks) = (bytes.take 4).set 3 0 := by
      refine write_header hheader ?_ htype.symm rfl
      rw [← UInt16.ofNat_toNat (x := (MessageHeader.layout.read bytes).length), ← hbytes]
      rfl
    have hencode : encodeSnapshot outSize snapshot.header.sequence snapshot.header.symbolId snapshot.bids
        snapshot.asks = (bytes.take (4 + (MessageHeader.layout.read bytes).length.toNat)).set 3 0 := by
      rw [encodeSnapshot_eq (by omega) (by omega), hframe, hbody, List.take_add,
        List.set_append_left _ _ (by rw [List.length_take]; omega)]
    refine ⟨hencode, ?_⟩
    rw [hencode, List.length_set, List.length_take]
    omega
  ignores_rest {bytes snapshot consumed} h rest := by
    obtain ⟨hheader, hconsumed, hlen, htype, hcounts, hsnap, hbids, hasks⟩ := decodeSnapshot_eq_ok_iff.1 h
    have hkept : ∀ k ≤ consumed, (bytes.take consumed ++ rest).take k = bytes.take k := fun k hk => take_kept hk hlen
    have hhead : MessageHeader.layout.read (bytes.take consumed ++ rest) = MessageHeader.layout.read bytes :=
      read_congr hheader (hkept _ (by rw [size_messageHeader]; omega))
    have hsnap' : BookSnapshotHeader.layout.readAt 4 (bytes.take consumed ++ rest) =
        BookSnapshotHeader.layout.readAt 4 bytes :=
      readAt_congr (by rw [size_bookSnapshotHeader]; omega) (hkept _ (by rw [size_bookSnapshotHeader]; omega))
    -- the levels of one side are read from `offset` on
    have hlevels : ∀ n offset, offset + n * 24 ≤ consumed →
        PriceLevelRecord.layout.readAll n ((bytes.take consumed ++ rest).drop offset) =
          PriceLevelRecord.layout.readAll n (bytes.drop offset) := by
      intro n offset hoffset
      refine readAll_congr n (by rw [List.length_drop, size_priceLevelRecord]; omega) ?_
      have hdrop := congrArg (List.drop offset) (hkept _ hoffset)
      rwa [List.drop_take, List.drop_take, Nat.add_sub_cancel_left] at hdrop
    refine decodeSnapshot_eq_ok_iff.2 ⟨?_, by rw [hhead]; exact hconsumed, ?_, by rw [hhead]; exact htype,
      by rw [hhead]; exact hcounts, by rw [hsnap']; exact hsnap, ?_, ?_⟩
    · rw [List.length_append, List.length_take]
      omega
    · rw [List.length_append, List.length_take]
      omega
    · rw [hlevels _ _ (by omega)]
      exact hbids
    · rw [List.drop_drop, hlevels _ _ (by omega), ← List.drop_drop]
      exact hasks
  too_small _ _ _ _ _ hout := encodeSnapshot_eq_nil (Or.inl hout)

end Wire

open Wire

/-- The decoders of all messages accept canonical bytes only, and encoding what they have decoded gives these bytes
back, with the reserved byte of the header cleared. -/
theorem decoders_canonical :
    Canonical Wire.NewOrderMessage ∧ Canonical Wire.CancelOrderMessage ∧ Canonical Wire.ReplaceOrderMessage ∧
      Canonical Wire.ExecutionReportMessage ∧ Canonical Wire.TradeMessage ∧ Canonical Wire.BookDeltaMessage ∧
      CanonicalSnapshots :=
  ⟨@canonical _ _ (inferInstanceAs (Layout.Exact Wire.NewOrderMessage.layout)),
    @canonical _ _ (inferInstanceAs (Layout.Exact Wire.CancelOrderMessage.layout)),
    @canonical _ _ (inferInstanceAs (Layout.Exact Wire.ReplaceOrderMessage.layout)),
    @canonical _ _ (inferInstanceAs (Layout.Exact Wire.ExecutionReportMessage.layout)),
    @canonical _ _ (inferInstanceAs (Layout.Exact Wire.TradeMessage.layout)),
    @canonical _ _ (inferInstanceAs (Layout.Exact Wire.BookDeltaMessage.layout)), canonicalSnapshots⟩

end Exchange
