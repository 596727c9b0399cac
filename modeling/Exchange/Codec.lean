import Exchange.Lib.Layout

/-!
# The wire format

The structs of `jane/protocol/messages.hpp` as they lie in memory, and the codec of `jane/protocol/codec.hpp`.  The
layouts are those the `static_assert`s fix: little-endian fields in the order of their declaration, without padding.
An enumeration is its underlying byte here, which may have any value.  A function that writes into a buffer takes the
size of the buffer and returns the bytes it has written, none if it returns 0.
-/

namespace Exchange

inductive MessageType where
  | newOrder
  | cancelOrder
  | replaceOrder
  | executionReport
  | trade
  | bookDelta
  | bookSnapshot
  deriving DecidableEq

def MessageType.code : MessageType → UInt8
  | newOrder => 1
  | cancelOrder => 2
  | replaceOrder => 3
  | executionReport => 4
  | trade => 5
  | bookDelta => 6
  | bookSnapshot => 7

def MessageType.ofCode (code : UInt8) : Option MessageType :=
  [newOrder, cancelOrder, replaceOrder, executionReport, trade, bookDelta, bookSnapshot].find? fun t => t.code == code

namespace Wire

open Layout

/-! ### Messages -/

structure MessageHeader where
  length : UInt16
  type : UInt8
  reserved : UInt8 := 0
  deriving DecidableEq

def MessageHeader.layout : Layout MessageHeader where
  size := 4
  write m := uint16.write m.length ++ uint8.write m.type ++ uint8.write m.reserved
  read bs :=
    { length := uint16.readAt 0 bs
      type := uint8.readAt 2 bs
      reserved := uint8.readAt 3 bs }
  length_write m := by simp
  read_write m rest := by simp

structure NewOrderMessage where
  orderId : UInt64
  price : Int64
  quantity : Int64
  clientId : UInt32
  symbolId : UInt32
  side : UInt8
  orderType : UInt8
  timeInForce : UInt8
  reserved : Vector UInt8 5 := Vector.replicate 5 0
  deriving DecidableEq

def NewOrderMessage.layout : Layout NewOrderMessage where
  size := 40
  write m := uint64.write m.orderId ++ int64.write m.price ++ int64.write m.quantity ++ uint32.write m.clientId ++
    uint32.write m.symbolId ++ uint8.write m.side ++ uint8.write m.orderType ++ uint8.write m.timeInForce ++
    (bytes 5).write m.reserved
  read bs :=
    { orderId := uint64.readAt 0 bs
      price := int64.readAt 8 bs
      quantity := int64.readAt 16 bs
      clientId := uint32.readAt 24 bs
      symbolId := uint32.readAt 28 bs
      side := uint8.readAt 32 bs
      orderType := uint8.readAt 33 bs
      timeInForce := uint8.readAt 34 bs
      reserved := (bytes 5).readAt 35 bs }
  length_write m := by simp
  read_write m rest := by simp

structure CancelOrderMessage where
  orderId : UInt64
  clientId : UInt32
  symbolId : UInt32
  deriving DecidableEq

def CancelOrderMessage.layout : Layout CancelOrderMessage where
  size := 16
  write m := uint64.write m.orderId ++ uint32.write m.clientId ++ uint32.write m.symbolId
  read bs :=
    { orderId := uint64.readAt 0 bs
      clientId := uint32.readAt 8 bs
      symbolId := uint32.readAt 12 bs }
  length_write m := by simp
  read_write m rest := by simp

structure ReplaceOrderMessage where
  orderId : UInt64
  newPrice : Int64
  newQuantity : Int64
  clientId : UInt32
  symbolId : UInt32
  deriving DecidableEq

def ReplaceOrderMessage.layout : Layout ReplaceOrderMessage where
  size := 32
  write m := uint64.write m.orderId ++ int64.write m.newPrice ++ int64.write m.newQuantity ++
    uint32.write m.clientId ++ uint32.write m.symbolId
  read bs :=
    { orderId := uint64.readAt 0 bs
      newPrice := int64.readAt 8 bs
      newQuantity := int64.readAt 16 bs
      clientId := uint32.readAt 24 bs
      symbolId := uint32.readAt 28 bs }
  length_write m := by simp
  read_write m rest := by simp

structure ExecutionReportMessage where
  orderId : UInt64
  matchId : UInt64
  price : Int64
  lastQuantity : Int64
  leavesQuantity : Int64
  clientId : UInt32
  symbolId : UInt32
  execType : UInt8
  rejectReason : UInt8
  reserved : Vector UInt8 6 := Vector.replicate 6 0
  deriving DecidableEq

def ExecutionReportMessage.layout : Layout ExecutionReportMessage where
  size := 56
  write m := uint64.write m.orderId ++ uint64.write m.matchId ++ int64.write m.price ++
    int64.write m.lastQuantity ++ int64.write m.leavesQuantity ++ uint32.write m.clientId ++
    uint32.write m.symbolId ++ uint8.write m.execType ++ uint8.write m.rejectReason ++ (bytes 6).write m.reserved
  read bs :=
    { orderId := uint64.readAt 0 bs
      matchId := uint64.readAt 8 bs
      price := int64.readAt 16 bs
      lastQuantity := int64.readAt 24 bs
      leavesQuantity := int64.readAt 32 bs
      clientId := uint32.readAt 40 bs
      symbolId := uint32.readAt 44 bs
      execType := uint8.readAt 48 bs
      rejectReason := uint8.readAt 49 bs
      reserved := (bytes 6).readAt 50 bs }
  length_write m := by simp
  read_write m rest := by simp

structure TradeMessage where
  sequence : UInt64
  matchId : UInt64
  price : Int64
  quantity : Int64
  symbolId : UInt32
  aggressorSide : UInt8
  reserved : Vector UInt8 3 := Vector.replicate 3 0
  deriving DecidableEq

def TradeMessage.layout : Layout TradeMessage where
  size := 40
  write m := uint64.write m.sequence ++ uint64.write m.matchId ++ int64.write m.price ++ int64.write m.quantity ++
    uint32.write m.symbolId ++ uint8.write m.aggressorSide ++ (bytes 3).write m.reserved
  read bs :=
    { sequence := uint64.readAt 0 bs
      matchId := uint64.readAt 8 bs
      price := int64.readAt 16 bs
      quantity := int64.readAt 24 bs
      symbolId := uint32.readAt 32 bs
      aggressorSide := uint8.readAt 36 bs
      reserved := (bytes 3).readAt 37 bs }
  length_write m := by simp
  read_write m rest := by simp

structure BookDeltaMessage where
  sequence : UInt64
  price : Int64
  aggregateQuantity : Int64
  symbolId : UInt32
  orderCount : UInt32
  side : UInt8
  action : UInt8
  reserved : Vector UInt8 6 := Vector.replicate 6 0
  deriving DecidableEq

def BookDeltaMessage.layout : Layout BookDeltaMessage where
  size := 40
  write m := uint64.write m.sequence ++ int64.write m.price ++ int64.write m.aggregateQuantity ++
    uint32.write m.symbolId ++ uint32.write m.orderCount ++ uint8.write m.side ++ uint8.write m.action ++
    (bytes 6).write m.reserved
  read bs :=
    { sequence := uint64.readAt 0 bs
      price := int64.readAt 8 bs
      aggregateQuantity := int64.readAt 16 bs
      symbolId := uint32.readAt 24 bs
      orderCount := uint32.readAt 28 bs
      side := uint8.readAt 32 bs
      action := uint8.readAt 33 bs
      reserved := (bytes 6).readAt 34 bs }
  length_write m := by simp
  read_write m rest := by simp

structure BookSnapshotHeader where
  sequence : UInt64
  symbolId : UInt32
  bidLevelCount : UInt16
  askLevelCount : UInt16
  deriving DecidableEq

def BookSnapshotHeader.layout : Layout BookSnapshotHeader where
  size := 16
  write m := uint64.write m.sequence ++ uint32.write m.symbolId ++ uint16.write m.bidLevelCount ++
    uint16.write m.askLevelCount
  read bs :=
    { sequence := uint64.readAt 0 bs
      symbolId := uint32.readAt 8 bs
      bidLevelCount := uint16.readAt 12 bs
      askLevelCount := uint16.readAt 14 bs }
  length_write m := by simp
  read_write m rest := by simp

structure PriceLevelRecord where
  price : Int64
  aggregateQuantity : Int64
  orderCount : UInt32
  reserved : Vector UInt8 4 := Vector.replicate 4 0
  deriving DecidableEq

def PriceLevelRecord.layout : Layout PriceLevelRecord where
  size := 24
  write m := int64.write m.price ++ int64.write m.aggregateQuantity ++ uint32.write m.orderCount ++
    (bytes 4).write m.reserved
  read bs :=
    { price := int64.readAt 0 bs
      aggregateQuantity := int64.readAt 8 bs
      orderCount := uint32.readAt 16 bs
      reserved := (bytes 4).readAt 20 bs }
  length_write m := by simp
  read_write m rest := by simp

/-- The wire type and the layout of a payload of fixed size, which fits the length field of the header. -/
class MessageTraits (α : Type) where
  type : MessageType
  layout : Layout α
  size_lt : layout.size < 65536

instance : MessageTraits NewOrderMessage := ⟨.newOrder, NewOrderMessage.layout, by decide⟩

instance : MessageTraits CancelOrderMessage := ⟨.cancelOrder, CancelOrderMessage.layout, by decide⟩

instance : MessageTraits ReplaceOrderMessage := ⟨.replaceOrder, ReplaceOrderMessage.layout, by decide⟩

instance : MessageTraits ExecutionReportMessage := ⟨.executionReport, ExecutionReportMessage.layout, by decide⟩

instance : MessageTraits TradeMessage := ⟨.trade, TradeMessage.layout, by decide⟩

instance : MessageTraits BookDeltaMessage := ⟨.bookDelta, BookDeltaMessage.layout, by decide⟩

/-! ### Fixed-size messages -/

/-- The outcomes of decoding; only a decoded message has a payload and a length. -/
inductive DecodeResult (α : Type) where
  | ok (payload : α) (consumed : Nat)
  | incomplete
  | unexpectedType
  | malformed

def DecodeResult.map {α β : Type} (f : α → β) : DecodeResult α → DecodeResult β
  | .ok payload consumed => .ok (f payload) consumed
  | .incomplete => .incomplete
  | .unexpectedType => .unexpectedType
  | .malformed => .malformed

def peekHeader (bytes : List UInt8) : Option MessageHeader :=
  if bytes.length < MessageHeader.layout.size then none else some (MessageHeader.layout.read bytes)

section

variable {α : Type} [MessageTraits α]

def encode (outSize : Nat) (payload : α) : List UInt8 :=
  let layout := MessageTraits.layout (α := α)
  let total := MessageHeader.layout.size + layout.size
  if outSize < total then []
  else
    let header : MessageHeader :=
      { length := UInt16.ofNat layout.size
        type := (MessageTraits.type α).code }
    MessageHeader.layout.write header ++ layout.write payload

def decode (α : Type) [MessageTraits α] (bytes : List UInt8) : DecodeResult α :=
  let layout := MessageTraits.layout (α := α)
  match peekHeader bytes with
  | none => .incomplete
  | some header =>
    if header.type ≠ (MessageTraits.type α).code then .unexpectedType
    else if header.length.toNat ≠ layout.size then .malformed
    else
      let total := MessageHeader.layout.size + header.length.toNat
      if bytes.length < total then .incomplete
      else .ok (layout.readAt MessageHeader.layout.size bytes) total

end

/-! ### Snapshots -/

def encodeSnapshot (outSize : Nat) (sequence : UInt64) (symbolId : UInt32) (bids asks : List PriceLevelRecord) :
    List UInt8 :=
  let payloadBytes := BookSnapshotHeader.layout.size + (bids.length + asks.length) * PriceLevelRecord.layout.size
  let total := MessageHeader.layout.size + payloadBytes
  if outSize < total ∨ bids.length > 0xFFFF ∨ asks.length > 0xFFFF ∨ payloadBytes > 0xFFFF then []
  else
    let header : MessageHeader :=
      { length := UInt16.ofNat payloadBytes
        type := MessageType.bookSnapshot.code }
    let snapHeader : BookSnapshotHeader :=
      { sequence := sequence
        symbolId := symbolId
        bidLevelCount := UInt16.ofNat bids.length
        askLevelCount := UInt16.ofNat asks.length }
    MessageHeader.layout.write header ++ (BookSnapshotHeader.layout.write snapHeader ++
      (PriceLevelRecord.layout.writeAll bids ++ PriceLevelRecord.layout.writeAll asks))

/-- What `decode_snapshot` returns on success. -/
structure DecodedSnapshot where
  header : BookSnapshotHeader
  bids : List PriceLevelRecord
  asks : List PriceLevelRecord
  deriving DecidableEq

def decodeSnapshot (bytes : List UInt8) : DecodeResult DecodedSnapshot :=
  match peekHeader bytes with
  | none => .incomplete
  | some header =>
    let total := MessageHeader.layout.size + header.length.toNat
    if header.type ≠ MessageType.bookSnapshot.code then .unexpectedType
    else if bytes.length < total then .incomplete
    else if header.length.toNat < BookSnapshotHeader.layout.size then .malformed
    else
      let snapHeader := BookSnapshotHeader.layout.readAt MessageHeader.layout.size bytes
      let bidCount := snapHeader.bidLevelCount.toNat
      let askCount := snapHeader.askLevelCount.toNat
      let levelBytes := (bidCount + askCount) * PriceLevelRecord.layout.size
      if BookSnapshotHeader.layout.size + levelBytes ≠ header.length.toNat then .malformed
      else
        let cursor := bytes.drop (MessageHeader.layout.size + BookSnapshotHeader.layout.size)
        let bids := PriceLevelRecord.layout.readAll bidCount cursor
        let cursor := cursor.drop (bidCount * PriceLevelRecord.layout.size)
        let asks := PriceLevelRecord.layout.readAll askCount cursor
        .ok { header := snapHeader, bids := bids, asks := asks } total

/-! ### Framed messages

A message on the wire is a header and a body.  All decoders look at the header first, and find that the message is
incomplete if the body is not all there.
-/

@[simp] theorem size_messageHeader : MessageHeader.layout.size = 4 := by decide

@[simp] theorem size_bookSnapshotHeader : BookSnapshotHeader.layout.size = 16 := by decide

@[simp] theorem size_priceLevelRecord : PriceLevelRecord.layout.size = 24 := by decide

theorem peekHeader_write (header : MessageHeader) (body : List UInt8) :
    peekHeader (MessageHeader.layout.write header ++ body) = some header := by
  have hlen : ¬ (MessageHeader.layout.write header ++ body).length < MessageHeader.layout.size := by
    rw [List.length_append, length_write]
    omega
  rw [peekHeader, if_neg hlen, read_write]

theorem peekHeader_eq_none {bytes : List UInt8} (h : bytes.length < 4) : peekHeader bytes = none := by
  rw [peekHeader, size_messageHeader, if_pos h]

section

variable {α : Type} [MessageTraits α]

/-- The header `encode` writes. -/
def headerOf (α : Type) [MessageTraits α] : MessageHeader where
  length := UInt16.ofNat (MessageTraits.layout (α := α)).size
  type := (MessageTraits.type α).code

theorem encode_eq {outSize : Nat} (payload : α) (h : 4 + (MessageTraits.layout (α := α)).size ≤ outSize) :
    encode outSize payload = MessageHeader.layout.write (headerOf α) ++ MessageTraits.layout.write payload := by
  have hfits : ¬ outSize < MessageHeader.layout.size + (MessageTraits.layout (α := α)).size := by
    rw [size_messageHeader]
    omega
  unfold encode
  dsimp only
  rw [if_neg hfits]
  rfl

theorem decode_framed (body : List UInt8) :
    decode α (MessageHeader.layout.write (headerOf α) ++ body) =
      if body.length < (MessageTraits.layout (α := α)).size then .incomplete
      else .ok (MessageTraits.layout.read body) (4 + (MessageTraits.layout (α := α)).size) := by
  have hlength : (headerOf α).length.toNat = (MessageTraits.layout (α := α)).size :=
    UInt16.toNat_ofNat_of_lt' MessageTraits.size_lt
  have htype : ¬ (headerOf α).type ≠ (MessageTraits.type α).code := not_not.2 rfl
  have hbytes : (MessageHeader.layout.write (headerOf α) ++ body).length = 4 + body.length := by
    rw [List.length_append, length_write, size_messageHeader]
  have hread : (MessageTraits.layout (α := α)).readAt 4 (MessageHeader.layout.write (headerOf α) ++ body) =
      MessageTraits.layout.read body := by
    rw [readAt, List.drop_left' (by simp)]
  unfold decode
  rw [peekHeader_write]
  dsimp only
  rw [if_neg htype, hlength, if_neg (not_not.2 rfl), hbytes, size_messageHeader, hread]
  simp only [Nat.add_lt_add_iff_left]

end

/-- The header `encode_snapshot` writes before the levels. -/
def snapshotHeader (sequence : UInt64) (symbolId : UInt32) (bids asks : List PriceLevelRecord) :
    BookSnapshotHeader where
  sequence := sequence
  symbolId := symbolId
  bidLevelCount := UInt16.ofNat bids.length
  askLevelCount := UInt16.ofNat asks.length

/-- The length of the body of a snapshot. -/
def snapshotBytes (bids asks : List PriceLevelRecord) : Nat := 16 + (bids.length + asks.length) * 24

def snapshotFrame (bids asks : List PriceLevelRecord) : MessageHeader where
  length := UInt16.ofNat (snapshotBytes bids asks)
  type := MessageType.bookSnapshot.code

def snapshotBody (sequence : UInt64) (symbolId : UInt32) (bids asks : List PriceLevelRecord) : List UInt8 :=
  BookSnapshotHeader.layout.write (snapshotHeader sequence symbolId bids asks) ++
    (PriceLevelRecord.layout.writeAll bids ++ PriceLevelRecord.layout.writeAll asks)

section

variable {sequence : UInt64} {symbolId : UInt32} {bids asks : List PriceLevelRecord}

@[simp] theorem length_snapshotBody : (snapshotBody sequence symbolId bids asks).length = snapshotBytes bids asks := by
  unfold snapshotBody snapshotBytes
  simp only [List.length_append, length_write, length_writeAll, size_bookSnapshotHeader, size_priceLevelRecord]
  omega

theorem encodeSnapshot_eq {outSize : Nat} (hbytes : snapshotBytes bids asks ≤ 65535)
    (hout : 4 + snapshotBytes bids asks ≤ outSize) :
    encodeSnapshot outSize sequence symbolId bids asks =
      MessageHeader.layout.write (snapshotFrame bids asks) ++ snapshotBody sequence symbolId bids asks := by
  unfold snapshotBytes at hbytes hout
  unfold encodeSnapshot
  simp only [size_messageHeader, size_bookSnapshotHeader, size_priceLevelRecord]
  rw [if_neg (by omega)]
  rfl

theorem encodeSnapshot_ne_nil {outSize : Nat} (hbytes : snapshotBytes bids asks ≤ 65535)
    (hout : 4 + snapshotBytes bids asks ≤ outSize) : encodeSnapshot outSize sequence symbolId bids asks ≠ [] := by
  rw [encodeSnapshot_eq hbytes hout]
  intro hnil
  have hlen := congrArg List.length hnil
  rw [List.length_append, length_write, size_messageHeader, List.length_nil] at hlen
  omega

/-- A snapshot is not encoded if it is too long for the buffer or for the length field of the header. -/
theorem encodeSnapshot_eq_nil {outSize : Nat}
    (h : outSize < 4 + snapshotBytes bids asks ∨ 65535 < snapshotBytes bids asks) :
    encodeSnapshot outSize sequence symbolId bids asks = [] := by
  unfold snapshotBytes at h
  unfold encodeSnapshot
  simp only [size_messageHeader, size_bookSnapshotHeader, size_priceLevelRecord]
  rw [if_pos (by omega)]

private theorem snapshotFrame_type : ¬ (snapshotFrame bids asks).type ≠ MessageType.bookSnapshot.code := not_not.2 rfl

private theorem snapshotFrame_length (h : snapshotBytes bids asks ≤ 65535) :
    (snapshotFrame bids asks).length.toNat = snapshotBytes bids asks :=
  UInt16.toNat_ofNat_of_lt' (Nat.lt_succ_of_le h)

theorem decodeSnapshot_incomplete {body : List UInt8} (hbytes : snapshotBytes bids asks ≤ 65535)
    (hbody : body.length < snapshotBytes bids asks) :
    decodeSnapshot (MessageHeader.layout.write (snapshotFrame bids asks) ++ body) = .incomplete := by
  have hshort : (MessageHeader.layout.write (snapshotFrame bids asks) ++ body).length <
      MessageHeader.layout.size + (snapshotFrame bids asks).length.toNat := by
    rw [snapshotFrame_length hbytes, List.length_append, length_write]
    omega
  unfold decodeSnapshot
  rw [peekHeader_write]
  dsimp only
  rw [if_neg snapshotFrame_type, if_pos hshort]

theorem decodeSnapshot_framed (hbytes : snapshotBytes bids asks ≤ 65535) (rest : List UInt8) :
    decodeSnapshot (MessageHeader.layout.write (snapshotFrame bids asks) ++
      (snapshotBody sequence symbolId bids asks ++ rest)) =
      .ok ⟨snapshotHeader sequence symbolId bids asks, bids, asks⟩ (4 + snapshotBytes bids asks) := by
  have hframe := snapshotFrame_length hbytes
  have hcounts : 16 + (bids.length + asks.length) * 24 ≤ 65535 := hbytes
  have hbids : (snapshotHeader sequence symbolId bids asks).bidLevelCount.toNat = bids.length :=
    UInt16.toNat_ofNat_of_lt' (show bids.length < 65536 by omega)
  have hasks : (snapshotHeader sequence symbolId bids asks).askLevelCount.toNat = asks.length :=
    UInt16.toNat_ofNat_of_lt' (show asks.length < 65536 by omega)
  generalize hbs : MessageHeader.layout.write (snapshotFrame bids asks) ++
    (snapshotBody sequence symbolId bids asks ++ rest) = bs
  have hpeek : peekHeader bs = some (snapshotFrame bids asks) := by rw [← hbs, peekHeader_write]
  have hlen : bs.length = 4 + (snapshotBytes bids asks + rest.length) := by
    rw [← hbs, List.length_append, length_write, size_messageHeader, List.length_append, length_snapshotBody]
  have hheader : BookSnapshotHeader.layout.readAt 4 bs = snapshotHeader sequence symbolId bids asks := by
    rw [← hbs, readAt, List.drop_left' (by simp), snapshotBody, List.append_assoc, read_write]
  have hcursor : bs.drop (4 + 16) =
      PriceLevelRecord.layout.writeAll bids ++ (PriceLevelRecord.layout.writeAll asks ++ rest) := by
    rw [← hbs, ← List.drop_drop, List.drop_left' (by simp), snapshotBody, List.append_assoc,
      List.drop_left' (by simp), List.append_assoc]
  have hnext : (PriceLevelRecord.layout.writeAll bids ++ (PriceLevelRecord.layout.writeAll asks ++ rest)).drop
      (bids.length * 24) = PriceLevelRecord.layout.writeAll asks ++ rest := List.drop_left' (by simp)
  have htotal : ¬ bs.length < 4 + snapshotBytes bids asks := by omega
  have hmin : ¬ snapshotBytes bids asks < 16 := by unfold snapshotBytes; omega
  have hsizes : ¬ 16 + (bids.length + asks.length) * 24 ≠ snapshotBytes bids asks := not_not.2 rfl
  unfold decodeSnapshot
  rw [hpeek]
  dsimp only
  rw [if_neg snapshotFrame_type, hframe, size_messageHeader, size_bookSnapshotHeader, size_priceLevelRecord,
    if_neg htotal, if_neg hmin, hheader, hbids, hasks, if_neg hsizes, hcursor, hnext, readAll_writeAll,
    readAll_writeAll]

end

end Wire

end Exchange
