import Exchange.Codec
import Exchange.Lib.Loop

/-!
# Streams of messages

A reader of a stream peeks at the header, decodes the message with the decoder for its type, and goes on behind it.
Cut anywhere, the stream gives the messages that are wholly there, and then an incomplete one.
-/

namespace Exchange

namespace Wire

open Layout

/-- The arguments of `encode_snapshot`. -/
structure BookSnapshot where
  sequence : UInt64
  symbolId : UInt32
  bids : List PriceLevelRecord
  asks : List PriceLevelRecord
  deriving DecidableEq

inductive Message where
  | newOrder (m : NewOrderMessage)
  | cancelOrder (m : CancelOrderMessage)
  | replaceOrder (m : ReplaceOrderMessage)
  | executionReport (m : ExecutionReportMessage)
  | trade (m : TradeMessage)
  | bookDelta (m : BookDeltaMessage)
  | bookSnapshot (m : BookSnapshot)
  deriving DecidableEq

namespace Message

def encoded (outSize : Nat) : Message → List UInt8
  | newOrder m => encode outSize m
  | cancelOrder m => encode outSize m
  | replaceOrder m => encode outSize m
  | executionReport m => encode outSize m
  | trade m => encode outSize m
  | bookDelta m => encode outSize m
  | bookSnapshot m => encodeSnapshot outSize m.sequence m.symbolId m.bids m.asks

/-- The payload fits the length field of the header; only a snapshot can be too long. -/
def Fits : Message → Prop
  | bookSnapshot m => snapshotBytes m.bids m.asks ≤ 65535
  | _ => True

end Message

/-! ### The reader -/

def DecodedSnapshot.message (s : DecodedSnapshot) : Message :=
  .bookSnapshot { sequence := s.header.sequence, symbolId := s.header.symbolId, bids := s.bids, asks := s.asks }

def decodeAs : MessageType → List UInt8 → DecodeResult Message
  | .newOrder, bytes => (decode NewOrderMessage bytes).map .newOrder
  | .cancelOrder, bytes => (decode CancelOrderMessage bytes).map .cancelOrder
  | .replaceOrder, bytes => (decode ReplaceOrderMessage bytes).map .replaceOrder
  | .executionReport, bytes => (decode ExecutionReportMessage bytes).map .executionReport
  | .trade, bytes => (decode TradeMessage bytes).map .trade
  | .bookDelta, bytes => (decode BookDeltaMessage bytes).map .bookDelta
  | .bookSnapshot, bytes => (decodeSnapshot bytes).map DecodedSnapshot.message

/-- Decodes the first message with the decoder for the type in its header. -/
def decodeNext (bytes : List UInt8) : DecodeResult Message :=
  match peekHeader bytes with
  | none => .incomplete
  | some header =>
    match MessageType.ofCode header.type with
    | none => .unexpectedType
    | some type => decodeAs type bytes

/-- The bytes that are still to be read, and the messages read so far. -/
structure Reader where
  rest : List UInt8
  messages : List Message := []

/-- The reader stops when nothing is left, or at the first message it cannot decode. -/
def readStep (st : Reader) : Iteration Reader :=
  if st.rest = [] then .stop
  else
    match decodeNext st.rest with
    | .ok m consumed => .next { rest := st.rest.drop consumed, messages := st.messages ++ [m] }
    | _ => .stop

def parse (bytes : List UInt8) : Option Reader := runLoop readStep (bytes.length + 1) { rest := bytes }

/-! ### One message -/

namespace Message

def type : Message → MessageType
  | newOrder _ => .newOrder
  | cancelOrder _ => .cancelOrder
  | replaceOrder _ => .replaceOrder
  | executionReport _ => .executionReport
  | trade _ => .trade
  | bookDelta _ => .bookDelta
  | bookSnapshot _ => .bookSnapshot

def header : Message → MessageHeader
  | newOrder _ => headerOf NewOrderMessage
  | cancelOrder _ => headerOf CancelOrderMessage
  | replaceOrder _ => headerOf ReplaceOrderMessage
  | executionReport _ => headerOf ExecutionReportMessage
  | trade _ => headerOf TradeMessage
  | bookDelta _ => headerOf BookDeltaMessage
  | bookSnapshot m => snapshotFrame m.bids m.asks

def body : Message → List UInt8
  | newOrder m => MessageTraits.layout.write m
  | cancelOrder m => MessageTraits.layout.write m
  | replaceOrder m => MessageTraits.layout.write m
  | executionReport m => MessageTraits.layout.write m
  | trade m => MessageTraits.layout.write m
  | bookDelta m => MessageTraits.layout.write m
  | bookSnapshot m => snapshotBody m.sequence m.symbolId m.bids m.asks

theorem ofCode_header (m : Message) : MessageType.ofCode m.header.type = some m.type := by
  cases m <;> rfl

theorem encoded_eq {m : Message} (hm : m.Fits) {outSize : Nat} (hout : 65539 ≤ outSize) :
    m.encoded outSize = MessageHeader.layout.write m.header ++ m.body := by
  have hfixed : ∀ (α : Type) [MessageTraits α], 4 + (MessageTraits.layout (α := α)).size ≤ outSize := by
    intro α _
    have hsize := MessageTraits.size_lt (α := α)
    omega
  cases m with
  | newOrder m => exact encode_eq m (hfixed _)
  | cancelOrder m => exact encode_eq m (hfixed _)
  | replaceOrder m => exact encode_eq m (hfixed _)
  | executionReport m => exact encode_eq m (hfixed _)
  | trade m => exact encode_eq m (hfixed _)
  | bookDelta m => exact encode_eq m (hfixed _)
  | bookSnapshot m =>
    have hbytes : snapshotBytes m.bids m.asks ≤ 65535 := hm
    exact encodeSnapshot_eq hbytes (by omega)

end Message

private theorem decode_message {α : Type} [MessageTraits α] (f : α → Message) (payload : α) (rest : List UInt8) :
    (decode α (MessageHeader.layout.write (headerOf α) ++ (MessageTraits.layout.write payload ++ rest))).map f =
      .ok (f payload) (4 + (MessageTraits.layout.write payload).length) := by
  have hall : ¬ (MessageTraits.layout.write payload ++ rest).length < (MessageTraits.layout (α := α)).size := by
    rw [List.length_append, length_write]
    omega
  rw [decode_framed, if_neg hall, read_write, length_write]
  rfl

private theorem decode_cut {α : Type} [MessageTraits α] (f : α → Message) {payload : α} {bytes : List UInt8}
    (h : bytes.length < (MessageTraits.layout.write payload).length) :
    (decode α (MessageHeader.layout.write (headerOf α) ++ bytes)).map f = .incomplete := by
  rw [length_write] at h
  rw [decode_framed, if_pos h]
  rfl

theorem decodeAs_message {m : Message} (hm : m.Fits) (rest : List UInt8) :
    decodeAs m.type (MessageHeader.layout.write m.header ++ (m.body ++ rest)) = .ok m (4 + m.body.length) := by
  cases m with
  | newOrder m => exact decode_message .newOrder m rest
  | cancelOrder m => exact decode_message .cancelOrder m rest
  | replaceOrder m => exact decode_message .replaceOrder m rest
  | executionReport m => exact decode_message .executionReport m rest
  | trade m => exact decode_message .trade m rest
  | bookDelta m => exact decode_message .bookDelta m rest
  | bookSnapshot m =>
    have hlen : (snapshotBody m.sequence m.symbolId m.bids m.asks).length = snapshotBytes m.bids m.asks :=
      length_snapshotBody
    unfold decodeAs Message.type Message.header Message.body
    dsimp only
    rw [decodeSnapshot_framed hm, hlen]
    rfl

theorem decodeAs_cut {m : Message} (hm : m.Fits) {bytes : List UInt8} (h : bytes.length < m.body.length) :
    decodeAs m.type (MessageHeader.layout.write m.header ++ bytes) = .incomplete := by
  cases m with
  | newOrder m => exact decode_cut .newOrder h
  | cancelOrder m => exact decode_cut .cancelOrder h
  | replaceOrder m => exact decode_cut .replaceOrder h
  | executionReport m => exact decode_cut .executionReport h
  | trade m => exact decode_cut .trade h
  | bookDelta m => exact decode_cut .bookDelta h
  | bookSnapshot m =>
    have hlen : (snapshotBody m.sequence m.symbolId m.bids m.asks).length = snapshotBytes m.bids m.asks :=
      length_snapshotBody
    have hshort : bytes.length < snapshotBytes m.bids m.asks := by
      rw [← hlen]
      exact h
    unfold decodeAs Message.type Message.header
    dsimp only
    rw [decodeSnapshot_incomplete hm hshort]
    rfl

theorem decodeNext_eq {bytes : List UInt8} {m : Message} (h : peekHeader bytes = some m.header) :
    decodeNext bytes = decodeAs m.type bytes := by
  unfold decodeNext
  rw [h]
  dsimp only
  rw [m.ofCode_header]

section

variable {outSize : Nat} {m : Message}

theorem length_encoded (hm : m.Fits) (hout : 65539 ≤ outSize) : (m.encoded outSize).length = 4 + m.body.length := by
  rw [Message.encoded_eq hm hout, List.length_append, length_write, size_messageHeader]

/-- What `decode_snapshot` makes of a snapshot that was encoded. -/
theorem decodeSnapshot_encoded {m : BookSnapshot} (hm : (Message.bookSnapshot m).Fits) (hout : 65539 ≤ outSize) :
    decodeSnapshot ((Message.bookSnapshot m).encoded outSize) =
      .ok ⟨snapshotHeader m.sequence m.symbolId m.bids m.asks, m.bids, m.asks⟩
        (4 + snapshotBytes m.bids m.asks) := by
  have hbytes : snapshotBytes m.bids m.asks ≤ 65535 := hm
  have hframed : decodeSnapshot (MessageHeader.layout.write (snapshotFrame m.bids m.asks) ++
      (snapshotBody m.sequence m.symbolId m.bids m.asks ++ [])) = _ := decodeSnapshot_framed hbytes []
  rw [List.append_nil] at hframed
  rw [Message.encoded_eq hm hout]
  exact hframed

/-- A message that is wholly there is decoded as what was encoded. -/
theorem decodeNext_encoded (hm : m.Fits) (hout : 65539 ≤ outSize) (rest : List UInt8) :
    decodeNext (m.encoded outSize ++ rest) = .ok m (m.encoded outSize).length := by
  have hbytes : m.encoded outSize ++ rest = MessageHeader.layout.write m.header ++ (m.body ++ rest) := by
    rw [Message.encoded_eq hm hout, List.append_assoc]
  rw [length_encoded hm hout, hbytes, decodeNext_eq (peekHeader_write _ _), decodeAs_message hm]

/-- A message that is cut off is incomplete. -/
theorem decodeNext_take (hm : m.Fits) (hout : 65539 ≤ outSize) {n : Nat} (hn : n < (m.encoded outSize).length) :
    decodeNext ((m.encoded outSize).take n) = .incomplete := by
  have hlen := length_encoded hm hout
  by_cases hheader : n < 4
  · -- not even the header is there
    have hshort : ((m.encoded outSize).take n).length < 4 := by
      rw [List.length_take]
      omega
    rw [decodeNext, peekHeader_eq_none hshort]
  · have hbytes : (m.encoded outSize).take n = MessageHeader.layout.write m.header ++ m.body.take (n - 4) := by
      have hwhole : (MessageHeader.layout.write m.header).take n = MessageHeader.layout.write m.header :=
        List.take_of_length_le (by rw [length_write, size_messageHeader]; omega)
      rw [Message.encoded_eq hm hout, List.take_append, hwhole, length_write, size_messageHeader]
    have hbody : (m.body.take (n - 4)).length < m.body.length := by
      rw [List.length_take]
      omega
    rw [hbytes, decodeNext_eq (peekHeader_write _ _), decodeAs_cut hm hbody]

end

/-! ### The whole stream -/

/-- The messages, encoded one after the other. -/
def stream (outSize : Nat) (msgs : List Message) : List UInt8 := msgs.flatMap (Message.encoded outSize)

theorem stream_cons (outSize : Nat) (m : Message) (msgs : List Message) :
    stream outSize (m :: msgs) = m.encoded outSize ++ stream outSize msgs := List.flatMap_cons

section

variable {outSize : Nat}

theorem readStep_encoded {m : Message} (hm : m.Fits) (hout : 65539 ≤ outSize) (rest : List UInt8)
    (acc : List Message) :
    readStep { rest := m.encoded outSize ++ rest, messages := acc } =
      .next { rest := rest, messages := acc ++ [m] } := by
  have hlen := length_encoded hm hout
  have hne : m.encoded outSize ++ rest ≠ [] := by
    intro hnil
    have hzero := congrArg List.length hnil
    rw [List.length_append, List.length_nil] at hzero
    omega
  unfold readStep
  rw [if_neg hne, decodeNext_encoded hm hout]
  simp

theorem readStep_incomplete {st : Reader} (h : decodeNext st.rest = .incomplete) : readStep st = .stop := by
  unfold readStep
  rw [h]
  split_ifs <;> rfl

/-- The reader passes over whole messages, and stops in front of an incomplete one. -/
theorem runLoop_readStep (hout : 65539 ≤ outSize) {rest : List UInt8} (hrest : decodeNext rest = .incomplete)
    (msgs : List Message) (hfits : ∀ m ∈ msgs, m.Fits) (acc : List Message) (fuel : Nat) (hfuel : msgs.length < fuel) :
    runLoop readStep fuel { rest := stream outSize msgs ++ rest, messages := acc } =
      some { rest := rest, messages := acc ++ msgs } := by
  induction msgs generalizing acc fuel with
  | nil =>
    obtain ⟨fuel, rfl⟩ : ∃ k, fuel = k + 1 := ⟨fuel - 1, by omega⟩
    rw [runLoop_stop (readStep_incomplete hrest), List.append_nil]
    rfl
  | cons m msgs ih =>
    rw [List.length_cons] at hfuel
    obtain ⟨fuel, rfl⟩ : ∃ k, fuel = k + 1 := ⟨fuel - 1, by omega⟩
    have hstep := readStep_encoded (hfits m (List.mem_cons_self ..)) hout (stream outSize msgs ++ rest) acc
    have hrun := ih (fun x hx => hfits x (List.mem_cons_of_mem _ hx)) (acc ++ [m]) fuel (by omega)
    rw [stream_cons, List.append_assoc, runLoop_next hstep, hrun, List.append_assoc]
    rfl

theorem length_le_stream (hout : 65539 ≤ outSize) (msgs : List Message) (hfits : ∀ m ∈ msgs, m.Fits) :
    msgs.length ≤ (stream outSize msgs).length := by
  induction msgs with
  | nil => exact Nat.zero_le _
  | cons m msgs ih =>
    have hlen := length_encoded (hfits m (List.mem_cons_self ..)) hout
    have htail := ih fun x hx => hfits x (List.mem_cons_of_mem _ hx)
    rw [stream_cons, List.length_append, List.length_cons]
    omega

theorem parse_stream (hout : 65539 ≤ outSize) {rest : List UInt8} (hrest : decodeNext rest = .incomplete)
    {msgs : List Message} (hfits : ∀ m ∈ msgs, m.Fits) :
    parse (stream outSize msgs ++ rest) = some { rest := rest, messages := msgs } := by
  have hlen := length_le_stream hout msgs hfits
  have hfuel : msgs.length < (stream outSize msgs ++ rest).length + 1 := by
    rw [List.length_append]
    omega
  exact runLoop_readStep hout hrest msgs hfits [] _ hfuel

/-- Where the first `n` bytes end: behind the `k` messages that lie wholly within them, or in the message after
those. -/
theorem exists_cut (hout : 65539 ≤ outSize) (msgs : List Message) (hfits : ∀ m ∈ msgs, m.Fits) (n : Nat)
    (hn : n ≤ (stream outSize msgs).length) :
    ∃ k rest, k ≤ msgs.length ∧
      (∀ i < msgs.length, i < k ↔ (stream outSize (msgs.take (i + 1))).length ≤ n) ∧
      (stream outSize msgs).take n = stream outSize (msgs.take k) ++ rest ∧ decodeNext rest = .incomplete := by
  induction msgs generalizing n with
  | nil => exact ⟨0, [], Nat.le_refl _, by simp, by simp [stream], rfl⟩
  | cons m msgs ih =>
    have hm := hfits m (List.mem_cons_self ..)
    have htake : ∀ i, (stream outSize ((m :: msgs).take (i + 1))).length =
        (m.encoded outSize).length + (stream outSize (msgs.take i)).length := by
      intro i
      rw [List.take_succ_cons, stream_cons, List.length_append]
    rw [stream_cons, List.length_append] at hn
    by_cases hcut : n < (m.encoded outSize).length
    · refine ⟨0, (m.encoded outSize).take n, Nat.zero_le _, ?_, ?_, decodeNext_take hm hout hcut⟩
      · intro i _
        rw [htake]
        omega
      · rw [stream_cons, List.take_append_of_le_length (Nat.le_of_lt hcut)]
        rfl
    · obtain ⟨k, rest, hk, hwhole, hsplit, hrest⟩ :=
        ih (fun x hx => hfits x (List.mem_cons_of_mem _ hx)) (n - (m.encoded outSize).length) (by omega)
      refine ⟨k + 1, rest, ?_, ?_, ?_, hrest⟩
      · rw [List.length_cons]
        omega
      · intro i hi
        rw [htake]
        rcases i with - | i
        · simp [stream]
          omega
        · rw [List.length_cons] at hi
          have hwhole' := hwhole i (by omega)
          omega
      · have hfirst : (m.encoded outSize).take n = m.encoded outSize := List.take_of_length_le (by omega)
        rw [stream_cons, List.take_append, hfirst, hsplit, List.take_succ_cons, stream_cons, List.append_assoc]

end

/-- However the stream of some encoded messages is cut, reading the first `n` bytes gives exactly the messages that
lie wholly within them, in order, and then nothing is left or an incomplete message. -/
theorem parse_cut_stream (outSize : Nat) (hout : 65539 ≤ outSize) (msgs : List Message) (hfits : ∀ m ∈ msgs, m.Fits)
    (n : Nat) (hn : n ≤ (stream outSize msgs).length) :
    ∃ k rest, k ≤ msgs.length ∧
      (∀ i < msgs.length, i < k ↔ (stream outSize (msgs.take (i + 1))).length ≤ n) ∧
      parse ((stream outSize msgs).take n) = some { rest := rest, messages := msgs.take k } ∧
      n = (stream outSize (msgs.take k)).length + rest.length ∧
      (rest = [] ∨ decodeNext rest = .incomplete) := by
  obtain ⟨k, rest, hk, hwhole, hsplit, hrest⟩ := exists_cut hout msgs hfits n hn
  refine ⟨k, rest, hk, hwhole, ?_, ?_, Or.inr hrest⟩
  · rw [hsplit]
    exact parse_stream hout hrest fun m hm => hfits m (List.mem_of_mem_take hm)
  · have hlen := congrArg List.length hsplit
    rw [List.length_take, List.length_append] at hlen
    omega

/-- A cancel request and an empty snapshot, cut in the header of the snapshot. -/
theorem parse_cut_stream_snapshot :
    ∃ k rest, k ≤ 2 ∧
      (∀ i < 2, i < k ↔ (stream 65539 ([.cancelOrder ⟨1, 2, 3⟩, .bookSnapshot ⟨1, 3, [], []⟩].take (i + 1))).length
        ≤ 22) ∧
      parse ((stream 65539 [.cancelOrder ⟨1, 2, 3⟩, .bookSnapshot ⟨1, 3, [], []⟩]).take 22) =
        some { rest := rest, messages := [.cancelOrder ⟨1, 2, 3⟩, .bookSnapshot ⟨1, 3, [], []⟩].take k } ∧
      22 = (stream 65539 ([.cancelOrder ⟨1, 2, 3⟩, .bookSnapshot ⟨1, 3, [], []⟩].take k)).length + rest.length ∧
      (rest = [] ∨ decodeNext rest = .incomplete) :=
  parse_cut_stream 65539 (by decide) [.cancelOrder ⟨1, 2, 3⟩, .bookSnapshot ⟨1, 3, [], []⟩]
    (by simp [Message.Fits, snapshotBytes]) 22 (by decide)

end Wire

end Exchange
