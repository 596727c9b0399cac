import Exchange.Canonical
import Exchange.Publisher

/-!
# Enumerations on the wire

A decoder copies the bytes of an enumeration without a look at them.  A decoded message has valid enumerations if and
only if the bytes at their offsets are codes of declared enumerators; a frame with any other byte there is accepted
all the same.
-/

namespace Exchange

def OrderType.code : OrderType → UInt8
  | limit => 0
  | market => 1

def TimeInForce.code : TimeInForce → UInt8
  | day => 0
  | ioc => 1
  | fok => 2

namespace Wire

open Layout

/-- The byte is the code of a declared enumerator. -/
def Declared {E : Type} (code : E → UInt8) (byte : UInt8) : Prop := ∃ e, code e = byte

/-- An enumeration in a payload: its field, the offset of its byte and what is declared for it. -/
structure EnumField (α : Type) where
  get : α → UInt8
  offset : Nat
  valid : UInt8 → Prop

/-- The enumerations of a payload.  Each is read from its own byte. -/
class EnumFields (α : Type) [MessageTraits α] where
  fields : List (EnumField α)
  get_read : ∀ f ∈ fields, ∀ bs, f.get (MessageTraits.layout.read bs) = uint8.readAt f.offset bs

instance : EnumFields NewOrderMessage where
  fields :=
    [⟨NewOrderMessage.side, 32, Declared Side.code⟩, ⟨NewOrderMessage.orderType, 33, Declared OrderType.code⟩,
      ⟨NewOrderMessage.timeInForce, 34, Declared TimeInForce.code⟩]
  get_read := by simp [MessageTraits.layout, NewOrderMessage.layout]

instance : EnumFields CancelOrderMessage where
  fields := []
  get_read := by simp

instance : EnumFields ReplaceOrderMessage where
  fields := []
  get_read := by simp

instance : EnumFields ExecutionReportMessage where
  fields :=
    [⟨ExecutionReportMessage.execType, 48, Declared ExecType.code⟩,
      ⟨ExecutionReportMessage.rejectReason, 49, Declared RejectReason.code⟩]
  get_read := by simp [MessageTraits.layout, ExecutionReportMessage.layout]

instance : EnumFields TradeMessage where
  fields := [⟨TradeMessage.aggressorSide, 36, Declared Side.code⟩]
  get_read := by simp [MessageTraits.layout, TradeMessage.layout]

instance : EnumFields BookDeltaMessage where
  fields :=
    [⟨BookDeltaMessage.side, 32, Declared Side.code⟩, ⟨BookDeltaMessage.action, 33, Declared DeltaAction.code⟩]
  get_read := by simp [MessageTraits.layout, BookDeltaMessage.layout]

theorem uint8_readAt (offset : Nat) (bs : List UInt8) : uint8.readAt offset bs = bs.getD offset 0 := by
  show UInt8.ofNat (leValue 1 (bs.drop offset)) = bs.getD offset 0
  rw [List.getD_eq_getElem?_getD, ← List.head?_drop]
  cases bs.drop offset with
  | nil => rfl
  | cons b _ =>
    show UInt8.ofNat (b.toNat + 256 * 0) = b
    rw [Nat.mul_zero, Nat.add_zero, UInt8.ofNat_toNat]

section

variable (α : Type) [MessageTraits α] [EnumFields α] (bytes : List UInt8)

/-- If the bytes are decoded, every enumeration of the payload is one of its declared enumerators. -/
def EnumsValid : Prop :=
  ∀ (payload : α) (consumed : Nat), decode α bytes = .ok payload consumed →
    ∀ f ∈ EnumFields.fields (α := α), f.valid (f.get payload)

/-- The bytes begin with a complete frame of this type. -/
def Framed : Prop :=
  4 + (MessageTraits.layout (α := α)).size ≤ bytes.length ∧
    (MessageHeader.layout.read bytes).type = (MessageTraits.type α).code ∧
    (MessageHeader.layout.read bytes).length.toNat = (MessageTraits.layout (α := α)).size

/-- The bytes of the enumerations, after the header of four bytes, are codes of declared enumerators. -/
def EnumBytes : Prop := ∀ f ∈ EnumFields.fields (α := α), f.valid (bytes.getD (4 + f.offset) 0)

end

end Wire

open Wire Layout

/-- For every payload type and every buffer, the decoded enumerations are valid if and only if the buffer does not
begin with a frame of that type or the bytes of the enumerations are declared. -/
theorem decoded_enums_valid_iff (α : Type) [MessageTraits α] [EnumFields α] (bytes : List UInt8) :
    EnumsValid α bytes ↔ (Framed α bytes → EnumBytes α bytes) := by
  have hbyte : ∀ f ∈ EnumFields.fields (α := α),
      f.get (MessageTraits.layout.readAt 4 bytes) = bytes.getD (4 + f.offset) 0 := by
    intro f hf
    rw [readAt, EnumFields.get_read f hf, ← uint8_readAt, readAt, readAt, List.drop_drop]
  constructor
  · intro hvalid hframe f hf
    obtain ⟨hlen, htype, hlength⟩ := hframe
    rw [← hbyte f hf]
    exact hvalid _ _ (decode_eq_ok_iff.2 ⟨hlen, htype, hlength, rfl, rfl⟩) f hf
  · intro hbytes payload consumed hdecode f hf
    obtain ⟨hlen, htype, hlength, rfl, -⟩ := decode_eq_ok_iff.1 hdecode
    rw [hbyte f hf]
    exact hbytes ⟨hlen, htype, hlength⟩ f hf

/-- A new order that is neither a buy nor a sell. -/
def sideTwo : Wire.NewOrderMessage where
  orderId := 1
  price := 100
  quantity := 5
  clientId := 1
  symbolId := 7
  side := 2
  orderType := OrderType.limit.code
  timeInForce := TimeInForce.day.code

/-- A frame with the side 2 is decoded. -/
theorem decode_accepts_side_two :
    decode Wire.NewOrderMessage (encode 64 sideTwo) = .ok sideTwo 44 ∧ ¬ Declared Side.code sideTwo.side := by
  refine ⟨rfl, ?_⟩
  rintro ⟨e, he⟩
  cases e <;> revert he <;> decide

end Exchange
