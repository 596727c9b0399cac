import Mathlib.Algebra.Group.Nat.Defs
import Mathlib.Data.List.Basic

/-!
# Memory layouts

A `Layout` says how the values of a type are laid out in a fixed number of bytes.  It carries the proof that reading
gives back what was written, whatever follows in memory, so that layouts can be put together: fields one after the
other make the layout of a record, and records one after the other that of an array.
-/

namespace Exchange

structure Layout (α : Type) where
  size : Nat
  write : α → List UInt8
  read : List UInt8 → α
  length_write : ∀ a, (write a).length = size
  read_write : ∀ a rest, read (write a ++ rest) = a

namespace Layout

variable {α β : Type}

attribute [simp] length_write read_write

/-! ### Little-endian words -/

/-- The `w` low bytes of `n`, lowest first. -/
def leBytes : Nat → Nat → List UInt8
  | 0, _ => []
  | w + 1, n => UInt8.ofNat n :: leBytes w (n / 256)

/-- The number in the first `w` bytes. -/
def leValue : Nat → List UInt8 → Nat
  | 0, _ => 0
  | _ + 1, [] => 0
  | w + 1, b :: bs => b.toNat + 256 * leValue w bs

theorem length_leBytes (w n : Nat) : (leBytes w n).length = w := by
  induction w generalizing n with
  | zero => rfl
  | succ w ih => rw [leBytes, List.length_cons, ih]

theorem leValue_leBytes (w n : Nat) (rest : List UInt8) (h : n < 256 ^ w) : leValue w (leBytes w n ++ rest) = n := by
  induction w generalizing n with
  | zero =>
    rw [pow_zero] at h
    rw [leValue]
    omega
  | succ w ih =>
    have hdiv : n / 256 < 256 ^ w := by
      rw [pow_succ] at h
      omega
    have hbyte : (UInt8.ofNat n).toNat = n % 256 := rfl
    rw [leBytes, List.cons_append, leValue, ih _ hdiv, hbyte]
    omega

/-- A type of machine words of `w` bytes, through its values as natural numbers. -/
def word (w : Nat) (toNat : α → Nat) (ofNat : Nat → α) (hlt : ∀ a, toNat a < 256 ^ w)
    (hof : ∀ a, ofNat (toNat a) = a) : Layout α where
  size := w
  write a := leBytes w (toNat a)
  read bs := ofNat (leValue w bs)
  length_write a := length_leBytes w (toNat a)
  read_write a rest := by rw [leValue_leBytes w _ rest (hlt a), hof]

def uint8 : Layout UInt8 := word 1 UInt8.toNat UInt8.ofNat UInt8.toNat_lt fun _ => UInt8.ofNat_toNat

def uint16 : Layout UInt16 := word 2 UInt16.toNat UInt16.ofNat UInt16.toNat_lt fun _ => UInt16.ofNat_toNat

def uint32 : Layout UInt32 := word 4 UInt32.toNat UInt32.ofNat UInt32.toNat_lt fun _ => UInt32.ofNat_toNat

def uint64 : Layout UInt64 := word 8 UInt64.toNat UInt64.ofNat UInt64.toNat_lt fun _ => UInt64.ofNat_toNat

@[simp] theorem size_uint8 : uint8.size = 1 := by decide

@[simp] theorem size_uint16 : uint16.size = 2 := by decide

@[simp] theorem size_uint32 : uint32.size = 4 := by decide

@[simp] theorem size_uint64 : uint64.size = 8 := by decide

/-! ### Records and arrays -/

/-- A type laid out as another one that represents it. -/
def iso (l : Layout α) (f : α → β) (g : β → α) (h : ∀ b, f (g b) = b) : Layout β where
  size := l.size
  write b := l.write (g b)
  read bs := f (l.read bs)
  length_write b := l.length_write (g b)
  read_write b rest := by rw [l.read_write, h]

/-- Two's complement. -/
def int64 : Layout Int64 := uint64.iso UInt64.toInt64 Int64.toUInt64 fun _ => rfl

@[simp] theorem size_int64 : int64.size = 8 := by decide

/-- `n` raw bytes. -/
def bytes (n : Nat) : Layout (Vector UInt8 n) where
  size := n
  write v := v.toList
  read bs := Vector.ofFn fun i : Fin n => bs.getD i 0
  length_write v := v.length_toList
  read_write v rest := by
    apply Vector.ext
    intro i hi
    have hlen : i < v.toList.length := by rw [v.length_toList]; exact hi
    rw [Vector.getElem_ofFn, List.getD_eq_getElem?_getD, List.getElem?_append_left hlen, List.getElem?_eq_getElem hlen,
      Option.getD_some, Vector.getElem_toList]

@[simp] theorem size_bytes (n : Nat) : (bytes n).size = n := by simp only [bytes]

/-- The field at an offset of a record. -/
def readAt (l : Layout α) (offset : Nat) (bs : List UInt8) : α := l.read (bs.drop offset)

@[simp] theorem readAt_zero (l : Layout α) (a : α) (rest : List UInt8) : l.readAt 0 (l.write a ++ rest) = a := by
  rw [readAt, List.drop_zero, l.read_write]

/-- Fields before the offset are passed over. -/
@[simp] theorem readAt_write (l : Layout α) (m : Layout β) (b : β) (rest : List UInt8) {offset : Nat}
    (h : m.size ≤ offset) : l.readAt offset (m.write b ++ rest) = l.readAt (offset - m.size) rest := by
  have hskip : (m.write b).drop offset = [] := List.drop_eq_nil_of_le (by rw [m.length_write]; exact h)
  rw [readAt, readAt, List.drop_append, hskip, List.nil_append, m.length_write]

/-- The values, one after the other. -/
def writeAll (l : Layout α) (as : List α) : List UInt8 := as.flatMap l.write

def readAll (l : Layout α) : Nat → List UInt8 → List α
  | 0, _ => []
  | n + 1, bs => l.read bs :: readAll l n (bs.drop l.size)

@[simp] theorem length_writeAll (l : Layout α) (as : List α) : (l.writeAll as).length = as.length * l.size := by
  induction as with
  | nil => simp [writeAll]
  | cons a as ih =>
    unfold writeAll at ih ⊢
    rw [List.flatMap_cons, List.length_append, l.length_write, ih, List.length_cons, Nat.succ_mul, Nat.add_comm]

@[simp] theorem readAll_writeAll (l : Layout α) (as : List α) (rest : List UInt8) :
    l.readAll as.length (l.writeAll as ++ rest) = as := by
  induction as with
  | nil => rfl
  | cons a as ih =>
    unfold writeAll at ih ⊢
    rw [List.flatMap_cons, List.append_assoc, List.length_cons, readAll, l.read_write,
      List.drop_left' (l.length_write a), ih]

/-! ### Exact layouts

A layout is exact if every sequence of bytes of its size is what some value is written as.  The bytes of such a value
can be read off the memory it was read from, and reading looks at no other bytes.
-/

/-- Writing what has been read gives back the bytes it was read from. -/
class Exact (l : Layout α) : Prop where
  write_read : ∀ bs, l.size ≤ bs.length → l.write (l.read bs) = bs.take l.size

theorem leValue_lt (w : Nat) (bs : List UInt8) : leValue w bs < 256 ^ w := by
  induction w generalizing bs with
  | zero => exact Nat.one_pos
  | succ w ih =>
    cases bs with
    | nil => exact Nat.pow_pos (by omega)
    | cons b bs =>
      have hbyte := b.toNat_lt
      have hrest := ih bs
      rw [leValue, pow_succ]
      omega

theorem leBytes_leValue (w : Nat) (bs : List UInt8) (h : w ≤ bs.length) : leBytes w (leValue w bs) = bs.take w := by
  induction w generalizing bs with
  | zero => rfl
  | succ w ih =>
    cases bs with
    | nil => exact absurd h (by simp)
    | cons b bs =>
      have hbyte := b.toNat_lt
      have hlow : UInt8.ofNat (b.toNat + 256 * leValue w bs) = b := by
        apply UInt8.toNat.inj
        show (b.toNat + 256 * leValue w bs) % 256 = b.toNat
        omega
      have hhigh : (b.toNat + 256 * leValue w bs) / 256 = leValue w bs := by omega
      rw [leValue, leBytes, hlow, hhigh, ih bs (by simpa using h), List.take_succ_cons]

theorem exact_word {w : Nat} {toNat : α → Nat} {ofNat : Nat → α} {hlt : ∀ a, toNat a < 256 ^ w}
    {hof : ∀ a, ofNat (toNat a) = a} (h : ∀ n < 256 ^ w, toNat (ofNat n) = n) :
    Exact (word w toNat ofNat hlt hof) where
  write_read bs hbs := by
    show leBytes w (toNat (ofNat (leValue w bs))) = bs.take w
    rw [h _ (leValue_lt w bs), leBytes_leValue w bs hbs]

instance : Exact uint8 := exact_word fun _ h => UInt8.toNat_ofNat_of_lt' h

instance : Exact uint16 := exact_word fun _ h => UInt16.toNat_ofNat_of_lt' h

instance : Exact uint32 := exact_word fun _ h => UInt32.toNat_ofNat_of_lt' h

instance : Exact uint64 := exact_word fun _ h => UInt64.toNat_ofNat_of_lt' h

theorem exact_iso {l : Layout α} [Exact l] {f : α → β} {g : β → α} {hfg : ∀ b, f (g b) = b}
    (h : ∀ a, g (f a) = a) : Exact (l.iso f g hfg) where
  write_read bs hbs := by
    show l.write (g (f (l.read bs))) = bs.take l.size
    rw [h]
    exact Exact.write_read (l := l) bs hbs

instance : Exact int64 := exact_iso fun _ => rfl

instance (n : Nat) : Exact (bytes n) where
  write_read bs hbs := by
    rw [size_bytes] at hbs ⊢
    show (Vector.ofFn fun i : Fin n => bs.getD i 0).toList = bs.take n
    apply List.ext_getElem
    · rw [Vector.length_toList, List.length_take]
      omega
    · intro i hi hi'
      rw [Vector.length_toList] at hi
      have hbound : i < bs.length := by omega
      rw [Vector.getElem_toList, Vector.getElem_ofFn, List.getElem_take, List.getD_eq_getElem?_getD,
        List.getElem?_eq_getElem hbound, Option.getD_some]

section

variable {l : Layout α} [Exact l] {bs bs' : List UInt8}

/-- The bytes before a field and those of the field. -/
theorem take_append_write {offset : Nat} (h : offset + l.size ≤ bs.length) :
    bs.take offset ++ l.write (l.readAt offset bs) = bs.take (offset + l.size) := by
  have hdrop : l.size ≤ (bs.drop offset).length := by
    rw [List.length_drop]
    omega
  rw [readAt, Exact.write_read _ hdrop, List.take_add]

/-- The first field. -/
theorem write_readAt_zero (h : l.size ≤ bs.length) : l.write (l.readAt 0 bs) = bs.take l.size := by
  rw [readAt, List.drop_zero, Exact.write_read bs h]

theorem read_congr (h : l.size ≤ bs.length) (hbs : bs'.take l.size = bs.take l.size) : l.read bs' = l.read bs := by
  rw [← List.take_append_drop l.size bs', hbs, ← Exact.write_read (l := l) bs h, l.read_write]

theorem readAt_congr {offset : Nat} (h : offset + l.size ≤ bs.length)
    (hbs : bs'.take (offset + l.size) = bs.take (offset + l.size)) : l.readAt offset bs' = l.readAt offset bs := by
  refine read_congr (by rw [List.length_drop]; omega) ?_
  have hdrop := congrArg (List.drop offset) hbs
  rwa [List.drop_take, List.drop_take, Nat.add_sub_cancel_left] at hdrop

omit [Exact l] in
@[simp] theorem length_readAll (n : Nat) (bs : List UInt8) : (l.readAll n bs).length = n := by
  induction n generalizing bs with
  | zero => rfl
  | succ n ih => rw [readAll, List.length_cons, ih]

theorem writeAll_readAll (n : Nat) (h : n * l.size ≤ bs.length) :
    l.writeAll (l.readAll n bs) = bs.take (n * l.size) := by
  induction n generalizing bs with
  | zero => simp [writeAll, readAll]
  | succ n ih =>
    rw [Nat.succ_mul] at h
    have hrest : n * l.size ≤ (bs.drop l.size).length := by
      rw [List.length_drop]
      omega
    have htail := ih hrest
    unfold writeAll at htail ⊢
    rw [readAll, List.flatMap_cons, htail, Exact.write_read bs (by omega), Nat.succ_mul, Nat.add_comm, List.take_add]

theorem readAll_congr (n : Nat) (h : n * l.size ≤ bs.length) (hbs : bs'.take (n * l.size) = bs.take (n * l.size)) :
    l.readAll n bs' = l.readAll n bs := by
  have hread := l.readAll_writeAll (l.readAll n bs) (bs'.drop (n * l.size))
  rwa [length_readAll, writeAll_readAll n h, ← hbs, List.take_append_drop] at hread

end

end Layout

end Exchange
