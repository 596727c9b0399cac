import Exchange.Types
import Exchange.Lib.Linked
import Mathlib.Logic.Function.Basic

/-!
# Price levels

`OrderNode` and `PriceLevel` of `jane/book`: the resting orders at one price form a doubly linked list through the
nodes of the pool, with the oldest order at the head, and the level caches their total quantity and their number.

A node pointer is the index of the node's slot.  `levelPushBack` and `levelUnlink` change the nodes and the level; the
lemmas say what they do to the linked list and that they leave every other node alone.
-/

namespace Exchange

structure OrderNode where
  order : Order := {}
  prev : Option Nat := none
  next : Option Nat := none
  levelIndex : Nat := 0
  deriving DecidableEq

instance : Inhabited OrderNode := ⟨{}⟩

structure PriceLevel where
  head : Option Nat := none
  tail : Option Nat := none
  totalQuantity : Int := 0
  orderCount : Nat := 0
  deriving DecidableEq

def PriceLevel.empty (l : PriceLevel) : Bool := l.orderCount == 0

/-- The nodes of the pool, by slot. -/
abbrev Heap := Nat → OrderNode

def Heap.modify (st : Heap) (n : Nat) (f : OrderNode → OrderNode) : Heap := Function.update st n (f (st n))

def levelPushBack (st : Heap) (level : PriceLevel) (node : Nat) : Heap × PriceLevel :=
  let st := st.modify node fun x => { x with prev := level.tail }
  let st := st.modify node fun x => { x with next := none }
  let (st, level) :=
    match level.tail with
    | some t => (st.modify t fun x => { x with next := some node }, level)
    | none => (st, { level with head := some node })
  (st, { level with
    tail := some node
    totalQuantity := level.totalQuantity + (st node).order.remaining
    orderCount := level.orderCount + 1 })

/-- The first `if` of `level_unlink`: what comes before `node` now continues with what comes after it. -/
def linkPrevToNext (st : Heap) (level : PriceLevel) (node : Nat) : Heap × PriceLevel :=
  match (st node).prev with
  | some p => (st.modify p fun x => { x with next := (st node).next }, level)
  | none => (st, { level with head := (st node).next })

/-- The second `if` of `level_unlink`. -/
def linkNextToPrev (st : Heap) (level : PriceLevel) (node : Nat) : Heap × PriceLevel :=
  match (st node).next with
  | some q => (st.modify q fun x => { x with prev := (st node).prev }, level)
  | none => (st, { level with tail := (st node).prev })

def levelUnlink (st : Heap) (level : PriceLevel) (node : Nat) : Heap × PriceLevel :=
  let (st, level) := linkPrevToNext st level node
  let (st, level) := linkNextToPrev st level node
  let st := st.modify node fun x => { x with prev := none }
  let st := st.modify node fun x => { x with next := none }
  (st, { level with
    totalQuantity := level.totalQuantity - (st node).order.remaining
    orderCount := level.orderCount - 1 })

/-! ### Nodes -/

section

variable {st : Heap} {n m : Nat} {f : OrderNode → OrderNode}

@[simp] theorem Heap.modify_self : st.modify n f n = f (st n) := Function.update_self ..

theorem Heap.modify_of_ne (h : m ≠ n) : st.modify n f m = st m := Function.update_of_ne h ..

/-- A change of one node, field by field. -/
theorem Heap.modify_apply : st.modify n f m = if m = n then f (st m) else st m := by
  by_cases h : m = n
  · subst h; simp
  · simp [h, modify_of_ne h]

end

/-- `st'` differs from `st` at most in the links of nodes. -/
def SameOrders (st st' : Heap) : Prop :=
  ∀ x, (st' x).order = (st x).order ∧ (st' x).levelIndex = (st x).levelIndex

theorem levelPushBack_sameOrders (st : Heap) (level : PriceLevel) (n : Nat) :
    SameOrders st (levelPushBack st level n).1 := by
  intro x
  unfold levelPushBack
  cases level.tail <;> simp only [Heap.modify_apply] <;> (repeat' split) <;> exact ⟨rfl, rfl⟩

theorem linkPrevToNext_apply (st : Heap) (level : PriceLevel) (n x : Nat) :
    (linkPrevToNext st level n).1 x =
      if (st n).prev = some x then { st x with next := (st n).next } else st x := by
  unfold linkPrevToNext
  cases (st n).prev with
  | none => simp
  | some p => simp [Heap.modify_apply, eq_comm]

theorem linkPrevToNext_level (st : Heap) (level : PriceLevel) (n : Nat) :
    (linkPrevToNext st level n).2 =
      if (st n).prev = none then { level with head := (st n).next } else level := by
  unfold linkPrevToNext
  cases (st n).prev <;> simp

theorem linkNextToPrev_apply (st : Heap) (level : PriceLevel) (n x : Nat) :
    (linkNextToPrev st level n).1 x =
      if (st n).next = some x then { st x with prev := (st n).prev } else st x := by
  unfold linkNextToPrev
  cases (st n).next with
  | none => simp
  | some q => simp [Heap.modify_apply, eq_comm]

theorem linkNextToPrev_level (st : Heap) (level : PriceLevel) (n : Nat) :
    (linkNextToPrev st level n).2 =
      if (st n).next = none then { level with tail := (st n).prev } else level := by
  unfold linkNextToPrev
  cases (st n).next <;> simp

theorem levelUnlink_sameOrders (st : Heap) (level : PriceLevel) (n : Nat) :
    SameOrders st (levelUnlink st level n).1 := by
  intro x
  simp only [levelUnlink, Heap.modify_apply, linkNextToPrev_apply, linkPrevToNext_apply]
  constructor <;> (repeat' split) <;> rfl

/-- The nodes `l` are the linked list of the level, in both directions. -/
def Threaded (st : Heap) (level : PriceLevel) (l : List Nat) : Prop :=
  DList (fun x => (st x).next) (fun x => (st x).prev) level.head level.tail l

theorem Threaded.congr {st st' : Heap} {level : PriceLevel} {l : List Nat} (h : Threaded st level l)
    (heq : ∀ x ∈ l, st' x = st x) : Threaded st' level l :=
  DList.congr h fun x hx => by rw [heq x hx]; exact ⟨rfl, rfl⟩

section

variable {st : Heap} {level : PriceLevel} {n : Nat}

/-! ### `level_push_back` -/

theorem levelPushBack_of_ne {x : Nat} (hn : x ≠ n) (ht : level.tail ≠ some x) :
    (levelPushBack st level n).1 x = st x := by
  unfold levelPushBack
  cases h : level.tail with
  | none => simp [Heap.modify_of_ne hn]
  | some t =>
    have hxt : x ≠ t := by rintro rfl; exact ht h
    simp [Heap.modify_of_ne hn, Heap.modify_of_ne hxt]

@[simp] theorem levelPushBack_totalQuantity :
    (levelPushBack st level n).2.totalQuantity = level.totalQuantity + (st n).order.remaining := by
  unfold levelPushBack
  cases level.tail with
  | none => simp
  | some t =>
    by_cases h : n = t
    · subst h; simp
    · simp [Heap.modify_of_ne h]

@[simp] theorem levelPushBack_orderCount :
    (levelPushBack st level n).2.orderCount = level.orderCount + 1 := by
  unfold levelPushBack
  cases level.tail <;> rfl

theorem Threaded.push_back {l : List Nat} (h : Threaded st level l) (hn : n ∉ l) :
    Threaded (levelPushBack st level n).1 (levelPushBack st level n).2 (l ++ [n]) := by
  have htail : level.tail = l.getLast? := h.tail_eq
  have hhead : level.head = l.head? := h.head_eq
  have htl : ∀ x, level.tail = some x → x ∈ l := fun x hx => List.mem_of_getLast? (htail ▸ hx)
  have htn : level.tail ≠ some n := fun e => hn (htl n e)
  have e1 : (levelPushBack st level n).2.head = level.head.or (some n) := by
    unfold levelPushBack
    rw [hhead]
    cases ht : level.tail with
    | none =>
      -- the tail pointer of the level is null exactly when its list is empty
      rw [ht] at htail
      obtain rfl := List.getLast?_eq_none_iff.1 htail.symm
      rfl
    | some t =>
      cases l with
      | nil => exact absurd (htl t ht) (by simp)
      | cons a l => simp [hhead]
  have e2 : (levelPushBack st level n).2.tail = some n := by
    unfold levelPushBack
    cases level.tail <;> rfl
  have en : (levelPushBack st level n).1 n = { st n with prev := level.tail, next := none } := by
    unfold levelPushBack
    cases ht : level.tail with
    | none => simp
    | some t =>
      have : n ≠ t := by rintro rfl; exact htn ht
      simp [Heap.modify_of_ne this]
  have et : ∀ x, level.tail = some x → (levelPushBack st level n).1 x = { st x with next := some n } := by
    intro x hx
    have : x ≠ n := by rintro rfl; exact htn hx
    unfold levelPushBack
    simp [hx, Heap.modify_of_ne this]
  unfold Threaded
  rw [e1, e2]
  refine DList.push_back h hn (by rw [en]) (by rw [en]) ?_ ?_ ?_
  · intro x hx
    by_cases hxt : level.tail = some x
    · rw [et x hxt]
    · rw [levelPushBack_of_ne (by rintro rfl; exact hn hx) hxt]
  · intro x hx hxt
    rw [levelPushBack_of_ne (by rintro rfl; exact hn hx) hxt]
  · intro x hx
    rw [et x hx]

/-! ### `level_unlink` -/

theorem levelUnlink_apply {x : Nat} (hn : x ≠ n) (hnn : (st n).prev ≠ some n) :
    (levelUnlink st level n).1 x =
      { st x with
        next := if (st n).prev = some x then (st n).next else (st x).next
        prev := if (st n).next = some x then (st n).prev else (st x).prev } := by
  simp only [levelUnlink, Heap.modify_of_ne hn, linkNextToPrev_apply, linkPrevToNext_apply, if_neg hnn]
  by_cases h1 : (st n).prev = some x <;> by_cases h2 : (st n).next = some x <;> simp [h1, h2]

@[simp] theorem levelUnlink_totalQuantity :
    (levelUnlink st level n).2.totalQuantity = level.totalQuantity - (st n).order.remaining := by
  rw [← (levelUnlink_sameOrders st level n n).1]
  simp only [levelUnlink, linkNextToPrev_level, linkPrevToNext_level]
  congr 1
  split <;> split <;> rfl

@[simp] theorem levelUnlink_orderCount :
    (levelUnlink st level n).2.orderCount = level.orderCount - 1 := by
  simp only [levelUnlink, linkNextToPrev_level, linkPrevToNext_level]
  congr 1
  split <;> split <;> rfl

theorem Threaded.unlink {a c : List Nat} (h : Threaded st level (a ++ n :: c)) :
    Threaded (levelUnlink st level n).1 (levelUnlink st level n).2 (a ++ c) := by
  obtain ⟨hp, hq⟩ := DList.mid h
  obtain ⟨-, hnc, hdis⟩ := List.nodup_append.1 h.nodup
  have hnn : (st n).prev ≠ some n := fun e =>
    hdis n (List.mem_of_getLast? (hp ▸ e)) n (List.mem_cons_self ..) rfl
  have hne : ∀ x ∈ a ++ c, x ≠ n := by
    intro x hx
    rcases List.mem_append.1 hx with hx | hx
    · exact hdis x hx n (List.mem_cons_self ..)
    · rintro rfl; exact (List.nodup_cons.1 hnc).1 hx
  have hpa : ∀ x, (st n).prev = some x → x ∈ a ++ c := fun x hx =>
    List.mem_append_left _ (List.mem_of_getLast? (hp ▸ hx))
  have hqc : ∀ x, (st n).next = some x → x ∈ a ++ c := fun x hx =>
    List.mem_append_right _ (List.mem_of_head? (hq ▸ hx))
  have e1 : (levelUnlink st level n).2.head = if (st n).prev = none then (st n).next else level.head := by
    simp only [levelUnlink, linkNextToPrev_level, linkPrevToNext_level]
    split <;> split <;> rfl
  have e2 : (levelUnlink st level n).2.tail = if (st n).next = none then (st n).prev else level.tail := by
    simp only [levelUnlink, linkNextToPrev_level, linkPrevToNext_level, linkPrevToNext_apply, if_neg hnn]
    split <;> split <;> rfl
  unfold Threaded
  rw [e1, e2]
  refine DList.unlink h ?_ ?_ ?_ ?_
  · intro x hx hxp
    rw [levelUnlink_apply (hne x hx) hnn]
    exact if_neg hxp
  · intro x hx hxq
    rw [levelUnlink_apply (hne x hx) hnn]
    exact if_neg hxq
  · intro x hx
    rw [levelUnlink_apply (hne x (hpa x hx)) hnn]
    exact if_pos hx
  · intro x hx
    rw [levelUnlink_apply (hne x (hqc x hx)) hnn]
    exact if_pos hx

end

end Exchange
