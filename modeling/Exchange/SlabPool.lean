import Exchange.Lib.Linked
import Mathlib.Logic.Function.Basic
import Mathlib.Data.List.Perm.Subperm

/-!
# The slab pool

`SlabPool<T, Capacity>` of `jane/memory/slab_pool.hpp`: a fixed number of slots, of which the free ones form a singly
linked list through `next_free_`.  A pointer handed out by the pool is the index of its slot.

`SlabPool.Rep p free live` says that the free list of `p` is `free` and that the slots in use are `live`; together
they are all the slots.
-/

namespace Exchange

/-- `static_cast<Index>(-1)` for the 32-bit `Index`. -/
def kNone : Nat := 4294967295

structure SlabPool (T : Type) (capacity : Nat) where
  storage : Nat → T
  nextFree : Nat → Nat
  freeHead : Nat
  liveCount : Nat

namespace SlabPool

variable {T : Type} {capacity : Nat}

/-- The loop of the constructor: `next_free_[i] = i + 1` for every `i` with `i + 1 < Capacity`. -/
def linkSlots (capacity : Nat) (nextFree : Nat → Nat) : Nat → Nat :=
  (List.range (capacity - 1)).foldl (fun nf i => Function.update nf i (i + 1)) nextFree

/-- The constructor. -/
def new (T : Type) [Inhabited T] (capacity : Nat) : SlabPool T capacity where
  storage := fun _ => default
  nextFree := Function.update (linkSlots capacity fun _ => 0) (capacity - 1) kNone
  freeHead := 0
  liveCount := 0

def allocate [Inhabited T] (p : SlabPool T capacity) : Option Nat × SlabPool T capacity :=
  if p.freeHead = kNone then (none, p)
  else
    let idx := p.freeHead
    (some idx,
      { p with
        freeHead := p.nextFree idx
        liveCount := p.liveCount + 1
        storage := Function.update p.storage idx default })

def deallocate (p : SlabPool T capacity) (idx : Nat) : SlabPool T capacity :=
  { p with
    nextFree := Function.update p.nextFree idx p.freeHead
    freeHead := idx
    liveCount := p.liveCount - 1 }

/-- A store through a pointer into the pool. -/
def write (p : SlabPool T capacity) (storage : Nat → T) : SlabPool T capacity := { p with storage := storage }

structure Rep (p : SlabPool T capacity) (free live : List Nat) : Prop where
  chain : Chain p.nextFree kNone p.freeHead free
  nodup : (free ++ live).Nodup
  bound : ∀ x ∈ free ++ live, x < capacity
  full : free.length + live.length = capacity
  count : p.liveCount = live.length

/-! ### Construction -/

private theorem linkSlots_fold (l : List Nat) (hl : l.Nodup) (nf : Nat → Nat) (i : Nat) :
    l.foldl (fun nf i => Function.update nf i (i + 1)) nf i = if i ∈ l then i + 1 else nf i := by
  induction l generalizing nf with
  | nil => simp
  | cons a l ih =>
    rw [List.nodup_cons] at hl
    rw [List.foldl_cons, ih hl.2]
    by_cases hi : i ∈ l
    · simp [hi]
    · by_cases ha : i = a
      · subst ha; simp [hi]
      · simp [hi, ha]

private theorem new_nextFree [Inhabited T] {i : Nat} (hi : i < capacity) :
    (new T capacity).nextFree i = if i + 1 < capacity then i + 1 else kNone := by
  show Function.update (linkSlots capacity fun _ => 0) (capacity - 1) kNone i = _
  unfold linkSlots
  by_cases h : i + 1 < capacity
  · rw [Function.update_of_ne (by omega), linkSlots_fold _ List.nodup_range]
    simp only [List.mem_range, h, ↓reduceIte]
    rw [if_pos (by omega)]
  · obtain rfl : i = capacity - 1 := by omega
    rw [Function.update_self, if_neg h]

private theorem chain_range' {next : Nat → Nat} {stop n : Nat} (hlast : ∀ i, i + 1 = n → next i = stop)
    (hnext : ∀ i, i + 1 < n → next i = i + 1) :
    ∀ (k s : Nat), s + k = n → 0 < k → Chain next stop s (List.range' s k) := by
  intro k
  induction k with
  | zero => intro s _ hk; omega
  | succ k ih =>
    intro s hs _
    rw [List.range'_succ]
    refine ⟨rfl, ?_⟩
    rcases Nat.eq_zero_or_pos k with rfl | hk
    · exact hlast s (by omega)
    · rw [hnext s (by omega)]
      exact ih (s + 1) (by omega) hk

theorem rep_new [Inhabited T] (hpos : 0 < capacity) : (new T capacity).Rep (List.range capacity) [] where
  chain := by
    rw [List.range_eq_range']
    refine chain_range' (n := capacity) ?_ ?_ capacity 0 (by omega) hpos
    · intro i hi
      rw [new_nextFree (by omega), if_neg (by omega)]
    · intro i hi
      rw [new_nextFree (by omega), if_pos hi]
  nodup := by simpa using List.nodup_range
  bound := by simp
  full := by simp
  count := rfl

/-! ### Allocation -/

section

variable {p : SlabPool T capacity} {free live : List Nat}

theorem Rep.live_nodup (h : p.Rep free live) : live.Nodup :=
  (List.nodup_append.1 h.nodup).2.1

theorem Rep.length_le (h : p.Rep free live) : live.length ≤ capacity := by
  have := h.full
  omega

/-- Every slot is either free or in use. -/
theorem Rep.not_mem_free (h : p.Rep free live) {n : Nat} (hn : n < capacity) : n ∉ free ↔ n ∈ live := by
  have hsub : free ++ live ⊆ List.range capacity := fun x hx => List.mem_range.2 (h.bound x hx)
  have hperm := (List.subperm_of_subset h.nodup hsub).perm_of_length_le (by simp [h.full])
  have hmem : n ∈ free ++ live := hperm.mem_iff.2 (List.mem_range.2 hn)
  constructor
  · intro hf
    exact (List.mem_append.1 hmem).resolve_left hf
  · intro hl hf
    exact (List.nodup_append.1 h.nodup).2.2 n hf n hl rfl

/-- An exhausted pool hands out nothing and does not change. -/
theorem Rep.allocate_full [Inhabited T] (h : p.Rep free live) (hfull : live.length = capacity) :
    p.allocate = (none, p) := by
  obtain rfl : free = [] := by
    have := h.full
    exact List.length_eq_zero_iff.1 (by omega)
  have hk : p.freeHead = kNone := h.chain
  simp [allocate, hk]

/-- Otherwise the slot at the head of the free list comes into use. -/
theorem Rep.allocate_free [Inhabited T] (h : p.Rep free live) (hcap : capacity ≤ kNone)
    (hlt : live.length < capacity) :
    ∃ n free' p', p.allocate = (some n, p') ∧ n ∉ live ∧ p'.Rep free' (live ++ [n]) ∧
      p'.storage = Function.update p.storage n default := by
  cases free with
  | nil =>
    have := h.full
    simp at this
    omega
  | cons n free' =>
    obtain ⟨hn, hchain⟩ := h.chain
    have hnk : n ≠ kNone := by
      have := h.bound n (by simp)
      omega
    have hnd := h.nodup
    rw [List.cons_append, List.nodup_cons] at hnd
    refine ⟨n, free', { p with
      freeHead := p.nextFree n
      liveCount := p.liveCount + 1
      storage := Function.update p.storage n default }, ?_, ?_, ?_, rfl⟩
    · simp [allocate, hn, hnk]
    · exact fun hm => hnd.1 (List.mem_append_right _ hm)
    · have hperm : (free' ++ (live ++ [n])).Perm (n :: (free' ++ live)) := by
        rw [← List.append_assoc]
        exact List.perm_append_singleton _ _
      refine ⟨hchain, hperm.nodup_iff.2 (List.nodup_cons.2 hnd), fun x hx => h.bound x (hperm.mem_iff.1 hx), ?_, ?_⟩
      · have := h.full
        simp at this ⊢
        omega
      · simp [h.count]

/-- Giving a slot back puts it at the head of the free list. -/
theorem Rep.deallocate (h : p.Rep free live) {n : Nat} (hn : n ∈ live) :
    (p.deallocate n).Rep (n :: free) (live.erase n) := by
  have hnd := h.nodup
  obtain ⟨hf, hl, hdis⟩ := List.nodup_append.1 hnd
  have hnf : n ∉ free := fun hm => hdis n hm n hn rfl
  have hperm : (n :: free ++ live.erase n).Perm (free ++ live) := by
    rw [List.cons_append]
    exact List.perm_middle.symm.trans (List.Perm.append_left _ (List.perm_cons_erase hn).symm)
  refine ⟨⟨rfl, ?_⟩, hperm.nodup_iff.2 hnd, fun x hx => h.bound x (hperm.mem_iff.1 hx), ?_, ?_⟩
  · simp only [SlabPool.deallocate, Function.update_self]
    refine h.chain.congr fun x hx => Function.update_of_ne ?_ _ _
    rintro rfl
    exact hnf hx
  · have h1 := hperm.length_eq
    have h2 := h.full
    simp only [List.length_append] at h1
    omega
  · simp [SlabPool.deallocate, h.count, List.length_erase_of_mem hn]

theorem Rep.write (h : p.Rep free live) (st : Nat → T) : (p.write st).Rep free live :=
  ⟨h.chain, h.nodup, h.bound, h.full, h.count⟩

/-- The free list and the number of slots in use are the same in both pools. -/
structure SameFree (p p' : SlabPool T capacity) : Prop where
  freeHead : p'.freeHead = p.freeHead
  nextFree : p'.nextFree = p.nextFree
  liveCount : p'.liveCount = p.liveCount

/-- A slot that is given back right after it was handed out is where it was in the free list. -/
theorem allocate_deallocate [Inhabited T] {p' : SlabPool T capacity} {n : Nat} (h : p.allocate = (some n, p'))
    (st : Nat → T) : SameFree p ((p'.write st).deallocate n) := by
  unfold allocate at h
  split_ifs at h with hfull
  · cases h
  · cases h
    refine ⟨rfl, ?_, ?_⟩
    · -- the link of the slot was not touched in between
      exact Function.update_eq_self _ _
    · exact Nat.add_sub_cancel _ _

end

end SlabPool

end Exchange
