import Exchange.SlabPool
import Exchange.Lib.Loop
import Mathlib.Algebra.Group.Nat.Defs

/-!
# Runs of the slab pool

Any sequence of calls of `allocate` and `deallocate`, by a caller who gives back only slots that are live: handed out
and not given back since.  The free list always holds exactly the other slots, so a live slot is never handed out and
no slot is lost.
-/

namespace Exchange

inductive PoolCall where
  | allocate
  | deallocate (slot : Nat)

def PoolCall.isDeallocate : PoolCall → Bool
  | .allocate => false
  | .deallocate _ => true

/-- A pool, and the slots that are live by the calls so far. -/
structure PoolUse (T : Type) (capacity : Nat) where
  pool : SlabPool T capacity
  live : List Nat

namespace PoolUse

variable {T : Type} {capacity : Nat} [Inhabited T]

def new (T : Type) [Inhabited T] (capacity : Nat) : PoolUse T capacity := ⟨SlabPool.new T capacity, []⟩

/-- One call, with the slot it hands out.  The run ends where the caller gives back a slot that is not live. -/
def step (u : PoolUse T capacity) : PoolCall → Option (Option Nat × PoolUse T capacity)
  | .allocate =>
    match u.pool.allocate with
    | (some slot, pool) => some (some slot, ⟨pool, u.live ++ [slot]⟩)
    | (none, pool) => some (none, ⟨pool, u.live⟩)
  | .deallocate slot => if slot ∈ u.live then some (none, ⟨u.pool.deallocate slot, u.live.erase slot⟩) else none

/-- The calls that have handed out a slot. -/
def allocations (outs : List (Option Nat)) : Nat := outs.countP Option.isSome

def deallocations (calls : List PoolCall) : Nat := calls.countP PoolCall.isDeallocate

@[simp] theorem allocations_concat_some (outs : List (Option Nat)) (slot : Nat) :
    allocations (outs ++ [some slot]) = allocations outs + 1 := by
  simp [allocations]

@[simp] theorem allocations_concat_none (outs : List (Option Nat)) :
    allocations (outs ++ [none]) = allocations outs := by
  simp [allocations]

@[simp] theorem deallocations_concat_allocate (calls : List PoolCall) :
    deallocations (calls ++ [.allocate]) = deallocations calls := by
  simp [deallocations, PoolCall.isDeallocate]

@[simp] theorem deallocations_concat_deallocate (calls : List PoolCall) (slot : Nat) :
    deallocations (calls ++ [.deallocate slot]) = deallocations calls + 1 := by
  simp [deallocations, PoolCall.isDeallocate]

/-- The pool after the calls: its free list and its live slots, and how many there are. -/
structure Tracks (u : PoolUse T capacity) (calls : List PoolCall) (outs : List (Option Nat)) : Prop where
  rep : ∃ free, u.pool.Rep free u.live
  count : u.live.length + deallocations calls = allocations outs

omit [Inhabited T] in
theorem Tracks.deallocate {u : PoolUse T capacity} {calls : List PoolCall} {outs : List (Option Nat)}
    (h : u.Tracks calls outs) {slot : Nat} (hlive : slot ∈ u.live) :
    (⟨u.pool.deallocate slot, u.live.erase slot⟩ : PoolUse T capacity).Tracks (calls ++ [.deallocate slot])
      (outs ++ [none]) := by
  obtain ⟨free, hrep⟩ := h.rep
  have hcount := h.count
  have hpos := List.length_pos_of_mem hlive
  refine ⟨⟨slot :: free, hrep.deallocate hlive⟩, ?_⟩
  rw [deallocations_concat_deallocate, allocations_concat_none, List.length_erase_of_mem hlive]
  omega

theorem Tracks.allocate {u : PoolUse T capacity} {calls : List PoolCall} {outs : List (Option Nat)}
    (hcap : capacity ≤ kNone) (h : u.Tracks calls outs) {out : Option Nat} {u' : PoolUse T capacity}
    (hstep : u.step .allocate = some (out, u')) : u'.Tracks (calls ++ [.allocate]) (outs ++ [out]) := by
  obtain ⟨free, hrep⟩ := h.rep
  have hcount := h.count
  rcases Nat.lt_or_eq_of_le hrep.length_le with hlt | hfull
  · obtain ⟨n, free', pool, halloc, -, hrep', -⟩ := hrep.allocate_free hcap hlt
    rw [step, halloc] at hstep
    cases hstep
    refine ⟨⟨free', hrep'⟩, ?_⟩
    rw [deallocations_concat_allocate, allocations_concat_some, List.length_append, List.length_singleton]
    omega
  · rw [step, hrep.allocate_full hfull] at hstep
    cases hstep
    exact ⟨⟨free, hrep⟩, by simpa using hcount⟩

theorem tracks_run (hpos : 0 < capacity) (hcap : capacity ≤ kNone) {calls : List PoolCall}
    {outs : List (Option Nat)} {u : PoolUse T capacity} (h : runAll step (new T capacity) calls = some (outs, u)) :
    u.Tracks calls outs := by
  have hnew : (new T capacity).Tracks [] [] := ⟨⟨_, SlabPool.rep_new hpos⟩, rfl⟩
  refine runAll_keeps (fun calls outs u => u.Tracks calls outs) ?_ hnew h
  intro calls outs u call out u' htracks hstep
  cases call with
  | allocate => exact htracks.allocate hcap hstep
  | deallocate slot =>
    rw [step] at hstep
    split_ifs at hstep with hlive
    cases hstep
    exact htracks.deallocate hlive

end PoolUse

/-- After any calls in which only live slots are given back: following `next_free_` from `free_head_` visits no slot
twice, ends at `kNone`, and visits exactly the slots that are not live; `allocate` fails exactly if `live_count` is
the capacity, and otherwise returns a slot that is not live; `live_count` is the number of allocations minus that of
deallocations, and not more than the capacity. -/
theorem slab_pool_sound {T : Type} [Inhabited T] (capacity : Nat) (hpos : 1 ≤ capacity) (hcap : capacity ≤ 2 ^ 32 - 1)
    (calls : List PoolCall) (outs : List (Option Nat)) (u : PoolUse T capacity)
    (hrun : runAll PoolUse.step (PoolUse.new T capacity) calls = some (outs, u)) :
    (∃ free : List Nat, Chain u.pool.nextFree kNone u.pool.freeHead free ∧ free.Nodup ∧
      ∀ slot, slot ∈ free ↔ slot < capacity ∧ slot ∉ u.live) ∧
    (u.pool.allocate.1 = none ↔ u.pool.liveCount = capacity) ∧
    (∀ slot, u.pool.allocate.1 = some slot → slot < capacity ∧ slot ∉ u.live) ∧
    u.pool.liveCount + PoolUse.deallocations calls = PoolUse.allocations outs ∧
    u.pool.liveCount ≤ capacity := by
  have hcap' : capacity ≤ kNone := hcap
  obtain ⟨⟨free, hrep⟩, hcount⟩ := PoolUse.tracks_run hpos hcap' hrun
  have hle := hrep.length_le
  refine ⟨⟨free, hrep.chain, (List.nodup_append.1 hrep.nodup).1, ?_⟩, ?_, ?_, ?_, ?_⟩
  · intro slot
    constructor
    · intro hfree
      have hlt := hrep.bound slot (List.mem_append_left _ hfree)
      exact ⟨hlt, fun hlive => (hrep.not_mem_free hlt).2 hlive hfree⟩
    · rintro ⟨hlt, hlive⟩
      by_contra hfree
      exact hlive ((hrep.not_mem_free hlt).1 hfree)
  · rw [hrep.count]
    constructor
    · intro hnone
      by_contra hne
      obtain ⟨n, free', pool, halloc, -⟩ := hrep.allocate_free hcap' (by omega)
      rw [halloc] at hnone
      cases hnone
    · intro hfull
      rw [hrep.allocate_full hfull]
  · intro slot hslot
    rcases Nat.lt_or_eq_of_le hle with hlt | hfull
    · obtain ⟨n, free', pool, halloc, hfresh, hrep', -⟩ := hrep.allocate_free hcap' hlt
      rw [halloc] at hslot
      cases hslot
      exact ⟨hrep'.bound slot (by simp), hfresh⟩
    · rw [hrep.allocate_full hfull] at hslot
      cases hslot
  · rw [hrep.count]
    exact hcount
  · rw [hrep.count]
    exact hle

/-- Two slots, of which the first is given back and handed out again. -/
theorem slab_pool_sound_reuse :
    ∃ u : PoolUse Nat 2,
      runAll PoolUse.step (PoolUse.new Nat 2) [.allocate, .allocate, .deallocate 0, .allocate] =
        some ([some 0, some 1, none, some 0], u) ∧
      u.pool.allocate.1 = none ∧ u.pool.liveCount = 2 := by
  refine ⟨_, rfl, ?_, rfl⟩
  exact (slab_pool_sound 2 (by decide) (by decide) [.allocate, .allocate, .deallocate 0, .allocate] _ _ rfl).2.1.2 rfl

end Exchange
