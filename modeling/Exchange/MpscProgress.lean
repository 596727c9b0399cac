import Exchange.MpscRingBuffer
import Mathlib.Algebra.BigOperators.Group.Finset.Piecewise
import Mathlib.Algebra.Order.BigOperators.Group.Finset

/-!
# The ring buffer of many producers is lock-free

A producer of `MPSCRingBuffer` may lose the race for a position again and again, but only to another producer.  So
`try_push` is lock-free: while the threads take turns in any way, after a number of steps of the producers that
depends only on how many there are, one of their calls returns, whatever the consumer does.

The bound comes from a potential.  Each producer has a number of steps left until it returns or claims a position if
no other producer claims one; every claim sends the other producers back, but a producer that has claimed a position
claims no other before it returns.
-/

namespace Exchange.MPSCRingBuffer

variable {c : Capacity} {I T : Type} [DecidableEq I]

/-- The steps until a producer claims a position or returns, at most, if no other producer claims one.  A position
that is not `enqueue_pos_` any more is loaded again first. -/
def TryPush.stepsLeft (enqueuePos : UInt64) : TryPush T → Nat
  | .idle => 3
  | .loadSequence _ pos => if pos = enqueuePos then 2 else 4
  | .loadPos _ => 3
  | .compareExchange _ pos => if pos = enqueuePos then 1 else 3
  | .writeData _ _ => 2
  | .storeSequence _ _ => 1

/-- A step that ends a call of `try_push`. -/
def returned : Option (Event I T) → Bool
  | some (.pushed _ _) => true
  | some (.full _) => true
  | _ => false

theorem TryPush.stepsLeft_pos (push : TryPush T) (enqueuePos : UInt64) : 0 < push.stepsLeft enqueuePos := by
  cases push <;> grind [stepsLeft]

theorem TryPush.stepsLeft_le (push : TryPush T) (enqueuePos : UInt64) : push.stepsLeft enqueuePos ≤ 4 := by
  cases push <;> grind [stepsLeft]

/-- Another value of `enqueue_pos_` costs at most two steps. -/
theorem TryPush.stepsLeft_le_add (push : TryPush T) (pos pos' : UInt64) :
    push.stepsLeft pos' ≤ push.stepsLeft pos + 2 := by
  cases push <;> grind [stepsLeft]

namespace Threads

variable {s : Threads c I T} {claimed : List (Claim I T)} {pushed : I → List T} {popped : List T}

/-- The cell of the next position to be claimed shows this position, or an earlier one if the buffer is full.  So a
producer that has loaded `enqueue_pos_` claims the position or returns `false`, unless another producer claims it. -/
theorem Tracks.next_sequence (h : s.Tracks claimed pushed popped) (hbound : claimed.length < 2 ^ 63) :
    (s.cell s.ring.enqueuePos).sequence.toInt64 - s.ring.enqueuePos.toInt64 = 0 ∨
      (s.cell s.ring.enqueuePos).sequence.toInt64 - s.ring.enqueuePos.toInt64 < 0 := by
  have hroom := h.room
  have hcap := c.one_lt_value
  rw [h.enqueuePos]
  by_cases hfree : claimed.length < popped.length + c.value
  · left
    rw [toInt64_sub_eq_zero_iff]
    exact h.free _ (Nat.le_refl _) hfree
  · right
    -- a full buffer: the cell is that of the position a lap earlier
    have hslot : c.slot (UInt64.ofNat claimed.length) = c.slot (UInt64.ofNat popped.length) := by
      apply Fin.ext
      rw [c.slot_val, c.slot_val, show claimed.length = popped.length + c.value by omega, Nat.add_mod_right]
    have hcell : s.cell (UInt64.ofNat claimed.length) = s.cell (UInt64.ofNat popped.length) :=
      congrArg s.ring.cells hslot
    have hpos := h.toNat_pos (Nat.le_refl claimed.length)
    have hseq : (s.cell (UInt64.ofNat popped.length)).sequence.toNat < claimed.length := by
      rcases h.sequence (Nat.le_refl popped.length) (by omega) with hsame | ⟨hlt, hnext⟩
      · rw [hsame, h.toNat_pos (by omega)]
        omega
      · rw [hnext, h.toNat_pos (by omega)]
        omega
    rw [hcell, toInt64_sub_neg_iff (by omega) (by omega), hpos]
    exact hseq

/-- What a step of a producer does to `enqueue_pos_` and to its own place in the call: it returns, or it claims a
position, or it gets nearer to that, or its compare-exchange fails spuriously. -/
theorem Tracks.stepProducer_cases (h : s.Tracks claimed pushed popped) (hbound : claimed.length < 2 ^ 63) (i : I)
    (item : T) (spurious : Bool) {out : Option (Event I T)} {s' : Threads c I T}
    (hstep : s.stepProducer i item spurious = (out, s')) :
    (∀ j, j ≠ i → s'.push j = s.push j) ∧
    (returned out = true ∨
      ((s.push i).writing = none ∧ (s'.push i).writing.isSome ∧
        (s'.push i).stepsLeft s'.ring.enqueuePos = 2) ∨
      (s'.ring.enqueuePos = s.ring.enqueuePos ∧ (s'.push i).writing.isSome = (s.push i).writing.isSome ∧
        (s'.push i).stepsLeft s.ring.enqueuePos < (s.push i).stepsLeft s.ring.enqueuePos) ∨
      (spurious = true ∧ s'.ring.enqueuePos = s.ring.enqueuePos ∧
        (s'.push i).writing.isSome = (s.push i).writing.isSome ∧
        (s'.push i).stepsLeft s.ring.enqueuePos ≤ (s.push i).stepsLeft s.ring.enqueuePos + 1)) := by
  unfold Threads.stepProducer at hstep
  cases hpc : s.push i with
  | idle =>
    rw [hpc] at hstep
    cases hstep
    refine ⟨fun j hj => goto_push_of_ne s hj _, Or.inr (Or.inr (Or.inl ⟨rfl, ?_, ?_⟩))⟩
    · rw [goto_push_self]; rfl
    · rw [goto_push_self]; simp [TryPush.stepsLeft]
  | loadSequence item pos =>
    rw [hpc] at hstep
    dsimp only at hstep
    split at hstep
    · cases hstep
      refine ⟨fun j hj => goto_push_of_ne s hj _, Or.inr (Or.inr (Or.inl ⟨rfl, ?_, ?_⟩))⟩
      · rw [goto_push_self]; rfl
      · rw [goto_push_self]
        simp only [TryPush.stepsLeft]
        split_ifs <;> omega
    · rename_i hne
      split at hstep
      · cases hstep
        exact ⟨fun j hj => goto_push_of_ne s hj _, Or.inl rfl⟩
      · rename_i hge
        cases hstep
        have hstale : pos ≠ s.ring.enqueuePos := by
          rintro rfl
          rcases h.next_sequence hbound with heq | hlt
          · exact hne heq
          · exact hge hlt
        refine ⟨fun j hj => goto_push_of_ne s hj _, Or.inr (Or.inr (Or.inl ⟨rfl, ?_, ?_⟩))⟩
        · rw [goto_push_self]; rfl
        · rw [goto_push_self]
          simp [TryPush.stepsLeft, hstale]
  | loadPos item =>
    rw [hpc] at hstep
    cases hstep
    refine ⟨fun j hj => goto_push_of_ne s hj _, Or.inr (Or.inr (Or.inl ⟨rfl, ?_, ?_⟩))⟩
    · rw [goto_push_self]; rfl
    · rw [goto_push_self]; simp [TryPush.stepsLeft]
  | compareExchange item pos =>
    rw [hpc] at hstep
    dsimp only at hstep
    split at hstep
    · cases hstep
      refine ⟨fun j hj => goto_push_of_ne _ hj _, Or.inr (Or.inl ⟨rfl, ?_, ?_⟩)⟩
      · rw [goto_push_self]; rfl
      · rw [goto_push_self]; rfl
    · rename_i hfail
      cases hstep
      refine ⟨fun j hj => goto_push_of_ne s hj _, Or.inr (Or.inr ?_)⟩
      cases hspurious : spurious with
      | true =>
        refine Or.inr ⟨rfl, rfl, ?_, ?_⟩
        · rw [goto_push_self]; rfl
        · rw [goto_push_self]
          simp only [TryPush.stepsLeft, if_true]
          split_ifs <;> omega
      | false =>
        have hstale : pos ≠ s.ring.enqueuePos := fun heq => hfail ⟨heq.symm, hspurious⟩
        refine Or.inl ⟨rfl, ?_, ?_⟩
        · rw [goto_push_self]; rfl
        · rw [goto_push_self]
          simp [TryPush.stepsLeft, hstale]
  | writeData item pos =>
    rw [hpc] at hstep
    cases hstep
    refine ⟨fun j hj => goto_push_of_ne _ hj _, Or.inr (Or.inr (Or.inl ⟨rfl, ?_, ?_⟩))⟩
    · rw [goto_push_self]; rfl
    · rw [goto_push_self]; simp [TryPush.stepsLeft]
  | storeSequence item pos =>
    rw [hpc] at hstep
    cases hstep
    exact ⟨fun j hj => goto_push_of_ne _ hj _, Or.inl rfl⟩

/-! ### The potential -/

section Potential

variable [Fintype I]

/-- A producer's part of the potential.  Until it claims a position it also holds what the other producers lose by
its claim. -/
def share (s : Threads c I T) (i : I) : Nat :=
  (s.push i).stepsLeft s.ring.enqueuePos + if (s.push i).writing.isSome then 0 else 2 * Fintype.card I

def potential (s : Threads c I T) : Nat := ∑ i, s.share i

omit [DecidableEq I] in
theorem card_le_potential (s : Threads c I T) : Fintype.card I ≤ s.potential := by
  have hone : ∀ i ∈ Finset.univ, 1 ≤ s.share i := by
    intro i _
    have hpos := (s.push i).stepsLeft_pos s.ring.enqueuePos
    unfold share
    omega
  simpa [potential] using Finset.card_nsmul_le_sum Finset.univ s.share 1 hone

omit [DecidableEq I] in
theorem potential_le (s : Threads c I T) :
    s.potential ≤ Fintype.card I * (2 * Fintype.card I + 4) := by
  have hmost : ∀ i ∈ Finset.univ, s.share i ≤ 2 * Fintype.card I + 4 := by
    intro i _
    have hle := (s.push i).stepsLeft_le s.ring.enqueuePos
    unfold share
    split_ifs <;> omega
  simpa [potential] using Finset.sum_le_card_nsmul Finset.univ s.share _ hmost

/-- The change of the potential from the changes of its shares. -/
theorem potential_add_le {s s' : Threads c I T} (i : I) (paid : Nat) (gain : I → Nat)
    (hself : s'.share i + paid ≤ s.share i + gain i) (hrest : ∀ j, j ≠ i → s'.share j ≤ s.share j + gain j) :
    s'.potential + paid ≤ s.potential + ∑ j, gain j := by
  have hle : ∀ j ∈ Finset.univ, s'.share j + (if j = i then paid else 0) ≤ s.share j + gain j := by
    intro j _
    by_cases hj : j = i
    · subst hj
      rw [if_pos rfl]
      exact hself
    · rw [if_neg hj]
      exact hrest j hj
  have hsum := Finset.sum_le_sum hle
  rw [Finset.sum_add_distrib, Finset.sum_add_distrib, Finset.sum_ite_eq' Finset.univ i] at hsum
  simpa [potential] using hsum

/-- A step of a producer that does not return lowers the potential, unless its compare-exchange fails spuriously. -/
theorem Tracks.stepProducer_potential (h : s.Tracks claimed pushed popped) (hbound : claimed.length < 2 ^ 63) {i : I}
    {item : T} {spurious : Bool} {out : Option (Event I T)} {s' : Threads c I T}
    (hstep : s.stepProducer i item spurious = (out, s')) (hout : returned out = false) :
    s'.potential + 1 ≤ s.potential + 2 * spurious.toNat := by
  obtain ⟨hrest, hcases⟩ := h.stepProducer_cases hbound i item spurious hstep
  -- without a claim, the other producers have their share
  have hsame : s'.ring.enqueuePos = s.ring.enqueuePos → ∀ j, j ≠ i → s'.share j = s.share j := by
    intro hpos j hj
    unfold share
    rw [hrest j hj, hpos]
  rcases hcases with hret | ⟨hnone, hsome, hleft⟩ | ⟨hpos, hwriting, hless⟩ | ⟨rfl, hpos, hwriting, hle⟩
  · rw [hout] at hret
    cases hret
  · -- after a claim, they have up to two steps more
    have hself : s'.share i + (2 * Fintype.card I + 1) ≤ s.share i + 2 := by
      have hpos := (s.push i).stepsLeft_pos s.ring.enqueuePos
      simp only [share, hnone, hsome, hleft, Option.isSome_none, if_true, Bool.false_eq_true, if_false]
      omega
    have hothers : ∀ j, j ≠ i → s'.share j ≤ s.share j + 2 := by
      intro j hj
      have hadd := (s.push j).stepsLeft_le_add s.ring.enqueuePos s'.ring.enqueuePos
      unfold share
      rw [hrest j hj]
      omega
    have hsum := potential_add_le i _ (fun _ => 2) hself hothers
    rw [Finset.sum_const_nat fun _ _ => rfl, Finset.card_univ] at hsum
    omega
  · have hself : s'.share i + 1 ≤ s.share i + 0 := by
      unfold share
      rw [hpos, hwriting]
      omega
    have hsum := potential_add_le i 1 (fun _ => 0) hself fun j hj => (hsame hpos j hj).le
    simp only [Finset.sum_const_zero] at hsum
    omega
  · have hself : s'.share i + 0 ≤ s.share i + if i = i then 1 else 0 := by
      unfold share
      rw [hpos, hwriting, if_pos rfl]
      omega
    have hothers : ∀ j, j ≠ i → s'.share j ≤ s.share j + if j = i then 1 else 0 := by
      intro j hj
      rw [hsame hpos j hj]
      omega
    have hsum := potential_add_le i 0 (fun j => if j = i then 1 else 0) hself hothers
    rw [Finset.sum_ite_eq' Finset.univ i, if_pos (Finset.mem_univ i)] at hsum
    simp only [Bool.toNat_true]
    omega

omit [DecidableEq I] in
/-- The consumer's steps do not touch it. -/
theorem stepConsumer_potential (s : Threads c I T) : s.stepConsumer.2.potential = s.potential := by
  have hkeeps : s.stepConsumer.2.push = s.push ∧ s.stepConsumer.2.ring.enqueuePos = s.ring.enqueuePos := by
    unfold stepConsumer
    cases s.pop with
    | idle => dsimp only; split_ifs <;> exact ⟨rfl, rfl⟩
    | readData => exact ⟨rfl, rfl⟩
    | storeSequence out => exact ⟨rfl, rfl⟩
  unfold potential share
  rw [hkeeps.1, hkeeps.2]

end Potential

end Threads

/-! ### Every interleaving -/

/-- The steps of the producers among the turns. -/
def producerTurns (turns : List (Turn I T)) : Nat :=
  (turns.map fun
    | .producer _ _ _ => 1
    | .consumer => 0).sum

/-- The steps of the producers whose compare-exchange, if it is one, fails spuriously. -/
def spuriousTurns (turns : List (Turn I T)) : Nat :=
  (turns.map fun
    | .producer _ _ spurious => spurious.toNat
    | .consumer => 0).sum

section

variable [Fintype I] {s : Threads c I T} {outs : List (Option (Event I T))}

/-- After the steps `outs`, if the positions are below 2^63. -/
def Reached (s : Threads c I T) (outs : List (Option (Event I T))) : Prop :=
  (claims outs).length ≤ 2 ^ 63 → s.Tracks (claims outs) (fun i => pushes i outs) (pops outs)

omit [Fintype I] in
theorem Reached.step (h : Reached s outs) {turn : Turn I T} {out : Option (Event I T)} {s' : Threads c I T}
    (hstep : s.step turn = some (out, s')) : Reached s' (outs ++ [out]) := by
  intro hbound
  have hclaims : claims (outs ++ [out]) = claims outs ++ claimedBy out := by simp [claims]
  rw [hclaims] at hbound ⊢
  have hbefore : (claims outs).length ≤ 2 ^ 63 := by
    rw [List.length_append] at hbound
    omega
  simpa [pushes, pops] using (h hbefore).step hstep hbound

/-- One step that does not return. -/
theorem Reached.step_potential (h : Reached s outs) (hbound : (claims outs).length < 2 ^ 63) {turn : Turn I T}
    {out : Option (Event I T)} {s' : Threads c I T} (hstep : s.step turn = some (out, s'))
    (hout : returned out = false) :
    producerTurns [turn] + s'.potential ≤ s.potential + 2 * spuriousTurns [turn] := by
  cases turn with
  | producer i item spurious =>
    have hless := (h hbound.le).stepProducer_potential hbound (Option.some.inj hstep) hout
    simp only [producerTurns, spuriousTurns, List.map_cons, List.map_nil, List.sum_cons, List.sum_nil]
    omega
  | consumer =>
    have hs' : s.stepConsumer.2 = s' := congrArg Prod.snd (Option.some.inj hstep)
    rw [← hs', s.stepConsumer_potential]
    simp [producerTurns, spuriousTurns]

/-- Turns in which no call of `try_push` returns. -/
theorem Reached.run_potential (h : Reached s outs) (further : List (Turn I T)) :
    ∃ outs' s', runAll Threads.step s further = some (outs', s') ∧
      ((claims (outs ++ outs')).length < 2 ^ 63 → (∀ out ∈ outs', returned out = false) →
        producerTurns further + s'.potential ≤ s.potential + 2 * spuriousTurns further) := by
  induction further generalizing s outs with
  | nil => exact ⟨[], s, rfl, fun _ _ => by simp [producerTurns, spuriousTurns]⟩
  | cons turn further ih =>
    have htotal : ∃ out s₁, s.step turn = some (out, s₁) := by
      cases turn with
      | producer => exact ⟨_, _, rfl⟩
      | consumer => exact ⟨_, _, rfl⟩
    obtain ⟨out, s₁, hstep⟩ := htotal
    obtain ⟨outs', s', hrun, hmany⟩ := ih (h.step hstep)
    refine ⟨out :: outs', s', by rw [runAll_cons hstep, hrun]; rfl, ?_⟩
    intro hbound hopen
    have hless : (claims outs).length < 2 ^ 63 := by
      have hsplit : claims (outs ++ out :: outs') = claims outs ++ claims (out :: outs') := List.flatMap_append
      rw [hsplit, List.length_append] at hbound
      omega
    have hone := h.step_potential hless hstep (hopen out (List.mem_cons_self ..))
    have hrest := hmany (by simpa using hbound) fun o ho => hopen o (List.mem_cons_of_mem _ ho)
    have hproducer : producerTurns (turn :: further) = producerTurns [turn] + producerTurns further := by
      simp [producerTurns]
    have hspurious : spuriousTurns (turn :: further) = spuriousTurns [turn] + spuriousTurns further := by
      simp [spuriousTurns]
    omega

end

/-- `try_push` is lock-free.  After any turns, take any further turns in which more than `N * (2N + 3)` steps are
steps of the `N` producers, and two more for each compare-exchange that fails spuriously.  As long as the positions
stay below 2^63, some call of `try_push` returns in these turns, whatever the consumer does. -/
theorem try_push_lock_free [Fintype I] (c : Capacity) (init : T) (turns further : List (Turn I T)) :
    ∃ outs s outs' s', runAll Threads.step (Threads.new c I init) turns = some (outs, s) ∧
      runAll Threads.step s further = some (outs', s') ∧
      ((claims (outs ++ outs')).length < 2 ^ 63 →
        Fintype.card I * (2 * Fintype.card I + 3) + 2 * spuriousTurns further < producerTurns further →
        ∃ out ∈ outs', returned out = true) := by
  obtain ⟨outs, s, hrun, h⟩ := tracks_run c init turns
  obtain ⟨outs', s', hrun', hpotential⟩ := Reached.run_potential h further
  refine ⟨outs, s, outs', s', hrun, hrun', fun hbound hmany => ?_⟩
  by_contra hnone
  have hopen : ∀ out ∈ outs', returned out = false := by
    intro out hout
    by_contra hret
    exact hnone ⟨out, hout, by simpa using hret⟩
  have hpaid := hpotential hbound hopen
  have hmost := s.potential_le
  have hleast := s'.card_le_potential
  have hsplit : Fintype.card I * (2 * Fintype.card I + 4) =
      Fintype.card I * (2 * Fintype.card I + 3) + Fintype.card I := Nat.mul_succ ..
  omega

end Exchange.MPSCRingBuffer
