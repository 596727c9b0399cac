import Exchange.PriceLevel
import Mathlib.Algebra.BigOperators.Group.List.Basic
import Mathlib.Algebra.Ring.Int.Defs
import Mathlib.Data.List.Lemmas

/-!
# The queues of all levels

All resting nodes, in the order in which they came to rest, form one list `rest`.  The queue of a level is the part of
`rest` whose nodes carry that side and level index; a node says itself to which queue it belongs, so the queues are
disjoint.  `LevelQueues st lvl rest` says that every level threads its queue and caches its size.  Linking a node,
unlinking one and reducing one keep it.
-/

namespace Exchange

def atLevel (st : Heap) (s : Side) (i : Nat) (n : Nat) : Bool :=
  decide ((st n).order.side = s ∧ (st n).levelIndex = i)

def queueAt (st : Heap) (rest : List Nat) (s : Side) (i : Nat) : List Nat := rest.filter (atLevel st s i)

structure LevelQueues (st : Heap) (lvl : Side → Nat → PriceLevel) (rest : List Nat) : Prop where
  threaded : ∀ s i, Threaded st (lvl s i) (queueAt st rest s i)
  total : ∀ s i, (lvl s i).totalQuantity = ((queueAt st rest s i).map fun n => (st n).order.remaining).sum
  count : ∀ s i, (lvl s i).orderCount = (queueAt st rest s i).length

section

variable {st st' : Heap} {lvl lvl' : Side → Nat → PriceLevel} {rest : List Nat} {s : Side} {i n : Nat}

theorem mem_queueAt : n ∈ queueAt st rest s i ↔ n ∈ rest ∧ (st n).order.side = s ∧ (st n).levelIndex = i := by
  simp [queueAt, atLevel]

theorem queueAt_congr
    (h : ∀ x ∈ rest, (st' x).order.side = (st x).order.side ∧ (st' x).levelIndex = (st x).levelIndex) :
    queueAt st' rest s i = queueAt st rest s i := by
  unfold queueAt
  apply List.filter_congr
  intro x hx
  simp only [atLevel, (h x hx).1, (h x hx).2]

/-- A node belongs to one queue only. -/
theorem not_mem_queueAt_of_ne {s₀ : Side} {i₀ : Nat} (h : ¬ (s = s₀ ∧ i = i₀)) (hn : n ∈ queueAt st rest s i) :
    n ∉ queueAt st rest s₀ i₀ := by
  intro hn'
  rw [mem_queueAt] at hn hn'
  exact h ⟨hn.2.1.symm.trans hn'.2.1, hn.2.2.symm.trans hn'.2.2⟩

private theorem sum_remaining_congr {l : List Nat} (h : ∀ x ∈ l, (st' x).order = (st x).order) :
    (l.map fun x => (st' x).order.remaining).sum = (l.map fun x => (st x).order.remaining).sum := by
  congr 1
  apply List.map_congr_left
  intro x hx
  rw [h x hx]

theorem LevelQueues.nodup (h : LevelQueues st lvl rest) : (queueAt st rest s i).Nodup := (h.threaded s i).nodup

theorem LevelQueues.tail_mem (h : LevelQueues st lvl rest) (ht : (lvl s i).tail = some n) :
    n ∈ queueAt st rest s i :=
  List.mem_of_getLast? ((h.threaded s i).tail_eq ▸ ht)

/-- A change of the queue of `s₀` and `i₀` that leaves the other queues and their nodes alone. -/
theorem LevelQueues.update {rest' : List Nat} (h : LevelQueues st lvl rest) (s₀ : Side) (i₀ : Nat)
    (hlvl : ∀ s i, ¬ (s = s₀ ∧ i = i₀) → lvl' s i = lvl s i)
    (hqueue : ∀ s i, ¬ (s = s₀ ∧ i = i₀) → queueAt st' rest' s i = queueAt st rest s i)
    (hnode : ∀ s i, ¬ (s = s₀ ∧ i = i₀) → ∀ x ∈ queueAt st rest s i, st' x = st x)
    (hthreaded : Threaded st' (lvl' s₀ i₀) (queueAt st' rest' s₀ i₀))
    (htotal : (lvl' s₀ i₀).totalQuantity = ((queueAt st' rest' s₀ i₀).map fun n => (st' n).order.remaining).sum)
    (hcount : (lvl' s₀ i₀).orderCount = (queueAt st' rest' s₀ i₀).length) : LevelQueues st' lvl' rest' := by
  refine ⟨fun s i => ?_, fun s i => ?_, fun s i => ?_⟩ <;> by_cases hsi : s = s₀ ∧ i = i₀
  · obtain ⟨rfl, rfl⟩ := hsi
    exact hthreaded
  · rw [hlvl s i hsi, hqueue s i hsi]
    exact (h.threaded s i).congr (hnode s i hsi)
  · obtain ⟨rfl, rfl⟩ := hsi
    exact htotal
  · have hsum := sum_remaining_congr fun x hx => congrArg OrderNode.order (hnode s i hsi x hx)
    rw [hlvl s i hsi, hqueue s i hsi, hsum, h.total]
  · obtain ⟨rfl, rfl⟩ := hsi
    exact hcount
  · rw [hlvl s i hsi, hqueue s i hsi, h.count]

/-- Linking the fresh node `n`, which has been given its order and its level index, behind its queue. -/
theorem LevelQueues.push {st₁ : Heap} {s₀ : Side} {i₀ : Nat} (h : LevelQueues st lvl rest) (hn : n ∉ rest)
    (hst : ∀ x, x ≠ n → st₁ x = st x) (hs : (st₁ n).order.side = s₀) (hi : (st₁ n).levelIndex = i₀)
    (hlvl : ∀ s i, lvl' s i = if s = s₀ ∧ i = i₀ then (levelPushBack st₁ (lvl s₀ i₀) n).2 else lvl s i) :
    LevelQueues (levelPushBack st₁ (lvl s₀ i₀) n).1 lvl' (rest ++ [n]) := by
  have hsame := levelPushBack_sameOrders st₁ (lvl s₀ i₀) n
  generalize hst' : (levelPushBack st₁ (lvl s₀ i₀) n).1 = st' at *
  have hold : ∀ x ∈ rest, (st' x).order = (st x).order ∧ (st' x).levelIndex = (st x).levelIndex := by
    intro x hx
    have hxn : x ≠ n := by rintro rfl; exact hn hx
    rw [(hsame x).1, (hsame x).2, hst x hxn]
    exact ⟨rfl, rfl⟩
  have hq : ∀ s i, queueAt st' (rest ++ [n]) s i =
      queueAt st rest s i ++ if s = s₀ ∧ i = i₀ then [n] else [] := by
    intro s i
    have h1 : queueAt st' (rest ++ [n]) s i = queueAt st' rest s i ++ queueAt st' [n] s i := by
      simp [queueAt]
    rw [h1, queueAt_congr fun x hx => ⟨by rw [(hold x hx).1], (hold x hx).2⟩]
    congr 1
    have hat : atLevel st' s i n = decide (s = s₀ ∧ i = i₀) := by
      simp only [atLevel, (hsame n).1, (hsame n).2, hs, hi, eq_comm]
    simp only [queueAt, List.filter_cons, List.filter_nil, hat, decide_eq_true_eq]
  have hq₀ : queueAt st' (rest ++ [n]) s₀ i₀ = queueAt st rest s₀ i₀ ++ [n] := by rw [hq, if_pos ⟨rfl, rfl⟩]
  have hlvl₀ : lvl' s₀ i₀ = (levelPushBack st₁ (lvl s₀ i₀) n).2 := by rw [hlvl, if_pos ⟨rfl, rfl⟩]
  have hnq : ∀ s i, n ∉ queueAt st rest s i := fun s i hm => hn (mem_queueAt.1 hm).1
  refine h.update s₀ i₀ (fun s i hsi => ?_) (fun s i hsi => ?_) (fun s i hsi x hx => ?_) ?_ ?_ ?_
  · rw [hlvl, if_neg hsi]
  · rw [hq, if_neg hsi, List.append_nil]
  · -- the only older node that changes is the last one of the queue that grows
    have hxn : x ≠ n := by rintro rfl; exact hnq s i hx
    have hxt : (lvl s₀ i₀).tail ≠ some x := fun e => not_mem_queueAt_of_ne hsi hx (h.tail_mem e)
    rw [← hst', levelPushBack_of_ne hxn hxt, hst x hxn]
  · have hcongr : Threaded st₁ (lvl s₀ i₀) (queueAt st rest s₀ i₀) :=
      (h.threaded s₀ i₀).congr fun x hx => hst x (by rintro rfl; exact hnq s₀ i₀ hx)
    rw [hq₀, hlvl₀, ← hst']
    exact hcongr.push_back (hnq s₀ i₀)
  · have hsum := sum_remaining_congr fun x (hx : x ∈ queueAt st rest s₀ i₀) => (hold x (mem_queueAt.1 hx).1).1
    rw [hq₀, hlvl₀, levelPushBack_totalQuantity, h.total, List.map_append, List.sum_append, hsum, List.map_cons,
      List.map_nil, List.sum_cons, List.sum_nil, (hsame n).1, add_zero]
  · rw [hq₀, hlvl₀]
    simp [h.count]

private theorem erase_mid {a c : List Nat} (h : (a ++ n :: c).Nodup) : (a ++ n :: c).erase n = a ++ c := by
  have hna : n ∉ a := fun hm => (List.nodup_append.1 h).2.2 n hm n (List.mem_cons_self ..) rfl
  rw [List.erase_append_right _ hna]
  simp

theorem queueAt_erase (hnd : rest.Nodup) (s : Side) (i : Nat) :
    queueAt st (rest.erase n) s i = (queueAt st rest s i).erase n := by
  unfold queueAt
  rw [hnd.erase_eq_filter, (hnd.filter _).erase_eq_filter, List.filter_filter, List.filter_filter]
  apply List.filter_congr
  intro x _
  exact Bool.and_comm _ _

/-- Unlinking the node `n`; afterwards the contents of `n` itself no longer matter. -/
theorem LevelQueues.unlink {s₀ : Side} {i₀ : Nat} (h : LevelQueues st lvl rest) (hnd : rest.Nodup) (hn : n ∈ rest)
    (hs : (st n).order.side = s₀) (hi : (st n).levelIndex = i₀)
    (hst : ∀ x, x ≠ n → st' x = (levelUnlink st (lvl s₀ i₀) n).1 x)
    (hlvl : ∀ s i, lvl' s i = if s = s₀ ∧ i = i₀ then (levelUnlink st (lvl s₀ i₀) n).2 else lvl s i) :
    LevelQueues st' lvl' (rest.erase n) := by
  have hsame := levelUnlink_sameOrders st (lvl s₀ i₀) n
  have hmem : n ∈ queueAt st rest s₀ i₀ := mem_queueAt.2 ⟨hn, hs, hi⟩
  obtain ⟨a, c, hac⟩ := List.append_of_mem hmem
  have hthr := h.threaded s₀ i₀
  rw [hac] at hthr
  have hqnd := hthr.nodup
  have herase : (queueAt st rest s₀ i₀).erase n = a ++ c := by rw [hac, erase_mid hqnd]
  have hne : ∀ x ∈ rest.erase n, x ≠ n := fun x hx => by
    rintro rfl
    exact hnd.not_mem_erase hx
  have hold : ∀ x ∈ rest.erase n, (st' x).order = (st x).order ∧ (st' x).levelIndex = (st x).levelIndex := by
    intro x hx
    rw [hst x (hne x hx)]
    exact hsame x
  have hq : ∀ s i, queueAt st' (rest.erase n) s i = (queueAt st rest s i).erase n := by
    intro s i
    rw [queueAt_congr fun x hx => ⟨by rw [(hold x hx).1], (hold x hx).2⟩, queueAt_erase hnd]
  have hq' : ∀ s i, ¬ (s = s₀ ∧ i = i₀) → queueAt st' (rest.erase n) s i = queueAt st rest s i := by
    intro s i hsi
    rw [hq, List.erase_of_not_mem]
    exact fun hm => not_mem_queueAt_of_ne hsi hm hmem
  have hlvl₀ : lvl' s₀ i₀ = (levelUnlink st (lvl s₀ i₀) n).2 := by rw [hlvl, if_pos ⟨rfl, rfl⟩]
  have hsub : ∀ x ∈ a ++ c, x ∈ rest.erase n := by
    rw [← herase, ← hq]
    exact fun x hx => (mem_queueAt.1 hx).1
  refine h.update s₀ i₀ (fun s i hsi => ?_) hq' (fun s i hsi x hx => ?_) ?_ ?_ ?_
  · rw [hlvl, if_neg hsi]
  · have hxn : x ≠ n := by rintro rfl; exact not_mem_queueAt_of_ne hsi hx hmem
    have hxq : x ∉ a ++ n :: c := hac ▸ not_mem_queueAt_of_ne hsi hx
    obtain ⟨hp, hnx⟩ := DList.mid hthr
    -- the neighbours of `n` are in its own queue
    have hxp : (st n).prev ≠ some x := fun e =>
      hxq (List.mem_append_left _ (List.mem_of_getLast? (hp ▸ e)))
    have hxnx : (st n).next ≠ some x := fun e =>
      hxq (List.mem_append_right _ (List.mem_cons_of_mem _ (List.mem_of_head? (hnx ▸ e))))
    have hnn : (st n).prev ≠ some n := fun e =>
      (List.nodup_append.1 hqnd).2.2 n (List.mem_of_getLast? (hp ▸ e)) n (List.mem_cons_self ..) rfl
    rw [hst x hxn, levelUnlink_apply hxn hnn, if_neg hxp, if_neg hxnx]
  · rw [hq, herase, hlvl₀]
    exact hthr.unlink.congr fun x hx => hst x (hne x (hsub x hx))
  · have hsum := sum_remaining_congr fun x hx => (hold x (hsub x hx)).1
    have htot := h.total s₀ i₀
    rw [hac] at htot
    rw [hq, herase, hsum, hlvl₀, levelUnlink_totalQuantity, htot]
    simp only [List.map_append, List.map_cons, List.sum_append, List.sum_cons]
    omega
  · rw [hq, hlvl₀]
    simp [h.count, List.length_erase_of_mem hmem]

/-- Reducing the remaining quantity of the node `n` in place, in the node and in the aggregate of its level. -/
theorem LevelQueues.reduce {s₀ : Side} {i₀ : Nat} {q : Int} (h : LevelQueues st lvl rest) (hn : n ∈ rest)
    (hs : (st n).order.side = s₀) (hi : (st n).levelIndex = i₀)
    (hst : st' = st.modify n fun x => { x with order := { x.order with remaining := x.order.remaining - q } })
    (hlvl : ∀ s i, lvl' s i =
      if s = s₀ ∧ i = i₀ then { lvl s₀ i₀ with totalQuantity := (lvl s₀ i₀).totalQuantity - q } else lvl s i) :
    LevelQueues st' lvl' rest := by
  have hother : ∀ x, x ≠ n → st' x = st x := fun x hx => by rw [hst, Heap.modify_of_ne hx]
  have hself : st' n = { st n with order := { (st n).order with remaining := (st n).order.remaining - q } } := by
    rw [hst, Heap.modify_self]
  have hq : ∀ s i, queueAt st' rest s i = queueAt st rest s i := by
    intro s i
    apply queueAt_congr
    intro x _
    by_cases hx : x = n
    · subst hx; rw [hself]; exact ⟨rfl, rfl⟩
    · rw [hother x hx]; exact ⟨rfl, rfl⟩
  have hmem : n ∈ queueAt st rest s₀ i₀ := mem_queueAt.2 ⟨hn, hs, hi⟩
  have hlvl₀ : lvl' s₀ i₀ = { lvl s₀ i₀ with totalQuantity := (lvl s₀ i₀).totalQuantity - q } := by
    rw [hlvl, if_pos ⟨rfl, rfl⟩]
  refine h.update s₀ i₀ (fun s i hsi => ?_) (fun s i _ => hq s i) (fun s i hsi x hx => ?_) ?_ ?_ ?_
  · rw [hlvl, if_neg hsi]
  · exact hother x (by rintro rfl; exact not_mem_queueAt_of_ne hsi hx hmem)
  · rw [hq, hlvl₀]
    refine DList.congr (h.threaded s₀ i₀) fun x _ => ?_
    by_cases hx : x = n
    · subst hx; rw [hself]; exact ⟨rfl, rfl⟩
    · rw [hother x hx]; exact ⟨rfl, rfl⟩
  · obtain ⟨a, c, hac⟩ := List.append_of_mem hmem
    have hnd : (queueAt st rest s₀ i₀).Nodup := h.nodup
    have htot := h.total s₀ i₀
    rw [hac] at hnd htot
    obtain ⟨-, hnc, hdis⟩ := List.nodup_append.1 hnd
    have ha := sum_remaining_congr fun x (hx : x ∈ a) => congrArg OrderNode.order
      (hother x (hdis x hx n (List.mem_cons_self ..)))
    have hc := sum_remaining_congr fun x (hx : x ∈ c) => congrArg OrderNode.order
      (hother x (by rintro rfl; exact (List.nodup_cons.1 hnc).1 hx))
    rw [hq, hlvl₀, hac]
    simp only [List.map_append, List.map_cons, List.sum_append, List.sum_cons, ha, hc, hself] at htot ⊢
    omega
  · rw [hq, hlvl₀]
    exact h.count s₀ i₀

end

end Exchange
