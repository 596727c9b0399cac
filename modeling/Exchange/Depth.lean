import Exchange.Refinement
import Exchange.Publisher

/-!
# The depth of the book

What a subscriber of the market data feed is to see: for every non-empty level its aggregate quantity and its order
count. The depth of a book is the depth of the list of orders it holds, and a call changes it only at the levels of
its fills and where its order comes to rest.
-/

namespace Exchange

open OrderBook DenseMap

/-- The subscriber's map. -/
abbrev View : Type := Side → Int → Option (Int × Nat)

def applyMessage (v : View) : Message → View
  | .bookDelta d => fun s p =>
    if s = d.side ∧ p = d.price then
      match d.action with
      | .update => some (d.aggregateQuantity, d.orderCount)
      | .delete => none
    else v s p
  | .trade _ => v
  | .executionReport _ => v
  | .bookSnapshot _ => v

def viewOf (msgs : List Message) : View := msgs.foldl applyMessage fun _ _ => none

theorem viewOf_concat (msgs : List Message) (m : Message) : viewOf (msgs ++ [m]) = applyMessage (viewOf msgs) m := by
  simp [viewOf]

/-- Only deltas count. -/
theorem viewOf_append {ms ms' : List Message} (h : ∀ d, Message.bookDelta d ∉ ms') :
    viewOf (ms ++ ms') = viewOf ms := by
  induction ms' generalizing ms with
  | nil => rw [List.append_nil]
  | cons m ms' ih =>
    have hm : applyMessage (viewOf ms) m = viewOf ms := by
      cases m with
      | bookDelta d => exact absurd (List.mem_cons_self ..) (h d)
      | _ => rfl
    rw [List.append_cons, ih fun d hd => h d (List.mem_cons_of_mem _ hd), viewOf_concat, hm]

/-- The non-empty levels of the book. -/
def OrderBook.depth {P : Params} {M : Type} (b : OrderBook P M) : View := fun s p =>
  match b.levelAt s p with
  | none => none
  | some level => if level.orderCount = 0 then none else some (level.totalQuantity, level.orderCount)

/-! ### The depth of a list of orders -/

def depthOf (L : List Order) : View := fun s p =>
  if ordersAt s p L = [] then none
  else some (((ordersAt s p L).map Order.remaining).sum, (ordersAt s p L).length)

section

variable {P : Params} {M : Type} [DenseMap M OrderId Nat] {b : OrderBook P M} {L : List Order}

theorem OrderBook.Holds.ordersAt_eq_nil (h : b.Holds L) {p : Int} (hp : b.indexOf p = none) (s : Side) :
    ordersAt s p L = [] := by
  rw [List.eq_nil_iff_forall_not_mem]
  intro o ho
  obtain ⟨hoL, -, rfl⟩ := mem_ordersAt.1 ho
  obtain ⟨i, hi, hprice⟩ := h.price hoL
  have hsome := indexOf_priceAt (b := b) hi
  rw [← hprice, hp] at hsome
  cases hsome

theorem OrderBook.Holds.depth_eq (h : b.Holds L) : b.depth = depthOf L := by
  funext s p
  unfold OrderBook.depth depthOf levelAt
  cases hi : b.indexOf p with
  | none =>
    have hnil := h.ordersAt_eq_nil hi s
    rw [Option.map_none, if_pos hnil]
  | some i =>
    have hp : p = b.priceAt i := (indexOf_eq_some.1 hi).2
    have hlevel := h.level s i
    rw [Option.map_some, hp]
    dsimp only
    rw [hlevel.1, hlevel.2]
    by_cases hnil : ordersAt s (b.priceAt i) L = []
    · rw [if_pos hnil, hnil]
      rfl
    · have hlen : (ordersAt s (b.priceAt i) L).length ≠ 0 := fun e => hnil (List.length_eq_zero_iff.1 e)
      rw [if_neg hnil, if_neg hlen]

end

/-! ### Levels a call does not touch -/

section

variable {P : Params} {r r' : RefEngine P} {a a' o : Order} {fs : List Fill} {L : List Order} {s : Side} {p q : Int}

theorem ordersAt_reduceOrder (h : DistinctIds L) (ho : o ∈ L) (hne : ¬ (s = o.side ∧ p = o.price)) :
    ordersAt s p (reduceOrder o.id q L) = ordersAt s p L := by
  obtain ⟨l, t, rfl⟩ := List.append_of_mem ho
  have ho' : ¬ (o.side = s ∧ o.price = p) := fun e => hne ⟨e.1.symm, e.2.symm⟩
  have hleft : (leftover o q).filter (fun x => decide (x.side = s ∧ x.price = p)) = [] := by
    unfold leftover
    split_ifs <;> simp [ho']
  unfold ordersAt
  rw [reduceOrder_append h, List.filter_append, List.filter_append, hleft, List.filter_append, List.filter_cons]
  simp [ho']

theorem ordersAt_removeOrder (h : DistinctIds L) (ho : o ∈ L) (hne : ¬ (s = o.side ∧ p = o.price)) :
    ordersAt s p (removeOrder o.id L) = ordersAt s p L := by
  obtain ⟨l, t, rfl⟩ := List.append_of_mem ho
  have ho' : ¬ (o.side = s ∧ o.price = p) := fun e => hne ⟨e.1.symm, e.2.symm⟩
  unfold ordersAt
  rw [removeOrder_append h, List.filter_append, List.filter_append, List.filter_cons]
  simp [ho']

namespace RefEngine

/-- A sweep changes only the levels of its fills. -/
theorem Sweep.ordersAt_eq (h : Sweep a r fs a' r') (hr : r.Valid)
    (hne : ∀ f ∈ fs, ¬ (s = opposite f.aggressorSide ∧ p = f.price)) :
    ordersAt s p r'.resting = ordersAt s p r.resting := by
  induction h with
  | done a r => rfl
  | @fill a o a' r r' fs _ hpick _ ih =>
    obtain ⟨ho, hacc⟩ := pick_mem hpick
    have hside : o.side = opposite a.side := of_decide_eq_true (Bool.and_eq_true_iff.1 hacc).1
    have hrest := ih (hr.afterFill ho a) fun f hf => hne f (List.mem_cons_of_mem _ hf)
    have hfirst := hne _ (List.mem_cons_self ..)
    have hlevel : ¬ (s = o.side ∧ p = o.price) := by rw [hside]; exact hfirst
    rw [hrest]
    exact ordersAt_reduceOrder hr.ids ho hlevel

/-- A submission changes only the levels of its fills and the level where its order comes to rest. -/
theorem Submitted.ordersAt_eq {res : NewOrderResult} (h : Submitted r o res r' fs) (hr : r.Valid)
    (hne : ∀ f ∈ fs, ¬ (s = opposite f.aggressorSide ∧ p = f.price))
    (hrest : res.rested = true → ¬ (s = o.side ∧ p = o.price)) :
    ordersAt s p r'.resting = ordersAt s p r.resting := by
  cases h with
  | refused _ _ => rfl
  | @rested _ a r₁ hx _ _ _ _ =>
    have hsweep := hx.sweep.ordersAt_eq hr hne
    have ha := hx.aggressor
    have hlevel := hrest rfl
    have hnot : ¬ (a.side = s ∧ a.price = p) := by
      rw [ha]
      exact fun e => hlevel ⟨e.1.symm, e.2.symm⟩
    rw [← hsweep]
    simp [ordersAt, List.filter_append, hnot]
  | full hx _ _ _ _ => exact hx.sweep.ordersAt_eq hr hne
  | ended hx _ => exact hx.sweep.ordersAt_eq hr hne

end RefEngine

end

end Exchange
