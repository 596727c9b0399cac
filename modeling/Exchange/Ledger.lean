import Exchange.Refinement

/-!
# The volume ledger

An observer who sees only what the calls return keeps a ledger of the quantity of every resting order.  The ledger
never meets a fill it cannot account for, and after every call it lists exactly the resting orders with what is left
of them.
-/

namespace Exchange

open OrderBook DenseMap

abbrev Ledger : Type := AList fun _ : OrderId => Int

/-- A fill takes its quantity from the resting order; `none` if the ledger does not have that much of it. -/
def ledgerFill (l : Ledger) (f : Fill) : Option Ledger :=
  match l.lookup f.restingOrderId with
  | none => none
  | some q =>
    if q < f.quantity then none
    else if q = f.quantity then some (l.erase f.restingOrderId)
    else some (l.insert f.restingOrderId (q - f.quantity))

def ledgerFills : Ledger → List Fill → Option Ledger
  | l, [] => some l
  | l, f :: fs => (ledgerFill l f).bind fun l => ledgerFills l fs

def ledgerRest (rested : Bool) (id : OrderId) (remainingAfter : Int) (l : Ledger) : Ledger :=
  if rested then l.insert id remainingAfter else l

/-- What the observer does with the response to a call. -/
def ledgerStep (l : Ledger) : Call → Response → Option Ledger
  | .submit o out, .submit res fills =>
    (ledgerFills l (fills.drop out.length)).map (ledgerRest res.rested o.id res.remainingAfter)
  | .cancel id, .cancel res => some (if res.accepted then l.erase id else l)
  | .replace id _ _ _ _ out, .replace res fills =>
    (ledgerFills (if res.accepted then l.erase id else l) (fills.drop out.length)).map
      (ledgerRest res.rested id res.remainingAfter)
  | _, _ => none

/-- A call of the engine, watched by the observer. -/
def MatchingEngine.watchedCall {P : Params} {M : Type} [DenseMap M OrderId Nat] (s : MatchingEngine P M × Ledger)
    (c : Call) : Option (Response × MatchingEngine P M × Ledger) :=
  match s.1.call c with
  | none => none
  | some (resp, e) => (ledgerStep s.2 c resp).map fun l => (resp, e, l)

/-- The fills of a submission and what remains after it add up to the order. -/
def Conserves : Call → Response → Prop
  | .submit o out, .submit res fills =>
    ∃ fs, fills = out ++ fs ∧ (fs.map Fill.quantity).sum + res.remainingAfter = o.quantity
  | _, _ => True

/-! ### Agreement with the resting orders -/

def Agrees (l : Ledger) (L : List Order) : Prop :=
  ∀ id q, l.lookup id = some q ↔ ∃ o ∈ L, o.id = id ∧ o.remaining = q

section

variable {l : Ledger} {L : List Order} {o : Order}

theorem agrees_nil : Agrees ∅ [] := by
  intro id q
  simp

theorem Agrees.lookup_eq (h : Agrees l L) (ho : o ∈ L) : l.lookup o.id = some o.remaining :=
  (h _ _).2 ⟨o, ho, rfl, rfl⟩

theorem Agrees.size (h : Agrees l L) (hids : DistinctIds L) : l.keys.length = L.length := by
  rw [← List.length_map Order.id]
  refine List.Perm.length_eq ((List.perm_ext_iff_of_nodup l.keys_nodup hids).2 fun id => ?_)
  rw [← AList.mem_keys, ← AList.lookup_isSome, Option.isSome_iff_exists, List.mem_map]
  constructor
  · rintro ⟨q, hq⟩
    obtain ⟨o, ho, hid, -⟩ := (h id q).1 hq
    exact ⟨o, ho, hid⟩
  · rintro ⟨o, ho, rfl⟩
    exact ⟨_, h.lookup_eq ho⟩

theorem Agrees.erase (h : Agrees l L) (id : OrderId) : Agrees (l.erase id) (removeOrder id L) := by
  intro id' q
  by_cases hid : id' = id
  · subst hid
    rw [AList.lookup_erase]
    simp only [reduceCtorEq, false_iff]
    rintro ⟨o, ho, hoid, -⟩
    exact (mem_removeOrder.1 ho).2 hoid
  · rw [AList.lookup_erase_ne hid, h]
    constructor
    · rintro ⟨o, ho, rfl, hq⟩
      exact ⟨o, mem_removeOrder.2 ⟨ho, hid⟩, rfl, hq⟩
    · rintro ⟨o, ho, hoid, hq⟩
      exact ⟨o, (mem_removeOrder.1 ho).1, hoid, hq⟩

theorem Agrees.insert (h : Agrees l L) (hid : ∀ x ∈ L, x.id ≠ o.id) :
    Agrees (l.insert o.id o.remaining) (L ++ [o]) := by
  intro id q
  by_cases hidq : id = o.id
  · subst hidq
    rw [AList.lookup_insert, Option.some.injEq]
    constructor
    · rintro rfl
      exact ⟨o, by simp, rfl, rfl⟩
    · rintro ⟨x, hx, hxid, hq⟩
      rcases List.mem_append.1 hx with hx | hx
      · exact absurd hxid (hid x hx)
      · obtain rfl : x = o := by simpa using hx
        exact hq
  · rw [AList.lookup_insert_ne hidq, h]
    constructor
    · rintro ⟨x, hx, hxid, hq⟩
      exact ⟨x, by simp [hx], hxid, hq⟩
    · rintro ⟨x, hx, hxid, hq⟩
      rcases List.mem_append.1 hx with hx | hx
      · exact ⟨x, hx, hxid, hq⟩
      · obtain rfl : x = o := by simpa using hx
        exact absurd hxid.symm hidq

/-- The ledger can account for a fill of at most what rests, and follows it. -/
theorem Agrees.fill (h : Agrees l L) (hids : DistinctIds L) (ho : o ∈ L) {f : Fill} (hid : f.restingOrderId = o.id)
    (hle : f.quantity ≤ o.remaining) :
    ∃ l', ledgerFill l f = some l' ∧ Agrees l' (reduceOrder o.id f.quantity L) := by
  unfold ledgerFill
  rw [hid, h.lookup_eq ho]
  dsimp only
  rw [if_neg (not_lt.2 hle)]
  split_ifs with hq
  · refine ⟨_, rfl, fun id q => ?_⟩
    rw [h.erase o.id id q]
    simp only [mem_removeOrder, mem_reduceOrder hids ho, hq, ne_eq, not_true_eq_false, and_false, or_false]
  · refine ⟨_, rfl, fun id q => ?_⟩
    simp only [mem_reduceOrder hids ho]
    by_cases hidq : id = o.id
    · subst hidq
      rw [AList.lookup_insert, Option.some.injEq]
      constructor
      · rintro rfl
        exact ⟨_, Or.inr ⟨rfl, hq⟩, rfl, rfl⟩
      · rintro ⟨x, ⟨-, hne⟩ | ⟨rfl, -⟩, hxid, hxq⟩
        · exact absurd hxid hne
        · exact hxq
    · rw [AList.lookup_insert_ne hidq, h]
      constructor
      · rintro ⟨x, hx, rfl, hxq⟩
        exact ⟨x, Or.inl ⟨hx, hidq⟩, rfl, hxq⟩
      · rintro ⟨x, ⟨hx, -⟩ | ⟨rfl, -⟩, hxid, hxq⟩
        · exact ⟨x, hx, hxid, hxq⟩
        · exact absurd hxid.symm hidq

end

/-! ### The engine and its observer -/

section

variable {P : Params} {r r' : RefEngine P} {a a' o : Order} {fs : List Fill} {l : Ledger}

namespace RefEngine

theorem Sweep.ledger (h : Sweep a r fs a' r') (hr : r.Valid) (hl : Agrees l r.resting) :
    ∃ l', ledgerFills l fs = some l' ∧ Agrees l' r'.resting := by
  induction h generalizing l with
  | done a r => exact ⟨l, rfl, hl⟩
  | @fill a o a' r r' fs _ hpick _ ih =>
    obtain ⟨ho, -⟩ := pick_mem hpick
    obtain ⟨l₁, hfill, hl₁⟩ := hl.fill hr.ids ho
      (f := fillOf r.nextMatchId a o o.price (min a.remaining o.remaining)) rfl (min_le_right ..)
    obtain ⟨l', hfills, hl'⟩ := ih (hr.afterFill ho a) hl₁
    exact ⟨l', by rw [ledgerFills, hfill]; exact hfills, hl'⟩

theorem Submitted.ledger {res : NewOrderResult} (h : Submitted r o res r' fs) (hr : r.Valid)
    (hl : Agrees l r.resting) :
    ∃ l', (ledgerFills l fs).map (ledgerRest res.rested o.id res.remainingAfter) = some l' ∧ Agrees l' r'.resting := by
  cases h with
  | refused _ _ => exact ⟨l, rfl, hl⟩
  | @rested _ a _ hx _ _ _ hrest =>
    obtain ⟨l', hfills, hl'⟩ := hx.sweep.ledger hr hl
    have hid : a.id = o.id := by rw [hx.aggressor]
    refine ⟨_, by rw [hfills]; rfl, ?_⟩
    rw [← hid]
    exact hl'.insert hrest.2.1
  | full hx _ _ _ _ =>
    obtain ⟨l', hfills, hl'⟩ := hx.sweep.ledger hr hl
    exact ⟨l', by rw [hfills]; rfl, hl'⟩
  | ended hx _ =>
    obtain ⟨l', hfills, hl'⟩ := hx.sweep.ledger hr hl
    exact ⟨l', by rw [hfills]; rfl, hl'⟩

end RefEngine

end

section

variable {P : Params} {M : Type} [DenseMap M OrderId Nat]

/-- The engine implements a reference state with which the ledger agrees. -/
def Watched (s : MatchingEngine P M × Ledger) : Prop := ∃ r, Refines s.1 r ∧ Agrees s.2 r.resting

theorem watchedCall_step (s : MatchingEngine P M × Ledger) (c : Call) (h : Watched s) :
    ∃ resp s', MatchingEngine.watchedCall s c = some (resp, s') ∧ Watched s' ∧ Conserves c resp := by
  obtain ⟨e, l⟩ := s
  obtain ⟨r, hR, hl⟩ := h
  unfold MatchingEngine.watchedCall
  cases c with
  | submit o out =>
    obtain ⟨res, e', r', fs, he, -, hsub, hR'⟩ := submit_sim hR o out
    obtain ⟨l', hstep, hl'⟩ := hsub.ledger hR.valid hl
    refine ⟨.submit res (out ++ fs), (e', l'), ?_, ⟨r', hR', hl'⟩, fs, rfl, hsub.quantity⟩
    rw [MatchingEngine.call, he]
    dsimp only [Option.map_some]
    rw [ledgerStep, List.drop_left, hstep]
    rfl
  | cancel id =>
    obtain ⟨hres, hR'⟩ := cancel_sim hR id
    refine ⟨_, (_, if (e.cancel id).1.accepted then l.erase id else l), rfl, ⟨_, hR', ?_⟩, trivial⟩
    rw [hres]
    unfold RefEngine.cancel
    split
    · exact hl.erase id
    · exact hl
  | replace id p q seq ts out =>
    obtain ⟨res, e', r', fs, he, -, hrep, hR'⟩ := replace_sim hR id p q seq ts out
    suffices ∃ l', (ledgerFills (if res.accepted then l.erase id else l) fs).map
        (ledgerRest res.rested id res.remainingAfter) = some l' ∧ Agrees l' r'.resting by
      obtain ⟨l', hstep, hl'⟩ := this
      refine ⟨.replace res (out ++ fs), (e', l'), ?_, ⟨r', hR', hl'⟩, trivial⟩
      rw [MatchingEngine.call, he]
      dsimp only [Option.map_some]
      rw [ledgerStep, List.drop_left, hstep]
      rfl
    cases hrep with
    | unknownOrder _ => exact ⟨l, rfl, hl⟩
    | invalidQuantity _ _ => exact ⟨l, rfl, hl⟩
    | invalidPrice _ _ _ => exact ⟨l, rfl, hl⟩
    | resubmitted hmem hid hq hp hsub =>
      subst hid
      have haccepted := hsub.accepted_of_replaced hR.valid hmem hq hp
      unfold MatchingEngine.replaceResult
      rw [haccepted]
      exact hsub.ledger (hR.valid.removeOrder _) (hl.erase _)

end

/-- The ledger of an observer agrees with the book.  A watched run from the empty engine never fails: every fill
refers to an order in the ledger and takes at most its quantity.  Afterwards the ledger has the ids and remaining
quantities of the resting orders, and the fills and remainder of every submission add up to the order. -/
theorem ledger_agrees {P : Params} {M : Type} [DenseMap M OrderId Nat] (symbol : SymbolId) (basePrice : Int)
    (calls : List Call) :
    ∃ resps e l, runAll MatchingEngine.watchedCall (MatchingEngine.new P M symbol basePrice, ∅) calls =
        some (resps, e, l) ∧
      (∀ id, l.lookup id = (e.book.findNode id).map fun n => (e.book.node n).order.remaining) ∧
      e.book.orderCount = l.keys.length ∧ List.Forall₂ Conserves calls resps := by
  obtain ⟨resps, ⟨e, l⟩, hrun, ⟨r, hR, hl⟩, hcons⟩ := runAll_rule Watched Conserves watchedCall_step calls
    (MatchingEngine.new P M symbol basePrice, ∅) ⟨_, refines_new symbol basePrice, agrees_nil⟩
  refine ⟨resps, e, l, hrun, fun id => ?_, ?_, hcons⟩
  · cases hfind : e.book.findNode id with
    | none =>
      have hnone := (hR.holds.findNode_eq_none id).1 hfind
      cases hlook : l.lookup id with
      | none => rfl
      | some q =>
        obtain ⟨o, ho, hid, -⟩ := (hl id q).1 hlook
        exact absurd hid (hnone o ho)
    | some n =>
      obtain ⟨hmem, hid⟩ := hR.holds.findNode_mem hfind
      rw [Option.map_some, ← hid]
      exact hl.lookup_eq hmem
  · rw [hR.holds.orderCount, hl.size hR.valid.ids]

end Exchange
