import Exchange.Remainders
import Exchange.Reports

/-!
# Reported and open quantity

A report says how much of its order is left.  For a new order this is what matching has not filled, whether or not it
rests, and for a refused replace it is 0.  So the report gives the open quantity of the order if a new order is filled
completely or rests, and if a replace of a resting order goes through.  What is open under an id can also be the
quantity of an order that had the id before, and then it takes a coincidence.
-/

namespace Exchange

open OrderBook DenseMap

/-! ### What is left and what is open -/

namespace RefEngine

variable {P : Params} {r r' : RefEngine P} {o a x : Order} {fs : List Fill} {res : NewOrderResult}

/-- What will be reported as left of `o` is what will be open under its id.  If it is refused, an order of just that
quantity has the id; if it is filled, it has filled the order with its id; if something is left of it, that comes to
rest, unless an order of just that quantity keeps the id. -/
structure LeavesOpen (r : RefEngine P) (o : Order) : Prop where
  refused : r.Refuses o → o.quantity = remainingOf o.id r.resting
  filled : ¬ r.Refuses o → o.quantity ≤ liquidity o r.resting → ∀ A x B, r.resting = A ++ x :: B → x.id = o.id →
    acceptable o x = true ∧ quantityThrough o x A B ≤ o.quantity
  rests : ¬ r.Refuses o → liquidity o r.resting < o.quantity →
    (∀ x ∈ r.resting, x.id = o.id → acceptable o x = true) → r.FindsRoom o
  kept : ¬ r.Refuses o → liquidity o r.resting < o.quantity → ∀ x ∈ r.resting, x.id = o.id →
    acceptable o x = false → o.quantity - liquidity o r.resting = x.remaining

theorem leavesOpen_of_refuses (h : r.Refuses o) : r.LeavesOpen o ↔ o.quantity = remainingOf o.id r.resting :=
  ⟨fun hopen => hopen.refused h, fun heq => ⟨fun _ => heq, fun hn => absurd h hn, fun hn => absurd h hn,
    fun hn => absurd h hn⟩⟩

/-- A filled order leaves nothing, so it must have filled what had its id. -/
theorem Executed.filled_iff (h : r.Executed o fs a r') (hr : r.Valid) (hzero : a.remaining = 0) :
    a.remaining = remainingOf o.id r'.resting ↔ r.LeavesOpen o := by
  have hcovered : o.quantity ≤ liquidity o r.resting := by
    have hpos := h.remaining_pos_iff hr
    omega
  rw [hzero]
  constructor
  · intro hgone
    have hfree : ∀ y ∈ r'.resting, y.id ≠ o.id := by
      intro y hy hid
      have hleft := remainingOf_eq (h.valid hr).ids hy
      have hpos := (h.valid hr).remaining_pos y hy
      rw [hid] at hleft
      omega
    refine ⟨fun href => absurd href h.not_refuses, fun _ _ A x B hsplit hid => ?_,
      fun _ hshort => absurd hcovered (not_le.2 hshort), fun _ hshort => absurd hcovered (not_le.2 hshort)⟩
    have hx : x ∈ r.resting := by simp [hsplit]
    have hacc : acceptable o x = true := by
      by_contra hacc
      exact hfree x (h.sweep.mem_of_unacceptable hr hx (Bool.not_eq_true _ ▸ hacc)) hid
    refine ⟨hacc, (h.sweep.gone_iff hr h.settled hsplit hacc).1 ?_⟩
    rw [hid]
    exact hfree
  · intro hopen
    refine (remainingOf_eq_zero ?_).symm
    by_cases hex : ∃ x ∈ r.resting, x.id = o.id
    · obtain ⟨x, hx, hid⟩ := hex
      obtain ⟨A, B, hsplit⟩ := List.append_of_mem hx
      obtain ⟨hacc, hle⟩ := hopen.filled h.not_refuses hcovered A x B hsplit hid
      rw [← hid]
      exact (h.sweep.gone_iff hr h.settled hsplit hacc).2 hle
    · push Not at hex
      exact h.sweep.gone_of_not_mem hr hex

/-- A remainder that does not rest is open only if an order of just that quantity keeps the id. -/
theorem Executed.dropped_iff (h : r.Executed o fs a r') (hr : r.Valid) (hpos : 0 < a.remaining)
    (hroom : ¬ r.FindsRoom o) : a.remaining = remainingOf o.id r'.resting ↔ r.LeavesOpen o := by
  have hshort := (h.remaining_pos_iff hr).1 hpos
  have hrem : a.remaining = o.quantity - liquidity o r.resting := (h.sweep.exhausted hr h.settled hpos).2
  have hrefused : r.Refuses o → o.quantity = remainingOf o.id r.resting := fun href => absurd href h.not_refuses
  by_cases htaken : ∃ x ∈ r.resting, x.id = o.id ∧ acceptable o x = false
  · obtain ⟨x, hx, hid, hacc⟩ := htaken
    have hleft : remainingOf o.id r'.resting = x.remaining := by
      rw [← hid]
      exact remainingOf_eq (h.valid hr).ids (h.sweep.mem_of_unacceptable hr hx hacc)
    rw [hleft, hrem]
    constructor
    · intro heq
      refine ⟨hrefused, fun _ hle => absurd hle (not_le.2 hshort), fun _ _ hall => ?_, fun _ _ y hy hyid _ => ?_⟩
      · rw [hall x hx hid] at hacc
        cases hacc
      · rw [hr.ids.eq_of_id hy hx (hyid.trans hid.symm)]
        exact heq
    · intro hopen
      exact hopen.kept h.not_refuses hshort x hx hid hacc
  · have hgone : remainingOf o.id r'.resting = 0 :=
      remainingOf_eq_zero fun y hy hid => htaken ((h.id_taken_iff hr hpos o.id).1 ⟨y, hy, hid⟩)
    rw [hgone]
    refine iff_of_false hpos.ne' fun hopen => hroom (hopen.rests h.not_refuses hshort fun x hx hid => ?_)
    by_contra hacc
    exact htaken ⟨x, hx, hid, by simpa using hacc⟩

theorem Submitted.leaves_iff (h : r.Submitted o res r' fs) (hr : r.Valid) :
    res.remainingAfter = remainingOf o.id r'.resting ↔ r.LeavesOpen o := by
  have hvalid := h.valid hr
  cases h with
  | refused reason href => exact (leavesOpen_of_refuses href.refuses).symm
  | @rested _ a r₁ hx hpos htype htif hrest =>
    have hroom := (hx.canRest_iff hr hpos htype htif).1 hrest
    have hshort := (hx.remaining_pos_iff hr).1 hpos
    have hid : a.id = o.id := by rw [hx.aggressor]
    have hleft : remainingOf a.id (r₁.resting ++ [a]) = a.remaining := remainingOf_eq hvalid.ids (by simp)
    rw [hid] at hleft
    refine iff_of_true hleft.symm ⟨fun href => absurd href hx.not_refuses, fun _ hle => absurd hle (not_le.2 hshort),
      fun _ _ _ => hroom, fun _ _ x hx hid hacc => ?_⟩
    rw [hroom.id x hx hid] at hacc
    cases hacc
  | @full _ a _ hx hpos htype htif hfull =>
    exact hx.dropped_iff hr hpos fun hroom => hfull ((hx.canRest_iff hr hpos htype htif).2 hroom)
  | @ended _ a _ hx hend =>
    rcases hx.remaining_nonneg.eq_or_lt with hzero | hpos
    · exact hx.filled_iff hr hzero.symm
    · exact hx.dropped_iff hr hpos fun hroom => hend ⟨hpos, hroom.type, hroom.tif⟩

end RefEngine

section

variable {P : Params} {M : Type} [DenseMap M OrderId Nat] {e : MatchingEngine P M} {r : RefEngine P} {o : Order}

/-- The conditions of `RefEngine.LeavesOpen`, read off the book. -/
structure OrderBook.LeavesOpen (b : OrderBook P M) (o : Order) : Prop where
  refused : b.Refuses o → o.quantity = b.restingQuantity o.id
  filled : ¬ b.Refuses o → o.quantity ≤ b.coverage o → ∀ n, b.findNode o.id = some n →
    acceptable o (b.node n).order = true ∧ b.quantityThrough (b.node n).order ≤ o.quantity
  rests : ¬ b.Refuses o → b.coverage o < o.quantity →
    (∀ n, b.findNode o.id = some n → acceptable o (b.node n).order = true) → b.FindsRoom o
  kept : ¬ b.Refuses o → b.coverage o < o.quantity → ∀ n, b.findNode o.id = some n →
    acceptable o (b.node n).order = false → o.quantity - b.coverage o = (b.node n).order.remaining

theorem OrderBook.Holds.restingQuantity {b : OrderBook P M} {L : List Order} (h : b.Holds L) (id : OrderId) :
    b.restingQuantity id = remainingOf id L := by
  by_cases hex : ∃ x ∈ L, x.id = id
  · obtain ⟨x, hx, rfl⟩ := hex
    rw [h.restingQuantity_eq hx, remainingOf_eq h.distinctIds hx]
  · push Not at hex
    rw [h.restingQuantity_eq_zero hex, remainingOf_eq_zero hex]

theorem Refines.filled_iff (h : Refines e r) :
    (∀ n, e.book.findNode o.id = some n →
      acceptable o (e.book.node n).order = true ∧ e.book.quantityThrough (e.book.node n).order ≤ o.quantity) ↔
    ∀ A x B, r.resting = A ++ x :: B → x.id = o.id → acceptable o x = true ∧ quantityThrough o x A B ≤ o.quantity := by
  rw [h.holds.forall_node o.id fun x => acceptable o x = true ∧ e.book.quantityThrough x ≤ o.quantity]
  constructor
  · intro hall A x B hsplit hid
    obtain ⟨hacc, hle⟩ := hall x (by simp [hsplit]) hid
    have hholds := h.holds
    rw [hsplit] at hholds
    exact ⟨hacc, (hholds.quantityThrough hacc).symm.trans_le hle⟩
  · intro hall x hx hid
    obtain ⟨A, B, hsplit⟩ := List.append_of_mem hx
    obtain ⟨hacc, hle⟩ := hall A x B hsplit hid
    have hholds := h.holds
    rw [hsplit] at hholds
    exact ⟨hacc, (hholds.quantityThrough hacc).trans_le hle⟩

theorem Refines.leavesOpen_iff (h : Refines e r) : e.book.LeavesOpen o ↔ r.LeavesOpen o := by
  have hrefuses := h.refuses_iff (o := o)
  have hcoverage := h.holds.coverage o
  have hquantity := h.holds.restingQuantity o.id
  have hacc := h.holds.forall_node o.id fun x => acceptable o x = true
  have hkept := h.holds.forall_node o.id fun x =>
    acceptable o x = false → o.quantity - liquidity o r.resting = x.remaining
  have hfilled := h.filled_iff (o := o)
  have hroom := h.findsRoom_iff (o := o)
  constructor
  · rintro ⟨h₁, h₂, h₃, h₄⟩
    rw [hrefuses, hquantity] at h₁
    rw [hrefuses, hcoverage, hfilled] at h₂
    rw [hrefuses, hcoverage, hacc, hroom] at h₃
    rw [hrefuses, hcoverage, hkept] at h₄
    exact ⟨h₁, h₂, h₃, h₄⟩
  · rintro ⟨h₁, h₂, h₃, h₄⟩
    rw [← hrefuses, ← hquantity] at h₁
    rw [← hrefuses, ← hcoverage, ← hfilled] at h₂
    rw [← hrefuses, ← hcoverage, ← hacc, ← hroom] at h₃
    rw [← hrefuses, ← hkept, ← hcoverage] at h₄
    exact ⟨h₁, h₂, h₃, h₄⟩

end

section

variable {P : Params} {M X : Type} [DenseMap M OrderId Nat] [DenseMap X UInt64 ClientExposure]

/-- A new order that fails the risk check has the quantity of the order under its id, if there is one, and is for
nothing otherwise; one that passes it leaves what will be open; a replace of a resting order goes through. -/
def LeavesKnown (s : ReplayEngine P M X) : Event → Prop
  | .newOrder wire ts =>
    (s.risk.checkNewOrder (s.orderOf wire ts) ≠ .none →
      wire.quantity = s.matching.book.restingQuantity wire.orderId) ∧
    (s.risk.checkNewOrder (s.orderOf wire ts) = .none → s.matching.book.LeavesOpen (s.orderOf wire ts))
  | .replace wire _ => ∀ n, s.matching.book.findNode wire.orderId = some n → s.Replaces wire n
  | _ => True

/-- The reports the event publishes give the open quantity of their orders in the book after it. -/
def LeavesTruthful (s : ReplayEngine P M X) (ev : Event) : Prop :=
  ∃ out s', s.process ev = some (out, s') ∧
    ∀ rep, Message.executionReport rep ∈ s'.feed.sink.drop s.feed.sink.length →
      rep.leavesQuantity = s'.matching.book.restingQuantity rep.orderId

variable {s s' : ReplayEngine P M X} {r r' : RefEngine P} {ev : Event} {out : Option Submission}

/-- An outcome with `leaves` left gives the open quantity under the condition. -/
theorem Outcome.leaves_iff (h : Outcome s r ev out s' r') (hR : Refines s.matching r) {id : OrderId}
    (hid : ev.orderId? = some id) {leaves : Int}
    (hacc : AccountsFor s ((submissionFills out).map Fill.quantity).sum leaves ev) :
    leaves = s'.matching.book.restingQuantity id ↔ LeavesKnown s ev := by
  have hR' : Refines s'.matching r' := (h.handled hR).refines hR
  cases h with
  | @refusedByRisk wire ts hrisk =>
    cases hid
    have hleaves : leaves = wire.quantity := (zero_add leaves).symm.trans hacc
    rw [hR'.holds.restingQuantity, ← hR.holds.restingQuantity, hleaves]
    exact ⟨fun heq => ⟨fun _ => heq, fun hok => absurd hok hrisk⟩, fun hknown => hknown.1 hrisk⟩
  | @submitted wire ts e' _ res fills hrisk hsub _ =>
    cases hid
    have hleaves : leaves = res.remainingAfter := by
      have hsum := hsub.quantity
      have hall : (fills.map Fill.quantity).sum + leaves = wire.quantity := hacc
      have hquantity : (s.orderOf wire ts).quantity = wire.quantity := rfl
      omega
    rw [hR'.holds.restingQuantity, hleaves]
    refine (hsub.leaves_iff hR.valid).trans (hR.leavesOpen_iff.symm.trans ?_)
    exact ⟨fun hopen => ⟨fun hbad => absurd hrisk hbad, fun _ => hopen⟩, fun hknown => hknown.2 hrisk⟩
  | @cancelRefused wire hfree =>
    cases hid
    rw [hR'.holds.restingQuantity_eq_zero hfree]
    exact iff_of_true hacc trivial
  | @cancelled wire o e' hmem hoid _ =>
    cases hid
    have hgone : ∀ x ∈ removeOrder o.id r.resting, x.id ≠ wire.orderId := by
      intro x hx
      rw [← hoid]
      exact (mem_removeOrder.1 hx).2
    rw [hR'.holds.restingQuantity_eq_zero hgone]
    exact iff_of_true hacc trivial
  | @replaceUnknown wire ts hfree =>
    cases hid
    have hnone := (hR.holds.findNode_eq_none _).2 hfree
    have hknown : LeavesKnown s (.replace wire ts) := by
      intro n hn
      rw [hnone] at hn
      cases hn
    rw [hR'.holds.restingQuantity_eq_zero hfree]
    exact iff_of_true (hacc.2 (not_replaces_of_free hR hfree)) hknown
  | @replaceRefused wire ts n o e' reason horder hmem hoid hbad _ =>
    cases hid
    have hnot := not_replaces hR hbad
    have hopen := hR'.holds.restingQuantity_eq hmem
    have hpos := hR.holds.remaining_pos hmem
    obtain ⟨m, hm, -⟩ := hR.holds.exists_node hmem
    rw [hoid] at hopen hm
    rw [hopen, hacc.2 hnot]
    exact iff_of_false hpos.ne fun hknown => hnot m (hknown m hm)
  | @replaced wire ts n o e' _ res fills hrep horder hmem hoid hsub hres _ =>
    cases hid
    rw [ReplayEngine.replacement, horder] at hsub
    have hkept := (Refines.replacement_kept hR.valid hmem hR' hsub hres).1
    have hall : (fills.map Fill.quantity).sum + leaves = wire.newQuantity := hacc.1 n hrep
    rw [hoid] at hkept
    refine iff_of_true (by omega) ?_
    intro m hm
    exact ⟨hm, hrep.quantity, hrep.price⟩
  | engageKillSwitch => cases hid
  | disengageKillSwitch => cases hid

theorem leavesTruthful_iff (hR : Refines s.matching r) : LeavesTruthful s ev ↔ LeavesKnown s ev := by
  obtain ⟨out, s', r', hprocess, houtcome⟩ := process_outcome hR ev
  have hstep : LeavesTruthful s ev ↔
      ∀ rep, Message.executionReport rep ∈ s'.feed.sink.drop s.feed.sink.length →
        rep.leavesQuantity = s'.matching.book.restingQuantity rep.orderId := by
    simp [LeavesTruthful, hprocess]
  rw [hstep]
  cases hid : ev.orderId? with
  | none =>
    -- the kill switch is operated, and nothing is published
    cases houtcome with
    | engageKillSwitch => exact iff_of_true (by simp) trivial
    | disengageKillSwitch => exact iff_of_true (by simp) trivial
    | _ => cases hid
  | some id =>
    have hpriced : ev.Priced fun _ => True := by cases ev <;> trivial
    obtain ⟨ms, rep, hans⟩ := houtcome.answers (Q := fun _ => True) hR (fun _ _ => trivial) hpriced hid
    have haccounts := hans.accounts
    rw [hans.lastQuantity] at haccounts
    rw [hans.report_iff, hans.orderId]
    exact houtcome.leaves_iff hR hid haccounts

/-- Every run goes through, and all its reports give the open quantity if and only if the condition is met at every
step. -/
theorem leaves_truthful_iff_known (symbol : SymbolId) (basePrice : Int) (risk : RiskEngine X) (events : List Event) :
    (∃ outs s, runAll ReplayEngine.process (ReplayEngine.new (P := P) (M := M) symbol basePrice risk) events =
      some (outs, s)) ∧
    (AllSteps ReplayEngine.process LeavesTruthful (ReplayEngine.new (P := P) (M := M) symbol basePrice risk) events ↔
      AllSteps ReplayEngine.process LeavesKnown (ReplayEngine.new (P := P) (M := M) symbol basePrice risk) events) :=
  process_allSteps_iff (fun _ _ _ hR => leavesTruthful_iff hR) symbol basePrice risk events

end

/-- An IOC Buy of 5 takes the 3 of a resting Sell; the rest is dropped, but reported as 2 left.  A replace to quantity
0 is refused and reports nothing left, but the order still rests with 5. -/
theorem leaves_not_open :
    (∃ outs s rep, runAll ReplayEngine.process
        (ReplayEngine.new (P := tinyParams) (M := IdMap) 7 100 (RiskEngine.new looseLimits : RiskEngine ExposureMap))
        [.newOrder (limitDay 1 1 .sell 100 3) 0,
         .newOrder { limitDay 2 2 .buy 100 5 with timeInForce := .ioc } 1] = some (outs, s) ∧
      s.feed.sink.getLast? = some (.executionReport rep) ∧
      rep.orderId = 2 ∧ rep.leavesQuantity = 2 ∧ s.matching.book.restingQuantity 2 = 0) ∧
    ∃ outs s rep, runAll ReplayEngine.process
        (ReplayEngine.new (P := tinyParams) (M := IdMap) 7 100 (RiskEngine.new looseLimits : RiskEngine ExposureMap))
        [.newOrder (limitDay 1 1 .buy 100 5) 0,
         .replace { orderId := 1, newPrice := 100, newQuantity := 0, clientId := 1, symbolId := 7 } 1] =
          some (outs, s) ∧
      s.feed.sink.getLast? = some (.executionReport rep) ∧
      rep.orderId = 1 ∧ rep.leavesQuantity = 0 ∧ s.matching.book.restingQuantity 1 = 5 :=
  ⟨⟨_, _, _, rfl, rfl, rfl, rfl, rfl⟩, _, _, _, rfl, rfl, rfl, rfl, rfl⟩

end Exchange
