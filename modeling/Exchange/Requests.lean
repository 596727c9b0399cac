import Exchange.Depth
import Exchange.ReplayEngine
import Exchange.Uncrossed

/-!
# The requests of the replay engine

What `process_new_order`, `process_cancel` and `process_replace` do, each said once: which order goes to matching,
what matching makes of it, which fills are recorded and which levels are published.
-/

namespace Exchange

open OrderBook DenseMap

/-! ### Recording and publishing -/

section

variable {P : Params} {M X : Type}

/-- Some levels of a book. -/
abbrev Levels (P : Params) (M : Type) : Type := OrderBook P M → Side → Int → Prop

def Levels.empty : Levels P M := fun _ _ _ => False

/-- The level of `side` and `price`, if the price is on the ladder. -/
def Levels.single (side : Side) (price : Int) : Levels P M := fun b s p =>
  s = side ∧ p = price ∧ (b.indexOf price).isSome

/-- The levels of the resting orders of the fills. -/
def Levels.ofFills (fills : List Fill) : Levels P M := fun b s p =>
  ∃ f ∈ fills, Levels.single (opposite f.aggressorSide) f.price b s p

/-- The level where the remainder of an order comes to rest, if it does. -/
def Levels.ofRest (rested : Bool) (side : Side) (price : Int) : Levels P M := fun b s p =>
  rested = true ∧ Levels.single side price b s p

def Levels.union (T₁ T₂ : Levels P M) : Levels P M := fun b s p => T₁ b s p ∨ T₂ b s p

/-- The level where the remainder of an order has come to rest is published. -/
def ReplayEngine.publishRest (s : ReplayEngine P M X) (rested : Bool) (symbol : SymbolId) (side : Side) (price : Int) :
    ReplayEngine P M X :=
  if rested then s.publishLevel symbol side price else s

variable [DenseMap X UInt64 ClientExposure]

/-- Every fill is recorded for both of its parties, the resting one first. -/
def RiskEngine.recordFills (k : RiskEngine X) (symbol : SymbolId) (fills : List Fill) : RiskEngine X :=
  fills.foldl
    (fun k f =>
      (k.recordFill f.restingClientId symbol (opposite f.aggressorSide) f.price f.quantity).recordFill
        f.aggressorClientId symbol f.aggressorSide f.price f.quantity) k

/-- On the way from `s` to `s'` the fills have been recorded and exactly the levels `T` have been published, as they
are in the one book of `s` and `s'`. -/
structure Publishes (s s' : ReplayEngine P M X) (symbol : SymbolId) (fills : List Fill) (T : Levels P M) : Prop where
  matching : s'.matching = s.matching
  risk : s'.risk = s.risk.recordFills symbol fills
  touched : ∀ sd p, T s.matching.book sd p → viewOf s'.feed.sink sd p = s.matching.book.depth sd p
  other : ∀ sd p, ¬ T s.matching.book sd p → viewOf s'.feed.sink sd p = viewOf s.feed.sink sd p

variable {s s₁ s₂ : ReplayEngine P M X} {symbol : SymbolId} {fills fills₁ fills₂ : List Fill} {T T₁ T₂ : Levels P M}

theorem Publishes.trans (h₁ : Publishes s s₁ symbol fills₁ T₁) (h₂ : Publishes s₁ s₂ symbol fills₂ T₂) :
    Publishes s s₂ symbol (fills₁ ++ fills₂) (Levels.union T₁ T₂) where
  matching := h₂.matching.trans h₁.matching
  risk := by
    rw [h₂.risk, h₁.risk]
    unfold RiskEngine.recordFills
    rw [List.foldl_append]
  touched sd p hT := by
    have htouched := h₂.touched sd p
    have hother := h₂.other sd p
    rw [h₁.matching] at htouched hother
    by_cases hT₂ : T₂ s.matching.book sd p
    · exact htouched hT₂
    · have hT₁ : T₁ s.matching.book sd p := hT.resolve_right hT₂
      rw [hother hT₂, h₁.touched sd p hT₁]
  other sd p hT := by
    have hother := h₂.other sd p
    rw [h₁.matching] at hother
    have hT₁ : ¬ T₁ s.matching.book sd p := fun h => hT (Or.inl h)
    have hT₂ : ¬ T₂ s.matching.book sd p := fun h => hT (Or.inr h)
    rw [hother hT₂, h₁.other sd p hT₁]

theorem Publishes.congr (h : Publishes s s₁ symbol fills T₁)
    (hT : ∀ sd p, T₁ s.matching.book sd p ↔ T₂ s.matching.book sd p) :
    Publishes s s₁ symbol fills T₂ where
  matching := h.matching
  risk := h.risk
  touched sd p hp := h.touched sd p ((hT sd p).2 hp)
  other sd p hp := h.other sd p fun h' => hp ((hT sd p).1 h')

theorem publishes_refl (s : ReplayEngine P M X) (symbol : SymbolId) : Publishes s s symbol [] Levels.empty where
  matching := rfl
  risk := rfl
  touched _ _ h := h.elim
  other _ _ _ := rfl

/-- The execution report at the end of a request is no delta. -/
theorem Publishes.report (h : Publishes s s₁ symbol fills T) (id : OrderId) (client : ClientId) (reported : SymbolId)
    (last : List Fill) (leaves : Int) (execType : ExecType) (reason : RejectReason) :
    Publishes s (s₁.publishReport id client reported last leaves execType reason) symbol fills T := by
  have hview : viewOf (s₁.publishReport id client reported last leaves execType reason).feed.sink =
      viewOf s₁.feed.sink := viewOf_concat _ _
  refine ⟨h.matching, h.risk, ?_, ?_⟩
  · rw [hview]; exact h.touched
  · rw [hview]; exact h.other

theorem publishes_level (s : ReplayEngine P M X) (symbol : SymbolId) (side : Side) (price : Int) :
    Publishes s (s.publishLevel symbol side price) symbol [] (Levels.single side price) := by
  unfold ReplayEngine.publishLevel
  cases hl : s.matching.book.levelAt side price with
  | none =>
    have hnone : s.matching.book.indexOf price = none := by simpa [levelAt] using hl
    exact (publishes_refl s symbol).congr fun sd p => by simp [Levels.single, Levels.empty, hnone]
  | some level =>
    have hsome : (s.matching.book.indexOf price).isSome := by
      unfold levelAt at hl
      cases hi : s.matching.book.indexOf price with
      | none => rw [hi] at hl; cases hl
      | some i => rfl
    refine ⟨rfl, rfl, ?_, ?_⟩
    · intro sd p hT
      obtain ⟨rfl, rfl, -⟩ := hT
      show viewOf (_ ++ [_]) sd p = _
      rw [viewOf_concat]
      unfold OrderBook.depth
      rw [hl]
      by_cases hzero : level.orderCount = 0 <;> simp [applyMessage, hzero]
    · intro sd p hT
      have hne : ¬ (sd = side ∧ p = price) := fun h => hT ⟨h.1, h.2, hsome⟩
      show viewOf (_ ++ [_]) sd p = _
      rw [viewOf_concat]
      simp only [applyMessage, if_neg hne]

theorem publishes_rest (s : ReplayEngine P M X) (symbol : SymbolId) (side : Side) (price : Int) (rested : Bool) :
    Publishes s (s.publishRest rested symbol side price) symbol [] (Levels.ofRest rested side price) := by
  cases rested with
  | true => exact (publishes_level s symbol side price).congr fun sd p => by simp [Levels.ofRest]
  | false => exact (publishes_refl s symbol).congr fun sd p => by simp [Levels.ofRest, Levels.empty]

theorem publishes_fill (s : ReplayEngine P M X) (symbol : SymbolId) (f : Fill) :
    Publishes s (s.applyFill symbol f) symbol [f] (Levels.single (opposite f.aggressorSide) f.price) := by
  let s₁ : ReplayEngine P M X := { s with feed := s.feed.publishTrade symbol f, risk := s.risk.recordFills symbol [f] }
  have hview : viewOf s₁.feed.sink = viewOf s.feed.sink := viewOf_concat _ _
  have htrade : Publishes s s₁ symbol [f] Levels.empty :=
    ⟨rfl, rfl, fun _ _ h => h.elim, fun sd p _ => by rw [hview]⟩
  have hlevel := publishes_level s₁ symbol (opposite f.aggressorSide) f.price
  exact (htrade.trans hlevel).congr fun sd p => by simp [Levels.union, Levels.empty]

/-- `apply_fills` records every fill and publishes its level. -/
theorem publishes_fills (symbol : SymbolId) (fills : List Fill) (s : ReplayEngine P M X) :
    Publishes s (s.applyFills symbol fills) symbol fills (Levels.ofFills fills) := by
  induction fills generalizing s with
  | nil => exact (publishes_refl s symbol).congr fun sd p => by simp [Levels.ofFills, Levels.empty]
  | cons f fills ih =>
    have hhead := publishes_fill s symbol f
    have htail := ih (s.applyFill symbol f)
    exact (hhead.trans htail).congr fun sd p => by simp [Levels.ofFills, Levels.union]

end

/-! ### The outcomes of a request -/

section

variable {P : Params} {M X : Type}

/-- The state in which the effects of a request are published: a sequence number is used up, and matching has
answered. -/
def ReplayEngine.sequenced (s : ReplayEngine P M X) (e : MatchingEngine P M) : ReplayEngine P M X :=
  { s with nextSequence := s.nextSequence + 1, matching := e }

/-- The order a replace request submits in the place of the one in node `n`. -/
def ReplayEngine.replacement (s : ReplayEngine P M X) (wire : ReplaceOrderMessage) (timestamp : Int) (n : Nat) :
    Order :=
  (s.matching.book.node n).order.replaced wire.newPrice wire.newQuantity s.nextSequence timestamp

variable [DenseMap M OrderId Nat]

/-- The replace request names the resting order in node `n`, and its new terms are valid. -/
structure ReplayEngine.Replaces (s : ReplayEngine P M X) (wire : ReplaceOrderMessage) (n : Nat) : Prop where
  found : s.matching.book.findNode wire.orderId = some n
  quantity : 0 < wire.newQuantity
  price : (s.matching.book.indexOf wire.newPrice).isSome

theorem not_replaces {s : ReplayEngine P M X} {r : RefEngine P} (hR : Refines s.matching r) {wire : ReplaceOrderMessage}
    (hbad : wire.newQuantity ≤ 0 ∨ ¬ r.InRange wire.newPrice) (n : Nat) : ¬ s.Replaces wire n := by
  intro hrep
  have hprice := (hR.indexOf_isSome wire.newPrice).1 hrep.price
  rcases hbad with hq | hp
  · exact absurd hrep.quantity (not_lt.2 hq)
  · exact hp hprice

theorem not_replaces_of_free {s : ReplayEngine P M X} {r : RefEngine P} (hR : Refines s.matching r)
    {wire : ReplaceOrderMessage} (hfree : ∀ x ∈ r.resting, x.id ≠ wire.orderId) (n : Nat) : ¬ s.Replaces wire n := by
  intro hrep
  have hsome := hrep.found
  rw [(hR.holds.findNode_eq_none _).2 hfree] at hsome
  cases hsome

variable [DenseMap X UInt64 ClientExposure]

/-- The effect of a request: the book of `s'` holds the orders of `r'`, and from the state `s₁` with the new book, but
the feed and the exposures of before the request, the fills are recorded and the levels `T` published. -/
def Effect (s s' : ReplayEngine P M X) (r' : RefEngine P) (symbol : SymbolId) (fills : List Fill) (T : Levels P M) :
    Prop :=
  ∃ s₁ : ReplayEngine P M X, s₁.feed = s.feed ∧ s₁.risk = s.risk ∧ Refines s₁.matching r' ∧
    Publishes s₁ s' symbol fills T

/-- What an event can do to an engine whose book holds the orders of `r`. -/
inductive Handled (s : ReplayEngine P M X) (r : RefEngine P) :
    Event → Option Submission → ReplayEngine P M X → RefEngine P → Prop
  | refusedByRisk {wire : NewOrderMessage} {ts : Int} {s' : ReplayEngine P M X}
      (hrisk : s.risk.checkNewOrder (s.orderOf wire ts) ≠ .none) (heff : Effect s s' r r.symbol [] Levels.empty) :
      Handled s r (.newOrder wire ts) none s' r
  | submitted {wire : NewOrderMessage} {ts : Int} {s' : ReplayEngine P M X} {r' : RefEngine P} {res : NewOrderResult}
      {fills : List Fill} (hrisk : s.risk.checkNewOrder (s.orderOf wire ts) = .none)
      (hsub : r.Submitted (s.orderOf wire ts) res r' fills)
      (heff : Effect s s' r' wire.symbolId fills
        (Levels.union (Levels.ofFills fills) (Levels.ofRest res.rested wire.side wire.price))) :
      Handled s r (.newOrder wire ts) (some ⟨s.orderOf wire ts, fills, res.rested⟩) s' r'
  | cancelRefused {wire : CancelOrderMessage} {s' : ReplayEngine P M X}
      (heff : Effect s s' r r.symbol [] Levels.empty) :
      Handled s r (.cancel wire) none s' r
  | cancelled {wire : CancelOrderMessage} {s' : ReplayEngine P M X} {o : Order} (hmem : o ∈ r.resting)
      (heff : Effect s s' { r with resting := removeOrder o.id r.resting } o.symbol [] (Levels.single o.side o.price)) :
      Handled s r (.cancel wire) none s' { r with resting := removeOrder o.id r.resting }
  | replaceRefused {wire : ReplaceOrderMessage} {ts : Int} {out : Option Submission} {s' : ReplayEngine P M X}
      (hnot : ∀ n, ¬ s.Replaces wire n) (hout : ∀ t ∈ out, t.fills = [] ∧ t.rested = false)
      (heff : Effect s s' r r.symbol [] Levels.empty) :
      Handled s r (.replace wire ts) out s' r
  | replaced {wire : ReplaceOrderMessage} {ts : Int} {n : Nat} {o : Order} {s' : ReplayEngine P M X}
      {r' : RefEngine P} {res : NewOrderResult} {fills : List Fill} (hrep : s.Replaces wire n)
      (horder : (s.matching.book.node n).order = o) (hmem : o ∈ r.resting)
      (hsub : RefEngine.Submitted { r with resting := removeOrder o.id r.resting } (s.replacement wire ts n) res r'
        fills)
      (hacc : res.rejectReason = .none)
      (heff : Effect s s' r' o.symbol fills
        (Levels.union (Levels.union (Levels.ofFills fills) (Levels.single o.side o.price))
          (Levels.ofRest res.rested o.side wire.newPrice))) :
      Handled s r (.replace wire ts) (some ⟨s.replacement wire ts n, fills, res.rested⟩) s' r'
  | engageKillSwitch : Handled s r .engageKillSwitch none { s with risk := s.risk.engageKillSwitch } r
  | disengageKillSwitch : Handled s r .disengageKillSwitch none { s with risk := s.risk.disengageKillSwitch } r

/-- How an event can end: the order that went to matching, the answer `e'` of matching, and the state in which the
effects of the event have been recorded and published. -/
inductive Outcome (s : ReplayEngine P M X) (r : RefEngine P) :
    Event → Option Submission → ReplayEngine P M X → RefEngine P → Prop
  | refusedByRisk {wire : NewOrderMessage} {ts : Int} (hrisk : s.risk.checkNewOrder (s.orderOf wire ts) ≠ .none) :
      Outcome s r (.newOrder wire ts) none
        ((s.sequenced s.matching).publishReport wire.orderId wire.clientId wire.symbolId [] wire.quantity .rejected
          (s.risk.checkNewOrder (s.orderOf wire ts))) r
  | submitted {wire : NewOrderMessage} {ts : Int} {e' : MatchingEngine P M} {r' : RefEngine P} {res : NewOrderResult}
      {fills : List Fill} (hrisk : s.risk.checkNewOrder (s.orderOf wire ts) = .none)
      (hsub : r.Submitted (s.orderOf wire ts) res r' fills) (hR : Refines e' r') :
      Outcome s r (.newOrder wire ts) (some ⟨s.orderOf wire ts, fills, res.rested⟩)
        ((((s.sequenced e').applyFills wire.symbolId fills).publishRest res.rested wire.symbolId wire.side
          wire.price).publishReport wire.orderId wire.clientId wire.symbolId fills res.remainingAfter
          (ReplayEngine.newOrderExecType res fills) res.rejectReason) r'
  | cancelRefused {wire : CancelOrderMessage} (hfree : ∀ o ∈ r.resting, o.id ≠ wire.orderId) :
      Outcome s r (.cancel wire) none
        (s.publishReport wire.orderId wire.clientId wire.symbolId [] 0 .rejected .unknownOrder) r
  | cancelled {wire : CancelOrderMessage} {o : Order} {e' : MatchingEngine P M} (hmem : o ∈ r.resting)
      (hid : o.id = wire.orderId) (hR : Refines e' { r with resting := removeOrder o.id r.resting }) :
      Outcome s r (.cancel wire) none
        (({ s with matching := e' }.publishLevel o.symbol o.side o.price).publishReport wire.orderId o.client o.symbol
          [] 0 .cancelled .none) { r with resting := removeOrder o.id r.resting }
  | replaceUnknown {wire : ReplaceOrderMessage} {ts : Int} (hfree : ∀ o ∈ r.resting, o.id ≠ wire.orderId) :
      Outcome s r (.replace wire ts) none
        (s.publishReport wire.orderId wire.clientId wire.symbolId [] 0 .rejected .unknownOrder) r
  | replaceRefused {wire : ReplaceOrderMessage} {ts : Int} {n : Nat} {o : Order} {e' : MatchingEngine P M}
      {reason : RejectReason} (horder : (s.matching.book.node n).order = o) (hmem : o ∈ r.resting)
      (hid : o.id = wire.orderId) (hbad : wire.newQuantity ≤ 0 ∨ ¬ r.InRange wire.newPrice) (hR : Refines e' r) :
      Outcome s r (.replace wire ts) (some ⟨s.replacement wire ts n, [], false⟩)
        ((s.sequenced e').publishReport wire.orderId o.client o.symbol [] 0 .rejected reason) r
  | replaced {wire : ReplaceOrderMessage} {ts : Int} {n : Nat} {o : Order} {e' : MatchingEngine P M}
      {r' : RefEngine P} {res : NewOrderResult} {fills : List Fill} (hrep : s.Replaces wire n)
      (horder : (s.matching.book.node n).order = o) (hmem : o ∈ r.resting) (hid : o.id = wire.orderId)
      (hsub : RefEngine.Submitted { r with resting := removeOrder o.id r.resting } (s.replacement wire ts n) res r'
        fills)
      (hacc : res.rejectReason = .none) (hR : Refines e' r') :
      Outcome s r (.replace wire ts) (some ⟨s.replacement wire ts n, fills, res.rested⟩)
        (((((s.sequenced e').applyFills o.symbol fills).publishLevel o.symbol o.side o.price).publishRest res.rested
          o.symbol o.side wire.newPrice).publishReport wire.orderId o.client o.symbol fills res.remainingAfter
          (if res.remainingAfter = 0 then .fill else if fills ≠ [] then .partialFill else .replaced) .none) r'
  | engageKillSwitch : Outcome s r .engageKillSwitch none { s with risk := s.risk.engageKillSwitch } r
  | disengageKillSwitch : Outcome s r .disengageKillSwitch none { s with risk := s.risk.disengageKillSwitch } r

variable {s : ReplayEngine P M X} {r : RefEngine P}

theorem processNewOrder_outcome (hR : Refines s.matching r) (wire : NewOrderMessage) (ts : Int) :
    ∃ out s' r', s.processNewOrder wire ts = some (out, s') ∧ Outcome s r (.newOrder wire ts) out s' r' := by
  unfold ReplayEngine.processNewOrder
  dsimp only
  by_cases hrisk : s.risk.checkNewOrder (s.orderOf wire ts) = .none
  · obtain ⟨res, e', r', fills, he, -, hsub, hR'⟩ := submit_sim hR (s.orderOf wire ts) []
    rw [List.nil_append] at he
    rw [if_neg (not_not.2 hrisk), he]
    exact ⟨_, _, r', rfl, .submitted hrisk hsub hR'⟩
  · rw [if_pos hrisk]
    exact ⟨_, _, r, rfl, .refusedByRisk hrisk⟩

theorem processCancel_outcome (hR : Refines s.matching r) (wire : CancelOrderMessage) :
    ∃ r', Outcome s r (.cancel wire) none (s.processCancel wire) r' := by
  unfold ReplayEngine.processCancel
  cases hfind : s.matching.book.findNode wire.orderId with
  | none => exact ⟨r, .cancelRefused ((hR.holds.findNode_eq_none _).1 hfind)⟩
  | some n =>
    obtain ⟨hmem, hid⟩ := hR.holds.findNode_mem hfind
    obtain ⟨hres, hR'⟩ := cancel_sim hR wire.orderId
    have hcancel : r.cancel wire.orderId =
        ({ accepted := true }, { r with resting := removeOrder wire.orderId r.resting }) := by
      rw [RefEngine.cancel, if_pos ⟨_, hmem, hid⟩]
    rw [hcancel] at hres hR'
    dsimp only
    rw [hres, if_pos rfl]
    have hremoved : Refines (s.matching.cancel wire.orderId).2
        { r with resting := removeOrder (s.matching.book.node n).order.id r.resting } := by
      rw [hid]
      exact hR'
    exact ⟨_, .cancelled hmem hid hremoved⟩

theorem processReplace_outcome (hR : Refines s.matching r) (wire : ReplaceOrderMessage) (ts : Int) :
    ∃ out s' r', s.processReplace wire ts = some (out, s') ∧ Outcome s r (.replace wire ts) out s' r' := by
  unfold ReplayEngine.processReplace
  cases hfind : s.matching.book.findNode wire.orderId with
  | none => exact ⟨_, _, r, rfl, .replaceUnknown ((hR.holds.findNode_eq_none _).1 hfind)⟩
  | some n =>
    obtain ⟨hmem, hid⟩ := hR.holds.findNode_mem hfind
    obtain ⟨res, e', r', fills, he, -, hreplaced, hR'⟩ :=
      replace_sim hR wire.orderId wire.newPrice wire.newQuantity s.nextSequence ts []
    rw [List.nil_append] at he
    dsimp only
    rw [he]
    dsimp only
    cases hreplaced with
    | unknownOrder hunknown => exact absurd hid (hunknown _ hmem)
    | invalidQuantity _ hq => exact ⟨_, _, r, rfl, .replaceRefused rfl hmem hid (Or.inl hq) hR'⟩
    | invalidPrice _ _ hp => exact ⟨_, _, r, rfl, .replaceRefused rfl hmem hid (Or.inr hp) hR'⟩
    | @resubmitted existing res _ _ hmem' hid' hq hp hsub =>
      have hexisting : existing = (s.matching.book.node n).order :=
        hR.valid.ids.eq_of_id hmem' hmem (hid'.trans hid.symm)
      rw [← hid', hexisting] at hsub
      have hacc := hsub.accepted_of_replaced hR.valid hmem hq hp
      have haccepted : (MatchingEngine.replaceResult res).accepted = true := by
        simp [MatchingEngine.replaceResult, hacc]
      have hrep : s.Replaces wire n := ⟨hfind, hq, (hR.indexOf_isSome _).2 hp⟩
      rw [haccepted]
      exact ⟨_, _, r', rfl, .replaced hrep rfl hmem hid hsub hacc hR'⟩

/-- No event fails. -/
theorem process_outcome (hR : Refines s.matching r) (ev : Event) :
    ∃ out s' r', s.process ev = some (out, s') ∧ Outcome s r ev out s' r' := by
  cases ev with
  | newOrder wire ts => exact processNewOrder_outcome hR wire ts
  | cancel wire =>
    obtain ⟨r', h⟩ := processCancel_outcome hR wire
    exact ⟨_, _, r', rfl, h⟩
  | replace wire ts => exact processReplace_outcome hR wire ts
  | engageKillSwitch => exact ⟨_, _, r, rfl, .engageKillSwitch⟩
  | disengageKillSwitch => exact ⟨_, _, r, rfl, .disengageKillSwitch⟩

/-- Nothing but a report is published. -/
private theorem effect_report (s₁ : ReplayEngine P M X) (hfeed : s₁.feed = s.feed) (hrisk : s₁.risk = s.risk)
    {r' : RefEngine P} (hR : Refines s₁.matching r') (symbol : SymbolId) (id : OrderId) (client : ClientId)
    (reported : SymbolId) (leaves : Int) (execType : ExecType) (reason : RejectReason) :
    Effect s (s₁.publishReport id client reported [] leaves execType reason) r' symbol [] Levels.empty :=
  ⟨s₁, hfeed, hrisk, hR, (publishes_refl s₁ symbol).report ..⟩

theorem Outcome.handled {ev : Event} {out : Option Submission} {s' : ReplayEngine P M X} {r' : RefEngine P}
    (h : Outcome s r ev out s' r') (hR : Refines s.matching r) : Handled s r ev out s' r' := by
  cases h with
  | refusedByRisk hrisk => exact .refusedByRisk hrisk (effect_report (s.sequenced s.matching) rfl rfl hR ..)
  | @submitted wire ts e' _ res fills hrisk hsub hR' =>
    have hfills := publishes_fills wire.symbolId fills (s.sequenced e')
    have hrest := publishes_rest ((s.sequenced e').applyFills wire.symbolId fills) wire.symbolId wire.side wire.price
      res.rested
    have hpub := hfills.trans hrest
    rw [List.append_nil] at hpub
    exact .submitted hrisk hsub ⟨s.sequenced e', rfl, rfl, hR', hpub.report ..⟩
  | cancelRefused _ => exact .cancelRefused (effect_report s rfl rfl hR ..)
  | @cancelled wire o e' hmem _ hR' =>
    have hpub := publishes_level { s with matching := e' } o.symbol o.side o.price
    exact .cancelled hmem ⟨{ s with matching := e' }, rfl, rfl, hR', hpub.report ..⟩
  | replaceUnknown hfree =>
    exact .replaceRefused (not_replaces_of_free hR hfree) (by simp) (effect_report s rfl rfl hR ..)
  | @replaceRefused wire ts n o e' reason _ _ _ hbad hR' =>
    exact .replaceRefused (not_replaces hR hbad) (by simp) (effect_report (s.sequenced e') rfl rfl hR' ..)
  | @replaced wire ts n o e' _ res fills hrep horder hmem _ hsub hacc hR' =>
    have hfills := publishes_fills o.symbol fills (s.sequenced e')
    have hold := publishes_level ((s.sequenced e').applyFills o.symbol fills) o.symbol o.side o.price
    have hrest := publishes_rest (((s.sequenced e').applyFills o.symbol fills).publishLevel o.symbol o.side o.price)
      o.symbol o.side wire.newPrice res.rested
    have hpub := (hfills.trans hold).trans hrest
    rw [List.append_nil, List.append_nil] at hpub
    exact .replaced hrep horder hmem hsub hacc ⟨s.sequenced e', rfl, rfl, hR', hpub.report ..⟩
  | engageKillSwitch => exact .engageKillSwitch
  | disengageKillSwitch => exact .disengageKillSwitch

/-- No event fails, and each one does what `Handled` says. -/
theorem process_handled (hR : Refines s.matching r) (ev : Event) :
    ∃ out s' r', s.process ev = some (out, s') ∧ Handled s r ev out s' r' := by
  obtain ⟨out, s', r', hprocess, houtcome⟩ := process_outcome hR ev
  exact ⟨out, s', r', hprocess, houtcome.handled hR⟩

theorem Effect.refines {s' : ReplayEngine P M X} {r' : RefEngine P} {symbol : SymbolId} {fills : List Fill}
    {T : Levels P M} (h : Effect s s' r' symbol fills T) : Refines s'.matching r' := by
  obtain ⟨s₁, -, -, hR, hpub⟩ := h
  rw [hpub.matching]
  exact hR

theorem Effect.risk {s' : ReplayEngine P M X} {r' : RefEngine P} {symbol : SymbolId} {fills : List Fill}
    {T : Levels P M} (h : Effect s s' r' symbol fills T) : s'.risk = s.risk.recordFills symbol fills := by
  obtain ⟨s₁, -, hrisk, -, hpub⟩ := h
  rw [hpub.risk, hrisk]

theorem Handled.refines {ev : Event} {out : Option Submission} {s' : ReplayEngine P M X} {r' : RefEngine P}
    (h : Handled s r ev out s' r') (hR : Refines s.matching r) : Refines s'.matching r' := by
  cases h with
  | refusedByRisk _ heff => exact heff.refines
  | submitted _ _ heff => exact heff.refines
  | cancelRefused heff => exact heff.refines
  | cancelled _ heff => exact heff.refines
  | replaceRefused _ _ heff => exact heff.refines
  | replaced _ _ _ _ _ heff => exact heff.refines
  | engageKillSwitch => exact hR
  | disengageKillSwitch => exact hR

end

/-! ### Runs -/

/-- The fills an order got, if there was one. -/
def submissionFills (out : Option Submission) : List Fill := out.elim [] Submission.fills

def runFills (outs : List (Option Submission)) : List Fill := outs.flatMap submissionFills

theorem runFills_concat (outs : List (Option Submission)) (out : Option Submission) :
    runFills (outs ++ [out]) = runFills outs ++ submissionFills out := by
  simp [runFills]

section

variable {P : Params} {M X : Type} [DenseMap M OrderId Nat] [DenseMap X UInt64 ClientExposure]

/-- A request trades at the prices of resting orders. -/
theorem Outcome.fill_prices {Q : Int → Prop} {ev : Event} {out : Option Submission} {s s' : ReplayEngine P M X}
    {r r' : RefEngine P} (h : Outcome s r ev out s' r') (hr : r.Valid) (hQ : ∀ x ∈ r.resting, Q x.price) :
    ∀ f ∈ submissionFills out, Q f.price := by
  intro f hf
  cases h with
  | submitted _ hsub _ =>
    obtain ⟨x, hx, -, hfill⟩ := hsub.counterparty hr hf
    rw [hfill.price]
    exact hQ x hx
  | @replaced _ _ _ o _ _ _ _ _ _ _ _ hsub _ _ =>
    obtain ⟨x, hx, -, hfill⟩ := hsub.counterparty (hr.removeOrder o.id) hf
    rw [hfill.price]
    exact hQ x (mem_removeOrder.1 hx).1
  | _ => cases hf

theorem Outcome.uncrossed {ev : Event} {out : Option Submission} {s s' : ReplayEngine P M X} {r r' : RefEngine P}
    (h : Outcome s r ev out s' r') (hr : r.Valid) (hu : Uncrossed r.resting) : Uncrossed r'.resting := by
  cases h with
  | submitted _ hsub _ => exact hsub.uncrossed hr hu
  | cancelled _ _ _ => exact RefEngine.uncrossed_removeOrder hu _
  | replaced _ _ _ _ hsub _ _ => exact hsub.uncrossed (hr.removeOrder _) (RefEngine.uncrossed_removeOrder hu _)
  | _ => exact hu

/-- The rule for runs from the empty book whose events all meet `C`: none of them fails, the book always holds the
orders of some reference engine, and what every outcome keeps holds in the end. -/
theorem process_run_rule {C : ReplayEngine P M X → Event → Prop} (Inv : ReplayEngine P M X → RefEngine P → Prop)
    (hkeep : ∀ {s s' : ReplayEngine P M X} {r r' : RefEngine P} {ev : Event} {out : Option Submission},
      Handled s r ev out s' r' → r.Valid → Inv s r → C s ev → Inv s' r')
    {symbol : SymbolId} {basePrice : Int} {risk : RiskEngine X} {events : List Event}
    (hnew : Inv (ReplayEngine.new symbol basePrice risk) (RefEngine.new P symbol basePrice))
    (hC : AllSteps ReplayEngine.process C (ReplayEngine.new symbol basePrice risk) events) :
    ∃ outs s r, runAll ReplayEngine.process (ReplayEngine.new symbol basePrice risk) events = some (outs, s) ∧
      Refines s.matching r ∧ Inv s r := by
  have hstep : ∀ (s : ReplayEngine P M X) (ev : Event), (∃ r, Refines s.matching r ∧ Inv s r) → C s ev →
      ∃ out s', s.process ev = some (out, s') ∧ ∃ r, Refines s'.matching r ∧ Inv s' r := by
    intro s ev hinv hev
    obtain ⟨r, hR, hr⟩ := hinv
    obtain ⟨out, s', r', hprocess, hhandled⟩ := process_handled hR ev
    exact ⟨out, s', hprocess, r', hhandled.refines hR, hkeep hhandled hR.valid hr hev⟩
  obtain ⟨outs, s, hrun, r, hR, hr⟩ :=
    runAll_rule_of_allSteps _ hstep events _ ⟨_, refines_new symbol basePrice, hnew⟩ hC
  exact ⟨outs, s, r, hrun, hR, hr⟩

/-- The rule for invariants that speak about the events of the run and what has become of their orders. -/
theorem process_history (Inv : List Event → List (Option Submission) → ReplayEngine P M X → RefEngine P → Prop)
    (hkeep : ∀ {evs : List Event} {outs : List (Option Submission)} {s s' : ReplayEngine P M X} {r r' : RefEngine P}
      {ev : Event} {out : Option Submission}, Outcome s r ev out s' r' → Refines s.matching r → Inv evs outs s r →
      Inv (evs ++ [ev]) (outs ++ [out]) s' r')
    (symbol : SymbolId) (basePrice : Int) (risk : RiskEngine X) (events : List Event)
    (hnew : Inv [] [] (ReplayEngine.new symbol basePrice risk) (RefEngine.new P symbol basePrice)) :
    ∃ outs s r, runAll ReplayEngine.process (ReplayEngine.new symbol basePrice risk) events = some (outs, s) ∧
      Refines s.matching r ∧ Inv events outs s r := by
  have hstep : ∀ (evs : List Event) (outs : List (Option Submission)) (s : ReplayEngine P M X) (ev : Event),
      (∃ r, Refines s.matching r ∧ Inv evs outs s r) →
      ∃ out s', s.process ev = some (out, s') ∧
        ∃ r, Refines s'.matching r ∧ Inv (evs ++ [ev]) (outs ++ [out]) s' r := by
    intro evs outs s ev hinv
    obtain ⟨r, hR, hr⟩ := hinv
    obtain ⟨out, s', r', hprocess, houtcome⟩ := process_outcome hR ev
    exact ⟨out, s', hprocess, r', (houtcome.handled hR).refines hR, hkeep houtcome hR hr⟩
  obtain ⟨outs, s, hrun, r, hR, hr⟩ := runAll_history (fun evs outs s => ∃ r, Refines s.matching r ∧ Inv evs outs s r)
    hstep events _ ⟨_, refines_new symbol basePrice, hnew⟩
  exact ⟨outs, s, r, hrun, hR, hr⟩

/-- The rule for runs of any events. -/
theorem process_run (Inv : ReplayEngine P M X → RefEngine P → Prop)
    (hkeep : ∀ {s s' : ReplayEngine P M X} {r r' : RefEngine P} {ev : Event} {out : Option Submission},
      Handled s r ev out s' r' → r.Valid → Inv s r → Inv s' r')
    (symbol : SymbolId) (basePrice : Int) (risk : RiskEngine X) (events : List Event)
    (hnew : Inv (ReplayEngine.new symbol basePrice risk) (RefEngine.new P symbol basePrice)) :
    ∃ outs s r, runAll ReplayEngine.process (ReplayEngine.new symbol basePrice risk) events = some (outs, s) ∧
      Refines s.matching r ∧ Inv s r := by
  have hall : AllSteps ReplayEngine.process (fun _ _ => True)
      (ReplayEngine.new symbol basePrice risk : ReplayEngine P M X) events :=
    allSteps_of_forall (fun _ _ => trivial) events _
  exact process_run_rule Inv (fun hhandled hr hinv _ => hkeep hhandled hr hinv) hnew hall

/-- Every run goes through, and conditions on the steps that are equivalent in engines with a correct book are
equivalent along the run. -/
theorem process_allSteps_iff {C D : ReplayEngine P M X → Event → Prop}
    (hCD : ∀ s r ev, Refines s.matching r → (C s ev ↔ D s ev)) (symbol : SymbolId) (basePrice : Int)
    (risk : RiskEngine X) (events : List Event) :
    (∃ outs s, runAll ReplayEngine.process (ReplayEngine.new (P := P) (M := M) symbol basePrice risk) events =
      some (outs, s)) ∧
    (AllSteps ReplayEngine.process C (ReplayEngine.new symbol basePrice risk) events ↔
      AllSteps ReplayEngine.process D (ReplayEngine.new symbol basePrice risk) events) := by
  obtain ⟨outs, s, -, hrun, -⟩ := process_run (P := P) (M := M) (fun _ _ => True) (fun _ _ _ => trivial)
    symbol basePrice risk events trivial
  refine ⟨⟨outs, s, hrun⟩, ?_⟩
  refine allSteps_congr (fun s => ∃ r, Refines s.matching r) ?_ ?_ events _ ⟨_, refines_new symbol basePrice⟩
  · intro s ev hinv
    obtain ⟨r, hR⟩ := hinv
    exact hCD s r ev hR
  · intro s ev out s' hinv _ hprocess
    obtain ⟨r, hR⟩ := hinv
    obtain ⟨out', s'', r', hprocess', hhandled⟩ := process_handled hR ev
    rw [hprocess] at hprocess'
    cases hprocess'
    exact ⟨r', hhandled.refines hR⟩

end

end Exchange
