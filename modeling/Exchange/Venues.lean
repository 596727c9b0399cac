import Exchange.Accounts
import Exchange.Sequencing
import Mathlib.Logic.Function.Basic

/-!
# Several venues on one risk engine

A replay engine only holds references to its matching engine, its risk engine and its feed, so one process can run
several of them, one for each symbol, on one risk engine and one feed.

* a request to one venue does not touch the book of another, nor the accounts of its symbol;
* what a venue answers depends on its own book, its own symbol's accounts and the kill switch alone, so every venue
  behaves as if it were the only one (`venues_isolated`).
-/

namespace Exchange

open DenseMap RiskEngine

/-! ### The risk engine, as one symbol sees it -/

section

variable {X : Type} [DenseMap X UInt64 ClientExposure] {symbol other : SymbolId} {k k' k'' : RiskEngine X}

/-- Two risk engines with the same limits, kill switch and accounts of `symbol`. -/
structure SymbolAlike (symbol : SymbolId) (k k' : RiskEngine X) : Prop where
  limits : k.limits = k'.limits
  killSwitch : k.killSwitchEngaged = k'.killSwitchEngaged
  account : ∀ c, find k.exposure (accountKey c symbol) = find k'.exposure (accountKey c symbol)

namespace SymbolAlike

theorem refl (symbol : SymbolId) (k : RiskEngine X) : SymbolAlike symbol k k := ⟨rfl, rfl, fun _ => rfl⟩

theorem trans (h : SymbolAlike symbol k k') (h' : SymbolAlike symbol k' k'') : SymbolAlike symbol k k'' :=
  ⟨h.limits.trans h'.limits, h.killSwitch.trans h'.killSwitch, fun c => (h.account c).trans (h'.account c)⟩

theorem checkNewOrder (h : SymbolAlike symbol k k') {o : Order} (ho : o.symbol = symbol) :
    k.checkNewOrder o = k'.checkNewOrder o := by
  subst ho
  unfold RiskEngine.checkNewOrder
  rw [h.killSwitch, h.limits, h.account]

theorem position (h : SymbolAlike symbol k k') (c : ClientId) : k.position c symbol = k'.position c symbol := by
  unfold RiskEngine.position
  rw [h.account]

theorem pnl (h : SymbolAlike symbol k k') (c : ClientId) : k.pnl c symbol = k'.pnl c symbol := by
  unfold RiskEngine.pnl
  rw [h.account]

theorem recordFill (h : SymbolAlike symbol k k') (client : ClientId) (side : Side) (price quantity : Int) :
    SymbolAlike symbol (k.recordFill client symbol side price quantity)
      (k'.recordFill client symbol side price quantity) := by
  refine ⟨h.limits, h.killSwitch, fun c => ?_⟩
  unfold RiskEngine.recordFill
  dsimp only
  by_cases hc : accountKey c symbol = accountKey client symbol
  · rw [hc, find_assign_self, find_assign_self, h.account]
  · rw [find_assign_ne _ _ _ _ hc, find_assign_ne _ _ _ _ hc, h.account]

/-- A fill on another symbol does not show. -/
theorem recordFill_of_ne (hne : other ≠ symbol) (k : RiskEngine X) (client : ClientId) (side : Side)
    (price quantity : Int) : SymbolAlike symbol (k.recordFill client other side price quantity) k := by
  refine ⟨rfl, rfl, fun c => find_assign_ne _ _ _ _ fun hkey => ?_⟩
  exact hne (accountKey_inj.1 hkey).2.symm

theorem recordFills (h : SymbolAlike symbol k k') (fs : List Fill) :
    SymbolAlike symbol (k.recordFills symbol fs) (k'.recordFills symbol fs) := by
  induction fs generalizing k k' with
  | nil => exact h
  | cons f fs ih => exact ih ((h.recordFill _ _ _ _).recordFill _ _ _ _)

theorem recordFills_of_ne (hne : other ≠ symbol) (k : RiskEngine X) (fs : List Fill) :
    SymbolAlike symbol (k.recordFills other fs) k := by
  induction fs generalizing k with
  | nil => exact refl symbol k
  | cons f fs ih => exact (ih _).trans ((recordFill_of_ne hne _ _ _ _ _).trans (recordFill_of_ne hne _ _ _ _ _))

end SymbolAlike

end

/-! ### A request, as its own venue sees it -/

section

variable {P : Params} {M X : Type} [DenseMap X UInt64 ClientExposure]
  {s s' t t' : ReplayEngine P M X} {symbol : SymbolId} {fills : List Fill}

/-- Two replay engines that differ in nothing a request on `symbol` can depend on: the feed and the accounts of other
symbols may differ. -/
structure VenueAlike (symbol : SymbolId) (s t : ReplayEngine P M X) : Prop where
  matching : s.matching = t.matching
  nextSequence : s.nextSequence = t.nextSequence
  risk : SymbolAlike symbol s.risk t.risk

namespace VenueAlike

theorem trans {u : ReplayEngine P M X} (h : VenueAlike symbol s t) (h' : VenueAlike symbol t u) :
    VenueAlike symbol s u :=
  ⟨h.matching.trans h'.matching, h.nextSequence.trans h'.nextSequence, h.risk.trans h'.risk⟩

theorem orderOf (h : VenueAlike symbol s t) (wire : NewOrderMessage) (ts : Int) :
    s.orderOf wire ts = t.orderOf wire ts := by
  unfold ReplayEngine.orderOf
  rw [h.nextSequence]

theorem sequenced (h : VenueAlike symbol s t) (e : MatchingEngine P M) :
    VenueAlike symbol (s.sequenced e) (t.sequenced e) :=
  ⟨rfl, congrArg (· + 1) h.nextSequence, h.risk⟩

theorem publishReport (h : VenueAlike symbol s t) (id : OrderId) (client : ClientId) (reported : SymbolId)
    (last : List Fill) (leaves : Int) (execType : ExecType) (reason : RejectReason) :
    VenueAlike symbol (s.publishReport id client reported last leaves execType reason)
      (t.publishReport id client reported last leaves execType reason) :=
  ⟨h.matching, h.nextSequence, h.risk⟩

theorem publishLevel (h : VenueAlike symbol s t) (side : Side) (price : Int) :
    VenueAlike symbol (s.publishLevel symbol side price) (t.publishLevel symbol side price) := by
  have hs := publishes_level s symbol side price
  have ht := publishes_level t symbol side price
  refine ⟨by rw [hs.matching, ht.matching, h.matching], by simp [h.nextSequence], ?_⟩
  rw [hs.risk, ht.risk]
  exact h.risk

theorem publishRest (h : VenueAlike symbol s t) (rested : Bool) (side : Side) (price : Int) :
    VenueAlike symbol (s.publishRest rested symbol side price) (t.publishRest rested symbol side price) := by
  cases rested with
  | true => exact h.publishLevel side price
  | false => exact h

theorem applyFills (h : VenueAlike symbol s t) (fills : List Fill) :
    VenueAlike symbol (s.applyFills symbol fills) (t.applyFills symbol fills) := by
  have hs := publishes_fills symbol fills s
  have ht := publishes_fills symbol fills t
  refine ⟨by rw [hs.matching, ht.matching, h.matching], by simp [h.nextSequence], ?_⟩
  rw [hs.risk, ht.risk]
  exact h.risk.recordFills fills

end VenueAlike

/-- A new order is addressed to the venue it is sent to.  The other requests name a resting order, whose symbol is
that of the venue. -/
def Event.AddressedTo (symbol : SymbolId) : Event → Prop
  | .newOrder wire _ => wire.symbolId = symbol
  | _ => True

/-- The order of the request, if it came to matching at all, has not traded and does not rest. -/
def Refused (out : Option Submission) : Prop := ∀ submission, out = some submission →
  submission.fills = [] ∧ submission.rested = false

/-- The same order has gone to matching, or none, and with the same outcome.  A misaddressed order is refused in either
case, but whether by risk or by matching may depend on the accounts of the symbol it names. -/
def SameAnswer (symbol : SymbolId) (ev : Event) (out out' : Option Submission) : Prop :=
  (ev.AddressedTo symbol → out = out') ∧ (¬ ev.AddressedTo symbol → Refused out ∧ Refused out')

theorem sameAnswer_of_addressed (ev : Event) (h : ev.AddressedTo symbol) (out : Option Submission) :
    SameAnswer symbol ev out out :=
  ⟨fun _ => rfl, fun hnot => absurd h hnot⟩

variable [DenseMap M OrderId Nat] {r : RefEngine P}

/-- A misaddressed order uses up a sequence number and changes nothing else its venue can see. -/
theorem processNewOrder_misaddressed (s : ReplayEngine P M X) (wire : NewOrderMessage) (ts : Int)
    (hsym : wire.symbolId ≠ s.matching.book.symbol) :
    ∃ out s', s.processNewOrder wire ts = some (out, s') ∧ Refused out ∧ s'.matching = s.matching ∧
      s'.nextSequence = s.nextSequence + 1 ∧ s'.risk = s.risk := by
  have hsubmit : s.matching.submit (s.orderOf wire ts) [] =
      some ({ remainingAfter := wire.quantity, rejectReason := .unknownSymbol }, s.matching, []) := if_pos hsym
  unfold ReplayEngine.processNewOrder
  dsimp only
  by_cases hrisk : s.risk.checkNewOrder (s.orderOf wire ts) = .none
  · rw [if_neg (not_not.2 hrisk), hsubmit]
    refine ⟨_, _, rfl, ?_, rfl, rfl, rfl⟩
    rintro _ ⟨⟩
    exact ⟨rfl, rfl⟩
  · rw [if_pos hrisk]
    exact ⟨_, _, rfl, nofun, rfl, rfl, rfl⟩

theorem VenueAlike.processNewOrder (h : VenueAlike r.symbol s t) (hR : Refines s.matching r) (wire : NewOrderMessage)
    (ts : Int) :
    ∃ out s' out' t', s.processNewOrder wire ts = some (out, s') ∧ t.processNewOrder wire ts = some (out', t') ∧
      SameAnswer r.symbol (.newOrder wire ts) out out' ∧ VenueAlike r.symbol s' t' := by
  by_cases hsym : wire.symbolId = r.symbol
  · -- matching gets the same order in the same book if it gets one at all, and risk says the same in both engines
    have hcheck : s.risk.checkNewOrder (t.orderOf wire ts) = t.risk.checkNewOrder (t.orderOf wire ts) :=
      h.risk.checkNewOrder hsym
    unfold ReplayEngine.processNewOrder
    dsimp only
    rw [h.orderOf wire ts, hcheck]
    by_cases hrisk : t.risk.checkNewOrder (t.orderOf wire ts) = .none
    · obtain ⟨res, e', r', fills, he, -, -, -⟩ := submit_sim hR (t.orderOf wire ts) []
      rw [List.nil_append] at he
      rw [if_neg (not_not.2 hrisk), if_neg (not_not.2 hrisk), ← h.matching, he]
      refine ⟨_, _, _, _, rfl, rfl, sameAnswer_of_addressed (.newOrder wire ts) hsym _, ?_⟩
      have hfills := (h.sequenced e').applyFills fills
      rw [← hsym] at hfills ⊢
      exact (hfills.publishRest res.rested wire.side wire.price).publishReport _ _ _ _ _ _ _
    · rw [if_pos hrisk, if_pos hrisk]
      have hnext : VenueAlike r.symbol { s with nextSequence := s.nextSequence + 1 }
          { t with nextSequence := t.nextSequence + 1 } := ⟨h.matching, congrArg (· + 1) h.nextSequence, h.risk⟩
      exact ⟨_, _, _, _, rfl, rfl, sameAnswer_of_addressed (.newOrder wire ts) hsym _,
        hnext.publishReport _ _ _ _ _ _ _⟩
  · obtain ⟨out, s', hs, hout, hmatching, hnext, hrisk⟩ :=
      processNewOrder_misaddressed s wire ts (by rw [hR.symbol]; exact hsym)
    obtain ⟨out', t', ht, hout', hmatching', hnext', hrisk'⟩ :=
      processNewOrder_misaddressed t wire ts (by rw [← h.matching, hR.symbol]; exact hsym)
    refine ⟨out, s', out', t', hs, ht, ⟨fun haddr => absurd haddr hsym, fun _ => ⟨hout, hout'⟩⟩, ?_⟩
    refine ⟨by rw [hmatching, hmatching', h.matching], by rw [hnext, hnext', h.nextSequence], ?_⟩
    rw [hrisk, hrisk']
    exact h.risk

theorem VenueAlike.processCancel (h : VenueAlike r.symbol s t) (hR : Refines s.matching r)
    (wire : CancelOrderMessage) : VenueAlike r.symbol (s.processCancel wire) (t.processCancel wire) := by
  unfold ReplayEngine.processCancel
  rw [← h.matching]
  cases hfind : s.matching.book.findNode wire.orderId with
  | none => exact h.publishReport _ _ _ _ _ _ _
  | some n =>
    have hsymbol : (s.matching.book.node n).order.symbol = r.symbol :=
      (hR.valid.order _ (hR.holds.findNode_mem hfind).1).symbol
    have hcancelled : VenueAlike r.symbol { s with matching := (s.matching.cancel wire.orderId).2 }
        { t with matching := (s.matching.cancel wire.orderId).2 } := ⟨rfl, h.nextSequence, h.risk⟩
    dsimp only
    by_cases hacc : (s.matching.cancel wire.orderId).1.accepted = true
    · rw [if_pos hacc, if_pos hacc, hsymbol]
      exact (hcancelled.publishLevel _ _).publishReport _ _ _ _ _ _ _
    · rw [if_neg hacc, if_neg hacc]
      exact hcancelled

theorem VenueAlike.processReplace (h : VenueAlike r.symbol s t) (hR : Refines s.matching r)
    (wire : ReplaceOrderMessage) (ts : Int) :
    ∃ out s' t', s.processReplace wire ts = some (out, s') ∧ t.processReplace wire ts = some (out, t') ∧
      VenueAlike r.symbol s' t' := by
  obtain ⟨out, s', r', hs, -⟩ := processReplace_outcome hR wire ts
  refine ⟨out, s', ?_⟩
  rw [hs]
  unfold ReplayEngine.processReplace at hs ⊢
  rw [← h.matching, ← h.nextSequence]
  cases hfind : s.matching.book.findNode wire.orderId with
  | none =>
    rw [hfind] at hs
    obtain ⟨rfl, rfl⟩ := Prod.mk.inj (Option.some.inj hs)
    exact ⟨_, rfl, rfl, h.publishReport _ _ _ _ _ _ _⟩
  | some n =>
    have hsymbol : (s.matching.book.node n).order.symbol = r.symbol :=
      (hR.valid.order _ (hR.holds.findNode_mem hfind).1).symbol
    rw [hfind] at hs
    dsimp only at hs ⊢
    cases hreplace : s.matching.replace wire.orderId wire.newPrice wire.newQuantity s.nextSequence ts [] with
    | none => rw [hreplace] at hs; cases hs
    | some answer =>
      obtain ⟨result, e', fills⟩ := answer
      have hsequenced : VenueAlike r.symbol (s.sequenced e')
          { t.sequenced e' with nextSequence := s.nextSequence + 1 } := ⟨rfl, rfl, h.risk⟩
      rw [hreplace] at hs
      dsimp only at hs ⊢
      cases hacc : result.accepted with
      | false =>
        rw [hacc] at hs
        obtain ⟨rfl, rfl⟩ := Prod.mk.inj (Option.some.inj hs)
        exact ⟨_, rfl, rfl, hsequenced.publishReport _ _ _ _ _ _ _⟩
      | true =>
        rw [hacc] at hs
        obtain ⟨rfl, rfl⟩ := Prod.mk.inj (Option.some.inj hs)
        refine ⟨_, rfl, rfl, ?_⟩
        rw [hsymbol]
        exact (((hsequenced.applyFills fills).publishLevel _ _).publishRest result.rested _ _).publishReport
          _ _ _ _ _ _ _

/-- A request records its fills under the symbol of its venue, and does nothing else to the risk engine. -/
theorem Handled.recordFills {ev : Event} {out : Option Submission} {r' : RefEngine P}
    (h : Handled s r ev out s' r') (hr : r.Valid) (hrequest : ev.orderId? ≠ none) :
    s'.risk = s.risk.recordFills r.symbol (submissionFills out) := by
  cases h with
  | refusedByRisk _ heff => exact heff.risk
  | submitted _ hsub heff => exact heff.risk.trans (hsub.recordFills_symbol s.risk)
  | cancelRefused heff => exact heff.risk
  | cancelled _ heff => exact heff.risk
  | replaceRefused _ hout heff =>
    have hfills : submissionFills out = [] := by
      cases out with
      | none => rfl
      | some t => exact (hout t rfl).1
    rw [hfills]
    exact heff.risk
  | replaced _ _ hmem _ _ heff =>
    rw [← (hr.order _ hmem).symbol]
    exact heff.risk
  | engageKillSwitch => exact absurd rfl hrequest
  | disengageKillSwitch => exact absurd rfl hrequest

/-- Two replay engines that look alike to a symbol answer a request on it alike, and still look alike afterwards. -/
theorem VenueAlike.process (h : VenueAlike r.symbol s t) (hR : Refines s.matching r) (ev : Event) :
    ∃ out s' out' t', s.process ev = some (out, s') ∧ t.process ev = some (out', t') ∧
      SameAnswer r.symbol ev out out' ∧ VenueAlike r.symbol s' t' := by
  cases ev with
  | newOrder wire ts => exact h.processNewOrder hR wire ts
  | cancel wire =>
    exact ⟨_, _, _, _, rfl, rfl, sameAnswer_of_addressed (.cancel wire) trivial _, h.processCancel hR wire⟩
  | replace wire ts =>
    obtain ⟨out, s', t', hs, ht, hst⟩ := h.processReplace hR wire ts
    exact ⟨out, s', out, t', hs, ht, sameAnswer_of_addressed (.replace wire ts) trivial _, hst⟩
  | engageKillSwitch =>
    exact ⟨_, _, _, _, rfl, rfl, sameAnswer_of_addressed .engageKillSwitch trivial _, h.matching, h.nextSequence,
      h.risk.limits, rfl, h.risk.account⟩
  | disengageKillSwitch =>
    exact ⟨_, _, _, _, rfl, rfl, sameAnswer_of_addressed .disengageKillSwitch trivial _, h.matching, h.nextSequence,
      h.risk.limits, rfl, h.risk.account⟩

end

/-! ### The venues together -/

/-- The replay engines of several venues, which hold references to one risk engine and one feed. -/
structure Venues (ι : Type) (P : ι → Params) (M X : Type) where
  matching : (i : ι) → MatchingEngine (P i) M
  nextSequence : ι → Sequence
  risk : RiskEngine X
  feed : MarketDataPublisher

namespace Venues

variable {ι : Type} {P : ι → Params} {M X : Type}

/-- The replay engine of a venue. -/
def venue (s : Venues ι P M X) (i : ι) : ReplayEngine (P i) M X where
  matching := s.matching i
  risk := s.risk
  feed := s.feed
  nextSequence := s.nextSequence i

/-- What a call on the replay engine of a venue leaves behind. -/
def setVenue [DecidableEq ι] (s : Venues ι P M X) (i : ι) (t : ReplayEngine (P i) M X) : Venues ι P M X where
  matching := Function.update s.matching i t.matching
  nextSequence := Function.update s.nextSequence i t.nextSequence
  risk := t.risk
  feed := t.feed

variable [DenseMap M OrderId Nat]

/-- Empty books and an empty feed, with a risk engine in any state. -/
def new (symbol : ι → SymbolId) (basePrice : ι → Int) (risk : RiskEngine X) : Venues ι P M X where
  matching i := MatchingEngine.new (P i) M (symbol i) (basePrice i)
  nextSequence _ := 1
  risk := risk
  feed := {}

variable [DecidableEq ι] [DenseMap X UInt64 ClientExposure]

/-- An event at a venue.  It does not matter at which venue the kill switch is operated. -/
def process (s : Venues ι P M X) (req : ι × Event) : Option (Option Submission × Venues ι P M X) :=
  ((s.venue req.1).process req.2).map fun p => (p.1, s.setVenue req.1 p.2)

/-- What a venue sees of an event: its own requests, and the kill switch, which all venues share. -/
def seenAt (i : ι) (req : ι × Event) : Option Event :=
  if req.1 = i ∨ req.2.orderId? = none then some req.2 else none

/-- The answers to the events that a venue sees. -/
def answersAt (i : ι) (reqs : List (ι × Event)) (outs : List (Option Submission)) :
    List ((ι × Event) × Option Submission) :=
  (reqs.zip outs).filter fun answer => (seenAt i answer.1).isSome

omit [DenseMap M OrderId Nat] [DenseMap X UInt64 ClientExposure] in
@[simp] theorem venue_setVenue (s : Venues ι P M X) (i : ι) (t : ReplayEngine (P i) M X) :
    (s.setVenue i t).venue i = t := by
  simp [venue, setVenue]

omit [DenseMap M OrderId Nat] [DenseMap X UInt64 ClientExposure] in
theorem venue_setVenue_of_ne (s : Venues ι P M X) {i j : ι} (hij : i ≠ j) (t : ReplayEngine (P j) M X) :
    (s.setVenue j t).venue i = { s.venue i with risk := t.risk, feed := t.feed } := by
  simp [venue, setVenue, hij]

/-- Every book holds the orders of some reference engine of its venue's symbol. -/
def Holds (symbol : ι → SymbolId) (s : Venues ι P M X) : Prop :=
  ∀ i, ∃ r : RefEngine (P i), Refines (s.matching i) r ∧ r.symbol = symbol i

variable {symbol : ι → SymbolId} {s s' : Venues ι P M X} {i j : ι}

omit [DenseMap X UInt64 ClientExposure] in
theorem Holds.setVenue (h : s.Holds symbol) {t : ReplayEngine (P j) M X} {r : RefEngine (P j)}
    (hR : Refines t.matching r) (hr : r.symbol = symbol j) : (s.setVenue j t).Holds symbol := by
  intro i
  by_cases hij : i = j
  · subst hij
    refine ⟨r, ?_, hr⟩
    simpa [Venues.setVenue] using hR
  · obtain ⟨r', hR', hr'⟩ := h i
    refine ⟨r', ?_, hr'⟩
    simpa [Venues.setVenue, hij] using hR'

/-- A request at one venue shows at no other: the exposures it changes are those of its own symbol. -/
theorem process_hidden (h : s.Holds symbol) (hsymbol : Function.Injective symbol) {req : ι × Event}
    (hreq : seenAt i req = none) :
    ∃ out s', s.process req = some (out, s') ∧ s'.Holds symbol ∧
      VenueAlike (symbol i) (s'.venue i) (s.venue i) := by
  obtain ⟨j, ev⟩ := req
  have hnot : ¬ (j = i ∨ ev.orderId? = none) := by
    intro hsees
    rw [seenAt, if_pos hsees] at hreq
    cases hreq
  obtain ⟨hji, hrequest⟩ := not_or.1 hnot
  obtain ⟨r, hR, hr⟩ := h j
  obtain ⟨out, t, r', hprocess, houtcome⟩ := process_outcome (s := s.venue j) hR ev
  have hhandled := houtcome.handled hR
  have hr' : r'.symbol = symbol j := (hhandled.records hR.valid).symbol.trans hr
  refine ⟨out, s.setVenue j t, ?_, h.setVenue (hhandled.refines hR) hr', ?_⟩
  · rw [process, hprocess, Option.map_some]
  · have hrisk : t.risk = s.risk.recordFills r.symbol (submissionFills out) :=
      hhandled.recordFills hR.valid hrequest
    rw [venue_setVenue_of_ne s (Ne.symm hji)]
    refine ⟨rfl, rfl, ?_⟩
    rw [hrisk, hr]
    exact SymbolAlike.recordFills_of_ne (fun hsame => hji (hsymbol hsame)) s.risk _

/-- What a venue sees of an event it handles as it would alone. -/
theorem process_seen (h : s.Holds symbol) {req : ι × Event} {ev : Event} (hreq : seenAt i req = some ev)
    {t : ReplayEngine (P i) M X} (ht : VenueAlike (symbol i) (s.venue i) t) :
    ∃ out out' s' t', s.process req = some (out, s') ∧ t.process ev = some (out', t') ∧
      SameAnswer (symbol i) ev out out' ∧ s'.Holds symbol ∧ VenueAlike (symbol i) (s'.venue i) t' := by
  obtain ⟨j, ev'⟩ := req
  have hsees : (j = i ∨ ev'.orderId? = none) ∧ ev' = ev := by
    unfold seenAt at hreq
    split_ifs at hreq with hsees
    exact ⟨hsees, Option.some.inj hreq⟩
  obtain ⟨hsees, rfl⟩ := hsees
  by_cases hji : j = i
  · subst hji
    obtain ⟨r, hR, hr⟩ := h j
    rw [← hr] at ht ⊢
    obtain ⟨out, u, out', t', hprocess, hprocess', hanswer, halike⟩ := ht.process hR ev'
    obtain ⟨_, _, r', hprocess₂, hhandled⟩ := process_handled (s := s.venue j) hR ev'
    rw [hprocess] at hprocess₂
    obtain ⟨rfl, rfl⟩ := Prod.mk.inj (Option.some.inj hprocess₂)
    have hr' : r'.symbol = symbol j := (hhandled.records hR.valid).symbol.trans hr
    refine ⟨out, out', s.setVenue j u, t', ?_, hprocess', hanswer, h.setVenue (hhandled.refines hR) hr', ?_⟩
    · rw [process, hprocess, Option.map_some]
    · rw [venue_setVenue]
      exact halike
  · -- the kill switch, operated at another venue
    have hkill : ev'.orderId? = none := hsees.resolve_left hji
    obtain ⟨r, hR, hr⟩ := h j
    cases ev' with
    | engageKillSwitch =>
      refine ⟨_, _, _, _, rfl, rfl, sameAnswer_of_addressed .engageKillSwitch trivial _, h.setVenue hR hr, ?_⟩
      rw [venue_setVenue_of_ne s (Ne.symm hji)]
      exact ⟨ht.matching, ht.nextSequence, ht.risk.limits, rfl, ht.risk.account⟩
    | disengageKillSwitch =>
      refine ⟨_, _, _, _, rfl, rfl, sameAnswer_of_addressed .disengageKillSwitch trivial _, h.setVenue hR hr, ?_⟩
      rw [venue_setVenue_of_ne s (Ne.symm hji)]
      exact ⟨ht.matching, ht.nextSequence, ht.risk.limits, rfl, ht.risk.account⟩
    | newOrder _ _ => cases hkill
    | cancel _ => cases hkill
    | replace _ _ => cases hkill

omit [DecidableEq ι] [DenseMap X UInt64 ClientExposure] in
theorem holds_new (symbol : ι → SymbolId) (basePrice : ι → Int) (risk : RiskEngine X) :
    (new (P := P) (M := M) symbol basePrice risk).Holds symbol :=
  fun i => ⟨_, refines_new (symbol i) (basePrice i), rfl⟩

/-- No event fails at any venue. -/
theorem Holds.process (h : s.Holds symbol) (req : ι × Event) :
    ∃ out s', s.process req = some (out, s') ∧ s'.Holds symbol := by
  have hseen : seenAt req.1 req = some req.2 := if_pos (Or.inl rfl)
  have hself : VenueAlike (symbol req.1) (s.venue req.1) (s.venue req.1) := ⟨rfl, rfl, SymbolAlike.refl _ _⟩
  obtain ⟨out, -, s', -, hprocess, -, -, hs', -⟩ := process_seen h hseen hself
  exact ⟨out, s', hprocess, hs'⟩

theorem holds_run (symbol : ι → SymbolId) (basePrice : ι → Int) (risk : RiskEngine X) (reqs : List (ι × Event)) :
    ∃ outs s, runAll process (new (P := P) (M := M) symbol basePrice risk) reqs = some (outs, s) ∧
      s.Holds symbol :=
  runAll_history (fun _ _ (s : Venues ι P M X) => s.Holds symbol) (fun _ _ _ req hs => hs.process req) reqs _
    (holds_new symbol basePrice risk)

/-- Venues for different symbols that share a risk engine do not interfere, whatever the order in which their requests
arrive: every venue has the book, the sequence numbers and the accounts of its symbol that it would have if it were
alone and saw only its own requests and the kill switch, and for each of them the same order goes to matching with the
same fills and rests or not.  The exception are new orders for a symbol that is not the venue's: they are refused
without a fill, by risk or by matching. -/
theorem venues_isolated (hsymbol : Function.Injective symbol) (basePrice : ι → Int) (risk : RiskEngine X)
    (reqs : List (ι × Event)) (i : ι) :
    ∃ outs outs' s t,
      runAll process (new (P := P) (M := M) symbol basePrice risk) reqs = some (outs, s) ∧
      runAll ReplayEngine.process (ReplayEngine.new (P := P i) (M := M) (symbol i) (basePrice i) risk)
        (reqs.filterMap (seenAt i)) = some (outs', t) ∧
      List.Forall₂ (fun answer out' => SameAnswer (symbol i) answer.1.2 answer.2 out') (answersAt i reqs outs) outs' ∧
      s.matching i = t.matching ∧ s.nextSequence i = t.nextSequence ∧
      s.risk.killSwitchEngaged = t.risk.killSwitchEngaged ∧
      ∀ c, s.risk.position c (symbol i) = t.risk.position c (symbol i) ∧
        s.risk.pnl c (symbol i) = t.risk.pnl c (symbol i) := by
  let Alike (s : Venues ι P M X) (t : ReplayEngine (P i) M X) : Prop :=
    s.Holds symbol ∧ VenueAlike (symbol i) (s.venue i) t
  have hseen : ∀ s t req ev, seenAt i req = some ev → Alike s t → ∃ out out' s' t',
      s.process req = some (out, s') ∧ t.process ev = some (out', t') ∧
        SameAnswer (symbol i) req.2 out out' ∧ Alike s' t' := by
    intro s t req ev hreq hst
    have hev : req.2 = ev := by
      unfold seenAt at hreq
      split_ifs at hreq
      exact Option.some.inj hreq
    obtain ⟨out, out', s', t', hs, ht, hanswer, hst'⟩ := process_seen hst.1 hreq hst.2
    exact ⟨out, out', s', t', hs, ht, hev ▸ hanswer, hst'⟩
  have hhidden : ∀ s t req, seenAt i req = none → Alike s t → ∃ out s',
      s.process req = some (out, s') ∧ Alike s' t := by
    intro s t req hreq hst
    obtain ⟨out, s', hs, hholds, halike⟩ := process_hidden hst.1 hsymbol hreq
    exact ⟨out, s', hs, hholds, halike.trans hst.2⟩
  obtain ⟨outs, outs', s, t, hs, ht, hanswers, -, halike⟩ :=
    runAll_observe (seenAt i) Alike (fun req out out' => SameAnswer (symbol i) req.2 out out') hseen hhidden reqs
      (new symbol basePrice risk) (ReplayEngine.new (symbol i) (basePrice i) risk)
      ⟨holds_new symbol basePrice risk, rfl, rfl, SymbolAlike.refl _ _⟩
  exact ⟨outs, outs', s, t, hs, ht, hanswers, halike.matching, halike.nextSequence, halike.risk.killSwitch,
    fun c => ⟨halike.risk.position c, halike.risk.pnl c⟩⟩

/-- The symbols of two venues, for concrete runs. -/
def pairSymbol : Bool → SymbolId
  | true => 7
  | false => 8

theorem pairSymbol_injective : Function.Injective pairSymbol := by
  intro i j
  revert i j
  decide

/-- A misaddressed order, a trade at one venue and the kill switch, as the other venue sees them. -/
theorem venues_isolated_pair :
    let reqs : List (Bool × Event) :=
      [(true, .newOrder (limitDay 1 1 .buy 100 5) 1), (false, .newOrder (limitDay 1 2 .sell 100 5) 2),
        (true, .newOrder (limitDay 2 2 .sell 100 2) 3), (true, .engageKillSwitch),
        (false, .newOrder { limitDay 3 1 .buy 101 1 with symbolId := 8 } 4)]
    Function.Injective pairSymbol ∧
      ∃ outs outs' s t,
        runAll process (new (P := fun _ => tinyParams) (M := IdMap) pairSymbol (fun _ => 100)
          (RiskEngine.new (X := ExposureMap) looseLimits)) reqs = some (outs, s) ∧
        runAll ReplayEngine.process (ReplayEngine.new (P := tinyParams) (M := IdMap) 8 100
          (RiskEngine.new (X := ExposureMap) looseLimits)) (reqs.filterMap (seenAt false)) = some (outs', t) ∧
        List.Forall₂ (fun answer out' => SameAnswer 8 answer.1.2 answer.2 out') (answersAt false reqs outs) outs' ∧
        s.matching false = t.matching ∧ s.nextSequence false = t.nextSequence ∧
        s.risk.killSwitchEngaged = t.risk.killSwitchEngaged ∧
        ∀ c, s.risk.position c 8 = t.risk.position c 8 ∧ s.risk.pnl c 8 = t.risk.pnl c 8 :=
  ⟨pairSymbol_injective, venues_isolated pairSymbol_injective _ _ _ false⟩

end Venues

end Exchange
