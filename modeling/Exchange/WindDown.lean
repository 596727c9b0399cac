import Exchange.BestPrices
import Exchange.Volume

/-!
# The kill switch

While the kill switch is engaged, no new order reaches matching.  What is left in the book can be cancelled, and it
can be replaced: a replace is not checked, and may trade.  So the book runs down.

* every order that rests has the id, the client and the side of one that rested when the switch was engaged;
* both parties of a trade had orders on their sides of the book then;
* without replaces nothing trades, the accounts stay as they are, and the orders that rest are those of before that
have not been cancelled.
-/

namespace Exchange

open OrderBook DenseMap RiskEngine

/-- Every order of `B'` is one of `B`, maybe with new terms. -/
def Remnant (B B' : Order → Prop) : Prop := ∀ x, B' x → ∃ y, B y ∧ y.id = x.id ∧ y.client = x.client ∧ y.side = x.side

/-- The resting order of the fill is one of `B`, and its aggressor has an order among those of `B` on its side. -/
def Fill.Among (B : Order → Prop) (f : Fill) : Prop :=
  (∃ x, B x ∧ x.id = f.restingOrderId ∧ x.client = f.restingClientId ∧ x.side = opposite f.aggressorSide) ∧
    ∃ y, B y ∧ y.client = f.aggressorClientId ∧ y.side = f.aggressorSide

section

variable {B B₁ B₂ : Order → Prop}

theorem remnant_of_imp (h : ∀ x, B₁ x → B x) : Remnant B B₁ := fun x hx => ⟨x, h x hx, rfl, rfl, rfl⟩

theorem Remnant.trans (h₁ : Remnant B B₁) (h₂ : Remnant B₁ B₂) : Remnant B B₂ := by
  intro x hx
  obtain ⟨y, hy, hid, hclient, hside⟩ := h₂ x hx
  obtain ⟨z, hz, hid', hclient', hside'⟩ := h₁ y hy
  exact ⟨z, hz, hid'.trans hid, hclient'.trans hclient, hside'.trans hside⟩

theorem Fill.Among.of_remnant {f : Fill} (h : f.Among B₁) (hB : Remnant B B₁) : f.Among B := by
  obtain ⟨⟨x, hx, hid, hclient, hside⟩, y, hy, hclient', hside'⟩ := h
  obtain ⟨x₀, hx₀, hid₀, hclient₀, hside₀⟩ := hB x hx
  obtain ⟨y₀, hy₀, -, hclient₁, hside₁⟩ := hB y hy
  exact ⟨⟨x₀, hx₀, hid₀.trans hid, hclient₀.trans hclient, hside₀.trans hside⟩,
    y₀, hy₀, hclient₁.trans hclient', hside₁.trans hside'⟩

end

/-- The event takes the order with this id out of the book, if it is there. -/
def Event.Cancels (id : OrderId) : Event → Prop
  | .cancel wire => wire.orderId = id
  | _ => False

def Event.IsReplace : Event → Prop
  | .replace _ _ => True
  | _ => False

section

variable {P : Params} {M X : Type} [DenseMap M OrderId Nat] [DenseMap X UInt64 ClientExposure]
  {s s' : ReplayEngine P M X} {r r' : RefEngine P} {ev : Event} {out : Option Submission}

theorem Handled.killSwitch (h : Handled s r ev out s' r') (hengaged : s.risk.killSwitchEngaged = true)
    (hev : ev ≠ .disengageKillSwitch) : s'.risk.killSwitchEngaged = true := by
  have hrecorded : ∀ {symbol : SymbolId} {fs : List Fill}, s'.risk = s.risk.recordFills symbol fs →
      s'.risk.killSwitchEngaged = true := by
    intro symbol fs hrisk
    rw [hrisk, killSwitch_recordFills, hengaged]
  cases h with
  | refusedByRisk _ heff => exact hrecorded heff.risk
  | submitted _ _ heff => exact hrecorded heff.risk
  | cancelRefused heff => exact hrecorded heff.risk
  | cancelled _ heff => exact hrecorded heff.risk
  | replaceRefused _ _ heff => exact hrecorded heff.risk
  | replaced _ _ _ _ _ heff => exact hrecorded heff.risk
  | engageKillSwitch => rfl
  | disengageKillSwitch => exact absurd rfl hev

omit [DenseMap M OrderId Nat] in
theorem not_approved {o : Order} (hengaged : s.risk.killSwitchEngaged = true) : s.risk.checkNewOrder o ≠ .none := by
  intro hrisk
  rw [(checkNewOrder_eq_none hrisk).1] at hengaged
  cases hengaged

/-- With the switch engaged, an event leaves a remnant of the book, and trades only among the orders in it. -/
theorem Outcome.remnant (h : Outcome s r ev out s' r') (hr : r.Valid) (hengaged : s.risk.killSwitchEngaged = true) :
    Remnant (· ∈ r.resting) (· ∈ r'.resting) ∧ ∀ f ∈ submissionFills out, f.Among (· ∈ r.resting) := by
  cases h with
  | submitted hrisk _ _ => exact absurd hrisk (not_approved hengaged)
  | cancelled _ _ _ => exact ⟨remnant_of_imp fun x hx => (mem_removeOrder.1 hx).1, fun _ hf => nomatch hf⟩
  | @replaced wire ts n o _ _ _ fills _ horder hmem _ hsub _ _ =>
    have hclient : (s.replacement wire ts n).client = o.client := by rw [← horder]; rfl
    have hside : (s.replacement wire ts n).side = o.side := by rw [← horder]; rfl
    have hid : (s.replacement wire ts n).id = o.id := by rw [← horder]; rfl
    have hvalid := hr.removeOrder o.id
    constructor
    · intro x hx
      rcases hsub.mem hvalid hx with ⟨y, hy, hxy⟩ | ⟨hxo, -⟩
      · exact ⟨y, (mem_removeOrder.1 hy).1, by rw [hxy], by rw [hxy], by rw [hxy]⟩
      · refine ⟨o, hmem, ?_, ?_, ?_⟩
        · rw [hxo]; exact hid.symm
        · rw [hxo]; exact hclient.symm
        · rw [hxo]; exact hside.symm
    · intro f hf
      obtain ⟨x, hx, hacc, hfill⟩ := hsub.counterparty hvalid hf
      have hopposite : x.side = opposite (s.replacement wire ts n).side :=
        of_decide_eq_true (Bool.and_eq_true_iff.1 hacc).1
      refine ⟨⟨x, (mem_removeOrder.1 hx).1, hfill.restingOrderId.symm, hfill.restingClientId.symm, ?_⟩, o, hmem, ?_, ?_⟩
      · rw [hopposite, hfill.aggressorSide]
      · rw [hfill.aggressorClientId, hclient]
      · rw [hfill.aggressorSide, hside]
  | _ => exact ⟨remnant_of_imp fun _ hx => hx, fun _ hf => nomatch hf⟩

/-- With the switch engaged, only a replace trades, and otherwise just the cancelled order goes. -/
theorem Outcome.quiet_unless_replace (h : Outcome s r ev out s' r') (hengaged : s.risk.killSwitchEngaged = true)
    (hev : ¬ ev.IsReplace) :
    submissionFills out = [] ∧ ∀ x, x ∈ r'.resting ↔ x ∈ r.resting ∧ ¬ ev.Cancels x.id := by
  cases h with
  | submitted hrisk _ _ => exact absurd hrisk (not_approved hengaged)
  | cancelRefused hfree =>
    exact ⟨rfl, fun x => ⟨fun hx => ⟨hx, fun hid => hfree x hx hid.symm⟩, And.left⟩⟩
  | @cancelled wire o _ _ hid _ =>
    refine ⟨rfl, fun x => ?_⟩
    show x ∈ removeOrder o.id r.resting ↔ x ∈ r.resting ∧ ¬ wire.orderId = x.id
    rw [mem_removeOrder, hid, ne_comm]
  | replaceUnknown _ => exact absurd trivial hev
  | replaceRefused _ _ _ _ _ => exact absurd trivial hev
  | replaced _ _ _ _ _ _ _ => exact absurd trivial hev
  | _ => exact ⟨rfl, fun x => by simp [Event.Cancels]⟩

/-! ### Whole runs -/

/-- What has become of the engine `s` while the switch was engaged. -/
structure WoundDown (s : ReplayEngine P M X) (r : RefEngine P) (evs : List Event) (outs : List (Option Submission))
    (s' : ReplayEngine P M X) (r' : RefEngine P) : Prop where
  engaged : s'.risk.killSwitchEngaged = true
  remnant : Remnant (· ∈ r.resting) (· ∈ r'.resting)
  among : ∀ f ∈ runFills outs, f.Among (· ∈ r.resting)
  quiet : (∀ ev ∈ evs, ¬ ev.IsReplace) → runFills outs = [] ∧
    (∀ c sym, s'.risk.account c sym = s.risk.account c sym) ∧
    ∀ x, x ∈ r'.resting ↔ x ∈ r.resting ∧ ∀ ev ∈ evs, ¬ ev.Cancels x.id

omit [DenseMap M OrderId Nat] in
theorem woundDown_refl (s : ReplayEngine P M X) (r : RefEngine P) (h : s.risk.killSwitchEngaged = true) :
    WoundDown s r [] [] s r where
  engaged := h
  remnant := remnant_of_imp fun _ hx => hx
  among _ hf := nomatch hf
  quiet _ := ⟨rfl, fun _ _ => rfl, fun x => by simp⟩

theorem WoundDown.step {s₁ : ReplayEngine P M X} {r₁ : RefEngine P} {evs : List Event}
    {outs : List (Option Submission)} (h : WoundDown s r evs outs s₁ r₁) (houtcome : Outcome s₁ r₁ ev out s' r')
    (hR : Refines s₁.matching r₁) (hev : ev ≠ .disengageKillSwitch) :
    WoundDown s r (evs ++ [ev]) (outs ++ [out]) s' r' := by
  obtain ⟨hremnant, hamong⟩ := houtcome.remnant hR.valid h.engaged
  have hhandled := houtcome.handled hR
  refine ⟨hhandled.killSwitch h.engaged hev, h.remnant.trans hremnant, ?_, ?_⟩
  · intro f hf
    rw [runFills_concat] at hf
    rcases List.mem_append.1 hf with hf | hf
    · exact h.among f hf
    · exact (hamong f hf).of_remnant h.remnant
  · intro hevs
    obtain ⟨hfills, haccounts, hrest⟩ := h.quiet fun e he => hevs e (List.mem_append_left _ he)
    obtain ⟨hnone, hleft⟩ := houtcome.quiet_unless_replace h.engaged (hevs ev (by simp))
    refine ⟨by rw [runFills_concat, hfills, hnone]; rfl, fun c sym => ?_, fun x => ?_⟩
    · have haccount := (hhandled.records hR.valid).account c sym
      rw [hnone] at haccount
      exact haccount.trans (haccounts c sym)
    · rw [hleft, hrest, List.forall_mem_append, List.forall_mem_singleton, and_assoc]

/-- The kill switch winds the book down.  Engage it after any history; until it is disengaged, whatever requests come,
the book holds a remnant of what it held, and only the clients with orders in it trade.  If nobody replaces an order,
nothing trades, no account changes, and exactly the orders that have not been cancelled are left, as they were. -/
theorem kill_switch_winds_down (symbol : SymbolId) (basePrice : Int) (risk : RiskEngine X)
    (history events : List Event) (hevents : ∀ ev ∈ events, ev ≠ .disengageKillSwitch) :
    ∃ past s outs s',
      runAll ReplayEngine.process (ReplayEngine.new (P := P) (M := M) symbol basePrice risk)
        (history ++ [.engageKillSwitch]) = some (past, s) ∧
      runAll ReplayEngine.process s events = some (outs, s') ∧
      Remnant s.matching.book.Resting s'.matching.book.Resting ∧
      (∀ f ∈ runFills outs, f.Among s.matching.book.Resting) ∧
      ((∀ ev ∈ events, ¬ ev.IsReplace) → runFills outs = [] ∧
        (∀ c sym, s'.risk.position c sym = s.risk.position c sym ∧ s'.risk.pnl c sym = s.risk.pnl c sym) ∧
        ∀ x, s'.matching.book.Resting x ↔ s.matching.book.Resting x ∧ ∀ ev ∈ events, ¬ ev.Cancels x.id) := by
  obtain ⟨past, s₀, r, hpast, hR, -⟩ := process_run (P := P) (M := M) (fun _ _ => True) (fun _ _ _ => trivial)
    symbol basePrice risk history trivial
  let s : ReplayEngine P M X := { s₀ with risk := s₀.risk.engageKillSwitch }
  have hengage : runAll ReplayEngine.process s₀ [.engageKillSwitch] = some ([none], s) := rfl
  have hR : Refines s.matching r := hR
  have hstep : ∀ (evs : List Event) (outs : List (Option Submission)) (s₁ : ReplayEngine P M X) (ev : Event),
      (∃ r₁, Refines s₁.matching r₁ ∧
        ((∀ e ∈ evs, e ≠ .disengageKillSwitch) → WoundDown s r evs outs s₁ r₁)) →
      ∃ out s', s₁.process ev = some (out, s') ∧ ∃ r', Refines s'.matching r' ∧
        ((∀ e ∈ evs ++ [ev], e ≠ .disengageKillSwitch) → WoundDown s r (evs ++ [ev]) (outs ++ [out]) s' r') := by
    rintro evs outs s₁ ev ⟨r₁, hR₁, h⟩
    obtain ⟨out, s', r', hprocess, houtcome⟩ := process_outcome hR₁ ev
    refine ⟨out, s', hprocess, r', (houtcome.handled hR₁).refines hR₁, fun hevs => ?_⟩
    exact (h fun e he => hevs e (List.mem_append_left _ he)).step houtcome hR₁ (hevs ev (by simp))
  obtain ⟨outs, s', hrun, r', hR', h⟩ := runAll_history _ hstep events s ⟨r, hR, fun _ => woundDown_refl s r rfl⟩
  have hwound := h hevents
  have hbook : s.matching.book.Resting = (· ∈ r.resting) := funext fun o => propext hR.holds.resting_iff
  have hbook' : s'.matching.book.Resting = (· ∈ r'.resting) := funext fun o => propext hR'.holds.resting_iff
  refine ⟨_, s, outs, s', runAll_append hpast hengage, hrun, ?_⟩
  rw [hbook, hbook']
  refine ⟨hwound.remnant, hwound.among, fun hevs => ?_⟩
  obtain ⟨hfills, haccounts, hrest⟩ := hwound.quiet hevs
  refine ⟨hfills, fun c sym => ?_, hrest⟩
  rw [position_eq, position_eq, pnl_eq, pnl_eq, haccounts]
  exact ⟨rfl, rfl⟩

end

/-- A bid and an ask rest when the switch is engaged.  A new order is refused, but the bid is moved to the ask. -/
theorem kill_switch_winds_down_replaced :
    let history : List Event := [.newOrder (limitDay 1 1 .sell 101 3) 1, .newOrder (limitDay 2 2 .buy 100 2) 2]
    let events : List Event := [.newOrder (limitDay 3 3 .buy 101 1) 3,
      .replace { orderId := 2, newPrice := 101, newQuantity := 2, clientId := 2, symbolId := 7 } 4]
    (∀ ev ∈ events, ev ≠ .disengageKillSwitch) ∧ ∃ past s outs s',
      runAll ReplayEngine.process (ReplayEngine.new (P := tinyParams) (M := IdMap) 7 100
        (RiskEngine.new looseLimits : RiskEngine ExposureMap)) (history ++ [.engageKillSwitch]) = some (past, s) ∧
      runAll ReplayEngine.process s events = some (outs, s') ∧
      Remnant s.matching.book.Resting s'.matching.book.Resting ∧
      ∀ f ∈ runFills outs, f.Among s.matching.book.Resting := by
  intro history events
  have hevents : ∀ ev ∈ events, ev ≠ .disengageKillSwitch := by simp [events]
  obtain ⟨past, s, outs, s', hpast, hrun, hremnant, hamong, -⟩ := kill_switch_winds_down (P := tinyParams) (M := IdMap)
    7 100 (RiskEngine.new looseLimits : RiskEngine ExposureMap) history events hevents
  exact ⟨hevents, past, s, outs, s', hpast, hrun, hremnant, hamong⟩

end Exchange
