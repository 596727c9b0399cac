import Exchange.Requests

/-!
# The pre-trade gate

Every order that reaches the book should have passed `check_new_order` in the state before its request.  New orders
have, since `process_new_order` runs the check.  `process_replace` does not run it, so a replacement order that would
be refused trades or rests all the same.
-/

namespace Exchange

open OrderBook DenseMap

namespace RefEngine

variable {P : Params} {r r' : RefEngine P} {o a : Order} {fs : List Fill} {res : NewOrderResult}

theorem Sweep.remaining_of_nil (h : Sweep a r [] o r') : o.remaining = a.remaining := by
  have hquantity := h.quantity
  simp only [List.map_nil, List.sum_nil] at hquantity
  omega

/-- An accepted Day Limit order trades or comes to rest. -/
theorem Submitted.trades_or_rests (h : Submitted r o res r' fs) (hacc : res.rejectReason = .none)
    (htype : o.type = .limit) (htif : o.tif = .day) : fs ≠ [] ∨ res.rested = true := by
  cases h with
  | refused reason href =>
    have hreason : reason = .none := hacc
    subst hreason
    exact href.elim
  | rested _ _ _ _ _ => exact Or.inr rfl
  | full _ _ _ _ _ => cases hacc
  | @ended _ a _ hx hend =>
    refine Or.inl fun hnil => hend ⟨?_, htype, htif⟩
    subst hnil
    rw [hx.sweep.remaining_of_nil]
    exact hx.quantity

end RefEngine

section

variable {P : Params} {M X : Type} [DenseMap X UInt64 ClientExposure]

/-- What the gate is there for: in state `s`, a request that has submitted the order of `out` to the book has done so
only if the order passes the risk check. -/
structure Gated (s : ReplayEngine P M X) (out : Option Submission) : Prop where
  checked : ∀ t ∈ out, t.fills ≠ [] ∨ t.rested = true → s.risk.checkNewOrder t.order = .none
  killSwitch : s.risk.killSwitchEngaged = true → ∀ t ∈ out, t.fills = [] ∧ t.rested = false
  orderSize : ∀ t ∈ out, s.risk.limits.maxOrderSize < t.order.quantity → t.fills = [] ∧ t.rested = false

theorem nothing_of_not_trades_or_rests {t : Submission} (h : ¬ (t.fills ≠ [] ∨ t.rested = true)) :
    t.fills = [] ∧ t.rested = false := by
  obtain ⟨hfills, hrested⟩ := not_or.1 h
  exact ⟨not_not.1 hfills, Bool.eq_false_iff.2 hrested⟩

/-- The kill switch and the size limit are part of the check. -/
theorem gated_iff (s : ReplayEngine P M X) (out : Option Submission) :
    Gated s out ↔ ∀ t ∈ out, t.fills ≠ [] ∨ t.rested = true → s.risk.checkNewOrder t.order = .none := by
  refine ⟨Gated.checked, fun h => ⟨h, ?_, ?_⟩⟩
  · intro hkill t ht
    refine nothing_of_not_trades_or_rests fun hactive => ?_
    have hoff := (RiskEngine.checkNewOrder_eq_none (h t ht hactive)).1
    rw [hkill] at hoff
    cases hoff
  · intro t ht hsize
    refine nothing_of_not_trades_or_rests fun hactive => ?_
    have hfits := (RiskEngine.checkNewOrder_eq_none (h t ht hactive)).2.1
    exact absurd hsize (not_lt.2 hfits)

variable [DenseMap M OrderId Nat]

/-- A replace request that goes through in `s` submits an order that passes the risk check.  Nothing is asked of the
other events. -/
def RiskChecked (s : ReplayEngine P M X) : Event → Prop
  | .replace wire ts => ∀ n, s.Replaces wire n → s.risk.checkNewOrder (s.replacement wire ts n) = .none
  | _ => True

variable {s s' : ReplayEngine P M X} {r r' : RefEngine P} {ev : Event} {out : Option Submission}

theorem Handled.gated_iff (h : Handled s r ev out s' r') (hR : Refines s.matching r) :
    Gated s out ↔ RiskChecked s ev := by
  rw [Exchange.gated_iff]
  cases h with
  | refusedByRisk _ _ => simp [RiskChecked]
  | submitted hrisk _ _ => simp [RiskChecked, hrisk]
  | cancelRefused _ => simp [RiskChecked]
  | cancelled _ _ => simp [RiskChecked]
  | replaceRefused hnot hout _ =>
    constructor
    · intro _ n hrep
      exact absurd hrep (hnot n)
    · intro _ t ht hactive
      obtain ⟨hfills, hrested⟩ := hout t ht
      rw [hfills, hrested] at hactive
      simp at hactive
  | @replaced wire ts n o _ _ res fills hrep horder hmem hsub hacc _ =>
    -- the replacement of a resting order is a Day Limit order again, so the submission does something
    have hrestable := hR.valid.order o hmem
    have htype : (s.replacement wire ts n).type = .limit := by
      rw [ReplayEngine.replacement, horder]
      exact hrestable.type
    have htif : (s.replacement wire ts n).tif = .day := by
      rw [ReplayEngine.replacement, horder]
      exact hrestable.tif
    have hactive := hsub.trades_or_rests hacc htype htif
    constructor
    · intro hchecked m hrep'
      have hm : n = m := Option.some.inj (hrep.found.symm.trans hrep'.found)
      rw [← hm]
      exact hchecked _ rfl hactive
    · intro hchecked t ht _
      cases ht
      exact hchecked n hrep
  | engageKillSwitch => simp [RiskChecked]
  | disengageKillSwitch => simp [RiskChecked]

/-- The event is processed in `s` without bypassing the gate. -/
def KeepsGate (s : ReplayEngine P M X) (ev : Event) : Prop := ∃ out s', s.process ev = some (out, s') ∧ Gated s out

theorem keepsGate_iff (hR : Refines s.matching r) (ev : Event) : KeepsGate s ev ↔ RiskChecked s ev := by
  obtain ⟨out, s', r', hprocess, hhandled⟩ := process_handled hR ev
  rw [← hhandled.gated_iff hR]
  constructor
  · intro hkeeps
    obtain ⟨out', s'', hprocess', hgated⟩ := hkeeps
    rw [hprocess] at hprocess'
    cases hprocess'
    exact hgated
  · intro hgated
    exact ⟨out, s', hprocess, hgated⟩

/-- Every run goes through, and all its requests keep the gate if and only if none of them is a replace that goes
through with an order the risk check refuses. -/
theorem gate_kept_iff (symbol : SymbolId) (basePrice : Int) (risk : RiskEngine X) (events : List Event) :
    (∃ outs s, runAll ReplayEngine.process (ReplayEngine.new (P := P) (M := M) symbol basePrice risk) events =
      some (outs, s)) ∧
    (AllSteps ReplayEngine.process KeepsGate (ReplayEngine.new (P := P) (M := M) symbol basePrice risk) events ↔
      AllSteps ReplayEngine.process RiskChecked (ReplayEngine.new (P := P) (M := M) symbol basePrice risk) events) := by
  exact process_allSteps_iff (fun s r ev hR => keepsGate_iff hR ev) symbol basePrice risk events

end

/-- Client 1 has a resting Buy of 5.  With the kill switch on, it replaces the order by a Buy of 50, five times the
size limit; the new order is left resting. -/
theorem replace_passes_kill_switch :
    ∃ outs s t s', runAll ReplayEngine.process
        (ReplayEngine.new (P := tinyParams) (M := IdMap) 7 100
          (RiskEngine.new { maxOrderSize := 10, maxPosition := 10, maxLossPerClient := -1000 } :
            RiskEngine ExposureMap))
        [.newOrder (limitDay 1 1 .buy 100 5) 0, .engageKillSwitch] = some (outs, s) ∧
      s.process (.replace { orderId := 1, newPrice := 101, newQuantity := 50, clientId := 1, symbolId := 7 } 1) =
        some (some t, s') ∧
      t.rested = true ∧ t.order.quantity = 50 ∧ s.risk.killSwitchEngaged = true ∧
      s.risk.checkNewOrder t.order = .riskKillSwitch :=
  ⟨_, _, _, _, rfl, rfl, rfl, rfl, rfl, rfl⟩

end Exchange
