import Exchange.Position
import Mathlib.Algebra.BigOperators.Ring.Finset
import Mathlib.Data.FinEnum

/-!
# Accounts

The exposures the risk engine keeps are the history of the fills: the position of a client is what it has bought less
what it has sold, and its cash flow is the money paid for that.  Both net to zero over all clients.
-/

namespace Exchange

open OrderBook DenseMap RiskEngine

/-! ### One account -/

section

variable {X : Type} [DenseMap X UInt64 ClientExposure]

/-- The exposure of a client in a symbol; an account that has not traded is zero. -/
def RiskEngine.account (k : RiskEngine X) (c : ClientId) (sym : SymbolId) : ClientExposure :=
  (find k.exposure (accountKey c sym)).getD {}

/-- `cash_flow`, which has no getter in the source. -/
def RiskEngine.cashFlow (k : RiskEngine X) (c : ClientId) (sym : SymbolId) : Int := (k.account c sym).cashFlow

theorem RiskEngine.position_eq (k : RiskEngine X) (c : ClientId) (sym : SymbolId) :
    k.position c sym = (k.account c sym).position := by
  unfold position account
  cases find k.exposure (accountKey c sym) <;> rfl

theorem RiskEngine.pnl_eq (k : RiskEngine X) (c : ClientId) (sym : SymbolId) :
    k.pnl c sym = (k.account c sym).markToMarketPnl := by
  unfold pnl account
  cases find k.exposure (accountKey c sym) with
  | none => simp [ClientExposure.markToMarketPnl]
  | some x => rfl

/-- An account after a fill of its client. -/
def ClientExposure.afterFill (x : ClientExposure) (side : Side) (price quantity : Int) : ClientExposure where
  position := x.position + signed side quantity
  cashFlow := x.cashFlow - signed side quantity * price
  lastMarkPrice := price

theorem account_recordFill_self (k : RiskEngine X) (c : ClientId) (sym : SymbolId) (side : Side)
    (price quantity : Int) :
    (k.recordFill c sym side price quantity).account c sym = (k.account c sym).afterFill side price quantity := by
  unfold account recordFill ClientExposure.afterFill
  dsimp only
  rw [find_assign_self, Option.getD_some]
  cases side <;> simp [signed, Int.mul_comm, sub_eq_add_neg]

/-- A fill of one account leaves every other account as it was. -/
theorem account_recordFill_of_ne (k : RiskEngine X) {client c : ClientId} {symbol sym : SymbolId}
    (h : ¬ (client = c ∧ symbol = sym)) (side : Side) (price quantity : Int) :
    (k.recordFill client symbol side price quantity).account c sym = k.account c sym := by
  unfold account recordFill
  dsimp only
  rw [find_assign_ne _ _ _ _ fun e => h (accountKey_inj.1 e.symm)]

/-! ### One fill -/

/-- What client `c` has bought in the fill, once for each of its roles. -/
def Fill.signedFor (f : Fill) (c : ClientId) : Int :=
  (if f.restingClientId = c then signed (opposite f.aggressorSide) f.quantity else 0) +
    if f.aggressorClientId = c then signed f.aggressorSide f.quantity else 0

theorem cashFlow_recordFill (k : RiskEngine X) (client c : ClientId) (symbol sym : SymbolId) (side : Side)
    (price quantity : Int) :
    (k.recordFill client symbol side price quantity).cashFlow c sym =
      k.cashFlow c sym - if client = c ∧ symbol = sym then signed side quantity * price else 0 := by
  unfold RiskEngine.cashFlow
  by_cases h : client = c ∧ symbol = sym
  · obtain ⟨rfl, rfl⟩ := h
    rw [account_recordFill_self, if_pos ⟨rfl, rfl⟩]
    rfl
  · rw [account_recordFill_of_ne k h, if_neg h, sub_zero]

theorem cashFlow_recordFills_one (k : RiskEngine X) (symbol : SymbolId) (f : Fill) (c : ClientId) :
    (k.recordFills symbol [f]).cashFlow c symbol = k.cashFlow c symbol - f.signedFor c * f.price := by
  show ((k.recordFill _ _ _ _ _).recordFill _ _ _ _ _).cashFlow c symbol = _
  rw [cashFlow_recordFill, cashFlow_recordFill]
  unfold Fill.signedFor
  simp only [and_true, add_mul, ite_mul, zero_mul]
  omega

/-- The fills of the symbol `sym`. -/
def fillsOn (sym : SymbolId) (fs : List Fill) : List Fill := fs.filter fun f => decide (f.symbol = sym)

/-- What client `c` has bought in the fills, and what it has paid for it. -/
def bought (c : ClientId) (fs : List Fill) : Int := (fs.map fun f => f.signedFor c).sum

def paid (c : ClientId) (fs : List Fill) : Int := (fs.map fun f => f.signedFor c * f.price).sum

theorem position_recordFills (k : RiskEngine X) (symbol : SymbolId) (fs : List Fill) (c : ClientId) :
    (k.recordFills symbol fs).position c symbol = k.position c symbol + bought c fs := by
  induction fs generalizing k with
  | nil => exact (add_zero _).symm
  | cons f fs ih =>
    rw [recordFills_cons, ih, position_recordFills_one]
    simp only [and_true, bought, List.map_cons, List.sum_cons, Fill.signedFor]
    omega

theorem cashFlow_recordFills (k : RiskEngine X) (symbol : SymbolId) (fs : List Fill) (c : ClientId) :
    (k.recordFills symbol fs).cashFlow c symbol = k.cashFlow c symbol - paid c fs := by
  induction fs generalizing k with
  | nil => exact (sub_zero _).symm
  | cons f fs ih =>
    rw [recordFills_cons, ih, cashFlow_recordFills_one]
    simp only [paid, List.map_cons, List.sum_cons]
    omega

theorem account_recordFills_of_ne {symbol sym : SymbolId} (hne : symbol ≠ sym) (k : RiskEngine X) (fs : List Fill)
    (c : ClientId) : (k.recordFills symbol fs).account c sym = k.account c sym := by
  induction fs generalizing k with
  | nil => rfl
  | cons f fs ih =>
    have hother : ∀ client : ClientId, ¬ (client = c ∧ symbol = sym) := fun _ h => hne h.2
    rw [recordFills_cons, ih]
    show ((k.recordFill _ _ _ _ _).recordFill _ _ _ _ _).account c sym = _
    rw [account_recordFill_of_ne _ (hother _), account_recordFill_of_ne _ (hother _)]

end

/-! ### The fills of a run -/

section

variable {P : Params} {M X : Type} [DenseMap X UInt64 ClientExposure]
  {s s' : ReplayEngine P M X} {r r' : RefEngine P}

theorem RefEngine.Submitted.fill_symbol {o : Order} {res : NewOrderResult} {fs : List Fill}
    (h : r.Submitted o res r' fs) (hr : r.Valid) {f : Fill} (hf : f ∈ fs) : f.symbol = r.symbol := by
  obtain ⟨x, -, -, hfill⟩ := h.counterparty hr hf
  rw [hfill.symbol]
  exact h.symbol_of_active (Or.inl (List.ne_nil_of_mem hf))

/-- An event records its fills, all of them on the symbol of the book, and nothing else. -/
structure Records (s s' : ReplayEngine P M X) (r r' : RefEngine P) (fs : List Fill) : Prop where
  account : ∀ c sym, s'.risk.account c sym = (s.risk.recordFills r.symbol fs).account c sym
  fills : ∀ f ∈ fs, f.symbol = r.symbol
  symbol : r'.symbol = r.symbol

/-- The accounts are those the fills make of empty ones. -/
def AccountsOf (k : RiskEngine X) (fs : List Fill) : Prop :=
  ∀ c sym, k.position c sym = bought c (fillsOn sym fs) ∧ k.cashFlow c sym = -paid c (fillsOn sym fs)

theorem Records.accountsOf {fs₀ fs : List Fill} (h : Records s s' r r' fs) (h₀ : AccountsOf s.risk fs₀) :
    AccountsOf s'.risk (fs₀ ++ fs) := by
  intro c sym
  have hold := h₀ c sym
  have happend : fillsOn sym (fs₀ ++ fs) = fillsOn sym fs₀ ++ fillsOn sym fs := List.filter_append ..
  rw [position_eq, RiskEngine.cashFlow, h.account c sym, ← position_eq, ← RiskEngine.cashFlow, happend]
  by_cases hsym : r.symbol = sym
  · subst hsym
    have hall : fillsOn r.symbol fs = fs := List.filter_eq_self.2 fun f hf => decide_eq_true (h.fills f hf)
    rw [position_recordFills, cashFlow_recordFills, hold.1, hold.2, hall]
    unfold bought paid
    rw [List.map_append, List.sum_append, List.map_append, List.sum_append]
    exact ⟨rfl, by omega⟩
  · have hnil : fillsOn sym fs = [] :=
      List.filter_eq_nil_iff.2 fun f hf => by simpa using fun e => hsym ((h.fills f hf).symm.trans e)
    rw [hnil, List.append_nil, position_eq, RiskEngine.cashFlow, account_recordFills_of_ne hsym, ← position_eq,
      ← RiskEngine.cashFlow]
    exact hold

variable [DenseMap M OrderId Nat]

private theorem Effect.records {symbol : SymbolId} {fs : List Fill} {T : Levels P M} (h : Effect s s' r' symbol fs T)
    (hsym : s.risk.recordFills symbol fs = s.risk.recordFills r.symbol fs) (hfills : ∀ f ∈ fs, f.symbol = r.symbol)
    (hr' : r'.symbol = r.symbol) : Records s s' r r' fs where
  account c sym := by rw [h.risk, hsym]
  fills := hfills
  symbol := hr'

theorem Handled.records {ev : Event} {out : Option Submission} (h : Handled s r ev out s' r') (hr : r.Valid) :
    Records s s' r r' (submissionFills out) := by
  have hnone : ∀ f ∈ ([] : List Fill), f.symbol = r.symbol := by simp
  cases h with
  | refusedByRisk _ heff => exact heff.records rfl hnone rfl
  | submitted _ hsub heff =>
    exact heff.records (hsub.recordFills_symbol s.risk) (fun f hf => hsub.fill_symbol hr hf) hsub.instrument.1
  | cancelRefused heff => exact heff.records rfl hnone rfl
  | cancelled _ heff => exact heff.records rfl hnone rfl
  | replaceRefused _ hout heff =>
    have hfills : submissionFills out = [] := by
      cases out with
      | none => rfl
      | some t => exact (hout t rfl).1
    rw [hfills]
    exact heff.records rfl hnone rfl
  | @replaced wire ts n o _ _ _ fills _ _ hmem hsub _ heff =>
    have hsymbol : o.symbol = r.symbol := (hr.order o hmem).symbol
    refine heff.records (by rw [hsymbol]) (fun f hf => ?_) hsub.instrument.1
    exact hsub.fill_symbol (hr.removeOrder o.id) hf
  | engageKillSwitch => exact ⟨fun _ _ => rfl, hnone, rfl⟩
  | disengageKillSwitch => exact ⟨fun _ _ => rfl, hnone, rfl⟩

end

/-! ### All clients -/

theorem Fill.sum_signedFor (f : Fill) : ∑ c : ClientId, f.signedFor c = 0 := by
  unfold Fill.signedFor
  rw [Finset.sum_add_distrib, Finset.sum_ite_eq, Finset.sum_ite_eq, if_pos (Finset.mem_univ _),
    if_pos (Finset.mem_univ _)]
  cases f.aggressorSide <;> simp

theorem sum_bought (fs : List Fill) : ∑ c : ClientId, bought c fs = 0 := by
  induction fs with
  | nil => simp [bought]
  | cons f fs ih =>
    unfold bought at ih ⊢
    simp only [List.map_cons, List.sum_cons]
    rw [Finset.sum_add_distrib, f.sum_signedFor, ih, add_zero]

theorem sum_paid (fs : List Fill) : ∑ c : ClientId, paid c fs = 0 := by
  induction fs with
  | nil => simp [paid]
  | cons f fs ih =>
    unfold paid at ih ⊢
    simp only [List.map_cons, List.sum_cons]
    rw [Finset.sum_add_distrib, ← Finset.sum_mul, f.sum_signedFor, ih, zero_mul, add_zero]

section

variable {X : Type} [DenseMap X UInt64 ClientExposure] {k : RiskEngine X} {fs : List Fill}

theorem AccountsOf.sum_position (h : AccountsOf k fs) (sym : SymbolId) : ∑ c : ClientId, k.position c sym = 0 := by
  rw [Finset.sum_congr rfl fun c _ => (h c sym).1, sum_bought]

theorem AccountsOf.sum_cashFlow (h : AccountsOf k fs) (sym : SymbolId) : ∑ c : ClientId, k.cashFlow c sym = 0 := by
  rw [Finset.sum_congr rfl fun c _ => (h c sym).2, Finset.sum_neg_distrib, sum_paid, neg_zero]

theorem accountsOf_new (limits : Limits) : AccountsOf (RiskEngine.new limits : RiskEngine X) [] := by
  intro c sym
  unfold RiskEngine.position RiskEngine.cashFlow RiskEngine.account RiskEngine.new
  simp [fillsOn, bought, paid]

end

theorem accounts_run {P : Params} {M X : Type} [DenseMap M OrderId Nat] [DenseMap X UInt64 ClientExposure]
    (limits : Limits) (symbol : SymbolId) (basePrice : Int) (events : List Event) :
    ∃ outs s, runAll ReplayEngine.process
        (ReplayEngine.new (P := P) (M := M) symbol basePrice (RiskEngine.new limits : RiskEngine X)) events =
          some (outs, s) ∧
      AccountsOf s.risk (runFills outs) := by
  have hkeep : ∀ {outs : List (Option Submission)} {s s' : ReplayEngine P M X} {r r' : RefEngine P}
      {ev : Event} {out : Option Submission}, Outcome s r ev out s' r' → Refines s.matching r →
      AccountsOf s.risk (runFills outs) → AccountsOf s'.risk (runFills (outs ++ [out])) := by
    intro outs s s' r r' ev out houtcome hR hinv
    have hrecords := (houtcome.handled hR).records hR.valid
    rw [runFills_concat]
    exact hrecords.accountsOf hinv
  obtain ⟨outs, s, r, hrun, -, haccounts⟩ := process_history (fun _ outs s _ => AccountsOf s.risk (runFills outs))
    (fun houtcome hR hinv => hkeep houtcome hR hinv) symbol basePrice (RiskEngine.new limits) events
    (accountsOf_new limits)
  exact ⟨outs, s, hrun, haccounts⟩

/-- In every run that starts with empty accounts, the position of every account is what its client has bought less
what it has sold in the fills of the run, its cash flow is what it has been paid less what it has paid, both net to
zero over all clients, and a fill of one account does not change another one. -/
theorem accounts_equal_trade_history {P : Params} {M X : Type} [DenseMap M OrderId Nat]
    [DenseMap X UInt64 ClientExposure] (limits : Limits) (symbol : SymbolId) (basePrice : Int) (events : List Event) :
    ∃ outs s, runAll ReplayEngine.process
        (ReplayEngine.new (P := P) (M := M) symbol basePrice (RiskEngine.new limits : RiskEngine X)) events =
          some (outs, s) ∧
      (∀ c sym, s.risk.position c sym = ((fillsOn sym (runFills outs)).map fun f => f.signedFor c).sum ∧
        s.risk.cashFlow c sym = -((fillsOn sym (runFills outs)).map fun f => f.signedFor c * f.price).sum) ∧
      (∀ sym, ∑ c : ClientId, s.risk.position c sym = 0 ∧ ∑ c : ClientId, s.risk.cashFlow c sym = 0) ∧
      ∀ client sym side price quantity c' sym', ¬ (client = c' ∧ sym = sym') →
        (s.risk.recordFill client sym side price quantity).account c' sym' = s.risk.account c' sym' := by
  obtain ⟨outs, s, hrun, haccounts⟩ := accounts_run (P := P) (M := M) (X := X) limits symbol basePrice events
  refine ⟨outs, s, hrun, haccounts, ?_, ?_⟩
  · intro sym
    exact ⟨haccounts.sum_position sym, haccounts.sum_cashFlow sym⟩
  · intro client sym side price quantity c' sym' hne
    exact account_recordFill_of_ne s.risk hne side price quantity

end Exchange
