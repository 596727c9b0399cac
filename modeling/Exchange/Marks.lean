import Exchange.Accounts
import Mathlib.Tactic.Ring

/-!
# The sum of all profits

The profit of an account is its cash flow and its position at the price of its own last fill.  Cash flows net to zero,
but positions are marked at different prices, and so the profits need not.  A fill marks the positions that its two
parties hold at its price, and the sum of all profits changes by what these positions gain and lose by it.
-/

namespace Exchange

open OrderBook DenseMap RiskEngine

section

variable {X : Type} [DenseMap X UInt64 ClientExposure] {k : RiskEngine X} {sym : SymbolId}

/-- What all positions in `sym` are worth, each at the mark of its account. -/
def RiskEngine.markedValue (k : RiskEngine X) (sym : SymbolId) : Int :=
  ∑ c : ClientId, (k.account c sym).position * (k.account c sym).lastMarkPrice

/-- What the position of a client gains when it is marked at `p`. -/
def RiskEngine.revaluation (k : RiskEngine X) (sym : SymbolId) (p : Int) (c : ClientId) : Int :=
  (k.account c sym).position * (p - (k.account c sym).lastMarkPrice)

/-- What the positions that the parties of the fills hold when these are recorded gain in all. -/
def RiskEngine.revaluations (k : RiskEngine X) (sym : SymbolId) : List Fill → Int
  | [] => 0
  | f :: fs =>
    let k₁ := k.recordFill f.restingClientId sym (opposite f.aggressorSide) f.price f.quantity
    let k₂ := k₁.recordFill f.aggressorClientId sym f.aggressorSide f.price f.quantity
    k.revaluation sym f.price f.restingClientId + k₁.revaluation sym f.price f.aggressorClientId +
      k₂.revaluations sym fs

/-- A fill marks the position its party holds, and adds what was traded. -/
theorem markedValue_recordFill (k : RiskEngine X) (c : ClientId) (sym : SymbolId) (side : Side) (p q : Int) :
    (k.recordFill c sym side p q).markedValue sym =
      k.markedValue sym + k.revaluation sym p c + signed side q * p := by
  have hother : ∀ c' ∈ Finset.univ.erase c, ((k.recordFill c sym side p q).account c' sym).position *
      ((k.recordFill c sym side p q).account c' sym).lastMarkPrice =
        (k.account c' sym).position * (k.account c' sym).lastMarkPrice := by
    intro c' hc'
    have hne : ¬ (c = c' ∧ sym = sym) := fun e => Finset.ne_of_mem_erase hc' e.1.symm
    rw [account_recordFill_of_ne k hne]
  have hself : ((k.recordFill c sym side p q).account c sym).position *
      ((k.recordFill c sym side p q).account c sym).lastMarkPrice =
        (k.account c sym).position * (k.account c sym).lastMarkPrice + k.revaluation sym p c + signed side q * p := by
    rw [account_recordFill_self]
    show ((k.account c sym).position + signed side q) * p = _
    rw [RiskEngine.revaluation]
    ring
  unfold RiskEngine.markedValue
  rw [← Finset.add_sum_erase Finset.univ _ (Finset.mem_univ c), Finset.sum_congr rfl hother, hself,
    ← Finset.add_sum_erase Finset.univ (fun c => (k.account c sym).position * (k.account c sym).lastMarkPrice)
      (Finset.mem_univ c)]
  ring

/-- What is traded nets out between the parties, and what is left are the gains of the positions they held. -/
theorem markedValue_recordFills (k : RiskEngine X) (sym : SymbolId) (fs : List Fill) :
    (k.recordFills sym fs).markedValue sym = k.markedValue sym + k.revaluations sym fs := by
  induction fs generalizing k with
  | nil => exact (add_zero _).symm
  | cons f fs ih =>
    have hnet : signed (opposite f.aggressorSide) f.quantity + signed f.aggressorSide f.quantity = 0 := by
      cases f.aggressorSide <;> simp
    have hcancel : signed (opposite f.aggressorSide) f.quantity * f.price +
        signed f.aggressorSide f.quantity * f.price = 0 := by
      rw [← add_mul, hnet, zero_mul]
    rw [recordFills_cons, ih, RiskEngine.revaluations]
    show ((k.recordFill _ _ _ _ _).recordFill _ _ _ _ _).markedValue sym +
      ((k.recordFill _ _ _ _ _).recordFill _ _ _ _ _).revaluations sym fs = _
    rw [markedValue_recordFill, markedValue_recordFill]
    omega

end

/-! ### Whole runs -/

section

variable {P : Params} {M X : Type} [DenseMap X UInt64 ClientExposure] {s s' : ReplayEngine P M X} {r r' : RefEngine P}

theorem Records.markedValue {fs : List Fill} (h : Records s s' r r' fs) (sym : SymbolId) :
    s'.risk.markedValue sym =
      s.risk.markedValue sym + if r.symbol = sym then s.risk.revaluations r.symbol fs else 0 := by
  have hvalue : s'.risk.markedValue sym = (s.risk.recordFills r.symbol fs).markedValue sym :=
    Finset.sum_congr rfl fun c _ => by rw [h.account]
  rw [hvalue]
  split_ifs with hsym
  · subst hsym
    exact markedValue_recordFills s.risk r.symbol fs
  · have hsame : (s.risk.recordFills r.symbol fs).markedValue sym = s.risk.markedValue sym :=
      Finset.sum_congr rfl fun c _ => by rw [account_recordFills_of_ne hsym]
    rw [hsame, add_zero]

variable [DenseMap M OrderId Nat]

end

end Exchange
