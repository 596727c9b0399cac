import Exchange.Types
import Exchange.Lib.DenseMap
import Mathlib.Data.Nat.Bitwise

/-!
# The pre-trade risk gate

`RiskEngine<MaxAccounts>` of `jane/risk/risk_engine.hpp`: per client and symbol a running exposure, and a check of an
incoming order against it.  `MaxAccounts` only reserves memory and is left out.
-/

namespace Exchange

open DenseMap

structure Limits where
  maxOrderSize : Int
  maxPosition : Int
  maxLossPerClient : Int

structure ClientExposure where
  position : Int := 0
  cashFlow : Int := 0
  lastMarkPrice : Int := 0

def ClientExposure.markToMarketPnl (x : ClientExposure) : Int := x.cashFlow + x.position * x.lastMarkPrice

/-- The exposures are kept in a hash map `X`. -/
structure RiskEngine (X : Type) where
  limits : Limits
  killSwitchEngaged : Bool := false
  exposure : X

namespace RiskEngine

def accountKey (client : ClientId) (symbol : SymbolId) : UInt64 := (client.toUInt64 <<< 32) ||| symbol.toUInt64

/-- The change of position of a trade of `quantity` on `side`. -/
def signed (side : Side) (quantity : Int) : Int := if side = .buy then quantity else -quantity

variable {X : Type}

def engageKillSwitch (k : RiskEngine X) : RiskEngine X := { k with killSwitchEngaged := true }

def disengageKillSwitch (k : RiskEngine X) : RiskEngine X := { k with killSwitchEngaged := false }

variable [DenseMap X UInt64 ClientExposure]

def new (limits : Limits) : RiskEngine X where
  limits := limits
  exposure := empty

def checkNewOrder (k : RiskEngine X) (order : Order) : RejectReason :=
  if k.killSwitchEngaged then .riskKillSwitch
  else if order.quantity > k.limits.maxOrderSize then .riskMaxOrderSize
  else
    let found := find k.exposure (accountKey order.client order.symbol)
    let currentPosition := found.elim 0 ClientExposure.position
    let delta := signed order.side order.quantity
    let prospective := currentPosition + delta
    if prospective > k.limits.maxPosition ∨ prospective < -k.limits.maxPosition then .riskMaxPosition
    else if found.elim false fun x => decide (x.markToMarketPnl < k.limits.maxLossPerClient) then .riskMaxLoss
    else .none

def recordFill (k : RiskEngine X) (client : ClientId) (symbol : SymbolId) (side : Side) (price quantity : Int) :
    RiskEngine X :=
  let key := accountKey client symbol
  -- `operator[]` inserts a zero exposure for a new account
  let exposure := (find k.exposure key).getD {}
  let proceeds := price * quantity
  let exposure : ClientExposure :=
    { position := exposure.position + signed side quantity
      cashFlow := exposure.cashFlow + if side = .sell then proceeds else -proceeds
      lastMarkPrice := price }
  { k with exposure := assign k.exposure key exposure }

def position (k : RiskEngine X) (client : ClientId) (symbol : SymbolId) : Int :=
  (find k.exposure (accountKey client symbol)).elim 0 ClientExposure.position

def pnl (k : RiskEngine X) (client : ClientId) (symbol : SymbolId) : Int :=
  (find k.exposure (accountKey client symbol)).elim 0 ClientExposure.markToMarketPnl

/-! ### Accounts -/

private theorem accountKey_toNat (client : ClientId) (symbol : SymbolId) :
    (accountKey client symbol).toNat = client.toNat * 2 ^ 32 + symbol.toNat := by
  have hc := client.toNat_lt
  have hs := symbol.toNat_lt
  unfold accountKey
  rw [UInt64.toNat_or, UInt64.toNat_shiftLeft, UInt32.toNat_toUInt64, UInt32.toNat_toUInt64]
  have hmod : client.toNat <<< ((32 : UInt64).toNat % 64) % 2 ^ 64 = client.toNat <<< 32 := by
    rw [show (32 : UInt64).toNat % 64 = 32 from rfl, Nat.shiftLeft_eq]
    exact Nat.mod_eq_of_lt (by omega)
  rw [hmod, ← Nat.shiftLeft_add_eq_or_of_lt hs, Nat.shiftLeft_eq]

/-- Different accounts have different keys. -/
theorem accountKey_inj {c c' : ClientId} {s s' : SymbolId} : accountKey c s = accountKey c' s' ↔ c = c' ∧ s = s' := by
  constructor
  · intro h
    have h' := congrArg UInt64.toNat h
    rw [accountKey_toNat, accountKey_toNat] at h'
    have hs := s.toNat_lt
    have hs' := s'.toNat_lt
    refine ⟨UInt32.toNat.inj ?_, UInt32.toNat.inj ?_⟩ <;> omega
  · rintro ⟨rfl, rfl⟩
    rfl

theorem position_recordFill (k : RiskEngine X) (client c : ClientId) (symbol s : SymbolId) (side : Side)
    (price quantity : Int) :
    (k.recordFill client symbol side price quantity).position c s =
      k.position c s + if client = c ∧ symbol = s then signed side quantity else 0 := by
  unfold position recordFill
  by_cases h : client = c ∧ symbol = s
  · obtain ⟨rfl, rfl⟩ := h
    rw [if_pos (show client = client ∧ symbol = symbol from ⟨rfl, rfl⟩)]
    dsimp only
    rw [find_assign_self]
    cases find k.exposure (accountKey client symbol) <;> rfl
  · dsimp only
    rw [if_neg h, find_assign_ne _ _ _ _ fun e => h (accountKey_inj.1 e.symm), add_zero]

/-- An approved order fits the size limit, and the position limit by itself. -/
theorem checkNewOrder_eq_none {k : RiskEngine X} {o : Order} (h : k.checkNewOrder o = .none) :
    k.killSwitchEngaged = false ∧ o.quantity ≤ k.limits.maxOrderSize ∧
      k.position o.client o.symbol + signed o.side o.quantity ≤ k.limits.maxPosition ∧
      -k.limits.maxPosition ≤ k.position o.client o.symbol + signed o.side o.quantity := by
  unfold checkNewOrder at h
  dsimp only at h
  split_ifs at h with h1 h2 h3 h4
  obtain ⟨hmax, hmin⟩ := not_or.1 h3
  exact ⟨by simpa using h1, Int.not_lt.1 h2, Int.not_lt.1 hmax, Int.not_lt.1 hmin⟩

end RiskEngine

/-- An exposure map for concrete runs. -/
abbrev ExposureMap : Type := AList fun _ : UInt64 => ClientExposure

end Exchange
