import Exchange.Sweep

/-!
# The calls of the reference engine

What `submit`, `cancel` and `replace` of the reference engine can do, each said once: `Submitted` lists the four ways
a submission ends.  Valid engines stay valid.
-/

namespace Exchange

namespace RefEngine

variable {P : Params}

/-- The checks before matching: why `o` is refused, if it is. -/
def Refused (r : RefEngine P) (o : Order) : RejectReason → Prop
  | .unknownSymbol => o.symbol ≠ r.symbol
  | .invalidQuantity => o.symbol = r.symbol ∧ o.quantity ≤ 0
  | .fokNotFillable => o.symbol = r.symbol ∧ 0 < o.quantity ∧ o.tif = .fok ∧ liquidity o r.resting < o.quantity
  | _ => False

/-- `o` has been matched: `a` is what is left of it. -/
structure Executed (r : RefEngine P) (o : Order) (fs : List Fill) (a : Order) (r' : RefEngine P) : Prop where
  symbol : o.symbol = r.symbol
  quantity : 0 < o.quantity
  fillable : o.tif = .fok → o.quantity ≤ liquidity o r.resting
  sweep : Sweep o.fresh r fs a r'
  settled : Settled a r'

/-- The ways in which the submission of `o` can end. -/
inductive Submitted (r : RefEngine P) (o : Order) : NewOrderResult → RefEngine P → List Fill → Prop
  | refused (reason : RejectReason) (h : r.Refused o reason) :
      Submitted r o { rejectReason := reason, remainingAfter := o.quantity } r []
  | rested {fs : List Fill} {a : Order} {r' : RefEngine P} (h : r.Executed o fs a r') (hpos : 0 < a.remaining)
      (htype : o.type = .limit) (htif : o.tif = .day) (hrest : r'.CanRest a) :
      Submitted r o { fillCount := fs.length, rested := true, remainingAfter := a.remaining }
        { r' with resting := r'.resting ++ [a] } fs
  | full {fs : List Fill} {a : Order} {r' : RefEngine P} (h : r.Executed o fs a r') (hpos : 0 < a.remaining)
      (htype : o.type = .limit) (htif : o.tif = .day) (hrest : ¬ r'.CanRest a) :
      Submitted r o { rejectReason := .bookCapacityExceeded, fillCount := fs.length, remainingAfter := a.remaining }
        r' fs
  | ended {fs : List Fill} {a : Order} {r' : RefEngine P} (h : r.Executed o fs a r')
      (hend : ¬ (0 < a.remaining ∧ o.type = .limit ∧ o.tif = .day)) :
      Submitted r o { fillCount := fs.length, remainingAfter := a.remaining } r' fs

variable {r r' : RefEngine P} {o a : Order} {fs : List Fill} {res : NewOrderResult}

theorem Executed.aggressor (h : r.Executed o fs a r') : a = { o with remaining := a.remaining } := h.sweep.aggressor

theorem submit_submitted (hr : r.Valid) (o : Order) (outFills : List Fill) :
    ∃ res r' fs, r.submit o outFills = some (res, r', outFills ++ fs) ∧ Submitted r o res r' fs := by
  by_cases hsym : o.symbol ≠ r.symbol
  · exact ⟨_, _, [], by rw [submit, if_pos hsym, List.append_nil], .refused .unknownSymbol hsym⟩
  by_cases hq : o.quantity ≤ 0
  · exact ⟨_, _, [], by rw [submit, if_neg hsym, if_pos hq, List.append_nil],
      .refused .invalidQuantity ⟨not_not.1 hsym, hq⟩⟩
  by_cases hfok : o.tif = .fok ∧ liquidity o r.resting < o.quantity
  · exact ⟨_, _, [], by rw [submit, if_neg hsym, if_neg hq, if_pos hfok, List.append_nil],
      .refused .fokNotFillable ⟨not_not.1 hsym, not_le.1 hq, hfok.1, hfok.2⟩⟩
  obtain ⟨fs, a, r₁, hmatch, hsweep, hsettled⟩ :=
    matchAgainstBook_sweep hr o.fresh outFills
  have hx : r.Executed o fs a r₁ :=
    ⟨not_not.1 hsym, not_le.1 hq, fun ht => not_lt.1 fun hlt => hfok ⟨ht, hlt⟩, hsweep, hsettled⟩
  have hlen : (outFills ++ fs).length - outFills.length = fs.length := by simp
  have htype : a.type = o.type := by rw [hx.aggressor]
  have htif : a.tif = o.tif := by rw [hx.aggressor]
  unfold submit
  rw [if_neg hsym, if_neg hq, if_neg hfok, hmatch]
  dsimp only
  unfold restRemainder
  rw [hlen, htype, htif]
  by_cases hend : a.remaining > 0 ∧ o.type = .limit ∧ o.tif = .day
  · obtain ⟨hpos, ht, hd⟩ := hend
    rw [if_pos ⟨hpos, ht, hd⟩]
    by_cases hrest : r₁.CanRest a
    · rw [if_pos hrest]
      exact ⟨_, _, fs, rfl, .rested hx hpos ht hd hrest⟩
    · rw [if_neg hrest]
      exact ⟨_, _, fs, rfl, .full hx hpos ht hd hrest⟩
  · rw [if_neg hend]
    exact ⟨_, _, fs, rfl, .ended hx hend⟩

theorem Executed.valid (h : r.Executed o fs a r') (hr : r.Valid) : r'.Valid := h.sweep.valid hr

theorem Executed.remaining_nonneg (h : r.Executed o fs a r') : 0 ≤ a.remaining := h.sweep.remaining_nonneg h.quantity.le

theorem Submitted.valid (h : Submitted r o res r' fs) (hr : r.Valid) : r'.Valid := by
  cases h with
  | refused _ _ => exact hr
  | @rested _ a r₁ hx hpos ht hd hrest =>
    refine (hx.valid hr).rest hrest hpos ?_ ?_ ?_ <;> rw [hx.aggressor]
    · exact ht
    · exact hd
    · exact hx.symbol.trans hx.sweep.instrument.1.symm
  | full hx _ _ _ _ => exact hx.valid hr
  | ended hx _ => exact hx.valid hr

theorem Submitted.instrument (h : Submitted r o res r' fs) : r'.symbol = r.symbol ∧ r'.basePrice = r.basePrice := by
  cases h with
  | refused _ _ => exact ⟨rfl, rfl⟩
  | rested hx _ _ _ _ => exact hx.sweep.instrument
  | full hx _ _ _ _ => exact hx.sweep.instrument
  | ended hx _ => exact hx.sweep.instrument

theorem Submitted.counterparty (h : Submitted r o res r' fs) (hr : r.Valid) {f : Fill} (hf : f ∈ fs) :
    ∃ x ∈ r.resting, acceptable o x = true ∧ FillOf o x f := by
  have hswept : ∀ {a : Order} {r' : RefEngine P}, Sweep o.fresh r fs a r' →
      ∃ x ∈ r.resting, acceptable o x = true ∧ FillOf o x f := by
    intro a r' hsweep
    obtain ⟨x, hx, hacc, h1, h2, h3, h4, h5, h6, h7, h8⟩ := hsweep.counterparty hr hf
    exact ⟨x, hx, hacc, ⟨h1, h2, h3, h4, h5, h6, h7, h8⟩⟩
  cases h with
  | refused _ _ => cases hf
  | rested hx _ _ _ _ => exact hswept hx.sweep
  | full hx _ _ _ _ => exact hswept hx.sweep
  | ended hx _ => exact hswept hx.sweep

/-- The quantity that is not filled is reported as remaining. -/
theorem Submitted.quantity (h : Submitted r o res r' fs) :
    (fs.map Fill.quantity).sum + res.remainingAfter = o.quantity := by
  cases h with
  | refused _ _ => simp
  | rested hx _ _ _ _ => exact hx.sweep.quantity
  | full hx _ _ _ _ => exact hx.sweep.quantity
  | ended hx _ => exact hx.sweep.quantity

/-- The ways in which a replace can end. -/
inductive Replaced (r : RefEngine P) (id : OrderId) (p q : Int) (seq : Sequence) (ts : Int) :
    ReplaceResult → RefEngine P → List Fill → Prop
  | unknownOrder (h : ∀ o ∈ r.resting, o.id ≠ id) : Replaced r id p q seq ts { rejectReason := .unknownOrder } r []
  | invalidQuantity (h : ∃ o ∈ r.resting, o.id = id) (hq : q ≤ 0) :
      Replaced r id p q seq ts { rejectReason := .invalidQuantity } r []
  | invalidPrice (h : ∃ o ∈ r.resting, o.id = id) (hq : 0 < q) (hp : ¬ r.InRange p) :
      Replaced r id p q seq ts { rejectReason := .invalidPrice } r []
  | resubmitted {existing : Order} {res : NewOrderResult} {r' : RefEngine P} {fs : List Fill}
      (hmem : existing ∈ r.resting) (hid : existing.id = id) (hq : 0 < q) (hp : r.InRange p)
      (h : Submitted { r with resting := removeOrder id r.resting } (existing.replaced p q seq ts) res r' fs) :
      Replaced r id p q seq ts (MatchingEngine.replaceResult res) r' fs

theorem replace_replaced (hr : r.Valid) (id : OrderId) (p q : Int) (seq : Sequence) (ts : Int)
    (outFills : List Fill) :
    ∃ res r' fs, r.replace id p q seq ts outFills = some (res, r', outFills ++ fs) ∧
      Replaced r id p q seq ts res r' fs := by
  cases hfind : r.resting.find? fun o => decide (o.id = id) with
  | none =>
    refine ⟨_, _, [], by rw [replace, hfind, List.append_nil], .unknownOrder fun o ho => ?_⟩
    simpa using List.find?_eq_none.1 hfind o ho
  | some existing =>
    have hmem := List.mem_of_find?_eq_some hfind
    have hid : existing.id = id := by simpa using List.find?_some hfind
    by_cases hq : q ≤ 0
    · refine ⟨_, _, [], ?_, .invalidQuantity ⟨existing, hmem, hid⟩ hq⟩
      rw [replace, hfind, List.append_nil]
      dsimp only
      rw [if_pos hq]
    by_cases hp : r.InRange p
    · obtain ⟨res, r', fs, hsubmit, hsubmitted⟩ :=
        submit_submitted (hr.removeOrder id) (existing.replaced p q seq ts) outFills
      refine ⟨_, _, fs, ?_, .resubmitted hmem hid (not_le.1 hq) hp hsubmitted⟩
      rw [replace, hfind]
      dsimp only
      rw [if_neg hq, if_neg (not_not.2 hp), hsubmit]
      rfl
    · refine ⟨_, _, [], ?_, .invalidPrice ⟨existing, hmem, hid⟩ (not_le.1 hq) hp⟩
      rw [replace, hfind, List.append_nil]
      dsimp only
      rw [if_neg hq, if_pos hp]

/-- A replace that passes its own checks is never refused by the submission: the order it takes out makes room. -/
theorem Submitted.accepted_of_replaced {existing : Order} {p q : Int} {seq : Sequence} {ts : Int} (hr : r.Valid)
    (hmem : existing ∈ r.resting) (hq : 0 < q) (hp : r.InRange p)
    (h : Submitted { r with resting := removeOrder existing.id r.resting } (existing.replaced p q seq ts) res r' fs) :
    res.rejectReason = .none := by
  have hok := hr.order existing hmem
  have hr' := hr.removeOrder existing.id
  cases h with
  | refused reason href =>
    cases reason <;> simp only [Refused] at href
    case unknownSymbol => exact absurd hok.symbol href
    case invalidQuantity => exact absurd hq (not_lt.2 href.2)
    case fokNotFillable =>
      have htif : existing.tif = .fok := href.2.2.1
      rw [hok.tif] at htif
      cases htif
  | rested _ _ _ _ _ => rfl
  | ended _ _ => rfl
  | @full _ a r' hx _ _ _ hfull =>
    have ha := hx.aggressor
    have hlt : (removeOrder existing.id r.resting).length < r.resting.length :=
      List.length_filter_lt_length_iff_exists.2 ⟨existing, hmem, by simp⟩
    refine absurd ⟨?_, ?_, ?_⟩ hfull
    · rw [InRange, hx.sweep.instrument.2, ha]
      exact hp
    · intro x hx'
      obtain ⟨y, hy, hxy⟩ := hx.sweep.mem hr' hx'
      rw [hxy, ha]
      exact (mem_removeOrder.1 hy).2
    · exact (hx.sweep.length_le.trans_lt hlt).trans_le hr.length

theorem Replaced.instrument {id : OrderId} {p q : Int} {seq : Sequence} {ts : Int} {res : ReplaceResult}
    (h : Replaced r id p q seq ts res r' fs) : r'.symbol = r.symbol ∧ r'.basePrice = r.basePrice := by
  cases h with
  | unknownOrder _ => exact ⟨rfl, rfl⟩
  | invalidQuantity _ _ => exact ⟨rfl, rfl⟩
  | invalidPrice _ _ _ => exact ⟨rfl, rfl⟩
  | resubmitted _ _ _ _ h => exact h.instrument

theorem cancel_instrument (r : RefEngine P) (id : OrderId) :
    (r.cancel id).2.symbol = r.symbol ∧ (r.cancel id).2.basePrice = r.basePrice := by
  unfold cancel
  split <;> exact ⟨rfl, rfl⟩

end RefEngine

end Exchange
