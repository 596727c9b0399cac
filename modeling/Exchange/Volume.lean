import Exchange.Accounts

/-!
# Volumes

What a client has bought and what it has sold, counted apart.  A sweep turns open quantity into volume and nothing
else, so the volume of a client on a side is bounded by the quantities it has sent there.  Volumes bound the position
of a client, and its loss once all prices lie within a band: against a position marked within the band, each unit
bought or sold has lost at most the width of the band.
-/

namespace Exchange

open OrderBook RiskEngine

/-- What client `c` has traded on side `s` in the fill, once for each of its roles. -/
def Fill.volumeFor (f : Fill) (c : ClientId) (s : Side) : Int :=
  (if f.restingClientId = c ∧ opposite f.aggressorSide = s then f.quantity else 0) +
    if f.aggressorClientId = c ∧ f.aggressorSide = s then f.quantity else 0

/-- What client `c` has traded on side `s` in the fills. -/
def volume (c : ClientId) (s : Side) (fs : List Fill) : Int := (fs.map fun f => f.volumeFor c s).sum

section

variable {c : ClientId} {s : Side} {f : Fill} {fs : List Fill} {lo hi : Int}

theorem volume_cons (c : ClientId) (s : Side) (f : Fill) (fs : List Fill) :
    volume c s (f :: fs) = f.volumeFor c s + volume c s fs := rfl

theorem volume_append (c : ClientId) (s : Side) (fs fs' : List Fill) :
    volume c s (fs ++ fs') = volume c s fs + volume c s fs' := by
  unfold volume
  rw [List.map_append, List.sum_append]

theorem Fill.volumeFor_nonneg (h : 0 < f.quantity) : 0 ≤ f.volumeFor c s := by
  unfold Fill.volumeFor
  split_ifs <;> omega

theorem volume_nonneg (h : ∀ f ∈ fs, 0 < f.quantity) : 0 ≤ volume c s fs := by
  refine List.sum_nonneg fun q hq => ?_
  obtain ⟨f, hf, rfl⟩ := List.mem_map.1 hq
  exact Fill.volumeFor_nonneg (h f hf)

theorem Fill.signedFor_eq (f : Fill) (c : ClientId) : f.signedFor c = f.volumeFor c .buy - f.volumeFor c .sell := by
  unfold Fill.signedFor Fill.volumeFor
  by_cases hr : f.restingClientId = c <;> by_cases ha : f.aggressorClientId = c <;> cases f.aggressorSide <;>
    simp [opposite, hr, ha]

/-- What a client has bought, sales deducted, is its volume as a buyer less its volume as a seller. -/
theorem bought_eq (c : ClientId) (fs : List Fill) : bought c fs = volume c .buy fs - volume c .sell fs := by
  induction fs with
  | nil => rfl
  | cons f fs ih =>
    have hcons : bought c (f :: fs) = f.signedFor c + bought c fs := rfl
    rw [hcons, ih, f.signedFor_eq, volume_cons, volume_cons]
    omega

/-- Within a band of prices, a client has paid no more than the highest for what it bought, and has received no less
than the lowest for what it sold. -/
theorem paid_le (hpos : ∀ f ∈ fs, 0 < f.quantity) (hband : ∀ f ∈ fs, lo ≤ f.price ∧ f.price ≤ hi) :
    paid c fs ≤ hi * volume c .buy fs - lo * volume c .sell fs := by
  induction fs with
  | nil => simp [paid, volume]
  | cons f fs ih =>
    have hrest := ih (fun g hg => hpos g (List.mem_cons_of_mem f hg)) fun g hg => hband g (List.mem_cons_of_mem f hg)
    have hcons : paid c (f :: fs) = f.signedFor c * f.price + paid c fs := rfl
    have hf := hpos f List.mem_cons_self
    obtain ⟨hlow, hhigh⟩ := hband f List.mem_cons_self
    have hbuy : f.volumeFor c .buy * f.price ≤ f.volumeFor c .buy * hi :=
      Int.mul_le_mul_of_nonneg_left hhigh (Fill.volumeFor_nonneg hf)
    have hsell : f.volumeFor c .sell * lo ≤ f.volumeFor c .sell * f.price :=
      Int.mul_le_mul_of_nonneg_left hlow (Fill.volumeFor_nonneg hf)
    rw [hcons, f.signedFor_eq, volume_cons, volume_cons, Int.sub_mul, Int.mul_add, Int.mul_add, Int.mul_comm hi,
      Int.mul_comm lo]
    omega

/-- The loss of a position marked within the band. -/
theorem pnl_lower_bound {cash bought sold most mark : Int} (hcash : lo * sold - hi * bought ≤ cash) (hlow : lo ≤ mark)
    (hhigh : mark ≤ hi) (hbought : bought ≤ most) (hsold : sold ≤ most) :
    -(most * (hi - lo)) ≤ cash + (bought - sold) * mark := by
  have hb : bought * (hi - mark) ≤ most * (hi - mark) := Int.mul_le_mul_of_nonneg_right hbought (by omega)
  have hs : sold * (mark - lo) ≤ most * (mark - lo) := Int.mul_le_mul_of_nonneg_right hsold (by omega)
  have hsplit : most * (hi - lo) = most * (hi - mark) + most * (mark - lo) := by
    rw [← Int.mul_add]
    congr 1
    omega
  rw [Int.mul_sub] at hb hs
  rw [Int.sub_mul, hsplit, Int.mul_comm lo, Int.mul_comm hi] at *
  omega

end

/-! ### The fills of an aggressor -/

/-- Fills of one client as aggressor on one side, none of them with itself. -/
structure OneSided (c : ClientId) (side : Side) (fs : List Fill) : Prop where
  aggressor : ∀ f ∈ fs, f.aggressorClientId = c ∧ f.aggressorSide = side
  resting : ∀ f ∈ fs, f.restingClientId ≠ c

section

variable {c : ClientId} {side : Side} {fs : List Fill}

theorem OneSided.bought_eq (h : OneSided c side fs) : bought c fs = signed side (fs.map Fill.quantity).sum := by
  induction fs with
  | nil => cases side <;> rfl
  | cons f fs ih =>
    obtain ⟨hc, hside⟩ := h.aggressor f List.mem_cons_self
    have hrest := ih ⟨fun g hg => h.aggressor g (List.mem_cons_of_mem f hg),
      fun g hg => h.resting g (List.mem_cons_of_mem f hg)⟩
    have hcons : bought c (f :: fs) = f.signedFor c + bought c fs := rfl
    rw [hcons, hrest, Fill.signedFor, if_neg (h.resting f List.mem_cons_self), if_pos hc, hside, List.map_cons,
      List.sum_cons]
    cases side
    · simp only [signed_buy]
      omega
    · simp only [signed_sell]
      omega

/-- At one price, what is paid is the price of what is bought. -/
theorem OneSided.paid_eq (h : OneSided c side fs) {price : Int} (hprice : ∀ f ∈ fs, f.price = price) :
    paid c fs = signed side (fs.map Fill.quantity).sum * price := by
  rw [← h.bought_eq, paid, bought, ← List.sum_map_mul_right]
  exact congrArg List.sum (List.map_congr_left fun f hf => by rw [hprice f hf])

end

/-! ### Volume comes from open quantity -/

namespace RefEngine

variable {P : Params} {r r' : RefEngine P} {a a' o : Order} {fs : List Fill} {res : NewOrderResult}

/-- Each fill turns open quantity of its two orders into volume. -/
theorem Sweep.volume_eq (h : Sweep a r fs a' r') (hr : r.Valid) (c : ClientId) (s : Side) :
    volume c s fs + openQuantity c s r'.resting + openOf c s a' = openQuantity c s r.resting + openOf c s a := by
  induction h with
  | done a r => simp [volume]
  | @fill a o a' r r' fs hpos hpick _ ih =>
    obtain ⟨ho, hacc⟩ := pick_mem hpick
    have hside : o.side = opposite a.side := of_decide_eq_true (Bool.and_eq_true_iff.1 hacc).1
    have hrest := ih (hr.afterFill ho a)
    have hresting : (r.afterFill a o).resting = reduceOrder o.id (min a.remaining o.remaining) r.resting := rfl
    rw [hresting, openQuantity_reduceOrder hr.ids ho] at hrest
    rw [volume_cons]
    have hfill : (fillOf r.nextMatchId a o o.price (min a.remaining o.remaining)).volumeFor c s =
        (if o.client = c ∧ o.side = s then min a.remaining o.remaining else 0) +
          if a.client = c ∧ a.side = s then min a.remaining o.remaining else 0 := by
      rw [hside]
      rfl
    rw [hfill]
    unfold openOf at hrest ⊢
    dsimp only at hrest
    split_ifs at hrest ⊢ <;> omega

/-- What rests after a submission rested before it, or is the submitted Day order. -/
theorem Submitted.mem (h : Submitted r o res r' fs) (hr : r.Valid) {x : Order} (hx : x ∈ r'.resting) :
    (∃ y ∈ r.resting, x = { y with remaining := x.remaining }) ∨
      x = { o with remaining := x.remaining } ∧ o.tif = .day := by
  cases h with
  | refused _ _ => exact Or.inl ⟨x, hx, rfl⟩
  | @rested _ a _ hexec _ _ htif _ =>
    rcases List.mem_append.1 hx with hx | hx
    · exact Or.inl (hexec.sweep.mem hr hx)
    · rw [List.mem_singleton.1 hx]
      exact Or.inr ⟨hexec.aggressor, htif⟩
  | full hexec _ _ _ _ => exact Or.inl (hexec.sweep.mem hr hx)
  | ended hexec _ => exact Or.inl (hexec.sweep.mem hr hx)

/-- A submission adds no more than its quantity to the volume and the open quantity of its client on its side. -/
theorem Submitted.volume_le (h : Submitted r o res r' fs) (hr : r.Valid) (ho : 0 ≤ o.quantity) (c : ClientId)
    (s : Side) :
    volume c s fs + openQuantity c s r'.resting ≤
      openQuantity c s r.resting + if o.client = c ∧ o.side = s then o.quantity else 0 := by
  have hexecuted : ∀ {a : Order} {r₁ : RefEngine P}, r.Executed o fs a r₁ →
      volume c s fs + openQuantity c s r₁.resting + openOf c s a =
        (openQuantity c s r.resting + if o.client = c ∧ o.side = s then o.quantity else 0) ∧ 0 ≤ openOf c s a := by
    intro a r₁ hx
    exact ⟨hx.sweep.volume_eq hr c s, openOf_nonneg hx.remaining_nonneg⟩
  cases h with
  | refused _ _ =>
    have hzero : volume c s [] = 0 := rfl
    rw [hzero]
    split_ifs <;> omega
  | @rested _ a r₁ hx _ _ _ _ =>
    obtain ⟨heq, -⟩ := hexecuted hx
    show volume c s fs + openQuantity c s (r₁.resting ++ [a]) ≤ _
    rw [openQuantity_append, openQuantity_cons]
    have hnil : openQuantity c s [] = 0 := rfl
    omega
  | full hx _ _ _ _ =>
    obtain ⟨heq, hnonneg⟩ := hexecuted hx
    omega
  | ended hx _ =>
    obtain ⟨heq, hnonneg⟩ := hexecuted hx
    omega

end RefEngine

end Exchange
