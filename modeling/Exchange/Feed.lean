import Exchange.Requests

/-!
# The market data feed reconstructs the book

A subscriber starts from the empty map and applies every published book delta to it.  After every request it has the
depth of the book: a request publishes each level it has changed, after the change, and the other levels of the
subscriber's map are still right.
-/

namespace Exchange

open OrderBook DenseMap

section

variable {P : Params} {M X : Type} [DenseMap M OrderId Nat] [DenseMap X UInt64 ClientExposure]
  {s s' : ReplayEngine P M X} {r r' : RefEngine P}

/-- If the orders have changed only at published levels, a subscriber that was in sync before is in sync after. -/
theorem Effect.view {symbol : SymbolId} {fills : List Fill} {T : Levels P M} (h : Effect s s' r' symbol fills T)
    (hr : r.Valid) (hview : viewOf s.feed.sink = depthOf r.resting) (hbase : r'.basePrice = r.basePrice)
    (hframe : ∀ b sd p, (indexOf b p).isSome → ¬ T b sd p → ordersAt sd p r'.resting = ordersAt sd p r.resting) :
    viewOf s'.feed.sink = depthOf r'.resting := by
  obtain ⟨s₁, hfeed, -, hR, hpub⟩ := h
  have hdepth := hR.holds.depth_eq
  funext sd p
  by_cases hT : T s₁.matching.book sd p
  · rw [hpub.touched sd p hT, hdepth]
  · have hsame : ordersAt sd p r'.resting = ordersAt sd p r.resting := by
      cases hi : s₁.matching.book.indexOf p with
      | some i =>
        have hsome : (s₁.matching.book.indexOf p).isSome := by rw [hi]; rfl
        exact hframe s₁.matching.book sd p hsome hT
      | none =>
        -- off the ladder there are no orders, before or after
        have hout : ¬ r'.InRange p := (hR.indexOf_isNone p).1 (by rw [hi]; rfl)
        have hnil : ordersAt sd p r.resting = [] := by
          rw [List.eq_nil_iff_forall_not_mem]
          intro o ho
          obtain ⟨hor, -, rfl⟩ := mem_ordersAt.1 ho
          have hrange := (hr.order o hor).range
          rw [RefEngine.InRange, ← hbase] at hrange
          exact hout hrange
        rw [hR.holds.ordersAt_eq_nil hi sd, hnil]
    rw [hpub.other sd p hT, hfeed, hview, depthOf, depthOf, hsame]

theorem Handled.view {ev : Event} {out : Option Submission} (h : Handled s r ev out s' r') (hr : r.Valid)
    (hview : viewOf s.feed.sink = depthOf r.resting) : viewOf s'.feed.sink = depthOf r'.resting := by
  cases h with
  | refusedByRisk _ heff => exact heff.view hr hview rfl fun _ _ _ _ _ => rfl
  | @submitted wire ts _ _ res fills _ hsub heff =>
    refine heff.view hr hview hsub.instrument.2 fun b sd p hp hT => hsub.ordersAt_eq hr ?_ ?_
    · intro f hf hlevel
      obtain ⟨rfl, rfl⟩ := hlevel
      exact hT (Or.inl ⟨f, hf, rfl, rfl, hp⟩)
    · intro hrested hlevel
      obtain ⟨rfl, rfl⟩ := hlevel
      exact hT (Or.inr ⟨hrested, rfl, rfl, hp⟩)
  | cancelRefused heff => exact heff.view hr hview rfl fun _ _ _ _ _ => rfl
  | @cancelled _ _ o hmem heff =>
    refine heff.view hr hview rfl fun b sd p hp hT => ordersAt_removeOrder hr.ids hmem fun hlevel => ?_
    obtain ⟨rfl, rfl⟩ := hlevel
    exact hT ⟨rfl, rfl, hp⟩
  | replaceRefused _ _ heff => exact heff.view hr hview rfl fun _ _ _ _ _ => rfl
  | @replaced wire ts n o _ _ res fills _ horder hmem hsub _ heff =>
    refine heff.view hr hview hsub.instrument.2 fun b sd p hp hT => ?_
    -- first the old order is taken out, then the new one submitted
    have hremoved : ordersAt sd p (removeOrder o.id r.resting) = ordersAt sd p r.resting := by
      refine ordersAt_removeOrder hr.ids hmem fun hlevel => ?_
      obtain ⟨rfl, rfl⟩ := hlevel
      exact hT (Or.inl (Or.inr ⟨rfl, rfl, hp⟩))
    rw [← hremoved]
    refine hsub.ordersAt_eq (hr.removeOrder o.id) ?_ ?_
    · intro f hf hlevel
      obtain ⟨rfl, rfl⟩ := hlevel
      exact hT (Or.inl (Or.inl ⟨f, hf, rfl, rfl, hp⟩))
    · intro hrested hlevel
      have hside : (s.replacement wire ts n).side = o.side := by rw [← horder]; rfl
      rw [hside] at hlevel
      obtain ⟨rfl, rfl⟩ := hlevel
      exact hT (Or.inr ⟨hrested, rfl, rfl, hp⟩)
  | engageKillSwitch => exact hview
  | disengageKillSwitch => exact hview

end

/-- After every run of requests the subscriber has exactly the non-empty levels of the book. -/
theorem feed_reconstructs_book {P : Params} {M X : Type} [DenseMap M OrderId Nat] [DenseMap X UInt64 ClientExposure]
    (symbol : SymbolId) (basePrice : Int) (risk : RiskEngine X) (events : List Event) :
    ∃ outs s, runAll ReplayEngine.process (ReplayEngine.new (P := P) (M := M) symbol basePrice risk) events =
        some (outs, s) ∧
      viewOf s.feed.sink = s.matching.book.depth := by
  obtain ⟨outs, s, r, hrun, hR, hview⟩ := process_run (P := P) (M := M)
    (fun s r => viewOf s.feed.sink = depthOf r.resting) (fun hhandled hr hview => hhandled.view hr hview)
    symbol basePrice risk events rfl
  exact ⟨outs, s, hrun, hview.trans hR.holds.depth_eq.symm⟩

end Exchange
