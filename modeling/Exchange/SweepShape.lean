import Exchange.MatchLoop

/-!
# The fills of one call

The fills a `submit` or a `replace` appends go from the best price to the worst, use up every resting order but
possibly the last, and stop only when nothing acceptable is left.
-/

namespace Exchange

open OrderBook MatchingEngine

variable {P : Params} {M : Type} [DenseMap M OrderId Nat]

/-! ### Sweeps of the reference engine -/

namespace RefEngine

variable {r r' : RefEngine P} {a a' o : Order} {fs : List Fill} {f : Fill}

theorem Sweep.remaining_pos (h : Sweep a r fs a' r') (hf : f ∈ fs) : 0 < a.remaining := by
  cases h with
  | done => cases hf
  | fill hpos _ _ => exact hpos

/-- A fill that another one follows has used up its resting order; the later ones are with other orders. -/
theorem Sweep.later (hr : r.Valid) (hpick : pick a r.resting = some o)
    (h : Sweep { a with remaining := a.remaining - min a.remaining o.remaining } (r.afterFill a o) fs a' r')
    (hf : f ∈ fs) :
    min a.remaining o.remaining = o.remaining ∧
      ∃ x ∈ r.resting, x.id ≠ o.id ∧ acceptable a x = true ∧ f.restingOrderId = x.id ∧ f.price = x.price := by
  have ho := (pick_mem hpick).1
  have hleft := h.remaining_pos hf
  dsimp only at hleft
  obtain ⟨x, hx, hacc, hfill⟩ := h.counterparty (hr.afterFill ho a) hf
  refine ⟨by omega, x, ?_⟩
  rcases (mem_reduceOrder hr.ids ho).1 hx with hx | hx
  · exact ⟨hx.1, hx.2, hacc, hfill.restingOrderId, hfill.price⟩
  · exact absurd (by omega) hx.2

theorem Sweep.monotone (h : Sweep a r fs a' r') (hr : r.Valid) :
    fs.Pairwise fun f g => if a.side = .buy then f.price ≤ g.price else g.price ≤ f.price := by
  induction h with
  | done a r => exact List.Pairwise.nil
  | @fill a o a' r r' fs _ hpick hrest ih =>
    have ho := (pick_mem hpick).1
    refine List.Pairwise.cons ?_ (ih (hr.afterFill ho a))
    intro g hg
    obtain ⟨-, x, hx, -, hacc, -, hprice⟩ := Sweep.later hr hpick hrest hg
    have hrank : rank a.side o ≤ rank a.side x := firstMin_le hpick (List.mem_filter.2 ⟨hx, hacc⟩)
    show if a.side = .buy then o.price ≤ g.price else g.price ≤ o.price
    rw [hprice]
    unfold rank at hrank
    split_ifs at * <;> omega

theorem Sweep.nodup (h : Sweep a r fs a' r') (hr : r.Valid) : (fs.map Fill.restingOrderId).Nodup := by
  induction h with
  | done a r => exact List.nodup_nil
  | @fill a o a' r r' fs _ hpick hrest ih =>
    rw [List.map_cons, List.nodup_cons]
    refine ⟨?_, ih (hr.afterFill (pick_mem hpick).1 a)⟩
    intro hmem
    obtain ⟨g, hg, hid⟩ := List.mem_map.1 hmem
    obtain ⟨-, x, -, hne, -, hx, -⟩ := Sweep.later hr hpick hrest hg
    exact hne (hx.symm.trans hid)

theorem Sweep.fullyFilled (h : Sweep a r fs a' r') (hr : r.Valid) :
    ∀ f ∈ fs.dropLast, f.restingFullyFilled = true := by
  induction h with
  | done a r => simp
  | @fill a o a' r r' fs _ hpick hrest ih =>
    intro f hf
    cases fs with
    | nil => cases hf
    | cons g fs =>
      rw [List.dropLast_cons_cons] at hf
      rcases List.mem_cons.1 hf with rfl | hf
      · obtain ⟨hfull, -⟩ := Sweep.later hr hpick hrest (List.mem_cons_self ..)
        simpa [fillOf] using hfull
      · exact ih (hr.afterFill (pick_mem hpick).1 a) f hf

theorem Sweep.nextMatchId (h : Sweep a r fs a' r') : r'.nextMatchId = r.nextMatchId + UInt64.ofNat fs.length := by
  induction h with
  | done a r => simp
  | @fill a o a' r r' fs _ _ _ ih =>
    rw [ih, List.length_cons, afterFill, UInt64.ofNat_add, UInt64.add_assoc, UInt64.add_comm 1]
    rfl

theorem Sweep.matchId (h : Sweep a r fs a' r') {k : Nat} (hf : fs[k]? = some f) :
    f.matchId = r.nextMatchId + UInt64.ofNat k := by
  induction h generalizing k with
  | done a r => simp at hf
  | @fill a o a' r r' fs _ _ _ ih =>
    cases k with
    | zero =>
      rw [List.getElem?_cons_zero] at hf
      cases hf
      simp [fillOf]
    | succ k =>
      rw [List.getElem?_cons_succ] at hf
      rw [ih hf, afterFill, UInt64.ofNat_add, UInt64.add_assoc, UInt64.add_comm 1]
      rfl

end RefEngine

/-! ### The engine -/

/-- The reasons for which a call does not come to matching. -/
def refusals : List RejectReason :=
  [.unknownSymbol, .invalidQuantity, .fokNotFillable, .unknownOrder, .invalidPrice]

/-- The fills `fs` of the aggressor `a`, for which matching starts in the engine `e` and ends in `e'`, with what the
call reports. -/
structure SweepShape (a : Order) (e e' : MatchingEngine P M) (outFills fs : List Fill) (reason : RejectReason)
    (remainingAfter : Int) : Prop where
  quantity_pos : ∀ f ∈ fs, 0 < f.quantity
  price : ∀ f ∈ fs, ∃ n, e.book.findNode f.restingOrderId = some n ∧ f.price = (e.book.node n).order.price
  limit : a.type = .limit → ∀ f ∈ fs, if a.side = .buy then f.price ≤ a.price else a.price ≤ f.price
  monotone : fs.Pairwise fun f g => if a.side = .buy then f.price ≤ g.price else g.price ≤ f.price
  nodup : (fs.map Fill.restingOrderId).Nodup
  fullyFilled : ∀ f ∈ fs.dropLast, f.restingFullyFilled = true
  /-- After each fill its resting order is gone if and only if it is reported as fully filled. -/
  gone : ∀ k f, fs[k]? = some f →
    ∃ st, stateAfter matchStep (k + 1) { aggressor := a, engine := e, outFills := outFills } = some st ∧
      st.outFills = outFills ++ fs.take (k + 1) ∧
      (f.restingFullyFilled = true ↔ st.engine.book.findNode f.restingOrderId = none)
  matchId : ∀ k f, fs[k]? = some f → f.matchId = e.nextMatchId + UInt64.ofNat k
  nextMatchId : e'.nextMatchId = e.nextMatchId + UInt64.ofNat fs.length
  exhausted : reason ∉ refusals → 0 < remainingAfter →
    ∀ id n, e'.book.findNode id = some n → acceptable a (e'.book.node n).order = false

section

variable {e e' : MatchingEngine P M} {r r' : RefEngine P} {a a' : Order} {out fs : List Fill}

/-- The states of the loop go through the fills one by one. -/
theorem Refines.gone (h : Refines e r) (hsweep : RefEngine.Sweep a r fs a' r') {k : Nat} {f : Fill}
    (hf : fs[k]? = some f) (out : List Fill) :
    ∃ st, stateAfter matchStep (k + 1) { aggressor := a, engine := e, outFills := out } = some st ∧
      st.outFills = out ++ fs.take (k + 1) ∧
      (f.restingFullyFilled = true ↔ st.engine.book.findNode f.restingOrderId = none) := by
  induction hsweep generalizing e out k with
  | done a r => simp at hf
  | @fill a o a' r r' fs hpos hpick _ ih =>
    have hsim := matchStep_sim { aggressor := a, engine := r, outFills := out }
      { aggressor := a, engine := e, outFills := out } ⟨rfl, rfl, h⟩
    have href : RefEngine.matchStep { aggressor := a, engine := r, outFills := out } =
        .next
          { aggressor := { a with remaining := a.remaining - min a.remaining o.remaining }
            engine := r.afterFill a o
            outFills := out ++ [fillOf r.nextMatchId a o o.price (min a.remaining o.remaining)] } := by
      unfold RefEngine.matchStep
      simp [hpos, hpick]
    rw [href] at hsim
    cases hstep : matchStep { aggressor := a, engine := e, outFills := out } with
    | stop => rw [hstep] at hsim; cases hsim
    | fault => rw [hstep] at hsim; cases hsim
    | next st =>
      rw [hstep] at hsim
      obtain ⟨a₁, e₁, out₁⟩ := st
      obtain ⟨ha, hout, hR⟩ := hsim
      dsimp only at ha hout hR
      subst ha hout
      cases k with
      | zero =>
        rw [List.getElem?_cons_zero] at hf
        cases hf
        refine ⟨_, by rw [stateAfter_next hstep]; rfl, by simp, ?_⟩
        have hgone := (h.holds.reduced hR.holds (pick_mem hpick).1).2
        simpa [fillOf] using hgone
      | succ k =>
        rw [List.getElem?_cons_succ] at hf
        obtain ⟨st, hst, hfills, hiff⟩ := ih hR hf (out ++ [_])
        exact ⟨st, by rw [stateAfter_next hstep]; exact hst, by simpa using hfills, hiff⟩

/-- A settled sweep has the shape; `r'` is the book after it, to which orders may have been added that the aggressor
would not accept. -/
theorem Refines.sweepShape (h : Refines e r) (h' : Refines e' r') {r₁ : RefEngine P}
    (hsweep : RefEngine.Sweep a r fs a' r₁) (hend : RefEngine.Settled a' r₁) (hid : r'.nextMatchId = r₁.nextMatchId)
    (hmem : ∀ x ∈ r'.resting, acceptable a x = true → x ∈ r₁.resting) (reason : RejectReason) :
    SweepShape a e e' out fs reason a'.remaining where
  quantity_pos f hf := by
    obtain ⟨x, -, -, hfill⟩ := hsweep.counterparty h.valid hf
    exact hfill.quantity_pos
  price f hf := by
    obtain ⟨x, hx, -, hfill⟩ := hsweep.counterparty h.valid hf
    obtain ⟨n, hfind, hn⟩ := h.holds.exists_node hx
    exact ⟨n, by rw [hfill.restingOrderId, hfind], by rw [hfill.price, hn]⟩
  limit htype f hf := by
    obtain ⟨x, -, hacc, hfill⟩ := hsweep.counterparty h.valid hf
    obtain ⟨-, hacc⟩ := Bool.and_eq_true_iff.1 hacc
    rw [hfill.price]
    simpa [accepts, htype] using hacc
  monotone := hsweep.monotone h.valid
  nodup := hsweep.nodup h.valid
  fullyFilled := hsweep.fullyFilled h.valid
  gone k f hf := h.gone hsweep hf out
  matchId k f hf := by rw [hsweep.matchId hf, h.nextMatchId]
  nextMatchId := by rw [h'.nextMatchId, hid, hsweep.nextMatchId, h.nextMatchId]
  exhausted _ hpos id n hfind := by
    by_contra hacc
    rw [Bool.not_eq_false] at hacc
    have hnone := pick_eq_none.1 (hend hpos) _ (hmem _ (h'.holds.findNode_mem hfind).1 hacc)
    rw [hsweep.aggressor] at hnone
    exact Bool.false_ne_true (hnone.symm.trans hacc)

/-- A call that does not come to matching appends nothing. -/
theorem SweepShape.refused {reason : RejectReason} (hreason : reason ∈ refusals) (hid : e'.nextMatchId = e.nextMatchId)
    (a : Order) (out : List Fill) (remainingAfter : Int) : SweepShape a e e' out [] reason remainingAfter where
  quantity_pos := by simp
  price := by simp
  limit := by simp
  monotone := List.Pairwise.nil
  nodup := List.nodup_nil
  fullyFilled := by simp
  gone := by simp
  matchId := by simp
  nextMatchId := by simpa using hid
  exhausted hne := absurd hreason hne

theorem RefEngine.Submitted.sweepShape {o : Order} {res : NewOrderResult} (hsub : r.Submitted o res r' fs)
    (h : Refines e r) (h' : Refines e' r') :
    SweepShape o.fresh e e' out fs res.rejectReason res.remainingAfter := by
  cases hsub with
  | refused reason hreason =>
    refine SweepShape.refused ?_ (h'.nextMatchId.trans h.nextMatchId.symm) _ _ _
    show reason ∈ refusals
    cases reason with
    | unknownSymbol => decide
    | invalidQuantity => decide
    | fokNotFillable => decide
    | _ => exact hreason.elim
  | @rested _ a r₁ hx _ _ _ _ =>
    refine h.sweepShape h' hx.sweep hx.settled rfl ?_ _
    -- the order that comes to rest is not on the opposite side
    intro x hmem hacc
    rcases List.mem_append.1 hmem with hmem | hmem
    · exact hmem
    · obtain rfl : x = a := by simpa using hmem
      have hside : x.side = o.fresh.side := by rw [hx.aggressor]; rfl
      rw [acceptable_of_side_eq hside] at hacc
      cases hacc
  | full hx _ _ _ _ => exact h.sweepShape h' hx.sweep hx.settled rfl (fun _ hmem _ => hmem) _
  | ended hx _ => exact h.sweepShape h' hx.sweep hx.settled rfl (fun _ hmem _ => hmem) _

theorem RefEngine.Replaced.sweepShape {id : OrderId} {p q : Int} {seq : Sequence} {ts : Int} {res : ReplaceResult}
    (hrep : r.Replaced id p q seq ts res r' fs) (h : Refines e r) (h' : Refines e' r') :
    fs = [] ∧ res.rejectReason ∈ refusals ∨
      ∃ n, e.book.findNode id = some n ∧
        SweepShape ((e.book.node n).order.replaced p q seq ts).fresh { e with book := (e.book.cancel id).2 } e' out fs
          res.rejectReason res.remainingAfter := by
  cases hrep with
  | unknownOrder _ => exact Or.inl ⟨rfl, by decide⟩
  | invalidQuantity _ _ => exact Or.inl ⟨rfl, by decide⟩
  | invalidPrice _ _ _ => exact Or.inl ⟨rfl, by decide⟩
  | resubmitted hmem hid _ _ hsub =>
    obtain ⟨n, hfind, hn⟩ := h.holds.exists_node hmem
    rw [hid] at hfind
    rw [← hn] at hsub
    exact Or.inr ⟨n, hfind, hsub.sweepShape (h.cancelled hfind) h'⟩

end

/-- In every state a run of calls leads to, a submission and a replace keep the fills already in the buffer and append
fills of the shape of one sweep; a replace that is refused appends none. -/
theorem sweep_shape (symbol : SymbolId) (basePrice : Int) (calls : List Call) :
    ∃ resps e, runAll MatchingEngine.call (MatchingEngine.new P M symbol basePrice) calls = some (resps, e) ∧
      (∀ o out, ∃ res e' fs, e.submit o out = some (res, e', out ++ fs) ∧
        SweepShape o.fresh e e' out fs res.rejectReason res.remainingAfter) ∧
      ∀ id p q seq ts out, ∃ res e' fs, e.replace id p q seq ts out = some (res, e', out ++ fs) ∧
        (fs = [] ∧ res.rejectReason ∈ refusals ∨
          ∃ n, e.book.findNode id = some n ∧
            SweepShape ((e.book.node n).order.replaced p q seq ts).fresh { e with book := (e.book.cancel id).2 } e' out
              fs res.rejectReason res.remainingAfter) := by
  obtain ⟨resps, e, r, he, -, h, -⟩ := run_sim (P := P) (M := M) symbol basePrice calls
  refine ⟨resps, e, he, ?_, ?_⟩
  · intro o out
    obtain ⟨res, e', r', fs, hsubmit, -, hsub, h'⟩ := submit_sim h o out
    exact ⟨res, e', fs, hsubmit, hsub.sweepShape h h'⟩
  · intro id p q seq ts out
    obtain ⟨res, e', r', fs, hreplace, -, hrep, h'⟩ := replace_sim h id p q seq ts out
    exact ⟨res, e', fs, hreplace, hrep.sweepShape h h'⟩

end Exchange
