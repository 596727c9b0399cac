import Exchange.LateJoiner

/-!
# A feed that is cut off

A request sends its deltas one after the other, so a subscriber that has received only a part of the stream may have a
map that was never the depth of the book.  It is not crossed all the same.  The deltas of a request come in an order:
first the levels its fills have taken from, then the level a replaced order has left, all of which were occupied
before the request, and last the level where its order has come to rest.  So before the last delta the map has no
level that the book did not have before the request, and after it the map is the depth of the book.
-/

namespace Exchange

open OrderBook DenseMap

/-! ### Maps -/

namespace View

variable {v w : View}

/-- Every bid level is below every ask level. -/
def Uncrossed (v : View) : Prop := ∀ bid ask, (v .buy bid).isSome → (v .sell ask).isSome → bid < ask

/-- The levels of `v` are among those of `w`. -/
def Within (v w : View) : Prop := ∀ s p, (v s p).isSome → (w s p).isSome

theorem Uncrossed.of_within (h : w.Uncrossed) (hv : v.Within w) : v.Uncrossed :=
  fun bid ask hbid hask => h bid ask (hv .buy bid hbid) (hv .sell ask hask)

theorem Uncrossed.onWire (h : v.Uncrossed) (bid ask : Int64) (hbid : (v.onWire Side.buy.code bid).isSome)
    (hask : (v.onWire Side.sell.code ask).isSome) : bid < ask := by
  rw [onWire_of_some _ (Side.ofCode_eq_some.2 rfl), Option.isSome_map] at hbid hask
  exact Int64.lt_iff_toInt_lt.2 (h _ _ hbid hask)

end View

theorem fullView_toWire {ms : List Message} (h : ∀ d, Message.bookDelta d ∈ ms → InInt64 d.price) :
    Wire.fullView (ms.map Message.toWire) = (viewOf ms).onWire := by
  rw [Wire.fullView, ← View.onWire_empty, ← View.onWire_foldl _ h]
  rfl

theorem isSome_depthOf {L : List Order} {s : Side} {p : Int} :
    (depthOf L s p).isSome ↔ ∃ o ∈ L, o.side = s ∧ o.price = p := by
  unfold depthOf
  by_cases hnil : ordersAt s p L = []
  · rw [if_pos hnil]
    refine ⟨nofun, ?_⟩
    rintro ⟨o, ho, hlevel⟩
    have hmem : o ∈ ordersAt s p L := mem_ordersAt.2 ⟨ho, hlevel⟩
    rw [hnil] at hmem
    cases hmem
  · rw [if_neg hnil]
    obtain ⟨o, ho⟩ := List.exists_mem_of_ne_nil _ hnil
    exact ⟨fun _ => ⟨o, mem_ordersAt.1 ho⟩, fun _ => rfl⟩

theorem uncrossed_depthOf {L : List Order} (h : Uncrossed L) : (depthOf L).Uncrossed := by
  intro bid ask hbid hask
  obtain ⟨x, hx, hxs, rfl⟩ := isSome_depthOf.1 hbid
  obtain ⟨y, hy, hys, rfl⟩ := isSome_depthOf.1 hask
  exact h x hx y hy hxs hys

/-- The level of a fill was occupied. -/
theorem RefEngine.Submitted.level_occupied {P : Params} {r r' : RefEngine P} {o : Order} {res : NewOrderResult}
    {fs : List Fill} (h : r.Submitted o res r' fs) (hr : r.Valid) {f : Fill} (hf : f ∈ fs) :
    ∃ x ∈ r.resting, x.side = opposite f.aggressorSide ∧ x.price = f.price := by
  obtain ⟨x, hx, hacc, hfill⟩ := h.counterparty hr hf
  have hside : x.side = opposite o.side := of_decide_eq_true (Bool.and_eq_true_iff.1 hacc).1
  exact ⟨x, hx, by rw [hside, hfill.aggressorSide], hfill.price.symm⟩

/-! ### What a subscriber sees on the way -/

section

variable {P : Params} {M X : Type}

/-- On the way from `s` to `s'`, the map of a subscriber meets `Q`, however many of the messages have arrived. -/
def Shows (Q : View → Prop) (s s' : ReplayEngine P M X) : Prop :=
  ∃ ms, s'.feed.sink = s.feed.sink ++ ms ∧ ∀ k, Q (viewOf (s.feed.sink ++ ms.take k))

variable {Q Q' : View → Prop} {s s₁ s₂ s' : ReplayEngine P M X}

theorem Shows.trans (h₁ : Shows Q s s₁) (h₂ : Shows Q s₁ s₂) : Shows Q s s₂ := by
  obtain ⟨ms₁, hsink₁, hview₁⟩ := h₁
  obtain ⟨ms₂, hsink₂, hview₂⟩ := h₂
  refine ⟨ms₁ ++ ms₂, by rw [hsink₂, hsink₁, List.append_assoc], fun k => ?_⟩
  rw [List.take_append]
  by_cases hk : k ≤ ms₁.length
  · rw [Nat.sub_eq_zero_of_le hk, List.take_zero, List.append_nil]
    exact hview₁ k
  · rw [List.take_of_length_le (by omega), ← List.append_assoc, ← hsink₁]
    exact hview₂ _

theorem Shows.mono (h : Shows Q s s') (hQ : ∀ v, Q v → Q' v) : Shows Q' s s' := by
  obtain ⟨ms, hsink, hview⟩ := h
  exact ⟨ms, hsink, fun k => hQ _ (hview k)⟩

theorem Shows.last (h : Shows Q s s') : Q (viewOf s'.feed.sink) := by
  obtain ⟨ms, hsink, hview⟩ := h
  have hall := hview ms.length
  rwa [List.take_length, ← hsink] at hall

/-- Messages that are no deltas do not change the map. -/
theorem shows_of_no_delta {ms : List Message} (hsink : s'.feed.sink = s.feed.sink ++ ms)
    (hdeltas : ∀ d, Message.bookDelta d ∉ ms) (hQ : Q (viewOf s.feed.sink)) : Shows Q s s' := by
  refine ⟨ms, hsink, fun k => ?_⟩
  rw [viewOf_append fun d hd => hdeltas d (List.mem_of_mem_take hd)]
  exact hQ

theorem shows_report (h : Q (viewOf s.feed.sink)) (id : OrderId) (client : ClientId) (symbol : SymbolId)
    (fills : List Fill) (leaves : Int) (execType : ExecType) (reason : RejectReason) :
    Shows Q s (s.publishReport id client symbol fills leaves execType reason) :=
  shows_of_no_delta (appends_report s id client symbol fills leaves execType reason).sink (by simp) h

/-- A level update is one message at most: it has arrived, or it has not. -/
theorem shows_level (symbol : SymbolId) (side : Side) (price : Int) (h : Q (viewOf s.feed.sink))
    (h' : Q (viewOf (s.publishLevel symbol side price).feed.sink)) :
    Shows Q s (s.publishLevel symbol side price) := by
  unfold ReplayEngine.publishLevel at h' ⊢
  cases hlevel : s.matching.book.levelAt side price with
  | none => exact shows_of_no_delta (List.append_nil _).symm (by simp) h
  | some level =>
    rw [hlevel] at h'
    obtain ⟨d, -, happ⟩ := appends_levelUpdate s symbol side price level
    rw [happ.sink] at h'
    refine ⟨[.bookDelta d], happ.sink, fun k => ?_⟩
    cases k with
    | zero => rwa [List.take_zero, List.append_nil]
    | succ k => rwa [List.take_succ_cons, List.take_nil]

theorem shows_rest (rested : Bool) (symbol : SymbolId) (side : Side) (price : Int) (h : Q (viewOf s.feed.sink))
    (h' : Q (viewOf (s.publishRest rested symbol side price).feed.sink)) :
    Shows Q s (s.publishRest rested symbol side price) := by
  cases rested with
  | true => exact shows_level symbol side price h h'
  | false => exact shows_of_no_delta (List.append_nil _).symm (by simp) h

/-- Once the levels that were occupied have been updated, only the level where the order rests and the report are
still to come. -/
theorem Shows.answered {d : View} (h : Shows (·.Within d) s s₁) (hd : d.Uncrossed)
    {rested : Bool} {symbol : SymbolId} {side : Side} {price : Int} {id : OrderId} {client : ClientId}
    {reported : SymbolId} {fills : List Fill} {leaves : Int} {execType : ExecType} {reason : RejectReason}
    (hafter : (viewOf ((s₁.publishRest rested symbol side price).publishReport id client reported fills leaves execType
      reason).feed.sink).Uncrossed) :
    Shows View.Uncrossed s
      ((s₁.publishRest rested symbol side price).publishReport id client reported fills leaves execType reason) := by
  have huncrossed : ∀ v : View, v.Within d → v.Uncrossed := fun _ => hd.of_within
  have hreport : viewOf ((s₁.publishRest rested symbol side price).publishReport id client reported fills leaves
      execType reason).feed.sink = viewOf (s₁.publishRest rested symbol side price).feed.sink := viewOf_concat _ _
  rw [hreport] at hafter
  have hrest := shows_rest rested symbol side price (huncrossed _ h.last) hafter
  exact ((h.mono huncrossed).trans hrest).trans (shows_report hrest.last ..)

variable [DenseMap X UInt64 ClientExposure] {d : View}

/-- The update of a level that was occupied adds no level. -/
theorem shows_occupied (symbol : SymbolId) {side : Side} {price : Int} (h : (viewOf s.feed.sink).Within d)
    (hd : (d side price).isSome) : Shows (·.Within d) s (s.publishLevel symbol side price) := by
  refine shows_level symbol side price h fun sd p hsome => ?_
  by_cases hat : sd = side ∧ p = price
  · obtain ⟨rfl, rfl⟩ := hat
    exact hd
  · have hsame := (publishes_level s symbol side price).other sd p fun hT => hat ⟨hT.1, hT.2.1⟩
    rw [hsame] at hsome
    exact h sd p hsome

theorem shows_fills (symbol : SymbolId) {fills : List Fill} (h : (viewOf s.feed.sink).Within d)
    (hd : ∀ f ∈ fills, (d (opposite f.aggressorSide) f.price).isSome) :
    Shows (·.Within d) s (s.applyFills symbol fills) := by
  induction fills generalizing s with
  | nil => exact shows_of_no_delta (List.append_nil _).symm (by simp) h
  | cons f fills ih =>
    let s₁ : ReplayEngine P M X :=
      { s with feed := s.feed.publishTrade symbol f, risk := s.risk.recordFills symbol [f] }
    obtain ⟨t, happ⟩ := appends_trade s symbol f
    have htrade : Shows (·.Within d) s s₁ := shows_of_no_delta happ.sink (by simp) h
    have hlevel : Shows (·.Within d) s₁ (s.applyFill symbol f) :=
      shows_occupied symbol htrade.last (hd f (List.mem_cons_self ..))
    have hfirst := htrade.trans hlevel
    exact hfirst.trans (ih hfirst.last fun g hg => hd g (List.mem_cons_of_mem _ hg))

end

/-! ### Requests -/

section

variable {P : Params} {M X : Type} [DenseMap M OrderId Nat] [DenseMap X UInt64 ClientExposure]
  {s s' : ReplayEngine P M X} {r r' : RefEngine P} {ev : Event} {out : Option Submission}

/-- At no point of a request does a subscriber that was in sync before see a crossed book. -/
theorem Outcome.shows (h : Outcome s r ev out s' r') (hR : Refines s.matching r) (hu : Uncrossed r.resting)
    (hview : viewOf s.feed.sink = depthOf r.resting) : Shows View.Uncrossed s s' := by
  have hdepth := uncrossed_depthOf hu
  have hbefore : (viewOf s.feed.sink).Uncrossed := hview ▸ hdepth
  have hafter : (viewOf s'.feed.sink).Uncrossed := by
    rw [(h.handled hR).view hR.valid hview]
    exact uncrossed_depthOf (h.uncrossed hR.valid hu)
  have hwithin : (viewOf s.feed.sink).Within (depthOf r.resting) := fun sd p hsome => hview ▸ hsome
  cases h with
  | refusedByRisk _ => exact shows_report (s := s.sequenced s.matching) hbefore ..
  | @submitted wire ts e' _ res fills _ hsub _ =>
    have hfills := shows_fills (s := s.sequenced e') wire.symbolId hwithin
      fun f hf => isSome_depthOf.2 (hsub.level_occupied hR.valid hf)
    exact hfills.answered hdepth hafter
  | cancelRefused _ => exact shows_report hbefore ..
  | @cancelled wire o e' hmem _ _ =>
    have hlevel := shows_occupied (s := { s with matching := e' }) o.symbol hwithin
      (isSome_depthOf.2 ⟨o, hmem, rfl, rfl⟩)
    exact (hlevel.mono fun _ => hdepth.of_within).trans (shows_report (hdepth.of_within hlevel.last) ..)
  | replaceUnknown _ => exact shows_report hbefore ..
  | @replaceRefused wire ts n o e' reason _ _ _ _ _ => exact shows_report (s := s.sequenced e') hbefore ..
  | @replaced wire ts n o e' _ res fills _ _ hmem _ hsub _ _ =>
    have hfills := shows_fills (s := s.sequenced e') o.symbol hwithin fun f hf => by
      obtain ⟨x, hx, hlevel⟩ := hsub.level_occupied (hR.valid.removeOrder o.id) hf
      exact isSome_depthOf.2 ⟨x, (mem_removeOrder.1 hx).1, hlevel⟩
    have hleft := shows_occupied o.symbol hfills.last (isSome_depthOf.2 ⟨o, hmem, rfl, rfl⟩)
    exact (hfills.trans hleft).answered hdepth hafter
  | engageKillSwitch => exact shows_of_no_delta (List.append_nil _).symm (by simp) hbefore
  | disengageKillSwitch => exact shows_of_no_delta (List.append_nil _).symm (by simp) hbefore

end

/-! ### Sessions -/

section

variable {P : Params} {M X : Type} [DenseMap M OrderId Nat]

/-- A session has come from `start` to `s`: the book is uncrossed, the subscriber is in sync, and it has never seen a
crossed book. -/
structure InSync (start s : ReplayEngine P M X) (r₀ r : RefEngine P) (fills : List Fill) : Prop where
  ready : Ready s r
  uncrossed : Uncrossed r.resting
  view : viewOf s.feed.sink = depthOf r.resting
  served : Served start s r₀ r fills
  shows : Shows View.Uncrossed start s

variable {start s : ReplayEngine P M X} {r₀ r : RefEngine P} {fills : List Fill}

theorem InSync.publishSnapshot (h : InSync start s r₀ r fills) {book : OrderBook P M} (hbids : book.bids.Inv)
    (hasks : book.asks.Inv) (symbol : SymbolId) (depth : Nat) :
    ∃ s', s.publishSnapshot book symbol depth = some (none, s') ∧ InSync start s' r₀ r (fills ++ []) := by
  obtain ⟨s', hsnap, hready, hserved⟩ := h.ready.publishSnapshot hbids hasks symbol depth
  refine ⟨s', hsnap, hready, h.uncrossed, hserved.view h.view, h.served.trans hserved, h.shows.trans ?_⟩
  rw [publishSnapshot_eq s hbids hasks] at hsnap
  obtain ⟨-, rfl⟩ := Prod.mk.inj (Option.some.inj hsnap)
  obtain ⟨ms, happ, hdata⟩ := emits_writeSnapshot (Q := fun _ => False) s symbol (levelRecords book depth .buy)
    (levelRecords book depth .sell)
  exact shows_of_no_delta happ.sink hdata.deltas h.shows.last

variable [DenseMap X UInt64 ClientExposure]

theorem InSync.serve (h : InSync start s r₀ r fills) {sev : SessionEvent P M}
    (hev : ∀ ev, sev = .event ev → ev.Fits) :
    ∃ out s' r', s.serve sev = some (out, s') ∧ InSync start s' r₀ r' (fills ++ submissionFills out) := by
  cases sev with
  | event ev =>
    obtain ⟨out, s', r', hprocess, houtcome⟩ := process_outcome h.ready.refines ev
    obtain ⟨hready, hserved⟩ := houtcome.served h.ready (hev ev rfl)
    exact ⟨out, s', r', hprocess, hready, houtcome.uncrossed h.ready.refines.valid h.uncrossed, hserved.view h.view,
      h.served.trans hserved, h.shows.trans (houtcome.shows h.ready.refines h.uncrossed h.view)⟩
  | snapshot symbol depth =>
    obtain ⟨hbids, hasks⟩ := h.ready.refines.holds.ladders
    obtain ⟨s', hsnap, hsync⟩ := h.publishSnapshot hbids hasks symbol depth
    exact ⟨none, s', r, hsnap, hsync⟩
  | snapshotOf book hbids hasks symbol depth =>
    obtain ⟨s', hsnap, hsync⟩ := h.publishSnapshot hbids hasks symbol depth
    exact ⟨none, s', r, hsnap, hsync⟩

/-- Whatever part of the bytes of a session has arrived, a subscriber reads whole messages off them and then at most
an incomplete one, and the map it has made of their deltas is not crossed. -/
theorem subscriber_never_crossed (scratch : Nat) (symbol : SymbolId) (basePrice : Int) (risk : RiskEngine X)
    (events : List (SessionEvent P M)) (hfits : ∀ ev, .event ev ∈ events → ev.Fits) :
    ∃ outs s, runAll ReplayEngine.serve (ReplayEngine.start scratch symbol basePrice risk) events = some (outs, s) ∧
      ∀ n, ∃ msgs rest, Wire.parse (s.feed.bytes.take n) = some { rest := rest, messages := msgs } ∧
        s.feed.bytes.take n = Wire.stream 65539 msgs ++ rest ∧ Wire.decodeNext rest = .incomplete ∧
        ∀ bid ask, (Wire.fullView msgs Side.buy.code bid).isSome → (Wire.fullView msgs Side.sell.code ask).isSome →
          bid < ask := by
  let start : ReplayEngine P M X := ReplayEngine.start scratch symbol basePrice risk
  let r₀ := RefEngine.new P symbol basePrice
  have hempty : View.Uncrossed (viewOf []) := nofun
  have hstart : InSync start start r₀ r₀ [] :=
    ⟨ready_start scratch symbol basePrice risk, nofun, rfl, served_refl start r₀,
      shows_of_no_delta (List.append_nil _).symm (by simp) hempty⟩
  have hstep : ∀ (s : ReplayEngine P M X) (sev : SessionEvent P M), (∃ r fills, InSync start s r₀ r fills) →
      (∀ ev, sev = .event ev → ev.Fits) →
      ∃ out s', s.serve sev = some (out, s') ∧ (∃ r fills, InSync start s' r₀ r fills) ∧ True := by
    rintro s sev ⟨r, fills, h⟩ hev
    obtain ⟨out, s', r', hserve, h'⟩ := h.serve hev
    exact ⟨out, s', hserve, ⟨r', _, h'⟩, trivial⟩
  obtain ⟨outs, s, hrun, ⟨r, fills, hsync⟩, -⟩ := runAll_rule_of_mem _ (fun _ => True) hstep
    (fun sev hsev ev he => hfits ev (he ▸ hsev)) ⟨r₀, [], hstart⟩
  refine ⟨outs, s, hrun, fun n => ?_⟩
  obtain ⟨ms, happ, hdeltas⟩ := hsync.served.sends
  obtain ⟨ms', hsink, hviews⟩ := hsync.shows
  obtain rfl : ms = ms' := List.append_cancel_left (happ.sink.symm.trans hsink)
  have hall : ∀ m ∈ ms.map Message.toWire, m.Fits := by
    intro m hm
    obtain ⟨msg, hmsg, rfl⟩ := List.mem_map.1 hm
    exact happ.fits msg hmsg
  have hbytes : s.feed.bytes = Wire.stream 65539 (ms.map Message.toWire) := happ.bytes
  obtain ⟨k, rest, -, -, hsplit, hrest⟩ := Wire.exists_cut le_rfl _ hall _ (Nat.min_le_right n _)
  rw [← List.take_eq_take_min, ← hbytes, ← List.map_take] at hsplit
  refine ⟨(ms.take k).map Message.toWire, rest, ?_, hsplit, hrest, ?_⟩
  · rw [hsplit]
    exact Wire.parse_stream le_rfl hrest fun m hm => hall m (List.map_subset _ (List.take_subset k ms) hm)
  · rw [fullView_toWire fun d hd => hdeltas d (List.mem_of_mem_take hd)]
    exact (hviews k).onWire

end

/-- A bid is moved to the price of an ask, takes it and rests with what is left. -/
theorem subscriber_never_crossed_moved_bid :
    ∃ outs s, runAll ReplayEngine.serve
        (ReplayEngine.start (P := tinyParams) (M := IdMap) 8192 7 100
          (RiskEngine.new looseLimits : RiskEngine ExposureMap))
        [.event (.newOrder (limitDay 1 1 .sell 101 3) 0), .event (.newOrder (limitDay 2 2 .buy 100 5) 1),
          .event (.replace { orderId := 2, newPrice := 101, newQuantity := 5, clientId := 2, symbolId := 7 } 2)] =
        some (outs, s) ∧
      ∀ n, ∃ msgs rest, Wire.parse (s.feed.bytes.take n) = some { rest := rest, messages := msgs } ∧
        ∀ bid ask, (Wire.fullView msgs Side.buy.code bid).isSome → (Wire.fullView msgs Side.sell.code ask).isSome →
          bid < ask := by
  obtain ⟨outs, s, hrun, h⟩ := subscriber_never_crossed (P := tinyParams) (M := IdMap) 8192 7 100
    (RiskEngine.new looseLimits : RiskEngine ExposureMap)
    [.event (.newOrder (limitDay 1 1 .sell 101 3) 0), .event (.newOrder (limitDay 2 2 .buy 100 5) 1),
      .event (.replace { orderId := 2, newPrice := 101, newQuantity := 5, clientId := 2, symbolId := 7 } 2)]
    (by
      intro ev hmem
      simp only [List.mem_cons, SessionEvent.event.injEq, List.not_mem_nil, or_false] at hmem
      rcases hmem with rfl | rfl | rfl
      · exact ⟨by decide, by decide⟩
      · exact ⟨by decide, by decide⟩
      · exact ⟨by decide, by decide⟩)
  refine ⟨outs, s, hrun, fun n => ?_⟩
  obtain ⟨msgs, rest, hparse, -, -, hview⟩ := h n
  exact ⟨msgs, rest, hparse, hview⟩

end Exchange
