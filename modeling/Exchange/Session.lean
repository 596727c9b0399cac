import Exchange.Feed
import Exchange.LevelWalk
import Exchange.Publication
import Mathlib.Algebra.Order.Group.Int

/-!
# Sessions

A driver passes requests to an engine and, in between, has the publisher send snapshots.  Everything that is sent is
one stream of messages: its numbers have no gaps, and its trades are the fills of the run.
-/

namespace Exchange

open OrderBook DenseMap

/-! ### Snapshots -/

namespace MarketDataPublisher

/-- Whatever the size of the buffer in the end, the bytes are those of the message. -/
theorem encodeAttempts_spec (msg : Wire.BookSnapshot) (attempts scratch : Nat) :
    scratch ≤ (encodeAttempts msg attempts scratch).2 ∧
      ((encodeAttempts msg attempts scratch).1 ≠ [] → (Wire.Message.bookSnapshot msg).Fits ∧
        (encodeAttempts msg attempts scratch).1 = (Wire.Message.bookSnapshot msg).encoded 65539) := by
  induction attempts generalizing scratch with
  | zero => exact ⟨le_rfl, fun h => absurd rfl h⟩
  | succ attempts ih =>
    rw [encodeAttempts]
    by_cases hwritten : Wire.encodeSnapshot scratch msg.sequence msg.symbolId msg.bids msg.asks ≠ []
    · rw [if_pos hwritten]
      refine ⟨le_rfl, fun _ => ?_⟩
      by_cases hlong : scratch < 4 + Wire.snapshotBytes msg.bids msg.asks ∨
          65535 < Wire.snapshotBytes msg.bids msg.asks
      · exact absurd (Wire.encodeSnapshot_eq_nil hlong) hwritten
      · obtain ⟨hout, hbytes⟩ := not_or.1 hlong
        have hfits : (Wire.Message.bookSnapshot msg).Fits := not_lt.1 hbytes
        refine ⟨hfits, ?_⟩
        rw [Wire.Message.encoded_eq hfits le_rfl]
        exact Wire.encodeSnapshot_eq (not_lt.1 hbytes) (not_lt.1 hout)
    · rw [if_neg hwritten]
      obtain ⟨hle, hbytes⟩ := ih (scratch * 2)
      exact ⟨by omega, hbytes⟩

/-- The buffer grows until the message fits. -/
theorem encodeAttempts_ne_nil {msg : Wire.BookSnapshot} (hfits : (Wire.Message.bookSnapshot msg).Fits)
    {attempts scratch : Nat} (h : 4 + Wire.snapshotBytes msg.bids msg.asks ≤ scratch * 2 ^ attempts) :
    (encodeAttempts msg (attempts + 1) scratch).1 ≠ [] := by
  induction attempts generalizing scratch with
  | zero =>
    rw [pow_zero, mul_one] at h
    have hwritten : Wire.encodeSnapshot scratch msg.sequence msg.symbolId msg.bids msg.asks ≠ [] :=
      Wire.encodeSnapshot_ne_nil hfits h
    rw [encodeAttempts, if_pos hwritten]
    exact hwritten
  | succ attempts ih =>
    rw [encodeAttempts]
    by_cases hwritten : Wire.encodeSnapshot scratch msg.sequence msg.symbolId msg.bids msg.asks ≠ []
    · rw [if_pos hwritten]
      exact hwritten
    · rw [if_neg hwritten]
      refine ih ?_
      rw [mul_assoc, ← pow_succ']
      exact h

end MarketDataPublisher

section

variable {P : Params} {M X : Type}

/-- The message of a snapshot with these levels, if it is sent now. -/
def snapshotMessage (feed : MarketDataPublisher) (symbol : SymbolId) (bids asks : List PriceLevelRecord) :
    BookSnapshotMessage :=
  { sequence := feed.nextSequence, symbolId := symbol, bids := bids, asks := asks }

namespace MarketDataPublisher

variable {feed : MarketDataPublisher} {symbol : SymbolId} {bids asks : List PriceLevelRecord}

theorem writeSnapshot_written
    (h : (encodeAttempts (snapshotMessage feed symbol bids asks).toWire 4 feed.snapshotScratch).1 ≠ []) :
    feed.writeSnapshot symbol bids asks =
      { sink := feed.sink ++ [.bookSnapshot (snapshotMessage feed symbol bids asks)]
        bytes := feed.bytes ++
          (encodeAttempts (snapshotMessage feed symbol bids asks).toWire 4 feed.snapshotScratch).1
        nextSequence := feed.nextSequence + 1
        snapshotScratch :=
          (encodeAttempts (snapshotMessage feed symbol bids asks).toWire 4 feed.snapshotScratch).2 } :=
  if_neg h

theorem writeSnapshot_dropped
    (h : (encodeAttempts (snapshotMessage feed symbol bids asks).toWire 4 feed.snapshotScratch).1 = []) :
    feed.writeSnapshot symbol bids asks =
      { feed with
        snapshotScratch :=
          (encodeAttempts (snapshotMessage feed symbol bids asks).toWire 4 feed.snapshotScratch).2 } :=
  if_pos h

end MarketDataPublisher

/-- A snapshot that has been encoded is appended to the stream. -/
theorem appends_snapshot (s : ReplayEngine P M X) (symbol : SymbolId) {bids asks : List PriceLevelRecord}
    (hwritten : (MarketDataPublisher.encodeAttempts (snapshotMessage s.feed symbol bids asks).toWire 4
      s.feed.snapshotScratch).1 ≠ []) :
    Appends s { s with feed := s.feed.writeSnapshot symbol bids asks } []
      [.bookSnapshot (snapshotMessage s.feed symbol bids asks)] := by
  obtain ⟨hle, hbytes⟩ := MarketDataPublisher.encodeAttempts_spec (snapshotMessage s.feed symbol bids asks).toWire 4
    s.feed.snapshotScratch
  obtain ⟨hfits, hencoded⟩ := hbytes hwritten
  rw [MarketDataPublisher.writeSnapshot_written hwritten, hencoded]
  refine ⟨rfl, ?_, ?_, ?_, rfl, hle⟩
  · rw [wireBytes_singleton]
    rfl
  · intro m hm
    rw [List.mem_singleton.1 hm]
    exact hfits
  · show (if s.feed.nextSequence = s.feed.nextSequence then _ else _) = _
    rw [if_pos rfl]
    rfl

/-- A snapshot uses one number. -/
theorem Appends.nextSequence_snapshot {s s' : ReplayEngine P M X} {fills : List Fill} {msg : BookSnapshotMessage}
    (h : Appends s s' fills [.bookSnapshot msg]) : s'.feed.nextSequence = s.feed.nextSequence + 1 := by
  have hnumber := h.numbered
  unfold numberedFrom Message.sequence? at hnumber
  dsimp only at hnumber
  split_ifs at hnumber
  exact (Option.some.inj hnumber).symm

/-- A snapshot that has not been encoded leaves no trace in the stream. -/
theorem appends_dropped (s : ReplayEngine P M X) (symbol : SymbolId) {bids asks : List PriceLevelRecord}
    (hdropped : (MarketDataPublisher.encodeAttempts (snapshotMessage s.feed symbol bids asks).toWire 4
      s.feed.snapshotScratch).1 = []) :
    Appends s { s with feed := s.feed.writeSnapshot symbol bids asks } [] [] := by
  obtain ⟨hle, -⟩ := MarketDataPublisher.encodeAttempts_spec (snapshotMessage s.feed symbol bids asks).toWire 4
    s.feed.snapshotScratch
  rw [MarketDataPublisher.writeSnapshot_dropped hdropped]
  exact ⟨(List.append_nil _).symm, (List.append_nil _).symm, by simp, rfl, rfl, hle⟩

theorem emits_writeSnapshot {Q : Int → Prop} (s : ReplayEngine P M X) (symbol : SymbolId)
    (bids asks : List PriceLevelRecord) :
    Emits Q s { s with feed := s.feed.writeSnapshot symbol bids asks } [] := by
  by_cases hdropped : (MarketDataPublisher.encodeAttempts (snapshotMessage s.feed symbol bids asks).toWire 4
      s.feed.snapshotScratch).1 = []
  · exact ⟨[], appends_dropped s symbol hdropped, marketData_nil⟩
  · exact ⟨_, appends_snapshot s symbol hdropped, by simp, by simp [Message.report?]⟩

end

/-! ### The driver -/

section

variable {P : Params} {M X : Type}

/-- What a driver does: it passes a request to the engine, or operates the kill switch, or has the publisher send a
snapshot of the book of the engine or of another book. -/
inductive SessionEvent (P : Params) (M : Type) where
  | event (ev : Event)
  | snapshot (symbol : SymbolId) (depth : Nat)
  | snapshotOf (book : OrderBook P M) (hbids : book.bids.Inv) (hasks : book.asks.Inv) (symbol : SymbolId) (depth : Nat)

def ReplayEngine.publishSnapshot (s : ReplayEngine P M X) (book : OrderBook P M) (symbol : SymbolId) (depth : Nat) :
    Option (Option Submission × ReplayEngine P M X) :=
  (s.feed.publishSnapshot symbol book depth).map fun feed => (none, { s with feed := feed })

def ReplayEngine.serve [DenseMap M OrderId Nat] [DenseMap X UInt64 ClientExposure] (s : ReplayEngine P M X) :
    SessionEvent P M → Option (Option Submission × ReplayEngine P M X)
  | .event ev => s.process ev
  | .snapshot symbol depth => s.publishSnapshot s.matching.book symbol depth
  | .snapshotOf book _ _ symbol depth => s.publishSnapshot book symbol depth

/-- The records `publish_snapshot` collects for one side. -/
def levelRecords (book : OrderBook P M) (depth : Nat) (side : Side) : List PriceLevelRecord :=
  book.visitAll side (MarketDataPublisher.collect depth) (book.occupiedLevels side) []

theorem MarketDataPublisher.publishSnapshot_eq (feed : MarketDataPublisher) {book : OrderBook P M}
    (hbids : book.bids.Inv) (hasks : book.asks.Inv) (symbol : SymbolId) (depth : Nat) :
    feed.publishSnapshot symbol book depth =
      some (feed.writeSnapshot symbol (levelRecords book depth .buy) (levelRecords book depth .sell)) := by
  unfold MarketDataPublisher.publishSnapshot
  rw [forEachLevel_eq hbids hasks, forEachLevel_eq hbids hasks]
  rfl

theorem publishSnapshot_eq (s : ReplayEngine P M X) {book : OrderBook P M} (hbids : book.bids.Inv)
    (hasks : book.asks.Inv) (symbol : SymbolId) (depth : Nat) :
    s.publishSnapshot book symbol depth =
      some (none, { s with
        feed := s.feed.writeSnapshot symbol (levelRecords book depth .buy) (levelRecords book depth .sell) }) := by
  unfold ReplayEngine.publishSnapshot
  rw [s.feed.publishSnapshot_eq hbids hasks]
  rfl

end

/-! ### Fills -/

def InInt64 (x : Int) : Prop := -2 ^ 63 ≤ x ∧ x < 2 ^ 63

instance (x : Int) : Decidable (InInt64 x) := inferInstanceAs (Decidable (_ ∧ _))

/-- The match ids of the fills run on from the next one. -/
def MatchIds {P : Params} (r r' : RefEngine P) (fills : List Fill) : Prop :=
  ∀ m, r.nextMatchId = UInt64.ofNat m →
    fills.map Fill.matchId = (List.range' m fills.length).map UInt64.ofNat ∧
      r'.nextMatchId = UInt64.ofNat (m + fills.length)

section

variable {P : Params} {r r₁ r₂ : RefEngine P} {fs fs₁ fs₂ : List Fill}

theorem MatchIds.trans (h₁ : MatchIds r r₁ fs₁) (h₂ : MatchIds r₁ r₂ fs₂) : MatchIds r r₂ (fs₁ ++ fs₂) := by
  intro m hm
  obtain ⟨hids₁, hnext₁⟩ := h₁ m hm
  obtain ⟨hids₂, hnext₂⟩ := h₂ _ hnext₁
  rw [List.map_append, List.length_append, hids₁, hids₂, hnext₂, ← List.map_append, List.range'_append_1, add_assoc]
  exact ⟨rfl, rfl⟩

theorem matchIds_nil (h : r₁.nextMatchId = r.nextMatchId) : MatchIds r r₁ [] := fun _ hm => ⟨rfl, h.trans hm⟩

namespace RefEngine

variable {a a' o : Order} {r' : RefEngine P} {res : NewOrderResult}

theorem Sweep.matchIds (h : Sweep a r fs a' r') : MatchIds r r' fs := by
  induction h with
  | done a r => exact matchIds_nil rfl
  | @fill a o a' r r' fs _ _ _ ih =>
    have hfirst : MatchIds r (r.afterFill a o) [fillOf r.nextMatchId a o o.price (min a.remaining o.remaining)] := by
      intro m hm
      refine ⟨?_, ?_⟩
      · simp [fillOf, hm]
      · show r.nextMatchId + 1 = _
        rw [hm]
        exact (UInt64.ofNat_add m 1).symm
    exact hfirst.trans ih

theorem Submitted.matchIds (h : r.Submitted o res r' fs) : MatchIds r r' fs := by
  cases h with
  | refused _ _ => exact matchIds_nil rfl
  | rested hx _ _ _ _ => exact hx.sweep.matchIds
  | full hx _ _ _ _ => exact hx.sweep.matchIds
  | ended hx _ => exact hx.sweep.matchIds

/-- A submission brings no price to the book but its own. -/
theorem Submitted.prices {Q : Int → Prop} (h : r.Submitted o res r' fs) (hr : r.Valid)
    (hQ : ∀ x ∈ r.resting, Q x.price) (ho : Q o.price) : ∀ x ∈ r'.resting, Q x.price := by
  have hswept : ∀ {a : Order} {r₁ : RefEngine P}, r.Executed o fs a r₁ → ∀ x ∈ r₁.resting, Q x.price := by
    intro a r₁ hx x hmem
    obtain ⟨y, hy, hxy⟩ := hx.sweep.mem hr hmem
    rw [hxy]
    exact hQ y hy
  cases h with
  | refused _ _ => exact hQ
  | rested hx _ _ _ _ =>
    intro x hmem
    rcases List.mem_append.1 hmem with hold | hnew
    · exact hswept hx x hold
    · rw [List.mem_singleton.1 hnew, hx.aggressor]
      exact ho
  | full hx _ _ _ _ => exact hswept hx
  | ended hx _ => exact hswept hx

/-- No fill is larger than the order. -/
theorem Submitted.fill_quantity (h : r.Submitted o res r' fs) (hr : r.Valid) {f : Fill} (hf : f ∈ fs) :
    0 < f.quantity ∧ f.quantity ≤ o.quantity := by
  have hpos : ∀ q ∈ fs.map Fill.quantity, 0 < q := by
    intro q hq
    obtain ⟨f, hf, rfl⟩ := List.mem_map.1 hq
    obtain ⟨x, -, -, hfill⟩ := h.counterparty hr hf
    exact hfill.quantity_pos
  have hle : f.quantity ≤ (fs.map Fill.quantity).sum :=
    List.single_le_sum (fun q hq => (hpos q hq).le) _ (List.mem_map_of_mem hf)
  have hsum := h.quantity
  have hleft : 0 ≤ res.remainingAfter := by
    cases h with
    | refused _ _ => cases hf
    | rested hx _ _ _ _ => exact hx.remaining_nonneg
    | full hx _ _ _ _ => exact hx.remaining_nonneg
    | ended hx _ => exact hx.remaining_nonneg
  exact ⟨hpos _ (List.mem_map_of_mem hf), by omega⟩

end RefEngine

end

/-! ### Runs -/

/-- The prices and quantities of a request are what the message has room for. -/
def Event.Fits : Event → Prop
  | .newOrder wire _ => InInt64 wire.price ∧ InInt64 wire.quantity
  | .replace wire _ => InInt64 wire.newPrice ∧ InInt64 wire.newQuantity
  | _ => True

theorem Event.Fits.priced {ev : Event} (h : ev.Fits) : ev.Priced InInt64 := by
  cases ev with
  | newOrder wire ts => exact h.1
  | replace wire ts => exact h.1
  | _ => exact trivial

section

variable {P : Params} {M X : Type}

/-- A stretch of a session: what has been sent, the fills there were, and that a subscriber in sync stays so. -/
structure Served (s s' : ReplayEngine P M X) (r r' : RefEngine P) (fills : List Fill) : Prop where
  sends : ∃ ms, Appends s s' fills ms ∧ ∀ d, Message.bookDelta d ∈ ms → InInt64 d.price
  fits : ∀ f ∈ fills, InInt64 f.price ∧ InInt64 f.quantity
  matchIds : MatchIds r r' fills
  view : viewOf s.feed.sink = depthOf r.resting → viewOf s'.feed.sink = depthOf r'.resting

variable {s s₁ s₂ s' : ReplayEngine P M X} {r r₁ r₂ r' : RefEngine P} {fills₁ fills₂ : List Fill}

theorem Served.trans (h₁ : Served s s₁ r r₁ fills₁) (h₂ : Served s₁ s₂ r₁ r₂ fills₂) :
    Served s s₂ r r₂ (fills₁ ++ fills₂) where
  sends := by
    obtain ⟨ms₁, happ₁, hdeltas₁⟩ := h₁.sends
    obtain ⟨ms₂, happ₂, hdeltas₂⟩ := h₂.sends
    refine ⟨ms₁ ++ ms₂, happ₁.trans happ₂, fun d hd => ?_⟩
    exact (List.mem_append.1 hd).elim (hdeltas₁ d) (hdeltas₂ d)
  fits f hf := (List.mem_append.1 hf).elim (h₁.fits f) (h₂.fits f)
  matchIds := h₁.matchIds.trans h₂.matchIds
  view := h₂.view ∘ h₁.view

theorem served_refl (s : ReplayEngine P M X) (r : RefEngine P) : Served s s r r [] where
  sends := ⟨[], appends_refl s, by simp⟩
  fits := by simp
  matchIds := matchIds_nil rfl
  view := id

variable [DenseMap M OrderId Nat]

/-- The book holds the orders of `r`, at prices that fit on the wire. -/
structure Ready (s : ReplayEngine P M X) (r : RefEngine P) : Prop where
  refines : Refines s.matching r
  prices : ∀ o ∈ r.resting, InInt64 o.price

/-- A snapshot is sent or not; either way, nothing else happens. -/
theorem Ready.publishSnapshot (hs : Ready s r) {book : OrderBook P M} (hbids : book.bids.Inv) (hasks : book.asks.Inv)
    (symbol : SymbolId) (depth : Nat) :
    ∃ s', s.publishSnapshot book symbol depth = some (none, s') ∧ Ready s' r ∧ Served s s' r r [] := by
  refine ⟨_, publishSnapshot_eq s hbids hasks symbol depth, ⟨hs.refines, hs.prices⟩, ?_⟩
  obtain ⟨ms, happ, hdata⟩ := emits_writeSnapshot (Q := fun _ => False) s symbol (levelRecords book depth .buy)
    (levelRecords book depth .sell)
  refine ⟨⟨ms, happ, fun d hd => (hdata.deltas d hd).elim⟩, by simp, matchIds_nil rfl, ?_⟩
  rw [happ.sink, viewOf_append fun d hd => hdata.deltas d hd]
  exact id

variable [DenseMap X UInt64 ClientExposure] {ev : Event} {out : Option Submission}

theorem Outcome.sends (h : Outcome s r ev out s' r') (hs : Ready s r) (hev : ev.Fits) :
    ∃ ms, Appends s s' (submissionFills out) ms ∧ ∀ d, Message.bookDelta d ∈ ms → InInt64 d.price := by
  cases hid : ev.orderId? with
  | none =>
    cases h with
    | engageKillSwitch => exact ⟨[], (appends_refl _).of_feed rfl, by simp⟩
    | disengageKillSwitch => exact ⟨[], (appends_refl _).of_feed rfl, by simp⟩
    | _ => cases hid
  | some id =>
    obtain ⟨ms, rep, hans⟩ := h.answers hs.refines hs.prices hev.priced hid
    refine ⟨_, hans.appends, fun d hd => ?_⟩
    rcases List.mem_append.1 hd with hd | hd
    · exact hans.marketData.deltas d hd
    · cases List.mem_singleton.1 hd

/-- The fills of a submission fit if the resting prices do and the quantity of the order. -/
theorem RefEngine.Submitted.fits {o : Order} {res : NewOrderResult} {fs : List Fill} (h : r.Submitted o res r' fs)
    (hr : r.Valid) (hprices : ∀ x ∈ r.resting, InInt64 x.price) (ho : InInt64 o.quantity) :
    ∀ f ∈ fs, InInt64 f.price ∧ InInt64 f.quantity := by
  intro f hf
  obtain ⟨x, hx, -, hfill⟩ := h.counterparty hr hf
  obtain ⟨hpos, hle⟩ := h.fill_quantity hr hf
  rw [hfill.price]
  refine ⟨hprices x hx, ?_⟩
  unfold InInt64 at ho ⊢
  omega

theorem Outcome.served (h : Outcome s r ev out s' r') (hs : Ready s r) (hev : ev.Fits) :
    Ready s' r' ∧ Served s s' r r' (submissionFills out) := by
  have hsends := h.sends hs hev
  have hhandled := h.handled hs.refines
  have hR' := hhandled.refines hs.refines
  have hview := hhandled.view hs.refines.valid
  -- the events without fills that bring no order to the book
  have hquiet : r'.nextMatchId = r.nextMatchId → (∀ o ∈ r'.resting, o ∈ r.resting) → submissionFills out = [] →
      Ready s' r' ∧ Served s s' r r' (submissionFills out) := by
    intro hnext hsub hnil
    rw [hnil] at hsends ⊢
    exact ⟨⟨hR', fun o ho => hs.prices o (hsub o ho)⟩, hsends, by simp, matchIds_nil hnext, hview⟩
  cases h with
  | refusedByRisk _ => exact hquiet rfl (fun _ ho => ho) rfl
  | submitted _ hsub _ =>
    have hvalid := hs.refines.valid
    exact ⟨⟨hR', hsub.prices hvalid hs.prices hev.1⟩, hsends, hsub.fits hvalid hs.prices hev.2, hsub.matchIds, hview⟩
  | cancelRefused _ => exact hquiet rfl (fun _ ho => ho) rfl
  | cancelled _ _ _ => exact hquiet rfl (fun _ ho => (mem_removeOrder.1 ho).1) rfl
  | replaceUnknown _ => exact hquiet rfl (fun _ ho => ho) rfl
  | replaceRefused _ _ _ _ _ => exact hquiet rfl (fun _ ho => ho) rfl
  | @replaced _ _ _ o _ _ _ _ _ _ _ _ hsub _ _ =>
    have hvalid := hs.refines.valid.removeOrder o.id
    have hprices : ∀ x ∈ removeOrder o.id r.resting, InInt64 x.price := fun x hx =>
      hs.prices x (mem_removeOrder.1 hx).1
    exact ⟨⟨hR', hsub.prices hvalid hprices hev.1⟩, hsends, hsub.fits hvalid hprices hev.2, hsub.matchIds, hview⟩
  | engageKillSwitch => exact hquiet rfl (fun _ ho => ho) rfl
  | disengageKillSwitch => exact hquiet rfl (fun _ ho => ho) rfl

theorem serve_step (hs : Ready s r) {sev : SessionEvent P M} (hev : ∀ ev, sev = .event ev → ev.Fits) :
    ∃ out s' r', s.serve sev = some (out, s') ∧ Ready s' r' ∧ Served s s' r r' (submissionFills out) := by
  cases sev with
  | event ev =>
    obtain ⟨out, s', r', hprocess, houtcome⟩ := process_outcome hs.refines ev
    exact ⟨out, s', r', hprocess, houtcome.served hs (hev ev rfl)⟩
  | snapshot symbol depth =>
    obtain ⟨hbids, hasks⟩ := hs.refines.holds.ladders
    obtain ⟨s', hsnap, hserved⟩ := hs.publishSnapshot hbids hasks symbol depth
    exact ⟨none, s', r, hsnap, hserved⟩
  | snapshotOf book hbids hasks symbol depth =>
    obtain ⟨s', hsnap, hserved⟩ := hs.publishSnapshot hbids hasks symbol depth
    exact ⟨none, s', r, hsnap, hserved⟩

theorem serve_run (events : List (SessionEvent P M)) (hev : ∀ ev, .event ev ∈ events → ev.Fits)
    {s : ReplayEngine P M X} {r : RefEngine P} (hs : Ready s r) :
    ∃ outs s' r', runAll ReplayEngine.serve s events = some (outs, s') ∧ Ready s' r' ∧
      Served s s' r r' (runFills outs) := by
  induction events generalizing s r with
  | nil => exact ⟨[], s, r, rfl, hs, served_refl s r⟩
  | cons sev events ih =>
    have hfirst : ∀ ev, sev = .event ev → ev.Fits := fun ev e => hev ev (e ▸ List.mem_cons_self ..)
    obtain ⟨out, s₁, r₁, hserve, hs₁, hserved₁⟩ := serve_step hs hfirst
    obtain ⟨outs, s', r', hrun, hs', hserved'⟩ := ih (fun ev hmem => hev ev (List.mem_cons_of_mem _ hmem)) hs₁
    refine ⟨out :: outs, s', r', ?_, hs', hserved₁.trans hserved'⟩
    rw [runAll_cons hserve, hrun]
    rfl

end

/-! ### The stream -/

def Wire.Message.sequence? : Wire.Message → Option UInt64
  | trade m => some m.sequence
  | bookDelta m => some m.sequence
  | bookSnapshot m => some m.sequence
  | _ => none

def Wire.Message.trade? : Wire.Message → Option Wire.TradeMessage
  | trade m => some m
  | _ => none

/-- What a trade message says about its fill. -/
def Wire.TradeMessage.contents (m : Wire.TradeMessage) : UInt64 × Int × Int × UInt8 :=
  (m.matchId, m.price.toInt, m.quantity.toInt, m.aggressorSide)

def Fill.contents (f : Fill) : UInt64 × Int × Int × UInt8 := (f.matchId, f.price, f.quantity, f.aggressorSide.code)

theorem toInt_ofInt {x : Int} (h : InInt64 x) : (Int64.ofInt x).toInt = x := Int64.toInt_ofInt_of_le h.1 h.2

theorem filterMap_sequence_toWire (ms : List Message) :
    (ms.map Message.toWire).filterMap Wire.Message.sequence? = ms.filterMap Message.sequence? := by
  rw [List.filterMap_map]
  congr 1
  funext m
  cases m <;> rfl

theorem filterMap_trade_toWire (ms : List Message) :
    (ms.map Message.toWire).filterMap Wire.Message.trade? = (ms.filterMap Message.trade?).map TradeMessage.toWire := by
  rw [List.filterMap_map, List.map_filterMap]
  congr 1
  funext m
  cases m <;> rfl

/-- The numbers of the messages are consecutive. -/
theorem sequences_of_numberedFrom {ms : List Message} {m : Nat} {k : UInt64}
    (h : numberedFrom (UInt64.ofNat m) ms = some k) :
    ms.filterMap Message.sequence? =
        (List.range' m (ms.filterMap Message.sequence?).length).map UInt64.ofNat ∧
      k = UInt64.ofNat (m + (ms.filterMap Message.sequence?).length) := by
  induction ms generalizing m with
  | nil =>
    cases h
    exact ⟨rfl, rfl⟩
  | cons msg ms ih =>
    rw [numberedFrom] at h
    cases hseq : msg.sequence? with
    | none =>
      rw [hseq] at h
      rw [List.filterMap_cons_none hseq]
      exact ih h
    | some n =>
      rw [hseq] at h
      dsimp only at h
      by_cases hn : n = UInt64.ofNat m
      · rw [if_pos hn] at h
        obtain ⟨htail, hnext⟩ := ih (m := m + 1) (by rw [UInt64.ofNat_add]; exact h)
        rw [List.filterMap_cons_some hseq, List.length_cons, List.range'_succ, List.map_cons, ← htail, hn]
        exact ⟨rfl, by rw [hnext, Nat.add_right_comm, add_assoc]⟩
      · rw [if_neg hn] at h
        cases h

theorem toNat_range' {m n : Nat} (h : m + n ≤ 2 ^ 64) :
    ((List.range' m n).map UInt64.ofNat).map UInt64.toNat = List.range' m n := by
  rw [List.map_map]
  refine (List.map_congr_left fun x hx => ?_).trans (List.map_id _)
  obtain ⟨i, hi, rfl⟩ := List.mem_range'.1 hx
  exact UInt64.toNat_ofNat_of_lt' (show m + 1 * i < 2 ^ 64 by omega)

/-- The trade messages, read off the wire, say what the fills are. -/
theorem contents_of_prints {ms : List Message} {fills : List Fill} (h : prints ms = fills.map Fill.print)
    (hfits : ∀ f ∈ fills, InInt64 f.price ∧ InInt64 f.quantity) :
    ((ms.map Message.toWire).filterMap Wire.Message.trade?).map Wire.TradeMessage.contents =
      fills.map Fill.contents := by
  let read (p : Print) : UInt64 × Int × Int × UInt8 :=
    (p.matchId, (Int64.ofInt p.price).toInt, (Int64.ofInt p.quantity).toInt, p.aggressorSide.code)
  have htrades : ((ms.map Message.toWire).filterMap Wire.Message.trade?).map Wire.TradeMessage.contents =
      (prints ms).map read := by
    rw [filterMap_trade_toWire, prints, List.map_map, List.map_map]
    rfl
  rw [htrades, h, List.map_map]
  refine List.map_congr_left fun f hf => ?_
  obtain ⟨hprice, hquantity⟩ := hfits f hf
  show (f.matchId, (Int64.ofInt f.price).toInt, (Int64.ofInt f.quantity).toInt, f.aggressorSide.code) = f.contents
  rw [toInt_ofInt hprice, toInt_ofInt hquantity]
  rfl

section

variable {P : Params} {M X : Type}

/-- The bytes that have been sent from an empty sink are those of the messages. -/
theorem Appends.parse_eq {s s' : ReplayEngine P M X} {fills : List Fill} {ms : List Message}
    (h : Appends s s' fills ms) (hempty : s.feed.bytes = []) :
    Wire.parse s'.feed.bytes = some { rest := [], messages := ms.map Message.toWire } := by
  have hfits : ∀ m ∈ ms.map Message.toWire, m.Fits := by
    intro m hm
    obtain ⟨msg, hmsg, rfl⟩ := List.mem_map.1 hm
    exact h.fits msg hmsg
  have hparse : Wire.parse (wireBytes ms ++ []) = some { rest := [], messages := ms.map Message.toWire } :=
    Wire.parse_stream le_rfl rfl hfits
  rw [h.bytes, hempty, List.nil_append]
  rw [List.append_nil] at hparse
  exact hparse

variable [DenseMap M OrderId Nat]

/-- An engine whose publisher has a snapshot buffer of this size. -/
def ReplayEngine.start (scratch : Nat) (symbol : SymbolId) (basePrice : Int) (risk : RiskEngine X) :
    ReplayEngine P M X :=
  { ReplayEngine.new symbol basePrice risk with feed := { snapshotScratch := scratch } }

theorem ready_start (scratch : Nat) (symbol : SymbolId) (basePrice : Int) (risk : RiskEngine X) :
    Ready (ReplayEngine.start (P := P) (M := M) scratch symbol basePrice risk) (RefEngine.new P symbol basePrice) where
  refines := refines_new symbol basePrice
  prices := by simp [RefEngine.new]

variable [DenseMap X UInt64 ClientExposure]

/-- In every session all bytes parse, and the trades are the fills of the run.  With fewer than 2^64 messages, the
numbers of the feed and the match ids are 1, 2, 3, and so on. -/
theorem feed_numbers_consecutive (scratch : Nat) (symbol : SymbolId) (basePrice : Int) (risk : RiskEngine X)
    (events : List (SessionEvent P M)) (hfits : ∀ ev, .event ev ∈ events → ev.Fits) :
    ∃ outs s msgs, runAll ReplayEngine.serve (ReplayEngine.start scratch symbol basePrice risk) events =
        some (outs, s) ∧
      Wire.parse s.feed.bytes = some { rest := [], messages := msgs } ∧
      (msgs.filterMap Wire.Message.trade?).map Wire.TradeMessage.contents = (runFills outs).map Fill.contents ∧
      (msgs.length < 2 ^ 64 →
        (msgs.filterMap Wire.Message.sequence?).map UInt64.toNat =
            List.range' 1 (msgs.filterMap Wire.Message.sequence?).length ∧
          (runFills outs).map (fun f => f.matchId.toNat) = List.range' 1 (runFills outs).length) := by
  obtain ⟨outs, s, r, hrun, -, hserved⟩ := serve_run events hfits (ready_start scratch symbol basePrice risk)
  obtain ⟨ms, happ, -⟩ := hserved.sends
  refine ⟨outs, s, ms.map Message.toWire, hrun, happ.parse_eq rfl, contents_of_prints happ.trades hserved.fits, ?_⟩
  intro hlen
  rw [List.length_map] at hlen
  constructor
  · have hcount := List.length_filterMap_le Message.sequence? ms
    have hseq := (sequences_of_numberedFrom (m := 1) happ.numbered).1
    rw [filterMap_sequence_toWire]
    nth_rewrite 1 [hseq]
    exact toNat_range' (by omega)
  · have hids := (hserved.matchIds 1 rfl).1
    have hcount : (runFills outs).length ≤ ms.length := by
      have hprints := congrArg List.length happ.trades
      rw [prints, List.length_map, List.length_map] at hprints
      rw [← hprints]
      exact List.length_filterMap_le _ _
    have hnat := congrArg (List.map UInt64.toNat) hids
    rw [toNat_range' (by omega), List.map_map] at hnat
    exact hnat

end

/-- A snapshot of the empty book, a Sell and a Buy that takes it. -/
theorem feed_numbers_consecutive_trade :
    ∃ outs s msgs, runAll ReplayEngine.serve
        (ReplayEngine.start (P := tinyParams) (M := IdMap) 8192 7 100
          (RiskEngine.new looseLimits : RiskEngine ExposureMap))
        [.snapshot 7 2, .event (.newOrder (limitDay 1 1 .sell 100 3) 0),
         .event (.newOrder (limitDay 2 2 .buy 100 3) 1)] = some (outs, s) ∧
      Wire.parse s.feed.bytes = some { rest := [], messages := msgs } ∧
      (msgs.filterMap Wire.Message.trade?).map Wire.TradeMessage.contents = (runFills outs).map Fill.contents := by
  obtain ⟨outs, s, msgs, hrun, hparse, htrades, -⟩ := feed_numbers_consecutive (P := tinyParams) (M := IdMap) 8192 7 100
    (RiskEngine.new looseLimits : RiskEngine ExposureMap)
    [.snapshot 7 2, .event (.newOrder (limitDay 1 1 .sell 100 3) 0), .event (.newOrder (limitDay 2 2 .buy 100 3) 1)]
    (by
      intro ev hmem
      simp only [List.mem_cons, SessionEvent.event.injEq, reduceCtorEq, List.not_mem_nil, or_false, false_or] at hmem
      rcases hmem with rfl | rfl
      · exact ⟨by decide, by decide⟩
      · exact ⟨by decide, by decide⟩)
  exact ⟨outs, s, msgs, hrun, hparse, htrades⟩

end Exchange
