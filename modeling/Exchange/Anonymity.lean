import Exchange.Disguise
import Exchange.Publication

/-!
# Anonymity

Runs of two replay engines that are sent the same requests, up to a renaming of the clients and with any timestamps.
They trade the same and publish the same, but for the client ids of the execution reports, and every account of the
one is the account of the renamed client in the other.
-/

namespace Exchange

open OrderBook DenseMap

variable {P : Params} {M X : Type} {γ : ClientId → ClientId}

/-! ### Exposures -/

section

variable [DenseMap X UInt64 ClientExposure] {k k' : RiskEngine X}

/-- The accounts of the renamed clients are the accounts of the clients. -/
structure RiskAlike (γ : ClientId → ClientId) (k k' : RiskEngine X) : Prop where
  limits : k'.limits = k.limits
  killSwitch : k'.killSwitchEngaged = k.killSwitchEngaged
  exposure : ∀ c s, find k'.exposure (RiskEngine.accountKey (γ c) s) = find k.exposure (RiskEngine.accountKey c s)

theorem RiskAlike.refl (k : RiskEngine X) : RiskAlike id k k := ⟨rfl, rfl, fun _ _ => rfl⟩

theorem RiskAlike.position (h : RiskAlike γ k k') (c : ClientId) (s : SymbolId) :
    k'.position (γ c) s = k.position c s := by
  unfold RiskEngine.position
  rw [h.exposure]

theorem RiskAlike.pnl (h : RiskAlike γ k k') (c : ClientId) (s : SymbolId) : k'.pnl (γ c) s = k.pnl c s := by
  unfold RiskEngine.pnl
  rw [h.exposure]

theorem RiskAlike.checkNewOrder (h : RiskAlike γ k k') {o o' : Order} (ho : OrderAlike γ o o') :
    k'.checkNewOrder o' = k.checkNewOrder o := by
  rw [ho]
  unfold RiskEngine.checkNewOrder
  dsimp only
  rw [h.limits, h.killSwitch, h.exposure]

theorem RiskAlike.recordFill (h : RiskAlike γ k k') (hγ : Function.Injective γ) (client : ClientId)
    (symbol : SymbolId) (side : Side) (price quantity : Int) :
    RiskAlike γ (k.recordFill client symbol side price quantity)
      (k'.recordFill (γ client) symbol side price quantity) where
  limits := h.limits
  killSwitch := h.killSwitch
  exposure c s := by
    unfold RiskEngine.recordFill
    dsimp only
    rw [h.exposure]
    by_cases hkey : c = client ∧ s = symbol
    · obtain ⟨rfl, rfl⟩ := hkey
      rw [find_assign_self, find_assign_self]
    · -- the key of another account stays another one, because no two clients get the same name
      have hne : RiskEngine.accountKey c s ≠ RiskEngine.accountKey client symbol := fun e =>
        hkey (RiskEngine.accountKey_inj.1 e)
      have hne' : RiskEngine.accountKey (γ c) s ≠ RiskEngine.accountKey (γ client) symbol := fun e =>
        hkey ⟨hγ (RiskEngine.accountKey_inj.1 e).1, (RiskEngine.accountKey_inj.1 e).2⟩
      rw [find_assign_ne _ _ _ _ hne, find_assign_ne _ _ _ _ hne', h.exposure]

end

/-! ### The feed -/

/-- Only execution reports name a client. -/
def Message.rename (γ : ClientId → ClientId) : Message → Message
  | executionReport msg => executionReport { msg with clientId := γ msg.clientId }
  | trade msg => trade msg
  | bookDelta msg => bookDelta msg
  | bookSnapshot msg => bookSnapshot msg

/-- Since they both were `f₀`, the one publisher has published some messages, and the other the renamed messages. -/
def FeedAlike (γ : ClientId → ClientId) (f₀ f f' : MarketDataPublisher) : Prop :=
  ∃ ms, f.sink = f₀.sink ++ ms ∧ f.bytes = f₀.bytes ++ wireBytes ms ∧
    f'.sink = f₀.sink ++ ms.map (Message.rename γ) ∧ f'.bytes = f₀.bytes ++ wireBytes (ms.map (Message.rename γ)) ∧
    f'.nextSequence = f.nextSequence

section

variable {f₀ f f' : MarketDataPublisher}

theorem FeedAlike.refl (γ : ClientId → ClientId) (f₀ : MarketDataPublisher) : FeedAlike γ f₀ f₀ f₀ :=
  ⟨[], by simp [wireBytes, Wire.stream]⟩

/-- Both publish one more message. -/
theorem FeedAlike.push (h : FeedAlike γ f₀ f f') (m : Message) {g g' : MarketDataPublisher}
    (hsink : g.sink = f.sink ++ [m]) (hbytes : g.bytes = f.bytes ++ wireBytes [m])
    (hsink' : g'.sink = f'.sink ++ [m.rename γ]) (hbytes' : g'.bytes = f'.bytes ++ wireBytes [m.rename γ])
    (hseq : g'.nextSequence = g.nextSequence) : FeedAlike γ f₀ g g' := by
  obtain ⟨ms, hs, hb, hs', hb', -⟩ := h
  refine ⟨ms ++ [m], ?_, ?_, ?_, ?_, hseq⟩
  · rw [hsink, hs, List.append_assoc]
  · rw [hbytes, hb, wireBytes_append, List.append_assoc]
  · rw [hsink', hs', List.map_append, List.append_assoc]
    rfl
  · rw [hbytes', hb', List.map_append, wireBytes_append, List.append_assoc]
    rfl

theorem FeedAlike.nextSequence (h : FeedAlike γ f₀ f f') : f'.nextSequence = f.nextSequence := by
  obtain ⟨-, -, -, -, -, hseq⟩ := h
  exact hseq

theorem FeedAlike.publishTrade (h : FeedAlike γ f₀ f f') (symbol : SymbolId) (fill : Fill) :
    FeedAlike γ f₀ (f.publishTrade symbol fill) (f'.publishTrade symbol (fill.rename γ)) := by
  have hseq := h.nextSequence
  refine h.push _ rfl (congrArg _ (encode_trade _)) ?_ ?_ (congrArg (· + 1) hseq)
  · unfold MarketDataPublisher.publishTrade
    dsimp only
    rw [hseq]
    rfl
  · unfold MarketDataPublisher.publishTrade
    dsimp only
    rw [hseq, encode_trade]
    rfl

theorem FeedAlike.publishExecutionReport (h : FeedAlike γ f₀ f f') (msg : ExecutionReportMessage) :
    FeedAlike γ f₀ (f.publishExecutionReport msg)
      (f'.publishExecutionReport { msg with clientId := γ msg.clientId }) :=
  h.push _ rfl (congrArg _ (encode_report _)) rfl (congrArg _ (encode_report _)) h.nextSequence

theorem FeedAlike.publishLevelUpdate (h : FeedAlike γ f₀ f f') (symbol : SymbolId) (side : Side) (price : Int)
    {level level' : PriceLevel} (hlevel : LevelAlike level level') :
    FeedAlike γ f₀ (f.publishLevelUpdate symbol side price level) (f'.publishLevelUpdate symbol side price level') := by
  have hseq := h.nextSequence
  obtain ⟨htotal, hcount⟩ := hlevel
  refine h.push _ rfl (congrArg _ (encode_delta _)) ?_ ?_ (congrArg (· + 1) hseq)
  · unfold MarketDataPublisher.publishLevelUpdate
    dsimp only
    rw [hseq, htotal, hcount]
    rfl
  · unfold MarketDataPublisher.publishLevelUpdate
    dsimp only
    rw [hseq, htotal, hcount, encode_delta]
    rfl

end

/-! ### The replay engine -/

/-- The two engines are alike; since they published the same feed `f₀`, they have been alike. -/
structure Alike [DenseMap M OrderId Nat] [DenseMap X UInt64 ClientExposure] (γ : ClientId → ClientId)
    (f₀ : MarketDataPublisher) (s t : ReplayEngine P M X) : Prop where
  matching : MatchingAlike γ s.matching t.matching
  risk : RiskAlike γ s.risk t.risk
  feed : FeedAlike γ f₀ s.feed t.feed
  nextSequence : t.nextSequence = s.nextSequence

/-- The renamed message, at any time. -/
inductive EventAlike (γ : ClientId → ClientId) : Event → Event → Prop
  | newOrder (wire : NewOrderMessage) (ts ts' : Int) :
      EventAlike γ (.newOrder wire ts) (.newOrder { wire with clientId := γ wire.clientId } ts')
  | cancel (wire : CancelOrderMessage) :
      EventAlike γ (.cancel wire) (.cancel { wire with clientId := γ wire.clientId })
  | replace (wire : ReplaceOrderMessage) (ts ts' : Int) :
      EventAlike γ (.replace wire ts) (.replace { wire with clientId := γ wire.clientId } ts')
  | engageKillSwitch : EventAlike γ .engageKillSwitch .engageKillSwitch
  | disengageKillSwitch : EventAlike γ .disengageKillSwitch .disengageKillSwitch

section

variable [DenseMap M OrderId Nat] [DenseMap X UInt64 ClientExposure] {f₀ : MarketDataPublisher}
  {s t : ReplayEngine P M X}

theorem reportFills_rename (γ : ClientId → ClientId) (fills : List Fill) :
    ReplayEngine.reportFills (fills.map (Fill.rename γ)) = ReplayEngine.reportFills fills := by
  unfold ReplayEngine.reportFills
  rw [List.foldl_map]
  rfl

theorem Alike.publishReport (h : Alike γ f₀ s t) (id : OrderId) (client : ClientId) (symbol : SymbolId)
    (fills : List Fill) (leaves : Int) (execType : ExecType) (reason : RejectReason) :
    Alike γ f₀ (s.publishReport id client symbol fills leaves execType reason)
      (t.publishReport id (γ client) symbol (fills.map (Fill.rename γ)) leaves execType reason) := by
  refine ⟨h.matching, h.risk, ?_, h.nextSequence⟩
  unfold ReplayEngine.publishReport
  rw [reportFills_rename]
  exact h.feed.publishExecutionReport _

theorem Alike.publishLevel (h : Alike γ f₀ s t) (symbol : SymbolId) (side : Side) (price : Int) :
    Alike γ f₀ (s.publishLevel symbol side price) (t.publishLevel symbol side price) := by
  unfold ReplayEngine.publishLevel
  rcases h.matching.levelAt side price with hnone | hsome
  · rw [hnone.1, hnone.2]
    exact h
  · obtain ⟨l, l', hl, hl', hlevel⟩ := hsome
    rw [hl, hl']
    exact ⟨h.matching, h.risk, h.feed.publishLevelUpdate symbol side price hlevel, h.nextSequence⟩

theorem Alike.applyFills (h : Alike γ f₀ s t) (hγ : Function.Injective γ) (symbol : SymbolId) (fills : List Fill) :
    Alike γ f₀ (s.applyFills symbol fills) (t.applyFills symbol (fills.map (Fill.rename γ))) := by
  unfold ReplayEngine.applyFills
  induction fills generalizing s t with
  | nil => exact h
  | cons f fills ih =>
    have hrecorded := (h.risk.recordFill hγ f.restingClientId symbol (opposite f.aggressorSide) f.price
      f.quantity).recordFill hγ f.aggressorClientId symbol f.aggressorSide f.price f.quantity
    have hprinted : Alike γ f₀
        { s with feed := s.feed.publishTrade symbol f, risk := s.risk.recordFills symbol [f] }
        { t with feed := t.feed.publishTrade symbol (f.rename γ), risk := t.risk.recordFills symbol [f.rename γ] } :=
      ⟨h.matching, hrecorded, h.feed.publishTrade symbol f, h.nextSequence⟩
    exact ih (hprinted.publishLevel symbol (opposite f.aggressorSide) f.price)

theorem Alike.publishRest (h : Alike γ f₀ s t) (rested : Bool) (symbol : SymbolId) (side : Side) (price : Int) :
    Alike γ f₀ (s.publishRest rested symbol side price) (t.publishRest rested symbol side price) := by
  cases rested with
  | true => exact h.publishLevel symbol side price
  | false => exact h

theorem newOrderExecType_rename (γ : ClientId → ClientId) (res : NewOrderResult) (fills : List Fill) :
    ReplayEngine.newOrderExecType res (fills.map (Fill.rename γ)) = ReplayEngine.newOrderExecType res fills := by
  unfold ReplayEngine.newOrderExecType
  simp only [ne_eq, List.map_eq_nil_iff]

/-- A request does the same to alike engines. -/
def ProcessesAlike (γ : ClientId → ClientId) (f₀ : MarketDataPublisher)
    (a a' : Option (Option Submission × ReplayEngine P M X)) : Prop :=
  ∃ out out' s' t', a = some (out, s') ∧ a' = some (out', t') ∧
    (submissionFills out).map (Fill.rename γ) = submissionFills out' ∧ Alike γ f₀ s' t'

theorem Alike.processNewOrder (h : Alike γ f₀ s t) (hγ : Function.Injective γ) (wire : NewOrderMessage)
    (ts ts' : Int) :
    ProcessesAlike γ f₀ (s.processNewOrder wire ts)
      (t.processNewOrder { wire with clientId := γ wire.clientId } ts') := by
  have horder : OrderAlike γ (s.orderOf wire ts) (t.orderOf { wire with clientId := γ wire.clientId } ts') := by
    unfold OrderAlike ReplayEngine.orderOf
    rw [h.nextSequence]
  have hcheck := h.risk.checkNewOrder horder
  have hseq : t.nextSequence + 1 = s.nextSequence + 1 := congrArg (· + 1) h.nextSequence
  unfold ReplayEngine.processNewOrder
  dsimp only
  rw [hcheck]
  by_cases hrisk : s.risk.checkNewOrder (s.orderOf wire ts) = .none
  · obtain ⟨res, e, e', fs, he, he', hmatching⟩ := h.matching.submit horder
    rw [if_neg (not_not.2 hrisk), if_neg (not_not.2 hrisk), he, he']
    refine ⟨_, _, _, _, rfl, rfl, rfl, ?_⟩
    rw [newOrderExecType_rename]
    have hanswered : Alike γ f₀ (s.sequenced e) (t.sequenced e') := ⟨hmatching, h.risk, h.feed, hseq⟩
    exact ((hanswered.applyFills hγ wire.symbolId fs).publishRest res.rested wire.symbolId wire.side
      wire.price).publishReport wire.orderId wire.clientId wire.symbolId fs ..
  · rw [if_pos hrisk, if_pos hrisk]
    refine ⟨_, _, _, _, rfl, rfl, rfl, ?_⟩
    have hcounted : Alike γ f₀ (s.sequenced s.matching) (t.sequenced t.matching) := ⟨h.matching, h.risk, h.feed, hseq⟩
    exact hcounted.publishReport wire.orderId wire.clientId wire.symbolId [] ..

theorem Alike.processCancel (h : Alike γ f₀ s t) (wire : CancelOrderMessage) :
    Alike γ f₀ (s.processCancel wire) (t.processCancel { wire with clientId := γ wire.clientId }) := by
  unfold ReplayEngine.processCancel
  dsimp only
  rcases h.matching.findNode wire.orderId with hnone | hsome
  · rw [hnone.1, hnone.2]
    exact h.publishReport wire.orderId wire.clientId wire.symbolId [] ..
  · obtain ⟨n, n', hn, hn', horder⟩ := hsome
    obtain ⟨hres, hmatching⟩ := h.matching.cancel wire.orderId
    rw [hn, hn']
    dsimp only
    rw [hres, horder]
    dsimp only
    have hcancelled : Alike γ f₀ { s with matching := (s.matching.cancel wire.orderId).2 }
        { t with matching := (t.matching.cancel wire.orderId).2 } := ⟨hmatching, h.risk, h.feed, h.nextSequence⟩
    by_cases hacc : (s.matching.cancel wire.orderId).1.accepted = true
    · rw [if_pos hacc, if_pos hacc]
      exact (hcancelled.publishLevel ..).publishReport wire.orderId _ _ [] ..
    · rw [if_neg hacc, if_neg hacc]
      exact hcancelled

theorem Alike.processReplace (h : Alike γ f₀ s t) (hγ : Function.Injective γ) (wire : ReplaceOrderMessage)
    (ts ts' : Int) :
    ProcessesAlike γ f₀ (s.processReplace wire ts)
      (t.processReplace { wire with clientId := γ wire.clientId } ts') := by
  have hseq : t.nextSequence + 1 = s.nextSequence + 1 := congrArg (· + 1) h.nextSequence
  unfold ReplayEngine.processReplace
  dsimp only
  rcases h.matching.findNode wire.orderId with hnone | hsome
  · rw [hnone.1, hnone.2]
    exact ⟨_, _, _, _, rfl, rfl, rfl, h.publishReport wire.orderId wire.clientId wire.symbolId [] ..⟩
  · obtain ⟨n, n', hn, hn', horder⟩ := hsome
    obtain ⟨res, e, e', fs, he, he', hmatching⟩ :=
      h.matching.replace wire.orderId wire.newPrice wire.newQuantity s.nextSequence ts ts'
    rw [hn, hn']
    dsimp only
    rw [h.nextSequence, he, he', horder]
    dsimp only
    have hanswered : Alike γ f₀ (s.sequenced e) { t with nextSequence := s.nextSequence + 1, matching := e' } :=
      ⟨hmatching, h.risk, h.feed, rfl⟩
    cases hacc : res.accepted with
    | false =>
      refine ⟨_, _, _, _, rfl, rfl, rfl, ?_⟩
      exact hanswered.publishReport wire.orderId _ _ [] ..
    | true =>
      refine ⟨_, _, _, _, rfl, rfl, rfl, ?_⟩
      simp only [ne_eq, List.map_eq_nil_iff]
      exact (((hanswered.applyFills hγ _ fs).publishLevel ..).publishRest res.rested ..).publishReport wire.orderId _ _
        fs ..

theorem Alike.process (h : Alike γ f₀ s t) (hγ : Function.Injective γ) {ev ev' : Event} (hev : EventAlike γ ev ev') :
    ProcessesAlike γ f₀ (s.process ev) (t.process ev') := by
  cases hev with
  | newOrder wire ts ts' => exact h.processNewOrder hγ wire ts ts'
  | cancel wire => exact ⟨_, _, _, _, rfl, rfl, rfl, h.processCancel wire⟩
  | replace wire ts ts' => exact h.processReplace hγ wire ts ts'
  | engageKillSwitch =>
    exact ⟨_, _, _, _, rfl, rfl, rfl, h.matching, ⟨h.risk.limits, rfl, h.risk.exposure⟩, h.feed, h.nextSequence⟩
  | disengageKillSwitch =>
    exact ⟨_, _, _, _, rfl, rfl, rfl, h.matching, ⟨h.risk.limits, rfl, h.risk.exposure⟩, h.feed, h.nextSequence⟩

/-- Alike engines stay alike, with alike fills in every request. -/
theorem Alike.run (h : Alike γ f₀ s t) (hγ : Function.Injective γ) {events events' : List Event}
    (hevents : List.Forall₂ (EventAlike γ) events events') :
    ∃ outs outs' s' t', runAll ReplayEngine.process s events = some (outs, s') ∧
      runAll ReplayEngine.process t events' = some (outs', t') ∧
      outs'.map submissionFills = outs.map (fun out => (submissionFills out).map (Fill.rename γ)) ∧
      Alike γ f₀ s' t' := by
  obtain ⟨outs, outs', s', t', hs, ht, hfills, hend⟩ := runAll_forall₂ (f := ReplayEngine.process)
    (g := ReplayEngine.process) (Alike γ f₀) (fun s t ev ev' hst hev => hst.process hγ hev) hevents s t h
  refine ⟨outs, outs', s', t', hs, ht, ?_, hend⟩
  have heq := List.forall₂_map_left_iff.2 (List.forall₂_map_right_iff.2 hfills)
  rw [List.forall₂_eq_eq_eq] at heq
  exact heq.symm

end

/-! ### Timestamps -/

/-- The same request, possibly at another time. -/
def Event.SameMessage : Event → Event → Prop
  | .newOrder wire _, .newOrder wire' _ => wire = wire'
  | .cancel wire, .cancel wire' => wire = wire'
  | .replace wire _, .replace wire' _ => wire = wire'
  | .engageKillSwitch, .engageKillSwitch => True
  | .disengageKillSwitch, .disengageKillSwitch => True
  | _, _ => False

theorem Event.SameMessage.alike {ev ev' : Event} (h : ev.SameMessage ev') : EventAlike id ev ev' := by
  cases ev <;> cases ev' <;> cases h
  · exact .newOrder _ _ _
  · exact .cancel _
  · exact .replace _ _ _
  · exact .engageKillSwitch
  · exact .disengageKillSwitch

theorem FeedAlike.bytes_eq {f₀ f f' : MarketDataPublisher} (h : FeedAlike id f₀ f f') : f'.bytes = f.bytes := by
  have hid : Message.rename id = id := by
    funext m
    cases m <;> rfl
  obtain ⟨ms, -, hbytes, -, hbytes', -⟩ := h
  rw [hbytes', hbytes, hid, List.map_id]

section

variable [DenseMap M OrderId Nat] [DenseMap X UInt64 ClientExposure]

/-- Two engines in one state, with a book that a run of calls has led to, are sent the same requests at any times.
After each of them both have published the same bytes, and have the same best prices, level totals, queues of ids, and
positions. -/
theorem published_untimed (symbol : SymbolId) (basePrice : Int) (calls : List Call) (risk : RiskEngine X)
    (feed : MarketDataPublisher) (nextSequence : Sequence) {events events' : List Event}
    (hsame : List.Forall₂ Event.SameMessage events events') :
    ∃ resps e, runAll MatchingEngine.call (MatchingEngine.new P M symbol basePrice) calls = some (resps, e) ∧
      ∀ n, ∃ outs outs' s t,
        runAll ReplayEngine.process
          { matching := e, risk := risk, feed := feed, nextSequence := nextSequence } (events.take n) = some (outs, s) ∧
        runAll ReplayEngine.process
          { matching := e, risk := risk, feed := feed, nextSequence := nextSequence } (events'.take n) =
            some (outs', t) ∧
        t.feed.bytes = s.feed.bytes ∧
        t.matching.book.bestBid = s.matching.book.bestBid ∧ t.matching.book.bestAsk = s.matching.book.bestAsk ∧
        (∀ side i,
          (t.matching.book.levelFor side i).totalQuantity = (s.matching.book.levelFor side i).totalQuantity ∧
          (t.matching.book.levelFor side i).orderCount = (s.matching.book.levelFor side i).orderCount ∧
          (t.matching.book.fifo side i).map Order.id = (s.matching.book.fifo side i).map Order.id) ∧
        ∀ c sym, t.risk.position c sym = s.risk.position c sym ∧ t.risk.pnl c sym = s.risk.pnl c sym := by
  obtain ⟨resps, e, r, he, -, hR, -⟩ := run_sim (P := P) (M := M) symbol basePrice calls
  refine ⟨resps, e, he, ?_⟩
  intro n
  have halike := List.forall₂_take n (hsame.imp fun _ _ h => h.alike)
  have hstart : Alike id feed
      ({ matching := e, risk := risk, feed := feed, nextSequence := nextSequence } : ReplayEngine P M X)
      { matching := e, risk := risk, feed := feed, nextSequence := nextSequence } :=
    ⟨.refl hR, .refl risk, .refl id feed, rfl⟩
  obtain ⟨outs, outs', s, t, hs, ht, -, hend⟩ := hstart.run Function.injective_id halike
  obtain ⟨hbid, hask⟩ := hend.matching.best
  refine ⟨outs, outs', s, t, hs, ht, hend.feed.bytes_eq, hbid, hask, ?_, ?_⟩
  · intro side i
    obtain ⟨⟨htotal, hcount⟩, hids⟩ := hend.matching.level side i
    exact ⟨htotal, hcount, hids⟩
  · intro c sym
    exact ⟨hend.risk.position c sym, hend.risk.pnl c sym⟩

end

theorem published_untimed_trade :
    ∃ outs outs' s t,
      runAll ReplayEngine.process
        (ReplayEngine.new 7 100 (RiskEngine.new looseLimits) : ReplayEngine tinyParams IdMap ExposureMap)
        [.newOrder (limitDay 1 1 .buy 101 5) 1, .newOrder (limitDay 2 2 .sell 101 3) 2] = some (outs, s) ∧
      runAll ReplayEngine.process
        (ReplayEngine.new 7 100 (RiskEngine.new looseLimits) : ReplayEngine tinyParams IdMap ExposureMap)
        [.newOrder (limitDay 1 1 .buy 101 5) 90, .newOrder (limitDay 2 2 .sell 101 3) (-4)] = some (outs', t) ∧
      t.feed.bytes = s.feed.bytes := by
  have hsame : List.Forall₂ Event.SameMessage
      [.newOrder (limitDay 1 1 .buy 101 5) 1, .newOrder (limitDay 2 2 .sell 101 3) 2]
      [.newOrder (limitDay 1 1 .buy 101 5) 90, .newOrder (limitDay 2 2 .sell 101 3) (-4)] :=
    .cons rfl (.cons rfl .nil)
  obtain ⟨resps, e, he, hall⟩ := published_untimed (P := tinyParams) (M := IdMap) 7 100 []
    (RiskEngine.new looseLimits : RiskEngine ExposureMap) {} 1 hsame
  cases he
  obtain ⟨outs, outs', s, t, hs, ht, hbytes, -⟩ := hall 2
  exact ⟨outs, outs', s, t, hs, ht, hbytes⟩

/-! ### Clients -/

def Event.rename (γ : ClientId → ClientId) : Event → Event
  | .newOrder wire ts => .newOrder { wire with clientId := γ wire.clientId } ts
  | .cancel wire => .cancel { wire with clientId := γ wire.clientId }
  | .replace wire ts => .replace { wire with clientId := γ wire.clientId } ts
  | .engageKillSwitch => .engageKillSwitch
  | .disengageKillSwitch => .disengageKillSwitch

theorem Event.alike_rename (γ : ClientId → ClientId) (ev : Event) : EventAlike γ ev (ev.rename γ) := by
  cases ev with
  | newOrder wire ts => exact .newOrder wire ts ts
  | cancel wire => exact .cancel wire
  | replace wire ts => exact .replace wire ts ts
  | engageKillSwitch => exact .engageKillSwitch
  | disengageKillSwitch => exact .disengageKillSwitch

/-- The public messages are not renamed. -/
theorem filter_rename (γ : ClientId → ClientId) (ms : List Message) :
    (ms.map (Message.rename γ)).filter (fun m => m.report?.isNone) = ms.filter fun m => m.report?.isNone := by
  induction ms with
  | nil => rfl
  | cons m ms ih =>
    rw [List.map_cons, List.filter_cons, List.filter_cons, ih]
    cases m <;> rfl

section

variable [DenseMap M OrderId Nat] [DenseMap X UInt64 ClientExposure]

/-- Renaming the clients in all requests of a run from the empty state: the same trades and book deltas are published,
in the same order, and the execution reports differ only in their client ids.  Every request has the renamed fills,
and every account of the one run is the renamed client's account of the other. -/
theorem market_data_anonymous (hγ : Function.Injective γ) (symbol : SymbolId) (basePrice : Int) (limits : Limits)
    (events : List Event) :
    ∃ outs outs' s t,
      runAll ReplayEngine.process
        (ReplayEngine.new symbol basePrice (RiskEngine.new limits) : ReplayEngine P M X) events = some (outs, s) ∧
      runAll ReplayEngine.process
        (ReplayEngine.new symbol basePrice (RiskEngine.new limits) : ReplayEngine P M X) (events.map (Event.rename γ)) =
          some (outs', t) ∧
      s.feed.bytes = wireBytes s.feed.sink ∧ t.feed.bytes = wireBytes t.feed.sink ∧
      t.feed.sink = s.feed.sink.map (Message.rename γ) ∧
      (t.feed.sink.filter fun m => m.report?.isNone) = s.feed.sink.filter (fun m => m.report?.isNone) ∧
      outs'.map submissionFills = outs.map (fun out => (submissionFills out).map (Fill.rename γ)) ∧
      ∀ c sym, t.risk.position (γ c) sym = s.risk.position c sym ∧ t.risk.pnl (γ c) sym = s.risk.pnl c sym := by
  have halike : List.Forall₂ (EventAlike γ) events (events.map (Event.rename γ)) :=
    List.forall₂_map_right_iff.2 (List.forall₂_same.2 fun ev _ => ev.alike_rename γ)
  have hstart : Alike γ {} (ReplayEngine.new symbol basePrice (RiskEngine.new limits) : ReplayEngine P M X)
      (ReplayEngine.new symbol basePrice (RiskEngine.new limits)) := by
    refine ⟨⟨_, _, refines_new symbol basePrice, refines_new symbol basePrice, rfl⟩, ⟨rfl, rfl, ?_⟩, .refl γ {}, rfl⟩
    intro c sym
    exact (find_empty _).trans (find_empty _).symm
  obtain ⟨outs, outs', s, t, hs, ht, hfills, hend⟩ := hstart.run hγ halike
  obtain ⟨ms, hsink, hbytes, hsink', hbytes', -⟩ := hend.feed
  rw [List.nil_append] at hsink hbytes hsink' hbytes'
  refine ⟨outs, outs', s, t, hs, ht, ?_, ?_, ?_, ?_, hfills, ?_⟩
  · rw [hbytes, hsink]
  · rw [hbytes', hsink']
  · rw [hsink', hsink]
  · rw [hsink', hsink, filter_rename]
  · intro c sym
    exact ⟨hend.risk.position c sym, hend.risk.pnl c sym⟩

end

theorem market_data_anonymous_trade :
    ∃ outs outs' s t,
      runAll ReplayEngine.process
        (ReplayEngine.new 7 100 (RiskEngine.new looseLimits) : ReplayEngine tinyParams IdMap ExposureMap)
        [.newOrder (limitDay 1 1 .buy 101 5) 1, .newOrder (limitDay 2 2 .sell 101 3) 2] = some (outs, s) ∧
      runAll ReplayEngine.process
        (ReplayEngine.new 7 100 (RiskEngine.new looseLimits) : ReplayEngine tinyParams IdMap ExposureMap)
        [.newOrder (limitDay 1 2 .buy 101 5) 1, .newOrder (limitDay 2 3 .sell 101 3) 2] = some (outs', t) ∧
      (t.feed.sink.filter fun m => m.report?.isNone) = s.feed.sink.filter fun m => m.report?.isNone := by
  have hγ : Function.Injective fun c : ClientId => c + 1 := by
    intro c c' h
    simpa using h
  obtain ⟨outs, outs', s, t, hs, ht, -, -, -, hpublic, -⟩ :=
    market_data_anonymous (P := tinyParams) (M := IdMap) (X := ExposureMap) hγ 7 100 looseLimits
      [.newOrder (limitDay 1 1 .buy 101 5) 1, .newOrder (limitDay 2 2 .sell 101 3) 2]
  exact ⟨outs, outs', s, t, hs, ht, hpublic⟩

end Exchange
