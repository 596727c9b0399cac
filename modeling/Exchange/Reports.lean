import Exchange.Publication
import Exchange.Replacement

/-!
# Execution reports

Every request is answered by one execution report, after its market data.  The report accounts for the trades of the
request and for what is left of its quantity.
-/

namespace Exchange

open OrderBook DenseMap

/-- The report is about the order `id` and sums up the trades. -/
structure ReportsTrades (id : OrderId) (trades : List TradeMessage) (rep : ExecutionReportMessage) : Prop where
  orderId : rep.orderId = id
  lastQuantity : rep.lastQuantity = (trades.map TradeMessage.quantity).sum
  matchId : rep.matchId = trades.getLast?.elim 0 TradeMessage.matchId
  price : rep.price = trades.getLast?.elim 0 TradeMessage.price

/-- Trades that are the prints of the fills have their quantities, and their last print. -/
private theorem trades_of_prints {trades : List TradeMessage} {fills : List Fill}
    (h : trades.map TradeMessage.print = fills.map Fill.print) :
    trades.map TradeMessage.quantity = fills.map Fill.quantity ∧
      trades.getLast?.elim 0 TradeMessage.matchId = fills.getLast?.elim 0 Fill.matchId ∧
      trades.getLast?.elim 0 TradeMessage.price = fills.getLast?.elim 0 Fill.price := by
  have hquantity := congrArg (List.map Print.quantity) h
  have hlast := congrArg List.getLast? h
  rw [List.map_map, List.map_map] at hquantity
  rw [List.getLast?_map, List.getLast?_map] at hlast
  refine ⟨hquantity, ?_⟩
  cases ht : trades.getLast? with
  | none =>
    rw [ht, Option.map_none] at hlast
    rw [Option.map_eq_none_iff.1 hlast.symm]
    exact ⟨rfl, rfl⟩
  | some t =>
    rw [ht, Option.map_some] at hlast
    obtain ⟨f, hf, hprint⟩ := Option.map_eq_some_iff.1 hlast.symm
    rw [hf]
    exact ⟨(congrArg Print.matchId hprint).symm, (congrArg Print.price hprint).symm⟩

section

variable {P : Params} {M X : Type} [DenseMap M OrderId Nat] {Q : Int → Prop} {s s' : ReplayEngine P M X} {ev : Event}
  {id : OrderId} {fills : List Fill} {ms : List Message} {rep : ExecutionReportMessage}

theorem Answers.reportsTrades (h : Answers Q s s' ev id fills ms rep) :
    ReportsTrades id (ms.filterMap Message.trade?) rep := by
  have hprints : prints ms = fills.map Fill.print := by
    rw [← h.appends.trades, prints_append]
    exact (List.append_nil _).symm
  obtain ⟨hquantity, hmatch, hprice⟩ := trades_of_prints hprints
  exact ⟨h.orderId, by rw [hquantity, h.lastQuantity], by rw [hmatch, h.matchId], by rw [hprice, h.price]⟩

/-- The one report of a request is the only one to look at. -/
theorem Answers.report_iff (h : Answers Q s s' ev id fills ms rep) (C : ExecutionReportMessage → Prop) :
    (∀ rep', Message.executionReport rep' ∈ s'.feed.sink.drop s.feed.sink.length → C rep') ↔ C rep := by
  have hdrop : s'.feed.sink.drop s.feed.sink.length = ms ++ [.executionReport rep] := by
    rw [h.appends.sink, List.drop_left]
  rw [hdrop]
  constructor
  · intro hall
    exact hall rep (by simp)
  · intro hrep rep' hmem
    rcases List.mem_append.1 hmem with hin | hlast
    · cases h.marketData.others _ hin
    · cases List.mem_singleton.1 hlast
      exact hrep

/-- A replace that matching accepts is one that goes through. -/
theorem exists_replaces_of_accepted {wire : ReplaceOrderMessage} {seq : Sequence} {ts : Int} {res : ReplaceResult}
    {e' : MatchingEngine P M} {out fills : List Fill}
    (h : s.matching.replace wire.orderId wire.newPrice wire.newQuantity seq ts out = some (res, e', fills))
    (hacc : res.accepted = true) : ∃ n, s.Replaces wire n := by
  by_contra hnot
  have hbad : ¬ Replaceable s.matching wire.orderId wire.newPrice wire.newQuantity := by
    intro hok
    obtain ⟨n, hn⟩ := Option.isSome_iff_exists.1 hok.found
    exact hnot ⟨n, hn, hok.quantity, hok.price⟩
  obtain ⟨res', hres', hrefused⟩ := replace_refused hbad seq ts out
  rw [h] at hres'
  cases hres'
  rw [hacc] at hrefused
  cases hrefused

end

/-- One report per request: after any run, a request publishes some market data and then one execution report for its
order.  The report sums up the trades of the request, and together with what it says is left they make up the quantity
of a new order and of a replace that matching accepts. -/
theorem one_report_per_request {P : Params} {M X : Type} [DenseMap M OrderId Nat] [DenseMap X UInt64 ClientExposure]
    (symbol : SymbolId) (basePrice : Int) (risk : RiskEngine X) (events : List Event) (ev : Event) (id : OrderId)
    (hid : ev.orderId? = some id) :
    ∃ outs s out s' ms rep,
      runAll ReplayEngine.process (ReplayEngine.new (P := P) (M := M) symbol basePrice risk) events = some (outs, s) ∧
      s.process ev = some (out, s') ∧
      s'.feed.sink = s.feed.sink ++ (ms ++ [.executionReport rep]) ∧
      s'.feed.bytes = s.feed.bytes ++ wireBytes (ms ++ [.executionReport rep]) ∧
      (∀ m ∈ ms, m.report? = none) ∧
      ReportsTrades id (ms.filterMap Message.trade?) rep ∧
      (∀ wire ts, ev = .newOrder wire ts → rep.lastQuantity + rep.leavesQuantity = wire.quantity) ∧
      (∀ wire ts res e' fills, ev = .replace wire ts →
        s.matching.replace wire.orderId wire.newPrice wire.newQuantity s.nextSequence ts [] = some (res, e', fills) →
        res.accepted = true → rep.lastQuantity + rep.leavesQuantity = wire.newQuantity) := by
  obtain ⟨outs, s, r, hrun, hR, -⟩ := process_run (P := P) (M := M) (fun _ _ => True) (fun _ _ _ => trivial)
    symbol basePrice risk events trivial
  obtain ⟨out, s', r', hprocess, houtcome⟩ := process_outcome hR ev
  have hpriced : ev.Priced fun _ => True := by cases ev <;> trivial
  obtain ⟨ms, rep, hans⟩ := houtcome.answers (Q := fun _ => True) hR (fun _ _ => trivial) hpriced hid
  refine ⟨outs, s, out, s', ms, rep, hrun, hprocess, hans.appends.sink, hans.appends.bytes, hans.marketData.others,
    hans.reportsTrades, ?_, ?_⟩
  · intro wire ts hev
    subst hev
    exact hans.accounts
  · intro wire ts res e' fills hev hreplace hacc
    subst hev
    obtain ⟨n, hn⟩ := exists_replaces_of_accepted hreplace hacc
    exact hans.accounts.1 n hn

/-- A Buy of 5 that takes the 3 of a resting Sell is reported. -/
theorem one_report_per_request_partial_fill :
    ∃ outs s out s' ms rep,
      runAll ReplayEngine.process
        (ReplayEngine.new (P := tinyParams) (M := IdMap) 7 100 (RiskEngine.new looseLimits : RiskEngine ExposureMap))
        [.newOrder (limitDay 1 1 .sell 100 3) 0] = some (outs, s) ∧
      s.process (.newOrder (limitDay 2 2 .buy 100 5) 1) = some (out, s') ∧
      s'.feed.sink = s.feed.sink ++ (ms ++ [.executionReport rep]) ∧
      rep.lastQuantity + rep.leavesQuantity = 5 := by
  obtain ⟨outs, s, out, s', ms, rep, hrun, hprocess, hsink, -, -, -, hnew, -⟩ :=
    one_report_per_request (P := tinyParams) (M := IdMap) 7 100 (RiskEngine.new looseLimits : RiskEngine ExposureMap)
      [.newOrder (limitDay 1 1 .sell 100 3) 0] (.newOrder (limitDay 2 2 .buy 100 5) 1) 2 rfl
  exact ⟨outs, s, out, s', ms, rep, hrun, hprocess, hsink, hnew _ _ rfl⟩

end Exchange
