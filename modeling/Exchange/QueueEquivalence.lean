import Exchange.Refinement

/-!
# The queues are all that matters

What an engine does next depends on the queues of its levels and on nothing else: neither on the slots and the links
behind them, nor on the history that has led to them, nor on the hash map.  Two engines with the same queues answer
every further sequence of calls alike, apart from the number their match ids have reached.

The reference engine keeps its orders in one list.  `SameQueues` forgets how the queues of different levels are mixed
in it; every operation on the list keeps it.
-/

namespace Exchange

open OrderBook

/-- The same orders in the same order at every side and price. -/
def SameQueues (L L' : List Order) : Prop := ∀ s p, ordersAt s p L = ordersAt s p L'

section

variable {L L' : List Order}

/-! ### The list of resting orders -/

theorem SameQueues.mem_iff (h : SameQueues L L') (x : Order) : x ∈ L ↔ x ∈ L' := by
  have hclass : x ∈ ordersAt x.side x.price L ↔ x ∈ ordersAt x.side x.price L' := by rw [h]
  simpa [mem_ordersAt] using hclass

theorem SameQueues.perm (h : SameQueues L L') : L.Perm L' := by
  rw [List.perm_iff_count]
  intro x
  have hcount : ∀ l : List Order, (ordersAt x.side x.price l).count x = l.count x := by
    intro l
    unfold ordersAt
    rw [List.count_filter]
    simp
  rw [← hcount L, ← hcount L', h]

theorem SameQueues.filter (h : SameQueues L L') (q : Order → Bool) : SameQueues (L.filter q) (L'.filter q) := by
  intro s p
  have hcomm : ∀ l : List Order, ordersAt s p (l.filter q) = (ordersAt s p l).filter q := by
    intro l
    unfold ordersAt
    rw [List.filter_filter, List.filter_filter]
    exact List.filter_congr fun x _ => Bool.and_comm _ _
  rw [hcomm, hcomm, h]

/-- A fill does not move an order. -/
theorem ordersAt_reduceOrder_comm (s : Side) (p : Int) (id : OrderId) (q : Int) (L : List Order) :
    ordersAt s p (reduceOrder id q L) = reduceOrder id q (ordersAt s p L) := by
  unfold ordersAt reduceOrder
  rw [List.filter_filterMap, List.filterMap_filter]
  refine List.filterMap_congr fun x _ => ?_
  by_cases hx : x.side = s ∧ x.price = p
  · by_cases hid : x.id = id
    · by_cases hq : x.remaining = q <;> simp [hx, hid, hq]
    · simp [hx, hid]
  · by_cases hid : x.id = id
    · by_cases hq : x.remaining = q
      · simp [hid, hq]
      · simp [hid, hq, Option.filter, hx]
    · simp [hid, Option.filter, hx]

theorem SameQueues.reduceOrder (h : SameQueues L L') (id : OrderId) (q : Int) :
    SameQueues (reduceOrder id q L) (reduceOrder id q L') := by
  intro s p
  rw [ordersAt_reduceOrder_comm, ordersAt_reduceOrder_comm, h]

theorem SameQueues.append (h : SameQueues L L') (l : List Order) : SameQueues (L ++ l) (L' ++ l) := by
  intro s p
  have hsplit : ∀ l₁ l₂ : List Order, ordersAt s p (l₁ ++ l₂) = ordersAt s p l₁ ++ ordersAt s p l₂ :=
    fun l₁ l₂ => List.filter_append l₁ l₂
  rw [hsplit, hsplit, h]

/-- The acceptable orders of one rank are at one side and price. -/
theorem SameQueues.pick (h : SameQueues L L') (a : Order) : pick a L = pick a L' := by
  refine firstMin_congr_classes fun k => ?_
  have hclass : ∀ l : List Order, (l.filter (acceptable a)).filter (fun x => decide (rank a.side x = k)) =
      (ordersAt (opposite a.side) (if a.side = .buy then k else -k) l).filter (acceptable a) := by
    intro l
    unfold ordersAt
    rw [List.filter_filter, List.filter_filter]
    refine List.filter_congr fun x _ => ?_
    cases hacc : acceptable a x with
    | false => simp
    | true =>
      have hside : x.side = opposite a.side := of_decide_eq_true (Bool.and_eq_true_iff.1 hacc).1
      have hrank : rank a.side x = k ↔ x.price = if a.side = .buy then k else -k := by
        unfold rank
        split_ifs
        · rfl
        · omega
      simp [hside, hrank]
  rw [hclass, hclass, h]

theorem SameQueues.liquidity (h : SameQueues L L') (a : Order) : liquidity a L = liquidity a L' := by
  unfold Exchange.liquidity
  exact ((h.perm.filter _).map _).sum_eq

/-- With distinct ids there is at most one order to find. -/
theorem SameQueues.find? (h : SameQueues L L') (hids : DistinctIds L) (id : OrderId) :
    (L.find? fun o => decide (o.id = id)) = L'.find? fun o => decide (o.id = id) := by
  cases hfind' : L'.find? fun o => decide (o.id = id) with
  | none =>
    rw [List.find?_eq_none] at hfind' ⊢
    exact fun x hx => hfind' x ((h.mem_iff x).1 hx)
  | some y =>
    have hy := (h.mem_iff y).2 (List.mem_of_find?_eq_some hfind')
    have hyid : y.id = id := by simpa using List.find?_some hfind'
    cases hfind : L.find? fun o => decide (o.id = id) with
    | none => exact absurd hyid (by simpa using List.find?_eq_none.1 hfind y hy)
    | some x =>
      have hxid : x.id = id := by simpa using List.find?_some hfind
      rw [hids.eq_of_id (List.mem_of_find?_eq_some hfind) hy (hxid.trans hyid.symm)]

end

/-! ### The reference engine -/

/-- The fill with its match id moved by `d`. -/
def Fill.shift (d : UInt64) (f : Fill) : Fill := { f with matchId := f.matchId + d }

/-- The answer to a call with the match ids of its own fills moved by `d`; what the buffer held before stays. -/
def Response.shift (d : UInt64) : Call → Response → Response
  | .submit _ out, .submit res fills =>
    .submit res (fills.take out.length ++ (fills.drop out.length).map (Fill.shift d))
  | .replace _ _ _ _ _ out, .replace res fills =>
    .replace res (fills.take out.length ++ (fills.drop out.length).map (Fill.shift d))
  | _, resp => resp

namespace RefEngine

variable {P : Params} {r r' r₂ : RefEngine P} {d : UInt64}

/-- The same instrument and the same queues; the match ids of the second engine are ahead by `d`. -/
structure Alike (d : UInt64) (r r₂ : RefEngine P) : Prop where
  symbol : r₂.symbol = r.symbol
  basePrice : r₂.basePrice = r.basePrice
  queues : SameQueues r.resting r₂.resting
  nextMatchId : r₂.nextMatchId = r.nextMatchId + d

/-- The states of two match loops over the buffer `out`. -/
structure MatchAlike (d : UInt64) (out : List Fill) (st st₂ : MatchState (RefEngine P)) : Prop where
  aggressor : st₂.aggressor = st.aggressor
  engine : Alike d st.engine st₂.engine
  fills : ∃ fs, st.outFills = out ++ fs ∧ st₂.outFills = out ++ fs.map (Fill.shift d)

theorem Alike.afterFill (h : Alike d r r₂) (a o : Order) : Alike d (r.afterFill a o) (r₂.afterFill a o) where
  symbol := h.symbol
  basePrice := h.basePrice
  queues := h.queues.reduceOrder _ _
  nextMatchId := by
    show r₂.nextMatchId + 1 = r.nextMatchId + 1 + d
    rw [h.nextMatchId, UInt64.add_assoc, UInt64.add_assoc, UInt64.add_comm d]

theorem matchStep_alike {out : List Fill} (st st₂ : MatchState (RefEngine P)) (h : MatchAlike d out st st₂) :
    Iteration.Sim (MatchAlike d out) (matchStep st) (matchStep st₂) := by
  obtain ⟨a, r, fills⟩ := st
  obtain ⟨a₂, r₂, fills₂⟩ := st₂
  obtain ⟨haggressor, halike, fs, hfs, hfs₂⟩ := h
  dsimp only at haggressor halike hfs hfs₂
  subst haggressor hfs hfs₂
  unfold matchStep
  dsimp only
  rw [← halike.queues.pick]
  by_cases hpos : a₂.remaining > 0
  · rw [if_pos hpos, if_pos hpos]
    cases pick a₂ r.resting with
    | none => trivial
    | some o =>
      refine ⟨rfl, halike.afterFill a₂ o, fs ++ [fillOf r.nextMatchId a₂ o o.price (min a₂.remaining o.remaining)],
        by simp, ?_⟩
      simp [fillOf, Fill.shift, halike.nextMatchId]
  · rw [if_neg hpos, if_neg hpos]
    trivial

theorem Alike.inRange (h : Alike d r r₂) (p : Int) : r₂.InRange p ↔ r.InRange p := by
  unfold InRange
  rw [h.basePrice]

theorem Alike.canRest (h : Alike d r r₂) (o : Order) : r₂.CanRest o ↔ r.CanRest o := by
  unfold CanRest
  rw [h.inRange, h.queues.perm.length_eq]
  simp only [h.queues.mem_iff]

theorem Alike.restRemainder (h : Alike d r r₂) (o : Order) (res : NewOrderResult) :
    (r₂.restRemainder o res).1 = (r.restRemainder o res).1 ∧
      Alike d (r.restRemainder o res).2 (r₂.restRemainder o res).2 := by
  unfold RefEngine.restRemainder
  by_cases hday : o.remaining > 0 ∧ o.type = .limit ∧ o.tif = .day
  · rw [if_pos hday, if_pos hday]
    by_cases hrest : r.CanRest o
    · rw [if_pos hrest, if_pos ((h.canRest o).2 hrest)]
      exact ⟨rfl, h.symbol, h.basePrice, h.queues.append [o], h.nextMatchId⟩
    · rw [if_neg hrest, if_neg fun h' => hrest ((h.canRest o).1 h')]
      exact ⟨rfl, h⟩
  · rw [if_neg hday, if_neg hday]
    exact ⟨rfl, h⟩

theorem Alike.submit (h : Alike d r r₂) (hr : r.Valid) (o : Order) (out : List Fill) :
    ∃ res r' r₂' fs, r.submit o out = some (res, r', out ++ fs) ∧
      r₂.submit o out = some (res, r₂', out ++ fs.map (Fill.shift d)) ∧ Alike d r' r₂' := by
  unfold RefEngine.submit
  dsimp only
  rw [h.symbol, ← h.queues.liquidity]
  by_cases hsym : o.symbol ≠ r.symbol
  · rw [if_pos hsym, if_pos hsym]
    exact ⟨_, r, r₂, [], by rw [List.append_nil], by rw [List.map_nil, List.append_nil], h⟩
  rw [if_neg hsym, if_neg hsym]
  by_cases hq : o.quantity ≤ 0
  · rw [if_pos hq, if_pos hq]
    exact ⟨_, r, r₂, [], by rw [List.append_nil], by rw [List.map_nil, List.append_nil], h⟩
  rw [if_neg hq, if_neg hq]
  by_cases hfok : o.tif = .fok ∧ Exchange.liquidity o r.resting < o.quantity
  · rw [if_pos hfok, if_pos hfok]
    exact ⟨_, r, r₂, [], by rw [List.append_nil], by rw [List.map_nil, List.append_nil], h⟩
  rw [if_neg hfok, if_neg hfok]
  obtain ⟨fs, a, r₁, hmatch, -, -⟩ := matchAgainstBook_sweep hr o.fresh out
  have hsim : ∃ st₂, r₂.matchAgainstBook o.fresh out = some st₂ ∧
      MatchAlike d out { aggressor := a, engine := r₁, outFills := out ++ fs } st₂ :=
    runLoop_sim (MatchAlike d out) matchStep_alike _ { aggressor := o.fresh, engine := r, outFills := out } _ _
      ⟨rfl, h, [], by simp, by simp⟩ hmatch
  obtain ⟨⟨a₂, r₁₂, fills₂⟩, hmatch₂, haggressor, halike, fs', hfs, hfs₂⟩ := hsim
  dsimp only at haggressor halike hfs hfs₂
  obtain rfl := List.append_cancel_left hfs
  subst haggressor hfs₂
  have hlen : (out ++ fs.map (Fill.shift d)).length = (out ++ fs).length := by simp
  obtain ⟨hres, hrest⟩ := halike.restRemainder a₂
    { remainingAfter := o.quantity, fillCount := (out ++ fs).length - out.length }
  rw [hmatch, hmatch₂]
  dsimp only
  rw [hlen, hres]
  exact ⟨_, _, _, fs, rfl, rfl, hrest⟩

theorem Alike.cancel (h : Alike d r r₂) (id : OrderId) :
    (r₂.cancel id).1 = (r.cancel id).1 ∧ Alike d (r.cancel id).2 (r₂.cancel id).2 := by
  have hiff : (∃ o ∈ r₂.resting, o.id = id) ↔ ∃ o ∈ r.resting, o.id = id := by
    simp only [h.queues.mem_iff]
  unfold RefEngine.cancel
  by_cases hid : ∃ o ∈ r.resting, o.id = id
  · rw [if_pos hid, if_pos (hiff.2 hid)]
    exact ⟨rfl, h.symbol, h.basePrice, h.queues.filter _, h.nextMatchId⟩
  · rw [if_neg hid, if_neg fun h' => hid (hiff.1 h')]
    exact ⟨rfl, h⟩

theorem Alike.replace (h : Alike d r r₂) (hr : r.Valid) (id : OrderId) (p q : Int) (seq : Sequence) (ts : Int)
    (out : List Fill) :
    ∃ res r' r₂' fs, r.replace id p q seq ts out = some (res, r', out ++ fs) ∧
      r₂.replace id p q seq ts out = some (res, r₂', out ++ fs.map (Fill.shift d)) ∧ Alike d r' r₂' := by
  have hremoved : Alike d ({ r with resting := removeOrder id r.resting } : RefEngine P)
      { r₂ with resting := removeOrder id r₂.resting } :=
    ⟨h.symbol, h.basePrice, h.queues.filter _, h.nextMatchId⟩
  unfold RefEngine.replace
  rw [← h.queues.find? hr.ids]
  cases hfind : r.resting.find? fun o => decide (o.id = id) with
  | none => exact ⟨_, r, r₂, [], by rw [List.append_nil], by rw [List.map_nil, List.append_nil], h⟩
  | some existing =>
    dsimp only
    by_cases hq : q ≤ 0
    · rw [if_pos hq, if_pos hq]
      exact ⟨_, r, r₂, [], by rw [List.append_nil], by rw [List.map_nil, List.append_nil], h⟩
    rw [if_neg hq, if_neg hq]
    by_cases hp : r.InRange p
    · rw [if_neg (not_not.2 hp), if_neg (not_not.2 ((h.inRange p).2 hp))]
      obtain ⟨res, r', r₂', fs, hsubmit, hsubmit₂, halike⟩ :=
        hremoved.submit (hr.removeOrder id) (existing.replaced p q seq ts) out
      rw [hsubmit, hsubmit₂]
      exact ⟨_, r', r₂', fs, rfl, rfl, halike⟩
    · rw [if_pos hp, if_pos fun hp' => hp ((h.inRange p).1 hp')]
      exact ⟨_, r, r₂, [], by rw [List.append_nil], by rw [List.map_nil, List.append_nil], h⟩

theorem Alike.call (h : Alike d r r₂) (hr : r.Valid) (c : Call) :
    ∃ resp r' r₂', r.call c = some (resp, r') ∧ r₂.call c = some (resp.shift d c, r₂') ∧ Alike d r' r₂' := by
  cases c with
  | submit o out =>
    obtain ⟨res, r', r₂', fs, hsubmit, hsubmit₂, halike⟩ := h.submit hr o out
    refine ⟨.submit res (out ++ fs), r', r₂', by rw [RefEngine.call, hsubmit]; rfl, ?_, halike⟩
    rw [RefEngine.call, hsubmit₂]
    simp [Response.shift]
  | cancel id =>
    obtain ⟨hres, halike⟩ := h.cancel id
    refine ⟨.cancel (r.cancel id).1, (r.cancel id).2, (r₂.cancel id).2, rfl, ?_, halike⟩
    rw [RefEngine.call, hres]
    rfl
  | replace id p q seq ts out =>
    obtain ⟨res, r', r₂', fs, hreplace, hreplace₂, halike⟩ := h.replace hr id p q seq ts out
    refine ⟨.replace res (out ++ fs), r', r₂', by rw [RefEngine.call, hreplace]; rfl, ?_, halike⟩
    rw [RefEngine.call, hreplace₂]
    simp [Response.shift]

end RefEngine

/-! ### The engine -/

section

variable {P : Params} {M M₂ : Type} [DenseMap M OrderId Nat] [DenseMap M₂ OrderId Nat]
  {e : MatchingEngine P M} {e₂ : MatchingEngine P M₂} {r r₂ : RefEngine P}

/-- The queues of a book are those of its list of orders. -/
theorem Refines.sameQueues_iff (hR : Refines e r) (hR₂ : Refines e₂ r₂) (hbase : r₂.basePrice = r.basePrice) :
    SameQueues r.resting r₂.resting ↔ ∀ s i, e.book.fifo s i = e₂.book.fifo s i := by
  have hprice : ∀ i, e₂.book.priceAt i = e.book.priceAt i := by
    intro i
    unfold OrderBook.priceAt
    rw [hR.basePrice, hR₂.basePrice, hbase]
  constructor
  · intro h s i
    rw [hR.holds.fifo, hR₂.holds.fifo, hprice, h]
  · intro h s p
    by_cases hp : ∃ i, p = e.book.priceAt i
    · obtain ⟨i, rfl⟩ := hp
      have hfifo := h s i
      rwa [hR.holds.fifo, hR₂.holds.fifo, hprice] at hfifo
    · -- no order is priced off the ladder
      have hnone : ordersAt s p r.resting = [] := List.eq_nil_iff_forall_not_mem.2 fun x hx => by
        obtain ⟨hmem, -, hxp⟩ := mem_ordersAt.1 hx
        obtain ⟨i, -, hi⟩ := hR.holds.price hmem
        exact hp ⟨i, hxp.symm.trans hi⟩
      have hnone₂ : ordersAt s p r₂.resting = [] := List.eq_nil_iff_forall_not_mem.2 fun x hx => by
        obtain ⟨hmem, -, hxp⟩ := mem_ordersAt.1 hx
        obtain ⟨i, -, hi⟩ := hR₂.holds.price hmem
        exact hp ⟨i, (hxp.symm.trans hi).trans (hprice i)⟩
      rw [hnone, hnone₂]

/-- Engines for one instrument with the same queues answer alike. -/
theorem Refines.run_alike {d : UInt64} (hR : Refines e r) (hR₂ : Refines e₂ r₂) (halike : RefEngine.Alike d r r₂)
    (calls : List Call) :
    ∃ resps e' e₂', runAll MatchingEngine.call e calls = some (resps, e') ∧
      runAll MatchingEngine.call e₂ calls = some (List.zipWith (Response.shift d) calls resps, e₂') ∧
      ∀ s i, e'.book.fifo s i = e₂'.book.fifo s i := by
  have hstep : ∀ (e : MatchingEngine P M) (e₂ : MatchingEngine P M₂) (c : Call),
      (∃ r r₂, Refines e r ∧ Refines e₂ r₂ ∧ RefEngine.Alike d r r₂) →
      ∃ resp e' e₂', e.call c = some (resp, e') ∧ e₂.call c = some (resp.shift d c, e₂') ∧
        ∃ r r₂, Refines e' r ∧ Refines e₂' r₂ ∧ RefEngine.Alike d r r₂ := by
    rintro e e₂ c ⟨r, r₂, hR, hR₂, halike⟩
    obtain ⟨resp, r', r₂', hcall, hcall₂, halike'⟩ := halike.call hR.valid c
    obtain ⟨_, e', _, he, hr, hR', -⟩ := call_sim hR c
    obtain ⟨_, e₂', _, he₂, hr₂, hR₂', -⟩ := call_sim hR₂ c
    rw [hcall] at hr
    rw [hcall₂] at hr₂
    cases hr
    cases hr₂
    exact ⟨resp, e', e₂', he, he₂, r', r₂', hR', hR₂', halike'⟩
  obtain ⟨resps, e', e₂', hrun, hrun₂, r', r₂', hR', hR₂', halike'⟩ :=
    runAll_sim_zipWith _ (Response.shift d) hstep calls e e₂ ⟨r, r₂, hR, hR₂, halike⟩
  exact ⟨resps, e', e₂', hrun, hrun₂, (hR'.sameQueues_iff hR₂' halike'.basePrice).1 halike'.queues⟩

end

/-- Two engines for one instrument, each after any calls and with any hash map, that show the same queues give the
same answers to all further calls and still show the same queues; only their match ids differ, by the constant they
differ by already. -/
theorem queues_determine_answers {P : Params} {M M₂ : Type} [DenseMap M OrderId Nat] [DenseMap M₂ OrderId Nat]
    (symbol : SymbolId) (basePrice : Int) (history history₂ calls : List Call) :
    ∃ past e past₂ e₂,
      runAll MatchingEngine.call (MatchingEngine.new P M symbol basePrice) history = some (past, e) ∧
      runAll MatchingEngine.call (MatchingEngine.new P M₂ symbol basePrice) history₂ = some (past₂, e₂) ∧
      ((∀ s i, e.book.fifo s i = e₂.book.fifo s i) →
        ∃ resps e' e₂', runAll MatchingEngine.call e calls = some (resps, e') ∧
          runAll MatchingEngine.call e₂ calls =
            some (List.zipWith (Response.shift (e₂.nextMatchId - e.nextMatchId)) calls resps, e₂') ∧
          ∀ s i, e'.book.fifo s i = e₂'.book.fifo s i) := by
  obtain ⟨past, e, r, he, -, hR, hsymbol, hbase⟩ := run_sim (P := P) (M := M) symbol basePrice history
  obtain ⟨past₂, e₂, r₂, he₂, -, hR₂, hsymbol₂, hbase₂⟩ := run_sim (P := P) (M := M₂) symbol basePrice history₂
  refine ⟨past, e, past₂, e₂, he, he₂, fun hfifo => ?_⟩
  have hbases : r₂.basePrice = r.basePrice := hbase₂.trans hbase.symm
  have hids : r₂.nextMatchId = r.nextMatchId + (e₂.nextMatchId - e.nextMatchId) := by
    rw [← hR.nextMatchId, ← hR₂.nextMatchId, UInt64.add_comm, UInt64.sub_add_cancel]
  exact hR.run_alike hR₂
    ⟨hsymbol₂.trans hsymbol.symm, hbases, (hR.sameQueues_iff hR₂ hbases).2 hfifo, hids⟩ calls

/-! ### Cancelling everything -/

section

variable {P : Params} {M : Type} [DenseMap M OrderId Nat] {e : MatchingEngine P M} {r : RefEngine P}

theorem RefEngine.cancel_resting (r : RefEngine P) (id : OrderId) :
    (r.cancel id).2 = { r with resting := removeOrder id r.resting } := by
  unfold RefEngine.cancel
  split_ifs with hid
  · rfl
  · have hne : ∀ x ∈ r.resting, x.id ≠ id := fun x hx hxid => hid ⟨x, hx, hxid⟩
    rw [removeOrder_of_ne hne]

theorem Refines.cancel_all (hR : Refines e r) (ids : List OrderId) :
    ∃ resps e', runAll MatchingEngine.call e (ids.map .cancel) = some (resps, e') ∧
      Refines e' { r with resting := r.resting.filter fun o => decide (o.id ∉ ids) } := by
  induction ids generalizing e r with
  | nil => exact ⟨[], e, rfl, by simpa using hR⟩
  | cons id ids ih =>
    have hstep := (cancel_sim hR id).2
    rw [RefEngine.cancel_resting] at hstep
    obtain ⟨resps, e', hrun, hR'⟩ := ih hstep
    refine ⟨_, e', by rw [List.map_cons, runAll_cons rfl, hrun]; rfl, ?_⟩
    have hfilter : (removeOrder id r.resting).filter (fun o => decide (o.id ∉ ids)) =
        r.resting.filter fun o => decide (o.id ∉ id :: ids) := by
      unfold removeOrder
      rw [List.filter_filter]
      refine List.filter_congr fun x _ => ?_
      simp [Bool.and_comm]
    rw [← hfilter]
    exact hR'

end

/-- Cancelling the resting orders of an engine, in any order and among other cancels, makes it as good as new: no
order, no best price, no entry of the id map and no slot of the pool is left, and all further calls are answered as by
a new engine, apart from the match ids, which go on. -/
theorem emptied_engine_is_new {P : Params} {M : Type} [DenseMap M OrderId Nat] (symbol : SymbolId) (basePrice : Int)
    (history : List Call) :
    ∃ past e, runAll MatchingEngine.call (MatchingEngine.new P M symbol basePrice) history = some (past, e) ∧
      ∀ ids : List OrderId, (∀ id, (e.book.findNode id).isSome → id ∈ ids) →
        ∃ resps e', runAll MatchingEngine.call e (ids.map .cancel) = some (resps, e') ∧
          e'.book.orderCount = 0 ∧ e'.book.pool.liveCount = 0 ∧ (∀ id, e'.book.findNode id = none) ∧
          e'.book.bestBid = none ∧ e'.book.bestAsk = none ∧
          ∀ calls, ∃ resps₁ e₁ e₂,
            runAll MatchingEngine.call (MatchingEngine.new P M symbol basePrice) calls = some (resps₁, e₁) ∧
            runAll MatchingEngine.call e' calls =
              some (List.zipWith (Response.shift (e'.nextMatchId - 1)) calls resps₁, e₂) ∧
            ∀ s i, e₁.book.fifo s i = e₂.book.fifo s i := by
  obtain ⟨past, e, r, he, -, hR, hsymbol, hbase⟩ := run_sim (P := P) (M := M) symbol basePrice history
  refine ⟨past, e, he, fun ids hids => ?_⟩
  obtain ⟨resps, e', hrun, hR'⟩ := hR.cancel_all ids
  have hnil : r.resting.filter (fun o => decide (o.id ∉ ids)) = [] := List.filter_eq_nil_iff.2 fun x hx => by
    obtain ⟨n, hn, -⟩ := hR.holds.exists_node hx
    simpa using hids x.id (by rw [hn]; rfl)
  rw [hnil] at hR'
  have hbest : ∀ s, e'.book.bestIndexFor s = none := by
    intro s
    cases hs : e'.book.bestIndexFor s with
    | none => rfl
    | some i =>
      obtain ⟨n, -, hmem, -⟩ := hR'.holds.best_some hs
      exact absurd (mem_ordersAt.1 hmem).1 List.not_mem_nil
  refine ⟨resps, e', hrun, hR'.holds.orderCount, hR'.holds.liveCount,
    fun id => (hR'.holds.findNode_eq_none id).2 (by simp), ?_, ?_, fun calls => ?_⟩
  · exact congrArg (Option.map e'.book.priceAt) (hbest .buy)
  · exact congrArg (Option.map e'.book.priceAt) (hbest .sell)
  · refine (refines_new symbol basePrice).run_alike hR' ⟨hsymbol, hbase, fun s p => rfl, ?_⟩ calls
    rw [hR'.nextMatchId]
    show r.nextMatchId = 1 + (r.nextMatchId - 1)
    rw [UInt64.add_comm, UInt64.sub_add_cancel]

end Exchange
