import Exchange.MarketMaker
import Exchange.Lib.Wrapping
import Mathlib.Data.List.Nodup

/-!
# The orders of the market maker

Any sequence of calls of `on_tick` and `notify_order_gone`, with a log of what the market maker has sent and of which
orders have ended.  The orders it tracks are exactly the issued ones that have not ended, so none is left resting
without its knowledge; and its quotes are passive and do not cross each other.
-/

namespace Exchange

inductive MakerCall where
  | tick (bestBid bestAsk : Option Int) (inventory : Int)
  | gone (id : OrderId)

namespace SideAction

/-- The prices sent. -/
def prices (action : SideAction) : List Int :=
  (action.newOrder.map fun msg => msg.price).toList ++ (action.replace.map fun msg => msg.newPrice).toList

/-- The number of messages. -/
def messages (action : SideAction) : Nat :=
  action.newOrder.toList.length + action.replace.toList.length + action.cancel.toList.length

end SideAction

/-- The orders issued, those cancelled by a message, those reported gone while they were tracked, and the prices sent,
the newest first. -/
structure OrderLog where
  issued : List (Side × OrderId) := []
  cancelled : List OrderId := []
  gone : List OrderId := []
  sent : List (Side × OrderId × Int) := []

namespace OrderLog

/-- Enters the messages of one side. -/
def note (log : OrderLog) (side : Side) (action : SideAction) : OrderLog where
  issued := log.issued ++ (action.newOrder.map fun msg => (side, msg.orderId)).toList
  cancelled := log.cancelled ++ (action.cancel.map fun msg => msg.orderId).toList
  gone := log.gone
  sent := (action.newOrder.map fun msg => (side, msg.orderId, msg.price)).toList ++
    (action.replace.map fun msg => (side, msg.orderId, msg.newPrice)).toList ++ log.sent

def noteGone (log : OrderLog) (id : OrderId) : OrderLog := { log with gone := log.gone ++ [id] }

/-- The last price sent for an order. -/
def lastSent (log : OrderLog) (side : Side) (id : OrderId) : Option Int :=
  (log.sent.find? fun e => decide (e.1 = side ∧ e.2.1 = id)).map fun e => e.2.2

end OrderLog

/-- A market maker and the log of its calls. -/
structure Quoting where
  maker : MarketMaker
  log : OrderLog := {}

namespace Quoting

def call (q : Quoting) : MakerCall → Quoting
  | .tick bestBid bestAsk inventory =>
    let r := q.maker.onTick bestBid bestAsk inventory
    ⟨r.2, (q.log.note .buy r.1.bid).note .sell r.1.ask⟩
  | .gone id =>
    ⟨q.maker.notifyOrderGone id,
      if q.maker.bid.restingId = some id ∨ q.maker.ask.restingId = some id then q.log.noteGone id else q.log⟩

/-- After the calls. -/
def after (config : MarketMakerConfig) (firstOrderId : UInt64) (calls : List MakerCall) : Quoting :=
  calls.foldl call { maker := .new config firstOrderId }

/-- What every call keeps holds after any calls. -/
theorem after_rule (Inv : Quoting → Prop) {config : MarketMakerConfig} {first : UInt64}
    (hnew : Inv { maker := .new config first }) (hcall : ∀ q c, Inv q → Inv (q.call c)) (calls : List MakerCall) :
    Inv (after config first calls) := by
  unfold after
  generalize ({ maker := .new config first } : Quoting) = q at hnew
  induction calls generalizing q with
  | nil => exact hnew
  | cons c calls ih => exact ih (q.call c) (hcall q c hnew)

end Quoting

/-! ### Which orders are tracked -/

/-- The ids are issued in turn, starting with `first`; the tracked orders are the issued ones that have not ended. -/
structure Tracks (first : UInt64) (m : MarketMaker) (log : OrderLog) : Prop where
  next : m.nextOrderId = first + UInt64.ofNat log.issued.length
  ids : log.issued.map Prod.snd = (List.range log.issued.length).map fun i => first + UInt64.ofNat i
  ended : ∀ id, id ∈ log.cancelled ∨ id ∈ log.gone → id ∈ log.issued.map Prod.snd
  tracked : ∀ side id, (m.quote side).restingId = some id ↔
    (side, id) ∈ log.issued ∧ id ∉ log.cancelled ∧ id ∉ log.gone

section

variable {first : UInt64} {m m' : MarketMaker} {log : OrderLog} {side : Side} {target : Int} {allowed : Bool}
  {action : SideAction}

private theorem add_ofNat_inj {i j : Nat} (hi : i < 2 ^ 64) (hj : j < 2 ^ 64)
    (h : first + UInt64.ofNat i = first + UInt64.ofNat j) : i = j :=
  ofNat_inj_of_lt hi hj ((UInt64.add_right_inj first).1 h)

/-- The first `2 ^ 64` ids are distinct. -/
theorem Tracks.nodup (h : Tracks first m log) (hlen : log.issued.length ≤ 2 ^ 64) :
    (log.issued.map Prod.snd).Nodup := by
  rw [h.ids]
  refine List.Nodup.map_on ?_ List.nodup_range
  intro i hi j hj heq
  rw [List.mem_range] at hi hj
  exact add_ofNat_inj (by omega) (by omega) heq

/-- The next id has not been issued. -/
theorem Tracks.next_not_mem (h : Tracks first m log) (hlen : log.issued.length < 2 ^ 64) :
    m.nextOrderId ∉ log.issued.map Prod.snd := by
  rw [h.ids, h.next]
  intro hmem
  obtain ⟨i, hi, heq⟩ := List.mem_map.1 hmem
  rw [List.mem_range] at hi
  have := add_ofNat_inj (by omega) hlen heq
  omega

/-- An id belongs to one side. -/
theorem Tracks.side_eq (h : Tracks first m log) (hlen : log.issued.length ≤ 2 ^ 64) {s s' : Side} {id : OrderId}
    (hs : (s, id) ∈ log.issued) (hs' : (s', id) ∈ log.issued) : s = s' := by
  have heq := List.inj_on_of_nodup_map (h.nodup hlen) hs hs' rfl
  exact congrArg Prod.fst heq

/-- A fresh order is tracked from then on. -/
theorem Tracks.fresh (h : Tracks first m log) (hlen : log.issued.length < 2 ^ 64)
    (hnone : (m.quote side).restingId = none) :
    Tracks first ({ m with nextOrderId := m.nextOrderId + 1 }.setQuote side ⟨some m.nextOrderId, target⟩)
      (log.note side { newOrder := some (m.makeNewOrder side target) }) := by
  have hnew := h.next_not_mem hlen
  have hfresh : m.nextOrderId ∉ log.cancelled ∧ m.nextOrderId ∉ log.gone :=
    ⟨fun hc => hnew (h.ended _ (Or.inl hc)), fun hg => hnew (h.ended _ (Or.inr hg))⟩
  have hissued : (log.note side { newOrder := some (m.makeNewOrder side target) }).issued =
      log.issued ++ [(side, m.nextOrderId)] := rfl
  have hcancelled : (log.note side { newOrder := some (m.makeNewOrder side target) }).cancelled = log.cancelled :=
    List.append_nil _
  refine ⟨?_, ?_, ?_, ?_⟩
  · rw [MarketMaker.nextOrderId_setQuote, hissued, List.length_append, List.length_singleton, ← ofNat_add_one,
      ← UInt64.add_assoc, ← h.next]
  · rw [hissued, List.map_append, h.ids, List.length_append, List.length_singleton, List.range_succ, List.map_append,
      List.map_singleton, List.map_singleton, h.next]
  · intro id hid
    rw [hcancelled] at hid
    rw [hissued, List.map_append]
    exact List.mem_append_left _ (h.ended id hid)
  · intro s id
    rw [hissued, hcancelled]
    show _ ↔ _ ∧ _ ∧ id ∉ log.gone
    rw [List.mem_append, List.mem_singleton, Prod.mk.injEq]
    by_cases hs : s = side
    · subst hs
      rw [MarketMaker.quote_setQuote, Option.some.injEq]
      constructor
      · rintro rfl
        exact ⟨Or.inr ⟨rfl, rfl⟩, hfresh⟩
      · rintro ⟨hmem | ⟨-, rfl⟩, hopen⟩
        · -- it would have been tracked
          have := (h.tracked s id).2 ⟨hmem, hopen⟩
          rw [hnone] at this
          cases this
        · rfl
    · rw [MarketMaker.quote_setQuote_of_ne _ _ hs, MarketMaker.quote_nextOrderId, h.tracked]
      simp [hs]

/-- A cancelled order is not tracked any more. -/
theorem Tracks.pulled (h : Tracks first m log) (hlen : log.issued.length ≤ 2 ^ 64) {id : OrderId} {q : Quote}
    (hid : (m.quote side).restingId = some id) (hq : q.restingId = none) :
    Tracks first (m.setQuote side q) (log.note side { cancel := some (m.makeCancel id) }) := by
  obtain ⟨hmem, hopen⟩ := (h.tracked side id).1 hid
  have hissued : (log.note side { cancel := some (m.makeCancel id) }).issued = log.issued := List.append_nil _
  have hcancelled : (log.note side { cancel := some (m.makeCancel id) }).cancelled = log.cancelled ++ [id] := rfl
  refine ⟨?_, ?_, ?_, ?_⟩
  · rw [MarketMaker.nextOrderId_setQuote, hissued, h.next]
  · rw [hissued, h.ids]
  · intro id' hid'
    rw [hissued]
    rw [hcancelled, List.mem_append, List.mem_singleton] at hid'
    rcases hid' with (hid' | rfl) | hid'
    · exact h.ended id' (Or.inl hid')
    · exact List.mem_map_of_mem hmem
    · exact h.ended id' (Or.inr hid')
  · intro s id'
    rw [hissued, hcancelled]
    show _ ↔ _ ∧ _ ∧ id' ∉ log.gone
    rw [List.mem_append, List.mem_singleton, not_or]
    by_cases hs : s = side
    · subst hs
      rw [MarketMaker.quote_setQuote, hq]
      constructor
      · intro hc
        cases hc
      · rintro ⟨hmem', ⟨hc, hne⟩, hg⟩
        have := (h.tracked s id').2 ⟨hmem', hc, hg⟩
        rw [hid] at this
        exact absurd (Option.some.inj this).symm hne
    · rw [MarketMaker.quote_setQuote_of_ne _ _ hs, h.tracked]
      constructor
      · rintro ⟨hmem', hc, hg⟩
        refine ⟨hmem', ⟨hc, ?_⟩, hg⟩
        rintro rfl
        exact hs (h.side_eq hlen hmem' hmem)
      · rintro ⟨hmem', ⟨hc, -⟩, hg⟩
        exact ⟨hmem', hc, hg⟩

/-- Messages that issue and cancel nothing do not matter, nor does the price of a quote. -/
theorem Tracks.congr (h : Tracks first m log) {log' : OrderLog} (hnext : m'.nextOrderId = m.nextOrderId)
    (hquote : ∀ s, (m'.quote s).restingId = (m.quote s).restingId) (hissued : log'.issued = log.issued)
    (hcancelled : log'.cancelled = log.cancelled) (hgone : log'.gone = log.gone) : Tracks first m' log' := by
  refine ⟨?_, ?_, ?_, ?_⟩
  · rw [hnext, hissued, h.next]
  · rw [hissued, h.ids]
  · rw [hissued, hcancelled, hgone]
    exact h.ended
  · intro s id
    rw [hquote, hissued, hcancelled, hgone, h.tracked]

/-- One side of a tick. -/
theorem Tracks.requoted (h : Tracks first m log) (hr : m.Requoted side target allowed action m')
    (hlen : (log.note side action).issued.length ≤ 2 ^ 64) : Tracks first m' (log.note side action) := by
  cases hr with
  | fresh hnone =>
    have hissued : (log.note side { newOrder := some (m.makeNewOrder side target) }).issued.length =
        log.issued.length + 1 := List.length_append
    exact h.fresh (by omega) hnone
  | @moved id hid =>
    refine h.congr (by simp) (fun s => ?_) (List.append_nil _) (List.append_nil _) rfl
    by_cases hs : s = side
    · subst hs
      rw [MarketMaker.quote_setQuote, hid]
    · rw [MarketMaker.quote_setQuote_of_ne _ _ hs]
  | kept _ _ => exact h.congr rfl (fun _ => rfl) (List.append_nil _) (List.append_nil _) rfl
  | @pulled id hid =>
    have hissued : (log.note side { cancel := some (m.makeCancel id) }).issued = log.issued := List.append_nil _
    rw [hissued] at hlen
    exact h.pulled hlen hid rfl
  | out _ => exact h.congr rfl (fun _ => rfl) (List.append_nil _) (List.append_nil _) rfl

theorem Tracks.notifyOrderGone (h : Tracks first m log) (id : OrderId) :
    Tracks first (m.notifyOrderGone id)
      (if m.bid.restingId = some id ∨ m.ask.restingId = some id then log.noteGone id else log) := by
  have hrest : ∀ s id', ((m.notifyOrderGone id).quote s).restingId = some id' ↔
      (m.quote s).restingId = some id' ∧ id' ≠ id := by
    intro s id'
    rw [MarketMaker.quote_notifyOrderGone]
    split_ifs with hid
    · rw [hid]
      constructor
      · intro hc
        cases hc
      · rintro ⟨heq, hne⟩
        exact absurd (Option.some.inj heq).symm hne
    · constructor
      · intro heq
        refine ⟨heq, ?_⟩
        rintro rfl
        exact hid heq
      · exact And.left
  split_ifs with htracked
  · have hmem : id ∈ log.issued.map Prod.snd := by
      rcases htracked with hid | hid
      · exact List.mem_map_of_mem ((h.tracked .buy id).1 hid).1
      · exact List.mem_map_of_mem ((h.tracked .sell id).1 hid).1
    refine ⟨?_, h.ids, ?_, ?_⟩
    · rw [MarketMaker.nextOrderId_notifyOrderGone]
      exact h.next
    · intro id' hid'
      rcases hid' with hid' | hid'
      · exact h.ended id' (Or.inl hid')
      · rcases List.mem_append.1 hid' with hid' | hid'
        · exact h.ended id' (Or.inr hid')
        · rw [List.mem_singleton.1 hid']
          exact hmem
    · intro s id'
      rw [hrest, h.tracked]
      show _ ↔ _ ∧ _ ∧ id' ∉ log.gone ++ [id]
      rw [List.mem_append, List.mem_singleton, not_or]
      tauto
  · refine ⟨?_, h.ids, h.ended, ?_⟩
    · rw [MarketMaker.nextOrderId_notifyOrderGone]
      exact h.next
    · intro s id'
      rw [hrest, ← h.tracked]
      refine ⟨And.left, fun hid' => ⟨hid', ?_⟩⟩
      rintro rfl
      rw [not_or] at htracked
      cases s with
      | buy => exact htracked.1 hid'
      | sell => exact htracked.2 hid'

/-- A replace or cancel names the order tracked on its side, and there is at most one message. -/
theorem requoted_messages (hr : m.Requoted side target allowed action m') :
    (∀ msg, action.replace = some msg → (m.quote side).restingId = some msg.orderId) ∧
      (∀ msg, action.cancel = some msg → (m.quote side).restingId = some msg.orderId) ∧ action.messages ≤ 1 := by
  cases hr with
  | fresh _ => exact ⟨nofun, nofun, le_refl _⟩
  | moved hid =>
    refine ⟨?_, nofun, le_refl _⟩
    rintro _ ⟨⟩
    exact hid
  | kept _ _ => exact ⟨nofun, nofun, Nat.zero_le _⟩
  | pulled hid =>
    refine ⟨nofun, ?_, le_refl _⟩
    rintro _ ⟨⟩
    exact hid
  | out _ => exact ⟨nofun, nofun, Nat.zero_le _⟩

/-- The orders issued so far stay issued. -/
theorem issued_note_le (log : OrderLog) (side : Side) (action : SideAction) :
    log.issued.length ≤ (log.note side action).issued.length := by
  show _ ≤ (log.issued ++ _).length
  rw [List.length_append]
  exact Nat.le_add_right _ _

theorem Tracks.onTick (h : Tracks first m log) (bestBid bestAsk : Option Int) (inventory : Int)
    (hlen : ((log.note .buy (m.onTick bestBid bestAsk inventory).1.bid).note .sell
      (m.onTick bestBid bestAsk inventory).1.ask).issued.length ≤ 2 ^ 64) :
    Tracks first (m.onTick bestBid bestAsk inventory).2
      ((log.note .buy (m.onTick bestBid bestAsk inventory).1.bid).note .sell
        (m.onTick bestBid bestAsk inventory).1.ask) := by
  obtain ⟨m₁, hbid, hask⟩ := m.requoted_onTick bestBid bestAsk inventory
  exact (h.requoted hbid ((issued_note_le _ _ _).trans hlen)).requoted hask hlen

end

theorem tracks_after (config : MarketMakerConfig) (first : UInt64) (calls : List MakerCall)
    (hlen : (Quoting.after config first calls).log.issued.length ≤ 2 ^ 64) :
    Tracks first (Quoting.after config first calls).maker (Quoting.after config first calls).log := by
  refine Quoting.after_rule (fun q => q.log.issued.length ≤ 2 ^ 64 → Tracks first q.maker q.log) ?_ ?_ calls hlen
  · refine fun _ => ⟨(UInt64.add_zero first).symm, rfl, ?_, ?_⟩
    · rintro id (hid | hid) <;> cases hid
    · intro side id
      cases side <;> simp [MarketMaker.new, MarketMaker.quote]
  · intro q c h hlen'
    cases c with
    | tick bestBid bestAsk inventory =>
      have hle := (issued_note_le _ _ _).trans ((issued_note_le _ _ _).trans hlen')
      exact (h hle).onTick bestBid bestAsk inventory hlen'
    | gone id =>
      have hsame : (q.call (.gone id)).log.issued = q.log.issued := by
        unfold Quoting.call
        dsimp only
        split <;> rfl
      rw [hsame] at hlen'
      exact (h hlen').notifyOrderGone id

/-- After any calls, as long as the counter of order ids has not gone round: the ids issued are distinct; the tracked
ids are exactly the issued ones that have neither been cancelled by a message nor been reported gone while tracked,
and a side has at most one; and on each side a further tick sends at most one message, and a replace or cancel names
the id tracked there. -/
theorem market_maker_orphans_nothing (config : MarketMakerConfig) (first : UInt64) (calls : List MakerCall)
    (hids : (Quoting.after config first calls).log.issued.length ≤ 2 ^ 64) :
    ((Quoting.after config first calls).log.issued.map Prod.snd).Nodup ∧
    (∀ side id, ((Quoting.after config first calls).maker.quote side).restingId = some id ↔
      (side, id) ∈ (Quoting.after config first calls).log.issued ∧
        id ∉ (Quoting.after config first calls).log.cancelled ∧
        id ∉ (Quoting.after config first calls).log.gone) ∧
    ∀ (bestBid bestAsk : Option Int) (inventory : Int) (side : Side),
      (∀ msg,
        (((Quoting.after config first calls).maker.onTick bestBid bestAsk inventory).1.on side).replace = some msg →
        ((Quoting.after config first calls).maker.quote side).restingId = some msg.orderId) ∧
      (∀ msg,
        (((Quoting.after config first calls).maker.onTick bestBid bestAsk inventory).1.on side).cancel = some msg →
        ((Quoting.after config first calls).maker.quote side).restingId = some msg.orderId) ∧
      (((Quoting.after config first calls).maker.onTick bestBid bestAsk inventory).1.on side).messages ≤ 1 := by
  have h := tracks_after config first calls hids
  refine ⟨h.nodup hids, h.tracked, ?_⟩
  intro bestBid bestAsk inventory side
  obtain ⟨m₁, hbid, hask⟩ := (Quoting.after config first calls).maker.requoted_onTick bestBid bestAsk inventory
  cases side with
  | buy => exact requoted_messages hbid
  | sell =>
    rw [← hbid.quote_of_ne (show Side.sell ≠ .buy by decide)]
    exact requoted_messages hask

/-- A bid and an ask, of which the bid is cancelled at the cap and the ask is reported gone. -/
theorem market_maker_orphans_nothing_capped :
    (Quoting.after ⟨1, 9, 5, 10, 50, 1000⟩ 1 [.tick none none 0, .tick none none 50, .gone 2]).log.issued =
      [(.buy, 1), (.sell, 2)] ∧
    ∀ side id, ((Quoting.after ⟨1, 9, 5, 10, 50, 1000⟩ 1
      [.tick none none 0, .tick none none 50, .gone 2]).maker.quote side).restingId ≠ some id := by
  refine ⟨rfl, fun side id hid => ?_⟩
  have h := market_maker_orphans_nothing ⟨1, 9, 5, 10, 50, 1000⟩ 1 [.tick none none 0, .tick none none 50, .gone 2]
    (by decide)
  obtain ⟨hmem, hcancelled, hgone⟩ := (h.2.1 side id).1 hid
  have hissued : (side, id) ∈ [(Side.buy, (1 : OrderId)), (.sell, 2)] := hmem
  have hcancelled' : id ∉ [(1 : OrderId)] := hcancelled
  have hgone' : id ∉ [(2 : OrderId)] := hgone
  simp only [List.mem_cons, List.not_mem_nil, or_false, Prod.mk.injEq] at hissued hcancelled' hgone'
  rcases hissued with ⟨-, rfl⟩ | ⟨-, rfl⟩
  · exact hcancelled' rfl
  · exact hgone' rfl

/-! ### Prices -/

/-- The last price sent for a tracked order is the one the market maker remembers. -/
def Priced (m : MarketMaker) (log : OrderLog) : Prop :=
  ∀ side id, (m.quote side).restingId = some id → log.lastSent side id = some (m.quote side).lastQuoted

/-- The tracked quotes are the half spread below and above one price. -/
def Aligned (m : MarketMaker) : Prop :=
  ∃ mid, ((m.quote .buy).restingId ≠ none → (m.quote .buy).lastQuoted = mid - m.config.halfSpreadTicks) ∧
    ((m.quote .sell).restingId ≠ none → (m.quote .sell).lastQuoted = mid + m.config.halfSpreadTicks)

section

variable {m m' : MarketMaker} {log log' : OrderLog} {side : Side} {target : Int} {allowed : Bool} {action : SideAction}

theorem lastSent_of_sent {price : Int} {id : OrderId} (h : log'.sent = (side, id, price) :: log.sent) (s : Side)
    (id' : OrderId) : log'.lastSent s id' = if side = s ∧ id = id' then some price else log.lastSent s id' := by
  unfold OrderLog.lastSent
  rw [h, List.find?_cons]
  by_cases hsame : side = s ∧ id = id'
  · simp [hsame]
  · simp [hsame]

/-- A price sent is remembered. -/
theorem Priced.set (h : Priced m log) {price : Int} {id : OrderId} (hlog : log'.sent = (side, id, price) :: log.sent)
    (hquote : m'.quote side = ⟨some id, price⟩) (hother : ∀ s, s ≠ side → m'.quote s = m.quote s) : Priced m' log' := by
  intro s id' hid'
  rw [lastSent_of_sent hlog]
  by_cases hs : s = side
  · subst hs
    rw [hquote] at hid' ⊢
    rw [if_pos ⟨rfl, Option.some.inj hid'⟩]
  · rw [hother s hs] at hid' ⊢
    rw [if_neg fun hsame => hs hsame.1.symm]
    exact h s id' hid'

theorem Priced.requoted (h : Priced m log) (hr : m.Requoted side target allowed action m') :
    Priced m' (log.note side action) := by
  have hother : ∀ s, s ≠ side → m'.quote s = m.quote s := fun s hs => hr.quote_of_ne hs
  cases hr with
  | fresh _ => exact h.set rfl (MarketMaker.quote_setQuote _ _ _) hother
  | moved _ => exact h.set rfl (MarketMaker.quote_setQuote _ _ _) hother
  | kept _ _ => exact h
  | pulled _ =>
    intro s id' hid'
    by_cases hs : s = side
    · subst hs
      rw [MarketMaker.quote_setQuote] at hid'
      cases hid'
    · rw [hother s hs] at hid' ⊢
      exact h s id' hid'
  | out _ => exact h

/-- Every price sent on a side is the target. -/
theorem requoted_prices (hr : m.Requoted side target allowed action m') : ∀ price ∈ action.prices, price = target := by
  cases hr with
  | fresh _ => exact fun _ hp => List.mem_singleton.1 hp
  | moved _ => exact fun _ hp => List.mem_singleton.1 hp
  | kept _ _ => exact fun _ hp => absurd hp List.not_mem_nil
  | pulled _ => exact fun _ hp => absurd hp List.not_mem_nil
  | out _ => exact fun _ hp => absurd hp List.not_mem_nil

/-- After a tick both quotes are at their targets, or gone. -/
theorem aligned_onTick (m : MarketMaker) (bestBid bestAsk : Option Int) (inventory : Int) :
    Aligned (m.onTick bestBid bestAsk inventory).2 ∧ (m.onTick bestBid bestAsk inventory).2.config = m.config := by
  obtain ⟨m₁, hbid, hask⟩ := m.requoted_onTick bestBid bestAsk inventory
  have hconfig : (m.onTick bestBid bestAsk inventory).2.config = m.config := hask.config_eq.trans hbid.config_eq
  refine ⟨⟨MarketMaker.computeMid m.config bestBid bestAsk, ?_, ?_⟩, hconfig⟩
  · rw [hconfig, hask.quote_of_ne (show Side.buy ≠ .sell by decide)]
    exact fun hne => (hbid.of_quoted hne).2
  · rw [hconfig]
    exact fun hne => (hask.of_quoted hne).2

theorem Aligned.notifyOrderGone (h : Aligned m) (id : OrderId) : Aligned (m.notifyOrderGone id) := by
  obtain ⟨mid, hbid, hask⟩ := h
  rw [Aligned, MarketMaker.config_notifyOrderGone]
  refine ⟨mid, fun hne => ?_, fun hne => ?_⟩
  · have hquote := MarketMaker.quote_notifyOrderGone_of_quoted hne
    rw [hquote] at hne ⊢
    exact hbid hne
  · have hquote := MarketMaker.quote_notifyOrderGone_of_quoted hne
    rw [hquote] at hne ⊢
    exact hask hne

end

theorem priced_after (config : MarketMakerConfig) (first : UInt64) (calls : List MakerCall) :
    Priced (Quoting.after config first calls).maker (Quoting.after config first calls).log ∧
      Aligned (Quoting.after config first calls).maker ∧ (Quoting.after config first calls).maker.config = config := by
  refine Quoting.after_rule (fun q => Priced q.maker q.log ∧ Aligned q.maker ∧ q.maker.config = config) ?_ ?_ calls
  · refine ⟨?_, ⟨0, fun h => absurd rfl h, fun h => absurd rfl h⟩, rfl⟩
    intro side id hid
    cases side <;> cases hid
  · rintro q c ⟨hpriced, haligned, hconfig⟩
    cases c with
    | tick bestBid bestAsk inventory =>
      obtain ⟨m₁, hbid, hask⟩ := q.maker.requoted_onTick bestBid bestAsk inventory
      obtain ⟨haligned', hconfig'⟩ := aligned_onTick q.maker bestBid bestAsk inventory
      exact ⟨(hpriced.requoted hbid).requoted hask, haligned', hconfig'.trans hconfig⟩
    | gone id =>
      refine ⟨fun s id' hid' => ?_, haligned.notifyOrderGone id, ?_⟩
      · have hsent : (q.call (.gone id)).log.lastSent s id' = q.log.lastSent s id' := by
          unfold Quoting.call
          dsimp only
          split <;> rfl
        have hquote : (q.call (.gone id)).maker.quote s = q.maker.quote s :=
          MarketMaker.quote_notifyOrderGone_of_quoted (Option.ne_none_iff_exists'.2 ⟨id', hid'⟩)
        rw [hquote] at hid'
        rw [hsent, hquote]
        exact hpriced s id' hid'
      · exact (q.maker.config_notifyOrderGone id).trans hconfig

/-- Rounding towards zero keeps the middle between the two prices. -/
theorem computeMid_passive {config : MarketMakerConfig} (hspread : 1 ≤ config.halfSpreadTicks)
    {bestBid bestAsk : Option Int} (huncrossed : ∀ bid ask, bestBid = some bid → bestAsk = some ask → bid < ask) :
    (∀ ask, bestAsk = some ask → MarketMaker.computeMid config bestBid bestAsk - config.halfSpreadTicks < ask) ∧
      ∀ bid, bestBid = some bid → bid < MarketMaker.computeMid config bestBid bestAsk + config.halfSpreadTicks := by
  cases bestBid with
  | none =>
    cases bestAsk with
    | none => exact ⟨nofun, nofun⟩
    | some ask =>
      refine ⟨?_, nofun⟩
      rintro _ ⟨⟩
      show ask - config.halfSpreadTicks - config.halfSpreadTicks < ask
      omega
  | some bid =>
    cases bestAsk with
    | none =>
      refine ⟨nofun, ?_⟩
      rintro _ ⟨⟩
      show bid < bid + config.halfSpreadTicks + config.halfSpreadTicks
      omega
    | some ask =>
      have hlt := huncrossed bid ask rfl rfl
      have hmid : bid ≤ (bid + ask).tdiv 2 ∧ (bid + ask).tdiv 2 ≤ ask := by
        rw [Int.tdiv_eq_ediv]
        split_ifs
        · omega
        · rw [show Int.sign 2 = 1 from rfl]
          omega
      constructor
      · rintro _ ⟨⟩
        show (bid + ask).tdiv 2 - config.halfSpreadTicks < ask
        omega
      · rintro _ ⟨⟩
        show bid < (bid + ask).tdiv 2 + config.halfSpreadTicks
        omega

/-- With a half spread of at least one tick, after any calls: what a tick with an uncrossed market sends is a bid
below the best ask and an ask above the best bid; and if both sides are tracked, the last price sent for the bid is
below the last price sent for the ask. -/
theorem market_maker_quotes_passive (config : MarketMakerConfig) (hspread : 1 ≤ config.halfSpreadTicks) (first : UInt64)
    (calls : List MakerCall) :
    (∀ (bestBid bestAsk : Option Int) (inventory : Int),
      (∀ bid ask, bestBid = some bid → bestAsk = some ask → bid < ask) →
      (∀ price ∈ ((Quoting.after config first calls).maker.onTick bestBid bestAsk inventory).1.bid.prices,
        ∀ ask, bestAsk = some ask → price < ask) ∧
      (∀ price ∈ ((Quoting.after config first calls).maker.onTick bestBid bestAsk inventory).1.ask.prices,
        ∀ bid, bestBid = some bid → bid < price)) ∧
    ∀ bidId askId, ((Quoting.after config first calls).maker.quote .buy).restingId = some bidId →
      ((Quoting.after config first calls).maker.quote .sell).restingId = some askId →
      ∃ bidPrice askPrice, (Quoting.after config first calls).log.lastSent .buy bidId = some bidPrice ∧
        (Quoting.after config first calls).log.lastSent .sell askId = some askPrice ∧ bidPrice < askPrice := by
  obtain ⟨hpriced, ⟨mid, hbuy, hsell⟩, hconfig⟩ := priced_after config first calls
  constructor
  · intro bestBid bestAsk inventory huncrossed
    obtain ⟨m₁, hbid, hask⟩ := (Quoting.after config first calls).maker.requoted_onTick bestBid bestAsk inventory
    obtain ⟨hbelow, habove⟩ := computeMid_passive hspread huncrossed
    rw [hconfig] at hbid hask
    constructor
    · intro price hp
      rw [requoted_prices hbid price hp]
      exact hbelow
    · intro price hp
      rw [requoted_prices hask price hp]
      exact habove
  · intro bidId askId hbid hask
    refine ⟨_, _, hpriced .buy bidId hbid, hpriced .sell askId hask, ?_⟩
    rw [hbuy (by rw [hbid]; exact nofun), hsell (by rw [hask]; exact nofun), hconfig]
    omega

/-- Around a market at negative prices, where rounding towards zero is rounding up. -/
theorem market_maker_quotes_passive_negative :
    ∃ bidPrice askPrice,
      (Quoting.after ⟨1, 9, 1, 10, 50, 1000⟩ 1 [.tick (some (-3)) (some (-2)) 0]).log.lastSent .buy 1 = some bidPrice ∧
      (Quoting.after ⟨1, 9, 1, 10, 50, 1000⟩ 1 [.tick (some (-3)) (some (-2)) 0]).log.lastSent .sell 2 = some askPrice ∧
      bidPrice < askPrice :=
  (market_maker_quotes_passive ⟨1, 9, 1, 10, 50, 1000⟩ (by decide) 1 [.tick (some (-3)) (some (-2)) 0]).2 1 2 rfl rfl

end Exchange
