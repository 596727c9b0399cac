import Exchange.LateJoiner

/-!
# The scratch buffer of the publisher

`publish_snapshot` tries to encode a snapshot four times and doubles its scratch buffer after every failed attempt.  A
snapshot is to be dropped only if the wire format cannot hold it, and the buffer is to stay bounded.  Both depend on
the size of the buffer before the call: from a small buffer four attempts are not enough, and a snapshot that can
never be sent still makes the buffer sixteen times as large.
-/

namespace Exchange

open OrderBook

namespace MarketDataPublisher

variable {msg : Wire.BookSnapshot}

/-! ### One call -/

theorem encodeAttempts_oversized (h : 65535 < Wire.snapshotBytes msg.bids msg.asks) (attempts scratch : Nat) :
    encodeAttempts msg attempts scratch = ([], scratch * 2 ^ attempts) := by
  induction attempts generalizing scratch with
  | zero => rw [encodeAttempts, pow_zero, mul_one]
  | succ attempts ih =>
    rw [encodeAttempts, Wire.encodeSnapshot_eq_nil (Or.inr h), if_neg (not_not.2 rfl), ih, mul_assoc, ← pow_succ']

/-- A message that fits the wire format is written if it fits the largest buffer that is tried. -/
theorem encodeAttempts_eq_nil_iff (hfits : (Wire.Message.bookSnapshot msg).Fits) (attempts scratch : Nat) :
    (encodeAttempts msg (attempts + 1) scratch).1 = [] ↔
      scratch * 2 ^ attempts < 4 + Wire.snapshotBytes msg.bids msg.asks := by
  constructor
  · intro hnil
    by_contra hroom
    exact encodeAttempts_ne_nil hfits (not_lt.1 hroom) hnil
  · intro hshort
    induction attempts generalizing scratch with
    | zero =>
      rw [pow_zero, mul_one] at hshort
      rw [encodeAttempts, Wire.encodeSnapshot_eq_nil (Or.inl hshort), if_neg (not_not.2 rfl), encodeAttempts]
    | succ attempts ih =>
      have hfirst : scratch < 4 + Wire.snapshotBytes msg.bids msg.asks :=
        lt_of_le_of_lt (Nat.le_mul_of_pos_right scratch (Nat.two_pow_pos _)) hshort
      rw [encodeAttempts, Wire.encodeSnapshot_eq_nil (Or.inl hfirst), if_neg (not_not.2 rfl)]
      refine ih (scratch * 2) ?_
      rw [mul_assoc, ← pow_succ']
      exact hshort

/-- The buffer does not grow beyond twice the message. -/
theorem encodeAttempts_scratch_le (hfits : (Wire.Message.bookSnapshot msg).Fits) (attempts scratch : Nat) :
    (encodeAttempts msg attempts scratch).2 ≤ max scratch (2 * (4 + Wire.snapshotBytes msg.bids msg.asks)) := by
  induction attempts generalizing scratch with
  | zero => exact le_max_left _ _
  | succ attempts ih =>
    rw [encodeAttempts]
    by_cases hroom : 4 + Wire.snapshotBytes msg.bids msg.asks ≤ scratch
    · rw [if_pos (Wire.encodeSnapshot_ne_nil hfits hroom)]
      exact le_max_left _ _
    · rw [Wire.encodeSnapshot_eq_nil (Or.inl (not_le.1 hroom)), if_neg (not_not.2 rfl)]
      have hnext := ih (scratch * 2)
      omega

end MarketDataPublisher

/-! ### Calls with any book -/

variable {M : Type}

/-- A call of `publish_snapshot`.  The book may be of any size and have any content; `rep_run` gives the invariants of
its ladders for every book that operations lead to. -/
structure SnapshotCall (M : Type) where
  P : Params
  book : OrderBook P M
  bids : book.bids.Inv
  asks : book.asks.Inv
  symbol : SymbolId
  depth : Nat

namespace SnapshotCall

/-- The number of levels of one side that are sent. -/
def levels (c : SnapshotCall M) (s : Side) : Nat := min (max c.depth 1) (c.book.occupiedLevels s).length

/-- The length of the payload. -/
def payload (c : SnapshotCall M) : Nat := 16 + (c.levels .buy + c.levels .sell) * 24

/-- The call, as a step of the publisher. -/
def publish (feed : MarketDataPublisher) (c : SnapshotCall M) : Option (Unit × MarketDataPublisher) :=
  (feed.publishSnapshot c.symbol c.book c.depth).map fun feed => ((), feed)

/-- The snapshot, if it is sent now. -/
def message (c : SnapshotCall M) (feed : MarketDataPublisher) : Wire.BookSnapshot :=
  (snapshotMessage feed c.symbol (levelRecords c.book c.depth .buy) (levelRecords c.book c.depth .sell)).toWire

variable {feed : MarketDataPublisher} {bound : Nat}

theorem snapshotBytes_message (c : SnapshotCall M) (feed : MarketDataPublisher) :
    Wire.snapshotBytes (c.message feed).bids (c.message feed).asks = c.payload := by
  unfold message payload levels Wire.snapshotBytes snapshotMessage BookSnapshotMessage.toWire
  simp only [levelRecords_take, List.length_map, List.length_take]

theorem publish_eq (c : SnapshotCall M) (feed : MarketDataPublisher) :
    publish feed c = some ((),
      feed.writeSnapshot c.symbol (levelRecords c.book c.depth .buy) (levelRecords c.book c.depth .sell)) := by
  unfold publish
  rw [feed.publishSnapshot_eq c.bids c.asks]
  rfl

/-- The call does what is expected of it: if it writes nothing, it uses no sequence number and the payload was too
long for the wire, and the buffer is within the bound after it. -/
def KeepsPromise (bound : Nat) (feed : MarketDataPublisher) (c : SnapshotCall M) : Prop :=
  ∃ feed', publish feed c = some ((), feed') ∧
    (feed'.bytes = feed.bytes → feed'.nextSequence = feed.nextSequence ∧ 65535 < c.payload) ∧
    feed'.snapshotScratch ≤ bound

/-- The buffer before the call suits it: one eighth of the message if that can be sent, otherwise no more than one
sixteenth of the bound. -/
def Suited (bound : Nat) (feed : MarketDataPublisher) (c : SnapshotCall M) : Prop :=
  (c.payload ≤ 65535 → 4 + c.payload ≤ 8 * feed.snapshotScratch) ∧
    (65535 < c.payload → 16 * feed.snapshotScratch ≤ bound)

theorem keepsPromise_of_oversized {c : SnapshotCall M} (h : 65535 < c.payload) :
    KeepsPromise bound feed c ↔ 16 * feed.snapshotScratch ≤ bound := by
  have hlong : 65535 < Wire.snapshotBytes (c.message feed).bids (c.message feed).asks := by
    rw [snapshotBytes_message]
    exact h
  have hattempts := MarketDataPublisher.encodeAttempts_oversized hlong 4 feed.snapshotScratch
  have hwrite : feed.writeSnapshot c.symbol (levelRecords c.book c.depth .buy) (levelRecords c.book c.depth .sell) =
      { feed with snapshotScratch := 16 * feed.snapshotScratch } := by
    unfold message at hattempts
    rw [MarketDataPublisher.writeSnapshot_dropped (by rw [hattempts]), hattempts, mul_comm]
    rfl
  unfold KeepsPromise
  rw [publish_eq, hwrite]
  constructor
  · rintro ⟨feed', heq, -, hle⟩
    cases heq
    exact hle
  · intro hle
    exact ⟨_, rfl, fun _ => ⟨rfl, h⟩, hle⟩

theorem keepsPromise_of_sendable {c : SnapshotCall M} (h : c.payload ≤ 65535) (hbound : 2 * 65539 ≤ bound)
    (hscratch : feed.snapshotScratch ≤ bound) :
    KeepsPromise bound feed c ↔ 4 + c.payload ≤ 8 * feed.snapshotScratch := by
  have hbytes := snapshotBytes_message c feed
  have hfits : (Wire.Message.bookSnapshot (c.message feed)).Fits := hbytes.trans_le h
  have hnil := MarketDataPublisher.encodeAttempts_eq_nil_iff hfits 3 feed.snapshotScratch
  have hgrown := MarketDataPublisher.encodeAttempts_scratch_le hfits 4 feed.snapshotScratch
  rw [hbytes] at hnil hgrown
  unfold KeepsPromise
  rw [publish_eq]
  by_cases hroom : 4 + c.payload ≤ 8 * feed.snapshotScratch
  · have hwritten : (MarketDataPublisher.encodeAttempts (c.message feed) 4 feed.snapshotScratch).1 ≠ [] := by
      rw [Ne, hnil]
      omega
    refine iff_of_true ⟨_, rfl, ?_⟩ hroom
    rw [MarketDataPublisher.writeSnapshot_written hwritten]
    refine ⟨fun hsame => absurd (List.self_eq_append_right.1 hsame.symm) hwritten, ?_⟩
    exact hgrown.trans (max_le hscratch (by omega))
  · have hdropped : (MarketDataPublisher.encodeAttempts (c.message feed) 4 feed.snapshotScratch).1 = [] := by
      rw [hnil]
      omega
    refine iff_of_false ?_ hroom
    rintro ⟨feed', heq, hpromise, -⟩
    rw [MarketDataPublisher.writeSnapshot_dropped hdropped] at heq
    cases heq
    exact absurd (hpromise rfl).2 (not_lt.2 h)

theorem keepsPromise_iff (c : SnapshotCall M) (hbound : 2 * 65539 ≤ bound) (hscratch : feed.snapshotScratch ≤ bound) :
    KeepsPromise bound feed c ↔ Suited bound feed c := by
  unfold Suited
  rcases Nat.lt_or_ge 65535 c.payload with hlong | hshort
  · rw [keepsPromise_of_oversized hlong]
    constructor
    · intro hle
      exact ⟨fun hshort => absurd hlong (not_lt.2 hshort), fun _ => hle⟩
    · intro hsuited
      exact hsuited.2 hlong
  · rw [keepsPromise_of_sendable hshort hbound hscratch]
    constructor
    · intro hle
      exact ⟨fun _ => hle, fun hlong => absurd hlong (not_lt.2 hshort)⟩
    · intro hsuited
      exact hsuited.1 hshort

end SnapshotCall

/-! ### Runs -/

open SnapshotCall

/-- For every initial size of the buffer, every sequence of calls goes through, and all of them keep their promise,
with the larger of the initial size and twice the longest message as the bound, if and only if the buffer suits each
of them when it is made. -/
theorem snapshot_retry_iff (scratch : Nat) (calls : List (SnapshotCall M)) :
    (∃ outs feed, runAll publish ({ snapshotScratch := scratch } : MarketDataPublisher) calls = some (outs, feed)) ∧
    (AllSteps publish (KeepsPromise (max scratch (2 * 65539))) { snapshotScratch := scratch } calls ↔
      AllSteps publish (Suited (max scratch (2 * 65539))) { snapshotScratch := scratch } calls) := by
  constructor
  · have hstep : ∀ (feed : MarketDataPublisher) (c : SnapshotCall M), True →
        ∃ out feed', publish feed c = some (out, feed') ∧ True ∧ True :=
      fun feed c _ => ⟨(), _, publish_eq c feed, trivial, trivial⟩
    obtain ⟨outs, feed, hrun, -⟩ := runAll_rule (fun _ => True) (fun _ _ => True) hstep calls _ trivial
    exact ⟨outs, feed, hrun⟩
  · refine allSteps_congr (fun feed => feed.snapshotScratch ≤ max scratch (2 * 65539)) ?_ ?_ calls _ (le_max_left _ _)
    · intro feed c hscratch
      exact keepsPromise_iff c (le_max_right _ _) hscratch
    · intro feed c o feed' _ hpromise hpublish
      obtain ⟨feed'', heq, -, hle⟩ := hpromise
      rw [hpublish] at heq
      cases heq
      exact hle

/-- A snapshot of an empty book. -/
def emptyBookCall : SnapshotCall IdMap where
  P := tinyParams
  book := new tinyParams IdMap 7 100
  bids := LadderSide.inv_new
  asks := LadderSide.inv_new
  symbol := 7
  depth := 1

/-- The snapshot of an empty book has 20 bytes; a publisher that starts with a buffer of one byte tries buffers of 1,
2, 4 and 8 bytes and drops it. -/
theorem empty_book_snapshot_dropped :
    emptyBookCall.payload = 16 ∧
      ¬ AllSteps publish (KeepsPromise (max 1 (2 * 65539))) { snapshotScratch := 1 } [emptyBookCall] := by
  refine ⟨by decide, ?_⟩
  rintro ⟨hpromise, -⟩
  have hroom := (keepsPromise_of_sendable (by decide) (le_max_right _ _) (le_max_left _ _)).1 hpromise
  exact absurd hroom (by decide)

/-- From 8190 bytes on, nothing that can be sent is dropped: the longest message has 65516 bytes. -/
theorem sendable_snapshots_written {scratch : Nat} (h : 8190 ≤ scratch) (calls : List (SnapshotCall M)) :
    AllSteps publish (fun feed c => c.payload ≤ 65535 →
      ∃ feed', publish feed c = some ((), feed') ∧ feed'.bytes ≠ feed.bytes) { snapshotScratch := scratch } calls := by
  refine (allSteps_congr (C := fun _ _ => True) (fun feed => 8190 ≤ feed.snapshotScratch) ?_ ?_ calls _ h).1
    (allSteps_of_forall (fun _ _ => trivial) calls _)
  · intro feed c hscratch
    refine iff_of_true trivial fun hfits => ?_
    have hroom : 4 + c.payload ≤ 8 * feed.snapshotScratch := by
      unfold payload at hfits ⊢
      omega
    have hkeeps : KeepsPromise (max feed.snapshotScratch (2 * 65539)) feed c :=
      (keepsPromise_of_sendable hfits (le_max_right _ _) (le_max_left _ _)).2 hroom
    obtain ⟨feed', hpublish, hpromise, -⟩ := hkeeps
    exact ⟨feed', hpublish, fun hsame => absurd (hpromise hsame).2 (not_lt.2 hfits)⟩
  · intro feed c o feed' hscratch _ hpublish
    have hgrows := (MarketDataPublisher.encodeAttempts_spec (c.message feed) 4 feed.snapshotScratch).1
    rw [publish_eq] at hpublish
    cases hpublish
    by_cases hdropped : (MarketDataPublisher.encodeAttempts (c.message feed) 4 feed.snapshotScratch).1 = []
    · rw [MarketDataPublisher.writeSnapshot_dropped hdropped]
      exact hscratch.trans hgrows
    · rw [MarketDataPublisher.writeSnapshot_written hdropped]
      exact hscratch.trans hgrows

end Exchange
