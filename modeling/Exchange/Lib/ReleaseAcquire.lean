import Mathlib.Data.Fintype.Defs
import Mathlib.Logic.Function.Basic
import Mathlib.Order.Lattice

/-!
# Release and acquire

An operational model of threads that share atomic locations, with the orders `relaxed`, `acquire` and `release`, and
plain cells.

* An atomic location keeps all values that have been stored to it.  A thread has a view: how far into each history it
  has looked, and which accesses to plain cells happen before what it does next.  A load returns any value of the
  history that is not older than what the thread has seen of it.  A release store leaves the view of its thread with
  the value, and an acquire load takes it over.
* An access to a plain cell fails if it races: if there is a conflicting access that does not happen before it.

So a run that does not fail has no data race, and it has seen whatever stale values the loads have returned.  Values
are not read before they are stored.
-/

namespace Exchange

variable {Tid Loc Addr V W : Type}

/-! ### Views -/

/-- How far a thread has looked into the history of each location, and how many of each thread's accesses to plain
cells happen before what it does next. -/
structure MemView (Tid Loc : Type) where
  seen : Loc → Nat
  clock : Tid → Nat

namespace MemView

instance : SemilatticeSup (MemView Tid Loc) where
  le v w := v.seen ≤ w.seen ∧ v.clock ≤ w.clock
  le_refl v := ⟨le_refl v.seen, le_refl v.clock⟩
  le_trans _ _ _ hvw hwx := ⟨hvw.1.trans hwx.1, hvw.2.trans hwx.2⟩
  le_antisymm v w hvw hwv := by
    cases v
    cases w
    exact congrArg₂ MemView.mk (le_antisymm hvw.1 hwv.1) (le_antisymm hvw.2 hwv.2)
  sup v w := ⟨v.seen ⊔ w.seen, v.clock ⊔ w.clock⟩
  le_sup_left v w := ⟨le_sup_left (a := v.seen), le_sup_left (a := v.clock)⟩
  le_sup_right v w := ⟨le_sup_right (a := v.seen), le_sup_right (a := v.clock)⟩
  sup_le _ _ _ hv hw := ⟨sup_le hv.1 hw.1, sup_le hv.2 hw.2⟩

/-- Nothing has been seen but what the locations held at first. -/
instance : OrderBot (MemView Tid Loc) where
  bot := ⟨fun _ => 0, fun _ => 0⟩
  bot_le v := ⟨fun x => Nat.zero_le (v.seen x), fun t => Nat.zero_le (v.clock t)⟩

/-- The value number `k` of the location `x` has been seen. -/
def upTo [DecidableEq Loc] (x : Loc) (k : Nat) : MemView Tid Loc := ⟨Function.update (fun _ => 0) x k, fun _ => 0⟩

/-- The access number `k` of the thread `t` is known. -/
def tick [DecidableEq Tid] (t : Tid) (k : Nat) : MemView Tid Loc := ⟨fun _ => 0, Function.update (fun _ => 0) t k⟩

theorem le_seen_of_upTo_le [DecidableEq Loc] {v : MemView Tid Loc} {x : Loc} {k : Nat} (h : upTo x k ≤ v) :
    k ≤ v.seen x := by
  have hx : Function.update (fun _ => 0) x k x ≤ v.seen x := h.1 x
  rwa [Function.update_self] at hx

end MemView

/-! ### The memory -/

/-- A value that has been stored to an atomic location, with the view that comes with it. -/
structure Stored (Tid Loc V : Type) where
  value : V
  view : MemView Tid Loc

/-- A plain cell, with the number of each thread's last access that wrote it and that read it. -/
structure PlainCell (Tid W : Type) where
  value : W
  writes : Tid → Nat := fun _ => 0
  reads : Tid → Nat := fun _ => 0

structure Memory (Tid Loc Addr V W : Type) where
  history : Loc → List (Stored Tid Loc V)
  plain : Addr → PlainCell Tid W
  views : Tid → MemView Tid Loc := fun _ => ⊥

inductive LoadOrder where
  | relaxed
  | acquire

namespace Memory

/-- Before the threads start. -/
def new (atomics : Loc → V) (cells : Addr → W) : Memory Tid Loc Addr V W where
  history := fun x => [{ value := atomics x, view := ⊥ }]
  plain := fun a => { value := cells a }

section Operations

variable [DecidableEq Tid] [DecidableEq Loc] [DecidableEq Addr]

/-- The thread `t` gets to know `v`. -/
def learn (m : Memory Tid Loc Addr V W) (t : Tid) (v : MemView Tid Loc) : Memory Tid Loc Addr V W :=
  { m with views := Function.update m.views t (m.views t ⊔ v) }

/-- The history of `x` goes on with `msg`. -/
def append (m : Memory Tid Loc Addr V W) (x : Loc) (msg : Stored Tid Loc V) : Memory Tid Loc Addr V W :=
  { m with history := Function.update m.history x (m.history x ++ [msg]) }

def setPlain (m : Memory Tid Loc Addr V W) (a : Addr) (cell : PlainCell Tid W) : Memory Tid Loc Addr V W :=
  { m with plain := Function.update m.plain a cell }

/-- The place in the history of `x` of the value `age` steps back from the newest one, or of the oldest one that `t`
may still read. -/
def readIndex (m : Memory Tid Loc Addr V W) (t : Tid) (x : Loc) (age : Nat) : Nat :=
  max ((m.views t).seen x) ((m.history x).length - 1 - age)

/-- What a load of the value `msg`, number `k` of the location `x`, makes known. -/
def loaded (x : Loc) (k : Nat) (msg : Stored Tid Loc V) : LoadOrder → MemView Tid Loc
  | .relaxed => MemView.upTo x k
  | .acquire => MemView.upTo x k ⊔ msg.view

def load (m : Memory Tid Loc Addr V W) (order : LoadOrder) (t : Tid) (x : Loc) (age : Nat) :
    Option (V × Memory Tid Loc Addr V W) :=
  let k := m.readIndex t x age
  match (m.history x)[k]? with
  | none => none
  | some msg => some (msg.value, m.learn t (loaded x k msg order))

/-- A release store.  It goes to the end of the history.  A thread that has not seen all of the history could place
its store elsewhere too: that does not occur in a run that does not fail. -/
def store (m : Memory Tid Loc Addr V W) (t : Tid) (x : Loc) (value : V) : Option (Memory Tid Loc Addr V W) :=
  let next := MemView.upTo x (m.history x).length
  if (m.history x).length ≤ (m.views t).seen x + 1 then
    some ((m.append x { value := value, view := m.views t ⊔ next }).learn t next)
  else none

variable [Fintype Tid]

def read (m : Memory Tid Loc Addr V W) (t : Tid) (a : Addr) : Option (W × Memory Tid Loc Addr V W) :=
  let cell := m.plain a
  let clock := (m.views t).clock
  if ∀ u, cell.writes u ≤ clock u then
    let cell' := { cell with reads := Function.update cell.reads t (clock t + 1) }
    some (cell.value, (m.setPlain a cell').learn t (MemView.tick t (clock t + 1)))
  else none

def write (m : Memory Tid Loc Addr V W) (t : Tid) (a : Addr) (value : W) : Option (Memory Tid Loc Addr V W) :=
  let cell := m.plain a
  let clock := (m.views t).clock
  if (∀ u, cell.writes u ≤ clock u) ∧ ∀ u, cell.reads u ≤ clock u then
    let cell' := { cell with value := value, writes := Function.update cell.writes t (clock t + 1) }
    some ((m.setPlain a cell').learn t (MemView.tick t (clock t + 1)))
  else none

end Operations

/-! ### What the operations do -/

section Learn

variable [DecidableEq Tid] {m : Memory Tid Loc Addr V W} {t : Tid} {v : MemView Tid Loc}

theorem views_learn_self (m : Memory Tid Loc Addr V W) (t : Tid) (v : MemView Tid Loc) :
    (m.learn t v).views t = m.views t ⊔ v :=
  Function.update_self ..

theorem views_learn_of_ne {u : Tid} (h : u ≠ t) : (m.learn t v).views u = m.views u :=
  Function.update_of_ne h ..

/-- Nothing is forgotten. -/
theorem views_le_learn (m : Memory Tid Loc Addr V W) (t : Tid) (v : MemView Tid Loc) (u : Tid) :
    m.views u ≤ (m.learn t v).views u := by
  by_cases h : u = t
  · subst h
    rw [views_learn_self]
    exact le_sup_left
  · rw [views_learn_of_ne h]

theorem le_views_learn (m : Memory Tid Loc Addr V W) (t : Tid) (v : MemView Tid Loc) :
    v ≤ (m.learn t v).views t := by
  rw [views_learn_self]
  exact le_sup_right

end Learn

/-- What the view has seen is there. -/
def Knows (m : Memory Tid Loc Addr V W) (v : MemView Tid Loc) : Prop := ∀ x, v.seen x < (m.history x).length

/-- What any thread has seen, or will learn from a value it loads, is there. -/
structure WellFormed (m : Memory Tid Loc Addr V W) : Prop where
  views : ∀ t, m.Knows (m.views t)
  stored : ∀ x, ∀ msg ∈ m.history x, m.Knows msg.view
  nonempty : ∀ x, m.history x ≠ []

theorem wellFormed_new (atomics : Loc → V) (cells : Addr → W) :
    (new atomics cells : Memory Tid Loc Addr V W).WellFormed where
  views t x := Nat.zero_lt_one
  stored x msg hmsg y := by
    obtain rfl := List.mem_singleton.1 hmsg
    exact Nat.zero_lt_one
  nonempty x := List.cons_ne_nil _ _

section WellFormed

variable {m : Memory Tid Loc Addr V W} {v w : MemView Tid Loc} {x : Loc}

theorem Knows.sup (hv : m.Knows v) (hw : m.Knows w) : m.Knows (v ⊔ w) := fun x => max_lt (hv x) (hw x)

theorem WellFormed.setPlain [DecidableEq Addr] (h : m.WellFormed) (a : Addr) (cell : PlainCell Tid W) :
    (m.setPlain a cell).WellFormed :=
  ⟨h.views, h.stored, h.nonempty⟩

theorem WellFormed.learn [DecidableEq Tid] (h : m.WellFormed) (t : Tid) (hv : m.Knows v) :
    (m.learn t v).WellFormed := by
  refine ⟨fun u => ?_, h.stored, h.nonempty⟩
  by_cases hu : u = t
  · subst hu
    rw [views_learn_self]
    exact (h.views u).sup hv
  · rw [views_learn_of_ne hu]
    exact h.views u

theorem WellFormed.learn_tick [DecidableEq Tid] (h : m.WellFormed) (t : Tid) (k : Nat) :
    (m.learn t (MemView.tick t k)).WellFormed :=
  h.learn t fun x => List.length_pos_iff.2 (h.nonempty x)

variable [DecidableEq Loc]

theorem history_append_self (m : Memory Tid Loc Addr V W) (x : Loc) (msg : Stored Tid Loc V) :
    (m.append x msg).history x = m.history x ++ [msg] :=
  Function.update_self ..

theorem history_append_of_ne {y : Loc} (h : y ≠ x) (msg : Stored Tid Loc V) :
    (m.append x msg).history y = m.history y :=
  Function.update_of_ne h ..

theorem WellFormed.knows_upTo (h : m.WellFormed) {k : Nat} (hk : k < (m.history x).length) :
    m.Knows (MemView.upTo x k) := by
  intro y
  by_cases hy : y = x
  · subst hy
    simpa [MemView.upTo] using hk
  · simpa [MemView.upTo, Function.update_of_ne hy] using List.length_pos_iff.2 (h.nonempty y)

theorem Knows.append (h : m.Knows v) (x : Loc) (msg : Stored Tid Loc V) : (m.append x msg).Knows v := by
  intro y
  have hy := h y
  by_cases hxy : y = x
  · subst hxy
    rw [history_append_self, List.length_append]
    omega
  · rwa [history_append_of_ne hxy]

/-- The history goes on with a value whose view is known, up to that value. -/
theorem WellFormed.append (h : m.WellFormed) (x : Loc) (value : V) (hv : m.Knows v) :
    (m.append x { value := value, view := v ⊔ MemView.upTo x (m.history x).length }).WellFormed ∧
      (m.append x { value := value, view := v ⊔ MemView.upTo x (m.history x).length }).Knows
        (MemView.upTo x (m.history x).length) := by
  have hnext : ∀ msg : Stored Tid Loc V, (m.append x msg).Knows (MemView.upTo x (m.history x).length) := by
    intro msg y
    by_cases hxy : y = x
    · subst hxy
      simp [history_append_self, MemView.upTo]
    · simpa [history_append_of_ne hxy, MemView.upTo, Function.update_of_ne hxy] using
        List.length_pos_iff.2 (h.nonempty y)
  refine ⟨⟨fun t => (h.views t).append _ _, ?_, ?_⟩, hnext _⟩
  · intro y msg hmsg
    by_cases hxy : y = x
    · subst hxy
      rw [history_append_self, List.mem_append, List.mem_singleton] at hmsg
      rcases hmsg with hold | rfl
      · exact (h.stored y msg hold).append _ _
      · exact (hv.append _ _).sup (hnext _)
    · rw [history_append_of_ne hxy] at hmsg
      exact (h.stored y msg hmsg).append _ _
  · intro y
    by_cases hxy : y = x
    · subst hxy
      simp [history_append_self]
    · rw [history_append_of_ne hxy]
      exact h.nonempty y

end WellFormed

/-! ### The operations do not fail -/

section Specs

variable {m : Memory Tid Loc Addr V W} {t : Tid} {x : Loc} {a : Addr}

theorem WellFormed.readIndex_spec (h : m.WellFormed) (t : Tid) (x : Loc) (age : Nat) :
    ∃ k msg, m.readIndex t x age = k ∧ (m.views t).seen x ≤ k ∧ (m.history x)[k]? = some msg ∧ m.Knows msg.view := by
  have hlt : m.readIndex t x age < (m.history x).length := by
    have hseen := h.views t x
    unfold readIndex
    omega
  exact ⟨_, _, rfl, le_max_left .., List.getElem?_eq_getElem hlt, h.stored x _ (List.getElem_mem hlt)⟩

/-- The newest value. -/
theorem WellFormed.readIndex_zero (h : m.WellFormed) (t : Tid) (x : Loc) :
    m.readIndex t x 0 + 1 = (m.history x).length := by
  have hseen := h.views t x
  unfold readIndex
  omega

variable [DecidableEq Tid]

/-- After an access to a plain cell the thread knows it, and all it has known of the cell. -/
theorem update_le_learn_tick {clock : Tid → Nat} (h : clock ≤ (m.views t).clock) :
    Function.update clock t ((m.views t).clock t + 1) ≤
      ((m.learn t (MemView.tick t ((m.views t).clock t + 1))).views t).clock := by
  intro u
  have hu := h u
  rw [views_learn_self]
  show _ ≤ max ((m.views t).clock u) (Function.update (fun _ => 0) t ((m.views t).clock t + 1) u)
  by_cases htu : u = t
  · subst htu
    rw [Function.update_self, Function.update_self]
    exact le_max_right ..
  · rw [Function.update_of_ne htu]
    exact hu.trans (le_max_left ..)

section Plain

variable [DecidableEq Addr]

/-- The memory after a read of a plain cell. -/
def afterRead (m : Memory Tid Loc Addr V W) (t : Tid) (a : Addr) : Memory Tid Loc Addr V W :=
  let clock := (m.views t).clock
  (m.setPlain a { m.plain a with reads := Function.update (m.plain a).reads t (clock t + 1) }).learn t
    (MemView.tick t (clock t + 1))

/-- The memory after a write of a plain cell. -/
def afterWrite (m : Memory Tid Loc Addr V W) (t : Tid) (a : Addr) (value : W) :
    Memory Tid Loc Addr V W :=
  let clock := (m.views t).clock
  (m.setPlain a
    { m.plain a with value := value, writes := Function.update (m.plain a).writes t (clock t + 1) }).learn t
    (MemView.tick t (clock t + 1))

theorem plain_afterRead_of_ne {b : Addr} (h : b ≠ a) : (m.afterRead t a).plain b = m.plain b :=
  Function.update_of_ne h ..

theorem plain_afterRead_self (m : Memory Tid Loc Addr V W) (t : Tid) (a : Addr) :
    (m.afterRead t a).plain a =
      { m.plain a with reads := Function.update (m.plain a).reads t ((m.views t).clock t + 1) } :=
  Function.update_self ..

theorem plain_afterWrite_of_ne {b : Addr} (h : b ≠ a) (value : W) : (m.afterWrite t a value).plain b = m.plain b :=
  Function.update_of_ne h ..

theorem plain_afterWrite_self (m : Memory Tid Loc Addr V W) (t : Tid) (a : Addr) (value : W) :
    (m.afterWrite t a value).plain a =
      { m.plain a with
        value := value, writes := Function.update (m.plain a).writes t ((m.views t).clock t + 1) } :=
  Function.update_self ..

theorem value_afterRead (m : Memory Tid Loc Addr V W) (t : Tid) (a b : Addr) :
    ((m.afterRead t a).plain b).value = (m.plain b).value := by
  by_cases h : b = a
  · rw [h, plain_afterRead_self]
  · rw [plain_afterRead_of_ne h]

theorem writes_afterRead (m : Memory Tid Loc Addr V W) (t : Tid) (a b : Addr) :
    ((m.afterRead t a).plain b).writes = (m.plain b).writes := by
  by_cases h : b = a
  · rw [h, plain_afterRead_self]
  · rw [plain_afterRead_of_ne h]

theorem reads_afterWrite (m : Memory Tid Loc Addr V W) (t : Tid) (a : Addr) (value : W) (b : Addr) :
    ((m.afterWrite t a value).plain b).reads = (m.plain b).reads := by
  by_cases h : b = a
  · rw [h, plain_afterWrite_self]
  · rw [plain_afterWrite_of_ne h]

theorem views_le_afterRead (m : Memory Tid Loc Addr V W) (t : Tid) (a : Addr) (u : Tid) :
    m.views u ≤ (m.afterRead t a).views u :=
  views_le_learn (m.setPlain ..) ..

theorem views_le_afterWrite (m : Memory Tid Loc Addr V W) (t : Tid) (a : Addr) (value : W) (u : Tid) :
    m.views u ≤ (m.afterWrite t a value).views u :=
  views_le_learn (m.setPlain ..) ..

/-- A thread that knows the reads of a cell knows them after one more of its own. -/
theorem reads_afterRead_le {b : Addr} (h : (m.plain b).reads ≤ (m.views t).clock) :
    ((m.afterRead t a).plain b).reads ≤ ((m.afterRead t a).views t).clock := by
  by_cases hb : b = a
  · subst hb
    rw [plain_afterRead_self]
    exact update_le_learn_tick (m := m.setPlain b _) h
  · rw [plain_afterRead_of_ne hb]
    exact h.trans (views_le_afterRead m t a t).2

theorem writes_afterWrite_le {b : Addr} {value : W} (h : (m.plain b).writes ≤ (m.views t).clock) :
    ((m.afterWrite t a value).plain b).writes ≤ ((m.afterWrite t a value).views t).clock := by
  by_cases hb : b = a
  · subst hb
    rw [plain_afterWrite_self]
    exact update_le_learn_tick (m := m.setPlain b _) h
  · rw [plain_afterWrite_of_ne hb]
    exact h.trans (views_le_afterWrite m t a value t).2

/-- A read of a cell whose writes all happen before it. -/
theorem WellFormed.read [Fintype Tid] (h : m.WellFormed) (hwrites : (m.plain a).writes ≤ (m.views t).clock) :
    m.read t a = some ((m.plain a).value, m.afterRead t a) ∧ (m.afterRead t a).WellFormed :=
  ⟨if_pos hwrites, (h.setPlain _ _).learn_tick ..⟩

theorem WellFormed.write [Fintype Tid] (h : m.WellFormed) (hwrites : (m.plain a).writes ≤ (m.views t).clock)
    (hreads : (m.plain a).reads ≤ (m.views t).clock) (value : W) :
    m.write t a value = some (m.afterWrite t a value) ∧ (m.afterWrite t a value).WellFormed :=
  ⟨if_pos ⟨hwrites, hreads⟩, (h.setPlain _ _).learn_tick ..⟩

end Plain

variable [DecidableEq Loc]

/-- A load returns some value that is not older than what the thread has seen. -/
theorem WellFormed.load (h : m.WellFormed) (order : LoadOrder) (t : Tid) (x : Loc) (age : Nat) :
    ∃ k msg, m.readIndex t x age = k ∧ (m.views t).seen x ≤ k ∧ (m.history x)[k]? = some msg ∧
      m.load order t x age = some (msg.value, m.learn t (loaded x k msg order)) ∧
      (m.learn t (loaded x k msg order)).WellFormed := by
  obtain ⟨k, msg, hindex, hseen, hmsg, hknows⟩ := h.readIndex_spec t x age
  refine ⟨k, msg, hindex, hseen, hmsg, by simp only [Memory.load, hindex, hmsg], h.learn t ?_⟩
  have hupTo : m.Knows (MemView.upTo x k) := h.knows_upTo (List.getElem?_eq_some_iff.1 hmsg).1
  cases order with
  | relaxed => exact hupTo
  | acquire => exact hupTo.sup hknows

/-- The memory after a release store. -/
def publish (m : Memory Tid Loc Addr V W) (t : Tid) (x : Loc) (value : V) : Memory Tid Loc Addr V W :=
  (m.append x { value := value, view := m.views t ⊔ MemView.upTo x (m.history x).length }).learn t
    (MemView.upTo x (m.history x).length)

theorem history_publish_self (m : Memory Tid Loc Addr V W) (t : Tid) (x : Loc) (value : V) :
    (m.publish t x value).history x =
      m.history x ++ [{ value := value, view := m.views t ⊔ MemView.upTo x (m.history x).length }] :=
  history_append_self ..

theorem history_publish_of_ne {y : Loc} (h : y ≠ x) (value : V) : (m.publish t x value).history y = m.history y :=
  history_append_of_ne h _

theorem views_le_publish (m : Memory Tid Loc Addr V W) (t : Tid) (x : Loc) (value : V) (u : Tid) :
    m.views u ≤ (m.publish t x value).views u :=
  views_le_learn (m.append ..) ..

/-- The values of the history, after a store. -/
theorem history_publish_cases {value : V} {k : Nat} {msg : Stored Tid Loc V}
    (h : ((m.publish t x value).history x)[k]? = some msg) :
    (m.history x)[k]? = some msg ∨ m.views t ≤ msg.view := by
  rw [history_publish_self] at h
  by_cases hk : k < (m.history x).length
  · rw [List.getElem?_append_left hk] at h
    exact .inl h
  · rw [List.getElem?_append_right (by omega), List.getElem?_singleton] at h
    split at h
    · obtain rfl := Option.some.inj h
      exact .inr le_sup_left
    · cases h

/-- A thread has seen its own store. -/
theorem length_le_seen_publish (m : Memory Tid Loc Addr V W) (t : Tid) (x : Loc) (value : V) :
    (m.history x).length ≤ ((m.publish t x value).views t).seen x :=
  MemView.le_seen_of_upTo_le (le_views_learn (m.append ..) ..)

theorem WellFormed.store (h : m.WellFormed) (value : V) (hseen : (m.history x).length ≤ (m.views t).seen x + 1) :
    m.store t x value = some (m.publish t x value) ∧ (m.publish t x value).WellFormed := by
  refine ⟨if_pos hseen, ?_⟩
  obtain ⟨happend, hknows⟩ := h.append x value (h.views t)
  exact happend.learn t hknows

/-! ### What has been taken over -/

/-- The thread `t` has taken over what came with the value number `k` of the location `x`. -/
structure Acquired (m : Memory Tid Loc Addr V W) (t : Tid) (x : Loc) (k : Nat) : Prop where
  seen : k ≤ (m.views t).seen x
  view : ∀ msg, (m.history x)[k]? = some msg → msg.view ≤ m.views t

omit [DecidableEq Tid] [DecidableEq Loc] in
theorem Acquired.mono {m' : Memory Tid Loc Addr V W} {k : Nat} (h : m.Acquired t x k)
    (hhistory : m'.history x = m.history x) (hviews : m.views t ≤ m'.views t) : m'.Acquired t x k where
  seen := h.seen.trans (hviews.1 x)
  view msg hmsg := by
    rw [hhistory] at hmsg
    exact (h.view msg hmsg).trans hviews

omit [DecidableEq Tid] [DecidableEq Loc] in
theorem acquired_new (atomics : Loc → V) (cells : Addr → W) (t : Tid) (x : Loc) :
    (new atomics cells : Memory Tid Loc Addr V W).Acquired t x 0 := by
  refine ⟨Nat.zero_le _, fun msg hmsg => ?_⟩
  obtain rfl : _ = msg := Option.some.inj hmsg
  exact bot_le

theorem acquired_load {k : Nat} {msg : Stored Tid Loc V} (hmsg : (m.history x)[k]? = some msg) :
    (m.learn t (loaded x k msg .acquire)).Acquired t x k := by
  have hview := le_views_learn m t (loaded x k msg .acquire)
  refine ⟨MemView.le_seen_of_upTo_le (le_sup_left.trans hview), fun msg' hmsg' => ?_⟩
  obtain rfl := Option.some.inj (hmsg.symm.trans hmsg')
  exact le_sup_right.trans hview

theorem Acquired.publish {u : Tid} {y : Loc} {k : Nat} {value : V} (h : m.Acquired t x k)
    (hk : k < (m.history x).length) : (m.publish u y value).Acquired t x k := by
  have hviews := views_le_publish m u y value t
  refine ⟨h.seen.trans (hviews.1 x), fun msg hmsg => ?_⟩
  by_cases hxy : x = y
  · subst hxy
    rw [history_publish_self, List.getElem?_append_left hk] at hmsg
    exact (h.view msg hmsg).trans hviews
  · rw [history_publish_of_ne hxy] at hmsg
    exact (h.view msg hmsg).trans hviews

end Specs

end Memory

end Exchange
