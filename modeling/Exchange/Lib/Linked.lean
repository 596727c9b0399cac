import Mathlib.Data.List.Nodup

/-!
# Linked lists threaded through pointer maps

A singly linked list with a sentinel (`Chain`) and a doubly linked list (`DList`), both described by the list of their
cells.  The pointer maps are arbitrary functions, so an assignment to a cell is an update of a function; the lemmas
say which updates push a cell at the back of a list, take one out of the middle, or leave the list alone.
-/

namespace Exchange

variable {α : Type}

/-! ### Singly linked, ending in a sentinel -/

/-- Following `next` from `p` visits the cells `l` and then reaches `stop`. -/
def Chain (next : α → α) (stop : α) : α → List α → Prop
  | p, [] => p = stop
  | p, x :: l => p = x ∧ Chain next stop (next x) l

theorem Chain.congr {next next' : α → α} {stop : α} {l : List α} {p : α} (h : Chain next stop p l)
    (heq : ∀ x ∈ l, next' x = next x) : Chain next' stop p l := by
  induction l generalizing p with
  | nil => exact h
  | cons x l ih =>
    obtain ⟨rfl, hl⟩ := h
    refine ⟨rfl, ?_⟩
    rw [heq p (List.mem_cons_self ..)]
    exact ih hl (fun y hy => heq y (List.mem_cons_of_mem _ hy))

/-! ### Doubly linked -/

/-- The cells `l` are linked in both directions; the cell before them is `p` and the cell after them is `q`. -/
def Seg (next prev : α → Option α) : Option α → List α → Option α → Prop
  | _, [], _ => True
  | p, x :: l, q => prev x = p ∧ next x = l.head?.or q ∧ Seg next prev (some x) l q

/-- A doubly linked list without repeated cells, with its two end pointers. -/
structure DList (next prev : α → Option α) (head tail : Option α) (l : List α) : Prop where
  head_eq : head = l.head?
  tail_eq : tail = l.getLast?
  seg : Seg next prev none l none
  nodup : l.Nodup

theorem Seg.congr {next prev next' prev' : α → Option α} {l : List α} {p q : Option α}
    (h : Seg next prev p l q) (heq : ∀ x ∈ l, next' x = next x ∧ prev' x = prev x) :
    Seg next' prev' p l q := by
  induction l generalizing p with
  | nil => trivial
  | cons x l ih =>
    obtain ⟨h1, h2, h3⟩ := h
    obtain ⟨e1, e2⟩ := heq x (List.mem_cons_self ..)
    exact ⟨e2.trans h1, e1.trans h2, ih h3 (fun y hy => heq y (List.mem_cons_of_mem _ hy))⟩

/-- A concatenation is linked iff both parts are and they meet. -/
theorem seg_append {next prev : α → Option α} {l r : List α} {p q : Option α} :
    Seg next prev p (l ++ r) q ↔ Seg next prev p l (r.head?.or q) ∧ Seg next prev (l.getLast?.or p) r q := by
  induction l generalizing p with
  | nil => simp [Seg]
  | cons x l ih =>
    simp only [List.cons_append, Seg, ih]
    have hhead : (l ++ r).head?.or q = l.head?.or (r.head?.or q) := by
      cases l <;> simp
    have hlast : (x :: l).getLast?.or p = l.getLast?.or (some x) := by
      rw [List.getLast?_cons]
      cases l.getLast? <;> rfl
    rw [hhead, hlast]
    simp only [and_assoc]

/-- Redirecting the pointer that leaves a segment at its end. -/
theorem Seg.set_end {next prev next' prev' : α → Option α} {l : List α} {p q q' : Option α}
    (h : Seg next prev p l q) (hnd : l.Nodup) (hprev : ∀ x ∈ l, prev' x = prev x)
    (hnext : ∀ x ∈ l, l.getLast? ≠ some x → next' x = next x)
    (hlast : ∀ x, l.getLast? = some x → next' x = q') : Seg next' prev' p l q' := by
  rcases List.eq_nil_or_concat l with rfl | ⟨l₀, t, rfl⟩
  · trivial
  · rw [List.concat_eq_append] at *
    rw [seg_append] at h ⊢
    simp only [List.head?_cons, Option.some_or, Seg, List.head?_nil, Option.none_or, and_true,
      List.getLast?_append, List.getLast?_singleton] at h hnext hlast ⊢
    obtain ⟨h1, h2, -⟩ := h
    refine ⟨h1.congr fun x hx => ⟨hnext x (by simp [hx]) ?_, hprev x (by simp [hx])⟩,
      (hprev t (by simp)).trans h2, hlast t rfl⟩
    -- a cell of the initial part is not the last cell, because no cell is repeated
    intro e
    have : t = x := by simpa using e
    subst this
    have := List.nodup_append.1 hnd
    exact this.2.2 t hx t (by simp) rfl

/-- Redirecting the pointer that leaves a segment at its start. -/
theorem Seg.set_start {next prev next' prev' : α → Option α} {l : List α} {p p' q : Option α}
    (h : Seg next prev p l q) (hnd : l.Nodup) (hnext : ∀ x ∈ l, next' x = next x)
    (hprev : ∀ x ∈ l, l.head? ≠ some x → prev' x = prev x)
    (hhead : ∀ x, l.head? = some x → prev' x = p') : Seg next' prev' p' l q := by
  cases l with
  | nil => trivial
  | cons x l =>
    obtain ⟨-, h2, h3⟩ := h
    refine ⟨hhead x rfl, (hnext x (by simp)).trans h2, h3.congr fun y hy => ⟨hnext y (by simp [hy]), ?_⟩⟩
    refine hprev y (by simp [hy]) fun e => ?_
    have : x = y := by simpa using e
    subst this
    exact (List.nodup_cons.1 hnd).1 hy

theorem DList.congr {next prev next' prev' : α → Option α} {head tail : Option α} {l : List α}
    (h : DList next prev head tail l) (heq : ∀ x ∈ l, next' x = next x ∧ prev' x = prev x) :
    DList next' prev' head tail l :=
  ⟨h.head_eq, h.tail_eq, h.seg.congr heq, h.nodup⟩

/-- Linking a new cell `n` behind the last one. -/
theorem DList.push_back {next prev next' prev' : α → Option α} {head tail : Option α} {l : List α} {n : α}
    (h : DList next prev head tail l) (hn : n ∉ l) (hnn : next' n = none) (hnp : prev' n = tail)
    (hprev : ∀ x ∈ l, prev' x = prev x) (hnext : ∀ x ∈ l, tail ≠ some x → next' x = next x)
    (htail : ∀ x, tail = some x → next' x = some n) :
    DList next' prev' (head.or (some n)) (some n) (l ++ [n]) := by
  refine ⟨?_, ?_, ?_, ?_⟩
  · rw [h.head_eq]; cases l <;> simp
  · simp
  · rw [h.tail_eq] at hnp hnext htail
    rw [seg_append]
    refine ⟨h.seg.set_end h.nodup hprev hnext ?_, ?_, ?_, trivial⟩
    · intro x hx; simpa using htail x hx
    · simpa using hnp
    · simpa using hnn
  · rw [List.nodup_append]
    refine ⟨h.nodup, by simp, ?_⟩
    intro x hx y hy
    obtain rfl : y = n := by simpa using hy
    exact fun e => hn (e ▸ hx)

/-- The pointers of a cell in the middle of a list. -/
theorem DList.mid {next prev : α → Option α} {head tail : Option α} {a c : List α} {n : α}
    (h : DList next prev head tail (a ++ n :: c)) : prev n = a.getLast? ∧ next n = c.head? := by
  have := h.seg
  rw [seg_append] at this
  obtain ⟨-, h1, h2, -⟩ := this
  exact ⟨by simpa using h1, by simpa using h2⟩

/-- Bypassing the cell `n`. -/
theorem DList.unlink {next prev next' prev' : α → Option α} {head tail : Option α} {a c : List α} {n : α}
    (h : DList next prev head tail (a ++ n :: c))
    (hnext : ∀ x ∈ a ++ c, prev n ≠ some x → next' x = next x)
    (hprev : ∀ x ∈ a ++ c, next n ≠ some x → prev' x = prev x)
    (hp : ∀ x, prev n = some x → next' x = next n) (hq : ∀ x, next n = some x → prev' x = prev n) :
    DList next' prev' (if prev n = none then next n else head) (if next n = none then prev n else tail)
      (a ++ c) := by
  obtain ⟨e1, e2⟩ := h.mid
  have hnd := h.nodup
  obtain ⟨ha, hnc, hdis⟩ := List.nodup_append.1 hnd
  have hc := (List.nodup_cons.1 hnc).2
  have hseg := h.seg
  rw [seg_append] at hseg
  obtain ⟨s1, -, -, s2⟩ := hseg
  rw [e1] at hnext hp hq
  rw [e2] at hprev hp hq
  -- the last cell of `a` and the first cell of `c` are on different sides of `n`
  have hac : ∀ x ∈ a, c.head? ≠ some x := by
    intro x hx e
    exact hdis x hx x (List.mem_cons_of_mem _ (List.mem_of_head? e)) rfl
  have hca : ∀ x ∈ c, a.getLast? ≠ some x := by
    intro x hx e
    exact hdis x (List.mem_of_getLast? e) x (List.mem_cons_of_mem _ hx) rfl
  refine ⟨?_, ?_, ?_, ?_⟩
  · rw [e1, e2, h.head_eq]
    cases a <;> simp
  · rw [e1, e2, h.tail_eq]
    rcases List.eq_nil_or_concat c with rfl | ⟨c₀, t, rfl⟩
    · simp
    · cases c₀ <;> simp
  · rw [seg_append]
    constructor
    · refine s1.set_end ha (fun x hx => hprev x (by simp [hx]) (hac x hx))
        (fun x hx hne => hnext x (by simp [hx]) hne) ?_
      intro x hx
      simpa using hp x hx
    · refine s2.set_start hc (fun x hx => hnext x (by simp [hx]) (hca x hx))
        (fun x hx hne => hprev x (by simp [hx]) hne) ?_
      intro x hx
      simpa using hq x hx
  · rw [List.nodup_append]
    exact ⟨ha, hc, fun x hx y hy => hdis x hx y (List.mem_cons_of_mem _ hy)⟩

/-! ### Reading a list off the pointers -/

/-- The cells met by following `next` from `p`, at most `fuel` of them. -/
def walk (next : α → Option α) : Nat → Option α → List α
  | 0, _ => []
  | _ + 1, none => []
  | fuel + 1, some x => x :: walk next fuel (next x)

theorem walk_seg {next prev : α → Option α} {l : List α} {p : Option α} (h : Seg next prev p l none)
    {fuel : Nat} (hf : l.length ≤ fuel) : walk next fuel l.head? = l := by
  induction l generalizing p fuel with
  | nil => cases fuel <;> rfl
  | cons x l ih =>
    obtain ⟨f, rfl⟩ : ∃ f, fuel = f + 1 := ⟨fuel - 1, by simp at hf; omega⟩
    obtain ⟨-, h2, h3⟩ := h
    simp only [List.head?_cons, walk, h2, Option.or_none]
    rw [ih h3 (by simpa using hf)]

theorem DList.walk_eq {next prev : α → Option α} {head tail : Option α} {l : List α}
    (h : DList next prev head tail l) {fuel : Nat} (hf : l.length ≤ fuel) : walk next fuel head = l := by
  rw [h.head_eq]
  exact walk_seg h.seg hf

/-! ### A walk that ends

A list is doubly linked when the walk along `next` visits its cells and ends, and every `prev` points to the cell the
walk has come from.
-/

/-- Following `next` from `p` visits the cells `l` and then ends. -/
def WalkEnds (next : α → Option α) : Option α → List α → Prop
  | p, [] => p = none
  | p, x :: l => p = some x ∧ WalkEnds next (next x) l

/-- Every cell of `l` points back to the cell before it, the first one to `p`. -/
def BackLinked (prev : α → Option α) : Option α → List α → Prop
  | _, [] => True
  | p, x :: l => prev x = p ∧ BackLinked prev (some x) l

section

variable {next prev : α → Option α} {p : Option α} {l l' : List α}

theorem WalkEnds.head_eq (h : WalkEnds next p l) : p = l.head? := by
  cases l with
  | nil => exact h
  | cons x l => exact h.1

theorem WalkEnds.unique (h : WalkEnds next p l) (h' : WalkEnds next p l') : l = l' := by
  induction l generalizing p l' with
  | nil =>
    cases l' with
    | nil => rfl
    | cons y l' => rw [show p = none from h] at h'; cases h'.1
  | cons x l ih =>
    obtain ⟨rfl, h⟩ := h
    cases l' with
    | nil => cases h'
    | cons y l' =>
      obtain ⟨hxy, h'⟩ := h'
      cases hxy
      rw [ih h h']

/-- The walk from a cell it passes. -/
theorem WalkEnds.suffix {l₁ l₂ : List α} {x : α} (h : WalkEnds next p (l₁ ++ x :: l₂)) :
    WalkEnds next (some x) (x :: l₂) := by
  induction l₁ generalizing p with
  | nil => exact ⟨rfl, h.2⟩
  | cons y l₁ ih => exact ih h.2

/-- A walk that passed a cell twice would not end. -/
theorem WalkEnds.nodup (h : WalkEnds next p l) : l.Nodup := by
  induction l generalizing p with
  | nil => exact List.nodup_nil
  | cons x l ih =>
    rw [List.nodup_cons]
    refine ⟨fun hx => ?_, ih h.2⟩
    obtain ⟨l₁, l₂, rfl⟩ := List.append_of_mem hx
    have hlong : WalkEnds next (some x) (x :: (l₁ ++ x :: l₂)) := ⟨rfl, h.2⟩
    have hlen := congrArg List.length (hlong.unique (WalkEnds.suffix h.2))
    simp at hlen
    omega

theorem seg_iff : Seg next prev p l none ↔ WalkEnds next l.head? l ∧ BackLinked prev p l := by
  induction l generalizing p with
  | nil => simp [Seg, WalkEnds, BackLinked]
  | cons x l ih =>
    simp only [Seg, WalkEnds, BackLinked, ih, List.head?_cons, Option.or_none, true_and]
    constructor
    · rintro ⟨hprev, hnext, hwalk, hback⟩
      exact ⟨hnext ▸ hwalk, hprev, hback⟩
    · rintro ⟨hwalk, hprev, hback⟩
      have hnext := hwalk.head_eq
      exact ⟨hprev, hnext, hnext ▸ hwalk, hback⟩

theorem dlist_iff {head tail : Option α} :
    DList next prev head tail l ↔ WalkEnds next head l ∧ BackLinked prev none l ∧ tail = l.getLast? := by
  constructor
  · intro h
    obtain ⟨hwalk, hback⟩ := seg_iff.1 h.seg
    exact ⟨h.head_eq ▸ hwalk, hback, h.tail_eq⟩
  · rintro ⟨hwalk, hback, htail⟩
    have hhead := hwalk.head_eq
    exact ⟨hhead, htail, seg_iff.2 ⟨hhead ▸ hwalk, hback⟩, hwalk.nodup⟩

end

end Exchange
