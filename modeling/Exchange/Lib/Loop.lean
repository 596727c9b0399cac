import Mathlib.Data.Option.Basic
import Mathlib.Data.List.Forall2

/-!
# Loops and runs of partial step functions

`runLoop` executes a `while` loop whose body may leave the loop or fail, for at most `fuel` iterations; `none` means
that the loop failed or has not ended yet.  `runAll` feeds a list of inputs to a step function that may fail and
collects the outputs.  For both there is a rule that turns an invariant of one step into a statement about the whole
execution, and a rule that turns a simulation of one step into a simulation of the execution.
-/

namespace Exchange

variable {σ τ ι ο : Type}

/-- What one iteration of a loop does: leave the loop, fail, or go on with a new state. -/
inductive Iteration (σ : Type) where
  | stop
  | fault
  | next (s : σ)

def runLoop (step : σ → Iteration σ) : Nat → σ → Option σ
  | 0, _ => none
  | fuel + 1, s =>
    match step s with
    | .stop => some s
    | .fault => none
    | .next s' => runLoop step fuel s'

theorem runLoop_stop {step : σ → Iteration σ} {s : σ} (h : step s = .stop) (fuel : Nat) :
    runLoop step (fuel + 1) s = some s := by
  rw [runLoop, h]

theorem runLoop_next {step : σ → Iteration σ} {s s' : σ} (h : step s = .next s') (fuel : Nat) :
    runLoop step (fuel + 1) s = runLoop step fuel s' := by
  rw [runLoop, h]

/-- Total correctness of a loop: an invariant under which no iteration fails and every iteration that goes on
decreases a measure is kept until the loop stops, and the loop does stop. -/
theorem runLoop_rule (step : σ → Iteration σ) (Inv : σ → Prop) (μ : σ → Nat)
    (hfault : ∀ s, Inv s → step s ≠ .fault)
    (hnext : ∀ s s', Inv s → step s = .next s' → Inv s' ∧ μ s' < μ s) :
    ∀ (fuel : Nat) (s : σ), Inv s → μ s < fuel →
      ∃ s', runLoop step fuel s = some s' ∧ Inv s' ∧ step s' = .stop := by
  intro fuel
  induction fuel with
  | zero => intro s _ hμ; omega
  | succ fuel ih =>
    intro s hs hμ
    cases h : step s with
    | stop => exact ⟨s, runLoop_stop h fuel, hs, h⟩
    | fault => exact absurd h (hfault s hs)
    | next s₁ =>
      obtain ⟨hs₁, hlt⟩ := hnext s s₁ hs h
      obtain ⟨s', hrun, hs'⟩ := ih s₁ hs₁ (by omega)
      exact ⟨s', by rw [runLoop_next h, hrun], hs'⟩

theorem runLoop_succ {step : σ → Iteration σ} {fuel : Nat} {s s' : σ} (h : runLoop step fuel s = some s') :
    runLoop step (fuel + 1) s = some s' := by
  induction fuel generalizing s with
  | zero => cases h
  | succ fuel ih =>
    cases hs : step s with
    | stop =>
      rw [runLoop_stop hs] at h
      rw [runLoop_stop hs, h]
    | fault => rw [runLoop, hs] at h; cases h
    | next s₁ =>
      rw [runLoop_next hs] at h
      rw [runLoop_next hs, ih h]

theorem runLoop_mono {step : σ → Iteration σ} {fuel fuel' : Nat} {s s' : σ} (hle : fuel ≤ fuel')
    (h : runLoop step fuel s = some s') : runLoop step fuel' s = some s' := by
  induction hle with
  | refl => exact h
  | step _ ih => exact runLoop_succ ih

/-- However long a loop may run, it ends in one state. -/
theorem runLoop_unique {step : σ → Iteration σ} {fuel fuel' : Nat} {s s₁ s₂ : σ} (h₁ : runLoop step fuel s = some s₁)
    (h₂ : runLoop step fuel' s = some s₂) : s₁ = s₂ := by
  have hmax₁ := runLoop_mono (Nat.le_max_left fuel fuel') h₁
  have hmax₂ := runLoop_mono (Nat.le_max_right fuel fuel') h₂
  exact Option.some.inj (hmax₁.symm.trans hmax₂)

/-- A loop whose iterations all increase `size` has not iterated if `size` has not increased. -/
theorem runLoop_grows {step : σ → Iteration σ} (size : σ → Nat)
    (hgrow : ∀ s s', step s = .next s' → size s < size s') {fuel : Nat} {s s' : σ}
    (h : runLoop step fuel s = some s') : s' = s ∨ size s < size s' := by
  induction fuel generalizing s with
  | zero => cases h
  | succ fuel ih =>
    cases hs : step s with
    | stop =>
      rw [runLoop_stop hs] at h
      cases h
      exact Or.inl rfl
    | fault => rw [runLoop, hs] at h; cases h
    | next s₁ =>
      rw [runLoop_next hs] at h
      have hlt := hgrow s s₁ hs
      rcases ih h with rfl | hmore
      · exact Or.inr hlt
      · exact Or.inr (by omega)

/-- The state after `n` iterations of a loop, if they all go on. -/
def stateAfter (step : σ → Iteration σ) : Nat → σ → Option σ
  | 0, s => some s
  | n + 1, s =>
    match step s with
    | .next s' => stateAfter step n s'
    | _ => none

theorem stateAfter_next {step : σ → Iteration σ} {s s' : σ} (h : step s = .next s') (n : Nat) :
    stateAfter step (n + 1) s = stateAfter step n s' := by
  rw [stateAfter, h]

/-- What every iteration keeps holds of all states of the loop. -/
theorem stateAfter_rule {step : σ → Iteration σ} (Inv : σ → Prop)
    (hnext : ∀ s s', Inv s → step s = .next s' → Inv s') {n : Nat} {s s' : σ} (hs : Inv s)
    (h : stateAfter step n s = some s') : Inv s' := by
  induction n generalizing s with
  | zero => cases h; exact hs
  | succ n ih =>
    cases hstep : step s with
    | stop => rw [stateAfter, hstep] at h; cases h
    | fault => rw [stateAfter, hstep] at h; cases h
    | next s₁ =>
      rw [stateAfter_next hstep] at h
      exact ih (hnext s s₁ hs hstep) h

/-- Two iterations simulate each other: they end the same way, in related states. -/
def Iteration.Sim (R : σ → τ → Prop) : Iteration σ → Iteration τ → Prop
  | .stop, .stop => True
  | .fault, .fault => True
  | .next s, .next t => R s t
  | _, _ => False

/-- If the iterations of two loops simulate each other, so do the loops. -/
theorem runLoop_sim {f : σ → Iteration σ} {g : τ → Iteration τ} (R : σ → τ → Prop)
    (hstep : ∀ s t, R s t → Iteration.Sim R (f s) (g t)) :
    ∀ (fuel : Nat) (s : σ) (t : τ) (s' : σ), R s t → runLoop f fuel s = some s' →
      ∃ t', runLoop g fuel t = some t' ∧ R s' t' := by
  intro fuel
  induction fuel with
  | zero => intro s t s' _ h; cases h
  | succ fuel ih =>
    intro s t s' hst hrun
    have hsim := hstep s t hst
    cases hf : f s with
    | stop =>
      rw [runLoop_stop hf] at hrun
      cases hrun
      cases hg : g t with
      | stop => exact ⟨t, runLoop_stop hg fuel, hst⟩
      | fault => rw [hf, hg] at hsim; cases hsim
      | next t₁ => rw [hf, hg] at hsim; cases hsim
    | fault => rw [runLoop, hf] at hrun; cases hrun
    | next s₁ =>
      rw [runLoop_next hf] at hrun
      cases hg : g t with
      | stop => rw [hf, hg] at hsim; cases hsim
      | fault => rw [hf, hg] at hsim; cases hsim
      | next t₁ =>
        rw [hf, hg] at hsim
        obtain ⟨t', ht', hR⟩ := ih s₁ t₁ s' hsim hrun
        exact ⟨t', by rw [runLoop_next hg, ht'], hR⟩

/-! ### Runs over a list of inputs -/

def runAll (step : σ → ι → Option (ο × σ)) : σ → List ι → Option (List ο × σ)
  | s, [] => some ([], s)
  | s, i :: is =>
    match step s i with
    | none => none
    | some (o, s') =>
      match runAll step s' is with
      | none => none
      | some (os, s'') => some (o :: os, s'')

theorem runAll_cons {step : σ → ι → Option (ο × σ)} {s s' : σ} {i : ι} {o : ο} (h : step s i = some (o, s'))
    (is : List ι) :
    runAll step s (i :: is) = (runAll step s' is).map fun p => (o :: p.1, p.2) := by
  rw [runAll, h]
  dsimp only
  cases runAll step s' is <;> rfl

theorem runAll_append {step : σ → ι → Option (ο × σ)} {s s₁ s₂ : σ} {is js : List ι} {os ps : List ο}
    (h : runAll step s is = some (os, s₁)) (h' : runAll step s₁ js = some (ps, s₂)) :
    runAll step s (is ++ js) = some (os ++ ps, s₂) := by
  induction is generalizing s os with
  | nil =>
    cases h
    exact h'
  | cons i is ih =>
    cases hi : step s i with
    | none => rw [runAll, hi] at h; cases h
    | some p =>
      obtain ⟨o, s'⟩ := p
      rw [runAll_cons hi, Option.map_eq_some_iff] at h
      obtain ⟨⟨os', s₁'⟩, hrun, heq⟩ := h
      cases heq
      rw [List.cons_append, runAll_cons hi, ih hrun]
      rfl

/-- An invariant under which no step fails and that every step keeps: no run fails, and every run keeps it.  What the
steps guarantee about an input and its output holds of all of them. -/
theorem runAll_rule {step : σ → ι → Option (ο × σ)} (Inv : σ → Prop) (Q : ι → ο → Prop)
    (hstep : ∀ s i, Inv s → ∃ o s', step s i = some (o, s') ∧ Inv s' ∧ Q i o) (is : List ι) (s : σ) (hs : Inv s) :
    ∃ os s', runAll step s is = some (os, s') ∧ Inv s' ∧ List.Forall₂ Q is os := by
  induction is generalizing s with
  | nil => exact ⟨[], s, rfl, hs, .nil⟩
  | cons i is ih =>
    obtain ⟨o, s₁, h₁, hs₁, hQ⟩ := hstep s i hs
    obtain ⟨os, s', hrun, hs', hQs⟩ := ih s₁ hs₁
    exact ⟨o :: os, s', by rw [runAll_cons h₁, hrun]; rfl, hs', .cons hQ hQs⟩

/-- An invariant may also speak about the inputs and the outputs so far. -/
theorem runAll_history {step : σ → ι → Option (ο × σ)} (Inv : List ι → List ο → σ → Prop)
    (hstep : ∀ is os s i, Inv is os s → ∃ o s', step s i = some (o, s') ∧ Inv (is ++ [i]) (os ++ [o]) s')
    (is : List ι) (s : σ) (hs : Inv [] [] s) : ∃ os s', runAll step s is = some (os, s') ∧ Inv is os s' := by
  -- the invariant of the rest of a run, after the inputs `is₀`
  have hrest : ∀ (is is₀ : List ι) (os₀ : List ο) (s : σ), Inv is₀ os₀ s →
      ∃ os s', runAll step s is = some (os, s') ∧ Inv (is₀ ++ is) (os₀ ++ os) s' := by
    intro is
    induction is with
    | nil =>
      intro is₀ os₀ s hs
      exact ⟨[], s, rfl, by simpa using hs⟩
    | cons i is ih =>
      intro is₀ os₀ s hs
      obtain ⟨o, s₁, h₁, hs₁⟩ := hstep is₀ os₀ s i hs
      obtain ⟨os, s', hrun, hs'⟩ := ih (is₀ ++ [i]) (os₀ ++ [o]) s₁ hs₁
      refine ⟨o :: os, s', ?_, ?_⟩
      · rw [runAll_cons h₁, hrun]
        rfl
      · simpa using hs'
  exact hrest is [] [] s hs

/-- The rule for steps that return a value only now and then, with an invariant about the values returned so far. -/
theorem runAll_returns {ρ : Type} {step : σ → ι → Option (Option ρ × σ)} (Inv : List ρ → σ → Prop)
    (hstep : ∀ rets s i, Inv rets s → ∃ out s', step s i = some (out, s') ∧ Inv (rets ++ out.toList) s') (is : List ι)
    {rets : List ρ} {s : σ} (hs : Inv rets s) :
    ∃ outs s', runAll step s is = some (outs, s') ∧ Inv (rets ++ outs.filterMap id) s' := by
  refine runAll_history (fun _ outs s => Inv (rets ++ outs.filterMap id) s) ?_ is s (by simpa using hs)
  intro _ outs s i h
  obtain ⟨out, s', hi, h'⟩ := hstep _ s i h
  refine ⟨out, s', hi, ?_⟩
  have hone : [out].filterMap id = out.toList := by cases out <;> rfl
  rw [List.filterMap_append, hone, ← List.append_assoc]
  exact h'

/-- An invariant that every step keeps holds after every run that does not fail. -/
theorem runAll_keeps {step : σ → ι → Option (ο × σ)} (Inv : List ι → List ο → σ → Prop)
    (hstep : ∀ is os s i o s', Inv is os s → step s i = some (o, s') → Inv (is ++ [i]) (os ++ [o]) s')
    {is : List ι} {os : List ο} {s s' : σ} (hs : Inv [] [] s) (h : runAll step s is = some (os, s')) :
    Inv is os s' := by
  -- the invariant of the rest of a run, after the inputs `is₀`
  have hrest : ∀ (is is₀ : List ι) (os₀ os : List ο) (s s' : σ), Inv is₀ os₀ s →
      runAll step s is = some (os, s') → Inv (is₀ ++ is) (os₀ ++ os) s' := by
    intro is
    induction is with
    | nil =>
      intro is₀ os₀ os s s' hs h
      cases h
      simpa using hs
    | cons i is ih =>
      intro is₀ os₀ os s s' hs h
      cases hi : step s i with
      | none => rw [runAll, hi] at h; cases h
      | some p =>
        obtain ⟨o, s₁⟩ := p
        rw [runAll_cons hi, Option.map_eq_some_iff] at h
        obtain ⟨⟨os', s''⟩, hrun, heq⟩ := h
        cases heq
        simpa using ih (is₀ ++ [i]) (os₀ ++ [o]) os' s₁ s'' (hstep is₀ os₀ s i o s₁ hs hi) hrun
  exact hrest is [] [] os s s' hs h

/-- Steps that go through on the inputs that meet `C` and that refine a function on an abstract state: runs over such
inputs go through and refine its fold. -/
theorem runAll_foldl {α : Type} {step : σ → ι → Option (ο × σ)} {apply : α → ι → α} (R : σ → α → Prop) {C : ι → Prop}
    (hstep : ∀ s a i, R s a → C i → ∃ o s', step s i = some (o, s') ∧ R s' (apply a i)) {is : List ι}
    (his : ∀ i ∈ is, C i) {s : σ} {a : α} (h : R s a) :
    ∃ os s', runAll step s is = some (os, s') ∧ R s' (is.foldl apply a) := by
  induction is generalizing s a with
  | nil => exact ⟨[], s, rfl, h⟩
  | cons i is ih =>
    obtain ⟨o, s₁, hi, h₁⟩ := hstep s a i h (his i List.mem_cons_self)
    obtain ⟨os, s', hrun, h'⟩ := ih (fun j hj => his j (List.mem_cons_of_mem i hj)) h₁
    refine ⟨o :: os, s', ?_, h'⟩
    rw [runAll_cons hi, hrun]
    rfl

/-- Steps that go through on the inputs that meet `C`, keep an invariant and give outputs that meet `Q`: so do the
runs over such inputs. -/
theorem runAll_rule_of_mem {step : σ → ι → Option (ο × σ)} {C : ι → Prop} (Inv : σ → Prop) (Q : ο → Prop)
    (hstep : ∀ s i, Inv s → C i → ∃ o s', step s i = some (o, s') ∧ Inv s' ∧ Q o) {is : List ι}
    (his : ∀ i ∈ is, C i) {s : σ} (hs : Inv s) :
    ∃ os s', runAll step s is = some (os, s') ∧ Inv s' ∧ ∀ o ∈ os, Q o := by
  induction is generalizing s with
  | nil => exact ⟨[], s, rfl, hs, fun o ho => (List.not_mem_nil ho).elim⟩
  | cons i is ih =>
    obtain ⟨o, s₁, hi, hs₁, ho⟩ := hstep s i hs (his i List.mem_cons_self)
    obtain ⟨os, s', hrun, hs', hos⟩ := ih (fun j hj => his j (List.mem_cons_of_mem i hj)) hs₁
    exact ⟨o :: os, s', by rw [runAll_cons hi, hrun]; rfl, hs', List.forall_mem_cons.2 ⟨ho, hos⟩⟩

/-- Steps that simulate each other on corresponding inputs give runs that simulate each other and have corresponding
outputs. -/
theorem runAll_forall₂ {κ π : Type} {f : σ → ι → Option (ο × σ)} {g : τ → κ → Option (π × τ)} (R : σ → τ → Prop)
    {I : ι → κ → Prop} {O : ο → π → Prop}
    (hstep : ∀ s t i k, R s t → I i k → ∃ o p s' t', f s i = some (o, s') ∧ g t k = some (p, t') ∧ O o p ∧ R s' t')
    {is : List ι} {ks : List κ} (hI : List.Forall₂ I is ks) (s : σ) (t : τ) (hst : R s t) :
    ∃ os ps s' t', runAll f s is = some (os, s') ∧ runAll g t ks = some (ps, t') ∧ List.Forall₂ O os ps ∧ R s' t' := by
  induction hI generalizing s t with
  | nil => exact ⟨[], [], s, t, rfl, rfl, .nil, hst⟩
  | cons hik _ ih =>
    obtain ⟨o, p, s₁, t₁, hf, hg, hO, hR⟩ := hstep s t _ _ hst hik
    obtain ⟨os, ps, s', t', hfs, hgs, hOs, hR'⟩ := ih s₁ t₁ hR
    refine ⟨o :: os, p :: ps, s', t', ?_, ?_, .cons hO hOs, hR'⟩
    · rw [runAll_cons hf, hfs]; rfl
    · rw [runAll_cons hg, hgs]; rfl

/-- The same, for steps that take the same inputs and have the same outputs. -/
theorem runAll_sim {f : σ → ι → Option (ο × σ)} {g : τ → ι → Option (ο × τ)} (R : σ → τ → Prop)
    (hstep : ∀ s t i, R s t → ∃ o s' t', f s i = some (o, s') ∧ g t i = some (o, t') ∧ R s' t')
    (is : List ι) (s : σ) (t : τ) (hst : R s t) :
    ∃ os s' t', runAll f s is = some (os, s') ∧ runAll g t is = some (os, t') ∧ R s' t' := by
  have hsame : ∀ s t i k, R s t → i = k →
      ∃ o p s' t', f s i = some (o, s') ∧ g t k = some (p, t') ∧ o = p ∧ R s' t' := by
    rintro s t i _ hR rfl
    obtain ⟨o, s', t', hf, hg, hR'⟩ := hstep s t i hR
    exact ⟨o, o, s', t', hf, hg, rfl, hR'⟩
  obtain ⟨os, ps, s', t', hf, hg, hO, hR⟩ := runAll_forall₂ R hsame (List.forall₂_refl is) s t hst
  rw [List.forall₂_eq_eq_eq] at hO
  subst hO
  exact ⟨os, s', t', hf, hg, hR⟩

/-- The same, for steps whose outputs differ in a way that the input tells. -/
theorem runAll_sim_zipWith {π : Type} {f : σ → ι → Option (ο × σ)} {g : τ → ι → Option (π × τ)} (R : σ → τ → Prop)
    (out : ι → ο → π)
    (hstep : ∀ s t i, R s t → ∃ o s' t', f s i = some (o, s') ∧ g t i = some (out i o, t') ∧ R s' t')
    (is : List ι) (s : σ) (t : τ) (hst : R s t) :
    ∃ os s' t', runAll f s is = some (os, s') ∧ runAll g t is = some (List.zipWith out is os, t') ∧ R s' t' := by
  induction is generalizing s t with
  | nil => exact ⟨[], s, t, rfl, rfl, hst⟩
  | cons i is ih =>
    obtain ⟨o, s₁, t₁, hf, hg, hR⟩ := hstep s t i hst
    obtain ⟨os, s', t', hfs, hgs, hR'⟩ := ih s₁ t₁ hR
    refine ⟨o :: os, s', t', ?_, ?_, hR'⟩
    · rw [runAll_cons hf, hfs]; rfl
    · rw [runAll_cons hg, hgs]; rfl

/-- A run and what one observer sees of it: the steps on inputs that `see` maps to an input of `g` are simulated by a
step of `g`, the other steps are hidden from it. -/
theorem runAll_observe {κ π : Type} {f : σ → ι → Option (ο × σ)} {g : τ → κ → Option (π × τ)} (see : ι → Option κ)
    (R : σ → τ → Prop) (O : ι → ο → π → Prop)
    (hseen : ∀ s t i k, see i = some k → R s t →
      ∃ o p s' t', f s i = some (o, s') ∧ g t k = some (p, t') ∧ O i o p ∧ R s' t')
    (hhidden : ∀ s t i, see i = none → R s t → ∃ o s', f s i = some (o, s') ∧ R s' t)
    (is : List ι) (s : σ) (t : τ) (hst : R s t) :
    ∃ os ps s' t', runAll f s is = some (os, s') ∧ runAll g t (is.filterMap see) = some (ps, t') ∧
      List.Forall₂ (fun io p => O io.1 io.2 p) ((is.zip os).filter fun io => (see io.1).isSome) ps ∧ R s' t' := by
  induction is generalizing s t with
  | nil => exact ⟨[], [], s, t, rfl, rfl, .nil, hst⟩
  | cons i is ih =>
    cases hsee : see i with
    | none =>
      obtain ⟨o, s₁, hf, hR⟩ := hhidden s t i hsee hst
      obtain ⟨os, ps, s', t', hfs, hgs, hO, hR'⟩ := ih s₁ t hR
      refine ⟨o :: os, ps, s', t', by rw [runAll_cons hf, hfs]; rfl, ?_, ?_, hR'⟩
      · rw [List.filterMap_cons, hsee]; exact hgs
      · rw [List.zip_cons_cons, List.filter_cons_of_neg (by simp [hsee])]; exact hO
    | some k =>
      obtain ⟨o, p, s₁, t₁, hf, hg, hiop, hR⟩ := hseen s t i k hsee hst
      obtain ⟨os, ps, s', t', hfs, hgs, hO, hR'⟩ := ih s₁ t₁ hR
      refine ⟨o :: os, p :: ps, s', t', by rw [runAll_cons hf, hfs]; rfl, ?_, ?_, hR'⟩
      · rw [List.filterMap_cons, hsee]
        dsimp only
        rw [runAll_cons hg, hgs]
        rfl
      · rw [List.zip_cons_cons, List.filter_cons_of_pos (by simp [hsee])]; exact .cons hiop hO

/-- Every step of the run over the inputs starts from a state and with an input that meet `C`. -/
def AllSteps (step : σ → ι → Option (ο × σ)) (C : σ → ι → Prop) : σ → List ι → Prop
  | _, [] => True
  | s, i :: is =>
    C s i ∧
      match step s i with
      | none => True
      | some (_, s') => AllSteps step C s' is

theorem allSteps_of_forall {step : σ → ι → Option (ο × σ)} {C : σ → ι → Prop} (h : ∀ s i, C s i) (is : List ι) (s : σ) :
    AllSteps step C s is := by
  induction is generalizing s with
  | nil => exact trivial
  | cons i is ih =>
    refine ⟨h s i, ?_⟩
    cases hstep : step s i with
    | none => exact trivial
    | some p => exact ih p.2

/-- Conditions that are equivalent wherever an invariant holds are equivalent along every run, if the steps that meet
them keep the invariant. -/
theorem allSteps_congr {step : σ → ι → Option (ο × σ)} {C D : σ → ι → Prop} (Inv : σ → Prop)
    (hCD : ∀ s i, Inv s → (C s i ↔ D s i)) (hstep : ∀ s i o s', Inv s → C s i → step s i = some (o, s') → Inv s')
    (is : List ι) (s : σ) (hs : Inv s) : AllSteps step C s is ↔ AllSteps step D s is := by
  induction is generalizing s with
  | nil => exact Iff.rfl
  | cons i is ih =>
    unfold AllSteps
    rw [← hCD s i hs]
    refine and_congr_right fun hC => ?_
    cases h : step s i with
    | none => exact Iff.rfl
    | some p => exact ih p.2 (hstep s i p.1 p.2 hs hC h)

/-- A property of states that steps keep if and only if they meet `C`: it holds in all states of a run if and only if
all its steps meet `C`.  No run fails. -/
theorem runAll_iff_states {step : σ → ι → Option (ο × σ)} {C : σ → ι → Prop} {Q : σ → Prop} (Inv : σ → Prop)
    (hstep : ∀ s i, Inv s → ∃ o s', step s i = some (o, s') ∧ Inv s' ∧ (Q s → (Q s' ↔ C s i))) (is : List ι) (s : σ)
    (hs : Inv s) (hQ : Q s) :
    ∃ os s', runAll step s is = some (os, s') ∧ Inv s' ∧
      (AllSteps step C s is ↔ AllSteps step (fun s _ => Q s) s is ∧ Q s') := by
  -- all states of a run have the property only if the first one has
  have hfirst : ∀ (is : List ι) {s s' : σ} {os : List ο}, runAll step s is = some (os, s') →
      AllSteps step (fun s _ => Q s) s is → Q s' → Q s := by
    intro is s s' os hrun hall hQ'
    cases is with
    | nil => cases hrun; exact hQ'
    | cons i is => exact hall.1
  induction is generalizing s with
  | nil => exact ⟨[], s, rfl, hs, iff_of_true trivial ⟨trivial, hQ⟩⟩
  | cons i is ih =>
    obtain ⟨o, s₁, h₁, hs₁, hiff⟩ := hstep s i hs
    by_cases hC : C s i
    · obtain ⟨os, s', hrun, hs', hall⟩ := ih s₁ hs₁ ((hiff hQ).2 hC)
      refine ⟨o :: os, s', by rw [runAll_cons h₁, hrun]; rfl, hs', ?_⟩
      unfold AllSteps
      rw [h₁]
      simp only [hC, hQ, true_and]
      exact hall
    · obtain ⟨os, s', hrun, hs', -⟩ :=
        runAll_rule Inv (fun _ _ => True) (fun s i hs => by
          obtain ⟨o, s', h, hs', -⟩ := hstep s i hs
          exact ⟨o, s', h, hs', trivial⟩) is s₁ hs₁
      refine ⟨o :: os, s', by rw [runAll_cons h₁, hrun]; rfl, hs', iff_of_false (fun hall => hC hall.1) ?_⟩
      rintro ⟨hall, hQ'⟩
      unfold AllSteps at hall
      rw [h₁] at hall
      exact hC ((hiff hQ).1 (hfirst is hrun hall.2 hQ'))

/-- An invariant that steps from `C` keep holds after every run of such steps, and no such run fails. -/
theorem runAll_rule_of_allSteps {step : σ → ι → Option (ο × σ)} {C : σ → ι → Prop} (Inv : σ → Prop)
    (hstep : ∀ s i, Inv s → C s i → ∃ o s', step s i = some (o, s') ∧ Inv s') (is : List ι) (s : σ) (hs : Inv s)
    (hC : AllSteps step C s is) : ∃ os s', runAll step s is = some (os, s') ∧ Inv s' := by
  induction is generalizing s with
  | nil => exact ⟨[], s, rfl, hs⟩
  | cons i is ih =>
    obtain ⟨hi, hrest⟩ := hC
    obtain ⟨o, s₁, h₁, hs₁⟩ := hstep s i hs hi
    rw [h₁] at hrest
    obtain ⟨os, s', hrun, hs'⟩ := ih s₁ hs₁ hrest
    exact ⟨o :: os, s', by rw [runAll_cons h₁, hrun]; rfl, hs'⟩

end Exchange
