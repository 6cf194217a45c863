/-
  Coroactors.Conc.System

  Transition systems whose steps can be executed, and the rules by which a
  property is carried over every run.

  A `System` has a set of initial states and a step function: the label of a
  step names who moves and how every free choice of that move is resolved, so
  a labelled step is a function and a trace can be replayed.

    * `ReachableIf ok` — the states of the runs all of whose steps meet the
      condition `ok` (a condition on the state before the step and the label);
      `Reachable` is the case where every step is allowed.
    * `Path ok s s'` — the same from a given state, for properties of the
      form "until something happens".
    * `invariant` / `invariant_of` — the induction over runs, once.
    * `run` and `runIf ok` — replaying a list of labels.
    * `Simulation` — forward simulation by a second system.

  Nothing here is about a particular program.
-/

import Mathlib.Logic.Function.Basic

namespace Coroactors.Conc

universe u v w

/-- A transition system with labelled, executable steps.  `step s a = none`
    says that `a` is not possible in `s`. -/
structure System (σ : Type u) (α : Type v) where
  init : σ → Prop
  step : σ → α → Option σ

namespace System

variable {σ : Type u} {α : Type v} (M : System σ α)

-- ============================================================================
-- Runs
-- ============================================================================

/-- The states of the runs whose every step meets `ok`. -/
inductive ReachableIf (ok : σ → α → Prop) : σ → Prop
  | init {s : σ} : M.init s → ReachableIf ok s
  | step {s s' : σ} (a : α) : ReachableIf ok s → ok s a → M.step s a = some s' →
      ReachableIf ok s'

/-- The states that some run reaches. -/
abbrev Reachable : σ → Prop := M.ReachableIf fun _ _ => True

/-- `s'` comes after `s` in a run whose steps in between all meet `ok`. -/
inductive Path (ok : σ → α → Prop) (s : σ) : σ → Prop
  | refl : Path ok s s
  | step {s₁ s₂ : σ} (a : α) : Path ok s s₁ → ok s₁ a → M.step s₁ a = some s₂ → Path ok s s₂

/-- Replay a list of labels. -/
def run : σ → List α → Option σ
  | s, [] => some s
  | s, a :: as => (M.step s a).bind (run · as)

/-- Replay a list of labels, each of which has to meet `ok`. -/
def runIf (ok : σ → α → Prop) [∀ s a, Decidable (ok s a)] : σ → List α → Option σ
  | s, [] => some s
  | s, a :: as => if ok s a then (M.step s a).bind (runIf ok · as) else none

variable {M}

-- ============================================================================
-- Invariants
-- ============================================================================

/-- A property that holds initially and is kept by every allowed step holds in
    every state of every allowed run. -/
theorem ReachableIf.invariant {ok : σ → α → Prop} {I : σ → Prop}
    (h0 : ∀ s, M.init s → I s)
    (hstep : ∀ s a s', I s → ok s a → M.step s a = some s' → I s')
    {s : σ} (h : M.ReachableIf ok s) : I s := by
  induction h with
  | init hi => exact h0 _ hi
  | step a _ hok hs ih => exact hstep _ a _ ih hok hs

/-- `invariant` with the facts already known of the reachable states at hand. -/
theorem ReachableIf.invariant_of {ok : σ → α → Prop} {J I : σ → Prop}
    (hJ : ∀ s, M.ReachableIf ok s → J s)
    (h0 : ∀ s, M.init s → I s)
    (hstep : ∀ s a s', J s → I s → ok s a → M.step s a = some s' → I s')
    {s : σ} (h : M.ReachableIf ok s) : I s := by
  induction h with
  | init hi => exact h0 _ hi
  | step a hr hok hs ih => exact hstep _ a _ (hJ _ hr) ih hok hs

/-- A weaker condition on the steps allows more runs. -/
theorem ReachableIf.mono {ok ok' : σ → α → Prop} (hle : ∀ s a, ok s a → ok' s a)
    {s : σ} (h : M.ReachableIf ok s) : M.ReachableIf ok' s := by
  induction h with
  | init hi => exact .init hi
  | step a _ hok hs ih => exact .step a ih (hle _ _ hok) hs

theorem ReachableIf.reachable {ok : σ → α → Prop} {s : σ} (h : M.ReachableIf ok s) :
    M.Reachable s :=
  h.mono fun _ _ _ => trivial

theorem Reachable.next {s s' : σ} (h : M.Reachable s) (a : α) (hs : M.step s a = some s') :
    M.Reachable s' :=
  .step a h trivial hs

/-- What the allowed steps keep is kept along a path of allowed steps. -/
theorem Path.invariant {ok : σ → α → Prop} {I : σ → Prop}
    (hstep : ∀ s a s', I s → ok s a → M.step s a = some s' → I s')
    {s s' : σ} (h : M.Path ok s s') (h0 : I s) : I s' := by
  induction h with
  | refl => exact h0
  | step a _ hok hs ih => exact hstep _ a _ ih hok hs

/-- A path from a reachable state stays among the reachable states. -/
theorem Path.reachable {ok : σ → α → Prop} {s s' : σ} (h : M.Path ok s s')
    (hr : M.Reachable s) : M.Reachable s' := by
  induction h with
  | refl => exact hr
  | step a _ _ hs ih => exact ih.next a hs

theorem Path.trans {ok : σ → α → Prop} {s s₁ s₂ : σ} (h : M.Path ok s s₁)
    (h' : M.Path ok s₁ s₂) : M.Path ok s s₂ := by
  induction h' with
  | refl => exact h
  | step a _ hok hs ih => exact .step a ih hok hs

-- ============================================================================
-- Replaying a trace
-- ============================================================================

theorem run_cons {s s' : σ} {a : α} {as : List α} (h : M.run s (a :: as) = some s') :
    ∃ s₁, M.step s a = some s₁ ∧ M.run s₁ as = some s' :=
  Option.bind_eq_some_iff.mp h

/-- A replayed trace ends in a reachable state. -/
theorem reachable_of_run {s s' : σ} {as : List α} (hs : M.Reachable s)
    (h : M.run s as = some s') : M.Reachable s' := by
  induction as generalizing s with
  | nil =>
      rw [run, Option.some.injEq] at h
      exact h ▸ hs
  | cons a as ih =>
      obtain ⟨s₁, h1, h2⟩ := run_cons h
      exact ih (hs.next a h1) h2

/-- If replaying a trace from an initial state ends where the test `p` holds,
    some reachable state satisfies `p`. -/
theorem exists_reachable_of_run {s : σ} (as : List α) (p : σ → Bool) (hs : M.init s)
    (h : (M.run s as).any p = true) : ∃ s', M.Reachable s' ∧ p s' = true := by
  cases hr : M.run s as with
  | none => simp [hr] at h
  | some s' =>
      rw [hr, Option.any_some] at h
      exact ⟨s', reachable_of_run (.init hs) hr, h⟩

/-- A trace replayed with `runIf ok` ends in a state of a run whose steps meet
    `ok`. -/
theorem reachableIf_of_runIf {ok : σ → α → Prop} [∀ s a, Decidable (ok s a)] {s s' : σ}
    {as : List α} (hs : M.ReachableIf ok s) (h : M.runIf ok s as = some s') :
    M.ReachableIf ok s' := by
  induction as generalizing s with
  | nil =>
      rw [runIf, Option.some.injEq] at h
      exact h ▸ hs
  | cons a as ih =>
      obtain ⟨hok, h⟩ := Option.ite_none_right_eq_some.mp h
      obtain ⟨s₁, h1, h2⟩ := Option.bind_eq_some_iff.mp h
      exact ih (.step a hs hok h1) h2

/-- `exists_reachable_of_run` for runs whose steps meet `ok`. -/
theorem exists_reachableIf_of_runIf {ok : σ → α → Prop} [∀ s a, Decidable (ok s a)] {s : σ}
    (as : List α) (p : σ → Bool) (hs : M.init s) (h : (M.runIf ok s as).any p = true) :
    ∃ s', M.ReachableIf ok s' ∧ p s' = true := by
  cases hr : M.runIf ok s as with
  | none => simp [hr] at h
  | some s' =>
      rw [hr, Option.any_some] at h
      exact ⟨s', reachableIf_of_runIf (.init hs) hr, h⟩

-- ============================================================================
-- Simulation
-- ============================================================================

variable {τ : Type w} {β : Type*}

/-- `R` relates every state of `M` to one of `N` such that every step of `M`
    from a reachable state is matched by a (possibly empty) path of `N`. -/
structure Simulation (M : System σ α) (N : System τ β) (R : σ → τ → Prop) : Prop where
  init : ∀ s, M.init s → ∃ t, N.init t ∧ R s t
  step : ∀ s a s' t, M.Reachable s → R s t → M.step s a = some s' →
    ∃ t', N.Path (fun _ _ => True) t t' ∧ R s' t'

/-- Every reachable state of the lower system is related to a reachable state
    of the upper one. -/
theorem Simulation.reachable {N : System τ β} {R : σ → τ → Prop} (hsim : Simulation M N R)
    {s : σ} (h : M.Reachable s) : ∃ t, N.Reachable t ∧ R s t := by
  induction h with
  | init hi =>
      obtain ⟨t, ht, hR⟩ := hsim.init _ hi
      exact ⟨t, .init ht, hR⟩
  | step a hr _ hs ih =>
      obtain ⟨t, ht, hR⟩ := ih
      obtain ⟨t', hp, hR'⟩ := hsim.step _ a _ t hr hR hs
      exact ⟨t', hp.reachable ht, hR'⟩

end System

end Coroactors.Conc
