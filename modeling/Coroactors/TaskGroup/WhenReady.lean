/-
  Coroactors.TaskGroup.WhenReady

  The invariants written in `task_group_when_ready_awaiter::await_suspend`
  (coroactors/detail/task_group.h): a `when_ready()` resumes with an empty head
  only when it was cancelled, with a non-empty head only when there is a
  result, and never with the cancellation flag set.

  They hold along every run whose steps meet `CancelOk`.  The step `CancelOk`
  excludes can be taken by the code: `push` swaps the awaiter for null before
  the coroutine is resumed and removes its callback, so a stop request in that
  window finds an empty head and marks it, and nobody is left to consume the
  mark.
-/

import Coroactors.TaskGroup.SinkInv

namespace Coroactors.TaskGroup

open Coroactors.Conc

variable {α : Type*} {s s' : State α}

/-- The next step of the owner reads `last_ready` in `ready()`, `await_ready()`
    or the sink's `await_resume()`. -/
def Owner.reads : Owner → Bool
  | .idle | .resume .next | .resume .nextResult | .removed => true
  | _ => false

/-- What `when_ready()` promises in a state of its run. -/
structure ReadySound (s : State α) : Prop where
  /-- The cancellation flag is not set when it completes. -/
  unmarked : ∀ r, s.owner = .completed r → s.lastReady ≠ .cancelled
  /-- It completes with nothing ready only if the stop was requested. -/
  stopped : ∀ r, s.owner = .completed r → ¬ s.avail → s.stop = true
  /-- It returns true only if a result is available. -/
  available : s.owner = .completed true → s.avail
  /-- Nobody reads the cancellation flag afterwards. -/
  unseen : s.owner.reads = true → s.lastReady ≠ .cancelled
  /-- No marker is treated as a result node. -/
  noCrash : s.owner ≠ .crashed
  asserts : s.assertFailed = false

theorem Quiet.unmarked (h : Quiet s) : s.lastReady ≠ .cancelled :=
  (Head.plain_ne h.2.2).2.2

theorem Inv.readySound (h : Inv s) : ReadySound s := by
  have hok := h.owner
  refine ⟨?_, ?_, ?_, ?_, ?_, h.assertOk⟩
  · intro r hr
    rw [hr] at hok
    exact hok.1.unmarked
  · intro r hr hna
    rw [hr] at hok
    exact hok.2.1.resolve_left hna
  · intro hr
    rw [hr] at hok
    exact hok.2.2 rfl
  · intro hr
    cases ho : s.owner with
    | idle =>
        rw [ho] at hok
        exact Quiet.unmarked hok
    | resume k =>
        rw [ho] at hok
        exact hok.1.unmarked
    | removed =>
        rw [ho] at hok
        exact hok.1.unmarked
    | _ => simp [ho, Owner.reads] at hr
  · intro hc
    rw [hc] at hok
    exact hok

-- ============================================================================
-- The step that breaks them
-- ============================================================================

/-- A marked head survives until `when_ready` completes, if nobody pushes. -/
theorem completes_marked (ho : s.owner = .resume .whenReady) (hc : s.canceller.removable = true)
    (hk : s.continuation = none) (hl : s.lastReady = .cancelled) :
    ∃ s', (group α).Path (fun _ _ => True) s s' ∧ ¬ ReadySound s' := by
  let s₁ : State α := { s with canceller := .off, owner := .removed }
  have h1 : (group α).step s (.owner .stopped false) = some s₁ := by
    simp [group, ownerStep, ho, hc, s₁]
  have hr : s₁.awaitReady = some true := by
    simp [s₁, State.awaitReady, hk, hl, Head.view]
  have h2 : (group α).step s₁ (.owner .stopped false) =
      some { s₁.awaitReadyAssert with owner := .completed true } := by
    simp only [group, ownerStep, hr, s₁]
  have hl' : s₁.awaitReadyAssert.lastReady = .cancelled := by
    unfold State.awaitReadyAssert
    split <;> exact hl
  refine ⟨_, .step _ (.step _ .refl trivial h1) trivial h2, fun hsound => ?_⟩
  exact hsound.unmarked true rfl hl'

/-- A `push` that took the awaiter wakes it up and leaves `last_ready` alone. -/
theorem push_wakes {i : Nat} {v : α} {k : Kind} {c : Nat} (ht : s.tasks i = .taken v)
    (ho : s.owner = .suspended k c) :
    ∃ s', (group α).step s (.push i false) = some s' ∧ s'.owner = .resume k ∧
      s'.canceller = s.canceller ∧ s'.continuation = none ∧ s'.lastReady = s.lastReady := by
  simp [group, pushStep, ht, State.takeContinuation, State.setTask, State.assert, ho, Owner.wake]

/-- Every step that `CancelOk` excludes can be followed by the completion of
    the `when_ready` with the flag set. -/
theorem breaks_of_not_cancelOk {a : Act α} (h : Inv s) (hs : (group α).step s a = some s')
    (hok : ¬ CancelOk s a) :
    ∃ s'', (group α).Path (fun _ _ => True) s' s'' ∧ ¬ ReadySound s'' := by
  cases a with
  | cancel sp =>
      simp only [CancelOk, Classical.not_imp, Bool.not_eq_false] at hok
      obtain ⟨hp, hl, rfl, hth⟩ := hok
      have harm := h.armed (by simp [hp])
      have ho := h.owner
      simp only [group, cancelStep, hp, hl, Head.view, decide_true, Bool.not_false,
        Bool.and_self, if_true, Option.some.injEq] at hs
      cases hw : s.owner with
      | resume k =>
          have hk : k = .whenReady := by
            cases k <;> simp_all [Owner.armed]
          subst hk
          rw [hw] at ho
          rw [← hs]
          exact completes_marked hw rfl ho.1.1 rfl
      | suspended k c =>
          have hk : k = .whenReady := by
            cases k <;> simp_all [Owner.armed]
          subst hk
          rw [hw] at ho
          -- the `push` that took the awaiter still has its node in hand
          obtain ⟨n, hn⟩ : ∃ n, s.hand = some n := by
            obtain ⟨-, -, hh | hh⟩ := ho
            · simp [hl] at hh
            · exact Option.ne_none_iff_exists'.mp hh.2
          have ht : s.tasks n.index = .taken n.value := (h.hand n.index n.value).mpr hn
          obtain ⟨s₁, h1, ho1, hc1, hk1, hl1⟩ := push_wakes
            (s := { s with lastReady := .cancelled, canceller := .done }) ht hw
          obtain ⟨s'', hpath, hbad⟩ := completes_marked ho1 (by rw [hc1]; rfl) hk1 hl1
          rw [← hs]
          exact ⟨s'', .trans (.step _ .refl trivial h1) hpath, hbad⟩
      | _ => simp [hw, Owner.through] at hth
  | _ => exact absurd trivial hok

/-- As long as the stop callback does not mark an empty head behind an
    `await_suspend` that is over, `when_ready()` keeps its promises; and the
    first time it does, the run can go on to the completion of that
    `when_ready()` with the flag set. -/
theorem whenReady_sound_iff_cancelOk :
    (∀ s : State α, (group α).ReachableIf CancelOk s → ReadySound s) ∧
    (∀ (s s' : State α) (a : Act α), (group α).ReachableIf CancelOk s →
      (group α).step s a = some s' → ¬ CancelOk s a →
        ∃ s'', (group α).Path (fun _ _ => True) s' s'' ∧ ¬ ReadySound s'') :=
  ⟨fun _ hr => (reachable_inv hr).readySound,
    fun _ _ _ hr hs hok => breaks_of_not_cancelOk (reachable_inv hr) hs hok⟩

/-- One task is added and awaited with `when_ready()`; its `push` takes the
    awaiter, and the stop callback runs before the coroutine does. -/
def cancelAfterPush : List (Act Unit) :=
  [.add, .await .whenReady, .owner .armed false, .owner .armed false, .owner .armed false,
   .complete 0 (), .push 0 false, .push 0 false, .push 0 false,
   .cancel false, .cancel false, .cancel false, .owner .armed false, .owner .armed false]

/-- `when_ready()` returns true with the cancellation flag set. -/
theorem whenReady_not_sound :
    ¬ ∀ s : State Unit, (group Unit).Reachable s → ReadySound s := by
  intro h
  obtain ⟨s, hr, hp⟩ := System.exists_reachable_of_run (M := group Unit) (s := State.start)
    cancelAfterPush
    (fun s => s.owner == .completed true && s.lastReady == .cancelled) rfl (by decide)
  simp only [Bool.and_eq_true, beq_iff_eq] at hp
  exact (h s hr).unmarked true hp.1 hp.2

end Coroactors.TaskGroup
