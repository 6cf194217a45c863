/-
  Coroactors.Semaphore.Wakeup

  `sync_semaphore` loses no wakeup when all requests are for one unit, the only
  ones the library makes, and the total stays in the range of the word.

  Then nobody can be woken in vain: the woken thread asks for no more than the
  others, and whoever sleeps although a unit is available has a notification
  coming or an awake waiter in front of it (`Enough`).

  Nothing checks the range.  A `release` that leaves it makes the word negative,
  and then `acquire` blocks although there are units.
-/

import Coroactors.Semaphore.Mixed

namespace Coroactors.Semaphore.Counts

open Coroactors.Conc

variable {bits : Nat} {s s' : State} {t : Nat} {c : Choice}

-- ============================================================================
-- Requests for one unit
-- ============================================================================

/-- Calls use the count one. -/
def Unit : Act → Prop
  | .release _ n | .acquire _ n => n = 1
  | .step .. => True

instance : ∀ a : Act, Decidable (Unit a)
  | .release _ n | .acquire _ n => inferInstanceAs (Decidable (n = 1))
  | .step .. => .isTrue trivial

/-- A unit is available and a thread is blocked, while no `release` is about to
    notify and every registered waiter is blocked. -/
def WakeupLost (s : State) : Prop :=
  1 ≤ s.available ∧ (∃ t, (s.pc t).isBlocked = true) ∧ (∀ t, (s.pc t).isNotify = false) ∧
    ∀ t, (s.pc t).isAwake = false

/-- Every thread in a call asks for one unit. -/
def Units (s : State) : Prop := ∀ t n, (s.pc t).count = some n → n = 1

/-- One thread goes on in a call for one unit, or returns. -/
theorem Units.update (hi : Units s) {p : Pc} (hp : ∀ n, p.count = some n → n = 1) (u : Nat) (n : Int)
    (hn : (Function.update s.pc t p u).count = some n) : n = 1 := by
  by_cases hut : u = t
  · subst hut
    rw [Function.update_self] at hn
    exact hp n hn
  · rw [Function.update_of_ne hut] at hn
    exact hi u n hn

theorem ThreadStep.units (hi : Units s) (h : ThreadStep s t c s') : Units s' := by
  cases h with
  | move hp hv => exact hi.update fun n hn => hi t n (hp.count ▸ hn)
  | add | notifyNone | took | leave => exact hi.update fun n hn => by cases hn
  | addOne hp | addMany hp => exact hi.update fun n hn => hi t n (hp ▸ hn)
  | notifyAll hp =>
      have hwake : Units s.wakeAll := fun u n hn => hi u n (Pc.wake_count (s.pc u) ▸ hn)
      exact hwake.update fun n hn => by cases hn
  | notifyOne hp h1 hc hw =>
      have hidle : Units ({ s with notifying := s.notifying.erase t }.goto t .idle) :=
        hi.update fun n hn => by cases hn
      exact hidle.update fun n hn => hidle _ n (Pc.wake_count _ ▸ hn)
  | enlist hfr hn | enlistFull hfr hn | block ha hn =>
      refine hi.update fun m hm => hi t m ?_
      rw [hn]
      exact hm
  | wake => exact hi.update fun n hn => hi t n (Pc.wake_count _ ▸ hn)

theorem step_units {a : Act} (hp : Packed bits s) (hi : Units s) (hok : InRange bits s a)
    (hu : Unit a) (hs : (semaphore bits).step s a = some s') : Units s' := by
  cases a with
  | release t n | acquire t n =>
      simp only [semaphore] at hs
      split at hs <;> cases hs
      exact hi.update fun m hm => (Option.some.inj hm).symm.trans hu
  | step t c =>
      obtain ⟨s₁, hs₁, rfl⟩ := Option.map_eq_some_iff.mp hs
      have hi₁ : Units s₁ := (stepThread_cases hp hok hs₁).units hi
      exact hi₁

/-- Nobody is woken who asks for more than the others. -/
theorem Units.wakesSmallest (hi : Units s) (a : Act) : WakesSmallest s a := by
  unfold WakesSmallest
  split
  · intro n hn h1 b m k hb hm hle hk
    exact Int.le_of_eq ((hi _ k hk).trans (hi b m hm).symm)
  · trivial

-- ============================================================================
-- Runs
-- ============================================================================

theorem reachable_units
    (hr : (semaphore bits).ReachableIf (fun s a => InRange bits s a ∧ Unit a) s) :
    Packed bits s ∧ Enough s ∧ Units s := by
  refine hr.invariant (I := fun s => Packed bits s ∧ Enough s ∧ Units s) ?_ ?_
  · rintro _ ⟨count, h0, hf, rfl⟩
    exact ⟨packed_start h0 hf, .of_nobody (by simp [State.start]) List.nodup_nil rfl,
      fun t n hn => by cases hn⟩
  · rintro s a s' ⟨hp, he, hu⟩ ⟨hok, hunit⟩ hs
    exact ⟨step_packed hp hok hs, step_enough hp he ⟨hok, hu.wakesSmallest a⟩ hs,
      step_units hp hu hok hunit hs⟩

/-- `sync_semaphore` loses no wakeup: in no run of requests for one unit whose
    total stays in the range of the word is there a state in which a unit is
    available and a thread is blocked while no `release` is about to notify and
    every registered waiter is blocked. -/
theorem no_lost_wakeup (bits : Nat) :
    ¬ ∃ s, (semaphore bits).ReachableIf (fun s a => InRange bits s a ∧ Unit a) s ∧
      WakeupLost s := by
  rintro ⟨s, hr, hav, ⟨t, ht⟩, hquiet, hasleep⟩
  obtain ⟨hp, he, hu⟩ := reachable_units hr
  have hawake : s.awake = [] := by
    refine List.eq_nil_iff_forall_not_mem.mpr fun u hu => ?_
    rw [hp.awake u, hasleep u] at hu
    cases hu
  have hnotifying : s.notifying = [] := by
    refine List.eq_nil_iff_forall_not_mem.mpr fun u hu => ?_
    exact Pc.ne_notify (hquiet u) ((he.notifying u).mp hu)
  obtain ⟨m, hm⟩ : ∃ m, (s.pc t).count = some m := by
    revert ht
    cases s.pc t <;> simp [Pc.isBlocked, Pc.count]
  rcases he.enough t m ((hp.blocked t).mpr ht) hm with h | ⟨u, k, huk, -⟩
  · have hval := hp.value
    have hone := hu t m hm
    rw [State.helpers, hawake, hnotifying] at h
    simp only [List.countP_nil, List.length_nil] at h
    omega
  · exact Pc.ne_notify (hquiet u) huk

/-- From the largest count that fits into 32 bits: thread 0 releases one more
    unit, and thread 1 asks for one. -/
def overflow : List Act :=
  [.release 0 1, .step 0 .go,
    .acquire 1 1, .step 1 .go, .step 1 .go, .step 1 .go, .step 1 .go]

/-- Out of range the word is negative: thread 1 blocks with all units available,
    and nobody is there to wake it. -/
theorem overflow_lost : ∃ s, (semaphore 32).ReachableIf (fun _ => Unit) s ∧ WakeupLost s := by
  let places : List (Nat × Pc) :=
    [(0, .add 1), (0, .idle), (1, .fast 1), (1, .spin 1 (-2147483648)),
      (1, .register 1 (-2147483648)), (1, .slow 1 (-2147483647)), (1, .blocked 1 (-2147483647))]
  let s : State :=
    { State.start 32 536870911 with
      value := -2147483647
      blocked := [1]
      released := 1
      peak := 1
      pc := places.foldl (fun pc p => Function.update pc p.1 p.2) fun _ => .idle }
  have hrun : (semaphore 32).runIf (fun _ => Unit) (.start 32 536870911) overflow = some s := rfl
  have hinit : (semaphore 32).init (.start 32 536870911) :=
    ⟨536870911, by decide, by unfold Fits; decide, rfl⟩
  have hpc : ∀ u, s.pc u = .idle ∨ s.pc u = .blocked 1 (-2147483647) := by
    intro u
    by_cases h1 : u = 1
    · exact .inr (h1 ▸ rfl)
    exact .inl (by simp [s, places, h1])
  refine ⟨s, System.reachableIf_of_runIf (.init hinit) hrun, by decide, ⟨1, rfl⟩, fun u => ?_,
    fun u => ?_⟩
  · rcases hpc u with h | h <;> rw [h] <;> rfl
  · rcases hpc u with h | h <;> rw [h] <;> rfl

end Coroactors.Semaphore.Counts
