/-
  Coroactors.Async.EndsIn

  Where `co_await ctx(awaitable)` ends (Coroactors.Async.ChangeContext).

  If the awaiter is ready and the context changes, the guard that is meant for
  exceptions runs after the transfer: it sets the old context, and does so even
  if the runnable may run elsewhere by then.  In all other cases the coroutine
  goes on in the new context.  The old context is released once, before
  `await_suspend` returns; the awaiter may resume the coroutine earlier.
-/

import Coroactors.Async.AwaitInv

namespace Coroactors.Async

open Coroactors.Conc
open Coroactors.Context (contexts stepThread Aims Keeps)

variable {R C S : Type*} {s s' : State R C S}

-- ============================================================================
-- The properties
-- ============================================================================

/-- What is promised of the coroutine that executes on `t` after the
    `co_await`. -/
structure EndsIn (s : State R C S) (t : Nat) : Prop where
  context : s.context = s.new
  owns : ∀ c, s.new = some c → c ∈ s.base.owned t
  released : ∀ c, s.old = some c → s.new ≠ some c → s.released = 1
  stack : ∀ u, (s.stack u).count self = if u = t then 1 else 0

/-- Nor is the continuation resumed before the old context is released. -/
def Clean (s : State R C S) : Act R C → Prop
  | .resume _ => ∀ c, s.old = some c → s.new ≠ some c → s.released = 1
  | a => SameIfReady s a

-- ============================================================================
-- The release of the old context
-- ============================================================================

section Release

variable [DecidableEq R] [DecidableEq C] [DecidableEq S] {sched : C → S}

/-- The continuation was resumed, or the coroutine goes on. -/
def State.underway (s : State R C S) : Prop :=
  s.handle = .used ∨ (∃ t, s.handle = .entering t) ∨ ∃ t, s.coro = .resuming t ∨ s.coro = .resumed t

/-- A runnable of the awaiter is queued after the old context was released. -/
theorem Sound.released_of_queued {e : Context.Entry (Runnable R) C} (h : Sound sched s)
    (hu : s.underway → s.Released) (he : e.runnable = .switch ∨ e.runnable = .restore)
    (hq : e ∈ s.base.queue (sched e.context)) : s.Released := by
  obtain ⟨hc, -, hsw, hre⟩ := h.queued he hq
  rcases he with he | he
  · have hn := hsw he
    have hph := h.phase
    cases hp : s.suspend <;> simp only [State.Phase, hp, hc, hn] at hph
    case before => cases hph.1
    case awaiter | leave => exact absurd rfl hph.2.2.1
    case returned =>
      obtain ⟨-, ht | hr⟩ := hph
      · cases ht
      · exact hr
    case transfer r =>
      obtain ⟨-, -, -, -, -, htr, hrel⟩ := hph
      rw [if_neg ?_] at hrel
      · exact hrel
      intro hx
      have hsub := Context.Pc.submitting_of_transfers htr (Option.isSome_iff_ne_none.mp hx)
      have hplace := (h.inv.core.submitting _ _).mp hsub
      rw [← he, (h.inv.core.queue _ e hq).2.1] at hplace
      cases hplace
  · obtain ⟨h1, h2⟩ := hre he
    refine hu ?_
    cases hh : s.handle with
    | none => exact absurd hh h1
    | given => exact absurd hh h2
    | entering t => exact .inr (.inl ⟨t, hh⟩)
    | used => exact .inl hh

theorem Sound.released_of_transfers (h : Sound sched s) (hp : s.suspend = .awaiter)
    (hg : s.handle = .given)
    (hs : State.startTransfer sched { s with handle := .none } false = some s') :
    s'.underway → s'.Released := by
  have hph := (h.transfers hp hg hs).phase
  have hc := h.given hg
  obtain ⟨b, -, rfl⟩ := Option.map_eq_some_iff.mp hs
  by_cases hidle : b.pc s.thread = .idle
  · simp only [State.transferTo, hidle, if_true, Bool.false_eq_true, if_false, State.Phase,
      State.suspendReturns] at hph ⊢
    obtain ⟨-, ht | hr⟩ := hph
    · rw [hc] at ht
      split at ht <;> cases ht
    · exact fun _ => hr
  · simp only [State.transferTo, hidle, if_false]
    rintro (hx | ⟨t, hx⟩ | ⟨t, hx⟩) <;> simp [hc] at hx

/-- If the continuation is resumed after the release only, so is the coroutine. -/
theorem step_released {a : Act R C} (h : Sound sched s) (hu : s.underway → s.Released)
    (hok : Clean s a) (hs : (changeContext sched).step s a = some s') :
    s'.underway → s'.Released := by
  simp only [changeContext] at hs
  rw [if_neg (by simp [h.terminated])] at hs
  cases a <;> simp only at hs
  case start t c =>
    split at hs <;> cases hs
    rename_i hc
    have hh := (h.phase.before (by rw [hc.1]; rfl)).2.1
    intro hx
    simp [State.underway, State.enter, hh] at hx
  case coAwait new ready w =>
    split at hs
    · split at hs
      · unfold State.coAwait at hs
        cases ready with
        | true =>
            obtain rfl := hok rfl
            simp only [Bool.true_and, decide_true, if_true, Option.some.injEq] at hs
            subst hs
            exact fun _ c h1 h2 => absurd h1 h2
        | false =>
            simp only [Bool.false_and, Bool.false_eq_true, if_false, Option.some.injEq] at hs
            subst hs
            rintro (hx | ⟨t, hx⟩ | ⟨t, hx⟩) <;> simp at hx
      · cases hs
    · cases hs
  case suspended b =>
    split at hs
    · cases hs
    · rename_i hp
      have hp := not_not.mp hp
      split at hs
      · obtain ⟨c, hc, rfl⟩ := Option.map_eq_some_iff.mp hs
        unfold State.leaveOld
        split <;> exact hu
      · split at hs
        · rename_i hg
          exact h.released_of_transfers hp hg.2 hs
        · cases hs
  case throws =>
    split at hs <;> cases hs
    rintro (hx | ⟨t, hx⟩ | ⟨t, hx⟩) <;> simp at hx
  case resume t =>
    split at hs
    · obtain ⟨c, hc, rfl⟩ := Option.map_eq_some_iff.mp hs
      have hr : s.Released := hok
      intro _
      simpa [State.Released, State.restoreTask] using hr
    · cases hs
  case suspendStep k =>
    obtain ⟨c, hc, hs⟩ := Option.bind_eq_some_iff.mp hs
    split at hs <;> cases hs
    all_goals intro _
    · rename_i r hp _
      have hr := h.released_step (.inl ⟨r, hp⟩)
      unfold State.transferTo
      split
      · split <;> exact hr
      · exact hr
    · rename_i hp _
      have hr := h.released_step (.inr hp)
      unfold State.leaveOld
      split <;> exact hr
  case enterStep k =>
    split at hs
    · rename_i t hh
      obtain ⟨c, hc, rfl⟩ := Option.map_eq_some_iff.mp hs
      intro _
      have hr := hu (.inr (.inl ⟨t, hh⟩))
      simpa [State.Released, State.restoreTask] using hr
    · cases hs
  case guard =>
    split at hs
    · rename_i hp
      have hph := h.phase
      simp only [State.Phase, hp] at hph
    · cases hs
  case run t e =>
    have hq : ∀ {c}, (contexts sched).step s.base (.run t e) = some c →
        e ∈ s.base.queue (sched e.context) := by
      intro c hc
      simp only [contexts] at hc
      split at hc
      · rename_i hq
        exact hq.2
      · cases hc
    intro _
    split at hs
    · rename_i he
      obtain ⟨c, hc, rfl⟩ := Option.map_eq_some_iff.mp hs
      have hr := h.released_of_queued hu (.inl he) (hq hc)
      split <;> exact hr
    · rename_i he
      obtain ⟨c, hc, rfl⟩ := Option.map_eq_some_iff.mp hs
      exact h.released_of_queued hu (.inr he) (hq hc)
    · cases hs
  case awaitResume =>
    split at hs <;> cases hs
    rename_i t hc
    have hr := hu (.inr (.inr ⟨t, .inl hc⟩))
    intro _
    split
    · simpa [State.Released, State.enter] using hr
    · exact hr
  case other a =>
    split at hs
    · obtain ⟨c, hc, rfl⟩ := Option.map_eq_some_iff.mp hs
      exact hu
    · cases hs
  case otherEnter t i =>
    split at hs <;> cases hs
    exact hu
  case otherLeave t =>
    split at hs
    · split at hs <;> cases hs
      exact hu
    · cases hs

/-- In a clean run the coroutine goes on after the release. -/
theorem reachable_clean (h : (changeContext sched).ReachableIf Clean s) :
    Sound sched s ∧ (s.underway → s.Released) := by
  have hle : ∀ (s : State R C S) (a : Act R C), Clean s a → SameIfReady s a := by
    intro s a ha
    cases a <;> first | exact ha | trivial
  refine h.invariant (I := fun s => Sound sched s ∧ (s.underway → s.Released)) ?_ ?_
  · rintro s rfl
    exact ⟨start_sound, by rintro (hx | ⟨t, hx⟩ | ⟨t, hx⟩) <;> simp [State.start, Await.start] at hx⟩
  · rintro s a s' ⟨hs, hu⟩ hok hstep
    exact ⟨step_sound hs (hle s a hok) hstep, step_released hs hu hok hstep⟩

end Release

-- ============================================================================
-- The ready path
-- ============================================================================

section Ready

variable [DecidableEq R] [DecidableEq C] [DecidableEq S] {sched : C → S}

/-- `await_suspend` of a ready awaiter is called for another context only. -/
def State.ReadyDiffers (s : State R C S) : Prop :=
  s.suspend = .transfer true ∨ (∃ b, s.suspend = .guard b) → s.old ≠ s.new

omit [DecidableEq S] in
theorem readyDiffers_transferTo {ready : Bool} (h : ready = true → s.old ≠ s.new) :
    (s.transferTo ready).ReadyDiffers := by
  unfold State.transferTo
  split
  · split
    · rename_i hr
      exact fun _ => h hr
    · rintro (hx | ⟨b, hx⟩) <;> simp [State.suspendReturns] at hx
  · rintro (hx | ⟨b, hx⟩)
    · exact h (by simpa using hx)
    · simp at hx

theorem readyDiffers_startTransfer {ready : Bool} (h : ready = true → s.old ≠ s.new)
    (hs : s.startTransfer sched ready = some s') : s'.ReadyDiffers := by
  obtain ⟨b, -, rfl⟩ := Option.map_eq_some_iff.mp hs
  exact readyDiffers_transferTo h

theorem step_readyDiffers {a : Act R C} (h : s.ReadyDiffers)
    (hs : (changeContext sched).step s a = some s') : s'.ReadyDiffers := by
  simp only [changeContext] at hs
  split at hs
  · cases hs
  cases a <;> simp only at hs
  case start t c =>
    split at hs <;> cases hs
    simpa [State.ReadyDiffers, State.enter] using h
  case coAwait new ready w =>
    split at hs
    · split at hs
      · rename_i t _ _
        simp only [State.coAwait] at hs
        split at hs
        · cases hs
          rintro (hx | ⟨b, hx⟩) <;> simp at hx
        · rename_i hne
          split at hs
          · rename_i hr
            refine readyDiffers_startTransfer (fun _ => ?_) hs
            simpa [hr, State.leave] using hne
          · cases hs
            rintro (hx | ⟨b, hx⟩) <;> simp at hx
      · cases hs
    · cases hs
  case suspended b =>
    split at hs
    · cases hs
    · split at hs
      · obtain ⟨c, hc, rfl⟩ := Option.map_eq_some_iff.mp hs
        unfold State.leaveOld
        split
        all_goals rintro (hx | ⟨b, hx⟩) <;> simp [State.suspendReturns] at hx
      · split at hs
        · exact readyDiffers_startTransfer (by simp) hs
        · cases hs
  case throws =>
    split at hs <;> cases hs
    rintro (hx | ⟨b, hx⟩) <;> simp at hx
  case resume t =>
    split at hs
    · obtain ⟨c, hc, rfl⟩ := Option.map_eq_some_iff.mp hs
      simpa [State.ReadyDiffers, State.restoreTask] using h
    · cases hs
  case suspendStep k =>
    obtain ⟨c, hc, hs⟩ := Option.bind_eq_some_iff.mp hs
    split at hs <;> cases hs
    · rename_i hp
      refine readyDiffers_transferTo ?_
      rintro rfl
      exact h (.inl hp)
    · unfold State.leaveOld
      split
      all_goals rintro (hx | ⟨b, hx⟩) <;> simp [State.suspendReturns] at hx
  case enterStep k =>
    split at hs
    · obtain ⟨c, hc, rfl⟩ := Option.map_eq_some_iff.mp hs
      simpa [State.ReadyDiffers, State.restoreTask] using h
    · cases hs
  case guard =>
    split at hs <;> cases hs
    rintro (hx | ⟨b, hx⟩) <;> simp [State.suspendReturns] at hx
  case run t e =>
    split at hs
    · obtain ⟨c, hc, rfl⟩ := Option.map_eq_some_iff.mp hs
      split <;> exact h
    · obtain ⟨c, hc, rfl⟩ := Option.map_eq_some_iff.mp hs
      exact h
    · cases hs
  case awaitResume =>
    split at hs <;> cases hs
    rename_i t _
    split
    · simpa [State.ReadyDiffers, State.enter] using h
    · exact h
  case other a =>
    split at hs
    · obtain ⟨c, hc, rfl⟩ := Option.map_eq_some_iff.mp hs
      exact h
    · cases hs
  case otherEnter t i =>
    split at hs <;> cases hs
    exact h
  case otherLeave t =>
    split at hs
    · split at hs <;> cases hs
      exact h
    · cases hs

/-- The guard breaks the switch: the program ends, the task is changed when the
    runnable may run elsewhere, or the coroutine goes on in another context. -/
theorem guard_breaks (h : (changeContext sched).Reachable s)
    (hs : (changeContext sched).step s .guard = some s') :
    s'.terminated = true ∨ s'.touched = true ∨
      s'.context ≠ s'.new ∧ s'.coro = .resuming s'.thread := by
  have hd : s.ReadyDiffers := by
    refine h.invariant (I := State.ReadyDiffers) ?_ fun s a s' hi _ hs => step_readyDiffers hi hs
    rintro s rfl
    rintro (hx | ⟨b, hx⟩) <;> simp [State.start] at hx
  simp only [changeContext] at hs
  split at hs
  · cases hs
  · split at hs <;> cases hs
    rename_i answer hp
    have hne := hd (.inr ⟨answer, hp⟩)
    cases answer with
    | false => exact .inr (.inl (by simp))
    | true =>
        by_cases hactive : s.active = true
        · simp [State.runGuard, State.enter, Await.enter, State.suspendReturns, hactive]
        · simp [State.runGuard, State.enter, Await.enter, State.suspendReturns, hactive, hne]

end Ready

-- ============================================================================
-- Every run
-- ============================================================================

section Runs

variable [DecidableEq R] [DecidableEq C] [DecidableEq S] {sched : C → S}

/-- Where the coroutine executes, but for the release of the old context. -/
theorem Sound.ends {t : Nat} (h : Sound sched s) (hc : s.coro = .resumed t) :
    s.context = s.new ∧ (∀ c, s.new = some c → c ∈ s.base.owned t) ∧
      ∀ u, (s.stack u).count self = if u = t then 1 else 0 := by
  have hcontext := h.context_eq (by rw [hc]; rfl) (by rw [hc]; rfl)
  refine ⟨hcontext, fun c hx => (h.keeps t c (by rw [hc]; rfl) (hcontext.trans hx)).owned, ?_⟩
  intro u
  rw [h.stack u, hc]
  simp [Coro.listed, eq_comm]

/-- In every run without a ready awaiter for another context, where the
    continuation is resumed after the release of the old context, the coroutine
    executes in the new context and `await_suspend` changes no task that may run
    elsewhere.  Without the second condition the same holds, but the release may
    come later, before `await_suspend` returns.  And a ready awaiter for another
    context always breaks the switch. -/
theorem changeContext_endsIn_of_clean (sched : C → S) :
    (∀ s : State R C S, (changeContext sched).ReachableIf Clean s →
      (∀ t, s.coro = .resumed t → EndsIn s t) ∧ s.touched = false ∧ s.terminated = false) ∧
    (∀ s : State R C S, (changeContext sched).ReachableIf SameIfReady s →
      (∀ t, s.coro = .resumed t → s.context = s.new ∧
        (∀ c, s.new = some c → c ∈ s.base.owned t) ∧
        ∀ u, (s.stack u).count self = if u = t then 1 else 0) ∧
      (s.suspend = .returned → (∀ t, s.coro ≠ .threw t) →
        ∀ c, s.old = some c → s.new ≠ some c → s.released = 1) ∧
      s.touched = false ∧ s.terminated = false) ∧
    (∀ s s' : State R C S, (changeContext sched).Reachable s →
      (changeContext sched).step s .guard = some s' →
      s'.terminated = true ∨ s'.touched = true ∨
        s'.context ≠ s'.new ∧ s'.coro = .resuming s'.thread) := by
  refine ⟨?_, ?_, fun s s' h hs => guard_breaks h hs⟩
  · intro s h
    obtain ⟨hi, hu⟩ := reachable_clean h
    refine ⟨fun t hc => ?_, hi.touched, hi.terminated⟩
    obtain ⟨h1, h2, h3⟩ := hi.ends hc
    exact ⟨h1, h2, hu (.inr (.inr ⟨t, .inr hc⟩)), h3⟩
  · intro s h
    have hi := reachable_sound h
    refine ⟨fun t hc => hi.ends hc, fun hp hne => ?_, hi.touched, hi.terminated⟩
    have hph := hi.phase
    simp only [State.Phase, hp] at hph
    obtain ⟨-, ht | hr⟩ := hph
    · cases hc : s.coro <;> rw [hc] at ht <;> try cases ht
      exact absurd hc (hne _)
    · exact hr

end Runs

/-- A coroutine without a context awaits a ready awaiter in a context that
    nobody uses: the transfer answers true, and the guard runs. -/
def readyAwaiter : List (Act Nat Unit) :=
  let item : Context.Choice (Runnable Nat) := ⟨.item, none⟩
  [.start 0 none, .coAwait (some ()) true .void, .suspendStep item, .suspendStep item,
   .suspendStep item, .suspendStep item, .guard, .awaitResume]

/-- The coroutine executes with the old context in its task. -/
theorem ready_keeps_old_context :
    ¬ ∀ s : State Nat Unit Unit, (changeContext fun _ => ()).Reachable s →
      ∀ t, s.coro = .resumed t → EndsIn s t := by
  intro h
  obtain ⟨s, hr, hp⟩ := System.exists_reachable_of_run (M := changeContext fun _ : Unit => ())
    (s := State.start) readyAwaiter
    (fun s => s.coro == .resumed 0 && s.context == none && s.new == some ()) rfl (by decide)
  simp only [Bool.and_eq_true, beq_iff_eq] at hp
  have he := (h s hr 0 hp.1.1).context
  rw [hp.1.2, hp.2] at he
  cases he

end Coroactors.Async
