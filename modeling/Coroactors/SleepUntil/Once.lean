/-
  Coroactors.SleepUntil.Once

  `actor_context::sleep_until` (coroactors/detail/actor_sleep_until.h): a
  coroutine and the callback of a scheduler meet in a `sleep_until_context`,
  which is one atomic word.

  The word is null, the handle of the suspended coroutine, or a marker that says
  what the callback was called with.  The scheduler gets a function object that
  holds the context, copies it and destroys its copies, and calls it at most
  once, at any time from the call of `schedule` on, in any thread.  The coroutine
  may be destroyed while it is suspended; it is up to the user that the callback
  is not called meanwhile.

  The context is reference counted by the awaiter and by the copies of the
  function object.
-/

import Coroactors.Conc.System
import Mathlib.Tactic.Common

namespace Coroactors.SleepUntil

open Coroactors.Conc

-- ============================================================================
-- Model
-- ============================================================================

/-- `continuation`. -/
inductive Word where
  | null
  /-- The handle of the suspended coroutine. -/
  | handle
  /-- `MarkerSuccess` or `MarkerFailure`. -/
  | marker (success : Bool)
deriving DecidableEq, Repr

/-- Where the coroutine is. -/
inductive Pc where
  /-- Before `await_ready`. -/
  | start
  /-- `await_ready`: in `schedule`. -/
  | schedule
  /-- `await_ready`: before `ready`. -/
  | ready
  /-- Before `await_suspend`. -/
  | suspend
  | suspended
  /-- Before `await_resume`. -/
  | resume
  | returned (success : Bool)
  /-- `status` threw. -/
  | threw
  /-- `~sleep_until_awaiter`: before `cancel`. -/
  | destroying
  | destroyed
deriving DecidableEq, Repr

/-- What became of the callback. -/
inductive Callback where
  | none
  /-- The scheduler has not called it. -/
  | held
  /-- `finish`: before the exchange. -/
  | called (success : Bool)
  /-- `finish`: with the handle, before `resume`. -/
  | resuming (success : Bool)
  | done (success : Bool)
deriving DecidableEq, Repr

structure State where
  /-- The awaiter has a scheduler. -/
  scheduler : Bool
  continuation : Word
  pc : Pc
  callback : Callback
  /-- The awaiter's pointer is not null. -/
  context : Bool
  /-- The copies of the function object. -/
  copies : Nat
  refcount : Nat
  /-- How often the context was deleted. -/
  deleted : Nat
  /-- How often the coroutine went on to `await_resume`. -/
  resumes : Nat
  assertFailed : Bool
  /-- The context was used after it was deleted, or a coroutine resumed that was
      not suspended. -/
  crashed : Bool
deriving DecidableEq, Repr

inductive Act where
  /-- The next step of the coroutine. -/
  | step
  /-- The scheduler calls the callback. -/
  | call (success : Bool)
  /-- The next step of `finish`. -/
  | finish
  /-- The scheduler copies the function object. -/
  | copy
  /-- The scheduler destroys a copy. -/
  | drop
  /-- The suspended coroutine is destroyed. -/
  | destroy
deriving DecidableEq, Repr

namespace State

def start (scheduler : Bool) : State where
  scheduler
  continuation := .null
  pc := .start
  callback := .none
  context := false
  copies := 0
  refcount := 0
  deleted := 0
  resumes := 0
  assertFailed := false
  crashed := false

/-- The context is used. -/
def use (s : State) : State := { s with crashed := s.crashed || s.deleted ≠ 0 }

/-- A reference to the context is released. -/
def release (s : State) : State :=
  { s with
    refcount := s.refcount - 1
    deleted := if s.refcount = 1 then s.deleted + 1 else s.deleted }

/-- The coroutine goes on to `await_resume`. -/
def proceed (s : State) : State := { s with pc := .resume, resumes := s.resumes + 1 }

/-- The exchange of `finish`. -/
def exchange (s : State) (success : Bool) : State :=
  let s' := { s.use with continuation := .marker success }
  match s.continuation with
  | .null => { s' with callback := .done success }
  | .handle => { s' with callback := .resuming success }
  | .marker _ => { s' with callback := .resuming success, assertFailed := true }

/-- `resume` of the handle that `finish` found. -/
def resumeHandle (s : State) (success : Bool) : State :=
  let s' := { s with callback := .done success }
  if s.pc = .suspended then s'.proceed else { s' with crashed := true }

/-- Some thread is in `finish`. -/
def inFinish (s : State) : Bool :=
  match s.callback with
  | .called _ | .resuming _ => true
  | _ => false

end State

def stepCoroutine (s : State) : Option State :=
  match s.pc with
  | .start =>
      let s' := { s with context := true, refcount := 1 }
      if s.scheduler then
        some { s' with pc := .schedule, callback := .held, copies := 1, refcount := 2 }
      else
        some ({ s'.exchange false with callback := .none }.proceed)
  | .schedule => some { s with pc := .ready }
  | .ready =>
      if s.continuation ≠ .null then some s.use.proceed else some { s.use with pc := .suspend }
  | .suspend =>
      if s.continuation = .null then
        some { s.use with continuation := .handle, pc := .suspended }
      else some s.use.proceed
  | .resume =>
      let s' := { s.use with context := false }
      match s.continuation with
      | .marker success => some { s'.release with pc := .returned success }
      | _ => some { s'.release with pc := .threw }
  | .destroying =>
      some { { s.use with context := false, continuation := .null }.release with pc := .destroyed }
  | .suspended | .returned _ | .threw | .destroyed => none

/-- A coroutine that sleeps, its scheduler, and whoever destroys it. -/
def sleep : System State Act where
  init s := ∃ scheduler, s = .start scheduler
  step s
    | .step => stepCoroutine s
    | .call success =>
        if s.callback = .held ∧ 0 < s.copies then some { s with callback := .called success }
        else none
    | .finish =>
        match s.callback with
        | .called success => some (s.exchange success)
        | .resuming success => some (s.resumeHandle success)
        | _ => none
    | .copy =>
        if 0 < s.copies then some { s with copies := s.copies + 1, refcount := s.refcount + 1 }
        else none
    | .drop =>
        -- The copy that is being called is not destroyed
        if (if s.inFinish then 1 else 0) < s.copies then
          some { s with copies := s.copies - 1 }.release
        else none
    | .destroy => if s.pc = .suspended then some { s with pc := .destroying } else none

/-- The coroutine is not destroyed while somebody is about to resume it. -/
def Careful (s : State) : Act → Prop
  | .destroy => s.inFinish = false
  | .call _ => s.pc ≠ .destroying
  | _ => True

-- ============================================================================
-- The invariant
-- ============================================================================

/-- The places of the coroutine before it can be suspended. -/
def Pc.early : Pc → Bool
  | .schedule | .ready | .suspend => true
  | _ => false

/-- How the coroutine, the callback and the word fit together. -/
inductive Fits : Callback → Pc → Word → Prop where
  | start : Fits .none .start .null
  /-- Without a scheduler. -/
  | alone : Fits .none .resume (.marker false)
  | aloneReturned {w : Word} : Fits .none (.returned false) w
  | held {p : Pc} : p.early = true → Fits .held p .null
  | heldSuspended : Fits .held .suspended .handle
  | heldDestroying : Fits .held .destroying .handle
  | heldDestroyed : Fits .held .destroyed .null
  | called {p : Pc} {success : Bool} : p.early = true → Fits (.called success) p .null
  | calledSuspended {success : Bool} : Fits (.called success) .suspended .handle
  | calledDestroyed {success : Bool} : Fits (.called success) .destroyed .null
  | resuming {success : Bool} : Fits (.resuming success) .suspended (.marker success)
  | done {p : Pc} {success : Bool} : p.early = true → Fits (.done success) p (.marker success)
  | doneResume {success : Bool} : Fits (.done success) .resume (.marker success)
  | doneReturned {success : Bool} {w : Word} : Fits (.done success) (.returned success) w
  | doneDestroyed {success : Bool} : Fits (.done success) .destroyed (.marker success)

/-- The awaiter has its reference at these places. -/
def Pc.holds : Pc → Bool
  | .start | .returned _ | .threw | .destroyed => false
  | _ => true

/-- How often the coroutine has been let on at these places. -/
def Pc.resumes : Pc → Nat
  | .resume | .returned _ | .threw => 1
  | _ => 0

/-- Who refers to the context, and what became of it. -/
structure Refs (s : State) : Prop where
  context : s.context = s.pc.holds
  count : s.refcount = (if s.context then 1 else 0) + s.copies
  deleted : s.deleted = if s.pc = .start ∨ s.refcount ≠ 0 then 0 else 1
  copies : s.pc = .start → s.copies = 0
  copy : s.inFinish = true → 0 < s.copies

structure Inv (s : State) : Prop where
  fits : Fits s.callback s.pc s.continuation
  scheduler : s.callback = .none → s.pc = .start ∨ s.scheduler = false
  refs : Refs s
  resumes : s.resumes = s.pc.resumes
  assertOk : s.assertFailed = false
  crashOk : s.crashed = false

theorem inv_start (scheduler : Bool) : Inv (.start scheduler) where
  fits := .start
  scheduler _ := .inl rfl
  refs :=
    { context := rfl
      count := rfl
      deleted := rfl
      copies _ := rfl
      copy h := by simp [State.inFinish, State.start] at h }
  resumes := rfl
  assertOk := rfl
  crashOk := rfl

-- ============================================================================
-- References
-- ============================================================================

variable {s s' : State}

/-- Whoever has a reference uses a context that is still there. -/
theorem Refs.alive (h : Refs s) (hr : s.context = true ∨ 0 < s.copies) : s.deleted = 0 := by
  rw [h.deleted, if_pos]
  right
  rw [h.count]
  rcases hr with hr | hr
  · simp [hr]
  · omega

theorem use_eq (h : s.deleted = 0) : s.use = s := by
  cases s
  simp_all [State.use]

/-- The last reference deletes the context. -/
theorem release_deleted (h : s.refcount ≠ 0) (hd : s.deleted = 0) :
    s.release.deleted = if s.release.refcount ≠ 0 then 0 else 1 := by
  by_cases h1 : s.refcount = 1
  · simp [State.release, h1, hd]
  · have h2 : s.refcount - 1 ≠ 0 := by omega
    simp [State.release, h1, h2, hd]

/-- The coroutine goes on with its reference. -/
theorem Refs.move {p : Pc} {w : Word} {n : Nat} (h : Refs s) (hp : s.pc.holds = true)
    (hp' : p.holds = true) : Refs { s with pc := p, continuation := w, resumes := n } where
  context := h.context.trans (hp.trans hp'.symm)
  count := h.count
  deleted := by
    have hc : s.context = true := h.context.trans hp
    have hr : s.refcount ≠ 0 := by
      rw [h.count, hc]
      simp
    show s.deleted = _
    rw [h.alive (.inl hc), if_pos (.inr hr)]
  copies hst := by
    have : p = .start := hst
    rw [this] at hp'
    cases hp'
  copy := h.copy

/-- The awaiter gives up its reference. -/
theorem Refs.leave {p : Pc} {w : Word} (h : Refs s) (hp : s.pc.holds = true)
    (hp' : p.holds = false) (hne : p ≠ .start) :
    Refs { ({ s with context := false, continuation := w } : State).release with pc := p } where
  context := hp'.symm
  count := by
    show s.refcount - 1 = 0 + s.copies
    rw [h.count, h.context.trans hp]
    simp
  deleted := by
    have hc : s.context = true := h.context.trans hp
    have hr : s.refcount ≠ 0 := by
      rw [h.count, hc]
      simp
    have := release_deleted (s := { s with context := false, continuation := w }) hr
      (h.alive (.inl hc))
    simpa [hne] using this
  copies hst := absurd hst hne
  copy := h.copy

/-- The copy that is called is there until `finish` is done. -/
theorem Refs.called {c : Callback} {w : Word} (h : Refs s) (hc : 0 < s.copies) :
    Refs { s with continuation := w, callback := c } where
  context := h.context
  count := h.count
  deleted := h.deleted
  copies := h.copies
  copy _ := hc

theorem Refs.add (h : Refs s) (hc : 0 < s.copies) :
    Refs { s with copies := s.copies + 1, refcount := s.refcount + 1 } where
  context := h.context
  count := by
    show s.refcount + 1 = _ + (s.copies + 1)
    rw [h.count, Nat.add_assoc]
  deleted := by
    show s.deleted = _
    rw [h.alive (.inr hc)]
    simp
  copies hst := by
    have := h.copies hst
    omega
  copy _ := Nat.succ_pos _

theorem Refs.drop (h : Refs s) (hc : (if s.inFinish then 1 else 0) < s.copies) :
    Refs ({ s with copies := s.copies - 1 } : State).release where
  context := h.context
  count := by
    show s.refcount - 1 = (if s.context then 1 else 0) + (s.copies - 1)
    rw [h.count]
    omega
  deleted := by
    have hr : s.refcount ≠ 0 := by
      rw [h.count]
      omega
    have hst : s.pc ≠ .start := fun hst => by
      rw [h.copies hst] at hc
      omega
    have := release_deleted (s := { s with copies := s.copies - 1 }) hr
      (h.alive (.inr (by omega)))
    simpa [State.release, hst] using this
  copies hst := by
    show s.copies - 1 = 0
    rw [h.copies hst]
  copy hin := by
    have hin' : s.inFinish = true := hin
    rw [hin', if_pos rfl] at hc
    show 0 < s.copies - 1
    omega

-- ============================================================================
-- Steps
-- ============================================================================

theorem exchange_null {success : Bool} (h : s.deleted = 0) (hw : s.continuation = .null) :
    s.exchange success =
      { s with continuation := .marker success, callback := .done success } := by
  simp [State.exchange, hw, use_eq h]

theorem exchange_handle {success : Bool} (h : s.deleted = 0) (hw : s.continuation = .handle) :
    s.exchange success =
      { s with continuation := .marker success, callback := .resuming success } := by
  simp [State.exchange, hw, use_eq h]

/-- It goes on to `await_resume` when it finds a marker. -/
theorem Fits.proceed {c : Callback} {p : Pc} {w : Word} (h : Fits c p w) (hp : p.early = true)
    (hw : w ≠ .null) : Fits c .resume w := by
  cases h with
  | done => exact .doneResume
  | alone => exact .alone
  | doneResume => exact .doneResume
  | start | held | called | heldDestroyed | calledDestroyed => exact absurd rfl hw
  | aloneReturned | heldSuspended | heldDestroying | calledSuspended | resuming | doneReturned
  | doneDestroyed => cases hp

/-- It waits when it finds null. -/
theorem Fits.suspend {c : Callback} {p : Pc} (h : Fits c p .null) (hp : p.early = true) :
    Fits c .suspended .handle := by
  cases h with
  | held => exact .heldSuspended
  | called => exact .calledSuspended
  | start | aloneReturned | heldDestroyed | calledDestroyed | doneReturned => cases hp

theorem Fits.next {c : Callback} {p q : Pc} {w : Word} (h : Fits c p w) (hp : p.early = true)
    (hq : q.early = true) : Fits c q w := by
  cases h with
  | held => exact .held hq
  | called => exact .called hq
  | done => exact .done hq
  | start | alone | aloneReturned | heldSuspended | heldDestroying | heldDestroyed
  | calledSuspended | calledDestroyed | resuming | doneResume | doneReturned
  | doneDestroyed => cases hp

/-- In `await_resume` the marker says what the coroutine returns. -/
theorem Fits.resume {c : Callback} {w : Word} (h : Fits c .resume w) :
    ∃ success, w = .marker success ∧ Fits c (.returned success) w := by
  cases h with
  | alone => exact ⟨false, rfl, .aloneReturned⟩
  | doneResume => exact ⟨_, rfl, .doneReturned⟩
  | held hp | called hp | done hp => cases hp

/-- Only a coroutine that has not slept yet has no callback. -/
theorem Fits.none_of_start {c : Callback} {w : Word} (h : Fits c .start w) :
    c = .none ∧ w = .null := by
  cases h with
  | start => exact ⟨rfl, rfl⟩
  | held hp | called hp | done hp => cases hp

/-- A coroutine is destroyed only while nobody is about to resume it. -/
theorem Fits.held_of_destroying {c : Callback} {w : Word} (h : Fits c .destroying w) :
    c = .held := by
  cases h with
  | heldDestroying => rfl
  | held hp | called hp | done hp => cases hp

/-- A coroutine sleeps only until the callback finds it. -/
theorem Fits.suspended {c : Callback} {w : Word} (h : Fits c .suspended w) :
    w = .handle ∧ (c = .held ∨ ∃ success, c = .called success) ∨
      ∃ success, c = .resuming success := by
  cases h with
  | heldSuspended => exact .inl ⟨rfl, .inl rfl⟩
  | calledSuspended => exact .inl ⟨rfl, .inr ⟨_, rfl⟩⟩
  | resuming => exact .inr ⟨_, rfl⟩
  | held hp | called hp | done hp => cases hp

/-- What one step of `sleep_until` before `await_resume` leaves in place. -/
theorem Inv.move {p : Pc} {w : Word} {n : Nat} (h : Inv s) (hp : s.pc.holds = true)
    (hp' : p.holds = true) (hfits : Fits s.callback p w) (hst : s.pc ≠ .start)
    (hn : n = p.resumes) : Inv { s with pc := p, continuation := w, resumes := n } where
  fits := hfits
  scheduler hc := .inr ((h.scheduler hc).resolve_left hst)
  refs := h.refs.move hp hp'
  resumes := hn
  assertOk := h.assertOk
  crashOk := h.crashOk

/-- The awaiter goes away. -/
theorem Inv.leave {p : Pc} {w : Word} (h : Inv s) (hp : s.pc.holds = true)
    (hp' : p.holds = false) (hne : p ≠ .start) (hfits : Fits s.callback p w)
    (hst : s.pc ≠ .start) (hn : s.resumes = p.resumes) :
    Inv { ({ s with context := false, continuation := w } : State).release with pc := p } where
  fits := hfits
  scheduler hc := .inr ((h.scheduler hc).resolve_left hst)
  refs := h.refs.leave hp hp' hne
  resumes := hn
  assertOk := h.assertOk
  crashOk := h.crashOk

theorem Inv.step_start (h : Inv s) (hp : s.pc = .start) (hs : stepCoroutine s = some s') :
    Inv s' := by
  have hf := h.fits
  rw [hp] at hf
  obtain ⟨hcb, hw⟩ := hf.none_of_start
  have hcopies : s.copies = 0 := h.refs.copies hp
  have hdel : s.deleted = 0 := by rw [h.refs.deleted, if_pos (.inl hp)]
  have hres : s.resumes = 0 := by rw [h.resumes, hp]; rfl
  simp only [stepCoroutine, hp] at hs
  split at hs
  · cases hs
    exact
      { fits := hw ▸ .held rfl
        scheduler := fun hc => by cases hc
        refs :=
          { context := rfl
            count := rfl
            deleted := by simpa using hdel
            copies := fun hst => by cases hst
            copy := fun hin => by cases hin }
        resumes := hres
        assertOk := h.assertOk
        crashOk := h.crashOk }
  · next hsch =>
      rw [exchange_null (by exact hdel) (by exact hw)] at hs
      cases hs
      exact
        { fits := .alone
          scheduler := fun _ => .inr (Bool.eq_false_iff.mpr hsch)
          refs :=
            { context := rfl
              count := by
                show 1 = 1 + s.copies
                rw [hcopies]
              deleted := by simpa [State.proceed] using hdel
              copies := fun hst => by cases hst
              copy := fun hin => by cases hin }
          resumes := by
            show s.resumes + 1 = 1
            rw [hres]
          assertOk := h.assertOk
          crashOk := h.crashOk }

theorem Inv.step_coroutine (h : Inv s) (hs : stepCoroutine s = some s') : Inv s' := by
  have hf := h.fits
  have hn := h.resumes
  have alive (hp : s.pc.holds = true) : s.use = s :=
    use_eq (h.refs.alive (.inl (h.refs.context.trans hp)))
  cases hp : s.pc with
  | start => exact h.step_start hp hs
  | schedule =>
      rw [hp] at hf hn
      simp only [stepCoroutine, hp] at hs
      cases hs
      exact h.move (by rw [hp]; rfl) rfl (hf.next rfl rfl) (by simp [hp]) hn
  | ready =>
      rw [hp] at hf hn
      simp only [stepCoroutine, hp, alive (by rw [hp]; rfl)] at hs
      split at hs
      · next hw =>
          cases hs
          exact h.move (by rw [hp]; rfl) rfl (hf.proceed rfl hw) (by simp [hp])
            (by rw [hn]; rfl)
      · cases hs
        exact h.move (by rw [hp]; rfl) rfl (hf.next rfl rfl) (by simp [hp]) hn
  | suspend =>
      rw [hp] at hf hn
      simp only [stepCoroutine, hp, alive (by rw [hp]; rfl)] at hs
      split at hs
      · next hw =>
          cases hs
          rw [hw] at hf
          exact h.move (by rw [hp]; rfl) rfl (hf.suspend rfl) (by simp [hp]) hn
      · next hw =>
          cases hs
          exact h.move (by rw [hp]; rfl) rfl (hf.proceed rfl hw) (by simp [hp])
            (by rw [hn]; rfl)
  | resume =>
      rw [hp] at hf hn
      obtain ⟨success, hw, hret⟩ := hf.resume
      simp only [stepCoroutine, hp, alive (by rw [hp]; rfl), hw] at hs
      cases hs
      exact h.leave (by rw [hp]; rfl) rfl (by simp) (hw ▸ hret) (by simp [hp]) hn
  | destroying =>
      rw [hp] at hf hn
      simp only [stepCoroutine, hp, alive (by rw [hp]; rfl)] at hs
      cases hs
      refine h.leave (by rw [hp]; rfl) rfl (by simp) ?_ (by simp [hp]) hn
      rw [hf.held_of_destroying]
      exact .heldDestroyed
  | suspended | returned | threw | destroyed =>
      simp only [stepCoroutine, hp] at hs
      cases hs

/-- The callback moves on; the coroutine does not. -/
theorem Inv.callback {c : Callback} {w : Word} (h : Inv s) (hfits : Fits c s.pc w)
    (hc : 0 < s.copies) (hne : c ≠ .none) :
    Inv { s with continuation := w, callback := c } where
  fits := hfits
  scheduler hnone := absurd hnone hne
  refs := h.refs.called hc
  resumes := h.resumes
  assertOk := h.assertOk
  crashOk := h.crashOk

theorem Inv.step_call {success : Bool} (h : Inv s) (hok : s.pc ≠ .destroying)
    (hcb : s.callback = .held) (hc : 0 < s.copies) :
    Inv { s with callback := .called success } := by
  refine h.callback ?_ hc (by simp)
  have hf := h.fits
  rw [hcb] at hf
  generalize s.pc = p, s.continuation = w at hf hok
  cases hf with
  | held hp => exact .called hp
  | heldSuspended => exact .calledSuspended
  | heldDestroying => exact absurd rfl hok
  | heldDestroyed => exact .calledDestroyed

/-- The exchange finds a coroutine to resume, or null. -/
theorem Inv.step_exchange {success : Bool} (h : Inv s) (hcb : s.callback = .called success) :
    Inv (s.exchange success) := by
  have hc : 0 < s.copies := h.refs.copy (by simp [State.inFinish, hcb])
  have hdel : s.deleted = 0 := h.refs.alive (.inr hc)
  have hf := h.fits
  rw [hcb] at hf
  generalize hp : s.pc = p, hw : s.continuation = w at hf
  cases hf with
  | called hearly =>
      rw [exchange_null hdel hw]
      exact h.callback (hp ▸ .done hearly) hc (by simp)
  | calledSuspended =>
      rw [exchange_handle hdel hw]
      exact h.callback (hp ▸ .resuming) hc (by simp)
  | calledDestroyed =>
      rw [exchange_null hdel hw]
      exact h.callback (hp ▸ .doneDestroyed) hc (by simp)

/-- Whoever found the handle resumes a suspended coroutine. -/
theorem Inv.step_resumeHandle {success : Bool} (h : Inv s)
    (hcb : s.callback = .resuming success) : Inv (s.resumeHandle success) := by
  have hc : 0 < s.copies := h.refs.copy (by simp [State.inFinish, hcb])
  obtain ⟨hp, hw⟩ : s.pc = .suspended ∧ s.continuation = .marker success := by
    have hf := h.fits
    rw [hcb] at hf
    generalize s.pc = p, s.continuation = w at hf
    cases hf
    exact ⟨rfl, rfl⟩
  have hn : s.resumes = 0 := by rw [h.resumes, hp]; rfl
  rw [State.resumeHandle, if_pos hp]
  have hrefs : Refs { s with callback := .done success } := h.refs.called hc
  exact
    { fits := hw ▸ .doneResume
      scheduler := fun hnone => by cases hnone
      refs := hrefs.move (by simp [hp, Pc.holds]) rfl
      resumes := by
        show s.resumes + 1 = 1
        rw [hn]
      assertOk := h.assertOk
      crashOk := h.crashOk }

theorem Inv.step_destroy (h : Inv s) (hok : s.inFinish = false) (hp : s.pc = .suspended) :
    Inv { s with pc := .destroying } := by
  refine h.move (by rw [hp]; rfl) rfl ?_ (by simp [hp]) (by rw [h.resumes, hp]; rfl)
  have hf := h.fits
  rw [hp] at hf
  rcases hf.suspended with ⟨hw, hcb | ⟨success, hcb⟩⟩ | ⟨success, hcb⟩
  · rw [hw, hcb]
    exact .heldDestroying
  · simp [State.inFinish, hcb] at hok
  · simp [State.inFinish, hcb] at hok

theorem step_inv {a : Act} (h : Inv s) (hok : Careful s a) (hs : sleep.step s a = some s') :
    Inv s' := by
  cases a with
  | step => exact h.step_coroutine hs
  | call success =>
      simp only [sleep] at hs
      split at hs <;> cases hs
      next hc => exact h.step_call hok hc.1 hc.2
  | finish =>
      simp only [sleep] at hs
      split at hs <;> cases hs
      · next hcb => exact h.step_exchange hcb
      · next hcb => exact h.step_resumeHandle hcb
  | copy =>
      simp only [sleep] at hs
      split at hs <;> cases hs
      next hc => exact { h with refs := h.refs.add hc }
  | drop =>
      obtain ⟨hc, heq⟩ := Option.ite_none_right_eq_some.mp hs
      cases heq
      exact { h with refs := h.refs.drop hc }
  | destroy =>
      simp only [sleep] at hs
      split at hs <;> cases hs
      next hp => exact h.step_destroy hok hp

theorem reachable_inv (h : sleep.ReachableIf Careful s) : Inv s := by
  refine System.ReachableIf.invariant (fun s hs => ?_) (fun s a s' hi hok hs => ?_) h
  · obtain ⟨scheduler, rfl⟩ := hs
    exact inv_start scheduler
  · exact step_inv hi hok hs

-- ============================================================================
-- Main results
-- ============================================================================

/-- What `sleep_until` promises in a state. -/
structure Sleeps (s : State) : Prop where
  assertOk : s.assertFailed = false
  crashOk : s.crashed = false
  noThrow : s.pc ≠ .threw
  /-- It returns what the callback was called with. -/
  result : ∀ success, s.pc = .returned success →
    s.callback = .done success ∨ s.scheduler = false ∧ success = false
  /-- It does not sleep through the callback. -/
  wakes : s.pc = .suspended → ∀ success, s.callback ≠ .done success
  /-- It goes on once, and never after it was destroyed. -/
  once : s.resumes ≤ 1
  never : s.pc = .destroying ∨ s.pc = .destroyed → s.resumes = 0
  /-- The context is deleted with the last reference, once. -/
  deleted : s.deleted = if s.pc = .start ∨ s.context = true ∨ 0 < s.copies then 0 else 1
  /-- A sleeping coroutine returns what the callback will be called with. -/
  returns : s.pc = .suspended → s.callback = .held → 0 < s.copies →
    ∀ success, ∃ s', sleep.run s [.call success, .finish, .finish, .step] = some s' ∧
      s'.pc = .returned success

/-- A coroutine that sleeps can return, with what the callback is called with. -/
theorem Inv.returns (h : Inv s) (hp : s.pc = .suspended) (hcb : s.callback = .held)
    (hc : 0 < s.copies) (success : Bool) :
    ∃ s', sleep.run s [.call success, .finish, .finish, .step] = some s' ∧
      s'.pc = .returned success := by
  have hdel : s.deleted = 0 := h.refs.alive (.inr hc)
  have hw : s.continuation = .handle := by
    have hf := h.fits
    rw [hcb, hp] at hf
    rcases hf.suspended with ⟨hw, -⟩ | ⟨success, hcb'⟩
    · exact hw
    · cases hcb'
  let s₁ : State := { s with callback := .called success }
  let s₂ : State := { s with continuation := .marker success, callback := .resuming success }
  let s₃ : State := { s₂ with callback := .done success, pc := .resume, resumes := s.resumes + 1 }
  have h1 : sleep.step s (.call success) = some s₁ := by simp [sleep, hcb, hc, s₁]
  have h2 : sleep.step s₁ .finish = some s₂ := by
    show some (s₁.exchange success) = _
    rw [exchange_handle (s := s₁) hdel hw]
  have h3 : sleep.step s₂ .finish = some s₃ := by
    show some (s₂.resumeHandle success) = _
    have hp' : s₂.pc = .suspended := hp
    rw [State.resumeHandle, if_pos hp']
    rfl
  let s₄ : State := { s₃.use with context := false }
  have h4 : sleep.step s₃ .step = some { s₄.release with pc := .returned success } := rfl
  refine ⟨{ s₄.release with pc := .returned success }, ?_, rfl⟩
  simp only [System.run, h1, h2, h3, h4, Option.bind_some]

/-- **Sleeping.**  Whatever the scheduler does with the callback, and if nobody
    destroys the coroutine while it is about to be resumed, the coroutine goes
    on once, with what the callback was called with, and the context is deleted
    with its last reference. -/
theorem sleep_once (h : sleep.ReachableIf Careful s) : Sleeps s := by
  have hi := reachable_inv h
  have hf := hi.fits
  refine
    { assertOk := hi.assertOk
      crashOk := hi.crashOk
      noThrow := fun hp => ?_
      result := fun success hp => ?_
      wakes := fun hp success hcb => ?_
      once := ?_
      never := fun hp => ?_
      deleted := ?_
      returns := hi.returns }
  · rw [hp] at hf
    generalize s.callback = c, s.continuation = w at hf
    cases hf with
    | held hearly | called hearly | done hearly => cases hearly
  · rw [hp] at hf
    generalize hcb : s.callback = c, s.continuation = w at hf
    cases hf with
    | aloneReturned => exact .inr ⟨(hi.scheduler hcb).resolve_left (by simp [hp]), rfl⟩
    | doneReturned => exact .inl rfl
    | held hearly | called hearly | done hearly => cases hearly
  · rw [hp, hcb] at hf
    rcases hf.suspended with ⟨-, h | ⟨_, h⟩⟩ | ⟨_, h⟩ <;> cases h
  · rw [hi.resumes]
    cases s.pc <;> simp [Pc.resumes]
  · rw [hi.resumes]
    rcases hp with hp | hp <;> rw [hp] <;> rfl
  · rw [hi.refs.deleted, hi.refs.count]
    cases s.context <;> simp [Nat.pos_iff_ne_zero]

/-- The callback is called while the coroutine sleeps. -/
theorem sleep_once_called : ∃ s, sleep.ReachableIf Careful s ∧ s.pc = .returned true ∧
    s.deleted = 0 ∧ Sleeps s := by
  have h1 : sleep.ReachableIf Careful _ := .step .step (.init ⟨true, rfl⟩) trivial rfl
  have h2 := h1.step Act.step trivial rfl
  have h3 := h2.step Act.step trivial rfl
  have h4 := h3.step Act.step trivial rfl
  have h5 := h4.step (Act.call true) (by simp [Careful]) rfl
  have h6 := h5.step Act.finish trivial rfl
  have h7 := h6.step Act.finish trivial rfl
  have h8 := h7.step Act.step trivial rfl
  exact ⟨_, h8, rfl, rfl, sleep_once h8⟩

end Coroactors.SleepUntil
