/-
  Coroactors.StopState.Lock

  The lock of `stop_state`: `FlagLocked` is set exactly while one thread is
  between its acquisition of the lock and the `fetch_sub` of `unlock`, and
  `FlagStopped` is set by one call of `lock_stop`, once.

  The operations are split over helpers that move a thread and change other
  parts of the state; the lemmas in front say what each of them does to the
  parts the lock is about.
-/

import Coroactors.StopState.Model

namespace Coroactors.StopState

open Coroactors.Conc

variable {K : Type*} {s s' : State K} {t : Nat}

-- ============================================================================
-- Where the helpers leave a thread
-- ============================================================================

/-- The checks that `add_callback` and `lock_stop` make before they look at the
    lock. -/
def Want.passes : Want K → Nat → Bool
  | .add _, current => !stopped current && decide (sourceCountIncrement ≤ current)
  | .stop, current => !stopped current
  | .remove _, _ | .again, _ => true

/-- Where the loops go from the value `current`. -/
def loopPc (w : Want K) (current i : Nat) : Pc K :=
  if !w.passes current then .user
  else if !locked current then .lockCas w current i
  else if !waiting current then
    if i < 64 then .spin w i else .setWaiting w current i
  else .wait w current i

/-- Where `unlock` returns to. -/
def finishPc : After K → Pc K
  | .removed k false => .checkRunning k
  | .added _ | .removed _ true | .invoke _ _ | .finished => .user

def proceedPc (empty : Bool) : Pc K := if empty then .user else .load .again

section Helpers

/-- What is the same in two states as far as the lock goes, when the thread `t`
    moves to `pc`. -/
structure Moves (s s' : State K) (t : Nat) (pc : Pc K) : Prop where
  pc : s'.pc = Function.update s.pc t pc
  word : s'.word = s.word
  waiters : s'.waiters = s.waiters
  holder : s'.holder = s.holder
  stopper : s'.stopper = s.stopper

theorem moves_goto (s : State K) (t : Nat) (pc : Pc K) : Moves s (s.goto t pc) t pc :=
  ⟨rfl, rfl, rfl, rfl, rfl⟩

theorem moves_contend (s : State K) (t : Nat) (w : Want K) (current i : Nat)
    (h : w.passes current = true) : Moves s (s.contend t w current i) t (loopPc w current i) := by
  unfold State.contend loopPc
  rw [h]
  simp only [Bool.not_true, Bool.false_eq_true, if_false]
  split
  · exact moves_goto ..
  · split
    · split <;> exact moves_goto ..
    · exact moves_goto ..

variable [DecidableEq K]

theorem moves_loop (s : State K) (t : Nat) (w : Want K) (current i : Nat) :
    Moves s (s.loop t w current i) t (loopPc w current i) := by
  cases w with
  | add k =>
      simp only [State.loop]
      split
      · rename_i h
        have hpc : loopPc (.add k) current i = .user := by simp [loopPc, Want.passes, h]
        rw [hpc]
        exact ⟨rfl, rfl, rfl, rfl, rfl⟩
      · split
        · rename_i h
          have hpc : loopPc (.add k) current i = .user := by simp [loopPc, Want.passes, h]
          rw [hpc]
          exact ⟨rfl, rfl, rfl, rfl, rfl⟩
        · exact moves_contend _ _ _ _ _ (by simp_all [Want.passes])
  | stop =>
      simp only [State.loop]
      split
      · rename_i h
        have hpc : loopPc (K := K) .stop current i = .user := by simp [loopPc, Want.passes, h]
        rw [hpc]
        exact ⟨rfl, rfl, rfl, rfl, rfl⟩
      · exact moves_contend _ _ _ _ _ (by simp_all [Want.passes])
  | remove k => exact moves_contend _ _ _ _ _ rfl
  | again => exact moves_contend _ _ _ _ _ rfl

theorem moves_takeHead (s : State K) (t : Nat) :
    ∃ a, Moves s (s.takeHead t) t (.unlock a) := by
  unfold State.takeHead
  split
  · exact ⟨_, moves_goto ..⟩
  · exact ⟨_, rfl, rfl, rfl, rfl, rfl⟩

theorem moves_critical (s : State K) (t : Nat) (w : Want K) :
    ∃ a, Moves s (s.critical t w) t (.unlock a) := by
  cases w with
  | add k =>
      refine ⟨.added k, ?_⟩
      simp only [State.critical, State.insert]
      cases s.head <;> exact ⟨rfl, rfl, rfl, rfl, rfl⟩
  | remove k =>
      simp only [State.critical, State.removeCallbackLocked]
      split
      · exact ⟨_, rfl, rfl, rfl, rfl, rfl⟩
      · cases s.prev k with
        | none => exact ⟨_, moves_goto ..⟩
        | some p =>
            refine ⟨.removed k true, ?_⟩
            simp only [State.unlink]
            cases s.next k <;> exact ⟨rfl, rfl, rfl, rfl, rfl⟩
  | stop =>
      simp only [State.critical]
      split
      · exact ⟨_, moves_goto ..⟩
      · obtain ⟨a, h⟩ := moves_takeHead { s with running := some t } t
        exact ⟨a, h.pc, h.word, h.waiters, h.holder, h.stopper⟩
  | again => exact moves_takeHead s t

theorem moves_finish (s : State K) (t : Nat) (a : After K) :
    Moves s (s.finish t a) t (finishPc a) := by
  cases a with
  | removed k found => cases found <;> exact ⟨rfl, rfl, rfl, rfl, rfl⟩
  | added k => exact ⟨rfl, rfl, rfl, rfl, rfl⟩
  | invoke k empty => exact ⟨rfl, rfl, rfl, rfl, rfl⟩
  | finished => exact ⟨rfl, rfl, rfl, rfl, rfl⟩

theorem moves_proceed (s : State K) (t : Nat) (k : K) (empty : Bool) :
    Moves s (s.proceed t k empty) t (proceedPc empty) := by
  unfold State.proceed proceedPc
  cases empty <;> exact ⟨rfl, rfl, rfl, rfl, rfl⟩

end Helpers

-- ============================================================================
-- Mutual exclusion
-- ============================================================================

/-- The thread has the lock. -/
def Pc.holds : Pc K → Bool
  | .notifyAll | .held _ | .unlock _ => true
  | _ => false

/-- A thread that is about to take the lock saw it free, and passed its checks. -/
def Pc.sawFree : Pc K → Bool
  | .lockCas w current _ => w.passes current && !locked current
  | _ => true

/-- The thread is outside the lock, and saw it free if it wants to take it. -/
def Pc.Outside (pc : Pc K) : Prop := pc.holds = false ∧ pc.sawFree = true

theorem loopPc_outside (w : Want K) (current i : Nat) : (loopPc w current i).Outside := by
  unfold loopPc
  repeat' split
  all_goals simp_all [Pc.Outside, Pc.holds, Pc.sawFree]

theorem finishPc_outside (a : After K) : (finishPc a).Outside := by
  cases a with
  | removed k found => cases found <;> exact ⟨rfl, rfl⟩
  | _ => exact ⟨rfl, rfl⟩

theorem proceedPc_outside (empty : Bool) : (proceedPc empty : Pc K).Outside := by
  cases empty <;> exact ⟨rfl, rfl⟩

structure LockInv (s : State K) : Prop where
  holds : ∀ t, (s.pc t).holds = true ↔ s.holder = some t
  sawFree : ∀ t, (s.pc t).sawFree = true
  locked : locked s.word = s.holder.isSome
  stopped : stopped s.word = s.stopper.isSome
  notifyAll : ∀ t, s.pc t = .notifyAll → s.stopper = some t

namespace LockInv

theorem start : LockInv (State.start : State K) where
  holds t := by simp [State.start, Pc.holds]
  sawFree _ := rfl
  locked := by simp [State.start, StopState.locked]
  stopped := by simp [State.start, StopState.stopped]
  notifyAll t h := by cases h

theorem holder_none (hi : LockInv s) (h : StopState.locked s.word = false) : s.holder = none := by
  rw [hi.locked] at h
  simpa using h

theorem locked_of_holds (hi : LockInv s) (h : (s.pc t).holds = true) :
    StopState.locked s.word = true := by
  rw [hi.locked, (hi.holds t).mp h]
  rfl

theorem unique {u : Nat} (hi : LockInv s) (h : (s.pc t).holds = true)
    (h' : (s.pc u).holds = true) : t = u :=
  Option.some.inj (((hi.holds t).mp h).symm.trans ((hi.holds u).mp h'))

/-- A thread moves, and the word changes in a way the lock does not see. -/
theorem step {pc : Pc K} (hi : LockInv s) (hpc : s'.pc = Function.update s.pc t pc)
    (hh : s'.holder = s.holder) (hs : s'.stopper = s.stopper)
    (hl : StopState.locked s'.word = StopState.locked s.word)
    (hst : StopState.stopped s'.word = StopState.stopped s.word)
    (hp : pc.holds = (s.pc t).holds ∧ pc.sawFree = true ∧ pc ≠ .notifyAll) : LockInv s' where
  holds u := by
    rw [hpc, hh, ← hi.holds u]
    by_cases h : u = t
    · subst h
      simp [hp.1]
    · simp [h]
  sawFree u := by
    rw [hpc]
    by_cases h : u = t
    · subst h
      simp [hp.2.1]
    · simpa [h] using hi.sawFree u
  locked := by rw [hl, hh, hi.locked]
  stopped := by rw [hst, hs, hi.stopped]
  notifyAll u h := by
    rw [hpc] at h
    rw [hs]
    by_cases hu : u = t
    · subst hu
      exact absurd (by simpa using h) hp.2.2
    · exact hi.notifyAll u (by simpa [hu] using h)

/-- A thread without the lock moves and does not take it. -/
theorem moves {pc : Pc K} (hi : LockInv s) (hm : Moves s s' t pc)
    (hh : (s.pc t).holds = false) (hp : pc.Outside) : LockInv s' := by
  refine hi.step hm.pc hm.holder hm.stopper (by rw [hm.word]) (by rw [hm.word]) ?_
  refine ⟨hp.1.trans hh.symm, hp.2, ?_⟩
  rintro rfl
  cases hp.1

/-- A thread takes the free lock. -/
theorem take {pc : Pc K} (hi : LockInv s) (hn : s.holder = none)
    (hpc : s'.pc = Function.update s.pc t pc) (hp : pc.holds = true) (hh : s'.holder = some t)
    (hl : StopState.locked s'.word = true)
    (hst : StopState.stopped s'.word = s'.stopper.isSome)
    (hall : pc = .notifyAll → s'.stopper = some t) : LockInv s' := by
  have hfree (u : Nat) : (s.pc u).holds = false := by simpa [hn] using hi.holds u
  constructor
  case holds =>
    intro u
    rw [hpc, hh]
    by_cases h : u = t
    · subst h
      simp [hp]
    · simp [h, hfree, Ne.symm h]
  case sawFree =>
    intro u
    rw [hpc]
    by_cases h : u = t
    · subst h
      cases pc <;> simp_all [Pc.holds, Pc.sawFree]
    · simpa [h] using hi.sawFree u
  case locked => rw [hl, hh]; rfl
  case stopped => exact hst
  case notifyAll =>
    intro u hu
    rw [hpc] at hu
    by_cases h : u = t
    · subst h
      exact hall (by simpa using hu)
    · have := hfree u
      rw [Function.update_of_ne h] at hu
      rw [hu] at this
      cases this

theorem acquired {w : Want K} (hi : LockInv s) (hl : StopState.locked s.word = false) :
    LockInv (s.acquired t w s.word) := by
  have hn := hi.holder_none hl
  have hst := hi.stopped
  cases w with
  | stop =>
      simp only [State.acquired]
      split <;>
        exact hi.take hn rfl rfl rfl (by simp [State.goto]) (by simp [State.goto]) fun _ => rfl
  | _ =>
      refine hi.take hn rfl rfl rfl ?_ ?_ nofun
      · simp [State.acquired, State.goto]
      · simpa [State.acquired, State.goto] using hst

/-- The thread that has the lock gives it up. -/
theorem release {pc : Pc K} (hi : LockInv s) (ht : (s.pc t).holds = true)
    (hpc : s'.pc = Function.update s.pc t pc) (hp : pc.Outside) (hh : s'.holder = none)
    (hw : s'.word = s.word - flagLocked) (hs : s'.stopper = s.stopper) : LockInv s' := by
  obtain ⟨hst, -, hl⟩ := flags_unlock (hi.locked_of_holds ht)
  constructor
  case holds =>
    intro u
    rw [hpc, hh]
    by_cases h : u = t
    · subst h
      simp [hp.1]
    · have hu : (s.pc u).holds ≠ true := fun hu => h (hi.unique hu ht)
      simp [h, hu]
  case sawFree =>
    intro u
    rw [hpc]
    by_cases h : u = t
    · subst h
      simp [hp.2]
    · simpa [h] using hi.sawFree u
  case locked => rw [hw, hl, hh]; rfl
  case stopped => rw [hw, hst, hs, hi.stopped]
  case notifyAll =>
    intro u hu
    rw [hpc] at hu
    by_cases h : u = t
    · subst h
      rw [Function.update_self] at hu
      subst hu
      cases hp.1
    · rw [Function.update_of_ne h] at hu
      rw [hs]
      exact hi.notifyAll u hu

end LockInv

-- ============================================================================
-- Every step
-- ============================================================================

section Step

variable [DecidableEq K]

theorem stepThread_lockInv {c : Choice} (hi : LockInv s) (hs : stepThread s t c = some s') :
    LockInv s' := by
  cases hp : s.pc t <;> simp only [stepThread, hp] at hs
  case user => cases hs
  case load w =>
    cases hs
    exact hi.moves (moves_loop ..) (by rw [hp]; rfl) (loopPc_outside ..)
  case lockCas w current i =>
    split at hs <;> cases hs
    · rename_i h
      have hl := hi.sawFree t
      rw [hp, ← h.1, Pc.sawFree, Bool.and_eq_true] at hl
      rw [← h.1]
      exact hi.acquired (by simpa using hl.2)
    · exact hi.moves (moves_goto ..) (by rw [hp]; rfl) ⟨rfl, rfl⟩
  case spin w i =>
    cases hs
    exact hi.moves (moves_loop ..) (by rw [hp]; rfl) (loopPc_outside ..)
  case setWaiting w current i =>
    split at hs <;> cases hs
    · rename_i h
      exact hi.step rfl rfl rfl (by simp [State.goto, h.1]) (by simp [State.goto, h.1])
        ⟨by rw [hp]; rfl, rfl, nofun⟩
    · exact hi.moves (moves_loop ..) (by rw [hp]; rfl) (loopPc_outside ..)
  case wait w current i =>
    split at hs <;> cases hs
    · exact hi.step rfl rfl rfl rfl rfl ⟨by rw [hp]; rfl, rfl, nofun⟩
    · exact hi.moves (moves_goto ..) (by rw [hp]; rfl) ⟨rfl, rfl⟩
  case blocked w current i =>
    split at hs
    · split at hs <;> cases hs
      exact hi.step rfl rfl rfl rfl rfl ⟨by rw [hp]; rfl, rfl, nofun⟩
    · split at hs <;> cases hs
      · exact ⟨hi.holds, hi.sawFree, hi.locked, hi.stopped, hi.notifyAll⟩
      · exact hi.moves (moves_goto ..) (by rw [hp]; rfl) ⟨rfl, rfl⟩
  case reload w i notified =>
    cases hs
    exact hi.moves (moves_loop ..) (by rw [hp]; rfl) (loopPc_outside ..)
  case notifyAll =>
    cases hs
    exact hi.step rfl rfl rfl rfl rfl ⟨by rw [hp]; rfl, rfl, nofun⟩
  case held w =>
    cases hs
    obtain ⟨a, hm⟩ := moves_critical s t w
    exact hi.step hm.pc hm.holder hm.stopper (by rw [hm.word]) (by rw [hm.word])
      ⟨by rw [hp]; rfl, rfl, nofun⟩
  case unlock a =>
    have ht : (s.pc t).holds = true := by rw [hp]; rfl
    split at hs <;> cases hs
    · exact hi.release ht rfl ⟨rfl, rfl⟩ rfl rfl rfl
    · have hm := moves_finish { s with word := s.word - flagLocked, holder := none } t a
      exact hi.release ht hm.pc (finishPc_outside a) hm.holder hm.word hm.stopper
  case notifyOne a =>
    split at hs
    · split at hs <;> cases hs
      rename_i u h
      have hm := moves_finish { s with waiters := s.waiters.erase u } t a
      have ho := finishPc_outside a
      refine hi.step hm.pc hm.holder hm.stopper (by rw [hm.word]) (by rw [hm.word])
        ⟨by rw [hp, ho.1]; rfl, ho.2, ?_⟩
      intro he
      rw [he] at ho
      cases ho.1
    · split at hs <;> cases hs
      exact hi.moves (moves_finish ..) (by rw [hp]; rfl) (finishPc_outside a)
  case checkRunning k =>
    split at hs <;> cases hs <;> exact hi.moves ⟨rfl, rfl, rfl, rfl, rfl⟩ (by rw [hp]; rfl) ⟨rfl, rfl⟩
  case acquire k =>
    split at hs <;> cases hs
    exact hi.moves ⟨rfl, rfl, rfl, rfl, rfl⟩ (by rw [hp]; rfl) ⟨rfl, rfl⟩
  case returned k empty =>
    split at hs <;> cases hs
    · exact hi.moves (moves_proceed ..) (by rw [hp]; rfl) (proceedPc_outside empty)
    · exact hi.moves ⟨rfl, rfl, rfl, rfl, rfl⟩ (by rw [hp]; rfl) ⟨rfl, rfl⟩
  case release k empty =>
    cases hs
    have hm := moves_proceed { s with done := Function.update s.done k (s.done k + 1) } t k empty
    exact hi.moves ⟨hm.pc, hm.word, hm.waiters, hm.holder, hm.stopper⟩ (by rw [hp]; rfl)
      (proceedPc_outside empty)

theorem step_lockInv {a : Act K} (hi : LockInv s) (hs : stopState.step s a = some s') :
    LockInv s' := by
  cases a <;> simp only [stopState] at hs
  case addSource t =>
    split at hs <;> cases hs
    exact ⟨hi.holds, hi.sawFree, by simpa using hi.locked, by simpa using hi.stopped, hi.notifyAll⟩
  case removeSource t =>
    split at hs <;> cases hs
    rename_i h
    obtain ⟨h1, -, h2⟩ := flags_removeSource h.2
    exact ⟨hi.holds, hi.sawFree, h2.trans hi.locked, h1.trans hi.stopped, hi.notifyAll⟩
  case add t k =>
    split at hs <;> cases hs
    rename_i h
    exact hi.moves ⟨rfl, rfl, rfl, rfl, rfl⟩ (by rw [h.1]; rfl) ⟨rfl, rfl⟩
  case remove t k =>
    split at hs <;> cases hs
    rename_i h
    exact hi.moves ⟨rfl, rfl, rfl, rfl, rfl⟩ (by rw [h.1]; rfl) ⟨rfl, rfl⟩
  case requestStop t =>
    split at hs <;> cases hs
    rename_i h
    exact hi.moves (moves_goto ..) (by rw [h]; rfl) ⟨rfl, rfl⟩
  case ret t =>
    split at hs
    · rename_i h
      split at hs <;> cases hs <;>
        exact hi.moves ⟨rfl, rfl, rfl, rfl, rfl⟩ (by rw [h]; rfl) ⟨rfl, rfl⟩
    · cases hs
  case step t c => exact stepThread_lockInv hi hs

theorem reachable_lockInv {ok : State K → Act K → Prop} (hr : stopState.ReachableIf ok s) :
    LockInv s :=
  hr.invariant (fun _ h => h ▸ .start) fun _ _ _ hi _ hs => step_lockInv hi hs

end Step

end Coroactors.StopState
