/-
  Coroactors.WorkStealing.GlobalOwner

  The global queue of `WorkStealingScheduler`
  (src/benchmarks/benchmark_actor_latency.cpp) has one owner at a time, in
  every run of `push_to_global`, `pop_global_task` and `next_task`.
-/

import Coroactors.WorkStealing.GlobalInv

namespace Coroactors.WorkStealing.Global

open Coroactors.Conc

variable {N : Type*} [DecidableEq N] {s s' : State N} {t : Nat}

-- ============================================================================
-- Steps
-- ============================================================================

theorem start_inv (next : N → Mailbox.Word N) : Inv (State.start next) where
  mailbox := .init ⟨next, none, rfl⟩
  assertOk := rfl
  mutex t := by simp [State.start, Pc.role]
  inside t := rfl
  outside := rfl
  owner t := by simp [State.start, Mailbox.State.start, Pc.role]
  count := by simp [State.start, State.stored, State.unit, Mailbox.State.start, globalLocked]
  locals t := by simp [State.start, Pc.role]
  waits t := by simp [State.start, Pc.role]
  nodup := List.nodup_nil
  waiting := by simp [State.start, waitingThreads]

theorem stepThread_inv {c : Choice} (h : Inv s) (hs : stepThread s t c = some s') : Inv s' := by
  cases hp : s.pc t <;> simp only [stepThread, hp] at hs
  case idle => cases hs
  case push => exact push_inv h hp hs
  case pushUnlock => exact pushUnlock_inv h hp hs
  case globalPop => exact pop_inv h (.inl hp) hs
  case nextPop => exact pop_inv h (.inr hp) hs
  case globalUnlock r => exact unlock_inv h (.inl hp) hs
  case nextUnlock r => exact unlock_inv h (.inr hp) hs
  case pushAdd =>
      cases hs
      exact pushAdd_inv h hp
  case wakeLoad | globalLoad =>
      repeat' split at hs
      all_goals
        cases hs
        exact h.goto (by rw [hp]; rfl)
  case wakeOr =>
      cases hs
      refine h.setWord (by rw [hp]; rfl) (or_local_div _) fun _ => ?_
      rw [or_local_mod]
      decide
  case globalLock | nextLock => exact lock_inv h (by rw [hp]; rfl) rfl hs
  case globalLocked =>
      split at hs <;> cases hs
      · exact h.release (by rw [hp]; rfl) rfl
      · rename_i hg
        rw [and_global] at hg
        exact h.take (by rw [hp]; rfl) rfl (by omega)
  case globalSub r =>
      cases hs
      exact h.sub (by rw [hp]; rfl) rfl
  case globalRelease r =>
      have hrole : (s.pc t).role = { holds := true } := by rw [hp]; rfl
      cases r with
      | none =>
          cases hs
          exact h.release hrole rfl
      | some r =>
          have hi : ∀ q : Pc N, q.role = {} → Inv ((s.unlock.got t r).goto t q) := fun q hq =>
            (h.release hrole hq).got
          simp only at hs
          split at hs <;> cases hs <;> exact hi _ rfl
  case nextLocal | nextSteal =>
      split at hs <;> cases hs <;> exact h.goto (by rw [hp]; rfl)
  case nextLoad =>
      cases hs
      exact Inv.look fun q hq => h.goto (by rw [hp, hq]; rfl)
  case nextAdd =>
      split at hs <;> cases hs <;> exact nextAdd_inv h hp rfl
  case nextWait v =>
      split at hs
      · cases hs
      · split at hs <;> cases hs <;> exact h.goto (by rw [hp]; rfl)
  case nextSub b =>
      split at hs <;> cases hs
      · exact nextSub_inv h hp rfl
      · exact Inv.look fun q hq => nextSub_inv h hp hq
  case nextLocked =>
      cases hs
      exact h.recheck hp
  case nextSubGlobal r =>
      cases r with
      | some r =>
          cases hs
          exact h.sub (by rw [hp]; rfl) rfl
      | none =>
          cases hs
          rw [← recheck_goto]
          exact (h.sub (q := .nextLocked) (by rw [hp]; rfl) rfl).recheck (Function.update_self ..)
  case nextStealLocked =>
      have hrole : (s.pc t).role = { holds := true, locals := true } := by rw [hp]; rfl
      split at hs <;> cases hs
      · have hi := h.under (t := t) (q := .nextRelease none) (v := s.word) (by rw [hrole])
          (by rw [hrole]; rfl) (by rw [hrole]; rfl) rfl (by rw [hrole]; rfl) (by rw [hrole]; rfl)
          (fun hl => by cases hl) rfl
        exact hi
      · exact h.goto (by rw [hrole]; rfl)
  case nextSubLocal =>
      cases hs
      rw [← recheck_goto]
      exact (nextSubLocal_inv h hp).recheck (Function.update_self ..)
  case nextRelease r =>
      have hrole : (s.pc t).role = { holds := true } := by rw [hp]; rfl
      cases r with
      | none =>
          cases hs
          exact h.release hrole rfl
      | some r =>
          cases hs
          exact (h.release hrole (q := .idle) rfl).got

/-- A call begins: `push` on the mailbox. -/
theorem pushToGlobal_inv {n : N} (h : Inv s) (hp : s.pc t = .idle)
    (hn : s.mailbox.busy n = false) :
    Inv ({ s with
      mailbox := { s.mailbox.goto (t + 1) (.pushStore n) with
        busy := Function.update s.mailbox.busy n true } }.goto t .push) := by
  have hidle : s.mailbox.pc (t + 1) = .idle := by
    have hin := h.inside t
    rwa [hp] at hin
  have hstep : (Mailbox.mailbox N).step s.mailbox (.push (t + 1) n) =
      some { s.mailbox.goto (t + 1) (.pushStore n) with
        busy := Function.update s.mailbox.busy n true } := by
    simp [Mailbox.mailbox, hidle, hn]
  refine h.kept (h.mailbox.next _ hstep) ?_ rfl ?_ (by rw [hp]; rfl)
  · intro u hu
    exact Function.update_of_ne hu _ _
  · simp [Inside, Pc.role, Mailbox.State.goto, Mailbox.Pc.inPush]

theorem step_inv {a : Act N} (h : Inv s) (hs : scheduler.step s a = some s') : Inv s' := by
  cases a with
  | pushToGlobal t n =>
      simp only [scheduler] at hs
      split at hs <;> cases hs
      rename_i hc
      exact pushToGlobal_inv h hc.1 hc.2
  | wakeByLocalTasks t =>
      simp only [scheduler] at hs
      split at hs <;> cases hs
      rename_i hc
      exact h.goto (by rw [hc]; rfl)
  | nextTask t global =>
      simp only [scheduler] at hs
      split at hs <;> cases hs
      rename_i hc
      exact h.goto (by rw [hc]; split <;> rfl)
  | step t c => exact stepThread_inv h hs
  | shutdown =>
      cases hs
      have hdiv := or_shutdown_div s.word
      have hgoto : { s with word := s.word ||| FlagShutdown }.goto 0 (s.pc 0) =
          { s with word := s.word ||| FlagShutdown } := by
        simp [State.goto, Function.update_eq_self]
      rw [← hgoto]
      exact h.setWord rfl (by omega) fun hl => by rwa [hdiv]

theorem reachable_inv (h : scheduler.Reachable s) : Inv s := by
  refine h.invariant ?_ fun _ _ _ hi _ hs => step_inv hi hs
  rintro s ⟨next, rfl⟩
  exact start_inv next

-- ============================================================================
-- The owner and the counter
-- ============================================================================

/-- In `push_to_global`. -/
def Pc.pushing : Pc N → Bool
  | .push | .pushUnlock | .pushAdd => true
  | _ => false

omit [DecidableEq N] in
theorem Pc.holds_of_owns {p : Pc N} (h : p.role.owns = true) (hp : p.pushing = false) :
    p.role.holds = true := by
  cases p <;> simp_all [Pc.role, Pc.pushing]

omit [DecidableEq N] in
theorem Pc.owns_of_call {p : Pc N} {op : Mailbox.Op} (h : p.role.call = .op op) :
    p.role.owns = true := by
  cases p <;> simp_all [Pc.role]

omit [DecidableEq N] in
theorem Pc.call_of_pushing {p : Pc N} (h : p.role.call = .push) : p.pushing = true := by
  cases p <;> simp_all [Pc.role, Pc.pushing]

omit [DecidableEq N] in
theorem Inside.call_of_op {c : Call} {q : Mailbox.Pc N} {op : Mailbox.Op} (h : Inside c q)
    (hop : q.op = some op) : c = .op op := by
  cases c with
  | none =>
      rw [show q = .idle from h] at hop
      cases hop
  | push => cases q <;> simp_all [Inside, Mailbox.Pc.inPush, Mailbox.Pc.op]
  | op op' =>
      have hop' : q.op = some op' := h
      rw [hop'] at hop
      rw [Option.some.inj hop]

omit [DecidableEq N] in
theorem Inside.call_of_publish {c : Call} {a : Mailbox.Ptr N} {n : N}
    (h : Inside c (.publish a n)) : c = .push := by
  cases c <;> simp_all [Inside, Mailbox.Pc.op]

omit [DecidableEq N] in
theorem stored_le : s.stored ≤ 1 := by
  unfold State.stored
  split <;> decide

omit [DecidableEq N] in
theorem unit_le : s.unit ≤ 1 := by
  unfold State.unit
  cases s.mutex with
  | none => exact Nat.zero_le 1
  | some t => exact Pc.unit_le _

/-- With no push on its way and the mutex free, a task in the mailbox means
    that the word has the lock. -/
theorem Inv.stored_of_remaining (h : Inv s) (hpush : ∀ t, (s.pc t).pushing = false)
    (hmutex : s.mutex = none) (hrem : s.mailbox.remaining ≠ []) : s.stored = 1 := by
  have hm := Mailbox.reachable_inv h.mailbox
  have howner : ∀ t, t + 1 ∉ s.mailbox.owners := by
    intro t ht
    have hsome := (h.mutex t).mpr (Pc.holds_of_owns ((h.owner t).mp ht) (hpush t))
    rw [hmutex] at hsome
    cases hsome
  unfold State.stored
  rw [if_pos]
  by_contra hzero
  have hnone : s.mailbox.owners = [] := by
    refine List.eq_nil_iff_forall_not_mem.mpr fun u hu => ?_
    cases u with
    | zero => exact hzero hu
    | succ t => exact howner t hu
  obtain ⟨u, n, hpub, -⟩ := hm.publish_of_unlocked hnone hrem
  -- the push in flight belongs to a thread in `push_to_global`
  cases u with
  | zero =>
      rw [h.outside] at hpub
      cases hpub
  | succ t =>
      have hin := h.inside t
      rw [hpub] at hin
      have hp := Pc.call_of_pushing hin.call_of_publish
      rw [hpush t] at hp
      cases hp

/-- A worker that looks goes for the mutex, and calls `pop`. -/
theorem Inv.finds (h : Inv s) (hmutex : s.mutex = none) (hcount : globalLocked s.word = 1)
    (hp : s.pc t = .nextLoad) :
    ∃ s', scheduler.run s [.step t .go, .step t .go, .step t .go] = some s' ∧
      s'.pc t = .nextPop ∧ s'.mailbox.owners = [t + 1] := by
  have hflag : s.word % 32 ≠ 0 := by
    unfold globalLocked at hcount
    omega
  have hlook : scheduler.step s (.step t .go) = some (s.goto t .nextLock) := by
    simp only [scheduler, stepThread, hp, State.look, and_wakeup, if_neg hflag]
  have h1 := step_inv h hlook
  have hlock : scheduler.step (s.goto t .nextLock) (.step t .go) =
      some ({ s.goto t .nextLock with mutex := some t }.goto t .nextLocked) := by
    simp [scheduler, stepThread, State.goto, State.lock, hmutex]
  have h2 := step_inv h1 hlock
  generalize hs2 : { s.goto t .nextLock with mutex := some t }.goto t .nextLocked = s₂ at hlock h2
  have hp2 : s₂.pc t = .nextLocked := by
    rw [← hs2]
    exact Function.update_self ..
  have hw2 : s₂.word = s.word := by rw [← hs2]; rfl
  have hre : scheduler.step s₂ (.step t .go) =
      some (((s₂.assert (s₂.word &&& FlagGlobalQueueLockedMask = FlagGlobalQueueLocked)).withdraw
        t).call t .pop .nextPop) := by
    have hg : 8 * globalLocked s.word ≠ 0 := by omega
    simp only [scheduler, stepThread, hp2, State.recheck]
    rw [if_neg (by rw [and_wakeup, hw2]; exact hflag), if_pos (by rw [and_global, hw2]; exact hg)]
  have h3 := step_inv h2 hre
  have hp3 : (((s₂.assert (s₂.word &&& FlagGlobalQueueLockedMask =
      FlagGlobalQueueLocked)).withdraw t).call t .pop .nextPop).pc t = .nextPop :=
    Function.update_self ..
  refine ⟨_, ?_, hp3, h3.owners_eq ((h3.owner t).mpr (by rw [hp3]; rfl))⟩
  simp only [System.run, hlook, hlock, hre, Option.bind_some]

/-- In every run the counter is at most two, and at most one when a thread has
    just taken the mutex, so that no assertion fails; the other bits count the
    waiting threads, which are taken to be fewer than 2^26.  Who calls `pop` or `try_unlock` on the mailbox is its one
    owner.  With no `push_to_global` on its way and the mutex free, a task in
    the mailbox means that the counter is one, and a worker that looks gets to
    `pop`. -/
theorem globalQueue_owner :
    (∀ s : State N, scheduler.Reachable s →
      globalLocked s.word ≤ 2 ∧ s.assertFailed = false ∧ s.mailbox.assertFailed = false ∧
      ∀ t, s.pc t = .globalLocked ∨ s.pc t = .nextLocked → globalLocked s.word ≤ 1) ∧
    (∀ s : State N, scheduler.Reachable s →
      waitingThreads s.word = s.waiting.length ∧ s.waiting.Nodup ∧
      ∀ t, t ∈ s.waiting ↔
        (∃ v, s.pc t = .nextSteal v) ∨ (∃ v, s.pc t = .nextWait v) ∨ ∃ b, s.pc t = .nextSub b) ∧
    (∀ s : State N, scheduler.Reachable s → ∀ t,
      (∃ op, (s.mailbox.pc (t + 1)).op = some op) → s.mailbox.owners = [t + 1]) ∧
    (∀ s : State N, scheduler.Reachable s → (∀ t, (s.pc t).pushing = false) → s.mutex = none →
      s.mailbox.remaining ≠ [] → globalLocked s.word = 1 ∧
      ∀ t, s.pc t = .nextLoad →
        ∃ s', scheduler.run s [.step t .go, .step t .go, .step t .go] = some s' ∧
          s'.pc t = .nextPop ∧ s'.mailbox.owners = [t + 1]) := by
  refine ⟨?_, ?_, ?_, ?_⟩
  · intro s hr
    have h := reachable_inv hr
    have hcount := h.count
    have hstored := stored_le (s := s)
    have hunit := unit_le (s := s)
    refine ⟨by omega, h.assertOk, (Mailbox.reachable_inv h.mailbox).assertOk, fun t ht => ?_⟩
    have hrole : (s.pc t).role = { holds := true } := by
      rcases ht with ht | ht <;> rw [ht] <;> rfl
    have hzero : s.unit = 0 := by
      rw [State.unit, (h.mutex t).mpr (by rw [hrole]), Option.elim_some, hrole]
    omega
  · intro s hr
    have h := reachable_inv hr
    refine ⟨h.waiting, h.nodup, fun t => (h.waits t).trans ?_⟩
    cases hp : s.pc t <;> simp [Pc.role]
  · rintro s hr t ⟨op, hop⟩
    have h := reachable_inv hr
    exact h.owners_eq ((h.owner t).mpr (Pc.owns_of_call ((h.inside t).call_of_op hop)))
  · intro s hr hpush hmutex hrem
    have h := reachable_inv hr
    have hcount := h.count
    have hunit : s.unit = 0 := by simp [State.unit, hmutex]
    have hone : globalLocked s.word = 1 := by
      rw [hcount, hunit, h.stored_of_remaining hpush hmutex hrem]
    exact ⟨hone, fun t hp => h.finds hmutex hone hp⟩

end Coroactors.WorkStealing.Global
