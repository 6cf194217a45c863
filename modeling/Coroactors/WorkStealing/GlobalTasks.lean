/-
  Coroactors.WorkStealing.GlobalTasks

  What becomes of the tasks of the global queue of `WorkStealingScheduler`
  (src/benchmarks/benchmark_actor_latency.cpp): what the mailbox handed out is
  what the workers returned with, and the one task that the holder of the mutex
  has and has not returned with yet.
-/

import Coroactors.WorkStealing.GlobalOwner

namespace Coroactors.WorkStealing.Global

open Coroactors.Conc

section Tasks

variable {N : Type*}

/-- The task that a thread at this position got from `pop`. -/
def Pc.hand : Pc N → List (Mailbox.Ptr N)
  | .globalUnlock r | .nextUnlock r => [r]
  | .globalSub r | .globalRelease r | .nextSubGlobal r | .nextRelease r => r.toList
  | _ => []

/-- The task in the hands of the holder of the mutex. -/
def State.hand (s : State N) : List (Mailbox.Ptr N) := s.mutex.elim [] fun t => (s.pc t).hand

/-- The tasks that left the mailbox, by where they are now. -/
def State.claimed (s : State N) : List (Mailbox.Ptr N) := s.taken.map Prod.snd ++ s.hand

theorem Pc.hand_of_free {p : Pc N} (h : p.role.holds = false) : p.hand = [] := by
  cases p <;> first | rfl | cases h

variable [DecidableEq N] {s s' : State N} {t : Nat} {q : Pc N}

-- ============================================================================
-- The task in hand
-- ============================================================================

theorem Inv.hand_eq (h : Inv s) (hp : (s.pc t).role.holds = true) : s.hand = (s.pc t).hand := by
  rw [State.hand, (h.mutex t).mpr hp, Option.elim_some]

/-- With the mutex free nobody has a task in hand. -/
theorem Inv.hand_of_free (h : Inv s) (hm : s.mutex = none) : (s.pc t).hand = [] := by
  refine Pc.hand_of_free ?_
  by_contra hp
  have hsome := (h.mutex t).mpr (by simpa using hp)
  rw [hm] at hsome
  cases hsome

/-- A thread moves and keeps what it has in hand. -/
theorem Inv.hand_move (h : Inv s) (h' : Inv s') (hpc : s'.pc = Function.update s.pc t q)
    (hq : q.hand = (s.pc t).hand) : s'.hand = s.hand := by
  have hself : s'.pc t = q := by rw [hpc, Function.update_self]
  have hother : ∀ u, u ≠ t → s'.pc u = s.pc u := fun u hu => by
    rw [hpc, Function.update_of_ne hu]
  have hsame : ∀ u, (s'.pc u).hand = (s.pc u).hand := fun u => by
    by_cases hu : u = t
    · rw [hu, hself, hq]
    · rw [hother u hu]
  cases hm' : s'.mutex with
  | some u =>
      have hholds' := (h'.mutex u).mp hm'
      rw [h'.hand_eq hholds', hsame u]
      cases hm : s.mutex with
      | none => rw [h.hand_of_free hm, State.hand, hm, Option.elim_none]
      | some v =>
          have hholds := (h.mutex v).mp hm
          rw [h.hand_eq hholds]
          by_cases huv : u = v
          · rw [huv]
          -- One of the two is thread `t`, which took the mutex or left it: it has nothing in hand
          · have hvt : v = t := by
              by_contra hvt
              have hv' := (h'.mutex v).mpr (by rw [hother v hvt]; exact hholds)
              rw [hm'] at hv'
              exact huv (Option.some.inj hv')
            have hut : u = t := by
              by_contra hut
              have hu' := (h.mutex u).mpr (by rw [← hother u hut]; exact hholds')
              rw [hm] at hu'
              exact huv (Option.some.inj hu').symm
            exact absurd (hut.trans hvt.symm) huv
  | none =>
      rw [State.hand, hm', Option.elim_none]
      cases hm : s.mutex with
      | none => rw [State.hand, hm, Option.elim_none]
      | some v => rw [h.hand_eq ((h.mutex v).mp hm), ← hsame v, h'.hand_of_free hm']

-- ============================================================================
-- Steps that move no task
-- ============================================================================

/-- Thread `t` moved, and no task did. -/
structure Keeps (s : State N) (t : Nat) (s' : State N) : Prop where
  popped : s'.mailbox.popped = s.mailbox.popped
  taken : s'.taken = s.taken
  moved : ∃ q : Pc N, s'.pc = Function.update s.pc t q ∧ q.hand = (s.pc t).hand

omit [DecidableEq N] in
theorem Keeps.goto (hq : q.hand = (s.pc t).hand) : Keeps s t (s.goto t q) :=
  ⟨rfl, rfl, q, rfl, hq⟩

/-- What a thread claimed stays what left the mailbox. -/
theorem Keeps.claimed (hk : Keeps s t s') (h : Inv s) (h' : Inv s')
    (hc : s.mailbox.popped = s.claimed) : s'.mailbox.popped = s'.claimed := by
  obtain ⟨q, hpc, hq⟩ := hk.moved
  rw [State.claimed, hk.popped, hk.taken, h.hand_move h' hpc hq]
  exact hc

omit [DecidableEq N] in
theorem withdraw_keeps : (s.withdraw t).mailbox.popped = s.mailbox.popped ∧
    (s.withdraw t).taken = s.taken ∧ (s.withdraw t).pc = s.pc := by
  unfold State.withdraw
  split
  · exact ⟨List.append_nil _, rfl, rfl⟩
  · exact ⟨rfl, rfl, rfl⟩

omit [DecidableEq N] in
theorem deposit_keeps : (s.deposit t).mailbox.popped = s.mailbox.popped ∧
    (s.deposit t).taken = s.taken ∧ (s.deposit t).pc = s.pc := by
  unfold State.deposit
  split
  · exact ⟨List.append_nil _, rfl, rfl⟩
  · exact ⟨rfl, rfl, rfl⟩

omit [DecidableEq N] in
/-- A thread calls `pop` with the lock that was stored in the word. -/
theorem Keeps.pop (hp : (s.pc t).hand = []) (hq : q.hand = []) :
    Keeps s t ((s.withdraw t).call t .pop q) := by
  obtain ⟨h1, h2, h3⟩ := withdraw_keeps (s := s) (t := t)
  refine ⟨h1, h2, q, ?_, hq.trans hp.symm⟩
  rw [← h3]
  rfl

omit [DecidableEq N] in
theorem Keeps.recheck {v : Nat} (hp : (s.pc t).hand = []) : Keeps s t (s.recheck t v) := by
  unfold State.recheck
  split
  · exact ⟨rfl, rfl, _, rfl, hp.symm⟩
  split
  · obtain ⟨h1, h2, q, h3, h4⟩ := Keeps.pop (q := .nextPop)
      (s := s.assert (v &&& FlagGlobalQueueLockedMask = FlagGlobalQueueLocked)) hp rfl
    exact ⟨h1, h2, q, h3, h4⟩
  split
  · exact .goto hp.symm
  split
  · exact ⟨rfl, rfl, _, rfl, hp.symm⟩
  · exact ⟨rfl, rfl, _, rfl, hp.symm⟩

omit [DecidableEq N] in
theorem Keeps.look {v : Nat} (hp : (s.pc t).hand = []) : Keeps s t (s.look t v) := by
  unfold State.look
  split <;> exact .goto hp.symm

-- ============================================================================
-- Steps inside the mailbox
-- ============================================================================

/-- The event is a return from what the thread called. -/
def Answers (t : Nat) : Call → Mailbox.Event N → Prop
  | .none, _ => False
  | .push, e => ∃ n b, e = .push t n b
  | .op op, e => e.Returns t op

theorem inside_cases {m : Mailbox.State N} (h : Inv s) (hcall : (s.pc t).role.call ≠ .none)
    (hm : Mailbox.stepThread s.mailbox (t + 1) = some m) :
    m.pc (t + 1) ≠ .idle ∧ m.popped = s.mailbox.popped ∨
      ∃ e, m.pc (t + 1) = .idle ∧ m.log.getLast? = some e ∧
        m.popped = s.mailbox.popped ++ e.taken ∧ Answers (t + 1) (s.pc t).role.call e := by
  have hin := h.inside t
  have hlogged := Mailbox.stepThread_logged hm
  have hsame : m.log = s.mailbox.log → m.popped = s.mailbox.popped := by
    intro hlog
    rcases hlogged with ⟨-, -, hpop⟩ | ⟨e, hlog', -⟩
    · exact hpop
    · rw [hlog] at hlog'
      exact absurd hlog' (by simp)
  have hone : ∀ e, m.log = s.mailbox.log ++ [e] → m.popped = s.mailbox.popped ++ e.taken := by
    intro e hlog
    rcases hlogged with ⟨hlog', -⟩ | ⟨e', hlog', -, hpop⟩
    · rw [hlog] at hlog'
      exact absurd hlog' (by simp)
    · rw [hlog] at hlog'
      obtain rfl := List.singleton_inj.mp (List.append_cancel_left hlog')
      exact hpop
  cases hc : (s.pc t).role.call with
  | none => exact absurd hc hcall
  | push =>
      rw [hc] at hin
      rcases Mailbox.stepThread_push hm hin with ⟨hin', hlog, -⟩ | ⟨n, b, hidle, hlog, -⟩
      · refine .inl ⟨fun hi => ?_, hsame hlog⟩
        rw [hi] at hin'
        cases hin'
      · exact .inr ⟨_, hidle, by rw [hlog, List.getLast?_concat], hone _ hlog, n, b, rfl⟩
  | op op =>
      rw [hc] at hin
      cases Mailbox.stepThread_call hm hin with
      | inside hin' hlog =>
          refine .inl ⟨fun hi => ?_, hsame hlog⟩
          rw [hi] at hin'
          cases hin'
      | returned e hidle hlog _ hret =>
          exact .inr ⟨e, hidle, by rw [hlog, List.getLast?_concat], hone e hlog, hret⟩
      | crashed hcrash =>
          have hok := (Mailbox.reachable_inv (h.mailbox.next (.step (t + 1)) hm)).pc (t + 1)
          rw [hcrash] at hok
          exact hok.elim

/-- `pop` hands a task to thread `t`, which holds the mutex. -/
structure Hands (s : State N) (t : Nat) (s' : State N) (r : Mailbox.Ptr N) : Prop where
  holds : (s.pc t).role.holds = true
  empty : (s.pc t).hand = []
  popped : s'.mailbox.popped = s.mailbox.popped ++ [r]
  taken : s'.taken = s.taken
  moved : ∃ q : Pc N, s'.pc = Function.update s.pc t q ∧ q.role.holds = true ∧ q.hand = [r]

/-- What left the mailbox is in the hands of the thread. -/
theorem Hands.claimed {r : Mailbox.Ptr N} (hg : Hands s t s' r) (h : Inv s) (h' : Inv s')
    (hc : s.mailbox.popped = s.claimed) : s'.mailbox.popped = s'.claimed := by
  obtain ⟨q, hpc, hq, hhand⟩ := hg.moved
  have hself : s'.pc t = q := by rw [hpc, Function.update_self]
  rw [State.claimed, hg.popped, hg.taken, h'.hand_eq (t := t) (by rw [hself]; exact hq), hself,
    hhand, hc, State.claimed, h.hand_eq hg.holds, hg.empty, List.append_nil]

/-- A step inside the mailbox moves no task, or `pop` hands one to the thread. -/
theorem stepMailbox_tasks (h : Inv s) (hcall : (s.pc t).role.call ≠ .none)
    (hs : s.stepMailbox t = some s') : Keeps s t s' ∨ ∃ r, Hands s t s' r := by
  obtain ⟨m, hm, -, -, rfl⟩ := stepMailbox_cases h hs
  rcases inside_cases h hcall hm with ⟨hne, hpop⟩ | ⟨e, hidle, hlast, hpop, hans⟩
  · rw [if_neg hne]
    exact .inl ⟨hpop, rfl, s.pc t, (Function.update_eq_self t s.pc).symm, rfl⟩
  rw [if_pos hidle, hlast]
  cases hp : s.pc t <;> rw [hp] at hcall hans <;> first | exact absurd rfl hcall | skip
  case push =>
      obtain ⟨n, b, rfl⟩ := hans
      have hpop' : m.popped = s.mailbox.popped := hpop.trans (List.append_nil _)
      cases b with
      | true => exact .inl ⟨hpop', rfl, _, rfl, by rw [hp]; rfl⟩
      | false => exact .inl ⟨hpop', rfl, _, rfl, by rw [hp]; rfl⟩
  case pushUnlock | globalUnlock r | nextUnlock r =>
      obtain ⟨b, rfl⟩ := hans
      have hpop' : m.popped = s.mailbox.popped := hpop.trans (List.append_nil _)
      obtain ⟨h1, h2, h3⟩ := deposit_keeps (s := { s with mailbox := m }) (t := t)
      simp only [State.returned, hp]
      cases b with
      | true => exact .inl ⟨hpop', rfl, _, rfl, by rw [hp]; rfl⟩
      | false =>
          first
          | exact .inl ⟨hpop', rfl, _, rfl, by rw [hp]; rfl⟩
          | exact .inl ⟨h1.trans hpop', h2, _, congrArg (Function.update · t _) h3,
              by rw [hp]; rfl⟩
  case globalPop | nextPop =>
      obtain ⟨r, rfl⟩ := hans
      simp only [State.returned, hp]
      cases r with
      | none =>
          have hpop' : m.popped = s.mailbox.popped := hpop.trans (List.append_nil _)
          exact .inl ⟨hpop', rfl, _, rfl, by rw [hp]; rfl⟩
      | some r => exact .inr ⟨r, by rw [hp]; rfl, by rw [hp]; rfl, hpop, rfl, _, rfl, rfl, rfl⟩

-- ============================================================================
-- Every step
-- ============================================================================

/-- A thread returns with the task that it had in hand. -/
theorem Inv.claimed_got {r : Mailbox.Ptr N} (h : Inv s) (hp : (s.pc t).role.holds = true)
    (hhand : (s.pc t).hand = [r]) (hc : s.mailbox.popped = s.claimed) :
    ((s.unlock.got t r).goto t q).mailbox.popped = ((s.unlock.got t r).goto t q).claimed := by
  rw [State.claimed, h.hand_eq hp, hhand] at hc
  have hnew : ((s.unlock.got t r).goto t q).claimed = (s.taken ++ [(t, r)]).map Prod.snd ++ [] := rfl
  rw [hnew, List.append_nil, List.map_append]
  exact hc

theorem stepThread_claimed {c : Choice} (h : Inv s) (hs : stepThread s t c = some s')
    (hc : s.mailbox.popped = s.claimed) : s'.mailbox.popped = s'.claimed := by
  have h' := stepThread_inv h hs
  have hkeeps : Keeps s t s' → s'.mailbox.popped = s'.claimed := fun hk => hk.claimed h h' hc
  cases hp : s.pc t <;> simp only [stepThread, hp] at hs
  case idle => cases hs
  case push | pushUnlock | globalPop | globalUnlock | nextPop | nextUnlock =>
      rcases stepMailbox_tasks h (by rw [hp]; simp [Pc.role]) hs with hk | ⟨r, hg⟩
      · exact hkeeps hk
      · exact hg.claimed h h' hc
  case pushAdd =>
      cases hs
      obtain ⟨h1, h2, h3⟩ := deposit_keeps (t := t)
        (s := { s with word := s.word + FlagGlobalQueueLocked })
      exact hkeeps ⟨h1, h2, _, congrArg (Function.update · t _) h3, by rw [hp]; rfl⟩
  case globalLock | nextLock =>
      unfold State.lock at hs
      split at hs <;> cases hs
      exact hkeeps ⟨rfl, rfl, _, rfl, by rw [hp]; rfl⟩
  case globalLocked =>
      split at hs <;> cases hs
      · exact hkeeps ⟨rfl, rfl, _, rfl, by rw [hp]; rfl⟩
      · obtain ⟨h1, h2, q, h3, h4⟩ := Keeps.pop (q := .globalPop) (t := t)
          (s := s.assert (s.word &&& FlagGlobalQueueLockedMask = FlagGlobalQueueLocked))
          (by rw [show (s.assert _).pc = s.pc from rfl, hp]; rfl) rfl
        exact hkeeps ⟨h1, h2, q, h3, h4⟩
  case globalRelease r =>
      cases r with
      | none =>
          cases hs
          exact hkeeps ⟨rfl, rfl, _, rfl, by rw [hp]; rfl⟩
      | some r =>
          have hgot := fun q => h.claimed_got (q := q) (t := t) (by rw [hp]; rfl) (by rw [hp]; rfl) hc
          simp only at hs
          split at hs <;> cases hs <;> exact hgot _
  case nextRelease r =>
      cases r with
      | none =>
          cases hs
          exact hkeeps ⟨rfl, rfl, _, rfl, by rw [hp]; rfl⟩
      | some r =>
          cases hs
          exact h.claimed_got (by rw [hp]; rfl) (by rw [hp]; rfl) hc
  case nextLoad =>
      cases hs
      exact hkeeps (.look (by rw [hp]; rfl))
  case nextLocked =>
      cases hs
      exact hkeeps (.recheck (by rw [hp]; rfl))
  case nextSub b =>
      split at hs <;> cases hs
      · exact hkeeps ⟨rfl, rfl, _, rfl, by rw [hp]; rfl⟩
      · obtain ⟨h1, h2, q, h3, h4⟩ := Keeps.look (v := s.word - WaitingThreadsIncrement) (t := t)
          (s := { s with word := s.word - WaitingThreadsIncrement, waiting := s.waiting.erase t })
          (by rw [hp]; rfl)
        exact hkeeps ⟨h1, h2, q, h3, h4⟩
  case nextSubGlobal r =>
      cases r with
      | some r =>
          cases hs
          exact hkeeps ⟨rfl, rfl, _, rfl, by rw [hp]; rfl⟩
      | none =>
          cases hs
          obtain ⟨h1, h2, q, h3, h4⟩ := Keeps.recheck (v := s.word - FlagGlobalQueueLocked) (t := t)
            (s := { s with word := s.word - FlagGlobalQueueLocked }) (by rw [hp]; rfl)
          exact hkeeps ⟨h1, h2, q, h3, h4⟩
  case nextSubLocal =>
      cases hs
      obtain ⟨h1, h2, q, h3, h4⟩ := Keeps.recheck (v := s.word - NoLocalTasksDecrement) (t := t)
        (s := { s with word := s.word - NoLocalTasksDecrement }) (by rw [hp]; rfl)
      exact hkeeps ⟨h1, h2, q, h3, h4⟩
  case globalLoad =>
      split at hs
      · cases hs
        exact hkeeps (.goto (by rw [hp]; rfl))
      · split at hs <;> cases hs <;> exact hkeeps (.goto (by rw [hp]; rfl))
  case nextWait v =>
      split at hs
      · cases hs
      · split at hs <;> cases hs <;> exact hkeeps (.goto (by rw [hp]; rfl))
  all_goals first
    | cases hs
      exact hkeeps ⟨rfl, rfl, _, rfl, by rw [hp]; rfl⟩
    | split at hs <;> cases hs <;> exact hkeeps ⟨rfl, rfl, _, rfl, by rw [hp]; rfl⟩

theorem step_claimed {a : Act N} (h : Inv s) (hs : scheduler.step s a = some s')
    (hc : s.mailbox.popped = s.claimed) : s'.mailbox.popped = s'.claimed := by
  have h' := step_inv h hs
  cases a with
  | step t c => exact stepThread_claimed h hs hc
  | shutdown =>
      cases hs
      exact hc
  | pushToGlobal t n =>
      simp only [scheduler] at hs
      split at hs <;> cases hs
      next hfree =>
        exact Keeps.claimed (s := s) (t := t) ⟨rfl, rfl, _, rfl, by rw [hfree.1]; rfl⟩ h h' hc
  | wakeByLocalTasks t =>
      simp only [scheduler] at hs
      split at hs <;> cases hs
      next hfree => exact Keeps.claimed (s := s) (t := t) (.goto (by rw [hfree]; rfl)) h h' hc
  | nextTask t global =>
      simp only [scheduler] at hs
      split at hs <;> cases hs
      next hfree =>
        exact Keeps.claimed (s := s) (t := t) (.goto (by rw [hfree]; cases global <;> rfl)) h h' hc

theorem reachable_claimed (hr : scheduler.Reachable s) : s.mailbox.popped = s.claimed := by
  refine (hr.invariant (I := fun s => Inv s ∧ s.mailbox.popped = s.claimed) ?_ ?_).2
  · rintro _ ⟨next, rfl⟩
    exact ⟨start_inv next, rfl⟩
  · rintro s a s' ⟨h, hc⟩ _ hs
    exact ⟨step_inv h hs, step_claimed h hs hc⟩

/-- In every run the tasks that workers returned with, and after them the one
    that the holder of the mutex has in hand, are the first of the tasks in the
    order in which they were pushed: each is handed to one worker, and none is
    overtaken.  A thread without the mutex has no task of the global queue in
    hand.  With no `push_to_global` on its way, the mutex free and the counter
    zero, every task that was pushed was returned. -/
theorem globalTasks_fifo :
    (∀ s : State N, scheduler.Reachable s →
      s.taken.map Prod.snd ++ s.hand <+: s.mailbox.order.map .node ∧
      ∀ t, (s.pc t).hand ≠ [] → s.mutex = some t ∧ s.hand = (s.pc t).hand) ∧
    (∀ s : State N, scheduler.Reachable s → (∀ t, (s.pc t).pushing = false) → s.mutex = none →
      globalLocked s.word = 0 → s.taken.map Prod.snd = s.mailbox.order.map .node) := by
  refine ⟨fun s hr => ?_, fun s hr hpush hmutex hcount => ?_⟩
  · have h := reachable_inv hr
    refine ⟨?_, fun t ht => ?_⟩
    · have hmailbox := Mailbox.reachable_inv h.mailbox
      have hpre := hmailbox.popped_prefix
      rwa [reachable_claimed hr] at hpre
    · have hholds : (s.pc t).role.holds = true := by
        by_contra hp
        exact ht (Pc.hand_of_free (by simpa using hp))
      exact ⟨(h.mutex t).mpr hholds, h.hand_eq hholds⟩
  · have h := reachable_inv hr
    have hrem : s.mailbox.remaining = [] := by
      by_contra hrem
      have hone := h.stored_of_remaining hpush hmutex hrem
      have hc := h.count
      omega
    have horder := (Mailbox.reachable_inv h.mailbox).order
    rw [show s.mailbox.chain.filter Mailbox.Ptr.isNode = s.mailbox.remaining from rfl, hrem,
      List.append_nil, reachable_claimed hr, State.claimed, State.hand, hmutex, Option.elim_none,
      List.append_nil] at horder
    exact horder

end Tasks

end Coroactors.WorkStealing.Global
