/-
  Coroactors.Async.Await

  What the two awaiters that wrap an awaitable have in common
  (`change_context_wrapped_awaiter` and `same_context_wrapped_awaiter`,
  coroactors/detail/async.h): the task with its context, the coroutine, and the
  wrapped handle that the awaitable's awaiter gets.

  One coroutine of one task makes the call, on a thread that owns the task's
  context.  Around it everything else goes on: the other users of contexts and
  schedulers (Coroactors.Context.Model), and other tasks that enter and leave
  the threads' stacks of tasks.  Nobody else submits the runnables of the
  awaiter or leaves a context on the task's behalf.
-/

import Coroactors.Context.Calls

namespace Coroactors.Async

open Coroactors.Conc

-- ============================================================================
-- Data
-- ============================================================================

/-- What `await_suspend` of the wrapped awaiter returns. -/
inductive Awaiter where
  | handle
  | void
  | bool
deriving DecidableEq, Repr

/-- Where the wrapped handle is. -/
inductive Handle where
  /-- Not given to the awaiter, or not to be resumed since it did not suspend. -/
  | none
  | given
  /-- Resumed by a thread, in `enter`. -/
  | entering (t : Nat)
  | used
deriving DecidableEq, Repr

/-- Where the coroutine is. -/
inductive Coro where
  | absent
  /-- It executes, before the `co_await`. -/
  | running (t : Nat)
  | suspended
  /-- It goes on, before `await_resume`. -/
  | resuming (t : Nat)
  /-- It executes after the `co_await`. -/
  | resumed (t : Nat)
  /-- `awaiter.await_suspend(k)` threw, and the coroutine handles that. -/
  | threw (t : Nat)
deriving DecidableEq, Repr

/-- The thread on which the coroutine executes. -/
def Coro.thread : Coro → Option Nat
  | .running t | .resuming t | .resumed t | .threw t => some t
  | .absent | .suspended => none

/-- The task of the coroutine. -/
def self : Nat := 0

/-- `Q` are the runnables, those of the awaiter and of everybody else. -/
structure Await (Q C S : Type*) where
  base : Context.State Q C S
  /-- `task->context`. -/
  context : Option C
  /-- `task->scheduled`. -/
  scheduled : Bool
  /-- `task->next` is not `InactiveMarker`. -/
  active : Bool
  /-- The tasks on each thread's stack, `async_task::current()` first. -/
  stack : Nat → List Nat
  coro : Coro
  /-- The thread of the `co_await`. -/
  thread : Nat
  /-- The task's context at the `co_await`, of which `await_suspend` makes a
      copy. -/
  old : Option C
  awaiter : Awaiter
  /-- `await_resume` has to enter the task: `r.task` or `restore_task` is set. -/
  task : Bool
  handle : Handle
  /-- How often the `co_await` released its old context: took the next runnable
      from its mailbox, which unlocks it or hands it over; no step reads it. -/
  released : Nat
  /-- `fail` or an assertion ended the program. -/
  terminated : Bool

namespace Await

variable {Q C S : Type*}

def start : Await Q C S where
  base := .start
  context := none
  scheduled := false
  active := false
  stack _ := []
  coro := .absent
  thread := 0
  old := none
  awaiter := .void
  task := false
  handle := .none
  released := 0
  terminated := false

-- ============================================================================
-- Operations
-- ============================================================================

/-- `task->enter()`. -/
def enter (s : Await Q C S) (t : Nat) : Await Q C S :=
  if s.active then { s with terminated := true }
  else { s with active := true, stack := Function.update s.stack t (self :: s.stack t) }

/-- `task->leave()`. -/
def leave (s : Await Q C S) (t : Nat) : Await Q C S :=
  match s.stack t with
  | i :: rest =>
      if i = self then { s with active := false, stack := Function.update s.stack t rest }
      else { s with terminated := true }
  | [] => { s with terminated := true }

/-- What the last call answered. -/
def answer (s : Await Q C S) : Bool := s.base.log.getLast?.any (·.result)

/-- The wrapped handle resumed by `t`, while `enter` goes on and after it
    returned. -/
def restoreTask [DecidableEq Q] [DecidableEq C] (s : Await Q C S) (t : Nat) : Await Q C S :=
  if s.base.pc t = .idle then
    if s.answer then { s with handle := .used, scheduled := false, coro := .resuming t }
    else { s with handle := .used }
  else { s with handle := .entering t }

/-- The thread is in a call of the wrapped handle, or of `await_suspend` if
    `inSuspend` says that this is in a call on contexts. -/
def busy (s : Await Q C S) (inSuspend : Bool) (t : Nat) : Bool :=
  s.handle = .entering t || inSuspend && s.thread = t

/-- The thread runs the coroutine in the context, or is in the awaiter's
    `await_suspend` (`inAwaiter`) with the old context locked. -/
def holds [DecidableEq C] (s : Await Q C S) (inAwaiter : Bool) (t : Nat) (c : C) : Bool :=
  (s.coro.thread = some t && s.context = some c) ||
    (inAwaiter && s.thread = t && s.old = some c)

/-- What the others do with contexts, where `own` are the runnables of the
    awaiter. -/
def allows [DecidableEq C] (s : Await Q C S) (own : Q → Bool) (inSuspend inAwaiter : Bool)
    (a : Context.Act Q C) : Bool :=
  !s.busy inSuspend a.thread &&
    (match a.submits with
      | some (q, _) => !own q
      | none => true) &&
    (match a with
      | .run _ e => !own e.runnable
      | _ => true) &&
    (match a.leaves with
      | some (t, c) => !s.holds inAwaiter t c
      | none => true)

-- ============================================================================
-- What they do
-- ============================================================================

variable {s : Await Q C S} {t : Nat}

theorem enter_of_inactive (h : s.active = false) :
    s.enter t = { s with active := true, stack := Function.update s.stack t (self :: s.stack t) } := by
  rw [enter, h]
  rfl

theorem leave_of_head (h : (s.stack t).head? = some self) :
    s.leave t =
      { s with active := false, stack := Function.update s.stack t (s.stack t).tail } := by
  obtain ⟨rest, hrest⟩ := List.head?_eq_some_iff.mp h
  rw [leave, hrest]
  rfl

theorem answer_of_log {l : List (Context.Event Q C)} {q : Q} {c : Option C} {result : Bool}
    (h : s.base.log = l ++ [⟨t, q, c, result⟩]) : s.answer = result := by
  rw [answer, h, List.getLast?_concat]
  rfl

/-- The call of the wrapped handle goes on. -/
theorem restoreTask_of_call [DecidableEq Q] [DecidableEq C] (h : s.base.pc t ≠ .idle) :
    s.restoreTask t = { s with handle := .entering t } := by
  rw [restoreTask, if_neg h]

/-- The call of the wrapped handle returned. -/
theorem restoreTask_of_log [DecidableEq Q] [DecidableEq C] {l : List (Context.Event Q C)} {q : Q}
    {c : Option C} {result : Bool} (h : s.base.pc t = .idle)
    (hl : s.base.log = l ++ [⟨t, q, c, result⟩]) :
    s.restoreTask t =
      if result then { s with handle := .used, scheduled := false, coro := .resuming t }
      else { s with handle := .used } := by
  rw [restoreTask, if_pos h, answer_of_log hl]

@[simp] theorem enter_coro : (s.enter t).coro = s.coro := by
  unfold enter
  split <;> rfl

@[simp] theorem enter_handle : (s.enter t).handle = s.handle := by
  unfold enter
  split <;> rfl

@[simp] theorem enter_old : (s.enter t).old = s.old := by
  unfold enter
  split <;> rfl

@[simp] theorem enter_released : (s.enter t).released = s.released := by
  unfold enter
  split <;> rfl

@[simp] theorem leave_old : (s.leave t).old = s.old := by
  unfold leave
  repeat' split
  all_goals rfl

@[simp] theorem restoreTask_old [DecidableEq Q] [DecidableEq C] :
    (s.restoreTask t).old = s.old := by
  unfold restoreTask
  repeat' split
  all_goals rfl

@[simp] theorem restoreTask_released [DecidableEq Q] [DecidableEq C] :
    (s.restoreTask t).released = s.released := by
  unfold restoreTask
  repeat' split
  all_goals rfl

/-- What the others do is in no call of the `co_await`, submits no runnable of the
    awaiter, and leaves no context on the task's behalf. -/
theorem of_allows [DecidableEq C] {own : Q → Bool} {inSuspend inAwaiter : Bool}
    {a : Context.Act Q C} (h : s.allows own inSuspend inAwaiter a = true) :
    s.busy inSuspend a.thread = false ∧
      (∀ q d, own q = true → a.submits ≠ some (q, d)) ∧
      ∀ u c, s.holds inAwaiter u c = true → a.leaves ≠ some (u, c) := by
  simp only [allows, Bool.and_eq_true, Bool.not_eq_true'] at h
  obtain ⟨⟨⟨hbusy, hsub⟩, -⟩, hleave⟩ := h
  refine ⟨hbusy, fun q d hq hd => ?_, fun u c hh hl => ?_⟩
  · simp [hd, hq] at hsub
  · simp [hl, hh] at hleave

end Await

end Coroactors.Async
