/-
  Coroactors.Async.SameContext

  `co_await awaitable` for an awaitable that is not an async coroutine:
  `same_context_wrapped_awaiter` (coroactors/detail/async.h).

  The awaiter gets a wrapped handle, whose runnable enters the
  task's context when the handle is resumed.  It may do so inside its
  `await_suspend`, from another thread meanwhile, or later, but once; and not
  at all when `await_suspend` returns false or throws.

  `calls` counts how often the `co_await` or the wrapped handle called
  `async_context_manager`; no step reads it.
-/

import Coroactors.Async.Await

namespace Coroactors.Async.Same

open Coroactors.Conc
open Coroactors.Context (contexts stepThread)

-- ============================================================================
-- Data
-- ============================================================================

/-- The runnable of the awaiter, and those of everybody else. -/
inductive Runnable (R : Type*) where
  /-- `async_restore_task_callback` in the wrapped handle. -/
  | restore
  | other (r : R)
deriving DecidableEq, Repr

/-- The runnable of the awaiter. -/
def Runnable.own {R : Type*} : Runnable R → Bool
  | .restore => true
  | .other _ => false

/-- Where `await_suspend` is. -/
inductive Suspend where
  | before
  /-- In `awaiter.await_suspend(k)`. -/
  | awaiter
  /-- In `leave(context)`. -/
  | leave
  | returned
deriving DecidableEq, Repr

structure State (R C S : Type*) extends Await (Runnable R) C S where
  suspend : Suspend
  calls : Nat

inductive Act (R C : Type*) where
  /-- The coroutine executes on a thread, in a context. -/
  | start (t : Nat) (c : Option C)
  /-- `co_await awaitable`, where `await_ready` of the awaiter answers `ready`. -/
  | coAwait (ready : Bool) (awaiter : Awaiter)
  /-- The awaiter's `await_suspend` returns, and says that it suspended. -/
  | suspended (suspended : Bool)
  | throws
  /-- A thread resumes the wrapped handle. -/
  | resume (t : Nat)
  /-- The next step of `leave(context)`. -/
  | suspendStep (k : Context.Choice (Runnable R))
  /-- The next step of the call of the wrapped handle. -/
  | enterStep (k : Context.Choice (Runnable R))
  /-- A thread runs the runnable from a scheduler's queue. -/
  | run (t : Nat) (e : Context.Entry (Runnable R) C)
  | awaitResume
  /-- Somebody else uses a context. -/
  | other (a : Context.Act (Runnable R) C)
  /-- Another task enters or leaves a thread's stack. -/
  | otherEnter (t i : Nat)
  | otherLeave (t : Nat)

section Model

variable {R C S : Type*}

def State.start : State R C S where
  toAwait := .start
  suspend := .before
  calls := 0

-- ============================================================================
-- Operations
-- ============================================================================

/-- `task->enter()`. -/
def State.enter (s : State R C S) (t : Nat) : State R C S :=
  { s with toAwait := s.toAwait.enter t }

/-- `task->leave()`. -/
def State.leave (s : State R C S) (t : Nat) : State R C S :=
  { s with toAwait := s.toAwait.leave t }

/-- The wrapped handle resumed by `t`. -/
def State.restoreTask [DecidableEq R] [DecidableEq C] (s : State R C S) (t : Nat) : State R C S :=
  { s with toAwait := s.toAwait.restoreTask t }

/-- `leave(context)`, while it goes on and after it returned. -/
def State.leaveContext [DecidableEq R] [DecidableEq C] (s : State R C S) : State R C S :=
  if s.base.pc s.thread = .idle then { s with suspend := .returned }
  else { s with suspend := .leave }

/-- The thread is in a call of `await_suspend` or of the wrapped handle. -/
def State.busy (s : State R C S) (t : Nat) : Bool := s.toAwait.busy (s.suspend = .leave) t

/-- What the others do with contexts. -/
def State.allows [DecidableEq C] (s : State R C S) (a : Context.Act (Runnable R) C) : Bool :=
  s.toAwait.allows Runnable.own (s.suspend = .leave) (s.suspend = .awaiter) a

-- ============================================================================
-- Steps
-- ============================================================================

variable [DecidableEq R] [DecidableEq C] [DecidableEq S] (sched : C → S)

/-- `await_ready`, and `await_suspend` up to the call of the awaiter's. -/
def State.coAwait (s : State R C S) (t : Nat) (ready : Bool) (awaiter : Awaiter) : State R C S :=
  let s := { s with thread := t, old := s.context, awaiter := awaiter }
  if ready then { s with coro := .resuming t, suspend := .returned }
  else
    { s.leave t with
      coro := .suspended, task := true, suspend := .awaiter, handle := .given }

def sameContext : System (State R C S) (Act R C) where
  init s := s = .start
  step s a :=
    if s.terminated then none
    else
      match a with
      | .start t c =>
          if s.coro = .absent ∧ s.base.pc t = .idle ∧ (∀ d ∈ c, d ∈ s.base.owned t) then
            some ({ s with coro := .running t, context := c }.enter t)
          else none
      | .coAwait ready awaiter =>
          match s.coro with
          | .running t =>
              -- the coroutine executes, so that its task is the current one
              if (s.stack t).head? = some self then some (s.coAwait t ready awaiter) else none
          | _ => none
      | .suspended suspended =>
          if s.suspend ≠ .awaiter then none
          else if suspended then
            ((contexts sched).step s.base (.leave s.thread s.old)).map fun b =>
              { s with base := b, calls := s.calls + 1 }.leaveContext
          else if s.awaiter = .bool ∧ s.handle = .given then
            some { s with handle := .none, suspend := .returned, coro := .resuming s.thread }
          else none
      | .throws =>
          if s.suspend = .awaiter ∧ s.handle = .given then
            some { s.enter s.thread with
              task := false, handle := .none, suspend := .returned, coro := .threw s.thread }
          else none
      | .resume t =>
          if s.handle = .given then
            ((contexts sched).step s.base (.enter t s.context .restore false)).map fun b =>
              { s with base := b, calls := s.calls + 1 }.restoreTask t
          else none
      | .suspendStep k =>
          if s.suspend = .leave then
            (stepThread sched s.base s.thread k).map fun b =>
              { s with
                base := b
                released := s.released +
                  (s.base.pc s.thread).releases.toList.length }.leaveContext
          else none
      | .enterStep k =>
          match s.handle with
          | .entering t =>
              (stepThread sched s.base t k).map fun b => { s with base := b }.restoreTask t
          | _ => none
      | .run t e =>
          match e.runnable with
          | .restore =>
              ((contexts sched).step s.base (.run t e)).map fun b =>
                { s with base := b, scheduled := true, coro := .resuming t }
          | .other _ => none
      | .awaitResume =>
          match s.coro with
          | .resuming t =>
              let s := { s with coro := .resumed t }
              some (if s.task then s.enter t else s)
          | _ => none
      | .other a =>
          if s.allows a then ((contexts sched).step s.base a).map fun b => { s with base := b }
          else none
      | .otherEnter t i =>
          if i = self then none
          else some { s with stack := Function.update s.stack t (i :: s.stack t) }
      | .otherLeave t =>
          match s.stack t with
          | i :: rest =>
              if i = self then none else some { s with stack := Function.update s.stack t rest }
          | [] => none

end Model

end Coroactors.Async.Same
