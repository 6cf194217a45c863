/-
  Coroactors.Async.ChangeContext

  `co_await ctx(awaitable)` for an awaitable that is not an async coroutine:
  `change_context_wrapped_awaiter` (coroactors/detail/async.h).

  `await_suspend` and the coroutine are followed separately, since the
  coroutine may go on elsewhere while `await_suspend` has not returned.  A call
  on contexts is a sequence of steps; everything between two calls is one step.
  The two runnables are `r`, with which `transfer_to` changes the context, and
  the one in the wrapped handle given to the awaiter, which enters the task's
  context when the handle is resumed.  The task, the coroutine and the wrapped
  handle are those of Coroactors.Async.Await.
-/

import Coroactors.Async.Await

namespace Coroactors.Async

open Coroactors.Conc
open Coroactors.Context (contexts stepThread)

-- ============================================================================
-- Data
-- ============================================================================

/-- The runnables of the awaiter, and those of everybody else. -/
inductive Runnable (R : Type*) where
  /-- `r`. -/
  | switch
  /-- `async_restore_task_callback` in the wrapped handle. -/
  | restore
  | other (r : R)
deriving DecidableEq, Repr

/-- The runnables of the awaiter. -/
def Runnable.own {R : Type*} : Runnable R → Bool
  | .switch | .restore => true
  | .other _ => false

/-- Where `await_suspend` is. -/
inductive Suspend where
  | before
  /-- In `awaiter.await_suspend(k)`. -/
  | awaiter
  /-- In the transfer of `transfer_to`; `ready` tells from which of its callers. -/
  | transfer (ready : Bool)
  /-- `transfer_to` answered the ready path, before the destructor of `guard`. -/
  | guard (answer : Bool)
  /-- In `leave(old_context)`. -/
  | leave
  | returned
deriving DecidableEq, Repr

/-- In a call on contexts. -/
def Suspend.inCall : Suspend → Bool
  | .transfer _ | .leave => true
  | .before | .awaiter | .guard _ | .returned => false

structure State (R C S : Type*) extends Await (Runnable R) C S where
  new : Option C
  suspend : Suspend
  /-- `await_suspend` changed the task when its runnable may run elsewhere; no
      step reads it. -/
  touched : Bool

inductive Act (R C : Type*) where
  /-- The coroutine executes on a thread, in a context. -/
  | start (t : Nat) (c : Option C)
  /-- `co_await new(awaitable)`, where `await_ready` of the awaiter answers
      `ready`. -/
  | coAwait (new : Option C) (ready : Bool) (awaiter : Awaiter)
  /-- The awaiter's `await_suspend` returns, and says that it suspended. -/
  | suspended (suspended : Bool)
  | throws
  /-- A thread resumes the wrapped handle. -/
  | resume (t : Nat)
  /-- The next step of the call of `await_suspend`. -/
  | suspendStep (k : Context.Choice (Runnable R))
  /-- The next step of the call of the wrapped handle. -/
  | enterStep (k : Context.Choice (Runnable R))
  | guard
  /-- A thread runs one of the two runnables from a scheduler's queue. -/
  | run (t : Nat) (e : Context.Entry (Runnable R) C)
  | awaitResume
  /-- Somebody else uses a context. -/
  | other (a : Context.Act (Runnable R) C)
  /-- Another task enters or leaves a thread's stack. -/
  | otherEnter (t i : Nat)
  | otherLeave (t : Nat)

section Model

variable {R C S : Type*}

def State.start : State R C S where
  toAwait := .start
  new := none
  suspend := .before
  touched := false

-- ============================================================================
-- Operations
-- ============================================================================

/-- `task->enter()`. -/
def State.enter (s : State R C S) (t : Nat) : State R C S :=
  { s with toAwait := s.toAwait.enter t }

/-- `task->leave()`. -/
def State.leave (s : State R C S) (t : Nat) : State R C S :=
  { s with toAwait := s.toAwait.leave t }

/-- The callback of `guard`. -/
def State.runGuard (s : State R C S) : State R C S :=
  { ({ s with context := s.old }.enter s.thread) with task := false }

/-- `await_suspend` returns; the coroutine goes on in the thread if `resumes`. -/
def State.suspendReturns (s : State R C S) (resumes : Bool) : State R C S :=
  { s with suspend := .returned, coro := if resumes then .resuming s.thread else s.coro }

/-- `transfer_to`, while the transfer goes on and after it returned. -/
def State.transferTo [DecidableEq R] [DecidableEq C] (s : State R C S) (ready : Bool) :
    State R C S :=
  if s.base.pc s.thread = .idle then
    if ready then { s with suspend := .guard s.answer } else s.suspendReturns s.answer
  else { s with suspend := .transfer ready }

/-- The wrapped handle resumed by `t`. -/
def State.restoreTask [DecidableEq R] [DecidableEq C] (s : State R C S) (t : Nat) : State R C S :=
  { s with toAwait := s.toAwait.restoreTask t }

/-- `leave(old_context)`, while it goes on and after it returned. -/
def State.leaveOld [DecidableEq R] [DecidableEq C] (s : State R C S) : State R C S :=
  if s.base.pc s.thread = .idle then s.suspendReturns false else { s with suspend := .leave }

/-- The thread is in a call of `await_suspend` or of the wrapped handle. -/
def State.busy (s : State R C S) (t : Nat) : Bool := s.toAwait.busy s.suspend.inCall t

/-- What the others do with contexts. -/
def State.allows [DecidableEq C] (s : State R C S) (a : Context.Act (Runnable R) C) : Bool :=
  s.toAwait.allows Runnable.own s.suspend.inCall (s.suspend = .awaiter) a

-- ============================================================================
-- Steps
-- ============================================================================

variable [DecidableEq R] [DecidableEq C] [DecidableEq S] (sched : C → S)

/-- `transfer_to(old_context)`. -/
def State.startTransfer (s : State R C S) (ready : Bool) : Option (State R C S) :=
  ((contexts sched).step s.base (.transfer s.thread s.old s.context .switch true)).map fun b =>
    { s with base := b }.transferTo ready

/-- `await_ready`, and `await_suspend` up to its first call. -/
def State.coAwait (s : State R C S) (t : Nat) (new : Option C) (ready : Bool) (awaiter : Awaiter) :
    Option (State R C S) :=
  let s := { s with thread := t, old := s.context, new := new, awaiter := awaiter }
  if ready && s.context = new then some { s with coro := .resuming t, suspend := .returned }
  else
    let s := { s.leave t with coro := .suspended, task := true, context := new }
    if ready then s.startTransfer sched true
    else some { s with suspend := .awaiter, handle := .given }

def changeContext : System (State R C S) (Act R C) where
  init s := s = .start
  step s a :=
    if s.terminated then none
    else
      match a with
      | .start t c =>
          if s.coro = .absent ∧ s.base.pc t = .idle ∧ (∀ d ∈ c, d ∈ s.base.owned t) then
            some ({ s with coro := .running t, context := c }.enter t)
          else none
      | .coAwait new ready awaiter =>
          match s.coro with
          | .running t =>
              -- the coroutine executes, so that its task is the current one
              if (s.stack t).head? = some self then s.coAwait sched t new ready awaiter else none
          | _ => none
      | .suspended suspended =>
          if s.suspend ≠ .awaiter then none
          else if suspended then
            ((contexts sched).step s.base (.leave s.thread s.old)).map fun b =>
              { s with base := b }.leaveOld
          else if s.awaiter = .bool ∧ s.handle = .given then
            { s with handle := .none }.startTransfer sched false
          else none
      | .throws =>
          if s.suspend = .awaiter ∧ s.handle = .given then
            some { s.runGuard with
              handle := .none, suspend := .returned, coro := .threw s.thread }
          else none
      | .resume t =>
          if s.handle = .given then
            ((contexts sched).step s.base (.enter t s.context .restore false)).map fun b =>
              { s with base := b }.restoreTask t
          else none
      | .suspendStep k =>
          (stepThread sched s.base s.thread k).bind fun b =>
            let s' := { s with
              base := b
              released := s.released + (s.base.pc s.thread).releases.toList.length }
            match s.suspend with
            | .transfer ready => some (s'.transferTo ready)
            | .leave => some s'.leaveOld
            | _ => none
      | .enterStep k =>
          match s.handle with
          | .entering t =>
              (stepThread sched s.base t k).map fun b => { s with base := b }.restoreTask t
          | _ => none
      | .guard =>
          match s.suspend with
          | .guard answer =>
              some { s.runGuard.suspendReturns answer with touched := s.touched || !answer }
          | _ => none
      | .run t e =>
          match e.runnable with
          | .switch =>
              ((contexts sched).step s.base (.run t e)).map fun b =>
                -- `assert(task)`
                if s.task then { s with base := b, scheduled := true, coro := .resuming t }
                else { s with base := b, terminated := true }
          | .restore =>
              ((contexts sched).step s.base (.run t e)).map fun b =>
                { s with base := b, scheduled := true, coro := .resuming t }
          | .other _ => none
      | .awaitResume =>
          match s.coro with
          | .resuming t =>
              let s := { s with coro := .resumed t }
              some (if s.task then s.enter t else s)
          | _ => none
      | .other a =>
          if s.allows a then ((contexts sched).step s.base a).map fun b => { s with base := b }
          else none
      | .otherEnter t i =>
          if i = self then none
          else some { s with stack := Function.update s.stack t (i :: s.stack t) }
      | .otherLeave t =>
          match s.stack t with
          | i :: rest =>
              if i = self then none else some { s with stack := Function.update s.stack t rest }
          | [] => none

end Model

end Coroactors.Async
