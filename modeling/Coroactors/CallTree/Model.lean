/-
  Coroactors.CallTree.Model

  Async coroutines that await each other (coroactors/detail/async.h), with the
  wrappers `with_stop_token`, `with_deadline` and `task_local::with_value`.

  A task has a token, a context, a list of locals, and the coroutines that run
  in it: the innermost one executes, and every other awaits the next.  The
  coroutine of a private task is the outermost one; the others inherited the
  task of their awaiter, and may have saved the context to return to.

  Every thread has a stack of tasks.  The coroutine that executes on a thread is
  the innermost one of the task on top.  It may start other tasks, which run on
  top of it until they leave the thread.  A change of the context asks
  `async_context_manager` (Coroactors.Context.Model) whether to go on in the
  same thread; the answer is free, and a task whose answer was no goes on when
  some thread runs its runnable.
-/

import Coroactors.Conc.System
import Mathlib.Logic.Function.Basic

namespace Coroactors.CallTree

open Coroactors.Conc

-- ============================================================================
-- Data
-- ============================================================================

/-- What an awaited coroutine has to restore. -/
structure Env (T C L : Type*) where
  token : T
  context : Option C
  locals : List L
deriving DecidableEq, Repr

/-- A coroutine that wraps an awaitable. -/
inductive Wrapper (T L : Type*) where
  | withStopToken (token : T)
  /-- With the token of its own stop source, unless there is no scheduler or the
      stop was requested already. -/
  | withDeadline (token : Option T)
  | withValue (binding : L)
deriving DecidableEq, Repr

/-- What a wrapper undoes at the end. -/
inductive Guard (T L : Type*) where
  /-- `token`, which holds the token it was swapped with. -/
  | token (saved : T)
  | nothing
  /-- The binding and its `next`. -/
  | binding (b : L) (next : List L)
deriving DecidableEq, Repr

inductive Kind (T L : Type*) where
  | body
  /-- A wrapper before its body. -/
  | fresh (w : Wrapper T L)
  /-- A wrapper before its `co_await`. -/
  | opened (g : Guard T L)
  /-- A wrapper in its `co_await`. -/
  | waiting (g : Guard T L)
deriving DecidableEq, Repr

/-- A coroutine. -/
structure Frame (T C L : Type*) where
  kind : Kind T L
  /-- It runs in the task of its awaiter, not in its own. -/
  inherited : Bool
  /-- `caller_context` of an inherited task. -/
  callerContext : Option (Option C)
  /-- What its awaiter has to find when it resumes; no step reads it. -/
  expected : Env T C L
deriving DecidableEq, Repr

inductive Status where
  | absent
  | running
  /-- It left its thread, and its runnable is pending. -/
  | suspended
  | finished
deriving DecidableEq, Repr

structure Task (T C L β : Type*) where
  env : Env T C L
  /-- Innermost first. -/
  frames : List (Frame T C L)
  status : Status
  /-- The result of the coroutine that finished last. -/
  result : Option β
  assertFailed : Bool
deriving DecidableEq, Repr

structure State (T C L β : Type*) where
  tasks : Nat → Task T C L β
  stack : Nat → List Nat

/-- How a coroutine is awaited. -/
inductive Bind (C : Type*) where
  /-- `co_await child`. -/
  | plain
  /-- `co_await c(child)`. -/
  | context (c : Option C)
  /-- `co_await actor_context::caller_context(child)`. -/
  | caller
deriving DecidableEq, Repr

/-- What the executing coroutine does next.  `answer` is what `enter` or
    `transfer` answers if it is called. -/
inductive Act (T C L β : Type*) where
  /-- `co_await c()`. -/
  | switch (c : Option C) (answer : Bool)
  /-- `co_await actor_context::caller_context()`. -/
  | switchCaller (answer : Bool)
  /-- A wrapper installs its token or binding. -/
  | install
  /-- It awaits a coroutine, which may be a wrapper. -/
  | call (how : Bind C) (child : Option (Wrapper T L))
  /-- It returns or throws. -/
  | finish (outcome : β) (answer : Bool)
  /-- A wrapper returns or throws what it awaited. -/
  | unwrap (answer : Bool)

inductive Label (T C L β : Type*) where
  /-- A task is started on a thread. -/
  | start (t i : Nat) (token : T) (locals : List L)
  /-- The coroutine that executes on a thread goes on. -/
  | act (t : Nat) (a : Act T C L β)
  /-- A thread runs the pending runnable of a task. -/
  | run (t i : Nat)

section Model

variable {T C L β : Type*}

-- ============================================================================
-- Operations
-- ============================================================================

/-- `get_caller_context`. -/
def Frame.getCallerContext (f : Frame T C L) (env : Env T C L) : Option C :=
  if f.inherited then
    match f.callerContext with
    | some c => c
    | none => env.context
  else none

/-- `preserve_caller_context`. -/
def Frame.preserveCallerContext (f : Frame T C L) (env : Env T C L) : Frame T C L :=
  if f.inherited then
    match f.callerContext with
    | some _ => f
    | none => { f with callerContext := some env.context }
  else f

/-- The task changes its context, and goes on if the manager says so. -/
def Task.move (k : Task T C L β) (c : Option C) (answer : Bool) : Task T C L β :=
  { k with
    env := { k.env with context := c }
    status := if answer then .running else .suspended }

/-- `await_transform(bind_context_t)` and its awaiter, in the coroutine `f`. -/
def Task.switchTo [DecidableEq C] (k : Task T C L β) (f : Frame T C L) (rest : List (Frame T C L))
    (c : Option C) (answer : Bool) : Task T C L β :=
  let k := { k with frames := f.preserveCallerContext k.env :: rest }
  if k.env.context = c then k
  else if c = none then { k with env := { k.env with context := none } }
  else k.move c answer

/-- What the awaiter has to find. -/
def Bind.expected (how : Bind C) (f : Frame T C L) (env : Env T C L) : Env T C L :=
  match how with
  | .plain => env
  | .context c => { env with context := c }
  | .caller => { env with context := f.getCallerContext env }

def Kind.ofChild : Option (Wrapper T L) → Kind T L
  | none => .body
  | some w => .fresh w

/-- `await_transform` and `await_suspend` for an async coroutine, in the
    coroutine `f`. -/
def Task.call (k : Task T C L β) (f : Frame T C L) (rest : List (Frame T C L)) (how : Bind C)
    (child : Option (Wrapper T L)) : Task T C L β :=
  let expected := how.expected f k.env
  match how with
  | .plain => { k with frames := ⟨.ofChild child, true, none, expected⟩ :: f :: rest }
  | .context c =>
      { k with
        frames := ⟨.ofChild child, true, some c, expected⟩ :: f.preserveCallerContext k.env :: rest }
  | .caller =>
      { k with
        frames :=
          ⟨.ofChild child, true, some (f.getCallerContext k.env), expected⟩ :: f :: rest }

/-- The body of a wrapper up to its `co_await`. -/
def Task.install (k : Task T C L β) (f : Frame T C L) (rest : List (Frame T C L)) :
    Wrapper T L → Task T C L β
  | .withStopToken token | .withDeadline (some token) =>
      { k with
        env := { k.env with token := token }
        frames := { f with kind := .opened (.token k.env.token) } :: rest }
  | .withDeadline none => { k with frames := { f with kind := .opened .nothing } :: rest }
  | .withValue b =>
      { k with
        env := { k.env with locals := b :: k.env.locals }
        frames := { f with kind := .opened (.binding b k.env.locals) } :: rest }

/-- The destructor of a wrapper's guard. -/
def Task.undo [DecidableEq L] (k : Task T C L β) : Guard T L → Task T C L β
  | .token saved => { k with env := { k.env with token := saved } }
  | .nothing => k
  | .binding b next =>
      { k with
        assertFailed := k.assertFailed || k.env.locals ≠ b :: next
        env := { k.env with locals := next } }

/-- `final_suspend` of the coroutine `f`. -/
def Task.finalSuspend (k : Task T C L β) (f : Frame T C L) (rest : List (Frame T C L))
    (answer : Bool) : Task T C L β :=
  let k := { k with frames := rest }
  if f.inherited then
    match f.callerContext with
    | some c => k.move c answer
    | none => k
  else { k with env := { k.env with context := none }, status := .finished }

-- ============================================================================
-- Steps
-- ============================================================================

variable [DecidableEq C] [DecidableEq L]

/-- The innermost coroutine of the task goes on. -/
def Task.step (k : Task T C L β) (a : Act T C L β) : Option (Task T C L β) :=
  match k.frames with
  | [] => none
  | f :: rest =>
      match a, f.kind with
      | .switch c answer, .body => some (k.switchTo f rest c answer)
      | .switchCaller answer, .body =>
          some (k.switchTo f rest (f.getCallerContext k.env) answer)
      | .install, .fresh w => some (k.install f rest w)
      | .call how child, .body => some (k.call f rest how child)
      | .call .plain child, .opened g =>
          some (k.call { f with kind := .waiting g } rest .plain child)
      | .finish outcome answer, .body =>
          some ({ k with result := some outcome }.finalSuspend f rest answer)
      | .unwrap answer, .waiting g => some ((k.undo g).finalSuspend f rest answer)
      | _, _ => none

/-- A task that has not been started. -/
def Task.absent [Inhabited T] : Task T C L β where
  env := ⟨default, none, []⟩
  frames := []
  status := .absent
  result := none
  assertFailed := false

/-- A task with its outermost coroutine, which nobody awaits. -/
def Task.start (token : T) (locals : List L) : Task T C L β where
  env := ⟨token, none, locals⟩
  frames := [⟨.body, false, none, ⟨token, none, locals⟩⟩]
  status := .running
  result := none
  assertFailed := false

def callTree [Inhabited T] : System (State T C L β) (Label T C L β) where
  init s := s = ⟨fun _ => .absent, fun _ => []⟩
  step s
    | .start t i token locals =>
        if (s.tasks i).status = .absent then
          some ⟨Function.update s.tasks i (.start token locals),
            Function.update s.stack t (i :: s.stack t)⟩
        else none
    | .act t a =>
        match s.stack t with
        | i :: below =>
            ((s.tasks i).step a).map fun k =>
              ⟨Function.update s.tasks i k,
                if k.status = .running then s.stack else Function.update s.stack t below⟩
        | [] => none
    | .run t i =>
        if (s.tasks i).status = .suspended then
          some ⟨Function.update s.tasks i { s.tasks i with status := .running },
            Function.update s.stack t (i :: s.stack t)⟩
        else none

end Model

end Coroactors.CallTree
