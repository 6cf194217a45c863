/-
  Coroactors.TaskGroup.Sink

  `task_group_sink` and the awaiters that use it (coroactors/detail/task_group.h,
  coroactors/task_group.h).

  Every added task pushes one result node.  Results travel by two routes: the
  list in `last_ready` (last result first), and `ready_queue`, which belongs to
  the awaiting coroutine and which `push` writes only while it holds the
  awaiter it took out of `last_ready`.

  The parties:

    * the owner, one coroutine that adds tasks, awaits `next()`,
      `next_result()` and `when_ready()`, may be destroyed while suspended
      (`await_cancel()`), and finally detaches;
    * the tasks, each pushing its node once;
    * the stop callback of a pending `when_ready()`, `await_cancel(true)`.

  Each step performs one atomic operation on `last_ready` with the plain
  accesses around it; the plain accesses of `push` after it took the awaiter
  are a step of their own.  A node is identified by the index `next_index`
  gave to its task.  A compare-exchange compares pointers, so what a thread
  remembers of `last_ready` is a `View`, and the list it extends is the one
  found at the compare-exchange.

  A failed assertion is recorded and the code goes on as with `NDEBUG`, except
  where it would follow a marker as a pointer: there the owner stops.
-/

import Coroactors.Conc.System
import Mathlib.Logic.Function.Basic

namespace Coroactors.TaskGroup

open Coroactors.Conc

-- ============================================================================
-- Data
-- ============================================================================

/-- A result node: the index of its task and the outcome. -/
structure Node (α : Type*) where
  index : Nat
  value : α
deriving DecidableEq, Repr

/-- `last_ready`: null, a marker, or the list of results, last result first. -/
inductive Head (α : Type*) where
  | null
  | awaiting
  | detached
  | cancelled
  | results (last : Node α) (rest : List (Node α))
deriving DecidableEq, Repr

/-- A value loaded from `last_ready`. -/
inductive View where
  | null
  | awaiting
  | detached
  | cancelled
  | node (index : Nat)
deriving DecidableEq, Repr

section Model

variable {α : Type*}

def Head.view : Head α → View
  | .null => .null
  | .awaiting => .awaiting
  | .detached => .detached
  | .cancelled => .cancelled
  | .results n _ => .node n.index

/-- The results in the list, last result first. -/
def Head.list : Head α → List (Node α)
  | .results n rest => n :: rest
  | _ => []

/-- `task_group::next`, `next_result` or `when_ready`. -/
inductive Kind where
  | next
  | nextResult
  | whenReady
deriving DecidableEq, Repr

/-- Where the owner is.  `c` stands for the handle of the suspended coroutine;
    every await has its own. -/
inductive Owner where
  | idle
  /-- `when_ready`: nothing is ready, before the stop token is looked at. -/
  | token
  /-- Before `await_suspend`. -/
  | suspend (k : Kind)
  /-- In the loop of `await_suspend`. -/
  | suspendCas (k : Kind) (c : Nat) (head : View)
  /-- `await_suspend` returned true. -/
  | suspended (k : Kind) (c : Nat)
  /-- The coroutine goes on, before `await_resume`. -/
  | resume (k : Kind)
  /-- `when_ready`'s `await_resume` after it removed the stop callback. -/
  | removed
  /-- `when_ready` completed with this value. -/
  | completed (r : Bool)
  /-- The suspended awaiter is being destroyed, before it removes its callback. -/
  | destroy (c : Nat)
  /-- Before the load of `await_cancel()`. -/
  | destroyLoad (c : Nat)
  /-- In the loop of `await_cancel()`. -/
  | destroyCas (c : Nat) (head : View)
  /-- Destroyed, but somebody else had taken the continuation. -/
  | lost (c : Nat)
  /-- A marker was used as a result node. -/
  | crashed
  /-- After `detach`. -/
  | detached
deriving DecidableEq, Repr

/-- Where a task is. -/
inductive Pusher (α : Type*) where
  /-- Not added. -/
  | absent
  | running
  /-- In `push`, before its load. -/
  | push (v : α)
  /-- In the loop of `push`. -/
  | pushCas (v : α) (head : View)
  /-- `push` took the awaiter, before it writes `ready_queue`. -/
  | taken (v : α)
  | done (v : α)
deriving DecidableEq, Repr

/-- Where the stop callback of the pending `when_ready` is. -/
inductive Canceller where
  /-- Not registered. -/
  | off
  /-- Registered, not called. -/
  | armed
  /-- Called, before the load of `await_cancel(true)`. -/
  | load
  /-- In the loop of `await_cancel(true)`. -/
  | cas (head : View)
  /-- It has returned, or resumes the continuation it took. -/
  | done
deriving DecidableEq, Repr

/-- The sink, the parties, and the history of the run: nodes in the order of
    their compare-exchange on `last_ready`, nodes returned by `await_resume`,
    nodes destroyed by `detach` and by a `push` that found it, continuations
    installed in `last_ready` and continuations returned from it. -/
structure State (α : Type*) where
  lastReady : Head α
  readyQueue : List (Node α)
  continuation : Option Nat
  count : Nat
  nextIndex : Nat
  owner : Owner
  tasks : Nat → Pusher α
  canceller : Canceller
  /-- The stop was requested on the token of the last `when_ready`. -/
  stop : Bool
  /-- Number of handles used so far. -/
  awaits : Nat
  /-- The node of a `push` that took the awaiter and still has to queue it. -/
  hand : Option (Node α)
  pushed : List (Node α)
  delivered : List (Node α)
  dropped : List (Node α)
  late : List (Node α)
  installed : List Nat
  returned : List Nat
  assertFailed : Bool

def State.start : State α where
  lastReady := .null
  readyQueue := []
  continuation := none
  count := 0
  nextIndex := 0
  owner := .idle
  tasks := fun _ => .absent
  canceller := .off
  stop := false
  awaits := 0
  hand := none
  pushed := []
  delivered := []
  dropped := []
  late := []
  installed := []
  returned := []
  assertFailed := false

/-- What `when_ready` finds when it looks at its stop token. -/
inductive Token where
  | unstoppable
  | stopped
  | armed
deriving DecidableEq, Repr

/-- One step of a party.  `spurious` lets a weak compare-exchange fail although
    the value matches. -/
inductive Act (α : Type*) where
  /-- The owner adds a task. -/
  | add
  /-- The owner calls `ready()`. -/
  | ready
  /-- The owner starts an await: `await_ready`. -/
  | await (k : Kind)
  /-- The next step of the owner's await. -/
  | owner (token : Token) (spurious : Bool)
  /-- The suspended awaiter is destroyed. -/
  | destroy
  | detach
  /-- A task finishes with this outcome. -/
  | complete (i : Nat) (v : α)
  /-- The next step of a task's `push`. -/
  | push (i : Nat) (spurious : Bool)
  /-- The next step of the stop callback. -/
  | cancel (spurious : Bool)

-- ============================================================================
-- The sink's operations
-- ============================================================================

/-- `assert(ok)`. -/
def State.assert (s : State α) (ok : Bool) : State α :=
  { s with assertFailed := s.assertFailed || !ok }

def State.setTask (s : State α) (i : Nat) (p : Pusher α) : State α :=
  { s with tasks := Function.update s.tasks i p }

/-- `next_index`, and the task it is for is started. -/
def State.nextTask (s : State α) : State α :=
  { (s.setTask s.nextIndex .running) with
    count := s.count + 1
    nextIndex := s.nextIndex + 1 }

/-- The load of `ready()`, which accepts a suspended awaiter. -/
def State.ready (s : State α) : State α :=
  if s.readyQueue ≠ [] then s
  else s.assert (s.lastReady.view != .detached && s.lastReady.view != .cancelled)

/-- The answer of the sink's `await_ready`: `none` when it throws because
    another coroutine is awaiting. -/
def State.awaitReady (s : State α) : Option Bool :=
  if s.continuation.isSome then none
  else if s.readyQueue ≠ [] then some true
  else some (s.lastReady.view != .null)

/-- The assertions of the sink's `await_ready`. -/
def State.awaitReadyAssert (s : State α) : State α :=
  if s.readyQueue ≠ [] then s
  else s.assert (s.lastReady.view != .detached && s.lastReady.view != .awaiting &&
    s.lastReady.view != .cancelled)

/-- The loop by which `await_resume` inverts the linked list. -/
def invert : List (Node α) → List (Node α) → List (Node α)
  | [], queue => queue
  | n :: rest, queue => invert rest (n :: queue)

/-- `await_resume` once `ready_queue` is known to hold something. -/
def State.popReady (s : State α) : State α :=
  match s.readyQueue with
  | [] => { (s.assert false) with owner := .crashed }
  | n :: rest =>
      { s with
        readyQueue := rest
        delivered := s.delivered ++ [n]
        count := s.count - 1
        owner := .idle }

/-- `await_resume`. -/
def State.awaitResume (s : State α) : State α :=
  if s.readyQueue ≠ [] then s.popReady
  else
    let s := s.assert (s.lastReady.view != .awaiting && s.lastReady.view != .detached &&
      s.lastReady.view != .cancelled && s.lastReady.view != .null)
    match s.lastReady with
    | .results n rest => { s with lastReady := .null, readyQueue := invert (n :: rest) [] }.popReady
    | _ => { s with lastReady := .null, owner := .crashed }

/-- `detach`: the list and the ready queue are destroyed. -/
def State.detach (s : State α) : State α :=
  { s with
    lastReady := .detached
    continuation := if s.lastReady.view = .awaiting then none else s.continuation
    readyQueue := []
    dropped := s.dropped ++ (s.readyQueue ++ s.lastReady.list.reverse)
    owner := .detached }

/-- The suspended coroutine is handed over to be resumed. -/
def Owner.wake : Owner → Owner
  | .suspended k _ => .resume k
  | o => o

/-- The continuation leaves the sink: `std::exchange(continuation, {})`. -/
def State.takeContinuation (s : State α) : State α :=
  { s with
    continuation := none
    returned := s.returned ++ s.continuation.toList
    owner := s.owner.wake }

-- ============================================================================
-- Steps
-- ============================================================================

/-- `push` of the node of task `i`. -/
def pushStep (s : State α) (i : Nat) (spurious : Bool) : Option (State α) :=
  match s.tasks i with
  | .push v => some (s.setTask i (.pushCas v s.lastReady.view))
  | .pushCas v .awaiting =>
      if s.lastReady.view = .awaiting && !spurious then
        some { (s.setTask i (.taken v)) with
          lastReady := .null
          hand := some ⟨i, v⟩
          pushed := s.pushed ++ [⟨i, v⟩] }
      else
        some (s.setTask i (.pushCas v s.lastReady.view))
  | .pushCas v .detached =>
      some { (s.setTask i (.done v)) with late := s.late ++ [⟨i, v⟩] }
  | .pushCas v head =>
      -- `MarkerCancelled` is just a flag, the real head is null
      if s.lastReady.view = head then
        some { (s.setTask i (.done v)) with
          lastReady := .results ⟨i, v⟩ s.lastReady.list
          pushed := s.pushed ++ [⟨i, v⟩] }
      else
        some (s.setTask i (.pushCas v s.lastReady.view))
  | .taken v =>
      let s := s.assert (s.readyQueue.isEmpty)
      some { (s.setTask i (.done v)).takeContinuation with
        readyQueue := ⟨i, v⟩ :: s.readyQueue
        hand := none }
  | _ => none

/-- `await_cancel(true)`, called by the stop callback. -/
def cancelStep (s : State α) (spurious : Bool) : Option (State α) :=
  match s.canceller with
  | .armed => some { s with canceller := .load, stop := true }
  | .load => some { s with canceller := .cas s.lastReady.view }
  | .cas .awaiting =>
      if s.lastReady.view = .awaiting && !spurious then
        some { s.takeContinuation with lastReady := .null, canceller := .done }
      else
        some { s with canceller := .cas s.lastReady.view }
  | .cas .null =>
      if s.lastReady.view = .null && !spurious then
        some { s with lastReady := .cancelled, canceller := .done }
      else
        some { s with canceller := .cas s.lastReady.view }
  | .cas head => some { (s.assert (head != .detached)) with canceller := .done }
  | .off | .done => none

/-- The stop callback is not in the middle of its work on the sink, so that
    removing it does not have to wait. -/
def Canceller.removable : Canceller → Bool
  | .load | .cas _ => false
  | _ => true

/-- The owner's await and the destruction of its awaiter. -/
def ownerStep (s : State α) (token : Token) (spurious : Bool) : Option (State α) :=
  match s.owner with
  | .token =>
      match token with
      | .unstoppable => some { s with owner := .suspend .whenReady, stop := false }
      | .stopped => some { s with owner := .resume .whenReady, stop := true }
      | .armed =>
          some { s with owner := .suspend .whenReady, stop := false, canceller := .armed }
  | .suspend k =>
      let s := s.assert (s.readyQueue.isEmpty && s.continuation.isNone)
      some { s with
        owner := .suspendCas k s.awaits s.lastReady.view
        continuation := some s.awaits
        awaits := s.awaits + 1 }
  | .suspendCas k c .null =>
      if s.lastReady.view = .null && !spurious then
        some { s with
          lastReady := .awaiting
          owner := .suspended k c
          installed := s.installed ++ [c] }
      else
        some { s with owner := .suspendCas k c s.lastReady.view }
  | .suspendCas k c .cancelled =>
      if s.lastReady.view = .cancelled && !spurious then
        some { s with lastReady := .null, continuation := none, owner := .resume k }
      else
        some { s with owner := .suspendCas k c s.lastReady.view }
  | .suspendCas k _ head =>
      some { (s.assert (head != .awaiting && head != .detached)) with
        continuation := none
        owner := .resume k }
  | .resume .whenReady =>
      if s.canceller.removable then some { s with canceller := .off, owner := .removed } else none
  | .resume _ => some s.awaitResume
  | .removed =>
      match s.awaitReady with
      | none => some { (s.assert false) with owner := .crashed }
      | some r => some { s.awaitReadyAssert with owner := .completed r }
  | .completed _ => some { s with owner := .idle }
  | .destroy c =>
      if s.canceller.removable then some { s with canceller := .off, owner := .destroyLoad c }
      else none
  | .destroyLoad c => some { s with owner := .destroyCas c s.lastReady.view }
  | .destroyCas c .awaiting =>
      if s.lastReady.view = .awaiting && !spurious then
        some { s.takeContinuation with lastReady := .null, owner := .idle }
      else
        some { s with owner := .destroyCas c s.lastReady.view }
  | .destroyCas c .cancelled =>
      if s.lastReady.view = .cancelled && !spurious then
        some { s with lastReady := .null, owner := .lost c }
      else
        some { s with owner := .destroyCas c s.lastReady.view }
  | .destroyCas c head => some { (s.assert (head != .detached)) with owner := .lost c }
  | .idle | .suspended _ _ | .lost _ | .crashed | .detached => none

/-- The start of an await: the awaiter's `await_ready`, which throws when there
    are no tasks to await. -/
def awaitStep (s : State α) (k : Kind) : Option (State α) :=
  match s.owner with
  | .idle =>
      if s.count = 0 then some s
      else
        match s.awaitReady with
        | none => some s
        | some true => some { s.awaitReadyAssert with owner := .resume k }
        | some false =>
            some { s.awaitReadyAssert with
              owner := if k = .whenReady then .token else .suspend k }
  | _ => none

/-- A task group and its tasks. -/
def group (α : Type*) : System (State α) (Act α) where
  init s := s = State.start
  step s
    | .add => if s.owner = .idle then some s.nextTask else none
    | .ready => if s.owner = .idle then some s.ready else none
    | .await k => awaitStep s k
    | .owner token spurious => ownerStep s token spurious
    | .destroy =>
        match s.owner with
        | .suspended _ c =>
            if s.lastReady.view = .awaiting then some { s with owner := .destroy c } else none
        | _ => none
    | .detach => if s.owner = .idle then some s.detach else none
    | .complete i v => if s.tasks i matches .running then some (s.setTask i (.push v)) else none
    | .push i spurious => pushStep s i spurious
    | .cancel spurious => cancelStep s spurious

end Model

end Coroactors.TaskGroup
