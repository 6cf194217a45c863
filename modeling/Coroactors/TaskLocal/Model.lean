/-
  Coroactors.TaskLocal.Model

  The bindings of `task_local` (coroactors/task_local.h, detail/task_local.h and
  detail/async_task.h), and how tasks inherit them from `with_task_group`
  (coroactors/with_task_group.h, detail/task_group.h).

  A binding is a node in the frame of the coroutine of `with_value`.  The nodes
  of a task are linked into one list, which `locals` points to; the tasks of a
  `with_task_group` start with the list of the task that called it, while that
  task goes on to push and pop nodes above it.  Memory is a map from addresses
  to nodes; an address that became free may be used again, and the actions name
  the address of a new node.

  A task has the coroutines that run in it, innermost first.  Only a body
  (`Frame.call`) executes the program; what it does next is free.  Every thread
  has a stack of tasks, as `enter` and `leave` keep it, and `current` is the one
  on top.  Tasks leave their thread and come back on any thread at any time.

  The reference is an environment for every task, `Task.env`: a function of the
  coroutines of the task and of the environment it started with.  No step reads
  an environment, and no step reads `Task.inherited` and `Group.bindings`, which
  tell the nodes of a list when it was inherited.
-/

import Coroactors.Conc.System

namespace Coroactors.TaskLocal

open Coroactors.Conc

-- ============================================================================
-- Data
-- ============================================================================

/-- An `async_task_local`.  The key is the `task_local` variable, and the value
    is what was passed to `with_value`. -/
structure Node (K V : Type*) where
  next : Option Nat
  key : K
  value : V
deriving DecidableEq, Repr

/-- A node with its address. -/
structure Binding (K V : Type*) where
  addr : Nat
  key : K
  value : V
deriving DecidableEq, Repr

/-- A coroutine of a task. -/
inductive Frame (K V : Type*) where
  /-- A body, which awaits the next coroutine or executes. -/
  | call
  /-- `with_task_local_impl` with the address of its `binding`.  `found` are the
      nodes that the task saw before the binding was pushed; no step reads it. -/
  | withValue (binding : Nat) (key : K) (value : V) (found : List (Binding K V))
  /-- `with_task_group` with its `group`. -/
  | withTaskGroup (group : Nat)
deriving DecidableEq, Repr

/-- An `async_task`. -/
structure Task (K V : Type*) where
  locals : Option Nat
  frames : List (Frame K V)
  /-- It is on the stack of a thread. -/
  active : Bool
  /-- The task group it was added to. -/
  group : Option Nat
  /-- The environment it started with. -/
  root : K → Option V
  /-- The nodes it started with. -/
  inherited : List (Binding K V)

/-- A `task_group`. -/
structure Group (K V : Type*) where
  /-- `inherited_locals_`. -/
  inheritedLocals : Option Nat
  /-- The tasks that have not finished. -/
  running : List Nat
  /-- The task whose `with_task_group` it belongs to. -/
  scope : Option Nat
  /-- The environment of its tasks. -/
  env : K → Option V
  bindings : List (Binding K V)

structure State (K V : Type*) where
  nodes : Nat → Option (Node K V)
  tasks : Nat → Option (Task K V)
  groups : Nat → Option (Group K V)
  /-- The tasks on a thread, the current one first. -/
  stack : Nat → List Nat
  nextTask : Nat
  nextGroup : Nat
  assertFailed : Bool

inductive Act (K V : Type*) where
  /-- A detached coroutine, or any other one with a task of its own, starts. -/
  | detach (th : Nat)
  /-- `co_await` of an async coroutine. -/
  | call (th : Nat)
  /-- `co_await local.with_value(value, body())`. -/
  | withValue (th addr : Nat) (key : K) (value : V)
  /-- `co_await with_task_group(body)`. -/
  | withTaskGroup (th : Nat)
  /-- The constructor of a `task_group`. -/
  | taskGroup
  /-- Its destructor. -/
  | dropGroup (g : Nat)
  /-- `task_group::add`. -/
  | add (th g : Nat)
  /-- The innermost coroutine returns or throws. -/
  | finish (th : Nat)
  /-- The current task leaves the thread. -/
  | suspend (th : Nat)
  /-- A suspended task comes back. -/
  | resume (th t : Nat)

section Model

variable {K V : Type*}

-- ============================================================================
-- The reference
-- ============================================================================

/-- The environment inside the coroutines `frames`, the outermost of which has
    the environment `root`. -/
def envOf [DecidableEq K] (root : K → Option V) : List (Frame K V) → K → Option V
  | [], k => root k
  | .withValue _ key value _ :: frames, k =>
      if k = key then some value else envOf root frames k
  | .call :: frames, k => envOf root frames k
  | .withTaskGroup _ :: frames, k => envOf root frames k

def Task.env [DecidableEq K] (k : Task K V) : K → Option V := envOf k.root k.frames

def emptyEnv : K → Option V := fun _ => none

/-- The nodes in the coroutines `frames`. -/
def ownBindings : List (Frame K V) → List (Binding K V)
  | [] => []
  | .withValue binding key value _ :: frames => ⟨binding, key, value⟩ :: ownBindings frames
  | .call :: frames => ownBindings frames
  | .withTaskGroup _ :: frames => ownBindings frames

/-- All nodes that a task can see. -/
def Task.bindings (k : Task K V) : List (Binding K V) := ownBindings k.frames ++ k.inherited

-- ============================================================================
-- Operations of async_task
-- ============================================================================

namespace State

/-- `async_task::current`. -/
def current (s : State K V) (th : Nat) : Option (Nat × Task K V) :=
  match s.stack th with
  | [] => none
  | t :: _ => (s.tasks t).map fun k => (t, k)

def setTask (s : State K V) (t : Nat) (k : Task K V) : State K V :=
  { s with tasks := Function.update s.tasks t (some k) }

/-- `push_local` with the node at `local`, which has been constructed. -/
def pushLocal (s : State K V) (t : Nat) (k : Task K V) (local_ : Nat) (n : Node K V) :
    State K V :=
  { s with
    nodes := Function.update s.nodes local_ (some { n with next := k.locals })
    tasks := Function.update s.tasks t (some { k with locals := some local_ })
    assertFailed := s.assertFailed || n.next.isSome || k.locals = some local_ }

/-- `pop_local` of the node `n` at `local`, and the end of its frame. -/
def popLocal (s : State K V) (t : Nat) (k : Task K V) (local_ : Nat) (n : Node K V) :
    State K V :=
  { s with
    nodes := Function.update s.nodes local_ none
    tasks := Function.update s.tasks t (some { k with locals := n.next })
    assertFailed := s.assertFailed || k.locals ≠ some local_ }

end State

/-- The loop of `find_local`: `none` if it did not end within the fuel or
    followed a pointer to a node that is gone, `some none` for `nullptr`. -/
def findLocal [DecidableEq K] (nodes : Nat → Option (Node K V)) (key : K) :
    Nat → Option Nat → Option (Option V)
  | 0, _ => none
  | _ + 1, none => some none
  | fuel + 1, some p =>
      match nodes p with
      | none => none
      | some n => if n.key = key then some (some n.value) else findLocal nodes key fuel n.next

/-- `find_task_local`. -/
def State.findTaskLocal [DecidableEq K] (s : State K V) (th : Nat) (key : K) (fuel : Nat) :
    Option (Option V) :=
  match s.current th with
  | some (_, k) => findLocal s.nodes key fuel k.locals
  | none => some none

/-- `task_local::get`. -/
def State.get [DecidableEq K] (s : State K V) (th : Nat) (key : K) (defaultValue : V)
    (fuel : Nat) : Option V := do
  let value ← s.findTaskLocal th key fuel
  return value.getD defaultValue

/-- What `get` has to return. -/
def State.expected [DecidableEq K] (s : State K V) (th : Nat) (key : K) (defaultValue : V) : V :=
  match s.current th with
  | some (_, k) => (k.env key).getD defaultValue
  | none => defaultValue

-- ============================================================================
-- Steps
-- ============================================================================

namespace State

/-- The task that executes its body on a thread, and its other coroutines. -/
def body (s : State K V) (th : Nat) : Option (Nat × Task K V × List (Frame K V)) := do
  let (t, k) ← s.current th
  match k.frames with
  | .call :: rest => return (t, k, rest)
  | _ => none

/-- Nothing but a body executes the program in a task; a thread without a task
    may execute other code. -/
def mayCall (s : State K V) (th : Nat) : Bool :=
  s.stack th = [] || (s.body th).isSome

/-- A new task runs on top of the stack. -/
def start (s : State K V) (th : Nat) (k : Task K V) : State K V :=
  { s with
    tasks := Function.update s.tasks s.nextTask (some k)
    stack := Function.update s.stack th (s.nextTask :: s.stack th)
    nextTask := s.nextTask + 1 }

/-- `group.add`: `task_group_promise::start` and `with_task` up to the
    `co_await` of the awaitable. -/
def addTask (s : State K V) (th g : Nat) (G : Group K V) : State K V :=
  let s := { s with
    groups := Function.update s.groups g (some { G with running := s.nextTask :: G.running }) }
  s.start th
    { locals := G.inheritedLocals, frames := [.call], active := true, group := some g,
      root := G.env, inherited := G.bindings }

/-- The last coroutine of a task ended, and `sink->push` told its group. -/
def endTask (s : State K V) (th t : Nat) (k : Task K V) : State K V :=
  { s with
    tasks := Function.update s.tasks t none
    stack := Function.update s.stack th (s.stack th).tail
    groups :=
      match k.group with
      | none => s.groups
      | some g =>
          Function.update s.groups g
            ((s.groups g).map fun G => { G with running := G.running.erase t }) }

/-- The innermost coroutine of a task ends. -/
def finish (s : State K V) (th t : Nat) (k : Task K V) : Option (State K V) :=
  match k.frames with
  | [] => none
  | [.call] => some (s.endTask th t k)
  | .call :: rest => some (s.setTask t { k with frames := rest })
  -- the destructor of `with_task_local_guard`
  | .withValue binding _ _ _ :: rest =>
      match s.nodes binding with
      | none => none
      | some n => some (s.popLocal t { k with frames := rest } binding n)
  -- after the loop that awaits all tasks
  | .withTaskGroup g :: rest =>
      match s.groups g with
      | none => none
      | some G =>
          if G.running = [] then
            some { s.setTask t { k with frames := rest } with
              groups := Function.update s.groups g none }
          else none

end State

def step [DecidableEq K] (s : State K V) : Act K V → Option (State K V)
  | .detach th =>
      if s.mayCall th then
        some (s.start th ⟨none, [.call], true, none, emptyEnv, []⟩)
      else none
  | .call th => do
      let (t, k, rest) ← s.body th
      return s.setTask t { k with frames := .call :: .call :: rest }
  | .withValue th addr key value => do
      let (t, k, rest) ← s.body th
      -- the frame of the coroutine is new memory
      if (s.nodes addr).isSome then none
      return s.pushLocal t
        { k with frames := .call :: .withValue addr key value k.bindings :: .call :: rest }
        addr ⟨none, key, value⟩
  | .withTaskGroup th => do
      let (t, k, rest) ← s.body th
      return { s.setTask t { k with frames := .call :: .withTaskGroup s.nextGroup :: .call :: rest }
        with
        groups := Function.update s.groups s.nextGroup
          (some ⟨k.locals, [], some t, k.env, k.bindings⟩)
        nextGroup := s.nextGroup + 1 }
  | .taskGroup =>
      some { s with
        groups := Function.update s.groups s.nextGroup (some ⟨none, [], none, emptyEnv, []⟩)
        nextGroup := s.nextGroup + 1 }
  | .dropGroup g => do
      let G ← s.groups g
      -- the group of `with_task_group` ends with its scope
      if G.scope.isSome then none
      return { s with groups := Function.update s.groups g none }
  | .add th g => do
      let G ← s.groups g
      if s.mayCall th then some (s.addTask th g G) else none
  | .finish th => do
      let (t, k) ← s.current th
      s.finish th t k
  | .suspend th => do
      let (t, k) ← s.current th
      return { s.setTask t { k with active := false } with
        stack := Function.update s.stack th (s.stack th).tail }
  | .resume th t => do
      let k ← s.tasks t
      -- "cannot enter async_task more than once"
      if k.active then none
      return { s.setTask t { k with active := true } with
        stack := Function.update s.stack th (t :: s.stack th) }

/-- No task runs, and there is no group and no binding. -/
def State.Initial (s : State K V) : Prop :=
  (∀ p, s.nodes p = none) ∧ (∀ t, s.tasks t = none) ∧ (∀ g, s.groups g = none) ∧
    (∀ th, s.stack th = []) ∧ s.assertFailed = false

def system [DecidableEq K] : System (State K V) (Act K V) where
  init := State.Initial
  step := step

end Model

end Coroactors.TaskLocal
