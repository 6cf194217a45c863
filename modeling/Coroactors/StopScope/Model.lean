/-
  Coroactors.StopScope.Model

  The wrappers that set the stop token of a body: `with_stop_token`,
  `with_deadline_impl` (detail/actor_with_deadline.h) and `with_task_group`,
  nested in any way, and the stops that run while they come and go.

  A stop state is used through its operations, each at the point where it takes
  effect (Coroactors.StopState.Model has their steps): `request_stop` sets the
  flag, and the thread that set it takes one callback after the other from the
  list and invokes it; a callback that is added to a stopped state is invoked by
  the thread that adds it; the destructor of a callback waits for another thread
  that invokes it.  The callbacks here are the `propagate` of `with_deadline` and
  `with_task_group`.  Callbacks of the user are code that runs while
  `request_stop` is between two of these.

  A task has the coroutines that run in it, innermost first, and executes its
  body when that is on top.  A wrapper before and after its body goes from one
  statement to the next by `advance`; a body that ends may have returned or
  thrown.  Every thread has a stack of tasks and calls of `request_stop`, and the
  one on top executes.  Tasks leave their thread and come back at any time.

  Some data is read by no step: what was requested by whom (`requested`,
  `fired`), the coroutine of a source (`owner`), and the tokens around a task
  (`around`).
-/

import Coroactors.Conc.System

namespace Coroactors.StopScope

open Coroactors.Conc

-- ============================================================================
-- Data
-- ============================================================================

/-- A `stop_token`: its state, if it has one. -/
abbrev Token := Option Nat

/-- Where the source of a wrapper is. -/
inductive Stage where
  | absent
  /-- A source of the user. -/
  | external
  /-- Before the constructor of `propagate`. -/
  | entering
  /-- While `propagate` exists. -/
  | live
  /-- After its destructor. -/
  | ended
deriving DecidableEq, Repr

/-- A stop state with its source, and the `propagate` that stops it. -/
structure Source where
  stage : Stage
  stopped : Bool
  /-- The sources whose `propagate` is in the list. -/
  callbacks : List Nat
  /-- The token that `propagate` is constructed with. -/
  outside : Token
  /-- The thread that invokes `propagate`. -/
  runner : Option Nat
  /-- The callback of `schedule` exists. -/
  armed : Bool
  /-- `request_stop` was called by anything but a `propagate`. -/
  requested : Bool
  /-- The callback of `schedule` was called with true. -/
  fired : Bool
  /-- The task of the wrapper, and how many coroutines are below it. -/
  owner : Option (Nat × Nat)
deriving DecidableEq, Repr

/-- What `request_stop` does with a callback. -/
inductive Hand where
  | idle
  /-- It took the callback from the list. -/
  | taken (q : Nat)
  /-- The callback runs. -/
  | running (q : Nat)
deriving DecidableEq, Repr

/-- What a thread executes. -/
inductive Item where
  | task (t : Nat)
  /-- A call of `request_stop` that set the flag. -/
  | request (q : Nat) (hand : Hand)
deriving DecidableEq, Repr

/-- Where `with_deadline_impl` is. -/
inductive Deadline where
  /-- Before the first check. -/
  | check (scheduler : Bool)
  /-- Before the constructor of `propagate`. -/
  | propagate (q : Nat)
  /-- Before the check of its own token. -/
  | recheck (q : Nat)
  /-- In the call of `schedule`. -/
  | schedule (q : Nat)
  /-- In the `co_await` under the guard; `saved` is the variable `token`. -/
  | opened (q : Nat) (saved : Token)
  /-- Before the destructor of `propagate`; whether the coroutine ends. -/
  | unhook (q : Nat) (leave : Bool)
  /-- Before the destructor of `source`. -/
  | stopSelf (q : Nat) (leave : Bool)
  /-- After it. -/
  | closed (leave : Bool)
  /-- In the `co_await` at the end. -/
  | pass
deriving DecidableEq, Repr

/-- A coroutine of a task. -/
inductive Frame where
  /-- A body, which awaits the next coroutine or executes. -/
  | call
  /-- `with_stop_token`; `saved` is the variable `token` after the swap. -/
  | withStopToken (token saved : Token)
  /-- `with_deadline_impl`; `outer` is the token of the task at its start, and no
      step reads it. -/
  | withDeadline (outer : Token) (place : Deadline)
  /-- `with_task_group` with the source of its group. -/
  | withTaskGroup (q : Nat)
deriving DecidableEq, Repr

/-- Where `with_task_group` is. -/
inductive Phase where
  /-- Before the constructor of `propagate`. -/
  | propagate
  | opened
  /-- The callback ended; before the destructor of `propagate`. -/
  | finished
  /-- Before `group.request_stop()`. -/
  | stopping
  /-- In the loop that awaits the tasks. -/
  | draining
  | gone
deriving DecidableEq, Repr

/-- The group of a `with_task_group`. -/
structure Group where
  phase : Phase
  /-- The tasks that have not finished. -/
  running : List Nat
  /-- The tokens around the group. -/
  around : List Token
deriving DecidableEq, Repr

structure Task where
  token : Token
  frames : List Frame
  /-- It is on the stack of a thread. -/
  active : Bool
  /-- The group it was added to. -/
  group : Option Nat
  /-- The token it started with. -/
  root : Token
  /-- The tokens around it. -/
  around : List Token
deriving DecidableEq, Repr

structure State where
  sources : Nat → Source
  groups : Nat → Option Group
  tasks : Nat → Option Task
  stack : Nat → List Item
  nextSource : Nat
  nextTask : Nat
  assertFailed : Bool

inductive Act where
  /-- The user makes a `stop_source`. -/
  | source
  /-- A task starts that is not in the group of a `with_task_group`. -/
  | start (th : Nat) (token : Token)
  /-- The user calls `request_stop`, also of a group. -/
  | request (th q : Nat)
  /-- The callback of `schedule` is called, within `schedule` or later. -/
  | timer (th q : Nat) (deadline : Bool)
  /-- `co_await` of a coroutine. -/
  | call (th : Nat)
  | withStopToken (th : Nat) (token : Token)
  /-- `with_deadline`; whether the context has a scheduler. -/
  | withDeadline (th : Nat) (scheduler : Bool)
  | withTaskGroup (th : Nat)
  /-- `group.add`. -/
  | add (th q : Nat)
  /-- The body on top returns or throws. -/
  | finish (th : Nat)
  /-- The wrapper on top executes its next statement. -/
  | advance (th : Nat)
  | suspend (th : Nat)
  | resume (th t : Nat)
  /-- `request_stop` on top of the stack goes on. -/
  | stop (th : Nat)
deriving DecidableEq, Repr

-- ============================================================================
-- Tokens
-- ============================================================================

/-- The token inside of the coroutines `frames`, if it is `root` outside. -/
def inside (root : Token) : List Frame → Token
  | [] => root
  | .call :: frames => inside root frames
  | .withStopToken token _ :: _ => token
  | .withDeadline _ (.opened q _) :: _ => some q
  | .withDeadline _ _ :: frames => inside root frames
  | .withTaskGroup _ :: frames => inside root frames

/-- The tokens outside of each wrapper. -/
def outsides : List Frame → List Token
  | [] => []
  | .call :: frames => outsides frames
  | .withStopToken _ saved :: frames => saved :: outsides frames
  | .withDeadline outer _ :: frames => outer :: outsides frames
  | .withTaskGroup _ :: frames => outsides frames

namespace State

/-- `stop_token::stop_requested`. -/
def stopRequested (s : State) (token : Token) : Bool :=
  token.any fun q => (s.sources q).stopped

/-- The user can have a token of this state. -/
def visible (s : State) (q : Nat) : Bool :=
  match (s.sources q).stage with
  | .absent | .entering => false
  | .external | .live | .ended => true

-- ============================================================================
-- Operations of stop states
-- ============================================================================

def setSource (s : State) (q : Nat) (x : Source) : State :=
  { s with sources := Function.update s.sources q x }

def setStage (s : State) (q : Nat) (stage : Stage) : State :=
  s.setSource q { s.sources q with stage := stage }

def setTask (s : State) (t : Nat) (k : Task) : State :=
  { s with tasks := Function.update s.tasks t (some k) }

def setGroup (s : State) (q : Nat) (G : Group) : State :=
  { s with groups := Function.update s.groups q (some G) }

/-- The constructor of a source for the wrapper at `owner`. -/
def newSource (s : State) (stage : Stage) (outside : Token) (owner : Option (Nat × Nat)) :
    State :=
  { s.setSource s.nextSource ⟨stage, false, [], outside, none, false, false, false, owner⟩ with
    nextSource := s.nextSource + 1 }

/-- The thread calls `request_stop`, and not from a `propagate` if `direct`. -/
def requestStop (s : State) (th q : Nat) (direct : Bool) : State :=
  let x := s.sources q
  { s.setSource q { x with stopped := true, requested := x.requested || direct } with
    stack :=
      if x.stopped then s.stack
      else Function.update s.stack th (.request q .idle :: s.stack th) }

/-- The constructor of `propagate` for the source `q`. -/
def hook (s : State) (th q : Nat) (token : Token) : State :=
  match token with
  | none => s.setStage q .live
  | some p =>
      if (s.sources p).stopped then (s.setStage q .live).requestStop th q false
      else
        (s.setSource p { s.sources p with callbacks := q :: (s.sources p).callbacks }).setStage
          q .live

/-- The destructor of `propagate` for the source `q`. -/
def unhook (s : State) (th q : Nat) : Option State :=
  match (s.sources q).outside with
  | none => some (s.setStage q .ended)
  | some p =>
      if q ∈ (s.sources p).callbacks then
        some ((s.setSource p
          { s.sources p with callbacks := (s.sources p).callbacks.filter (· ≠ q) }).setStage
          q .ended)
      -- another thread invokes it
      else if (s.sources q).runner.any (· ≠ th) then none
      else some (s.setStage q .ended)

def setRunner (s : State) (q : Nat) (runner : Option Nat) : State :=
  s.setSource q { s.sources q with runner := runner }

/-- The loop of `request_stop`, with `rest` below it on the stack. -/
def stopStep (s : State) (th q : Nat) (hand : Hand) (rest : List Item) : State :=
  match hand with
  | .idle =>
      match (s.sources q).callbacks with
      | [] => { s with stack := Function.update s.stack th rest }
      | c :: callbacks =>
          let s := s.setSource q { s.sources q with callbacks := callbacks }
          { s.setRunner c (some th) with
            stack := Function.update s.stack th (.request q (.taken c) :: rest) }
  | .taken c =>
      requestStop
        { s with stack := Function.update s.stack th (.request q (.running c) :: rest) }
        th c false
  | .running c =>
      { s.setRunner c none with
        stack := Function.update s.stack th (.request q .idle :: rest) }

-- ============================================================================
-- Tasks
-- ============================================================================

/-- The task that executes on a thread. -/
def current (s : State) (th : Nat) : Option (Nat × Task) :=
  match s.stack th with
  | .task t :: _ => (s.tasks t).map fun k => (t, k)
  | _ => none

/-- The task that executes its body on a thread, and its other coroutines. -/
def body (s : State) (th : Nat) : Option (Nat × Task × List Frame) :=
  match s.current th with
  | some (t, k) =>
      match k.frames with
      | .call :: rest => some (t, k, rest)
      | _ => none
  | none => none

/-- The thread executes code of the user: outside of tasks, in a body, in
    `schedule`, or in a callback of the user. -/
def userCode (s : State) (th : Nat) : Bool :=
  match s.stack th with
  | [] => true
  | .request _ .idle :: _ => true
  | .request _ _ :: _ => false
  | .task t :: _ =>
      match (s.tasks t).map Task.frames with
      | some (.call :: _) => true
      | some (.withDeadline _ (.schedule _) :: _) => true
      | _ => false

/-- The tokens around the body of a task. -/
def tokensAround (k : Task) : List Token := outsides k.frames ++ k.around

/-- A new task runs on top of the stack. -/
def startTask (s : State) (th : Nat) (k : Task) : State :=
  { s.setTask s.nextTask k with
    stack := Function.update s.stack th (.task s.nextTask :: s.stack th)
    nextTask := s.nextTask + 1 }

/-- The last coroutine of a task ended. -/
def endTask (s : State) (th t : Nat) (k : Task) : State :=
  { s with
    tasks := Function.update s.tasks t none
    stack := Function.update s.stack th (s.stack th).tail
    groups :=
      match k.group with
      | none => s.groups
      | some q =>
          Function.update s.groups q
            ((s.groups q).map fun G => { G with running := G.running.erase t }) }

/-- A body ends, with `rest` below it. -/
def finishBody (s : State) (th t : Nat) (k : Task) (rest : List Frame) : Option State :=
  let s' := s.setTask t { k with frames := rest }
  match rest with
  | [] => some (s.endTask th t k)
  | .withTaskGroup q :: _ => do
      let G ← s.groups q
      return s'.setGroup q { G with phase := .finished }
  | _ => some s'

/-- The next statement of `with_deadline_impl`, with `rest` below it. -/
def advanceDeadline (s : State) (th t : Nat) (k : Task) (outer : Token) (rest : List Frame) :
    Deadline → Option State
  | .check scheduler =>
      if scheduler && !s.stopRequested k.token then
        let s' := s.newSource .entering k.token (some (t, rest.length))
        some (s'.setTask t
          { k with frames := .withDeadline outer (.propagate s.nextSource) :: rest })
      else some (s.setTask t { k with frames := .call :: .withDeadline outer .pass :: rest })
  | .propagate q =>
      some ((s.setTask t { k with frames := .withDeadline outer (.recheck q) :: rest }).hook
        th q k.token)
  | .recheck q =>
      if s.stopRequested (some q) then
        some { s.setTask t { k with frames := .withDeadline outer (.unhook q false) :: rest } with
          assertFailed := s.assertFailed || !s.stopRequested k.token }
      else
        some ((s.setTask t
          { k with frames := .withDeadline outer (.schedule q) :: rest }).setSource
          q { s.sources q with armed := true })
  | .schedule q =>
      some (s.setTask t
        { k with
          token := some q
          frames := .call :: .withDeadline outer (.opened q k.token) :: rest })
  | .opened q saved =>
      some (s.setTask t
        { k with token := saved, frames := .withDeadline outer (.unhook q true) :: rest })
  | .unhook q leave =>
      (s.setTask t { k with frames := .withDeadline outer (.stopSelf q leave) :: rest }).unhook
        th q
  | .stopSelf q leave =>
      some ((s.setTask t { k with frames := .withDeadline outer (.closed leave) :: rest }).requestStop
        th q true)
  | .closed leave =>
      if leave then some (s.setTask t { k with frames := rest })
      else some (s.setTask t { k with frames := .call :: .withDeadline outer .pass :: rest })
  | .pass => some (s.setTask t { k with frames := rest })

/-- The next statement of `with_task_group`, with `rest` below it. -/
def advanceGroup (s : State) (th t : Nat) (k : Task) (q : Nat) (G : Group) (rest : List Frame) :
    Option State :=
  match G.phase with
  | .propagate =>
      some (((s.setTask t { k with frames := .call :: .withTaskGroup q :: rest }).setGroup
        q { G with phase := .opened }).hook th q k.token)
  | .opened => none
  | .finished => (s.setGroup q { G with phase := .stopping }).unhook th q
  | .stopping => some ((s.setGroup q { G with phase := .draining }).requestStop th q true)
  | .draining =>
      if G.running = [] then
        some ((s.setTask t { k with frames := rest }).setGroup q { G with phase := .gone })
      else none
  | .gone => none

end State

-- ============================================================================
-- Steps
-- ============================================================================

def step (s : State) : Act → Option State
  | .source => some (s.newSource .external none none)
  | .start th token =>
      if s.userCode th && token.all s.visible then
        some (s.startTask th ⟨token, [.call], true, none, token, []⟩)
      else none
  | .request th q =>
      if s.userCode th && ((s.sources q).stage = .external || (s.groups q).isSome) then
        some (s.requestStop th q true)
      else none
  | .timer th q deadline =>
      if s.userCode th && (s.sources q).armed then
        if deadline then
          some ((s.setSource q { s.sources q with fired := true }).requestStop th q true)
        else some s
      else none
  | .call th => do
      let (t, k, rest) ← s.body th
      return s.setTask t { k with frames := .call :: .call :: rest }
  | .withStopToken th token => do
      let (t, k, rest) ← s.body th
      if token.all s.visible then
        some (s.setTask t
          { k with token := token, frames := .call :: .withStopToken token k.token :: .call :: rest })
      else none
  | .withDeadline th scheduler => do
      let (t, k, rest) ← s.body th
      return s.setTask t
        { k with frames := .withDeadline k.token (.check scheduler) :: .call :: rest }
  | .withTaskGroup th => do
      let (t, k, rest) ← s.body th
      let s' := s.newSource .entering k.token (some (t, rest.length + 1))
      return (s'.setTask t
        { k with frames := .withTaskGroup s.nextSource :: .call :: rest }).setGroup
        s.nextSource ⟨.propagate, [], k.token :: State.tokensAround k⟩
  | .add th q => do
      let G ← s.groups q
      if s.userCode th && G.phase ≠ .propagate && G.phase ≠ .gone then
        some ((s.setGroup q { G with running := s.nextTask :: G.running }).startTask th
          ⟨some q, [.call], true, some q, some q, G.around⟩)
      else none
  | .finish th => do
      let (t, k, rest) ← s.body th
      s.finishBody th t k rest
  | .advance th => do
      let (t, k) ← s.current th
      match k.frames with
      | .withStopToken _ saved :: rest =>
          some (s.setTask t { k with token := saved, frames := rest })
      | .withDeadline outer place :: rest => s.advanceDeadline th t k outer rest place
      | .withTaskGroup q :: rest => do
          let G ← s.groups q
          s.advanceGroup th t k q G rest
      | _ => none
  | .suspend th => do
      let (t, k) ← s.current th
      return { s.setTask t { k with active := false } with
        stack := Function.update s.stack th (s.stack th).tail }
  | .resume th t => do
      let k ← s.tasks t
      if k.active || !s.userCode th then none
      return { s.setTask t { k with active := true } with
        stack := Function.update s.stack th (.task t :: s.stack th) }
  | .stop th =>
      match s.stack th with
      | .request q hand :: rest => some (s.stopStep th q hand rest)
      | _ => none

/-- Nothing exists. -/
def State.initial : State where
  sources _ := ⟨.absent, false, [], none, none, false, false, false, none⟩
  groups _ := none
  tasks _ := none
  stack _ := []
  nextSource := 0
  nextTask := 0
  assertFailed := false

def system : System State Act where
  init s := s = State.initial
  step := step

-- ============================================================================
-- What the wrappers mean
-- ============================================================================

/-- The callback of a `with_task_group` has finished. -/
def Group.callbackFinished (G : Group) : Bool :=
  match G.phase with
  | .propagate | .opened => false
  | .finished | .stopping | .draining | .gone => true

namespace State

/-- Whether the innermost of the wrappers `frames` says that the stop was
    requested, or else the group of the task, for which `group` says it. -/
def wrapperStops (s : State) (group : Nat → Bool) (k : Task) : List Frame → Bool
  | [] =>
      match k.group with
      | none => s.stopRequested k.root
      | some q => group q
  | .call :: frames => wrapperStops s group k frames
  | .withTaskGroup _ :: frames => wrapperStops s group k frames
  | .withStopToken token _ :: _ => s.stopRequested token
  | .withDeadline _ (.opened q _) :: frames =>
      s.stopRequested (inside k.root frames) || (s.sources q).fired
  | .withDeadline _ _ :: frames => s.stopRequested (inside k.root frames)

/-- The innermost wrapper says that the stop was requested. -/
def shouldStop (s : State) (k : Task) (frames : List Frame) : Bool :=
  s.wrapperStops (fun q => s.stopRequested (s.sources q).outside || (s.sources q).requested ||
    (s.groups q).any Group.callbackFinished) k frames

/-- The same, without what does not stop the tasks of a `with_task_group` between
    the end of its callback and its own `group.request_stop()`: that end, and a
    stop of the token outside when `propagate` is gone. -/
def mustStop (s : State) (k : Task) (frames : List Frame) : Bool :=
  s.wrapperStops (fun q => (s.sources q).requested || (s.groups q).any fun G =>
    match G.phase with
    | .propagate | .opened | .finished => s.stopRequested (s.sources q).outside
    | .stopping => false
    | .draining | .gone => true) k frames

/-- The innermost wrapper is a `with_task_group` whose callback has finished,
    and which has not called `group.request_stop()` yet. -/
def closing (s : State) (k : Task) : List Frame → Bool
  | [] =>
      match k.group with
      | none => false
      | some q => (s.groups q).any fun G => G.phase = .finished || G.phase = .stopping
  | .call :: frames => closing s k frames
  | .withTaskGroup _ :: frames => closing s k frames
  | .withStopToken _ _ :: _ => false
  | .withDeadline _ _ :: _ => false

/-- No `request_stop` is in progress. -/
def Quiet (s : State) : Prop := ∀ th q hand, Item.request q hand ∉ s.stack th

end State

end Coroactors.StopScope
