/-
  Coroactors.Context.Model

  `async_context_manager` (coroactors/detail/async_context.h): how runnables
  enter, leave and change actor contexts.

  A context has a mailbox, which is also its lock, and a scheduler.  The
  mailbox is taken as the locked FIFO that `push_runnable` and `next_runnable`
  rely on (coroactors/detail/actor_context_base.h).  A scheduler is a bag of
  entries: it runs every posted or deferred runnable once, in any order.  An
  entry carries the context it was posted by; whoever runs the runnable owns
  that context.

  Threads call `enter`, `transfer`, `leave` and `preempt`; a call is a sequence
  of steps, each with one half of a mailbox push, one mailbox pop or one post
  or defer.  Whether there is a current task and what `scheduler.preempt()`
  answers is free.  A thread may own several contexts, since a runnable may
  resume others.

  `status`, `place` and `owner` follow the runnables and contexts through the
  run; no step reads `place` or `owner`, and `status` only states the caller's
  duty not to submit a pending runnable.
-/

import Coroactors.Conc.LockedFifo
import Coroactors.Conc.System
import Mathlib.Logic.Function.Basic

namespace Coroactors.Context

open Coroactors.Conc

-- ============================================================================
-- Data
-- ============================================================================

/-- `scheduler.post` or `scheduler.defer`. -/
inductive How where
  | post
  | defer
deriving DecidableEq, Repr

section Model

variable {R C S : Type*}

/-- A runnable in a scheduler's queue. -/
structure Entry (R C : Type*) where
  how : How
  runnable : R
  context : C
deriving DecidableEq, Repr

/-- The arguments of `do_transfer` on its way into a non-empty context, and
    `more`, the runnable popped from the context it leaves. -/
structure Transfer (R C : Type*) where
  fromContext : Option C
  toContext : C
  r : R
  returning : Bool
  more : Option R
deriving DecidableEq, Repr

/-- Where a thread is. -/
inductive Pc (R C : Type*) where
  | idle
  /-- `do_enter`: before `push_runnable`. -/
  | enterPush (c : C) (r : R) (initial : Bool)
  /-- In `push_runnable`, between its two halves. -/
  | enterPublish (c : C) (r : R) (initial : Bool)
  /-- Before `next_runnable`. -/
  | enterPop (c : C) (r : R) (initial : Bool)
  /-- With the next runnable in hand. -/
  | enterNext (c : C) (r : R) (initial : Bool) (next : R)
  /-- `do_transfer` into the same context, on the return path. -/
  | same (c : C) (r : R)
  /-- `do_preempt`. -/
  | preempt (c : C) (r : R)
  /-- `do_leave`: before `next_runnable`.  In a transfer into the empty context
      `after` is the runnable that continues. -/
  | leavePop (c : C) (after : Option R)
  /-- `do_leave` with the next runnable in hand. -/
  | leavePost (c : C) (next : R) (after : Option R)
  /-- `do_transfer`: before it takes `more` from the context it leaves. -/
  | transferPop (c : C) (x : Transfer R C)
  /-- Before `push_runnable` on the new context. -/
  | transferPush (x : Transfer R C)
  | transferPublish (x : Transfer R C)
  /-- Before `next_runnable` on the new context. -/
  | transferNextPop (x : Transfer R C)
  /-- With the next runnable of the new context in hand. -/
  | transferNext (x : Transfer R C) (next : R)
  /-- Before `more` is posted or deferred; then the transfer returns. -/
  | transferMore (how : How) (c : C) (more : R) (x : Transfer R C) (result : Bool)
deriving DecidableEq, Repr

/-- A runnable that was not submitted or was run, one whose call by a thread
    has not returned, and one whose call returned false. -/
inductive Status where
  | done
  | submitted (t : Nat)
  | waiting
deriving DecidableEq, Repr

/-- Where a runnable is. -/
inductive Place (C S : Type*) where
  | nowhere
  | mailbox (c : C)
  | queue (q : S)
  /-- Passed to a call that has not pushed it yet. -/
  | submitting (t : Nat)
  /-- Popped, and not yet posted, deferred or returned to. -/
  | carried (t : Nat)
deriving DecidableEq, Repr

/-- Who owns a context. -/
inductive Owner (R : Type*) where
  | nobody
  | thread (t : Nat)
  | entry (r : R)
deriving DecidableEq, Repr

/-- A call that returned: who called, with which runnable, into which context,
    and the answer. -/
structure Event (R C : Type*) where
  thread : Nat
  runnable : R
  toContext : Option C
  result : Bool
deriving DecidableEq, Repr

structure State (R C S : Type*) where
  box : C → LockedFifo R
  queue : S → List (Entry R C)
  /-- The contexts each thread owns. -/
  owned : Nat → List C
  pc : Nat → Pc R C
  status : R → Status
  place : R → Place C S
  owner : C → Owner R
  log : List (Event R C)

/-- All contexts unlocked, nothing submitted. -/
def State.start : State R C S where
  box := fun _ => .empty
  queue := fun _ => []
  owned := fun _ => []
  pc := fun _ => .idle
  status := fun _ => .done
  place := fun _ => .nowhere
  owner := fun _ => .nobody
  log := []

/-- The free choices of a step: how a pop ends, and how `maybe_preempt` or
    `post_or_defer` decide. -/
structure Choice (R : Type*) where
  pop : PopChoice R
  preempt : Option How
deriving DecidableEq, Repr

inductive Act (R C : Type*) where
  | enter (t : Nat) (c : Option C) (r : R) (initial : Bool)
  | transfer (t : Nat) (fromContext toContext : Option C) (r : R) (returning : Bool)
  | leave (t : Nat) (c : Option C)
  | preempt (t : Nat) (c : Option C) (r : R)
  /-- The next step of a thread's call. -/
  | step (t : Nat) (choice : Choice R)
  /-- A thread runs a runnable from the queue of its context's scheduler. -/
  | run (t : Nat) (e : Entry R C)
deriving DecidableEq, Repr

-- ============================================================================
-- Operations
-- ============================================================================

def State.goto (s : State R C S) (t : Nat) (pc : Pc R C) : State R C S :=
  { s with pc := Function.update s.pc t pc }

variable [DecidableEq R] [DecidableEq C] [DecidableEq S]

def State.move (s : State R C S) (r : R) (p : Place C S) : State R C S :=
  { s with place := Function.update s.place r p }

/-- A call by `t` with `r` into the context `c` returns.  When it answers true
    the caller runs `r`. -/
def State.ret (s : State R C S) (t : Nat) (r : R) (c : Option C) (result : Bool) : State R C S :=
  { (s.goto t .idle) with
    log := s.log ++ [⟨t, r, c, result⟩]
    place := if result then Function.update s.place r .nowhere else s.place
    status :=
      if result then Function.update s.status r .done
      else if s.status r = .submitted t then Function.update s.status r .waiting
      else s.status }

/-- `c->scheduler.post(r)` or `c->scheduler.defer(r)` by `t`, which owns `c`. -/
def State.schedule (sched : C → S) (s : State R C S) (how : How) (t : Nat) (c : C) (r : R) :
    State R C S :=
  { (s.move r (.queue (sched c))) with
    queue := Function.update s.queue (sched c) (s.queue (sched c) ++ [⟨how, r, c⟩])
    owned := Function.update s.owned t ((s.owned t).erase c)
    owner := Function.update s.owner c (.entry r) }

/-- The first half of `c->push_runnable(r)`. -/
def State.pushPrepare (s : State R C S) (c : C) (r : R) : State R C S :=
  { (s.move r (.mailbox c)) with box := Function.update s.box c ((s.box c).prepare r) }

/-- The second half, and its answer: when it is true `t` owns the context. -/
def State.pushPublish (s : State R C S) (t : Nat) (c : C) (r : R) : State R C S × Bool :=
  let m := (s.box c).publish r
  let s := { s with box := Function.update s.box c m.1 }
  if m.2 then
    ({ s with
        owned := Function.update s.owned t (c :: s.owned t)
        owner := Function.update s.owner c (.thread t) }, true)
  else (s, false)

/-- `c->next_runnable()` by `t`, which owns `c`. -/
def State.nextRunnable (s : State R C S) (t : Nat) (c : C) (k : PopChoice R) :
    Option (State R C S × Option R) :=
  match (s.box c).pop k with
  | none => none
  | some (m, some r) =>
      some ({ (s.move r (.carried t)) with box := Function.update s.box c m }, some r)
  | some (m, none) =>
      some ({ s with
        box := Function.update s.box c m
        owned := Function.update s.owned t ((s.owned t).erase c)
        owner := Function.update s.owner c .nobody }, none)

/-- The end of `do_leave`: nothing is returned, unless it is part of a transfer
    of `after` into the empty context. -/
def State.left (s : State R C S) (t : Nat) : Option R → State R C S
  | none => s.goto t .idle
  | some r => s.ret t r none true

/-- The end of `do_transfer`, after `more` was posted or deferred. -/
def State.thenMore (s : State R C S) (t : Nat) (how : How) (x : Transfer R C) (result : Bool) :
    State R C S :=
  match x.fromContext, x.more with
  | some c, some more => s.goto t (.transferMore how c more x result)
  | _, _ => s.ret t x.r (some x.toContext) result

-- ============================================================================
-- Steps
-- ============================================================================

variable (sched : C → S)

/-- The next step of thread `t`. -/
def stepThread (s : State R C S) (t : Nat) (k : Choice R) : Option (State R C S) :=
  match s.pc t with
  | .idle => none
  | .enterPush c r initial => some ((s.pushPrepare c r).goto t (.enterPublish c r initial))
  | .enterPublish c r initial =>
      match s.pushPublish t c r with
      | (s, true) => some (s.goto t (.enterPop c r initial))
      | (s, false) => some (s.ret t r (some c) false)
  | .enterPop c r initial =>
      match s.nextRunnable t c k.pop with
      | none => none
      | some (s, none) => some (s.ret t r (some c) false)
      | some (s, some next) => some (s.goto t (.enterNext c r initial next))
  | .enterNext c r initial next =>
      if initial then some ((s.schedule sched .post t c next).ret t r (some c) false)
      else
        match k.preempt with
        | some how => some ((s.schedule sched how t c next).ret t r (some c) false)
        | none =>
            if next ≠ r then some ((s.schedule sched .defer t c next).ret t r (some c) false)
            else some (s.ret t r (some c) true)
  | .same c r =>
      match k.preempt with
      | some how => some ((s.schedule sched how t c r).ret t r (some c) false)
      | none => some (s.ret t r (some c) true)
  | .preempt c r =>
      match k.preempt with
      | some how => some ((s.schedule sched how t c r).ret t r (some c) false)
      | none => none
  | .leavePop c after =>
      match s.nextRunnable t c k.pop with
      | none => none
      | some (s, none) => some (s.left t after)
      | some (s, some next) => some (s.goto t (.leavePost c next after))
  | .leavePost c next after => some ((s.schedule sched .post t c next).left t after)
  | .transferPop c x =>
      match s.nextRunnable t c k.pop with
      | none => none
      | some (s, more) => some (s.goto t (.transferPush { x with more := more }))
  | .transferPush x => some ((s.pushPrepare x.toContext x.r).goto t (.transferPublish x))
  | .transferPublish x =>
      match s.pushPublish t x.toContext x.r with
      | (s, true) => some (s.goto t (.transferNextPop x))
      | (s, false) => some (s.thenMore t .defer x false)
  | .transferNextPop x =>
      match s.nextRunnable t x.toContext k.pop with
      | none => none
      | some (s, none) => some (s.thenMore t .defer x false)
      | some (s, some next) => some (s.goto t (.transferNext x next))
  | .transferNext x next =>
      if x.fromContext.any (fun c => sched c ≠ sched x.toContext) then
        some ((s.schedule sched .post t x.toContext next).thenMore t .defer x false)
      else
        match (if x.returning || x.fromContext.isNone then k.preempt else none) with
        | some how => some ((s.schedule sched how t x.toContext next).thenMore t .post x false)
        | none =>
            if next = x.r then some (s.thenMore t .post x true)
            else some ((s.schedule sched .defer t x.toContext next).thenMore t .post x false)
  | .transferMore how c more x result =>
      some ((s.schedule sched how t c more).ret t x.r (some x.toContext) result)

/-- A thread submits `r` and starts a call with it. -/
def State.submit (s : State R C S) (t : Nat) (r : R) (pc : Pc R C) : State R C S :=
  { ((s.goto t pc).move r (.submitting t)) with
    status := Function.update s.status r (.submitted t) }

/-- `do_transfer` up to its first mailbox or scheduler operation. -/
def startTransfer (s : State R C S) (t : Nat) (a b : Option C) (r : R) (returning : Bool) :
    State R C S :=
  if a = b then
    match b with
    | some c => if returning then s.submit t r (.same c r) else s.ret t r b true
    | none => s.ret t r b true
  else
    match b, a with
    | none, some c => s.submit t r (.leavePop c (some r))
    | none, none => s.ret t r b true
    | some d, some c => s.submit t r (.transferPop c ⟨a, d, r, returning, none⟩)
    | some d, none => s.submit t r (.transferPush ⟨a, d, r, returning, none⟩)

/-- Contexts, their schedulers, and the threads that use them. -/
def contexts : System (State R C S) (Act R C) where
  init s := s = State.start
  step s
    | .enter t c r initial =>
        if s.pc t = .idle ∧ s.status r = .done then
          match c with
          | none => some (s.ret t r none true)
          | some c => some (s.submit t r (.enterPush c r initial))
        else none
    | .transfer t a b r returning =>
        if s.pc t = .idle ∧ (∀ c ∈ a, c ∈ s.owned t) ∧ s.status r = .done then
          some (startTransfer s t a b r returning)
        else none
    | .leave t c =>
        if s.pc t = .idle ∧ (∀ d ∈ c, d ∈ s.owned t) then
          match c with
          | none => some s
          | some c => some (s.goto t (.leavePop c none))
        else none
    | .preempt t c r =>
        if s.pc t = .idle ∧ (∀ d ∈ c, d ∈ s.owned t) ∧ s.status r = .done then
          match c with
          | none => some (s.ret t r none true)
          | some c => some (s.submit t r (.preempt c r))
        else none
    | .step t k => stepThread sched s t k
    | .run t e =>
        if s.pc t = .idle ∧ e ∈ s.queue (sched e.context) then
          some { (s.move e.runnable .nowhere) with
            queue := Function.update s.queue (sched e.context)
              ((s.queue (sched e.context)).erase e)
            owned := Function.update s.owned t (e.context :: s.owned t)
            owner := Function.update s.owner e.context (.thread t)
            status := Function.update s.status e.runnable .done }
        else none

end Model

end Coroactors.Context
