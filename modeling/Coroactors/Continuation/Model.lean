/-
  Coroactors.Continuation.Model

  `with_continuation` (coroactors/detail/with_continuation.h and
  coroactors/with_continuation.h): an awaiter and the holder of a
  `continuation<T>` meet in a `continuation_state<T>`, which is one atomic word
  and a plain result.

  The word is null, the handle of the suspended coroutine, or one of the
  markers `MarkerFinished` and `MarkerDestroyed`.  The awaiter runs
  `await_ready`, `await_suspend` and `await_resume`, and it may be destroyed
  while it is suspended.  The holder makes one call after the other on an
  object that holds the state, and moves the state between objects; an object
  that holds no state may as well hold the state of another continuation.

  Every atomic operation is a step, and so is every access to the result and
  every resumption.  A weak compare-exchange may fail for no reason.  A failed
  assertion of `finish` is recorded; the code then takes a marker for a
  coroutine handle, and the holder makes no step after that, nor after it
  resumed a coroutine that was destroyed.

  The history of a run is kept next to the state, and no step reads it: how the
  coroutine came to proceed and what it observed, and what became of the calls.
-/

import Coroactors.Conc.System

namespace Coroactors.Continuation

open Coroactors.Conc

-- ============================================================================
-- Data
-- ============================================================================

/-- The atomic word. -/
inductive Word where
  | null
  /-- `MarkerFinished`. -/
  | finished
  /-- `MarkerDestroyed`. -/
  | destroyed
  /-- The handle of the suspended coroutine. -/
  | handle
deriving DecidableEq, Repr

/-- What a call completes the continuation with. -/
inductive Completion (V E : Type*) where
  | value (v : V)
  | exception (e : E)
deriving DecidableEq, Repr

/-- What the result may hold. -/
inductive Outcome (V E : Type*) where
  | completed (o : Completion V E)
  /-- `with_continuation_error("continuation was not resumed")`. -/
  | notResumed
  /-- The null `exception_ptr` of `cancel`. -/
  | cancelled
deriving DecidableEq, Repr

/-- Whether a call resumes the coroutine itself or returns its handle. -/
inductive Use where
  | resume
  | release
deriving DecidableEq, Repr

/-- The calls on a continuation. -/
inductive Call (V E : Type*) where
  | complete (o : Completion V E) (u : Use)
  | destroy
deriving DecidableEq, Repr

namespace Call

variable {V E : Type*}

def resume (v : V) : Call V E := .complete (.value v) .resume
def resumeWithException (e : E) : Call V E := .complete (.exception e) .resume
def releaseWithResult (v : V) : Call V E := .complete (.value v) .release
def releaseWithException (e : E) : Call V E := .complete (.exception e) .release

end Call

/-- Where the awaiting coroutine is. -/
inductive Awaiter where
  /-- Before `await_ready`. -/
  | start
  /-- `await_ready` returned false, before `set_continuation`. -/
  | checked
  | suspended
  /-- Before `await_resume`. -/
  | resumed
  /-- `cancel`: before it looks at the result. -/
  | cancelSet
  /-- `cancel`: before its store. -/
  | cancelStore
  /-- The awaiter is no more. -/
  | gone
deriving DecidableEq, Repr

/-- Where the holder is. -/
inductive Holder (V E : Type*) where
  | idle
  /-- Before `set_value` or `set_exception`. -/
  | setResult (o : Completion V E) (u : Use)
  /-- Before `finish`. -/
  | finish (o : Completion V E) (u : Use)
  /-- Before the coroutine is resumed. -/
  | resuming (o : Completion V E)
  /-- `destroy`: before its load.  Only the explicit `destroy()` throws. -/
  | destroyLoad (explicit : Bool)
  /-- `destroy`: at the top of the loop. -/
  | destroyCas (explicit : Bool) (addr : Word)
  /-- `destroy`: before the error is stored. -/
  | destroyStore (explicit : Bool)
  /-- `destroy`: before the coroutine is resumed. -/
  | destroyResume (explicit : Bool)
  /-- A marker was taken for a handle, or a destroyed coroutine was resumed. -/
  | undefined
deriving DecidableEq, Repr

def Holder.isIdle {V E : Type*} : Holder V E → Bool
  | .idle => true
  | _ => false

/-- An object of type `continuation<T>`. -/
inductive Slot where
  /-- No object. -/
  | none
  /-- Without this state. -/
  | empty
  /-- With this state. -/
  | full
deriving DecidableEq, Repr

/-- How the coroutine came to proceed. -/
inductive Proceed where
  /-- `await_ready` returned true. -/
  | ready
  /-- `await_suspend` returned false. -/
  | notSuspended
  /-- `await_suspend` threw. -/
  | threw
  /-- The installed handle was resumed. -/
  | resumed
deriving DecidableEq, Repr

/-- What became of a call. -/
structure Entry (V E : Type*) where
  call : Call V E
  /-- The awaiter was destroyed before the call. -/
  late : Bool
  /-- The call threw `with_continuation_error`. -/
  threw : Bool
  /-- The call wrote the result or the word, or resumed the coroutine. -/
  touched : Bool
deriving DecidableEq, Repr

structure State (V E : Type*) where
  word : Word
  result : Option (Outcome V E)
  awaiter : Awaiter
  holder : Holder V E
  slot : Nat → Slot
  /-- The holder has a handle that `release_with_*` returned. -/
  released : Bool
  assertFailed : Bool
  proceeds : List Proceed
  /-- What `await_resume` or `await_suspend` gave: `none` is `result_error`. -/
  observed : List (Option (Outcome V E))
  /-- The calls so far. -/
  calls : List (Call V E)
  /-- The calls that ended. -/
  log : List (Entry V E)
  /-- The awaiter was destroyed while it was suspended. -/
  killed : Bool
  /-- About the call in progress, as in `Entry`. -/
  late : Bool
  touched : Bool

inductive Act (V E : Type*) where
  /-- `continuation()`. -/
  | construct (i : Nat)
  /-- `continuation(continuation&&)`: object `j` from object `i`. -/
  | move (i j : Nat)
  /-- Object `i` is assigned from object `j`. -/
  | assign (i j : Nat)
  /-- `~continuation()`. -/
  | drop (i : Nat)
  | call (i : Nat) (c : Call V E)
  /-- A step of the holder's call. -/
  | holder (spurious : Bool)
  /-- The holder resumes a handle that `release_with_*` returned. -/
  | resumeReleased
  /-- A step of the awaiter. -/
  | awaiter
  /-- The suspended awaiter is destroyed. -/
  | destroyAwaiter
deriving DecidableEq, Repr

section Model

variable {V E : Type*}

/-- `with_continuation_awaitable::operator co_await`: the callback gets the
    continuation. -/
def State.start : State V E where
  word := .null
  result := none
  awaiter := .start
  holder := .idle
  slot i := if i = 0 then .full else .none
  released := false
  assertFailed := false
  proceeds := []
  observed := []
  calls := []
  log := []
  killed := false
  late := false
  touched := false

namespace State

/-- Record an assertion. -/
def assert (s : State V E) (b : Bool) : State V E :=
  { s with assertFailed := s.assertFailed || !b }

/-- The awaiting coroutine proceeds past the `co_await`. -/
def proceed (s : State V E) (p : Proceed) : State V E :=
  { s with proceeds := s.proceeds ++ [p], awaiter := .resumed }

/-- The holder's call ends. -/
def finishCall (s : State V E) (c : Call V E) (threw : Bool) : State V E :=
  { s with
    holder := .idle
    log := s.log ++ [⟨c, s.late, threw, s.touched⟩] }

/-- `destroy` ends: `destroy_explicit` throws when it returned false. -/
def finishDestroy (s : State V E) (explicit ok : Bool) : State V E :=
  if explicit then s.finishCall .destroy (!ok) else { s with holder := .idle }

end State

/-- `continuation_state::ready`, `set_continuation`, `take_value` and `cancel`
    as `with_continuation_awaiter` calls them. -/
def awaiterStep (s : State V E) : Option (State V E) :=
  match s.awaiter with
  | .start =>
      if s.word = .finished then some (s.proceed .ready)
      else some { s with awaiter := .checked }
  | .checked =>
      match s.word with
      | .null => some { s with word := .handle, awaiter := .suspended }
      | .finished => some (s.proceed .notSuspended)
      | w =>
          -- The exception leaves await_suspend, and the awaiter is destroyed
          some { (s.assert (w = .destroyed)).proceed .threw with
            awaiter := .cancelSet
            observed := s.observed ++ [some .notResumed] }
  | .resumed => some { s with awaiter := .gone, observed := s.observed ++ [s.result] }
  | .cancelSet =>
      match s.result with
      | none => some { s with result := some .cancelled, awaiter := .cancelStore }
      | some _ => some { s with awaiter := .cancelStore }
  | .cancelStore => some { s with word := .destroyed, awaiter := .gone }
  | .suspended | .gone => none

/-- `set_value`, `set_exception`, `finish` and `destroy` as the functions of
    `continuation` call them. -/
def holderStep (s : State V E) (spurious : Bool) : Option (State V E) :=
  match s.holder with
  | .idle | .undefined => none
  | .setResult o u =>
      match s.result with
      | some _ => some (s.finishCall (.complete o u) true)
      | none =>
          some { s with
            result := some (.completed o)
            holder := .finish o u
            touched := true }
  | .finish o u =>
      let s' := { s with word := .finished, touched := true }
      match s.word with
      | .null => some (s'.finishCall (.complete o u) false)
      | .handle =>
          match u with
          | .resume => some { s' with holder := .resuming o }
          | .release => some ({ s' with released := true }.finishCall (.complete o u) false)
      | .finished | .destroyed => some { s'.assert false with holder := .undefined }
  | .resuming o =>
      if s.awaiter = .suspended then
        some ((s.proceed .resumed).finishCall (.complete o .resume) false)
      else some { s with holder := .undefined }
  | .destroyLoad e => some { s with holder := .destroyCas e s.word }
  | .destroyCas e addr =>
      if addr = .finished ∨ addr = .destroyed then some (s.finishDestroy e false)
      else if s.word = addr ∧ spurious = false then
        let s' := { s with word := .destroyed, touched := true }
        if addr = .handle then some { s' with holder := .destroyStore e }
        else some (s'.finishDestroy e true)
      else some { s with holder := .destroyCas e s.word }
  | .destroyStore e => some { s with result := some .notResumed, holder := .destroyResume e }
  | .destroyResume e =>
      if s.awaiter = .suspended then some ((s.proceed .resumed).finishDestroy e true)
      else some { s with holder := .undefined }

/-- A call begins. -/
def beginCall (s : State V E) (c : Call V E) : State V E :=
  { s with
    holder := match c with
      | .complete o u => .setResult o u
      | .destroy => .destroyLoad true
    calls := s.calls ++ [c]
    late := s.killed
    touched := false }

/-- One `continuation_state`, its awaiter, and the holder of its continuation. -/
def withContinuation : System (State V E) (Act V E) where
  init s := s = .start
  step s
    | .construct i =>
        if s.holder.isIdle ∧ s.slot i = .none then
          some { s with slot := Function.update s.slot i .empty }
        else none
    | .move i j =>
        if s.holder.isIdle ∧ s.slot i ≠ .none ∧ s.slot j = .none then
          some { s with slot := Function.update (Function.update s.slot j (s.slot i)) i .empty }
        else none
    | .assign i j =>
        if s.holder.isIdle ∧ s.slot i ≠ .none ∧ s.slot j ≠ .none then
          if i = j then some s
          else
            some { s with
              slot := Function.update (Function.update s.slot i (s.slot j)) j .empty
              holder := if s.slot i = .full then .destroyLoad false else .idle }
        else none
    | .drop i =>
        if s.holder.isIdle ∧ s.slot i ≠ .none then
          some { s with
            slot := Function.update s.slot i .none
            holder := if s.slot i = .full then .destroyLoad false else .idle }
        else none
    | .call i c =>
        if s.holder.isIdle ∧ s.slot i = .full then some (beginCall s c) else none
    | .holder spurious => holderStep s spurious
    | .resumeReleased =>
        if s.holder.isIdle ∧ s.released = true ∧ s.awaiter = .suspended then
          some { s.proceed .resumed with released := false }
        else none
    | .awaiter => awaiterStep s
    | .destroyAwaiter =>
        if s.awaiter = .suspended then some { s with awaiter := .cancelSet, killed := true }
        else none

end Model

end Coroactors.Continuation
