/-
  Coroactors.Asio.Continuation

  `asio_continuation` (coroactors/detail/asio_awaitable.h): the one word by
  which an awaiting coroutine, the completion handler and a cancellation
  callback agree on who resumes the coroutine.

  The word is a tagged pointer: the address of the installed coroutine handle
  (or null) with `MarkerCancel` and `MarkerResult` in its two lowest bits.  It
  is kept here as the 64-bit value it is, with the source's own mask
  operations, so that the assertions on `get_marker` are about bits.

  Three parties take steps, one atomic operation of the word at a time:

    * the awaiter: `asio_awaiter_t::await_ready` (from the point where the
      operation is initiated) followed by `await_suspend`, that is
      `set_continuation`;
    * the completion handler, called once: it stores the result, then
      `finish()`; a handle returned by `finish` is resumed;
    * the stop callback `emit_cancellation_t`, possible once `await_ready` has
      installed it: `begin_cancellation`, emit, `end_cancellation`; a handle
      returned by `end_cancellation` is resumed.

  A failed assertion is recorded and the code goes on as with `NDEBUG`.
-/

import Coroactors.Conc.System

namespace Coroactors.Asio

open Coroactors.Conc

-- ============================================================================
-- The tagged pointer
-- ============================================================================

/-- `void*`. -/
abbrev Ptr := BitVec 64

/-- `nullptr`. -/
def null : Ptr := 0

def MarkerCancel : Ptr := 1
def MarkerResult : Ptr := 2
def MarkerMask : Ptr := 3

def getMarker (addr : Ptr) : Ptr := addr &&& MarkerMask
def withMarker (addr marker : Ptr) : Ptr := addr ||| marker
def withoutMarker (addr marker : Ptr) : Ptr := addr &&& ~~~marker

/-- A coroutine handle that is not null: its frame is aligned to more than
    four bytes, so the marker bits of its address are free. -/
structure Handle where
  address : Ptr
  ne_null : address ≠ null
  aligned : getMarker address = null

-- ============================================================================
-- The parties
-- ============================================================================

/-- Where the awaiting coroutine is. -/
inductive Awaiter where
  /-- `await_ready`: the operation is initiated, before the first `ready()`. -/
  | initiated
  /-- `await_ready`: not ready, before the stop token is looked at. -/
  | token
  /-- `await_ready`: the token was stopped already, cancellation is emitted
      without begin/end, before the second `ready()`. -/
  | emitted
  /-- `await_ready` returned true. -/
  | ready
  /-- `set_continuation` before its first compare-exchange. -/
  | setFast
  /-- `set_continuation` before a retry that expects `MarkerCancel`. -/
  | setRetry
  /-- `set_continuation` returned true: the coroutine is suspended. -/
  | suspended
  /-- `set_continuation` returned false: the coroutine goes on. -/
  | continued
deriving DecidableEq, Repr

/-- Where the completion handler is. -/
inductive Handler where
  /-- Not called yet. -/
  | pending
  /-- The result is stored, before the load of `finish`. -/
  | stored
  /-- In the loop of `finish`, with the last observed value. -/
  | finish (addr : Ptr)
  /-- Returned. -/
  | done
deriving DecidableEq, Repr

/-- Where the stop callback is. -/
inductive Canceller where
  /-- Not registered, or registered and not called. -/
  | idle
  /-- `begin_cancellation` before its load. -/
  | begin
  /-- In the loop of `begin_cancellation`. -/
  | beginCas (addr : Ptr)
  /-- The cancel mark is set, emitting. -/
  | emit
  /-- `end_cancellation` before its load. -/
  | finish
  /-- In the loop of `end_cancellation`. -/
  | finishCas (addr : Ptr)
  /-- `end_cancellation` found a continuation with a result and takes it. -/
  | take (target : Ptr)
  /-- Returned. -/
  | done
deriving DecidableEq, Repr

/-- How the coroutine got to run again. -/
inductive Resume where
  /-- `set_continuation` returned false. -/
  | inline
  /-- `finish` returned the handle at this address. -/
  | byHandler (addr : Ptr)
  /-- `end_cancellation` returned the handle at this address. -/
  | byCanceller (addr : Ptr)
deriving DecidableEq, Repr

section Model

variable {R : Type*}

/-- The shared record and the parties.  `resumes` lists what let the coroutine
    run again, `underCancel` says that this once happened while the cancel
    mark was set, and `assertFailed` that some assertion did not hold. -/
structure State (R : Type*) where
  continuation : Ptr
  result : Option R
  /-- The stop callback is registered with the token. -/
  registered : Bool
  awaiter : Awaiter
  handler : Handler
  canceller : Canceller
  resumes : List Resume
  underCancel : Bool
  assertFailed : Bool

/-- `await_ready` just initiated the operation. -/
def State.start : State R where
  continuation := null
  result := none
  registered := false
  awaiter := .initiated
  handler := .pending
  canceller := .idle
  resumes := []
  underCancel := false
  assertFailed := false

/-- What the awaiter finds when it looks at its stop token. -/
inductive Token where
  /-- `stop_possible()` is false. -/
  | unstoppable
  /-- `stop_requested()` is already true. -/
  | stopped
  /-- The stop callback is installed. -/
  | armed
deriving DecidableEq, Repr

/-- One step of a party.  `spurious` lets a weak compare-exchange fail although
    the value matches. -/
inductive Act (R : Type*) where
  | awaiter (token : Token) (spurious : Bool)
  | handler (value : R) (spurious : Bool)
  | canceller (spurious : Bool)

/-- The coroutine runs again: by what, and whether the cancel mark is set in
    the word at that moment. -/
def State.resume (s : State R) (r : Resume) : State R :=
  { s with
    resumes := s.resumes ++ [r]
    underCancel := s.underCancel || getMarker s.continuation &&& MarkerCancel != null }

/-- `assert(ok)`. -/
def State.assert (s : State R) (ok : Bool) : State R :=
  { s with assertFailed := s.assertFailed || !ok }

/-- The end of `set_continuation` after a compare-exchange found `addr`. -/
def State.setFailed (s : State R) (addr : Ptr) : State R :=
  ({ (s.assert (addr == MarkerResult)) with awaiter := .continued }).resume .inline

/-- `asio_awaiter_t::await_ready`, `await_suspend` and
    `asio_continuation::set_continuation` of the handle `c`. -/
def awaiterStep (c : Handle) (s : State R) (token : Token) (spurious : Bool) :
    Option (State R) :=
  match s.awaiter with
  | .initiated =>
      if s.continuation = MarkerResult then
        some { s with awaiter := .ready }
      else
        some { s with awaiter := .token }
  | .token =>
      match token with
      | .unstoppable => some { s with awaiter := .setFast }
      | .stopped => some { s with awaiter := .emitted }
      | .armed => some { s with awaiter := .setFast, registered := true }
  | .emitted =>
      if s.continuation = MarkerResult then
        some { s with awaiter := .ready }
      else
        some { s with awaiter := .setFast }
  | .setFast =>
      let s := s.assert (getMarker c.address == null)
      if s.continuation = null then
        some { s with continuation := c.address, awaiter := .suspended }
      else if s.continuation = MarkerCancel then
        some { s with awaiter := .setRetry }
      else
        some (s.setFailed s.continuation)
  | .setRetry =>
      if s.continuation = MarkerCancel then
        if spurious then some s
        else
          some { s with
            continuation := withMarker c.address MarkerCancel
            awaiter := .suspended }
      else
        some (s.setFailed s.continuation)
  | .ready | .suspended | .continued => none

/-- The completion handler with the result `value`, and `finish`. -/
def handlerStep (s : State R) (value : R) (spurious : Bool) : Option (State R) :=
  match s.handler with
  | .pending => some { s with result := some value, handler := .stored }
  | .stored => some { s with handler := .finish s.continuation }
  | .finish addr =>
      if s.continuation = addr && !spurious then
        let target :=
          if getMarker addr &&& MarkerCancel != null then withMarker addr MarkerResult
          else withMarker null MarkerResult
        let s := { s with continuation := target, handler := .done }
        -- A null handle is returned when no continuation is installed yet
        if getMarker addr = null && addr != null then some (s.resume (.byHandler addr)) else some s
      else
        some { s with handler := .finish s.continuation }
  | .done => none

/-- The loop head of `begin_cancellation` with the observed value `addr`. -/
def State.beginLoop (s : State R) (addr : Ptr) : State R :=
  if addr = MarkerResult then { s with canceller := .done }
  else { (s.assert (getMarker addr == null)) with canceller := .beginCas addr }

/-- `emit_cancellation_t`: `begin_cancellation`, emit, `end_cancellation`. -/
def cancellerStep (s : State R) (spurious : Bool) : Option (State R) :=
  match s.canceller with
  | .idle => if s.registered then some { s with canceller := .begin } else none
  | .begin => some (s.beginLoop s.continuation)
  | .beginCas addr =>
      if s.continuation = addr && !spurious then
        some { s with continuation := withMarker addr MarkerCancel, canceller := .emit }
      else
        some (s.beginLoop s.continuation)
  | .emit => some { s with canceller := .finish }
  | .finish => some { s with canceller := .finishCas s.continuation }
  | .finishCas addr =>
      let s := s.assert (getMarker addr &&& MarkerCancel != null)
      if s.continuation = addr && !spurious then
        let target := withoutMarker addr MarkerCancel
        let s := { s with continuation := target }
        if getMarker target &&& MarkerResult != null && target != MarkerResult then
          some { s with canceller := .take target }
        else
          some { s with canceller := .done }
      else
        some { s with canceller := .finishCas s.continuation }
  | .take target =>
      if s.continuation = target then
        let target := withoutMarker target MarkerResult
        let s := { s with continuation := null, canceller := .done }
        some ((s.assert (getMarker target == null)).resume (.byCanceller target))
      else
        some { s with canceller := .done }
  | .done => none

/-- The await of one asio operation by the coroutine with handle `c`. -/
def await (c : Handle) : System (State R) (Act R) where
  init s := s = State.start
  step s
    | .awaiter token spurious => awaiterStep c s token spurious
    | .handler value spurious => handlerStep s value spurious
    | .canceller spurious => cancellerStep s spurious

end Model

end Coroactors.Asio
