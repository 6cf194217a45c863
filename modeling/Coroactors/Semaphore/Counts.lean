/-
  Coroactors.Semaphore.Counts

  `sync_semaphore` (coroactors/detail/atomic_semaphore.h), with requests for
  any number of units: different calls of `release` and `acquire` may use
  different counts.

  `value_type` is a signed number of `bits` bits, and arithmetic on it wraps.
  The word holds the available count times four, and in its two lowest bits the
  number of registered waiters.

  Every atomic operation is a step.  A weak compare-exchange may fail for no
  reason, and the spin phases of `acquire` may go on for any number of rounds.
  `value_.wait(v)` blocks when the word is `v`.  A blocked thread goes on when
  it is notified; it may also go on by itself while the word is not `v`, but
  nothing makes it.  `release` wakes one thread when its own count is one, and
  all of them otherwise.

  What the calls asked for is counted next to the word, and no step reads it:
  the initial count, the units released and acquired so far, and the largest
  number of threads that were ever on the slow path at one time.  The lists are
  those of the threads that are blocked, of those that are registered and awake,
  and of those that are about to wake a single thread; the steps use only the
  first.
-/

import Coroactors.Conc.System
import Mathlib.Algebra.Group.Int.Defs
import Mathlib.Algebra.Group.Nat.Defs
import Mathlib.Data.List.Basic
import Mathlib.Data.List.Nodup
import Mathlib.Logic.Function.Basic

namespace Coroactors.Semaphore.Counts

open Coroactors.Conc

-- ============================================================================
-- Data
-- ============================================================================

def WaitersMask : Int := 3
def ValueIncrement : Int := 4

/-- A result of `value_type` arithmetic. -/
def wrap (bits : Nat) (x : Int) : Int := x.bmod (2 ^ bits)

/-- `current & WaitersMask`: the two lowest bits of a two's complement number. -/
def waiters (current : Int) : Int := current % 4

/-- `decremented_waiters`. -/
def decrementedWaiters (current : Int) : Int :=
  if waiters current = WaitersMask then 0 else 1

/-- Where a thread is, with the count of its call. -/
inductive Pc where
  | idle
  /-- `release`: before `fetch_add`. -/
  | add (count : Int)
  /-- `release`: before `notify_one` or `notify_all`. -/
  | notify (count : Int)
  /-- `acquire`: before the first compare-exchange. -/
  | fast (count : Int)
  /-- `acquire`: spinning. -/
  | spin (count current : Int)
  /-- `acquire`: in the loop around `increment_waiters`. -/
  | register (count current : Int)
  /-- `acquire`: registered, at the top of the slow path. -/
  | slow (count current : Int)
  /-- `acquire`: registered, in `wait`. -/
  | blocked (count current : Int)
  /-- `acquire`: registered, before the load that follows `wait`. -/
  | reload (count : Int)
deriving DecidableEq, Repr

/-- `notify_all`, as a blocked thread sees it. -/
def Pc.wake : Pc → Pc
  | .blocked n _ => .reload n
  | p => p

structure State where
  value : Int
  pc : Nat → Pc
  /-- The threads in `wait`. -/
  blocked : List Nat
  /-- The threads that are registered and awake. -/
  awake : List Nat
  /-- The threads that are about to notify one thread. -/
  notifying : List Nat
  initial : Int
  released : Int
  acquired : Int
  /-- The largest number of registered threads so far. -/
  peak : Nat

/-- How the free choices of a step are resolved. -/
inductive Choice where
  | go
  /-- Spin, or fail a weak compare-exchange without a reason. -/
  | spin
  /-- The thread that `notify_one` wakes. -/
  | wake (w : Nat)
deriving DecidableEq, Repr

inductive Act where
  | release (t : Nat) (count : Int)
  | acquire (t : Nat) (count : Int)
  | step (t : Nat) (c : Choice)
deriving DecidableEq, Repr

-- ============================================================================
-- Operations
-- ============================================================================

namespace State

/-- `sync_semaphore(count)`. -/
def start (bits : Nat) (count : Int) : State where
  value := wrap bits (count * ValueIncrement)
  pc _ := .idle
  blocked := []
  awake := []
  notifying := []
  initial := count
  released := 0
  acquired := 0
  peak := 0

/-- The units that the calls so far left. -/
def available (s : State) : Int := s.initial + s.released - s.acquired

/-- The number of threads on the slow path of `acquire`. -/
def registered (s : State) : Nat := s.blocked.length + s.awake.length

def goto (s : State) (t : Nat) (pc : Pc) : State :=
  { s with pc := Function.update s.pc t pc }

/-- `compare_exchange_weak(current, target)`: where the thread goes on success,
    and on failure with the value found. -/
def cas (s : State) (t : Nat) (c : Choice) (current target : Int) (done : State → State)
    (failed : Int → Pc) : State :=
  if s.value = current ∧ c ≠ .spin then done { s with value := target }
  else s.goto t (failed s.value)

/-- A thread that never registered got its units. -/
def took (s : State) (t : Nat) (count : Int) : State :=
  { s with acquired := s.acquired + count }.goto t .idle

/-- The thread is registered and awake. -/
def enlist (s : State) (t : Nat) (count current : Int) : State :=
  { s with awake := t :: s.awake }.goto t (.slow count current)

/-- A registered thread got its units. -/
def leave (s : State) (t : Nat) (count : Int) : State :=
  { s with
    awake := s.awake.erase t
    acquired := s.acquired + count }.goto t .idle

/-- The word is what the thread saw, and it blocks. -/
def block (s : State) (t : Nat) (count current : Int) : State :=
  { s with
    blocked := t :: s.blocked
    awake := s.awake.erase t }.goto t (.blocked count current)

/-- A blocked thread wakes up. -/
def wakeUp (s : State) (w : Nat) : State :=
  { s with
    blocked := s.blocked.erase w
    awake := w :: s.awake
    pc := Function.update s.pc w (s.pc w).wake }

/-- `notify_all`. -/
def wakeAll (s : State) : State :=
  { s with
    blocked := []
    awake := s.blocked ++ s.awake
    pc := fun t => (s.pc t).wake }

/-- Keep the largest number of registered threads. -/
def tally (s : State) : State := { s with peak := max s.peak s.registered }

end State

-- ============================================================================
-- Steps
-- ============================================================================

section Steps

variable (bits : Nat)

/-- A count fits into the word, next to the waiters. -/
def Fits (count : Int) : Prop := 2 * (count * ValueIncrement + WaitersMask) < 2 ^ bits

/-- A step of the call that the thread is in. -/
def stepThread (s : State) (t : Nat) (c : Choice) : Option State :=
  match s.pc t with
  | .idle => none
  | .add n =>
      let s' := { s with
        value := wrap bits (s.value + wrap bits (n * ValueIncrement))
        released := s.released + n }
      if waiters s.value ≠ 0 then
        if n > 1 then some (s'.goto t (.notify n))
        else some ({ s' with notifying := t :: s.notifying }.goto t (.notify n))
      else some (s'.goto t .idle)
  | .notify n =>
      if n > 1 then some (s.wakeAll.goto t .idle)
      else
        let s' := { s with notifying := s.notifying.erase t }.goto t .idle
        match c with
        | .wake w => if w ∈ s.blocked then some (s'.wakeUp w) else none
        | _ => if s.blocked = [] then some s' else none
  | .fast n =>
      if s.value = wrap bits (n * ValueIncrement) then some ({ s with value := 0 }.took t n)
      else some (s.goto t (.spin n s.value))
  | .spin n current =>
      let increment := wrap bits (n * ValueIncrement)
      if increment ≤ current then
        some (s.cas t c current (wrap bits (current - increment)) (·.took t n) (.spin n))
      else if c = .spin then some (s.goto t (.spin n s.value))
      else some (s.goto t (.register n current))
  | .register n current =>
      let increment := wrap bits (n * ValueIncrement)
      if increment ≤ current then
        some (s.cas t c current (wrap bits (current - increment)) (·.took t n) (.register n))
      else if waiters current ≠ WaitersMask then
        some (s.cas t c current (wrap bits (current + 1))
          (·.enlist t n (wrap bits (current + 1))) (.register n))
      else some (s.enlist t n current)
  | .slow n current =>
      let increment := wrap bits (n * ValueIncrement)
      if increment ≤ current then
        some (s.cas t c current (wrap bits (current - increment - decrementedWaiters current))
          (·.leave t n) (.slow n))
      else if s.value = current then some (s.block t n current)
      else some (s.goto t (.reload n))
  | .blocked _ current => if s.value ≠ current then some (s.wakeUp t) else none
  | .reload n => some (s.goto t (.slow n s.value))

/-- One semaphore with any initial count and any number of threads. -/
def semaphore : System State Act where
  init s := ∃ count, 0 ≤ count ∧ Fits bits count ∧ s = .start bits count
  step s
    | .release t n => if s.pc t = .idle ∧ 0 < n then some (s.goto t (.add n)) else none
    | .acquire t n => if s.pc t = .idle ∧ 0 < n then some (s.goto t (.fast n)) else none
    | .step t c => (stepThread bits s t c).map State.tally

/-- The total stays in the range of the word: the count of every call fits, and
    the available count does after every `fetch_add`. -/
def InRange (s : State) : Act → Prop
  | .release _ n | .acquire _ n => Fits bits n
  | .step t _ => ∀ n, s.pc t = .add n → Fits bits (s.available + n)

end Steps

end Coroactors.Semaphore.Counts
