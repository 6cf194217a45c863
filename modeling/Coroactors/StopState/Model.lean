/-
  Coroactors.StopState.Model

  `stop_state` (coroactors/detail/stop_token_polyfill.h): the state shared by
  stop sources, tokens and callbacks.

  One word packs the number of sources, the lock and the flags.  The lock is
  taken by three loops that differ in what they check first: `add_callback`
  gives up when the state is stopped or has no sources, `lock_stop` gives up
  when it is stopped, and `lock` never gives up.  They are one definition here
  (`State.loop`), with the checks of the caller in front.  The word is a natural
  number, and that of the code as long as there are fewer than 2^28 sources,
  from which on the code's signed word is negative.

  Every atomic operation on the word is a step; the plain accesses to the list
  of callbacks, made under the lock, are one step.  A compare-exchange may fail
  for no reason.  `state.wait(v)` blocks a thread while the word is `v` until a
  notification selects it; a thread may also find out on its own that the word
  changed, and a selected thread that finds the word at `v` may block again.
  The semaphore of a callback is its counter.

  While a callback runs, the thread is back in the code of the user, and may
  call any of the operations: `stack` holds the calls below it.  The local
  variable `removed` of the loop in `request_stop` is one variable of the
  thread.

  The history of a run is kept next to the state, and no step reads it: the
  list of callbacks behind the links, the orders of additions and invocations,
  and what became of every callback.
-/

import Coroactors.Conc.System
import Mathlib.Data.Nat.Bitwise

namespace Coroactors.StopState

open Coroactors.Conc

-- ============================================================================
-- The word
-- ============================================================================

def flagStopped : Nat := 1
def flagWaiting : Nat := 2
def flagLocked : Nat := 4
def sourceCountIncrement : Nat := 8

def stopped (w : Nat) : Bool := w &&& flagStopped != 0
def waiting (w : Nat) : Bool := w &&& flagWaiting != 0
def locked (w : Nat) : Bool := w &&& flagLocked != 0

-- ============================================================================
-- Threads
-- ============================================================================

/-- Who takes the lock: `add_callback`, `remove_callback` through `lock`,
    `request_stop` through `lock` after a callback, or `lock_stop`. -/
inductive Want (K : Type*) where
  | add (k : K)
  | remove (k : K)
  | again
  | stop
deriving DecidableEq, Repr

/-- What a thread does after `unlock`. -/
inductive After (K : Type*) where
  /-- `add_callback` returns true. -/
  | added (k : K)
  /-- `remove_callback` goes on; whether the callback was in the list. -/
  | removed (k : K) (found : Bool)
  /-- `request_stop` invokes the callback; whether it was the last one. -/
  | invoke (k : K) (empty : Bool)
  /-- `request_stop` returns true. -/
  | finished
deriving DecidableEq, Repr

/-- Where a thread is. -/
inductive Pc (K : Type*) where
  /-- In the code of the user, perhaps of a callback. -/
  | user
  /-- Before the first load of the word. -/
  | load (w : Want K)
  /-- Before the compare-exchange that sets `FlagLocked`. -/
  | lockCas (w : Want K) (current i : Nat)
  /-- Spinning: before the next load. -/
  | spin (w : Want K) (i : Nat)
  /-- Before the compare-exchange that sets `FlagWaiting`. -/
  | setWaiting (w : Want K) (current i : Nat)
  /-- Before `state.wait(current)` looks at the word. -/
  | wait (w : Want K) (current i : Nat)
  /-- Inside `state.wait(current)`: blocked, or selected by a notification. -/
  | blocked (w : Want K) (current i : Nat)
  /-- After `state.wait`, before the load; whether a notification ended it. -/
  | reload (w : Want K) (i : Nat) (notified : Bool)
  /-- `lock_stop`: before `notify_all`, with the lock. -/
  | notifyAll
  /-- With the lock, before the accesses to the list. -/
  | held (w : Want K)
  /-- `unlock`: before the `fetch_sub`. -/
  | unlock (a : After K)
  /-- `unlock`: before `notify_one`. -/
  | notifyOne (a : After K)
  /-- `remove_callback`: before it compares the threads. -/
  | checkRunning (k : K)
  /-- `remove_callback`: in `done.acquire()`. -/
  | acquire (k : K)
  /-- `request_stop`: the callback returned. -/
  | returned (k : K) (empty : Bool)
  /-- `request_stop`: before `done.release()`. -/
  | release (k : K) (empty : Bool)
deriving DecidableEq, Repr

/-- A call that waits for a callback to return. -/
inductive Caller (K : Type*) where
  | add (k : K)
  | stop (k : K) (empty : Bool)
deriving DecidableEq, Repr

/-- What became of a callback object. -/
inductive Life where
  | fresh
  /-- In the call of `add_callback` on the thread `t`. -/
  | adding (t : Nat)
  /-- `add_callback` returned true. -/
  | live
  /-- `add_callback` returned false. -/
  | refused
  /-- In the call of `remove_callback` on the thread `t`. -/
  | removing (t : Nat)
  /-- `remove_callback` returned on the thread `t`. -/
  | gone (t : Nat)
deriving DecidableEq, Repr

/-- Where a callback is, as seen from the list. -/
inductive Stage where
  /-- It was never in the list. -/
  | out
  | listed
  /-- `remove_callback` took it out. -/
  | unlinked
  /-- `request_stop` took it out. -/
  | taken
  /-- `request_stop` invoked it. -/
  | running
  /-- It returned to `request_stop`. -/
  | returned
  /-- `request_stop` is done with it. -/
  | finished
deriving DecidableEq, Repr

/-- Where the call of `request_stop` is whose `lock_stop` returned true. -/
inductive Phase (K : Type*) where
  | idle
  /-- Between two callbacks, or before the first. -/
  | scanning
  /-- From taking the callback out of the list until it is done with it. -/
  | busy (k : K)
  /-- It returned. -/
  | over
deriving DecidableEq, Repr

structure State (K : Type*) where
  word : Nat
  /-- The threads that block in `state.wait` and are not selected. -/
  waiters : List Nat
  head : Option K
  prev : K → Option K
  next : K → Option K
  /-- The counter of the semaphore `done`. -/
  done : K → Nat
  /-- The pointer `removed` of a callback: the thread whose variable it is. -/
  removed : K → Option Nat
  /-- The variable `removed` of a thread's `request_stop`. -/
  flag : Nat → Bool
  /-- `running_thread_id`. -/
  running : Option Nat
  pc : Nat → Pc K
  stack : Nat → List (Caller K)
  /-- The thread that holds the lock. -/
  holder : Option Nat
  life : K → Life
  stage : K → Stage
  /-- `add_callback` was called when the state was stopped. -/
  late : K → Bool
  /-- How often a callback was invoked. -/
  invoked : K → Nat
  /-- The list from `head`. -/
  list : List K
  /-- The callbacks in the order of their insertion. -/
  added : List K
  /-- The callbacks that `request_stop` took from the list. -/
  taken : List K
  /-- The callbacks that `request_stop` invoked. -/
  ran : List K
  /-- The thread whose `lock_stop` returned true. -/
  stopper : Option Nat
  phase : Phase K
  /-- The results of `request_stop`. -/
  stops : List Bool

/-- How the free choices of a step are resolved. -/
inductive Choice where
  | go
  /-- A compare-exchange fails without a reason. -/
  | fail
  /-- The thread that `notify_one` selects. -/
  | wake (u : Nat)
  /-- A selected thread that finds the word unchanged blocks again. -/
  | again
deriving DecidableEq, Repr

inductive Act (K : Type*) where
  | addSource (t : Nat)
  | removeSource (t : Nat)
  | add (t : Nat) (k : K)
  | remove (t : Nat) (k : K)
  | requestStop (t : Nat)
  /-- The callback that runs on the thread returns. -/
  | ret (t : Nat)
  | step (t : Nat) (c : Choice)
deriving DecidableEq, Repr

section Model

variable {K : Type*}

/-- `stop_state()`: no sources, no callbacks. -/
def State.start : State K where
  word := 0
  waiters := []
  head := none
  prev _ := none
  next _ := none
  done _ := 0
  removed _ := none
  flag _ := false
  running := none
  pc _ := .user
  stack _ := []
  holder := none
  life _ := .fresh
  stage _ := .out
  late _ := false
  invoked _ := 0
  list := []
  added := []
  taken := []
  ran := []
  stopper := none
  phase := .idle
  stops := []

variable [DecidableEq K]

namespace State

def goto (s : State K) (t : Nat) (pc : Pc K) : State K :=
  { s with pc := Function.update s.pc t pc }

/-- `add_callback` or `remove_callback` returns. -/
def retLife (s : State K) (t : Nat) (k : K) (l : Life) : State K :=
  { s with pc := Function.update s.pc t .user, life := Function.update s.life k l }

/-- `request_stop` returns. -/
def retStop (s : State K) (t : Nat) (result : Bool) : State K :=
  { s with pc := Function.update s.pc t .user, stops := s.stops ++ [result] }

/-- `callback->invoke(callback)` from the call `caller`. -/
def invoke (s : State K) (t : Nat) (caller : Caller K) (k : K) : State K :=
  { s with
    pc := Function.update s.pc t .user
    stack := Function.update s.stack t (caller :: s.stack t)
    invoked := Function.update s.invoked k (s.invoked k + 1) }

-- ============================================================================
-- Taking the lock
-- ============================================================================

/-- The body of the three loops after the checks of the caller. -/
def contend (s : State K) (t : Nat) (w : Want K) (current i : Nat) : State K :=
  if !locked current then s.goto t (.lockCas w current i)
  else if !waiting current then
    if i < 64 then s.goto t (.spin w i) else s.goto t (.setWaiting w current i)
  else s.goto t (.wait w current i)

/-- The loops of `add_callback`, `lock` and `lock_stop`. -/
def loop (s : State K) (t : Nat) (w : Want K) (current i : Nat) : State K :=
  match w with
  | .add k =>
      if stopped current then s.invoke t (.add k) k
      else if current < sourceCountIncrement then s.retLife t k .refused
      else s.contend t w current i
  | .stop => if stopped current then s.retStop t false else s.contend t w current i
  | .remove _ | .again => s.contend t w current i

/-- The compare-exchange that takes the lock succeeded. -/
def acquired (s : State K) (t : Nat) (w : Want K) (current : Nat) : State K :=
  match w with
  | .stop =>
      let s := { s with
        word := current ||| flagLocked ||| flagStopped
        holder := some t
        stopper := some t
        phase := .scanning }
      if waiting current then s.goto t .notifyAll else s.goto t (.held .stop)
  | w => { s with word := current ||| flagLocked, holder := some t }.goto t (.held w)

-- ============================================================================
-- Under the lock
-- ============================================================================

/-- `add_callback`: the callback becomes the head of the list. -/
def insert (s : State K) (k : K) : State K :=
  let s := { s with
    list := k :: s.list
    added := s.added ++ [k]
    stage := Function.update s.stage k .listed }
  match s.head with
  | some h =>
      { s with
        next := Function.update s.next k (some h)
        prev := Function.update s.prev h (some k)
        head := some k }
  | none => { s with head := some k }

/-- `if (head) head->prev = nullptr`, for the new head. -/
def clearPrev (prev : K → Option K) : Option K → K → Option K
  | some h => Function.update prev h none
  | none => prev

/-- Take the head `k` out of the list, in `request_stop` and
    `remove_callback_locked`. -/
def dropHead (s : State K) (k : K) : State K :=
  { s with
    head := s.next k
    prev := clearPrev s.prev (s.next k)
    next := Function.update s.next k none
    list := s.list.erase k }

/-- Take `k` out of the list, behind `p`. -/
def unlink (s : State K) (k p : K) : State K :=
  let next := Function.update s.next p (s.next k)
  match s.next k with
  | some n =>
      { s with
        next := Function.update next k none
        prev := Function.update (Function.update s.prev n (some p)) k none
        list := s.list.erase k }
  | none =>
      { s with
        next := next
        prev := Function.update s.prev k none
        list := s.list.erase k }

/-- `remove_callback_locked`. -/
def removeCallbackLocked (s : State K) (k : K) : State K × Bool :=
  let s' := { s with stage := Function.update s.stage k .unlinked }
  if s.head = some k then (s'.dropHead k, true)
  else
    match s.prev k with
    | some p => (s'.unlink k p, true)
    | none => (s, false)

/-- The loop of `request_stop`: take the head of the list, if there is one. -/
def takeHead (s : State K) (t : Nat) : State K :=
  match s.head with
  | none => s.goto t (.unlock .finished)
  | some k =>
      let s := s.dropHead k
      { s with
        flag := Function.update s.flag t false
        removed := Function.update s.removed k (some t)
        stage := Function.update s.stage k .taken
        phase := .busy k
        taken := s.taken ++ [k] }.goto t (.unlock (.invoke k s.head.isNone))

/-- What is done with the lock held. -/
def critical (s : State K) (t : Nat) : Want K → State K
  | .add k => (s.insert k).goto t (.unlock (.added k))
  | .remove k =>
      match s.removeCallbackLocked k with
      | (s, found) => s.goto t (.unlock (.removed k found))
  | .stop =>
      if s.head.isNone then s.goto t (.unlock .finished)
      else { s with running := some t }.takeHead t
  | .again => s.takeHead t

-- ============================================================================
-- After the lock
-- ============================================================================

/-- `unlock` returns. -/
def finish (s : State K) (t : Nat) : After K → State K
  | .added k => s.retLife t k .live
  | .removed k true => s.retLife t k (.gone t)
  | .removed k false => s.goto t (.checkRunning k)
  | .invoke k empty =>
      { s with
        ran := s.ran ++ [k]
        stage := Function.update s.stage k .running }.invoke t (.stop k empty) k
  | .finished => { s with phase := .over }.retStop t true

/-- `request_stop` is done with one callback. -/
def proceed (s : State K) (t : Nat) (k : K) (empty : Bool) : State K :=
  let s := { s with stage := Function.update s.stage k .finished }
  if empty then { s with phase := .over }.retStop t true
  else { s with phase := .scanning }.goto t (.load .again)

/-- `*callback->removed = true`, if the pointer is set. -/
def signal (flag : Nat → Bool) : Option Nat → Nat → Bool
  | some u => Function.update flag u true
  | none => flag

end State

-- ============================================================================
-- Steps
-- ============================================================================

/-- A step of the operation that the thread is in. -/
def stepThread (s : State K) (t : Nat) (c : Choice) : Option (State K) :=
  match s.pc t with
  | .user => none
  | .load w => some (s.loop t w s.word 0)
  | .lockCas w current i =>
      if s.word = current ∧ c ≠ .fail then some (s.acquired t w current)
      -- a failed exchange does not go back to the checks
      else some (s.goto t (.wait w s.word i))
  | .spin w i => some (s.loop t w s.word (i + 1))
  | .setWaiting w current i =>
      if s.word = current ∧ c ≠ .fail then
        some ({ s with word := current ||| flagWaiting }.goto t (.wait w current i))
      else some (s.loop t w s.word (i + 1))
  | .wait w current i =>
      if s.word = current then
        some ({ s with waiters := s.waiters ++ [t] }.goto t (.blocked w current i))
      else some (s.goto t (.reload w i false))
  | .blocked w current i =>
      if t ∈ s.waiters then
        if s.word = current then none
        else some ({ s with waiters := s.waiters.erase t }.goto t (.reload w i false))
      else if c = .again ∧ s.word = current then some { s with waiters := s.waiters ++ [t] }
      else some (s.goto t (.reload w i true))
  | .reload w i _ => some (s.loop t w s.word (i + 1))
  | .notifyAll => some ({ s with waiters := [] }.goto t (.held .stop))
  | .held w => some (s.critical t w)
  | .unlock a =>
      let s' := { s with word := s.word - flagLocked, holder := none }
      if waiting s.word then some (s'.goto t (.notifyOne a)) else some (s'.finish t a)
  | .notifyOne a =>
      match c with
      | .wake u =>
          if u ∈ s.waiters then some ({ s with waiters := s.waiters.erase u }.finish t a)
          else none
      | _ => if s.waiters = [] then some (s.finish t a) else none
  | .checkRunning k =>
      if s.running = some t then
        some ({ s with flag := State.signal s.flag (s.removed k) }.retLife t k (.gone t))
      else some (s.goto t (.acquire k))
  | .acquire k =>
      if 0 < s.done k then
        some ({ s with done := Function.update s.done k (s.done k - 1) }.retLife t k (.gone t))
      else none
  | .returned k empty =>
      if s.flag t then some (s.proceed t k empty)
      else some ({ s with removed := Function.update s.removed k none }.goto t (.release k empty))
  | .release k empty =>
      some ({ s with done := Function.update s.done k (s.done k + 1) }.proceed t k empty)

/-- The states and steps of one `stop_state`, with any number of threads. -/
def stopState : System (State K) (Act K) where
  init s := s = .start
  step s
    | .addSource t =>
        if s.pc t = .user then some { s with word := s.word + sourceCountIncrement } else none
    | .removeSource t =>
        -- a source that is destroyed was counted
        if s.pc t = .user ∧ sourceCountIncrement ≤ s.word then
          some { s with word := s.word - sourceCountIncrement }
        else none
    | .add t k =>
        if s.pc t = .user ∧ s.life k = .fresh then
          some ({ s with
            life := Function.update s.life k (.adding t)
            late := Function.update s.late k (stopped s.word) }.goto t (.load (.add k)))
        else none
    | .remove t k =>
        if s.pc t = .user ∧ s.life k = .live then
          some ({ s with life := Function.update s.life k (.removing t) }.goto t (.load (.remove k)))
        else none
    | .requestStop t => if s.pc t = .user then some (s.goto t (.load .stop)) else none
    | .ret t =>
        if s.pc t = .user then
          match s.stack t with
          | [] => none
          | .add k :: rest =>
              some ({ s with stack := Function.update s.stack t rest }.retLife t k .refused)
          | .stop k empty :: rest =>
              some ({ s with
                stack := Function.update s.stack t rest
                stage := Function.update s.stage k .returned }.goto t (.returned k empty))
        else none
    | .step t c => stepThread s t c

end Model

-- ============================================================================
-- Lemmas on the word
-- ============================================================================

theorem and_two_pow_ne_zero (w i : Nat) : (w &&& 2 ^ i != 0) = w.testBit i := by
  rw [Nat.and_two_pow]
  cases w.testBit i <;> simp

theorem stopped_eq_testBit (w : Nat) : stopped w = w.testBit 0 := and_two_pow_ne_zero w 0

theorem waiting_eq_testBit (w : Nat) : waiting w = w.testBit 1 := and_two_pow_ne_zero w 1

theorem locked_eq_testBit (w : Nat) : locked w = w.testBit 2 := and_two_pow_ne_zero w 2

@[simp] theorem stopped_or (w v : Nat) : stopped (w ||| v) = (stopped w || stopped v) := by
  simp only [stopped_eq_testBit, Nat.testBit_or]

@[simp] theorem waiting_or (w v : Nat) : waiting (w ||| v) = (waiting w || waiting v) := by
  simp only [waiting_eq_testBit, Nat.testBit_or]

@[simp] theorem locked_or (w v : Nat) : locked (w ||| v) = (locked w || locked v) := by
  simp only [locked_eq_testBit, Nat.testBit_or]

@[simp] theorem flags_stopped :
    stopped flagStopped = true ∧ waiting flagStopped = false ∧ locked flagStopped = false := by
  decide

@[simp] theorem flags_waiting :
    stopped flagWaiting = false ∧ waiting flagWaiting = true ∧ locked flagWaiting = false := by
  decide

@[simp] theorem flags_locked :
    stopped flagLocked = false ∧ waiting flagLocked = false ∧ locked flagLocked = true := by
  decide

theorem stopped_eq_mod (w : Nat) : stopped w = decide (w % 2 = 1) := by
  rw [stopped_eq_testBit, Nat.testBit_eq_decide_div_mod_eq, pow_zero, Nat.div_one]

theorem waiting_eq_mod (w : Nat) : waiting w = decide (w / 2 % 2 = 1) := by
  rw [waiting_eq_testBit, Nat.testBit_eq_decide_div_mod_eq, pow_one]

theorem locked_eq_mod (w : Nat) : locked w = decide (w / 4 % 2 = 1) :=
  (locked_eq_testBit w).trans (Nat.testBit_eq_decide_div_mod_eq ..)

/-- `add_source` changes no flag. -/
@[simp] theorem flags_addSource (w : Nat) :
    stopped (w + sourceCountIncrement) = stopped w ∧
    waiting (w + sourceCountIncrement) = waiting w ∧
    locked (w + sourceCountIncrement) = locked w := by
  simp only [stopped_eq_mod, waiting_eq_mod, locked_eq_mod, sourceCountIncrement, decide_eq_decide]
  omega

/-- `remove_source` changes no flag. -/
theorem flags_removeSource {w : Nat} (h : sourceCountIncrement ≤ w) :
    stopped (w - sourceCountIncrement) = stopped w ∧
    waiting (w - sourceCountIncrement) = waiting w ∧
    locked (w - sourceCountIncrement) = locked w := by
  simp only [stopped_eq_mod, waiting_eq_mod, locked_eq_mod, sourceCountIncrement,
    decide_eq_decide] at *
  omega

/-- `unlock` clears `FlagLocked` and no other flag. -/
theorem flags_unlock {w : Nat} (h : locked w = true) :
    stopped (w - flagLocked) = stopped w ∧ waiting (w - flagLocked) = waiting w ∧
    locked (w - flagLocked) = false := by
  simp only [stopped_eq_mod, waiting_eq_mod, locked_eq_mod, flagLocked, decide_eq_decide,
    decide_eq_true_eq, decide_eq_false_iff_not] at *
  omega

end Coroactors.StopState
