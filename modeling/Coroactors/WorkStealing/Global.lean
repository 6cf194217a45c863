/-
  Coroactors.WorkStealing.Global

  The global queue of `WorkStealingScheduler`
  (src/benchmarks/benchmark_actor_latency.cpp).

  The queue is an `intrusive_mailbox`.  A thread whose `push` locks it hands
  the lock to `blocked_threads_`, as a unit of the two-bit counter
  `FlagGlobalQueueLocked`; a worker takes tasks out while it holds the mutex
  and sees the counter above zero, and subtracts the unit after the mailbox was
  unlocked.  The same word holds the shutdown flag, the two bits that say that
  there are local tasks, and the number of waiting threads.  It is a natural
  number, and that of the code as long as fewer than 2^26 threads wait.

  The mailbox is that of `Mailbox.Model`, step by step.  Thread `t` here is
  thread `t + 1` there, and `0` stands for the word: a lock that was handed to
  the word belongs to `0` until a worker takes it from there.  Whether a call on
  the mailbox is made by its owner is not checked by the steps here.

  What happens to local queues is left open: whether a worker finds a local
  task, or steals one, is a free choice.  A thread in `wait` goes on when the
  word has changed; the notifications that make it do so are left out.
-/

import Coroactors.Mailbox.HandOff

namespace Coroactors.WorkStealing.Global

open Coroactors.Conc

-- ============================================================================
-- The word
-- ============================================================================

def FlagShutdown : Nat := 1
def NoLocalTasksDecrement : Nat := 2
def FlagLocalTasksMask : Nat := 2 + 4
def FlagGlobalQueueLocked : Nat := 8
def FlagGlobalQueueLockedMask : Nat := 8 + 16
def FlagWakeupMask : Nat := 31
def WaitingThreadsIncrement : Nat := 32
def WaitingThreadsShift : Nat := 5

/-- The counter of the global queue's lock. -/
def globalLocked (v : Nat) : Nat := v / 8 % 4

/-- The number of waiting threads. -/
def waitingThreads (v : Nat) : Nat := v >>> WaitingThreadsShift

-- ============================================================================
-- Data
-- ============================================================================

/-- Where a thread is; `r` is the task it got. -/
inductive Pc (N : Type*) where
  | idle
  /-- `push_to_global`: in `push`. -/
  | push
  /-- `push_to_global`: in `try_unlock`. -/
  | pushUnlock
  /-- `push_to_global`: before `fetch_add`. -/
  | pushAdd
  /-- `wake_by_local_tasks`: before the load. -/
  | wakeLoad
  /-- `wake_by_local_tasks`: before `fetch_or`. -/
  | wakeOr
  /-- `pop_global_task`: before the load. -/
  | globalLoad
  /-- `pop_global_task`: before the mutex is locked. -/
  | globalLock
  /-- `pop_global_task`: with the mutex, before the load. -/
  | globalLocked
  /-- `pop_global_task`: in `pop`. -/
  | globalPop
  /-- `pop_global_task`: in `try_unlock`. -/
  | globalUnlock (r : Mailbox.Ptr N)
  /-- `pop_global_task`: before `fetch_sub`. -/
  | globalSub (r : Option (Mailbox.Ptr N))
  /-- `pop_global_task`: before the mutex is unlocked. -/
  | globalRelease (r : Option (Mailbox.Ptr N))
  /-- `next_task`: before `pop_from_local` and `try_stealing`. -/
  | nextLocal
  /-- `next_task`: at the top of the loop, before the load. -/
  | nextLoad
  /-- `next_task`: before `fetch_add` of a waiting thread. -/
  | nextAdd
  /-- `next_task`: waiting, in `try_stealing`. -/
  | nextSteal (current : Nat)
  /-- `next_task`: in `wait`. -/
  | nextWait (current : Nat)
  /-- `next_task`: before `fetch_sub` of a waiting thread; with a stolen task
      the function returns. -/
  | nextSub (stolen : Bool)
  /-- `next_task`: before the mutex is locked. -/
  | nextLock
  /-- `next_task`: with the mutex, before the load. -/
  | nextLocked
  /-- `next_task`: with the mutex, in `pop`. -/
  | nextPop
  /-- `next_task`: with the mutex, in `try_unlock`. -/
  | nextUnlock (r : Mailbox.Ptr N)
  /-- `next_task`: with the mutex, before `fetch_sub` of the lock's unit. -/
  | nextSubGlobal (r : Option (Mailbox.Ptr N))
  /-- `next_task`: with the mutex, in `try_stealing`. -/
  | nextStealLocked
  /-- `next_task`: with the mutex, before `fetch_sub` of the local tasks. -/
  | nextSubLocal
  /-- `next_task`: with the mutex and a task, before the mutex is unlocked. -/
  | nextRelease (r : Option (Mailbox.Ptr N))
deriving DecidableEq, Repr

structure State (N : Type*) where
  /-- `blocked_threads_`. -/
  word : Nat
  /-- The owner of `lock_`. -/
  mutex : Option Nat
  /-- `global_queue_`. -/
  mailbox : Mailbox.State N
  pc : Nat → Pc N
  assertFailed : Bool
  /-- The tasks that workers got from the global queue. -/
  taken : List (Nat × Mailbox.Ptr N)
  /-- The threads that are counted as waiting. -/
  waiting : List Nat

/-- How the free choices of a step are resolved. -/
inductive Choice where
  | go
  /-- A local task is found or stolen, or there are local tasks. -/
  | found
deriving DecidableEq, Repr

inductive Act (N : Type*) where
  /-- `push_to_global`. -/
  | pushToGlobal (t : Nat) (n : N)
  /-- `wake_by_local_tasks`, from `post`. -/
  | wakeByLocalTasks (t : Nat)
  /-- `next_task`, which looks at the global queue first or not. -/
  | nextTask (t : Nat) (global : Bool)
  | step (t : Nat) (c : Choice)
  /-- The scheduler is destroyed. -/
  | shutdown
deriving DecidableEq, Repr

section Model

variable {N : Type*} [DecidableEq N]

/-- The queue is `initially_unlocked`. -/
def State.start (next : N → Mailbox.Word N) : State N where
  word := 0
  mutex := none
  mailbox := .start next none
  pc _ := .idle
  assertFailed := false
  taken := []
  waiting := []

namespace State

def goto (s : State N) (t : Nat) (pc : Pc N) : State N :=
  { s with pc := Function.update s.pc t pc }

def assert (s : State N) (b : Bool) : State N :=
  { s with assertFailed := s.assertFailed || !b }

/-- A function of the mailbox is called. -/
def call (s : State N) (t : Nat) (op : Mailbox.Op) (pc : Pc N) : State N :=
  { s with mailbox := s.mailbox.goto (t + 1) (.load op) }.goto t pc

/-- The thread hands the mailbox's lock to the word, if it has it. -/
def deposit (s : State N) (t : Nat) : State N :=
  if t + 1 ∈ s.mailbox.owners then
    { s with mailbox := s.mailbox.ret (t + 1) (.pass (t + 1) 0) }
  else s

/-- The thread takes the mailbox's lock from the word, if it is there. -/
def withdraw (s : State N) (t : Nat) : State N :=
  if 0 ∈ s.mailbox.owners then { s with mailbox := s.mailbox.ret 0 (.pass 0 (t + 1)) } else s

/-- The mutex is unlocked. -/
def unlock (s : State N) : State N := { s with mutex := none }

/-- A task from the global queue is returned. -/
def got (s : State N) (t : Nat) (r : Mailbox.Ptr N) : State N :=
  { s with taken := s.taken ++ [(t, r)] }

/-- `next_task`: the loop under the mutex, with the word known. -/
def recheck (s : State N) (t current : Nat) : State N :=
  if current &&& FlagWakeupMask = 0 then s.unlock.goto t .nextLoad
  else if current &&& FlagGlobalQueueLockedMask ≠ 0 then
    ((s.assert (current &&& FlagGlobalQueueLockedMask = FlagGlobalQueueLocked)).withdraw t).call t
      .pop .nextPop
  else if current &&& FlagLocalTasksMask ≠ 0 then s.goto t .nextStealLocked
  else if current &&& FlagShutdown ≠ 0 then s.unlock.goto t .idle
  else (s.assert false).goto t .nextLocked

/-- `next_task`: the loop before the thread waits, with the word known. -/
def look (s : State N) (t current : Nat) : State N :=
  if current &&& FlagWakeupMask = 0 then s.goto t .nextAdd else s.goto t .nextLock

/-- A function of the mailbox returned to thread `t`. -/
def returned (s : State N) (t : Nat) : Option (Mailbox.Event N) → State N
  | some (.push _ _ true) => s.call t .tryUnlock .pushUnlock
  | some (.push _ _ false) => s.goto t .idle
  | some (.tryUnlock _ unlocked) =>
      match s.pc t with
      | .pushUnlock => if unlocked then s.goto t .idle else s.goto t .pushAdd
      | .globalUnlock r =>
          if unlocked then s.goto t (.globalSub (some r))
          else (s.deposit t).goto t (.globalRelease (some r))
      | .nextUnlock r =>
          if unlocked then s.goto t (.nextSubGlobal (some r))
          else (s.deposit t).goto t (.nextRelease (some r))
      | _ => s
  | some (.pop _ (some r)) =>
      match s.pc t with
      | .globalPop => s.call t .tryUnlock (.globalUnlock r)
      | _ => s.call t .tryUnlock (.nextUnlock r)
  | some (.pop _ none) =>
      match s.pc t with
      | .globalPop => s.goto t (.globalSub none)
      | _ => s.goto t (.nextSubGlobal none)
  | _ => s

/-- A step of the thread inside the mailbox. -/
def stepMailbox (s : State N) (t : Nat) : Option (State N) :=
  (Mailbox.stepThread s.mailbox (t + 1)).map fun m =>
    let s' := { s with mailbox := m }
    if m.pc (t + 1) = .idle then s'.returned t m.log.getLast? else s'

/-- The mutex is locked. -/
def lock (s : State N) (t : Nat) (pc : Pc N) : Option (State N) :=
  if s.mutex = none then some ({ s with mutex := some t }.goto t pc) else none

end State

-- ============================================================================
-- Steps
-- ============================================================================

/-- A step of the call that the thread is in. -/
def stepThread (s : State N) (t : Nat) (c : Choice) : Option (State N) :=
  match s.pc t with
  | .idle => none
  | .push | .pushUnlock | .globalPop | .globalUnlock _ | .nextPop | .nextUnlock _ => s.stepMailbox t
  | .pushAdd => some (({ s with word := s.word + FlagGlobalQueueLocked }.deposit t).goto t .idle)
  | .wakeLoad =>
      if s.word &&& FlagLocalTasksMask ≠ FlagLocalTasksMask ∧ WaitingThreadsIncrement ≤ s.word then
        some (s.goto t .wakeOr)
      else some (s.goto t .idle)
  | .wakeOr => some ({ s with word := s.word ||| FlagLocalTasksMask }.goto t .idle)
  | .globalLoad =>
      if WaitingThreadsIncrement ≤ s.word then some (s.goto t .nextLocal)
      else if s.word &&& FlagGlobalQueueLockedMask = 0 then some (s.goto t .nextLocal)
      else some (s.goto t .globalLock)
  | .globalLock => s.lock t .globalLocked
  | .globalLocked =>
      if s.word &&& FlagGlobalQueueLockedMask = 0 then some (s.unlock.goto t .nextLocal)
      else
        some (((s.assert (s.word &&& FlagGlobalQueueLockedMask = FlagGlobalQueueLocked)).withdraw
          t).call t .pop .globalPop)
  | .globalSub r =>
      some ({ s with word := s.word - FlagGlobalQueueLocked }.goto t (.globalRelease r))
  | .globalRelease none => some (s.unlock.goto t .nextLocal)
  | .globalRelease (some r) =>
      if c = .found then some ((s.unlock.got t r).goto t .wakeLoad)
      else some ((s.unlock.got t r).goto t .idle)
  | .nextLocal => if c = .found then some (s.goto t .idle) else some (s.goto t .nextLoad)
  | .nextLoad => some (s.look t s.word)
  | .nextAdd =>
      let current := s.word + WaitingThreadsIncrement
      let s' := { s with word := current, waiting := t :: s.waiting }
      if current &&& FlagWakeupMask = 0 then some (s'.goto t (.nextSteal current))
      else some (s'.goto t (.nextSub false))
  | .nextSteal current =>
      if c = .found then some (s.goto t (.nextSub true)) else some (s.goto t (.nextWait current))
  | .nextWait current =>
      if s.word = current then none
      else if s.word &&& FlagWakeupMask = 0 then some (s.goto t (.nextWait s.word))
      else some (s.goto t (.nextSub false))
  | .nextSub stolen =>
      let current := s.word - WaitingThreadsIncrement
      let s' := { s with word := current, waiting := s.waiting.erase t }
      if stolen then some (s'.goto t .idle) else some (s'.look t current)
  | .nextLock => s.lock t .nextLocked
  | .nextLocked => some (s.recheck t s.word)
  | .nextSubGlobal r =>
      let current := s.word - FlagGlobalQueueLocked
      let s' := { s with word := current }
      match r with
      | some r => some (s'.goto t (.nextRelease (some r)))
      | none => some (s'.recheck t current)
  | .nextStealLocked =>
      if c = .found then some (s.goto t (.nextRelease none)) else some (s.goto t .nextSubLocal)
  | .nextSubLocal =>
      let current := s.word - NoLocalTasksDecrement
      some ({ s with word := current }.recheck t current)
  | .nextRelease r =>
      match r with
      | some r => some ((s.unlock.got t r).goto t .idle)
      | none => some (s.unlock.goto t .idle)

/-- The global queue, and any number of threads. -/
def scheduler : System (State N) (Act N) where
  init s := ∃ next, s = .start next
  step s
    | .pushToGlobal t n =>
        if s.pc t = .idle ∧ s.mailbox.busy n = false then
          some ({ s with
            mailbox := { s.mailbox.goto (t + 1) (.pushStore n) with
              busy := Function.update s.mailbox.busy n true } }.goto t .push)
        else none
    | .wakeByLocalTasks t => if s.pc t = .idle then some (s.goto t .wakeLoad) else none
    | .nextTask t global =>
        if s.pc t = .idle then
          some (s.goto t (if global then .globalLoad else .nextLocal))
        else none
    | .step t c => stepThread s t c
    | .shutdown => some { s with word := s.word ||| FlagShutdown }

end Model

end Coroactors.WorkStealing.Global
