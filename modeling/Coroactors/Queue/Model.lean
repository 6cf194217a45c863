/-
  Coroactors.Queue.Model

  `blocking_queue` (coroactors/detail/blocking_queue.h): a queue with many
  producers and many consumers.

  `head_` is the head of a linked list of nodes, the lock of the consumers, and
  the list of threads that wait for the lock: a node when the queue is
  unlocked, null or a waiter when it is locked.  The `next` pointer of the head
  is the next node, or null or a list of threads that wait for an item.  The
  item of the head itself was taken already.

  Every atomic operation is a step, with the plain accesses that follow it.
  Whether a consumer spins is a free choice, a weak compare-exchange may fail
  for no reason, and the semaphore of a waiter is its counter.  There is one
  waiter record for every thread, the one `blocking_queue_waiter::current()`
  returns; `records` are the records in use, and bound the walk of `find_last`.
  Nodes may be allocated again after they were freed.

  `unlock_taken` and `try_unlock_no_item` work on the caller's `pending` and
  `pendingLast`, as the caller does not use them after that.  A failed
  assertion is recorded, and the code goes on as it does without assertions.

  The history of a run is kept next to the queue, and no step reads it: the
  nodes from the head to `tail_` in the order of the exchanges on `tail_`, what
  was pushed, taken and returned, and the lists behind the links of the
  waiters.
-/

import Coroactors.Conc.System
import Coroactors.Conc.Seg

namespace Coroactors.Queue

open Coroactors.Conc

-- ============================================================================
-- Data
-- ============================================================================

/-- The values of `head_` and of `next` pointers. -/
inductive Link (N : Type*) where
  | null
  | waiter (w : Nat)
  | node (n : N)
deriving DecidableEq, Repr

/-- `decode_waiter`, of null or a waiter. -/
def Link.decodeWaiter {N : Type*} : Link N → Option Nat
  | .waiter w => some w
  | .null | .node _ => none

def Link.isNode {N : Type*} : Link N → Bool
  | .node _ => true
  | .null | .waiter _ => false

/-- What a consumer that took an item carries: the old head, which it frees,
    the new head and the item. -/
structure Taken (N T : Type*) where
  old : N
  head : N
  item : T
deriving DecidableEq, Repr

/-- Where a thread is. -/
inductive Pc (N T : Type*) where
  | idle
  /-- `push`: before the exchange on `tail_`. -/
  | pushXchg (n : N)
  /-- `push`: before the exchange on `prev->next`. -/
  | pushPublish (prev n : N)
  /-- `push`: before `notify()`. -/
  | pushNotify (w : Nat)
  /-- `pop`: before the load of `head_`. -/
  | popLoad
  /-- `pop`: at the top of the outer loop. -/
  | popTop (headValue : Link N)
  /-- `pop`: before the compare-exchange that makes it wait for the lock. -/
  | popInstall
  /-- `pop`: in `wait()` for the lock. -/
  | waitHead
  /-- `pop`: locked, before the load of `head->next`. -/
  | popNext (head : N)
  /-- `pop`: locked, before the compare-exchange that makes it wait for an item. -/
  | popCas (head : N) (nextValue : Link N)
  /-- `unlock_waiting`. -/
  | unlockWaiting (head : N)
  /-- `pop`: in `wait()` for an item. -/
  | waitItem
  /-- `try_pop`: before the load of `head_`. -/
  | tryLoad
  /-- `try_pop`: before the compare-exchange that takes the lock. -/
  | tryCas (head : N)
  /-- `try_pop`: locked, before the load of `head->next`. -/
  | tryNext (head : N)
  /-- `try_unlock_no_item`: before the compare-exchange that unlocks. -/
  | noItemCas (head : N) (nextValue : Link N)
  /-- `try_unlock_no_item`: before the exchange that removes waiters. -/
  | noItemXchg (head : N) (nextValue : Link N)
  /-- `try_unlock_no_item`: before the waiters are installed at `head->next`. -/
  | noItemInstall (head : N) (nextValue : Link N)
  /-- `unlock_taken`: before the compare-exchange that unlocks without waiters. -/
  | takenCas (j : Taken N T)
  /-- `unlock_taken`: before the exchange that removes waiters. -/
  | takenXchg (j : Taken N T)
  /-- `unlock_taken`: before the load of `head->next`. -/
  | takenLoad (j : Taken N T)
  /-- `unlock_taken`: before the waiters are installed at `head->next`. -/
  | takenInstall (j : Taken N T) (nextValue : Link N)
  /-- `unlock_taken`: before the compare-exchange that unlocks with an item. -/
  | fullCas (j : Taken N T)
  /-- `unlock_taken`: before the exchange that removes more waiters. -/
  | fullXchg (j : Taken N T)
  /-- `unlock_taken`: unlocked, before `notify()`. -/
  | fullNotify (j : Taken N T)
  /-- Before the old head is freed. -/
  | free (j : Taken N T)
deriving DecidableEq, Repr

def Pc.isIdle {N T : Type*} : Pc N T → Bool
  | .idle => true
  | _ => false

/-- The list that a waiter's record is in. -/
inductive Place where
  | nowhere
  /-- The list at `head_`. -/
  | head
  /-- The list at the head's `next`. -/
  | next
  /-- Taken by a `push` that is about to notify. -/
  | hand (t : Nat)
  /-- The pending list of a consumer. -/
  | pending (t : Nat)
  /-- Behind the record of a waiter that was notified. -/
  | behind (t : Nat)
deriving DecidableEq, Repr

structure State (N T : Type*) where
  head : Link N
  tail : N
  next : N → Link N
  item : N → T
  alloc : N → Bool
  /-- The `next` pointers of the waiters. -/
  wnext : Nat → Option Nat
  /-- The semaphores of the waiters. -/
  sem : Nat → Nat
  records : List Nat
  pc : Nat → Pc N T
  pending : Nat → Option Nat
  pendingLast : Nat → Option Nat
  assertFailed : Bool
  /-- The nodes from the head to the tail. -/
  chain : List N
  holder : Option Nat
  /-- The items in the order of the exchanges on `tail_`. -/
  pushed : List T
  /-- The items in the order in which consumers took them. -/
  taken : List (Nat × T)
  /-- What `pop` and `try_pop` returned. -/
  results : List (Nat × Option T)
  headList : List Nat
  nextList : List Nat
  hand : Nat → List Nat
  pendingList : Nat → List Nat
  behind : Nat → List Nat
  place : Nat → Place
  /-- The number of steps, and the number of a thread's last step. -/
  clock : Nat
  last : Nat → Nat

/-- How the free choices of a step are resolved. -/
inductive Choice where
  | go
  /-- Spin, or fail a compare-exchange without a reason. -/
  | spin
deriving DecidableEq, Repr

inductive Act (N T : Type*) where
  | push (t : Nat) (n : N) (v : T)
  | pop (t : Nat)
  | tryPop (t : Nat)
  | step (t : Nat) (c : Choice)
deriving DecidableEq, Repr

section Model

variable {N T : Type*} [DecidableEq N]

/-- `blocking_queue()`: one node, whose item is not used. -/
def State.start (stub : N) (item : N → T) : State N T where
  head := .node stub
  tail := stub
  next _ := .null
  item := item
  alloc n := n = stub
  wnext _ := none
  sem _ := 0
  records := []
  pc _ := .idle
  pending _ := none
  pendingLast _ := none
  assertFailed := false
  chain := [stub]
  holder := none
  pushed := []
  taken := []
  results := []
  headList := []
  nextList := []
  hand _ := []
  pendingList _ := []
  behind _ := []
  place _ := .nowhere
  clock := 0
  last _ := 0

namespace State

def goto (s : State N T) (t : Nat) (pc : Pc N T) : State N T :=
  { s with pc := Function.update s.pc t pc }

/-- `pop` or `try_pop` returns. -/
def ret (s : State N T) (t : Nat) (r : Option T) : State N T :=
  { s with pc := Function.update s.pc t .idle, results := s.results ++ [(t, r)] }

/-- Record an assertion. -/
def assert (s : State N T) (b : Bool) : State N T :=
  { s with assertFailed := s.assertFailed || !b }

-- ============================================================================
-- Waiters
-- ============================================================================

/-- `find_last`. -/
def findLast (s : State N T) (w : Nat) : Option Nat := lastOf s.wnext s.records.length w

/-- `pendingLast->next = v`. -/
def linkPending (s : State N T) (t : Nat) (v : Option Nat) : State N T :=
  match s.pendingLast t with
  | some last => { s with wnext := Function.update s.wnext last v }
  | none => s

/-- The list `l` moves to `p`. -/
def move (s : State N T) (l : List Nat) (p : Place) : State N T :=
  { s with place := fun w => if w ∈ l then p else s.place w }

/-- Put the list that starts at `w` in front of the pending list. -/
def prepend (s : State N T) (t w : Nat) (l : List Nat) : Option (State N T) :=
  (s.findLast w).map fun last =>
    let s := (s.move l (.pending t))
    match s.pending t with
    | some p =>
        { s with
          wnext := Function.update s.wnext last (some p)
          pending := Function.update s.pending t (some w)
          pendingList := Function.update s.pendingList t (l ++ s.pendingList t) }
    | none =>
        { s with
          pendingLast := Function.update s.pendingLast t (some last)
          pending := Function.update s.pending t (some w)
          pendingList := Function.update s.pendingList t (l ++ s.pendingList t) }

/-- Put the list that starts at `w` behind the pending list. -/
def append (s : State N T) (t w : Nat) (l : List Nat) : Option (State N T) :=
  (s.findLast w).map fun last =>
    let s := (s.move l (.pending t))
    match s.pending t with
    | some _ =>
        { s.linkPending t (some w) with
          pendingLast := Function.update s.pendingLast t (some last)
          pendingList := Function.update s.pendingList t (s.pendingList t ++ l) }
    | none =>
        { s with
          pending := Function.update s.pending t (some w)
          pendingLast := Function.update s.pendingLast t (some last)
          pendingList := Function.update s.pendingList t (s.pendingList t ++ l) }

/-- The waiters at `head_` become the front of the pending list. -/
def grab (s : State N T) (t w : Nat) : Option (State N T) :=
  { s with headList := [] }.prepend t w s.headList

/-- `notify()` on the first waiter of a list: the others are behind it. -/
def notify (s : State N T) (w : Nat) (rest : List Nat) : State N T :=
  { s.move rest (.behind w) with
    sem := Function.update s.sem w (s.sem w + 1)
    behind := Function.update s.behind w rest }

-- ============================================================================
-- With the lock
-- ============================================================================

/-- The item of `n` is taken, and `unlock_taken` begins. -/
def take (s : State N T) (t : Nat) (head n : N) : State N T :=
  let j : Taken N T := ⟨head, n, s.item n⟩
  { s with
    chain := s.chain.tail
    taken := s.taken ++ [(t, s.item n)] }.goto t
      (if (s.pending t).isNone then .takenCas j else .takenLoad j)

/-- `pop`: the inner loop, with `head->next` known. -/
def popDecide (s : State N T) (t : Nat) (head : N) (nextValue : Link N) : State N T :=
  match nextValue with
  | .node n => s.take t head n
  | v =>
      match s.pending t with
      | some p =>
          { s with wnext := Function.update s.wnext t (some p) }.linkPending t v.decodeWaiter
            |>.goto t (.popCas head v)
      | none =>
          { s with wnext := Function.update s.wnext t v.decodeWaiter }.goto t (.popCas head v)

/-- `try_unlock_no_item`: the top of its loop. -/
def noItem (s : State N T) (t : Nat) (head : N) (nextValue : Link N) : State N T :=
  if (s.pending t).isNone then s.goto t (.noItemCas head nextValue)
  else
    match nextValue with
    | .null => s.goto t (.noItemInstall head nextValue)
    | v =>
        (s.assert !v.isNode).linkPending t v.decodeWaiter |>.goto t (.noItemInstall head v)

/-- `try_pop`: the inner loop, with `head->next` known. -/
def tryDecide (s : State N T) (t : Nat) (head : N) (nextValue : Link N) : State N T :=
  match nextValue with
  | .node n => s.take t head n
  | v => s.noItem t head v

/-- `unlock_taken`: the inner loop, with `head->next` known. -/
def takenDecide (s : State N T) (t : Nat) (j : Taken N T) (nextValue : Link N) : State N T :=
  match nextValue with
  | .node _ => s.goto t (.fullCas j)
  | .null => s.goto t (.takenInstall j .null)
  | .waiter w => s.linkPending t (some w) |>.goto t (.takenInstall j (.waiter w))

/-- The list at `head->next` is the list `l`, with what was there behind it. -/
def install (s : State N T) (t : Nat) (head : N) (w : Nat) (l : List Nat) : State N T :=
  { s.move l .next with
    next := Function.update s.next head (.waiter w)
    nextList := l ++ s.nextList
    pendingList := Function.update s.pendingList t [] }

end State

-- ============================================================================
-- Steps
-- ============================================================================

/-- A step of the call that the thread is in. -/
def stepThread (s : State N T) (t : Nat) (c : Choice) : Option (State N T) :=
  match s.pc t with
  | .idle => none
  | .pushXchg n =>
      some ({ s with
        tail := n
        chain := s.chain ++ [n]
        pushed := s.pushed ++ [s.item n] }.goto t (.pushPublish s.tail n))
  | .pushPublish prev n =>
      let s' := { s with next := Function.update s.next prev (.node n) }
      match s.next prev with
      | .waiter w =>
          some ({ s'.move s.nextList (.hand t) with
            nextList := []
            hand := Function.update s.hand t s.nextList }.goto t (.pushNotify w))
      | v => some ((s'.assert (v = .null)).goto t .idle)
  | .pushNotify w =>
      some ({ s.notify w (s.hand t).tail with
        place := fun u => if u = w then .nowhere else (s.notify w (s.hand t).tail).place u
        hand := Function.update s.hand t [] }.goto t .idle)
  | .popLoad => some (s.goto t (.popTop s.head))
  | .popTop headValue =>
      if !headValue.isNode ∧ c = .spin then some (s.goto t (.popTop s.head))
      else if headValue = .null then some (s.goto t .popInstall)
      else
        let s' := { s with head := .null }
        match s.head with
        | .node h => some ({ s' with holder := some t }.goto t (.popNext h))
        | .waiter w => (s'.grab t w).map (·.goto t .popInstall)
        | .null => some (s'.goto t .popInstall)
  | .popInstall =>
      if s.head = .null then
        some ({ s.move [t] .head with
          head := .waiter t
          headList := [t] }.goto t .waitHead)
      else some (s.goto t (.popTop s.head))
  | .waitHead =>
      if 0 < s.sem t then
        let s' := { s with
          sem := Function.update s.sem t (s.sem t - 1)
          behind := Function.update s.behind t [] }
        match s.wnext t with
        | none => some (s'.goto t .popLoad)
        | some w =>
            (s'.prepend t w (s.behind t)).map fun s =>
              { s with wnext := Function.update s.wnext t none }.goto t .popLoad
      else none
  | .popNext h => some (s.popDecide t h (s.next h))
  | .popCas h v =>
      if s.next h = v then
        some ((s.install t h t (t :: s.pendingList t)).goto t (.unlockWaiting h))
      else
        let s' := s.assert (s.next h).isNode
        let s' := if (s.pending t).isSome then s'.linkPending t none else s'
        some ({ s' with wnext := Function.update s'.wnext t none }.popDecide t h (s.next h))
  | .unlockWaiting h =>
      let s' := { s with
        head := .node h
        holder := none
        pending := Function.update s.pending t none
        pendingLast := Function.update s.pendingLast t none }
      match s.head with
      | .waiter w => (s'.grab t w).map (·.goto t .waitItem)
      | v => some ((s'.assert (v = .null)).goto t .waitItem)
  | .waitItem =>
      if 0 < s.sem t then
        let s' := { s with
          sem := Function.update s.sem t (s.sem t - 1)
          behind := Function.update s.behind t [] }
        match s.wnext t with
        | none => some (s'.goto t .popLoad)
        | some w =>
            (s'.append t w (s.behind t)).map fun s =>
              { s with wnext := Function.update s.wnext t none }.goto t .popLoad
      else none
  | .tryLoad =>
      match s.head with
      | .node h => some (s.goto t (.tryCas h))
      | _ => some (s.ret t none)
  | .tryCas h =>
      if s.head = .node h ∧ c ≠ .spin then
        some ({ s with head := .null, holder := some t }.goto t (.tryNext h))
      else
        match s.head with
        | .node h => some (s.goto t (.tryCas h))
        | _ => some (s.ret t none)
  | .tryNext h => some (s.tryDecide t h (s.next h))
  | .noItemCas h v =>
      if s.head = .null then some ({ s with head := .node h, holder := none }.ret t none)
      else some (s.goto t (.noItemXchg h v))
  | .noItemXchg h v =>
      let s' := { s with head := .null }
      match s.head with
      | .waiter w => (s'.grab t w).map (·.noItem t h v)
      | x => some ((s'.assert (x = .null)).goto t (.noItemCas h v))
  | .noItemInstall h v =>
      match s.pending t with
      | none => none
      | some w =>
          if s.next h = v then
            some ({ s.install t h w (s.pendingList t) with
              pending := Function.update s.pending t none }.goto t (.noItemCas h v))
          else
            some (((s.assert (s.next h).isNode).linkPending t none).tryDecide t h (s.next h))
  | .takenCas j =>
      if s.head = .null then
        some ({ s with head := .node j.head, holder := none }.goto t (.free j))
      else some (s.goto t (.takenXchg j))
  | .takenXchg j =>
      let s' := { s with head := .null }
      match s.head with
      | .waiter w => (s'.grab t w).map (·.goto t (.takenLoad j))
      | x => some ((s'.assert (x = .null)).goto t (.takenCas j))
  | .takenLoad j => some (s.takenDecide t j (s.next j.head))
  | .takenInstall j v =>
      match s.pending t with
      | none => none
      | some w =>
          if s.next j.head = v then
            some ({ s.install t j.head w (s.pendingList t) with
              pending := Function.update s.pending t none }.goto t (.takenCas j))
          else
            some (((s.assert (s.next j.head).isNode).linkPending t none).takenDecide t j
              (s.next j.head))
  | .fullCas j =>
      if s.head = .null then
        some ({ s with head := .node j.head, holder := none }.goto t (.fullNotify j))
      else some (s.goto t (.fullXchg j))
  | .fullXchg j =>
      let s' := { s with head := .null }
      match s.head with
      | .waiter w => (s'.grab t w).map (·.goto t (.fullCas j))
      | x => some ((s'.assert (x = .null)).goto t (.fullCas j))
  | .fullNotify j =>
      match s.pending t with
      | none => none
      | some w =>
          some ({ s.notify w (s.pendingList t).tail with
            place := fun u => if u = w then .nowhere else (s.notify w (s.pendingList t).tail).place u
            pendingList := Function.update s.pendingList t [] }.goto t (.free j))
  | .free j => some ({ s with alloc := Function.update s.alloc j.old false }.ret t (some j.item))

/-- Note that the thread made a step. -/
def State.tick (s : State N T) (t : Nat) : State N T :=
  { s with clock := s.clock + 1, last := Function.update s.last t (s.clock + 1) }

/-- The states and steps of one queue, with any number of threads. -/
def queue : System (State N T) (Act N T) where
  init s := ∃ stub item, s = .start stub item
  step s
    | .push t n v =>
        if (s.pc t).isIdle ∧ s.alloc n = false then
          some ({ s with
            next := Function.update s.next n .null
            item := Function.update s.item n v
            alloc := Function.update s.alloc n true }.goto t (.pushXchg n))
        else none
    | .pop t =>
        if (s.pc t).isIdle then
          some ({ s with
            pending := Function.update s.pending t none
            pendingLast := Function.update s.pendingLast t none
            records := s.records.insert t }.goto t .popLoad)
        else none
    | .tryPop t =>
        if (s.pc t).isIdle then
          some ({ s with
            pending := Function.update s.pending t none
            pendingLast := Function.update s.pendingLast t none }.goto t .tryLoad)
        else none
    | .step t c => (stepThread s t c).map (·.tick t)

end Model

end Coroactors.Queue
