/-
  Coroactors.Mailbox.Model

  `intrusive_mailbox` (coroactors/detail/intrusive_mailbox.h): an intrusive
  queue of nodes with many producers and one consumer, which is also a lock.

  The consumer is whoever holds the lock.  The lock is free exactly when
  `MarkerUnlocked` is stored in the `next` pointer of the head: of the stub
  when the mailbox is empty, or of a node whose successor is still being
  pushed.

  Every atomic load, store and read-modify-write is a step of its own, with
  the plain accesses to `head_` that follow it.  Threads are numbered; any
  thread may push and `try_lock` at any time, and a thread that holds the lock
  may pop, peek, unlock, or pass the lock on to another thread.  Nodes are of
  an arbitrary type and may be pushed again after they were popped.

  The history of a run is kept next to the mailbox: the calls that returned
  (`log`), the owners and the nodes handed out as these returns make them,
  and the order of the exchanges on `tail_`.  `chain` is the list from `head_`
  to `tail_` in the order of these exchanges; no step reads it.

  A failed assertion is recorded, and a thread that would follow
  `MarkerUnlocked` as a pointer stops.
-/

import Coroactors.Conc.System
import Mathlib.Logic.Function.Basic

namespace Coroactors.Mailbox

open Coroactors.Conc

-- ============================================================================
-- Data
-- ============================================================================

/-- A node of the list: the stub of the mailbox, or a node that was pushed. -/
inductive Ptr (N : Type*) where
  | stub
  | node (n : N)
deriving DecidableEq, Repr

/-- The value of a `next` pointer. -/
inductive Word (N : Type*) where
  | null
  /-- `MarkerUnlocked`. -/
  | unlocked
  | ptr (p : Ptr N)
deriving DecidableEq, Repr

/-- The functions that call `pop_impl`. -/
inductive Op where
  | pop
  | tryPop
  | peek
  | tryUnlock
deriving DecidableEq, Repr

/-- The template parameter `Unlock`. -/
def Op.unlock : Op → Bool
  | .pop | .tryUnlock => true
  | .tryPop | .peek => false

section Model

variable {N : Type*}

/-- Where a thread is. -/
inductive Pc (N : Type*) where
  | idle
  /-- `push_prepare`: before the store to `next`. -/
  | pushStore (n : N)
  /-- `push_prepare`: before the exchange on `tail_`. -/
  | pushXchg (n : N)
  /-- `push_publish`: before the exchange on `prev->next`. -/
  | publish (prev : Ptr N) (n : N)
  | tryLock
  /-- `pop_impl`: before it reads `head_` and loads its `next`. -/
  | load (op : Op)
  /-- Before the compare-exchange that unlocks at the stub. -/
  | stubCas (op : Op)
  /-- Before the store that takes the stub out, in front of `next`. -/
  | stubRemove (op : Op) (next : Ptr N)
  /-- Before the load of the new head's `next`. -/
  | headLoad (op : Op) (head : Ptr N)
  /-- Before the load of `tail_`. -/
  | tailLoad (op : Op) (head : Ptr N)
  /-- Before the load in the assertion on the stub. -/
  | stubAssert (op : Op) (head : Ptr N)
  /-- Before the compare-exchange that puts the stub behind the head. -/
  | tailCas (op : Op) (head : Ptr N)
  /-- Before the store that links the stub to the head. -/
  | linkStub (op : Op) (head : Ptr N)
  /-- Before the compare-exchange that unlocks at the head. -/
  | headCas (op : Op) (head : Ptr N)
  /-- The thread used `MarkerUnlocked` as a pointer. -/
  | crashed
deriving DecidableEq, Repr

/-- A call that returned, or the lock being passed on between threads. -/
inductive Event (N : Type*) where
  | push (t : Nat) (n : N) (locked : Bool)
  | pop (t : Nat) (r : Option (Ptr N))
  | tryPop (t : Nat) (r : Option (Ptr N))
  | peek (t : Nat) (r : Option (Ptr N))
  | tryLock (t : Nat) (locked : Bool)
  | tryUnlock (t : Nat) (unlocked : Bool)
  | pass (t u : Nat)
deriving DecidableEq, Repr

/-- What a return does to the owners: the lock is gained by a `push` or a
    `try_lock` that returns true, and given up by a `pop` that returns null or
    a `try_unlock` that returns true. -/
def Event.owners : Event N → List Nat → List Nat
  | .push t _ true, o => t :: o
  | .tryLock t true, o => t :: o
  | .pop t none, o => o.erase t
  | .tryUnlock t true, o => o.erase t
  | .pass t u, o => u :: o.erase t
  | _, o => o

/-- The node a return hands out. -/
def Event.taken : Event N → List (Ptr N)
  | .pop _ (some p) => [p]
  | .tryPop _ (some p) => [p]
  | _ => []

structure State (N : Type*) where
  next : Ptr N → Word N
  head : Ptr N
  tail : Ptr N
  pc : Nat → Pc N
  /-- The node belongs to the mailbox or to a `push` that has not returned it. -/
  busy : N → Bool
  log : List (Event N)
  owners : List Nat
  popped : List (Ptr N)
  /-- Nodes in the order of their exchange on `tail_`. -/
  order : List N
  chain : List (Ptr N)
  assertFailed : Bool

/-- A new mailbox, locked by a thread or unlocked; `next` pointers of nodes
    hold anything. -/
def State.start (next : N → Word N) (owner : Option Nat) : State N where
  next
    | .stub => if owner.isSome then .null else .unlocked
    | .node n => next n
  head := .stub
  tail := .stub
  pc := fun _ => .idle
  busy := fun _ => false
  log := []
  owners := owner.toList
  popped := []
  order := []
  chain := [.stub]
  assertFailed := false

/-- A step: a thread enters a function, makes its next atomic operation, or
    passes the lock on. -/
inductive Act (N : Type*) where
  | push (t : Nat) (n : N)
  | tryLock (t : Nat)
  | call (t : Nat) (op : Op)
  | step (t : Nat)
  | pass (t u : Nat)
deriving DecidableEq, Repr

-- ============================================================================
-- Operations
-- ============================================================================

/-- `assert(ok)`. -/
def State.assert (s : State N) (ok : Bool) : State N :=
  { s with assertFailed := s.assertFailed || !ok }

def State.goto (s : State N) (t : Nat) (pc : Pc N) : State N :=
  { s with pc := Function.update s.pc t pc }

/-- A function returns to thread `t`. -/
def State.ret (s : State N) (t : Nat) (e : Event N) : State N :=
  { (s.goto t .idle) with
    log := s.log ++ [e]
    owners := e.owners s.owners
    popped := s.popped ++ e.taken }

/-- A node popped by thread `t` may be pushed again. -/
def release [DecidableEq N] (busy : N → Bool) : Ptr N → N → Bool
  | .stub => busy
  | .node n => Function.update busy n false

variable [DecidableEq N]

def State.setNext (s : State N) (p : Ptr N) (w : Word N) : State N :=
  { s with next := Function.update s.next p w }

/-- `pop_impl` returned a removable `head` and its `next`: `pop` and `try_pop`
    advance `head_`. -/
def State.retSome (s : State N) (t : Nat) (op : Op) (head next : Ptr N) : State N :=
  match op with
  | .pop =>
      { s with head := next, chain := s.chain.tail, busy := release s.busy head }.ret t
        (.pop t (some head))
  | .tryPop =>
      { s with head := next, chain := s.chain.tail, busy := release s.busy head }.ret t
        (.tryPop t (some head))
  | .peek => s.ret t (.peek t (some head))
  | .tryUnlock => s.ret t (.tryUnlock t false)

/-- `pop_impl` returned no head. -/
def State.retNone (s : State N) (t : Nat) : Op → State N
  | .pop => s.ret t (.pop t none)
  | .tryPop => s.ret t (.tryPop t none)
  | .peek => s.ret t (.peek t none)
  | .tryUnlock => s.ret t (.tryUnlock t true)

/-- The head is the stub, and this was found in its `next`, which is not null. -/
def State.removeStub (s : State N) (t : Nat) (op : Op) : Word N → State N
  | .ptr p => s.goto t (.stubRemove op p)
  | .null | .unlocked => (s.assert false).goto t .crashed

/-- The last lines of `pop_impl`, with what was found in the head's `next`. -/
def State.finish (s : State N) (t : Nat) (op : Op) (head : Ptr N) : Word N → State N
  | .ptr p => s.retSome t op head p
  | .null | .unlocked => (s.assert false).goto t .crashed

/-- The head is a node, and this was found in its `next`. -/
def State.loaded (s : State N) (t : Nat) (op : Op) (head : Ptr N) : Word N → State N
  | .null => s.goto t (.tailLoad op head)
  | w => s.finish t op head w

/-- The head has a successor that is not linked yet. -/
def State.blocked (s : State N) (t : Nat) (op : Op) (head : Ptr N) : State N :=
  if op.unlock then s.goto t (.headCas op head) else s.retNone t op

/-- The next atomic operation of thread `t`. -/
def stepThread (s : State N) (t : Nat) : Option (State N) :=
  match s.pc t with
  | .idle | .crashed => none
  | .pushStore n => some ((s.setNext (.node n) .null).goto t (.pushXchg n))
  | .pushXchg n =>
      some { (s.goto t (.publish s.tail n)) with
        tail := .node n
        order := s.order ++ [n]
        chain := s.chain ++ [.node n] }
  | .publish prev n =>
      let marker := s.next prev
      let s := s.assert (marker = .null || marker = .unlocked)
      some ((s.setNext prev (.ptr (.node n))).ret t (.push t n (marker = .unlocked)))
  | .tryLock =>
      if s.next .stub = .unlocked then
        some (((s.setNext .stub .null).assert (s.head = .stub)).ret t (.tryLock t true))
      else
        some (s.ret t (.tryLock t false))
  | .load op =>
      if s.head = .stub then
        if s.next .stub = .null then
          some (if op.unlock then s.goto t (.stubCas op) else s.retNone t op)
        else
          some (s.removeStub t op (s.next .stub))
      else
        some (s.loaded t op s.head (s.next s.head))
  | .stubCas op =>
      if s.next .stub = .null then
        some ((s.setNext .stub .unlocked).retNone t op)
      else
        some (s.removeStub t op (s.next .stub))
  | .stubRemove op p =>
      some { ((s.setNext .stub .null).goto t (.headLoad op p)) with
        head := p
        chain := s.chain.tail }
  | .headLoad op head => some (s.loaded t op head (s.next head))
  | .tailLoad op head =>
      if s.tail = head then some (s.goto t (.stubAssert op head))
      else some (s.blocked t op head)
  | .stubAssert op head => some ((s.assert (s.next .stub = .null)).goto t (.tailCas op head))
  | .tailCas op head =>
      if s.tail = head then
        some { (s.goto t (.linkStub op head)) with
          tail := .stub
          chain := s.chain ++ [.stub] }
      else
        some (s.blocked t op head)
  | .linkStub op head => some ((s.setNext head (.ptr .stub)).retSome t op head .stub)
  | .headCas op head =>
      if s.next head = .null then
        some ((s.setNext head .unlocked).retNone t op)
      else
        some (s.finish t op head (s.next head))

/-- A mailbox and the threads that use it. -/
def mailbox (N : Type*) [DecidableEq N] : System (State N) (Act N) where
  init s := ∃ next owner, s = State.start next owner
  step s
    | .push t n =>
        if s.pc t = .idle ∧ s.busy n = false then
          some { (s.goto t (.pushStore n)) with busy := Function.update s.busy n true }
        else none
    | .tryLock t => if s.pc t = .idle then some (s.goto t .tryLock) else none
    | .call t op => if s.pc t = .idle ∧ t ∈ s.owners then some (s.goto t (.load op)) else none
    | .step t => stepThread s t
    | .pass t u =>
        if s.pc t = .idle ∧ t ∈ s.owners then some (s.ret t (.pass t u)) else none

end Model

end Coroactors.Mailbox
