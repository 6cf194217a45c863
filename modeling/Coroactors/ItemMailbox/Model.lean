/-
  Coroactors.ItemMailbox.Model

  `mailbox<T>` (coroactors/detail/mailbox.h): a queue of items with many
  producers and one consumer, which is also a lock.

  The list starts at `head_`, a node whose item was taken already, and the lock
  is free when `MarkerUnlocked` is stored in the `next` pointer of the head.
  Every atomic operation is a step, with the plain accesses that follow it.  A
  push may be made by any thread at any time; the owner of the mailbox may pop,
  peek, unlock, or pass the mailbox on to another thread.  A node may be
  allocated again after it was freed.

  The history of a run is kept next to the mailbox: the calls that returned
  (`log`), the owners as these returns make them, the items in the order of the
  exchanges on `tail_`, and the items that were popped.  `chain` is the list
  from `head_` to `tail_` in the order of these exchanges; no step reads it.

  A failed assertion is recorded, and a thread that would follow
  `MarkerUnlocked` as a pointer stops.
-/

import Coroactors.Conc.System

namespace Coroactors.ItemMailbox

open Coroactors.Conc

-- ============================================================================
-- Data
-- ============================================================================

/-- The value of a `next` pointer. -/
inductive Word (N : Type*) where
  | null
  /-- `MarkerUnlocked`. -/
  | unlocked
  | node (n : N)
deriving DecidableEq, Repr

/-- The functions of the owner.  `pop_optional` and `pop_default` differ in what
    they return when there is no item, which is `nullopt` or a default value. -/
inductive Op where
  | popOptional
  | popDefault
  | peek
  | tryUnlock
deriving DecidableEq, Repr

/-- Where a thread is. -/
inductive Pc (N : Type*) where
  | idle
  /-- `push`: before the exchange on `tail_`. -/
  | pushXchg (n : N)
  /-- `push`: before the exchange on `prev->next`. -/
  | publish (prev n : N)
  /-- Before the load of `head->next`. -/
  | load (op : Op)
  /-- Before the compare-exchange that unlocks. -/
  | cas (op : Op)
  /-- The thread used `MarkerUnlocked` as a pointer. -/
  | crashed
deriving DecidableEq, Repr

/-- A call that returned, or the mailbox being passed on between threads.  What
    `pop_optional`, `pop_default` and `peek` found is given with its node. -/
inductive Event (N T : Type*) where
  | push (t : Nat) (n : N) (locked : Bool)
  | pop (t : Nat) (r : Option (N × T))
  | peek (t : Nat) (r : Option (N × T))
  | tryUnlock (t : Nat) (unlocked : Bool)
  | pass (t u : Nat)
deriving DecidableEq, Repr

/-- What a return does to the owners. -/
def Event.owners {N T : Type*} : Event N T → List Nat → List Nat
  | .push t _ true, o => t :: o
  | .pop t none, o => o.erase t
  | .tryUnlock t true, o => o.erase t
  | .pass t u, o => u :: o.erase t
  | _, o => o

/-- The item a return hands out. -/
def Event.taken {N T : Type*} : Event N T → List T
  | .pop _ (some p) => [p.2]
  | _ => []

structure State (N T : Type*) where
  head : N
  tail : N
  next : N → Word N
  item : N → T
  alloc : N → Bool
  pc : Nat → Pc N
  log : List (Event N T)
  owners : List Nat
  /-- Items in the order of the exchanges on `tail_`. -/
  pushed : List T
  popped : List T
  chain : List N
  assertFailed : Bool

inductive Act (N T : Type*) where
  | push (t : Nat) (n : N) (v : T)
  | call (t : Nat) (op : Op)
  | step (t : Nat)
  | pass (t u : Nat)
deriving DecidableEq, Repr

section Model

variable {N T : Type*} [DecidableEq N]

/-- A new mailbox, locked by a thread or unlocked. -/
def State.start (stub : N) (item : N → T) (owner : Option Nat) : State N T where
  head := stub
  tail := stub
  next _ := if owner.isSome then .null else .unlocked
  item := item
  alloc n := n = stub
  pc _ := .idle
  log := []
  owners := owner.toList
  pushed := []
  popped := []
  chain := [stub]
  assertFailed := false

namespace State

/-- `assert(ok)`. -/
def assert (s : State N T) (ok : Bool) : State N T :=
  { s with assertFailed := s.assertFailed || !ok }

def goto (s : State N T) (t : Nat) (pc : Pc N) : State N T :=
  { s with pc := Function.update s.pc t pc }

/-- A function returns to thread `t`. -/
def ret (s : State N T) (t : Nat) (e : Event N T) : State N T :=
  { s.goto t .idle with
    log := s.log ++ [e]
    owners := e.owners s.owners
    popped := s.popped ++ e.taken }

/-- `head_.reset(next)`, and the item is moved out of the new head. -/
def advance (s : State N T) (t : Nat) (next : N) : State N T :=
  { s with
    head := next
    alloc := Function.update s.alloc s.head false
    chain := s.chain.tail }.ret t (.pop t (some (next, s.item next)))

/-- The rest of the function, with what was found in `head->next`. -/
def found (s : State N T) (t : Nat) (op : Op) : Word N → State N T
  | .node n =>
      match op with
      | .popOptional | .popDefault => s.advance t n
      | .peek => s.ret t (.peek t (some (n, s.item n)))
      | .tryUnlock => s.ret t (.tryUnlock t false)
  | .null | .unlocked =>
      match op with
      | .tryUnlock => (s.assert false).ret t (.tryUnlock t false)
      | _ => (s.assert false).goto t .crashed

/-- The function returns without an item, and has unlocked unless it is `peek`. -/
def nothing (s : State N T) (t : Nat) : Op → State N T
  | .popOptional | .popDefault => s.ret t (.pop t none)
  | .peek => s.ret t (.peek t none)
  | .tryUnlock => s.ret t (.tryUnlock t true)

end State

/-- The next atomic operation of thread `t`. -/
def stepThread (s : State N T) (t : Nat) : Option (State N T) :=
  match s.pc t with
  | .idle | .crashed => none
  | .pushXchg n =>
      some ({ s with
        tail := n
        chain := s.chain ++ [n]
        pushed := s.pushed ++ [s.item n] }.goto t (.publish s.tail n))
  | .publish prev n =>
      some ({ s with next := Function.update s.next prev (.node n) }.ret t
        (.push t n (decide (s.next prev = Word.unlocked))))
  | .load op =>
      match s.next s.head with
      | .null =>
          match op with
          | .peek => some (s.nothing t .peek)
          | op => some (s.goto t (.cas op))
      | w => some (s.found t op w)
  | .cas op =>
      match s.next s.head with
      | .null =>
          some ({ s with next := Function.update s.next s.head .unlocked }.nothing t op)
      | .node n => some (s.found t op (.node n))
      | .unlocked =>
          match op with
          | .tryUnlock => some (s.ret t (.tryUnlock t false))
          | op => some (s.found t op .unlocked)

/-- A mailbox and the threads that use it. -/
def mailbox : System (State N T) (Act N T) where
  init s := ∃ stub item owner, s = .start stub item owner
  step s
    | .push t n v =>
        if s.pc t = .idle ∧ s.alloc n = false then
          some ({ s with
            next := Function.update s.next n .null
            item := Function.update s.item n v
            alloc := Function.update s.alloc n true }.goto t (.pushXchg n))
        else none
    | .call t op =>
        if s.pc t = .idle ∧ t ∈ s.owners then some (s.goto t (.load op)) else none
    | .step t => stepThread s t
    | .pass t u => if s.pc t = .idle ∧ t ∈ s.owners then some (s.ret t (.pass t u)) else none

end Model

end Coroactors.ItemMailbox
