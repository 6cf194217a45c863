/-
  Coroactors.WorkStealing.Local

  The local queues of `WorkStealingScheduler`
  (src/benchmarks/benchmark_actor_latency.cpp): rings of 256 slots with head
  and tail packed into one 64-bit word.

  The owner of a ring pushes at the tail and pops at the head; a thread whose
  ring is empty steals half of another ring.  It copies the tasks into its own
  slots first, then takes them with a compare-exchange on the victim's word, and
  publishes the copies with a store to its own word.

  Every load, store and read-modify-write is a step.  Numbers of 32 and 64 bits
  wrap (`add32`, `sub32` and the sum in `pushAdd`).  An accepted task gets a
  number; the numbers, and the lists of what entered and left a ring, are read
  by no step.
-/

import Coroactors.Conc.System
import Mathlib.Algebra.Group.Nat.Defs

namespace Coroactors.WorkStealing.Local

open Coroactors.Conc

-- ============================================================================
-- Head and tail
-- ============================================================================

def maxLocalTasks : Nat := 256
def taskIndexMask : Nat := 255

def add32 (a b : Nat) : Nat := (a + b) % 2 ^ 32
def sub32 (a b : Nat) : Nat := (a + 2 ^ 32 - b) % 2 ^ 32
def add64 (a b : Nat) : Nat := (a + b) % 2 ^ 64
def sub64 (a b : Nat) : Nat := (a + 2 ^ 64 - b) % 2 ^ 64

/-- `pack_head_tail`. -/
def packHeadTail (head tail : Nat) : Nat := head <<< 32 ||| tail

/-- `unpack_head_tail`. -/
def unpackHeadTail (value : Nat) : Nat × Nat := (value >>> 32, value % 2 ^ 32)

def headOf (value : Nat) : Nat := (unpackHeadTail value).1
def tailOf (value : Nat) : Nat := (unpackHeadTail value).2

-- ============================================================================
-- Data
-- ============================================================================

/-- A `thread_state`. -/
structure Ring (T : Type*) where
  /-- `local_queue`. -/
  slots : Nat → T
  /-- `local_queue_head_tail`. -/
  word : Nat
  /-- The tasks that entered, with their numbers. -/
  entered : List (Nat × T)
  /-- The tasks that left, as they were read. -/
  left : List (Nat × T)

/-- The tasks in the ring. -/
def Ring.inside {T : Type*} (r : Ring T) : List (Nat × T) := r.entered.drop r.left.length

/-- One pass of the loop in `steal_from_local`. -/
structure Attempt where
  victim : Nat
  ourHead : Nat
  ourTail : Nat
  /-- `their_head_tail`. -/
  their : Nat
  n : Nat
  /-- How many tasks had left and entered the victim when it was loaded. -/
  seenLeft : Nat
  seenEntered : Nat
deriving DecidableEq, Repr

/-- Where a thread is. -/
inductive Pc (T : Type*) where
  | idle
  /-- `pop_from_local`: before the load. -/
  | popLoad
  /-- Before the slot is read. -/
  | popRead (headTail : Nat)
  /-- Before the compare-exchange. -/
  | popCas (headTail : Nat) (r : T)
  /-- `push_to_local`: before the load. -/
  | pushLoad (r : T)
  /-- Before the slot is written. -/
  | pushStore (r : T) (tail : Nat)
  /-- Before `fetch_add`. -/
  | pushAdd (r : T) (tail : Nat)
  /-- `steal_from_local`: before the load of the own word. -/
  | stealLoad (victim : Nat)
  /-- Before the load of the victim's word. -/
  | stealFrom (victim ourHead ourTail : Nat)
  /-- Before the first slot is read. -/
  | stealFirst (a : Attempt)
  /-- Before slot `i` is read. -/
  | stealRead (a : Attempt) (r : T) (i : Nat)
  /-- Before the copy of slot `i` is written. -/
  | stealWrite (a : Attempt) (r : T) (i : Nat) (x : T)
  /-- Before the compare-exchange. -/
  | stealCas (a : Attempt) (r : T)
  /-- Before the store that publishes the copies. -/
  | stealPublish (a : Attempt) (r : T)
deriving DecidableEq, Repr

structure State (T : Type*) where
  ring : Nat → Ring T
  pc : Nat → Pc T
  /-- What a thief took and has not published. -/
  hands : Nat → List (Nat × T)
  /-- The tasks that `push_to_local` accepted. -/
  accepted : List T
  /-- The tasks that `pop_from_local` and `steal_from_local` returned. -/
  returned : List (Nat × T)
  assertFailed : Bool

inductive Act (T : Type*) where
  | pop (t : Nat)
  | push (t : Nat) (r : T)
  | steal (t victim : Nat)
  | step (t : Nat)
deriving DecidableEq, Repr

section Model

variable {T : Type*}

/-- Empty rings; the slots hold anything. -/
def State.start (slots : Nat → Nat → T) : State T where
  ring t := ⟨slots t, 0, [], []⟩
  pc _ := .idle
  hands _ := []
  accepted := []
  returned := []
  assertFailed := false

namespace State

def goto (s : State T) (t : Nat) (pc : Pc T) : State T :=
  { s with pc := Function.update s.pc t pc }

def setRing (s : State T) (t : Nat) (r : Ring T) : State T :=
  { s with ring := Function.update s.ring t r }

/-- The task in a slot. -/
def slot (s : State T) (t i : Nat) : T := (s.ring t).slots (i &&& taskIndexMask)

def setSlot (s : State T) (t i : Nat) (x : T) : State T :=
  s.setRing t { s.ring t with
    slots := Function.update (s.ring t).slots (i &&& taskIndexMask) x }

/-- The values that a thread read are the next tasks to leave the ring. -/
def taking (s : State T) (t : Nat) (values : List T) : List (Nat × T) :=
  ((s.ring t).inside.map Prod.fst).zip values

/-- A compare-exchange moved the head, and these tasks left the ring. -/
def leave (s : State T) (t word : Nat) (out : List (Nat × T)) : State T :=
  s.setRing t { s.ring t with word := word, left := (s.ring t).left ++ out }

/-- `pop_from_local`: the loop, with the word known. -/
def popLoop (s : State T) (t headTail : Nat) : State T :=
  if headOf headTail = tailOf headTail then s.goto t .idle else s.goto t (.popRead headTail)

/-- `steal_from_local`: the loop, with the victim's word known. -/
def stealLoop (s : State T) (t victim ourHead ourTail their : Nat) : State T :=
  let n := sub32 (tailOf their) (headOf their)
  if n = 0 then s.goto t .idle
  else
    s.goto t (.stealFirst {
      victim, ourHead, ourTail, their
      n := n - n >>> 1
      seenLeft := (s.ring victim).left.length
      seenEntered := (s.ring victim).entered.length })

/-- `steal_from_local`: the loop that copies, at `i`. -/
def copyLoop (s : State T) (t : Nat) (a : Attempt) (r : T) (i : Nat) : State T :=
  if i < a.n then s.goto t (.stealRead a r i) else s.goto t (.stealCas a r)

/-- The copies that the thief made. -/
def copies (s : State T) (t : Nat) (a : Attempt) : List T :=
  (List.range (a.n - 1)).map fun j => s.slot t (add32 a.ourTail j)

end State

-- ============================================================================
-- Steps
-- ============================================================================

/-- The next atomic operation of thread `t`. -/
def stepThread (s : State T) (t : Nat) : Option (State T) :=
  match s.pc t with
  | .idle => none
  | .popLoad => some (s.popLoop t (s.ring t).word)
  | .popRead v => some (s.goto t (.popCas v (s.slot t (headOf v))))
  | .popCas v r =>
      if (s.ring t).word = v then
        let out := s.taking t [r]
        some ({ s.leave t (packHeadTail (add32 (headOf v) 1) (tailOf v)) out with
          returned := s.returned ++ out }.goto t .idle)
      else some (s.popLoop t (s.ring t).word)
  | .pushLoad r =>
      let v := (s.ring t).word
      if sub32 (tailOf v) (headOf v) ≥ maxLocalTasks then some (s.goto t .idle)
      else some (s.goto t (.pushStore r (tailOf v)))
  | .pushStore r tail => some ((s.setSlot t tail r).goto t (.pushAdd r tail))
  | .pushAdd r tail =>
      let increment := sub64 (packHeadTail 0 (add32 tail 1)) (packHeadTail 0 tail)
      some ({ s.setRing t { s.ring t with
          word := add64 (s.ring t).word increment
          entered := (s.ring t).entered ++ [(s.accepted.length, r)] } with
        accepted := s.accepted ++ [r] }.goto t .idle)
  | .stealLoad victim =>
      let v := (s.ring t).word
      some ({ s with assertFailed := s.assertFailed || headOf v ≠ tailOf v }.goto t
        (.stealFrom victim (headOf v) (tailOf v)))
  | .stealFrom victim ourHead ourTail =>
      some (s.stealLoop t victim ourHead ourTail (s.ring victim).word)
  | .stealFirst a => some (s.copyLoop t a (s.slot a.victim (headOf a.their)) 1)
  | .stealRead a r i =>
      some (s.goto t (.stealWrite a r i (s.slot a.victim (add32 (headOf a.their) i))))
  | .stealWrite a r i x =>
      some ((s.setSlot t (add32 a.ourTail (i - 1)) x).copyLoop t a r (i + 1))
  | .stealCas a r =>
      if (s.ring a.victim).word = a.their then
        let out := s.taking a.victim (r :: s.copies t a)
        let s' := s.leave a.victim
          (packHeadTail (add32 (headOf a.their) a.n) (tailOf a.their)) out
        if a.n > 1 then
          some ({ s' with hands := Function.update s.hands t out }.goto t (.stealPublish a r))
        else some ({ s' with returned := s.returned ++ out }.goto t .idle)
      else some (s.stealLoop t a.victim a.ourHead a.ourTail (s.ring a.victim).word)
  | .stealPublish a r =>
      some ({ s.setRing t { s.ring t with
          word := packHeadTail a.ourHead (add32 a.ourTail (a.n - 1))
          entered := (s.ring t).entered ++ (s.hands t).tail } with
        hands := Function.update s.hands t []
        returned := s.returned ++ ((s.hands t).take 1).map fun e : Nat × T => (e.1, r) }.goto t .idle)

/-- The rings, and any number of threads.  `try_stealing` is called when
    `pop_from_local` found nothing. -/
def rings (T : Type*) [DecidableEq T] : System (State T) (Act T) where
  init s := ∃ slots, s = .start slots
  step s
    | .pop t => if s.pc t = .idle then some (s.goto t .popLoad) else none
    | .push t r => if s.pc t = .idle then some (s.goto t (.pushLoad r)) else none
    | .steal t victim =>
        if s.pc t = .idle ∧ victim ≠ t ∧ headOf (s.ring t).word = tailOf (s.ring t).word then
          some (s.goto t (.stealLoad victim))
        else none
    | .step t => stepThread s t

/-- No `2 ^ 32` tasks entered the victim since the thief loaded its word. -/
def Brief (s : State T) (act : Act T) : Prop :=
  ∀ t a r, act = .step t → s.pc t = .stealCas a r →
    (s.ring a.victim).entered.length < a.seenEntered + 2 ^ 32

/-- `Brief` as a test: only a thief before its compare-exchange is looked at. -/
def briefTest (s : State T) : Act T → Bool
  | .step t =>
      match s.pc t with
      | .stealCas a _ => (s.ring a.victim).entered.length < a.seenEntered + 2 ^ 32
      | _ => true
  | _ => true

theorem briefTest_iff {s : State T} {act : Act T} : briefTest s act = true ↔ Brief s act := by
  cases act with
  | step t =>
      cases hp : s.pc t with
      | stealCas a r =>
          simp only [briefTest, hp, decide_eq_true_eq]
          refine ⟨?_, fun h => h t a r rfl hp⟩
          rintro h _ _ _ ⟨⟩ hp'
          rw [hp] at hp'
          cases hp'
          exact h
      | _ =>
          simp only [briefTest, hp, true_iff]
          rintro _ _ _ ⟨⟩ hp'
          rw [hp] at hp'
          cases hp'
  | _ =>
      simp only [briefTest, true_iff]
      rintro _ _ _ ⟨⟩

instance (s : State T) (act : Act T) : Decidable (Brief s act) := decidable_of_iff _ briefTest_iff

end Model

end Coroactors.WorkStealing.Local
