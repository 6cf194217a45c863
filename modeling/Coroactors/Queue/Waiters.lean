/-
  Coroactors.Queue.Waiters

  The waiters of `blocking_queue`: in which list each record is, and what the
  variables of a thread say about its lists.

  The lists are at `head_`, at the `next` pointer of the head, in the hands of
  a `push` that took them from there, pending at a consumer, and behind a
  waiter that was notified.  A record is in one of them exactly while its
  thread waits and was not notified.  While a consumer tries to install its
  pending list, the last record is linked to the list that it expects at the
  head: the pending list ends before that.

  The invariant is about a state and the places `pc` where the threads are
  taken to be, so that a step can be followed through the plain accesses after
  its atomic operation: in between, the thread counts as one at the load of
  `head_`, which says nothing about its pending list.
-/

import Coroactors.Queue.Core
import Coroactors.Conc.Lists

namespace Coroactors.Queue

open Coroactors.Conc

variable {N T : Type*} {s s' : State N T} {t u w : Nat}

-- ============================================================================
-- What a thread has to do with the waiters
-- ============================================================================

/-- The thread's record is installed, and `wait()` has not returned. -/
def Pc.waits : Pc N T → Bool
  | .waitHead | .waitItem | .unlockWaiting _ => true
  | _ => false

/-- `pending` and `pendingLast`, or `waiter` and `last`, are in use. -/
def Pc.holds : Pc N T → Bool
  | .idle | .pushXchg _ | .pushPublish .. | .pushNotify _ | .unlockWaiting _ | .free _ => false
  | _ => true

/-- There are no pending waiters. -/
def Pc.clean : Pc N T → Bool
  | .idle | .pushXchg _ | .pushPublish .. | .pushNotify _ | .unlockWaiting _ | .tryLoad
  | .tryCas _ | .noItemCas .. | .noItemXchg .. | .takenCas _ | .takenXchg _ | .free _ => true
  | _ => false

/-- There are pending waiters. -/
def Pc.full : Pc N T → Bool
  | .noItemInstall .. | .takenLoad _ | .takenInstall .. | .fullCas _ | .fullXchg _
  | .fullNotify _ => true
  | _ => false

/-- Where the last pending waiter is linked to, before a compare-exchange on
    `head->next`. -/
def Pc.tail : Pc N T → Option Nat
  | .popCas _ v | .noItemInstall _ v | .takenInstall _ v => v.decodeWaiter
  | _ => none

/-- The first waiter of the list that `push` took. -/
def Pc.notifies : Pc N T → Option Nat
  | .pushNotify w => some w
  | _ => none

/-- The link of the thread's own record, while it is not installed. -/
def Pc.own (l : List Nat) : Pc N T → Option Nat
  | .popCas _ v => l.head?.or v.decodeWaiter
  | _ => none

theorem Pc.waits_spec {p : Pc N T} (h : p.waits = true) : p.tail = none ∧ p.notifies = none := by
  cases p <;> first | exact ⟨rfl, rfl⟩ | cases h

/-- The waiters at a place. -/
def State.listAt (s : State N T) : Place → List Nat
  | .nowhere => []
  | .head => s.headList
  | .next => s.nextList
  | .hand t => s.hand t
  | .pending t => s.pendingList t
  | .behind t => s.behind t

/-- Where the last waiter at a place is linked to. -/
def tails (pc : Nat → Pc N T) : Place → Option Nat
  | .pending t => (pc t).tail
  | _ => none

/-- The record is in a list. -/
def State.Listed (s : State N T) (w : Nat) : Prop := ∃ p, w ∈ s.listAt p

/-- The record is the first of the list at the head, or of one in the hands of
    a `push`: the next one to notify. -/
def State.Front (s : State N T) (w : Nat) : Prop :=
  s.nextList.head? = some w ∨ ∃ u, (s.hand u).head? = some w

-- ============================================================================
-- The invariant
-- ============================================================================

/-- What the variables of the thread `u` say, when it is at `p`. -/
structure ThreadInv (s : State N T) (u : Nat) (p : Pc N T) : Prop where
  clean : p.clean = true → s.pendingList u = []
  full : p.full = true → s.pendingList u ≠ []
  pending : p.holds = true → s.pending u = (s.pendingList u).head?
  last : p.holds = true → s.pendingList u ≠ [] → s.pendingLast u = (s.pendingList u).getLast?
  hand : p.notifies = (s.hand u).head?
  unnotified : s.sem u = 0 → s.behind u = []
  notified : s.sem u ≠ 0 → s.sem u = 1 ∧ p.waits = true ∧ s.wnext u = (s.behind u).head?
  own : p.waits = false → s.wnext u = p.own (s.pendingList u)

structure WaitInv (s : State N T) (pc : Nat → Pc N T) : Prop where
  lists : Lists s.wnext s.listAt (tails pc)
  head : s.head.decodeWaiter = s.headList.head?
  next : ∀ h, s.chain.head? = some h → (s.next h).decodeWaiter = s.nextList.head?
  thread : ∀ u, ThreadInv s u (pc u)
  listed : ∀ w, s.Listed w ↔ (pc w).waits = true ∧ s.sem w = 0
  records : ∀ w, s.Listed w → w ∈ s.records
  front : ∀ u h, pc u = .unlockWaiting h → s.sem u = 0 → s.Front u

variable {pc pc' : Nat → Pc N T}

theorem WaitInv.not_listed (hi : WaitInv s pc) (h : (pc t).waits = false) (p : Place) :
    t ∉ s.listAt p := by
  intro hm
  rw [((hi.listed t).mp ⟨p, hm⟩).1] at h
  cases h

theorem WaitInv.nil_of_root (hi : WaitInv s pc) (hh : s.head.decodeWaiter = none) :
    s.headList = [] :=
  List.head?_eq_none_iff.mp (hi.head.symm.trans hh)

/-- A list is not longer than the records are many. -/
theorem WaitInv.length_le (hi : WaitInv s pc) (p : Place) :
    (s.listAt p).length ≤ s.records.length :=
  (hi.lists.nodup p).length_le_of_subset fun w hw => hi.records w ⟨p, hw⟩

-- ============================================================================
-- Steps of one thread
-- ============================================================================

/-- The step leaves the variables of the other threads alone, but may write to
    the records that are in a list. -/
structure Others (s s' : State N T) (t : Nat) : Prop where
  pendingList : ∀ u, u ≠ t → s'.pendingList u = s.pendingList u
  hand : ∀ u, u ≠ t → s'.hand u = s.hand u
  behind : ∀ u, u ≠ t → s'.behind u = s.behind u
  pending : ∀ u, u ≠ t → s'.pending u = s.pending u
  pendingLast : ∀ u, u ≠ t → s'.pendingLast u = s.pendingLast u
  sem : ∀ u, u ≠ t → s'.sem u = s.sem u
  wnext : ∀ u, u ≠ t → s'.wnext u = s.wnext u ∨ s.Listed u

theorem Others.refl (s : State N T) (t : Nat) : Others s s t :=
  ⟨fun _ _ => rfl, fun _ _ => rfl, fun _ _ => rfl, fun _ _ => rfl, fun _ _ => rfl,
    fun _ _ => rfl, fun _ _ => .inl rfl⟩

theorem Others.thread (ho : Others s s' t) (hi : WaitInv s pc) (hu : u ≠ t) :
    ThreadInv s' u (pc u) := by
  have hth := hi.thread u
  refine ⟨?_, ?_, ?_, ?_, ?_, ?_, ?_, ?_⟩
  · rw [ho.pendingList u hu]
    exact hth.clean
  · rw [ho.pendingList u hu]
    exact hth.full
  · rw [ho.pending u hu, ho.pendingList u hu]
    exact hth.pending
  · rw [ho.pendingLast u hu, ho.pendingList u hu]
    exact hth.last
  · rw [ho.hand u hu]
    exact hth.hand
  · rw [ho.sem u hu, ho.behind u hu]
    exact hth.unnotified
  · rw [ho.sem u hu, ho.behind u hu]
    intro hs
    obtain ⟨h1, h2, h3⟩ := hth.notified hs
    refine ⟨h1, h2, ?_⟩
    rcases ho.wnext u hu with hw | hl
    · exact hw.trans h3
    · exact absurd ((hi.listed u).mp hl).2 hs
  · rw [ho.pendingList u hu]
    intro hw
    rcases ho.wnext u hu with hn | hl
    · exact hn.trans (hth.own hw)
    · rw [((hi.listed u).mp hl).1] at hw
      cases hw

/-- A step of one thread: what is left to show about the others is where their
    records are. -/
theorem WaitInv.step (hi : WaitInv s pc) (ho : Others s s' t)
    (hpc : ∀ u, u ≠ t → pc' u = pc u) (hlists : Lists s'.wnext s'.listAt (tails pc'))
    (hhead : s'.head.decodeWaiter = s'.headList.head?)
    (hnext : ∀ h, s'.chain.head? = some h → (s'.next h).decodeWaiter = s'.nextList.head?)
    (ht : ThreadInv s' t (pc' t)) (hlisted : ∀ w, w ≠ t → (s'.Listed w ↔ s.Listed w))
    (hself : s'.Listed t ↔ (pc' t).waits = true ∧ s'.sem t = 0)
    (hsub : s.records ⊆ s'.records) (hrec : s'.Listed t → t ∈ s'.records)
    (hfront : ∀ u h, pc' u = .unlockWaiting h → s'.sem u = 0 → (u ≠ t → s.Front u) → s'.Front u) :
    WaitInv s' pc' := by
  refine ⟨hlists, hhead, hnext, fun u => ?_, fun w => ?_, fun w hw => ?_, fun u h hu hs => ?_⟩
  · rcases eq_or_ne u t with rfl | hu
    · exact ht
    · rw [hpc u hu]
      exact ho.thread hi hu
  · rcases eq_or_ne w t with rfl | hw
    · exact hself
    · rw [hlisted w hw, hpc w hw, ho.sem w hw]
      exact hi.listed w
  · rcases eq_or_ne w t with rfl | hne
    · exact hrec hw
    · exact hsub (hi.records w ((hlisted w hne).mp hw))
  · refine hfront u h hu hs fun hne => ?_
    rw [hpc u hne] at hu
    rw [ho.sem u hne] at hs
    exact hi.front u h hu hs

end Coroactors.Queue
