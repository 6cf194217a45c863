/-
  Coroactors.Queue.Fifo

  `blocking_queue` hands out every item once and in order, to one consumer at
  a time, and frees a node when nobody can reach it.

  Items are in the order of the exchanges on `tail_`, and a consumer takes an
  item when it advances the head.  A call returns the item that its thread
  took last, so a call that returns nothing has taken nothing.
-/

import Coroactors.Queue.Core

namespace Coroactors.Queue

open Coroactors.Conc

variable {N T : Type*} {s s' : State N T} {t u : Nat}

-- ============================================================================
-- In one state
-- ============================================================================

/-- What was taken is what was pushed first. -/
theorem CoreInv.taken_prefix (hi : CoreInv s) : s.taken.map Prod.snd <+: s.pushed :=
  ⟨_, hi.items.symm⟩

/-- Between two calls, a thread returned the items that it took. -/
theorem CoreInv.takenBy_idle (hi : CoreInv s) (hp : s.pc t = .idle) :
    takenBy s t = returnedBy s t := by
  rw [hi.carried t, hp]
  exact List.append_nil _

/-- The nodes that some thread can still reach: those from the head to the tail,
    and those a thread works on. -/
def Reaches (s : State N T) (n : N) : Prop :=
  s.head = .node n ∨ s.tail = n ∨ n ∈ s.chain ∨
    ∃ t, (s.pc t).locked = some n ∨ (s.pc t).owns = some n ∨
      ∃ m, (s.pc t).publishes = some (n, m) ∨ (s.pc t).publishes = some (m, n)

theorem CoreInv.alloc_of_reaches (hi : CoreInv s) {n : N} (h : Reaches s n) :
    s.alloc n = true := by
  rcases h with h | rfl | h | ⟨t, h | h | ⟨m, h | h⟩⟩
  · exact hi.alloc n (List.mem_of_mem_head? (hi.headNode n h).2)
  · exact hi.alloc _ (List.mem_of_getLast? hi.last)
  · exact hi.alloc n h
  · exact hi.alloc n (List.mem_of_mem_head? (hi.locked t n h).2)
  · exact (hi.owns t n h).1
  · exact hi.alloc n (hi.publishes t n m h).1.mem_left
  · exact hi.alloc n (hi.publishes t m n h).1.mem_right

-- ============================================================================
-- Results
-- ============================================================================

theorem returnedBy_append {l : List (Nat × Option T)} (h : s'.results = s.results ++ l)
    (hl : ∀ r ∈ l, r.1 = t → r.2 = none) : returnedBy s' t = returnedBy s t := by
  have hnil : l.filterMap (fun r => if r.1 = t then r.2 else none) = [] := by
    refine List.filterMap_eq_nil_iff.mpr fun r hr => ?_
    split
    · next ht => exact hl r hr ht
    · rfl
  rw [returnedBy, returnedBy, h, List.filterMap_append, hnil, List.append_nil]

section Runs

variable [DecidableEq N]

/-- The state of a node that is about to be freed. -/
theorem CoreInv.free_unreachable (hi : CoreInv s) {j : Taken N T} {c : Choice}
    (hp : s.pc t = .free j) (hs : queue.step s (.step t c) = some s') :
    s.alloc j.old = true ∧ ¬ Reaches s' j.old := by
  refine ⟨(hi.owns t j.old (by rw [hp]; rfl)).1, fun hreach => ?_⟩
  have halloc := (step_coreInv hi hs).alloc_of_reaches hreach
  simp only [queue, stepThread, hp, Option.map_some, Option.some.injEq] at hs
  subst hs
  simp [State.tick, State.ret] at halloc

/-- `blocking_queue` is an exactly-once FIFO queue.  In every state of every
    run, at most one consumer has the head locked, the items taken are a prefix
    of the items pushed, every thread's calls returned the items the thread
    took, in order, but for the one it is about to return, and what is freed
    cannot be reached; a node is freed once, and when no thread can reach it;
    calls of a thread that returned nothing took nothing. -/
theorem queue_fifo :
    (∀ s : State N T, queue.Reachable s →
      (∀ t u h h', (s.pc t).locked = some h → (s.pc u).locked = some h' → t = u) ∧
      s.taken.map Prod.snd <+: s.pushed ∧
      (∀ t, takenBy s t = returnedBy s t ++ (s.pc t).carried) ∧
      (∀ n, Reaches s n → s.alloc n = true)) ∧
    (∀ (s s' : State N T) (t : Nat) (c : Choice) (j : Taken N T), queue.Reachable s →
      s.pc t = .free j → queue.step s (.step t c) = some s' →
        s.alloc j.old = true ∧ ¬ Reaches s' j.old) ∧
    (∀ (s s' : State N T) (t : Nat) (l : List (Nat × Option T)), queue.Reachable s →
      queue.Path (fun _ _ => True) s s' → s.pc t = .idle → s'.pc t = .idle →
      s'.results = s.results ++ l → (∀ r ∈ l, r.1 = t → r.2 = none) →
        takenBy s' t = takenBy s t) := by
  refine ⟨?_, ?_, ?_⟩
  · intro s hr
    have hi := reachable_coreInv hr
    exact ⟨fun t u h h' => hi.locked_unique, hi.taken_prefix, hi.carried,
      fun n => hi.alloc_of_reaches⟩
  · intro s s' t c j hr
    exact (reachable_coreInv hr).free_unreachable
  · intro s s' t l hr hpath hp hp' hres hl
    have hi := reachable_coreInv hr
    have hi' := reachable_coreInv (hpath.reachable hr)
    calc takenBy s' t = returnedBy s' t := hi'.takenBy_idle hp'
      _ = returnedBy s t := returnedBy_append hres hl
      _ = takenBy s t := (hi.takenBy_idle hp).symm

end Runs

end Coroactors.Queue
