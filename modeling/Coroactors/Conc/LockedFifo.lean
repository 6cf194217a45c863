/-
  Coroactors.Conc.LockedFifo

  A FIFO queue that is also a lock: what a mailbox with many producers and one
  consumer promises to its users.

  A push is made in two steps.  After `prepare` the item has its place in the
  queue but is in flight; `publish` finishes the push and says whether it
  locked the queue.  The owner of the lock pops.  A pop returns the first item,
  or returns nothing and unlocks: because the queue is empty, or, whatever it
  holds, because some push is in flight.  In that case the lock is promised to
  that push.

  Nothing here is about a particular program.
-/

import Mathlib.Data.List.Basic
import Mathlib.Data.List.Nodup
import Coroactors.Conc.System

namespace Coroactors.Conc

universe u

/-- The lock is held, is free, or goes to a push in flight. -/
inductive Lock (R : Type u) where
  | locked
  | free
  | promised (r : R)
deriving DecidableEq, Repr

structure LockedFifo (R : Type u) where
  /-- The items, oldest first. -/
  items : List R
  /-- The items whose push is in flight. -/
  flying : List R
  lock : Lock R
deriving DecidableEq, Repr

/-- How a pop ends: with the first item, or with nothing, where the lock is
    freed or promised. -/
inductive PopChoice (R : Type u) where
  | item
  | null (heir : Option R)
deriving DecidableEq, Repr

namespace LockedFifo

variable {R : Type u}

/-- An empty, unlocked queue. -/
def empty : LockedFifo R := ⟨[], [], .free⟩

variable [DecidableEq R]

/-- The first half of a push. -/
def prepare (m : LockedFifo R) (r : R) : LockedFifo R where
  items := m.items ++ [r]
  flying := r :: m.flying
  lock := if m.lock = .free then .promised r else m.lock

/-- The second half of a push, and whether it locked the queue. -/
def publish (m : LockedFifo R) (r : R) : LockedFifo R × Bool :=
  ({ m with
      flying := m.flying.erase r
      lock := if m.lock = .promised r then .locked else m.lock },
    m.lock = .promised r)

/-- The owner pops. -/
def pop (m : LockedFifo R) : PopChoice R → Option (LockedFifo R × Option R)
  | .item =>
      match m.items with
      | r :: rest => if r ∈ m.flying then none else some ({ m with items := rest }, some r)
      | [] => none
  | .null none => if m.items = [] then some ({ m with lock := .free }, none) else none
  | .null (some r) =>
      if r ∈ m.flying then some ({ m with lock := .promised r }, none) else none

/-- The outcomes of a pop. -/
theorem pop_cases {m m' : LockedFifo R} {k : PopChoice R} {o : Option R}
    (h : m.pop k = some (m', o)) :
    (∃ r rest, o = some r ∧ m.items = r :: rest ∧ r ∉ m.flying ∧ m' = { m with items := rest }) ∨
      o = none ∧ ∃ l, l ≠ .locked ∧ m' = { m with lock := l } := by
  rcases k with _ | _ | r <;> simp only [pop] at h
  · split at h
    · rename_i r rest hi
      split at h <;> cases h
      exact .inl ⟨r, rest, rfl, hi, by assumption, rfl⟩
    · cases h
  · split at h <;> cases h
    exact .inr ⟨rfl, .free, by simp, rfl⟩
  · split at h <;> cases h
    exact .inr ⟨rfl, .promised r, by simp, rfl⟩

-- ============================================================================
-- What the operations keep
-- ============================================================================

/-- What holds of a queue that started empty: what is in flight is in the queue,
    a free lock means an empty queue, and a promised one a push in flight. -/
structure Wf (m : LockedFifo R) : Prop where
  flying : m.flying ⊆ m.items
  nodup : m.flying.Nodup
  free : m.lock = .free → m.items = []
  promised : ∀ r, m.lock = .promised r → r ∈ m.flying

omit [DecidableEq R] in
theorem Wf.empty : Wf (empty : LockedFifo R) :=
  ⟨List.nil_subset _, List.nodup_nil, fun _ => rfl, fun _ h => by cases h⟩

theorem Wf.prepare {m : LockedFifo R} {r : R} (h : m.Wf) (hr : r ∉ m.items) : (m.prepare r).Wf := by
  refine ⟨?_, List.nodup_cons.mpr ⟨fun hf => hr (h.flying hf), h.nodup⟩, ?_, ?_⟩
  · intro x hx
    rcases List.mem_cons.mp hx with rfl | hx
    · exact List.mem_append_right _ (List.mem_singleton_self x)
    · exact List.mem_append_left _ (h.flying hx)
  · intro hl
    simp only [LockedFifo.prepare] at hl
    split at hl
    · cases hl
    next hnf => exact absurd hl hnf
  · intro x hl
    simp only [LockedFifo.prepare] at hl ⊢
    split at hl
    · cases hl
      exact List.mem_cons_self
    · exact List.mem_cons_of_mem _ (h.promised x hl)

theorem Wf.publish {m : LockedFifo R} {r : R} (h : m.Wf) : (m.publish r).1.Wf := by
  refine ⟨fun x hx => h.flying (List.mem_of_mem_erase hx), h.nodup.erase r, ?_, ?_⟩
  · intro hl
    simp only [LockedFifo.publish] at hl
    split at hl
    · cases hl
    · exact h.free hl
  · intro x hl
    simp only [LockedFifo.publish] at hl ⊢
    split at hl
    · cases hl
    next hne =>
      refine (List.mem_erase_of_ne ?_).mpr (h.promised x hl)
      rintro rfl
      exact hne hl

theorem Wf.pop {m m' : LockedFifo R} {k : PopChoice R} {o : Option R} (h : m.Wf)
    (hl : m.lock = .locked) (hp : m.pop k = some (m', o)) : m'.Wf := by
  rcases k with _ | _ | r <;> simp only [LockedFifo.pop] at hp
  · split at hp
    next r rest hi =>
      split at hp <;> cases hp
      next hr =>
        refine ⟨fun x hx => ?_, h.nodup, fun hf => ?_, h.promised⟩
        · have hmem := h.flying hx
          rw [hi] at hmem
          exact (List.mem_cons.mp hmem).resolve_left fun he => hr (he ▸ hx)
        · have hfree : m.lock = .free := hf
          rw [hl] at hfree
          cases hfree
    · cases hp
  · split at hp <;> cases hp
    next hi =>
      refine ⟨h.flying, h.nodup, fun _ => hi, fun _ hx => ?_⟩
      cases hx
  · split at hp <;> cases hp
    next hr =>
      refine ⟨h.flying, h.nodup, fun hx => ?_, fun x hx => ?_⟩
      · cases hx
      · cases hx
        exact hr

end LockedFifo

-- ============================================================================
-- Runs
-- ============================================================================

/-- What a push or a pop returned. -/
inductive FifoRet (R : Type u) where
  | push (r : R) (locked : Bool)
  | pop (r : Option R)
deriving DecidableEq, Repr

inductive FifoAct (R : Type u) where
  | prepare (r : R)
  | publish (r : R)
  | pop (k : PopChoice R)
deriving DecidableEq, Repr

/-- The queue with what its operations returned so far.  An item may be pushed
    again after it was popped. -/
def LockedFifo.queue (R : Type u) [DecidableEq R] :
    System (LockedFifo R × List (FifoRet R)) (FifoAct R) where
  init m := (∃ l, (l = .locked ∨ l = .free) ∧ m.1 = ⟨[], [], l⟩) ∧ m.2 = []
  step m
    | .prepare r => if r ∈ m.1.items then none else some (m.1.prepare r, m.2)
    | .publish r =>
        if r ∈ m.1.flying then
          some ((m.1.publish r).1, m.2 ++ [.push r (m.1.publish r).2])
        else none
    | .pop k =>
        if m.1.lock = .locked then
          (m.1.pop k).map fun p => (p.1, m.2 ++ [.pop p.2])
        else none

/-- The queue with a lock that can also be taken without a push; the push that
    it was promised to does not get it then. -/
def LockedFifo.lockable (R : Type u) [DecidableEq R] :
    System (LockedFifo R × List (FifoRet R)) (Option (FifoAct R)) where
  init := (queue R).init
  step m
    | some a => (queue R).step m a
    | none => if m.1.lock = .locked then none else some ({ m.1 with lock := .locked }, m.2)

end Coroactors.Conc
