/-
  Coroactors.IntrusivePtr.Model

  `intrusive_ptr` and `intrusive_atomic_base` (coroactors/intrusive_ptr.h): any
  number of pointers to any number of objects, used by any number of threads.

  A function of `intrusive_ptr` first changes the pointers that it is about, then
  adds to the counter of the new object, then releases the old one, and deletes
  it when it was the last to hold it.  The two changes of a counter and the
  deletion are steps of their own, and other threads may come in between.

  Pointers are not atomic: while a function changes a pointer no other thread
  uses it, and while one copies from it no other thread changes it.  A plain
  pointer that is passed in comes from `new`, from `get` of a pointer that stays
  as it is during the call, or from `detach`, and only in the last case without
  adding to the counter.

  A pointer that is not alive is taken as null: constructors assign to a null
  pointer, and the destructor is `reset`.  A counter is a natural number, and
  that of the code as long as fewer than 2^64 pointers, detached references and
  calls in progress have the object.  What the destructor of an object does to
  other pointers counts as another thread's doing.
-/

import Coroactors.Conc.Positions
import Coroactors.Conc.System

namespace Coroactors.IntrusivePtr

open Coroactors.Conc

/-- A pointer. -/
structure Slot (O : Type*) where
  ptr : Option O
  /-- What it points to was not counted yet; no step reads this. -/
  owed : Bool
deriving DecidableEq, Repr

/-- Where a thread is: in a function that changes pointer `p` and copies from
    `src`. -/
inductive Pc (P O : Type*) where
  | idle
  /-- Before `add_ref`, and before the release of `prev`. -/
  | add (p : P) (src : Option P) (o : O) (prev : Option O)
  /-- Before `release`. -/
  | release (p : P) (src : Option P) (o : O)
  /-- `intrusive_ptr_release`: before `delete`. -/
  | delete (p : P) (src : Option P) (o : O)
  /-- Before the function returns. -/
  | done (p : P) (src : Option P)
deriving DecidableEq, Repr

structure State (P O : Type*) where
  slot : P → Slot O
  refcount : O → Nat
  created : O → Bool
  /-- How often the object was deleted. -/
  deleted : O → Nat
  /-- The references that `detach` gave to its callers. -/
  raw : O → Nat
  pc : Nat → Pc P O
  /-- The thread that is changing a pointer. -/
  writer : P → Option Nat
  /-- How many threads are copying from a pointer. -/
  readers : P → Nat
  /-- The counter of a deleted object was used, or a counter went below zero. -/
  misused : Bool

inductive Act (P O : Type*) where
  /-- `intrusive_ptr(new T)`, `reset(new T)`. -/
  | construct (t : Nat) (p : P) (o : O)
  /-- The copy constructor and assignment, and `reset(r.get())`. -/
  | copy (t : Nat) (p r : P)
  /-- The move constructor and assignment. -/
  | move (t : Nat) (p r : P)
  /-- `reset()`, and the destructor. -/
  | reset (t : Nat) (p : P)
  /-- `intrusive_ptr(o, false)`, `reset(o, false)`. -/
  | adopt (t : Nat) (p : P) (o : O)
  | detach (t : Nat) (p : P)
  | swap (t : Nat) (p r : P)
  | step (t : Nat)
deriving DecidableEq, Repr

section Model

variable {P O : Type*}

def State.start : State P O where
  slot _ := ⟨none, false⟩
  refcount _ := 0
  created _ := false
  deleted _ := 0
  raw _ := 0
  pc _ := .idle
  writer _ := none
  readers _ := 0
  misused := false

variable [DecidableEq P] [DecidableEq O]

namespace State

/-- No thread uses the pointer. -/
def free (s : State P O) (p : P) : Bool := s.writer p = none && s.readers p = 0

def alive (s : State P O) (o : O) : Bool := s.created o && s.deleted o = 0

/-- Thread `t` enters a function that changes `p` and copies from `src`. -/
def enter (s : State P O) (t : Nat) (p : P) (src : Option P) (pc : Pc P O) : State P O :=
  { s with
    pc := Function.update s.pc t pc
    writer := Function.update s.writer p (some t)
    readers :=
      match src with
      | some r => Function.update s.readers r (s.readers r + 1)
      | none => s.readers }

/-- The function returns. -/
def leave (s : State P O) (t : Nat) (p : P) (src : Option P) : State P O :=
  { s with
    pc := Function.update s.pc t .idle
    writer := Function.update s.writer p none
    readers :=
      match src with
      | some r => Function.update s.readers r (s.readers r - 1)
      | none => s.readers }

def setSlot (s : State P O) (p : P) (v : Slot O) : State P O :=
  { s with slot := Function.update s.slot p v }

end State

/-- After `add_ref`: the old object is released, if there is one. -/
def Pc.after (p : P) (src : Option P) : Option O → Pc P O
  | some o => .release p src o
  | none => .done p src

/-- The pointer takes an object that is counted for it already, or none. -/
def State.assign (s : State P O) (t : Nat) (p : P) (new : Option O) : State P O :=
  (s.setSlot p ⟨new, false⟩).enter t p none (.after p none (s.slot p).ptr)

/-- The pointer takes an object for which `add_ref` has to be called. -/
def State.assignAdd (s : State P O) (t : Nat) (p : P) (src : Option P) (o : O) : State P O :=
  (s.setSlot p ⟨some o, true⟩).enter t p src (.add p src o (s.slot p).ptr)

/-- The next step of the function that thread `t` is in. -/
def stepThread (s : State P O) (t : Nat) : Option (State P O) :=
  match s.pc t with
  | .idle => none
  | .add p src o prev =>
      some { s with
        refcount := Function.update s.refcount o (s.refcount o + 1)
        slot := Function.update s.slot p ⟨(s.slot p).ptr, false⟩
        pc := Function.update s.pc t (.after p src prev)
        misused := s.misused || !s.alive o }
  | .release p src o =>
      some { s with
        refcount := Function.update s.refcount o (s.refcount o - 1)
        pc := Function.update s.pc t (if s.refcount o = 1 then .delete p src o else .done p src)
        misused := s.misused || !s.alive o || s.refcount o = 0 }
  | .delete p src o =>
      some { s with
        deleted := Function.update s.deleted o (s.deleted o + 1)
        pc := Function.update s.pc t (.done p src) }
  | .done p src => some (s.leave t p src)

/-- The pointers and their objects. -/
def pointers (P O : Type*) [DecidableEq P] [DecidableEq O] : System (State P O) (Act P O) where
  init s := s = .start
  step s
    | .construct t p o =>
        if s.pc t = .idle ∧ s.free p ∧ s.created o = false then
          some ({ s with created := Function.update s.created o true }.assignAdd t p none o)
        else none
    | .copy t p r =>
        if s.pc t = .idle ∧ s.free p ∧ (r = p ∨ s.writer r = none) then
          match (s.slot r).ptr with
          | some o => some (s.assignAdd t p (if r = p then none else some r) o)
          | none => some (s.assign t p none)
        else none
    | .move t p r =>
        if s.pc t = .idle ∧ s.free p ∧ s.free r then
          -- `this != &rhs`
          if r = p then some s
          else some ((s.setSlot r ⟨none, false⟩).assign t p (s.slot r).ptr)
        else none
    | .reset t p => if s.pc t = .idle ∧ s.free p then some (s.assign t p none) else none
    | .adopt t p o =>
        if s.pc t = .idle ∧ s.free p ∧ 0 < s.raw o then
          some ({ s with raw := Function.update s.raw o (s.raw o - 1) }.assign t p (some o))
        else none
    | .detach t p =>
        if s.pc t = .idle ∧ s.free p then
          match (s.slot p).ptr with
          | some o =>
              some ({ s with raw := Function.update s.raw o (s.raw o + 1) }.setSlot p ⟨none, false⟩)
          | none => some s
        else none
    | .swap t p r =>
        if s.pc t = .idle ∧ s.free p ∧ s.free r then
          some ((s.setSlot p (s.slot r)).setSlot r (s.slot p))
        else none
    | .step t => stepThread s t

end Model

-- ============================================================================
-- Who uses a pointer
-- ============================================================================

section Locks

variable {P O : Type*} [DecidableEq P]

def Pc.writes (p : P) : Pc P O → Bool
  | .idle => false
  | .add q .. | .release q .. | .delete q .. | .done q _ => q = p

def Pc.reads (p : P) : Pc P O → Bool
  | .idle => false
  | .add _ src .. | .release _ src _ | .delete _ src _ | .done _ src => src = some p

/-- Who changes a pointer is in a function that changes it, and as many threads
    copy from one as are in such a function; nobody changes what others copy. -/
structure Locks (s : State P O) : Prop where
  writer : ∀ p, Holds (Pc.writes p) (s.writer p) s.pc
  readers : ∀ p, Counted (Pc.reads p) (s.readers p) s.pc
  apart : ∀ p, s.readers p ≠ 0 → s.writer p = none

variable {s s' : State P O} {t : Nat} {p : P} {src : Option P} {q : Pc P O}

theorem Locks.start : Locks (State.start : State P O) :=
  ⟨fun _ t => by simp [State.start, Pc.writes],
    fun _ => ⟨[], List.nodup_nil, fun t => by simp [State.start, Pc.reads], rfl⟩, fun _ _ => rfl⟩

/-- A thread goes on in its function. -/
theorem Locks.move (h : Locks s) (hpc : s'.pc = Function.update s.pc t q)
    (hw : s'.writer = s.writer) (hr : s'.readers = s.readers)
    (hqw : ∀ p, q.writes p = (s.pc t).writes p) (hqr : ∀ p, q.reads p = (s.pc t).reads p) :
    Locks s' := by
  refine ⟨fun p => ?_, fun p => ?_, fun p => ?_⟩
  · rw [hpc, hw]
    exact (h.writer p).move (hqw p)
  · rw [hpc, hr]
    exact (h.readers p).move (hqr p)
  · rw [hw, hr]
    exact h.apart p

theorem Locks.not_reader (h : Locks s) (hr : s.readers p = 0) : (s.pc t).reads p = false := by
  by_contra hreads
  have hle := (h.readers p).length_le (List.nodup_singleton t) fun u hu => by
    rw [List.mem_singleton.mp hu]
    simpa using hreads
  simp only [List.length_singleton] at hle
  omega

theorem Locks.not_writer (h : Locks s) (hw : s.writer p = none) : (s.pc t).writes p = false := by
  by_contra hwrites
  have hsome := (h.writer p t).mpr (by simpa using hwrites)
  rw [hw] at hsome
  cases hsome

theorem enter_readers_of {r : P} (hr : src = some r) :
    (s.enter t p src q).readers r = s.readers r + 1 := by
  simp [State.enter, hr]

theorem enter_readers_of_ne {r : P} (hr : src ≠ some r) :
    (s.enter t p src q).readers r = s.readers r := by
  unfold State.enter
  cases src with
  | none => rfl
  | some x => exact Function.update_of_ne (fun he => hr (congrArg some he.symm)) _ _

theorem leave_readers_of {r : P} (hr : src = some r) :
    (s.leave t p src).readers r = s.readers r - 1 := by
  simp [State.leave, hr]

theorem leave_readers_of_ne {r : P} (hr : src ≠ some r) :
    (s.leave t p src).readers r = s.readers r := by
  unfold State.leave
  cases src with
  | none => rfl
  | some x => exact Function.update_of_ne (fun he => hr (congrArg some he.symm)) _ _

/-- A thread enters a function. -/
theorem Locks.enter (h : Locks s) (hidle : s.pc t = .idle) (hfree : s.free p = true)
    (hsrc : ∀ r, src = some r → r ≠ p ∧ s.writer r = none)
    (hqw : ∀ r, q.writes r = decide (p = r)) (hqr : ∀ r, q.reads r = decide (src = some r)) :
    Locks (s.enter t p src q) := by
  obtain ⟨hwriter, hreaders⟩ : s.writer p = none ∧ s.readers p = 0 := by
    simpa [State.free] using hfree
  refine ⟨fun r => ?_, fun r => ?_, fun r => ?_⟩
  · show Holds (Pc.writes r) (Function.update s.writer p (some t) r) (Function.update s.pc t q)
    by_cases hr : r = p
    · subst hr
      have hw := h.writer r
      rw [hwriter] at hw
      rw [Function.update_self]
      exact hw.lock (by rw [hqw]; simp)
    · rw [Function.update_of_ne hr]
      refine (h.writer r).move ?_
      rw [hqw, hidle]
      simpa [Pc.writes] using fun he : p = r => hr he.symm
  · show Counted (Pc.reads r) ((s.enter t p src q).readers r) (Function.update s.pc t q)
    by_cases hr : src = some r
    · rw [enter_readers_of hr]
      exact (h.readers r).enter (by rw [hidle]; rfl) (by rw [hqr]; simpa using hr)
    · rw [enter_readers_of_ne hr]
      refine (h.readers r).move ?_
      rw [hqr, hidle]
      simpa [Pc.reads] using hr
  · show (s.enter t p src q).readers r ≠ 0 → Function.update s.writer p (some t) r = none
    intro hne
    by_cases hr : src = some r
    · obtain ⟨hrp, hw⟩ := hsrc r hr
      rw [Function.update_of_ne hrp]
      exact hw
    · rw [enter_readers_of_ne hr] at hne
      have hrp : r ≠ p := by
        rintro rfl
        exact hne hreaders
      rw [Function.update_of_ne hrp]
      exact h.apart r hne

/-- A function returns. -/
theorem Locks.leave (h : Locks s) (hp : s.pc t = .done p src) : Locks (s.leave t p src) := by
  have hreaders : ∀ r, Counted (Pc.reads r) ((s.leave t p src).readers r)
      (Function.update s.pc t .idle) := by
    intro r
    by_cases hr : src = some r
    · rw [leave_readers_of hr]
      exact (h.readers r).leave (by rw [hp]; simpa [Pc.reads] using hr) rfl
    · rw [leave_readers_of_ne hr]
      refine (h.readers r).move ?_
      rw [hp]
      simpa [Pc.reads] using fun he => hr he
  refine ⟨fun r => ?_, hreaders, fun r => ?_⟩
  · show Holds (Pc.writes r) (Function.update s.writer p none r) (Function.update s.pc t .idle)
    by_cases hr : r = p
    · subst hr
      rw [Function.update_self]
      exact (h.writer r).unlock (by rw [hp]; simp [Pc.writes]) rfl
    · rw [Function.update_of_ne hr]
      refine (h.writer r).move ?_
      rw [hp]
      simpa [Pc.writes] using fun he : p = r => hr he.symm
  · show (s.leave t p src).readers r ≠ 0 → Function.update s.writer p none r = none
    intro hne
    by_cases hr : r = p
    · rw [hr, Function.update_self]
    · rw [Function.update_of_ne hr]
      refine h.apart r fun hzero => hne ?_
      unfold State.leave
      cases src with
      | none => exact hzero
      | some x =>
          show Function.update s.readers x (s.readers x - 1) r = 0
          by_cases hrx : r = x
          · subst hrx
            rw [Function.update_self, hzero]
          · rw [Function.update_of_ne hrx]
            exact hzero

end Locks

end Coroactors.IntrusivePtr
