/-
  Coroactors.Mailbox.Calls

  What one step of a thread inside `intrusive_mailbox`
  (coroactors/detail/intrusive_mailbox.h) means for a program that calls it:
  the call goes on, or it returns, and nobody else is moved.
-/

import Coroactors.Mailbox.Binding

namespace Coroactors.Mailbox

open Coroactors.Conc

variable {N : Type*} {s s' : State N} {t : Nat} {op : Op}

/-- In `push`. -/
def Pc.inPush : Pc N → Bool
  | .pushStore _ | .pushXchg _ | .publish _ _ => true
  | _ => false

/-- The event is a return from this operation. -/
def Event.Returns (t : Nat) : Op → Event N → Prop
  | .pop, e => ∃ r, e = .pop t r
  | .tryPop, e => ∃ r, e = .tryPop t r
  | .peek, e => ∃ r, e = .peek t r
  | .tryUnlock, e => ∃ b, e = .tryUnlock t b

/-- A step of a thread inside an operation. -/
inductive CallStep (s : State N) (t : Nat) (op : Op) (s' : State N) : Prop
  | inside : (s'.pc t).op = some op → s'.log = s.log → s'.owners = s.owners → CallStep s t op s'
  | returned (e : Event N) : s'.pc t = .idle → s'.log = s.log ++ [e] →
      s'.owners = e.owners s.owners → e.Returns t op → CallStep s t op s'
  | crashed : s'.pc t = .crashed → CallStep s t op s'

section Steps

variable [DecidableEq N] {a p : Ptr N} {w : Word N}

theorem CallStep.retSome : CallStep s t op (s.retSome t op a p) := by
  cases op with
  | pop => exact .returned _ (by simp [State.retSome, State.ret, State.goto]) rfl rfl ⟨_, rfl⟩
  | tryPop => exact .returned _ (by simp [State.retSome, State.ret, State.goto]) rfl rfl ⟨_, rfl⟩
  | peek => exact .returned _ (by simp [State.retSome, State.ret, State.goto]) rfl rfl ⟨_, rfl⟩
  | tryUnlock => exact .returned _ (by simp [State.retSome, State.ret, State.goto]) rfl rfl ⟨_, rfl⟩

omit [DecidableEq N] in
theorem CallStep.retNone : CallStep s t op (s.retNone t op) := by
  cases op with
  | pop => exact .returned _ (by simp [State.retNone, State.ret, State.goto]) rfl rfl ⟨_, rfl⟩
  | tryPop => exact .returned _ (by simp [State.retNone, State.ret, State.goto]) rfl rfl ⟨_, rfl⟩
  | peek => exact .returned _ (by simp [State.retNone, State.ret, State.goto]) rfl rfl ⟨_, rfl⟩
  | tryUnlock => exact .returned _ (by simp [State.retNone, State.ret, State.goto]) rfl rfl ⟨_, rfl⟩

theorem CallStep.finish : CallStep s t op (s.finish t op a w) := by
  cases w with
  | ptr p => exact .retSome
  | null | unlocked => exact .crashed (by simp [State.finish, State.goto, State.assert])

theorem CallStep.loaded : CallStep s t op (s.loaded t op a w) := by
  cases w with
  | null => exact .inside (by simp [State.loaded, State.goto, Pc.op]) rfl rfl
  | unlocked => exact .finish (a := a) (w := .unlocked)
  | ptr p => exact .finish (a := a) (w := .ptr p)

omit [DecidableEq N] in
theorem CallStep.removeStub : CallStep s t op (s.removeStub t op w) := by
  cases w with
  | ptr p => exact .inside (by simp [State.removeStub, State.goto, Pc.op]) rfl rfl
  | null | unlocked => exact .crashed (by simp [State.removeStub, State.goto, State.assert])

omit [DecidableEq N] in
theorem CallStep.blocked : CallStep s t op (s.blocked t op a) := by
  unfold State.blocked
  split
  · exact .inside (by simp [State.goto, Pc.op]) rfl rfl
  · exact .retNone

theorem stepThread_call (hs : stepThread s t = some s') (hop : (s.pc t).op = some op) :
    CallStep s t op s' := by
  cases hp : s.pc t <;> rw [hp] at hop <;> simp only [stepThread, hp] at hs <;> cases hop
  case load =>
      split at hs
      · split at hs <;> cases hs
        · split
          · exact .inside (by simp [State.goto, Pc.op]) rfl rfl
          · exact .retNone
        · exact .removeStub
      · cases hs
        exact .loaded
  case stubCas =>
      split at hs <;> cases hs
      · have hc : CallStep (s.setNext .stub .unlocked) t op
            ((s.setNext .stub .unlocked).retNone t op) := .retNone
        obtain h | h | h := hc
        · exact .inside ‹_› ‹_› ‹_›
        · exact .returned _ ‹_› ‹_› ‹_› ‹_›
        · exact .crashed ‹_›
      · exact .removeStub
  case stubRemove p | stubAssert p =>
      cases hs
      exact .inside (by simp [State.goto, State.assert, Pc.op]) rfl rfl
  case headLoad p =>
      cases hs
      exact .loaded
  case tailLoad p =>
      split at hs <;> cases hs
      · exact .inside (by simp [State.goto, Pc.op]) rfl rfl
      · exact .blocked
  case tailCas p =>
      split at hs <;> cases hs
      · exact .inside (by simp [State.goto, Pc.op]) rfl rfl
      · exact .blocked
  case linkStub p =>
      cases hs
      have hc : CallStep (s.setNext p (.ptr .stub)) t op
          ((s.setNext p (.ptr .stub)).retSome t op p .stub) := .retSome
      obtain h | h | h := hc
      · exact .inside ‹_› ‹_› ‹_›
      · exact .returned _ ‹_› ‹_› ‹_› ‹_›
      · exact .crashed ‹_›
  case headCas p =>
      split at hs <;> cases hs
      · have hc : CallStep (s.setNext p .unlocked) t op
            ((s.setNext p .unlocked).retNone t op) := .retNone
        obtain h | h | h := hc
        · exact .inside ‹_› ‹_› ‹_›
        · exact .returned _ ‹_› ‹_› ‹_› ‹_›
        · exact .crashed ‹_›
      · exact .finish

/-- A step of a thread inside `push`. -/
theorem stepThread_push (hs : stepThread s t = some s') (hp : (s.pc t).inPush = true) :
    ((s'.pc t).inPush = true ∧ s'.log = s.log ∧ s'.owners = s.owners) ∨
      ∃ n b, s'.pc t = .idle ∧ s'.log = s.log ++ [.push t n b] ∧
        s'.owners = (Event.push t n b).owners s.owners := by
  cases hq : s.pc t <;> rw [hq] at hp <;> simp only [stepThread, hq] at hs <;> cases hp
  case pushStore n =>
      cases hs
      exact .inl ⟨by simp [State.goto, Pc.inPush], rfl, rfl⟩
  case pushXchg n =>
      cases hs
      exact .inl ⟨by simp [State.goto, Pc.inPush], rfl, rfl⟩
  case publish b n =>
      cases hs
      exact .inr ⟨n, _, by simp [State.ret, State.goto], rfl, rfl⟩

/-- Only the position of thread `t` differs. -/
def Moves (s : State N) (t : Nat) (s' : State N) : Prop := ∃ q, s'.pc = Function.update s.pc t q

theorem moves_retSome : Moves s t (s.retSome t op a p) := by
  cases op <;> exact ⟨_, rfl⟩

omit [DecidableEq N] in
theorem moves_retNone : Moves s t (s.retNone t op) := by
  cases op <;> exact ⟨_, rfl⟩

theorem moves_finish : Moves s t (s.finish t op a w) := by
  cases w with
  | ptr p => exact moves_retSome
  | null | unlocked => exact ⟨_, rfl⟩

theorem moves_loaded : Moves s t (s.loaded t op a w) := by
  cases w with
  | null => exact ⟨_, rfl⟩
  | unlocked =>
      have h : Moves s t (s.finish t op a .unlocked) := moves_finish
      exact h
  | ptr p =>
      have h : Moves s t (s.finish t op a (.ptr p)) := moves_finish
      exact h

omit [DecidableEq N] in
theorem moves_removeStub : Moves s t (s.removeStub t op w) := by
  cases w <;> exact ⟨_, rfl⟩

omit [DecidableEq N] in
theorem moves_blocked : Moves s t (s.blocked t op a) := by
  unfold State.blocked
  split
  · exact ⟨_, rfl⟩
  · exact moves_retNone

/-- A step moves only the thread that makes it. -/
theorem stepThread_moves (hs : stepThread s t = some s') : Moves s t s' := by
  cases hp : s.pc t <;> simp only [stepThread, hp] at hs
  case idle | crashed => cases hs
  case pushStore | pushXchg | publish | stubRemove | stubAssert =>
      cases hs
      exact ⟨_, rfl⟩
  case tryLock =>
      split at hs <;> cases hs <;> exact ⟨_, rfl⟩
  case load op =>
      split at hs
      · split at hs <;> cases hs
        · split
          · exact ⟨_, rfl⟩
          · exact moves_retNone
        · exact moves_removeStub
      · cases hs
        exact moves_loaded
  case stubCas op =>
      split at hs <;> cases hs
      · exact moves_retNone (s := s.setNext .stub .unlocked)
      · exact moves_removeStub
  case headLoad op b =>
      cases hs
      exact moves_loaded
  case tailLoad op b =>
      split at hs <;> cases hs
      · exact ⟨_, rfl⟩
      · exact moves_blocked
  case tailCas op b =>
      split at hs <;> cases hs
      · exact ⟨_, rfl⟩
      · exact moves_blocked
  case linkStub op b =>
      cases hs
      exact moves_retSome (s := s.setNext b (.ptr .stub))
  case headCas op b =>
      split at hs <;> cases hs
      · exact moves_retNone (s := s.setNext b .unlocked)
      · exact moves_finish

theorem stepThread_pc (hs : stepThread s t = some s') {u : Nat} (hu : u ≠ t) :
    s'.pc u = s.pc u := by
  obtain ⟨q, hq⟩ := stepThread_moves hs
  rw [hq, Function.update_of_ne hu]

end Steps

end Coroactors.Mailbox
