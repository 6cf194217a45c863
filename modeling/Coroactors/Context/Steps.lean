/-
  Coroactors.Context.Steps

  What a thread can do next in a call on contexts: the branches of
  `async_context_manager` (coroactors/detail/async_context.h), one constructor
  each, with what a push or a pop found.
-/

import Coroactors.Context.Model

namespace Coroactors.Context

open Coroactors.Conc

/-- The thread that makes the step. -/
def Act.thread {R C : Type*} : Act R C → Nat
  | .enter t _ _ _ | .transfer t _ _ _ _ | .leave t _ | .preempt t _ _ | .step t _ | .run t _ => t

section Steps

variable {R C S : Type*} [DecidableEq R] [DecidableEq C]

/-- A push in flight ends, and `t` owns the context. -/
def State.lockBox (s : State R C S) (t : Nat) (c : C) (r : R) : State R C S :=
  { s with
    box := Function.update s.box c ⟨(s.box c).items, (s.box c).flying.erase r, .locked⟩
    owned := Function.update s.owned t (c :: s.owned t)
    owner := Function.update s.owner c (.thread t) }

/-- A push in flight ends, and the context belongs to somebody else. -/
def State.fillBox (s : State R C S) (c : C) (r : R) : State R C S :=
  { s with
    box := Function.update s.box c ⟨(s.box c).items, (s.box c).flying.erase r, (s.box c).lock⟩ }

/-- `t` takes the first runnable of its context. -/
def State.takeBox (s : State R C S) (t : Nat) (c : C) (next : R) (rest : List R) : State R C S :=
  { (s.move next (.carried t)) with
    box := Function.update s.box c { s.box c with items := rest } }

/-- `t` unlocks its context. -/
def State.unlockBox (s : State R C S) (t : Nat) (c : C) (l : Lock R) : State R C S :=
  { s with
    box := Function.update s.box c { s.box c with lock := l }
    owned := Function.update s.owned t ((s.owned t).erase c)
    owner := Function.update s.owner c .nobody }

/-- The next step of thread `t`. -/
inductive ThreadStep [DecidableEq S] (sched : C → S) (s : State R C S) (t : Nat) :
    State R C S → Prop
  | enterPush {c r i} (hp : s.pc t = .enterPush c r i) :
      ThreadStep sched s t ((s.pushPrepare c r).goto t (.enterPublish c r i))
  | enterLock {c r i} (hp : s.pc t = .enterPublish c r i) (hl : (s.box c).lock = .promised r) :
      ThreadStep sched s t ((s.lockBox t c r).goto t (.enterPop c r i))
  | enterFill {c r i} (hp : s.pc t = .enterPublish c r i) (hl : (s.box c).lock ≠ .promised r) :
      ThreadStep sched s t ((s.fillBox c r).ret t r (some c) false)
  | enterTake {c r i next rest} (hp : s.pc t = .enterPop c r i)
      (hi : (s.box c).items = next :: rest) (hf : next ∉ (s.box c).flying) :
      ThreadStep sched s t ((s.takeBox t c next rest).goto t (.enterNext c r i next))
  | enterUnlock {c r i l} (hp : s.pc t = .enterPop c r i) (hl : l ≠ .locked) :
      ThreadStep sched s t ((s.unlockBox t c l).ret t r (some c) false)
  | enterSchedule {c r i next} (how : How) (hp : s.pc t = .enterNext c r i next) :
      ThreadStep sched s t ((s.schedule sched how t c next).ret t r (some c) false)
  | enterTrue {c r i} (hp : s.pc t = .enterNext c r i r) :
      ThreadStep sched s t (s.ret t r (some c) true)
  | sameSchedule {c r} (how : How) (hp : s.pc t = .same c r) :
      ThreadStep sched s t ((s.schedule sched how t c r).ret t r (some c) false)
  | sameTrue {c r} (hp : s.pc t = .same c r) :
      ThreadStep sched s t (s.ret t r (some c) true)
  | preempt {c r} (how : How) (hp : s.pc t = .preempt c r) :
      ThreadStep sched s t ((s.schedule sched how t c r).ret t r (some c) false)
  | leaveTake {c after next rest} (hp : s.pc t = .leavePop c after)
      (hi : (s.box c).items = next :: rest) (hf : next ∉ (s.box c).flying) :
      ThreadStep sched s t ((s.takeBox t c next rest).goto t (.leavePost c next after))
  | leaveUnlock {c after l} (hp : s.pc t = .leavePop c after) (hl : l ≠ .locked) :
      ThreadStep sched s t ((s.unlockBox t c l).left t after)
  | leavePost {c next after} (hp : s.pc t = .leavePost c next after) :
      ThreadStep sched s t ((s.schedule sched .post t c next).left t after)
  | transferTake {c x next rest} (hp : s.pc t = .transferPop c x)
      (hi : (s.box c).items = next :: rest) (hf : next ∉ (s.box c).flying) :
      ThreadStep sched s t
        ((s.takeBox t c next rest).goto t (.transferPush { x with more := some next }))
  | transferUnlock {c x l} (hp : s.pc t = .transferPop c x) (hl : l ≠ .locked) :
      ThreadStep sched s t ((s.unlockBox t c l).goto t (.transferPush { x with more := none }))
  | transferPush {x} (hp : s.pc t = .transferPush x) :
      ThreadStep sched s t ((s.pushPrepare x.toContext x.r).goto t (.transferPublish x))
  | transferLock {x} (hp : s.pc t = .transferPublish x)
      (hl : (s.box x.toContext).lock = .promised x.r) :
      ThreadStep sched s t ((s.lockBox t x.toContext x.r).goto t (.transferNextPop x))
  | transferFill {x} (hp : s.pc t = .transferPublish x)
      (hl : (s.box x.toContext).lock ≠ .promised x.r) :
      ThreadStep sched s t ((s.fillBox x.toContext x.r).thenMore t .defer x false)
  | transferNextTake {x next rest} (hp : s.pc t = .transferNextPop x)
      (hi : (s.box x.toContext).items = next :: rest) (hf : next ∉ (s.box x.toContext).flying) :
      ThreadStep sched s t ((s.takeBox t x.toContext next rest).goto t (.transferNext x next))
  | transferNextUnlock {x l} (hp : s.pc t = .transferNextPop x) (hl : l ≠ .locked) :
      ThreadStep sched s t ((s.unlockBox t x.toContext l).thenMore t .defer x false)
  | transferSchedule {x next} (how how' : How) (hp : s.pc t = .transferNext x next) :
      ThreadStep sched s t
        ((s.schedule sched how t x.toContext next).thenMore t how' x false)
  | transferTrue {x} (hp : s.pc t = .transferNext x x.r) :
      ThreadStep sched s t (s.thenMore t .post x true)
  | transferMore {how c more x result} (hp : s.pc t = .transferMore how c more x result) :
      ThreadStep sched s t
        ((s.schedule sched how t c more).ret t x.r (some x.toContext) result)

variable {s s' : State R C S} {t : Nat} {c : C} {r : R}

theorem pushPublish_cases :
    ((s.box c).lock = .promised r ∧ s.pushPublish t c r = (s.lockBox t c r, true)) ∨
      (s.box c).lock ≠ .promised r ∧ s.pushPublish t c r = (s.fillBox c r, false) := by
  by_cases hl : (s.box c).lock = .promised r
  · exact .inl ⟨hl, by simp [State.pushPublish, LockedFifo.publish, hl, State.lockBox]⟩
  · exact .inr ⟨hl, by simp [State.pushPublish, LockedFifo.publish, hl, State.fillBox]⟩

theorem nextRunnable_cases {k : PopChoice R} {o : Option R}
    (hs : s.nextRunnable t c k = some (s', o)) :
    (∃ next rest, o = some next ∧ (s.box c).items = next :: rest ∧
      next ∉ (s.box c).flying ∧ s' = s.takeBox t c next rest) ∨
    o = none ∧ ∃ l, l ≠ .locked ∧ s' = s.unlockBox t c l := by
  unfold State.nextRunnable at hs
  split at hs <;> cases hs <;> rename_i m hpop
  · obtain ⟨_, rest, ⟨⟩, hi, hf, rfl⟩ | ⟨h, -⟩ := LockedFifo.pop_cases hpop
    · exact .inl ⟨_, rest, rfl, hi, hf, rfl⟩
    · cases h
  · obtain ⟨_, _, h, -⟩ | ⟨-, l, hl, rfl⟩ := LockedFifo.pop_cases hpop
    · cases h
    · exact .inr ⟨rfl, l, hl, rfl⟩

/-- Every step of a thread is one of these. -/
theorem stepThread_cases [DecidableEq S] {sched : C → S} {k : Choice R}
    (hs : stepThread sched s t k = some s') : ThreadStep sched s t s' := by
  cases hp : s.pc t <;> simp only [stepThread, hp] at hs
  case idle => cases hs
  case enterPush c r i =>
    cases hs
    exact .enterPush hp
  case enterPublish c r i =>
    obtain ⟨hl, he⟩ | ⟨hl, he⟩ := pushPublish_cases (s := s) (t := t) (c := c) (r := r) <;>
      rw [he] at hs <;> cases hs
    · exact .enterLock hp hl
    · exact .enterFill hp hl
  case enterPop c r i =>
    split at hs <;> cases hs <;> rename_i he
    · obtain ⟨_, _, ⟨⟩, -⟩ | ⟨-, l, hl, rfl⟩ := nextRunnable_cases he
      exact .enterUnlock hp hl
    · obtain ⟨next, rest, ⟨⟩, hi, hf, rfl⟩ | ⟨⟨⟩, -⟩ := nextRunnable_cases he
      exact .enterTake hp hi hf
  case enterNext c r i next =>
    split at hs
    · cases hs
      exact .enterSchedule .post hp
    · split at hs
      · rename_i how _
        cases hs
        exact .enterSchedule how hp
      · split at hs <;> cases hs <;> rename_i hne
        · exact .enterSchedule .defer hp
        · obtain rfl : next = r := not_not.mp hne
          exact .enterTrue hp
  case same c r =>
    split at hs <;> cases hs
    · exact .sameSchedule _ hp
    · exact .sameTrue hp
  case preempt c r =>
    split at hs <;> cases hs
    exact .preempt _ hp
  case leavePop c after =>
    split at hs <;> cases hs <;> rename_i he
    · obtain ⟨_, _, ⟨⟩, -⟩ | ⟨-, l, hl, rfl⟩ := nextRunnable_cases he
      exact .leaveUnlock hp hl
    · obtain ⟨next, rest, ⟨⟩, hi, hf, rfl⟩ | ⟨⟨⟩, -⟩ := nextRunnable_cases he
      exact .leaveTake hp hi hf
  case leavePost c next after =>
    cases hs
    exact .leavePost hp
  case transferPop c x =>
    split at hs <;> cases hs
    rename_i he
    obtain ⟨next, rest, rfl, hi, hf, rfl⟩ | ⟨rfl, l, hl, rfl⟩ := nextRunnable_cases he
    · exact .transferTake hp hi hf
    · exact .transferUnlock hp hl
  case transferPush x =>
    cases hs
    exact .transferPush hp
  case transferPublish x =>
    obtain ⟨hl, he⟩ | ⟨hl, he⟩ :=
        pushPublish_cases (s := s) (t := t) (c := x.toContext) (r := x.r) <;>
      rw [he] at hs <;> cases hs
    · exact .transferLock hp hl
    · exact .transferFill hp hl
  case transferNextPop x =>
    split at hs <;> cases hs <;> rename_i he
    · obtain ⟨_, _, ⟨⟩, -⟩ | ⟨-, l, hl, rfl⟩ := nextRunnable_cases he
      exact .transferNextUnlock hp hl
    · obtain ⟨next, rest, ⟨⟩, hi, hf, rfl⟩ | ⟨⟨⟩, -⟩ := nextRunnable_cases he
      exact .transferNextTake hp hi hf
  case transferNext x next =>
    split at hs
    · cases hs
      exact .transferSchedule .post .defer hp
    · split at hs
      · rename_i how _
        cases hs
        exact .transferSchedule how .post hp
      · split at hs <;> cases hs
        · rename_i he
          subst he
          exact .transferTrue hp
        · exact .transferSchedule .defer .post hp
  case transferMore how c more x result =>
    cases hs
    exact .transferMore hp

end Steps

end Coroactors.Context
