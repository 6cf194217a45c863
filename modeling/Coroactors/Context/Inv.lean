/-
  Coroactors.Context.Inv

  The invariant of the contexts: every runnable that is pending has one place,
  and every locked context has one owner.

  `Core` ties `place` and `owner` to the mailboxes, the queues, the contexts
  the threads own and what the threads have in hand.  What a thread has in hand
  is a parameter of `Core`, so that each operation has one lemma, whichever
  call it is part of; in `Inv` it is what the thread's position says.
-/

import Coroactors.Context.Model
import Mathlib.Data.List.Nodup
import Mathlib.Tactic.Common

namespace Coroactors.Context

open Coroactors.Conc

variable {R C S : Type*} {s s' : State R C S} {t : Nat}

-- ============================================================================
-- What a thread has in hand
-- ============================================================================

/-- The runnable passed to a call that has not pushed it yet. -/
def Pc.submitting : Pc R C → Option R
  | .enterPush _ r _ | .same _ r | .preempt _ r => some r
  | .leavePop _ after | .leavePost _ _ after => after
  | .transferPop _ x | .transferPush x => some x.r
  | _ => none

/-- The runnables popped and not yet posted, deferred or returned to. -/
def Pc.carried : Pc R C → List R
  | .enterNext _ _ _ next | .leavePost _ next _ => [next]
  | .transferPush x | .transferPublish x | .transferNextPop x => x.more.toList
  | .transferNext x next => next :: x.more.toList
  | .transferMore _ _ more x result => (if result then [x.r] else []) ++ [more]
  | _ => []

/-- The context and runnable of a push in flight. -/
def Pc.pushing : Pc R C → Option (C × R)
  | .enterPublish c r _ => some (c, r)
  | .transferPublish x => some (x.toContext, x.r)
  | _ => none

/-- What the threads have in hand. -/
structure Hands (R C : Type*) where
  submitting : Nat → Option R
  carried : Nat → List R
  pushing : Nat → Option (C × R)

def State.hands (s : State R C S) : Hands R C where
  submitting t := (s.pc t).submitting
  carried t := (s.pc t).carried
  pushing t := (s.pc t).pushing

/-- A thread has something else in hand. -/
def Hands.set (h : Hands R C) (t : Nat) (a : Option R) (b : List R) (c : Option (C × R)) :
    Hands R C where
  submitting := Function.update h.submitting t a
  carried := Function.update h.carried t b
  pushing := Function.update h.pushing t c

theorem hands_goto (q : Pc R C) :
    (s.goto t q).hands = s.hands.set t q.submitting q.carried q.pushing := by
  unfold State.hands Hands.set State.goto
  congr 1 <;> funext u <;> by_cases hu : u = t <;> simp [hu]

-- ============================================================================
-- The invariant
-- ============================================================================

structure Core (sched : C → S) (s : State R C S) (h : Hands R C) : Prop where
  items : ∀ c r, r ∈ (s.box c).items ↔ s.place r = .mailbox c
  itemsNodup : ∀ c, (s.box c).items.Nodup
  queue : ∀ q, ∀ e ∈ s.queue q, q = sched e.context ∧ s.place e.runnable = .queue q ∧
    s.owner e.context = .entry e.runnable
  queueNodup : ∀ q, ((s.queue q).map Entry.runnable).Nodup
  queued : ∀ r q, s.place r = .queue q → ∃ e ∈ s.queue q, e.runnable = r
  entry : ∀ c r, s.owner c = .entry r → ∃ e ∈ s.queue (sched c), e.runnable = r ∧ e.context = c
  carried : ∀ t r, r ∈ h.carried t ↔ s.place r = .carried t
  carriedNodup : ∀ t, (h.carried t).Nodup
  submitting : ∀ t r, h.submitting t = some r ↔ s.place r = .submitting t
  pushing : ∀ t c r, h.pushing t = some (c, r) →
    r ∈ (s.box c).flying ∧ s.place r = .mailbox c ∧ s.status r = .submitted t
  owned : ∀ t c, c ∈ s.owned t ↔ s.owner c = .thread t
  ownedNodup : ∀ t, (s.owned t).Nodup
  lock : ∀ c, (s.box c).lock = .locked ↔ s.owner c ≠ .nobody
  done : ∀ r, s.status r = .done ↔ s.place r = .nowhere
  submitted : ∀ t r, s.place r = .submitting t → s.status r = .submitted t

section Core

variable [DecidableEq R] [DecidableEq C] {sched : C → S} {h : Hands R C} {c : C} {r : R}

attribute [local grind] Hands.set
attribute [local grind =] Function.update_apply

/-- A runnable that was submitted is put into a mailbox. -/
theorem Core.pushPrepare (hc : Core sched s h) (hs : h.submitting t = some r) :
    Core sched (s.pushPrepare c r) (h.set t none (h.carried t) (some (c, r))) := by
  have hplace := (hc.submitting t r).mp hs
  have hstat := hc.submitted t r hplace
  obtain ⟨h1, h2, h3, h4, h5, h6, h7, h8, h9, h10, h11, h12, h13, h14, h15⟩ := hc
  constructor <;>
    simp only [State.pushPrepare, State.move, LockedFifo.prepare, Hands.set] <;> grind -linarith

/-- The push in flight ends and locks the mailbox. -/
theorem Core.pushPublish_locks (hc : Core sched s h) (hp : h.pushing t = some (c, r))
    (hl : (s.box c).lock = .promised r) :
    Core sched { s with
      box := Function.update s.box c ⟨(s.box c).items, (s.box c).flying.erase r, .locked⟩
      owned := Function.update s.owned t (c :: s.owned t)
      owner := Function.update s.owner c (.thread t) }
      (h.set t (h.submitting t) (h.carried t) none) := by
  have hpush := hc.pushing t c r hp
  obtain ⟨h1, h2, h3, h4, h5, h6, h7, h8, h9, h10, h11, h12, h13, h14, h15⟩ := hc
  have hlock := h13 c
  constructor <;> simp only [Hands.set] <;> grind -linarith

/-- The push in flight ends and finds the mailbox locked or promised. -/
theorem Core.pushPublish_enqueues (hc : Core sched s h) (hp : h.pushing t = some (c, r)) :
    Core sched { s with
      box := Function.update s.box c ⟨(s.box c).items, (s.box c).flying.erase r, (s.box c).lock⟩ }
      (h.set t (h.submitting t) (h.carried t) none) := by
  have hpush := hc.pushing t c r hp
  obtain ⟨h1, h2, h3, h4, h5, h6, h7, h8, h9, h10, h11, h12, h13, h14, h15⟩ := hc
  constructor <;> simp only [Hands.set] <;> grind -linarith

/-- The owner pops a runnable. -/
theorem Core.nextRunnable_some {k : PopChoice R} {next : R} (hc : Core sched s h)
    (hs : s.nextRunnable t c k = some (s', some next)) :
    Core sched s' (h.set t (h.submitting t) (next :: h.carried t) (h.pushing t)) ∧
      s'.owned = s.owned := by
  unfold State.nextRunnable at hs
  split at hs
  · cases hs
  · rename_i m r hpop
    cases hs
    obtain ⟨_, rest, ⟨⟩, hi, hf, rfl⟩ | ⟨h, -⟩ := LockedFifo.pop_cases hpop
    · refine ⟨?_, rfl⟩
      have hplace := (hc.items c next).mp (by simp [hi])
      have hnd := hc.itemsNodup c
      have hmem := hc.items c
      rw [hi] at hnd hmem
      obtain ⟨h1, h2, h3, h4, h5, h6, h7, h8, h9, h10, h11, h12, h13, h14, h15⟩ := hc
      constructor <;> simp only [State.move, Hands.set] <;> grind -linarith
    · cases h
  · cases hs

/-- The owner's pop unlocks the context. -/
theorem Core.nextRunnable_none {k : PopChoice R} (hc : Core sched s h) (ht : c ∈ s.owned t)
    (hs : s.nextRunnable t c k = some (s', none)) :
    Core sched s' h ∧ s'.owned = Function.update s.owned t ((s.owned t).erase c) := by
  unfold State.nextRunnable at hs
  split at hs
  · cases hs
  · cases hs
  · rename_i m hpop
    cases hs
    obtain ⟨_, _, h, -⟩ | ⟨-, l, hl, rfl⟩ := LockedFifo.pop_cases hpop
    · cases h
    · refine ⟨?_, rfl⟩
      have hown := (hc.owned t c).mp ht
      have hnd := hc.ownedNodup
      obtain ⟨h1, h2, h3, h4, h5, h6, h7, h8, h9, h10, h11, h12, h13, h14, h15⟩ := hc
      constructor <;> grind -linarith

/-- What is left in hand when the runnable `r` is gone. -/
def Hands.drop (h : Hands R C) (t : Nat) (r : R) : Hands R C :=
  h.set t (if h.submitting t = some r then none else h.submitting t) ((h.carried t).erase r)
    (h.pushing t)

/-- A runnable the thread has in hand is posted or deferred, and with it the
    context the thread owns. -/
theorem Core.schedule [DecidableEq S] {how : How} (hc : Core sched s h) (ht : c ∈ s.owned t)
    (hr : r ∈ h.carried t ∨ h.submitting t = some r) :
    Core sched (s.schedule sched how t c r) (h.drop t r) := by
  have hown := (hc.owned t c).mp ht
  have hplace : s.place r = .carried t ∨ s.place r = .submitting t :=
    hr.imp (hc.carried t r).mp (hc.submitting t r).mp
  have hnd := hc.ownedNodup
  have hcnd := hc.carriedNodup t
  have hnot : ∀ q, ∀ e ∈ s.queue q, e.runnable ≠ r := by
    rintro q e he rfl
    have := (hc.queue q e he).2.1
    simp [this] at hplace
  have hmem : ∀ q e, e ∈ (s.schedule sched how t c r).queue q ↔
      e ∈ s.queue q ∨ (q = sched c ∧ e = ⟨how, r, c⟩) := by
    intro q e
    by_cases hq : q = sched c <;> simp [State.schedule, State.move, hq]
  obtain ⟨h1, h2, h3, h4, h5, h6, h7, h8, h9, h10, h11, h12, h13, h14, h15⟩ := hc
  constructor
  case queueNodup =>
    intro q
    have := h4 q
    have := hnot q
    simp only [State.schedule, State.move]
    by_cases hq : q = sched c
    · subst hq
      rw [Function.update_self, List.map_append, List.nodup_append_comm, List.map_singleton,
        List.singleton_append, List.nodup_cons]
      refine ⟨?_, h4 _⟩
      intro hm
      obtain ⟨e, he, hr⟩ := List.mem_map.mp hm
      exact hnot _ e he hr
    · rw [Function.update_of_ne hq]
      exact h4 q
  case queued =>
    intro x q hx
    by_cases hxr : x = r
    · subst hxr
      obtain rfl : q = sched c := by simpa [State.schedule, State.move, eq_comm] using hx
      exact ⟨⟨how, x, c⟩, (hmem _ _).mpr (.inr ⟨rfl, rfl⟩), rfl⟩
    · obtain ⟨e, he, her⟩ := h5 x q (by simpa [State.schedule, State.move, hxr] using hx)
      exact ⟨e, (hmem _ _).mpr (.inl he), her⟩
  case entry =>
    intro d x hx
    by_cases hd : d = c
    · subst hd
      obtain rfl : x = r := by simpa [State.schedule, State.move, eq_comm] using hx
      exact ⟨⟨how, x, d⟩, (hmem _ _).mpr (.inr ⟨rfl, rfl⟩), rfl, rfl⟩
    · obtain ⟨e, he, her⟩ := h6 d x (by simpa [State.schedule, State.move, hd] using hx)
      exact ⟨e, (hmem _ _).mpr (.inl he), her⟩
  all_goals
    simp only [State.schedule, State.move, Hands.drop, Hands.set]
    grind -linarith

omit [DecidableEq C] in
/-- A call returns false. -/
theorem Core.ret_false {b : Option C} (hc : Core sched s h) (hs : h.submitting t = none)
    (hp : h.pushing t = none) : Core sched (s.ret t r b false) h := by
  have hplace : (s.ret t r b false).place = s.place := rfl
  have hstat : ∀ x, (s.ret t r b false).status x =
      if x = r ∧ s.status r = .submitted t then .waiting else s.status x := by
    intro x
    by_cases hr : s.status r = .submitted t <;> by_cases hx : x = r <;>
      simp [State.ret, hr, hx]
  refine ⟨hc.items, hc.itemsNodup, hc.queue, hc.queueNodup, hc.queued, hc.entry, hc.carried,
    hc.carriedNodup, hc.submitting, ?_, hc.owned, hc.ownedNodup, hc.lock, ?_, ?_⟩
  · intro u d x hx
    have := hc.pushing u d x hx
    refine ⟨this.1, this.2.1, ?_⟩
    rw [hstat, if_neg]
    · exact this.2.2
    · rintro ⟨rfl, hr⟩
      rw [hr, Status.submitted.injEq] at this
      rw [← this.2.2, hp] at hx
      cases hx
  · intro x
    have := hc.done x
    grind -linarith
  · intro u x hx
    have := hc.submitted u x hx
    rw [hstat, if_neg]
    · exact this
    · rintro ⟨rfl, hr⟩
      rw [hr, Status.submitted.injEq] at this
      have hsub := (hc.submitting u x).mpr hx
      rw [← this, hs] at hsub
      cases hsub

omit [DecidableEq C] in
theorem ret_true_eq {b : Option C} :
    s.ret t r b true = { (s.goto t .idle) with
      log := s.log ++ [⟨t, r, b, true⟩]
      place := Function.update s.place r .nowhere
      status := Function.update s.status r .done } := rfl

omit [DecidableEq C] in
/-- A call returns true with the runnable it has in hand. -/
theorem Core.ret_true {b : Option C} (hc : Core sched s h)
    (hr : r ∈ h.carried t ∨ h.submitting t = some r) :
    Core sched (s.ret t r b true) (h.drop t r) := by
  have hplace : s.place r = .carried t ∨ s.place r = .submitting t :=
    hr.imp (hc.carried t r).mp (hc.submitting t r).mp
  have hcnd := hc.carriedNodup t
  obtain ⟨h1, h2, h3, h4, h5, h6, h7, h8, h9, h10, h11, h12, h13, h14, h15⟩ := hc
  rw [ret_true_eq]
  constructor <;> simp only [State.goto, Hands.drop, Hands.set] <;> grind -linarith

omit [DecidableEq C] in
/-- A call returns true at once with a runnable that was never submitted. -/
theorem Core.ret_done {b : Option C} (hc : Core sched s h) (hr : s.status r = .done) :
    Core sched (s.ret t r b true) h := by
  have hplace := (hc.done r).mp hr
  have hs : s.ret t r b true = { (s.goto t .idle) with log := s.log ++ [⟨t, r, b, true⟩] } := by
    rw [ret_true_eq, ← hr, ← hplace, Function.update_eq_self, Function.update_eq_self]
    rfl
  rw [hs]
  exact ⟨hc.items, hc.itemsNodup, hc.queue, hc.queueNodup, hc.queued, hc.entry, hc.carried,
    hc.carriedNodup, hc.submitting, hc.pushing, hc.owned, hc.ownedNodup, hc.lock, hc.done,
    hc.submitted⟩

omit [DecidableEq C] in
/-- A runnable is submitted. -/
theorem Core.submit {q : Pc R C} (hc : Core sched s h) (hr : s.status r = .done)
    (hs : h.submitting t = none) :
    Core sched (s.submit t r q) (h.set t (some r) (h.carried t) (h.pushing t)) := by
  have hplace := (hc.done r).mp hr
  obtain ⟨h1, h2, h3, h4, h5, h6, h7, h8, h9, h10, h11, h12, h13, h14, h15⟩ := hc
  constructor <;> simp only [State.submit, State.goto, State.move, Hands.set] <;> grind -linarith

/-- A runnable is taken from its queue and run by a thread, which owns the
    context then. -/
theorem Core.run [DecidableEq S] {e : Entry R C} (hc : Core sched s h)
    (he : e ∈ s.queue (sched e.context)) :
    Core sched { (s.move e.runnable .nowhere) with
      queue := Function.update s.queue (sched e.context) ((s.queue (sched e.context)).erase e)
      owned := Function.update s.owned t (e.context :: s.owned t)
      owner := Function.update s.owner e.context (.thread t)
      status := Function.update s.status e.runnable .done } h := by
  obtain ⟨-, hplace, hown⟩ := hc.queue _ e he
  have hnd : (s.queue (sched e.context)).Nodup := (hc.queueNodup _).of_map
  have hmem : ∀ q e', e' ∈ Function.update s.queue (sched e.context)
      ((s.queue (sched e.context)).erase e) q ↔ e' ∈ s.queue q ∧ e' ≠ e := by
    intro q e'
    by_cases hq : q = sched e.context
    · subst hq
      rw [Function.update_self, hnd.mem_erase_iff, and_comm]
    · rw [Function.update_of_ne hq, iff_self_and]
      rintro he' rfl
      exact hq (hc.queue q _ he').1
  have hrun : ∀ q e', e' ∈ s.queue q → e' ≠ e → e'.runnable ≠ e.runnable := by
    intro q e' he' hne hr
    obtain ⟨hq, hp, -⟩ := hc.queue q e' he'
    rw [hr, hplace, Place.queue.injEq] at hp
    subst hp
    exact hne (List.inj_on_of_nodup_map (hc.queueNodup _) he' he hr)
  have hctx : ∀ q e', e' ∈ s.queue q → e' ≠ e → e'.context ≠ e.context := by
    intro q e' he' hne hcx
    have := (hc.queue q e' he').2.2
    rw [hcx, hown, Owner.entry.injEq] at this
    exact hrun q e' he' hne this.symm
  constructor
  case queue =>
    intro q e' he'
    obtain ⟨he', hne⟩ := (hmem q e').mp he'
    obtain ⟨hq, hp, ho⟩ := hc.queue q e' he'
    refine ⟨hq, ?_, ?_⟩
    · simpa [State.move, hrun q e' he' hne] using hp
    · simpa [hctx q e' he' hne] using ho
  case queueNodup =>
    intro q
    simp only
    by_cases hq : q = sched e.context
    · rw [hq, Function.update_self]
      exact (hc.queueNodup _).sublist (List.erase_sublist.map _)
    · rw [Function.update_of_ne hq]
      exact hc.queueNodup q
  case queued =>
    intro x q hx
    by_cases hxr : x = e.runnable
    · simp [State.move, hxr] at hx
    · obtain ⟨e', he', rfl⟩ := hc.queued x q (by simpa [State.move, hxr] using hx)
      exact ⟨e', (hmem q e').mpr ⟨he', by rintro rfl; exact hxr rfl⟩, rfl⟩
  case entry =>
    intro d x hx
    by_cases hd : d = e.context
    · simp [hd] at hx
    · obtain ⟨e', he', hr, rfl⟩ := hc.entry d x (by simpa [hd] using hx)
      exact ⟨e', (hmem _ e').mpr ⟨he', by rintro rfl; exact hd rfl⟩, hr, rfl⟩
  case itemsNodup => exact hc.itemsNodup
  case carriedNodup => exact hc.carriedNodup
  all_goals
    clear hmem hrun hctx hnd
    obtain ⟨h1, -, -, -, -, -, h7, -, h9, h10, h11, h12, h13, h14, h15⟩ := hc
    simp only [State.move]
    grind -linarith

end Core

-- ============================================================================
-- Positions
-- ============================================================================

/-- A transfer that leaves one context for another and still owns the first if
    it took a runnable from it. -/
def Transfer.Ok (own : List C) (x : Transfer R C) : Prop :=
  x.fromContext ≠ some x.toContext ∧ (x.more ≠ none → ∃ c ∈ own, x.fromContext = some c)

/-- The contexts a thread owns at a position. -/
def PcOk (own : List C) : Pc R C → Prop
  | .idle | .enterPush _ _ _ | .enterPublish _ _ _ => True
  | .enterPop c _ _ | .enterNext c _ _ _ => c ∈ own
  | .same c _ | .preempt c _ => c ∈ own
  | .leavePop c _ | .leavePost c _ _ => c ∈ own
  | .transferPop c x => c ∈ own ∧ x.fromContext = some c ∧ x.fromContext ≠ some x.toContext
  | .transferPush x | .transferPublish x => x.Ok own
  | .transferNextPop x | .transferNext x _ => x.Ok own ∧ x.toContext ∈ own
  | .transferMore _ c _ x result =>
      c ∈ own ∧ c ≠ x.toContext ∧ (result = true → x.toContext ∈ own)

structure Inv (sched : C → S) (s : State R C S) : Prop where
  core : Core sched s s.hands
  pc : ∀ t, PcOk (s.owned t) (s.pc t)

variable {sched : C → S} {h : Hands R C}

/-- `Core` does not read the positions. -/
theorem Core.goto {q : Pc R C} (hc : Core sched s h)
    (hh : h = s.hands.set t q.submitting q.carried q.pushing) :
    Core sched (s.goto t q) (s.goto t q).hands := by
  rw [hands_goto, ← hh]
  exact ⟨hc.items, hc.itemsNodup, hc.queue, hc.queueNodup, hc.queued, hc.entry, hc.carried,
    hc.carriedNodup, hc.submitting, hc.pushing, hc.owned, hc.ownedNodup, hc.lock, hc.done,
    hc.submitted⟩

/-- The other threads stay where they are and keep their contexts. -/
def Only (t : Nat) (s s' : State R C S) : Prop :=
  ∀ u, u ≠ t → s'.pc u = s.pc u ∧ s'.owned u = s.owned u

theorem Only.refl : Only t s s := fun _ _ => ⟨rfl, rfl⟩

theorem Only.goto {q : Pc R C} (h : Only t s s') : Only t s (s'.goto t q) := by
  intro u hu
  obtain ⟨h1, h2⟩ := h u hu
  exact ⟨by simp [State.goto, hu, h1], h2⟩

/-- A step of thread `t`. -/
theorem Inv.of_step (hi : Inv sched s) (hc : Core sched s' s'.hands) (ho : Only t s s')
    (hok : PcOk (s'.owned t) (s'.pc t)) : Inv sched s' := by
  refine ⟨hc, fun u => ?_⟩
  by_cases hu : u = t
  · rw [hu]
    exact hok
  · rw [(ho u hu).1, (ho u hu).2]
    exact hi.pc u

@[simp] theorem pc_goto {q : Pc R C} : (s.goto t q).pc t = q := by simp [State.goto]

theorem Inv.goto {q : Pc R C} {s₁ : State R C S} (hi : Inv sched s) (hc : Core sched s₁ h)
    (ho : Only t s s₁) (hh : h = s₁.hands.set t q.submitting q.carried q.pushing)
    (hok : PcOk (s₁.owned t) q) : Inv sched (s₁.goto t q) :=
  hi.of_step (hc.goto hh) ho.goto (by rw [pc_goto]; exact hok)

theorem Hands.set_self (a : Option R) (b : List R) (d : Option (C × R))
    (h1 : h.submitting t = a) (h2 : h.carried t = b) (h3 : h.pushing t = d) :
    h.set t a b d = h := by
  subst h1 h2 h3
  simp [Hands.set]

/-- An idle thread has nothing in hand. -/
theorem Inv.hands_idle (hp : s.pc t = .idle) : s.hands.set t none [] none = s.hands :=
  Hands.set_self _ _ _ (by simp [State.hands, hp, Pc.submitting])
    (by simp [State.hands, hp, Pc.carried]) (by simp [State.hands, hp, Pc.pushing])

theorem Transfer.Ok.mono {own own' : List C} {x : Transfer R C} (h : x.Ok own)
    (hle : ∀ c ∈ own, c ≠ x.toContext → c ∈ own') : x.Ok own' := by
  refine ⟨h.1, fun hm => ?_⟩
  obtain ⟨c, hc, hf⟩ := h.2 hm
  refine ⟨c, hle c hc ?_, hf⟩
  rintro rfl
  exact h.1 hf

theorem start_inv : Inv sched (State.start : State R C S) := by
  refine ⟨?_, fun t => trivial⟩
  constructor <;> simp [State.start, State.hands, LockedFifo.empty, Pc.carried, Pc.submitting,
    Pc.pushing]

section Steps

variable [DecidableEq R] {c : C} {r : R}

theorem hands_ret {b : Option C} {res : Bool} :
    (s.ret t r b res).hands = s.hands.set t none [] none := hands_goto .idle

/-- A call returns. -/
theorem Inv.ret {b : Option C} {res : Bool} {s₁ : State R C S} (hi : Inv sched s)
    (hc : Core sched (s₁.ret t r b res) h) (ho : Only t s s₁)
    (hh : h = s₁.hands.set t none [] none) : Inv sched (s₁.ret t r b res) := by
  refine hi.of_step (t := t) ?_ ?_ ?_
  · rw [hands_ret, ← hh]
    exact hc
  · intro u hu
    obtain ⟨h1, h2⟩ := ho u hu
    exact ⟨by simp [State.ret, State.goto, hu, h1], h2⟩
  · simp [State.ret, State.goto, PcOk]

theorem Hands.drop_set {a : Option R} {l l' : List R} {x : R} {d : Option (C × R)}
    (hl : l.erase x = l') (ha : a ≠ some x) : (h.set t a l d).drop t x = h.set t a l' d := by
  simp [Hands.drop, Hands.set, hl, ha]

theorem Hands.drop_set_submitting {l : List R} {x : R} {d : Option (C × R)} (hl : x ∉ l) :
    (h.set t (some x) l d).drop t x = h.set t none l d := by
  simp [Hands.drop, Hands.set, List.erase_of_not_mem hl]

/-- A call returns true with the only runnable it has in hand. -/
theorem Inv.retTrue {s₁ : State R C S} {b : Option C} (hi : Inv sched s)
    (hc : Core sched s₁ h) (ho : Only t s s₁)
    (hh : h = s₁.hands.set t none [r] none ∨ h = s₁.hands.set t (some r) [] none) :
    Inv sched (s₁.ret t r b true) := by
  rcases hh with rfl | rfl
  · refine hi.ret (hc.ret_true (.inl (by simp [Hands.set]))) ho ?_
    exact Hands.drop_set (by simp) (by simp)
  · refine hi.ret (hc.ret_true (.inr (by simp [Hands.set]))) ho ?_
    exact Hands.drop_set_submitting (by simp)

theorem Inv.submit {q : Pc R C} (hi : Inv sched s) (hp : s.pc t = .idle)
    (hr : s.status r = .done) (hq1 : q.submitting = some r) (hq2 : q.carried = [])
    (hq3 : q.pushing = none) (hok : PcOk (s.owned t) q) : Inv sched (s.submit t r q) := by
  have hc := hi.core.submit (t := t) (q := q) hr (by simp [State.hands, hp, Pc.submitting])
  have h2 : s.hands.carried t = [] := by simp [State.hands, hp, Pc.carried]
  have h3 : s.hands.pushing t = none := by simp [State.hands, hp, Pc.pushing]
  rw [h2, h3] at hc
  have hh : (s.submit t r q).hands = s.hands.set t (some r) [] none := by
    rw [← hq1, ← hq2, ← hq3]
    exact hands_goto q
  refine hi.of_step (t := t) (hh ▸ hc) ?_ ?_
  · exact fun u hu => ⟨by simp [State.submit, State.goto, State.move, hu], rfl⟩
  · simpa [State.submit, State.goto, State.move] using hok

theorem Inv.retDone {b : Option C} (hi : Inv sched s) (hp : s.pc t = .idle)
    (hr : s.status r = .done) : Inv sched (s.ret t r b true) :=
  hi.ret (hi.core.ret_done hr) .refl (Inv.hands_idle hp).symm

/-- `do_leave` ends. -/
theorem Inv.left {s₁ : State R C S} {after : Option R} (hi : Inv sched s) (hc : Core sched s₁ h)
    (ho : Only t s s₁) (hh : h = s₁.hands.set t after [] none) : Inv sched (s₁.left t after) := by
  cases after with
  | none => exact hi.goto hc ho hh trivial
  | some x => exact hi.retTrue hc ho (.inr hh)

/-- `do_transfer` ends, after `more` was posted or deferred. -/
theorem Inv.thenMore {s₁ : State R C S} {how : How} {x : Transfer R C} {result : Bool}
    (hi : Inv sched s) (hc : Core sched s₁ h) (ho : Only t s s₁)
    (hh : h = s₁.hands.set t none ((if result then [x.r] else []) ++ x.more.toList) none)
    (hx : x.Ok (s₁.owned t)) (hres : result = true → x.toContext ∈ s₁.owned t) :
    Inv sched (s₁.thenMore t how x result) := by
  obtain ⟨hne, hmore⟩ := hx
  cases hm : x.more with
  | none =>
      have hs : s₁.thenMore t how x result = s₁.ret t x.r (some x.toContext) result := by
        unfold State.thenMore
        cases x.fromContext <;> simp [hm]
      rw [hs]
      rw [hm] at hh
      cases result with
      | false =>
          refine hi.ret (hc.ret_false ?_ ?_) ho (by simpa using hh)
          all_goals simp [hh, Hands.set]
      | true => exact hi.retTrue hc ho (.inl (by simpa using hh))
  | some m =>
      obtain ⟨c, hcown, hfrom⟩ := hmore (by simp [hm])
      have hs : s₁.thenMore t how x result = s₁.goto t (.transferMore how c m x result) := by
        simp [State.thenMore, hm, hfrom]
      rw [hs]
      rw [hm] at hh
      refine hi.goto hc ho hh ⟨hcown, ?_, hres⟩
      rintro rfl
      exact hne hfrom

variable [DecidableEq C]

/-- The second half of a push, as the thread that makes it sees it. -/
theorem Core.publish_spec (hc : Core sched s h) (hp : h.pushing t = some (c, r)) :
    ∃ s₁ b, s.pushPublish t c r = (s₁, b) ∧
      Core sched s₁ (h.set t (h.submitting t) (h.carried t) none) ∧ Only t s s₁ ∧
      s₁.hands = s.hands ∧ s₁.owned t = if b then c :: s.owned t else s.owned t := by
  by_cases hl : (s.box c).lock = .promised r
  · refine ⟨_, true, ?_, hc.pushPublish_locks hp hl, fun u hu => ⟨rfl, ?_⟩, rfl, ?_⟩
    · simp [State.pushPublish, LockedFifo.publish, hl]
    · simp [hu]
    · simp
  · refine ⟨_, false, ?_, hc.pushPublish_enqueues hp, fun u hu => ⟨rfl, rfl⟩, rfl, rfl⟩
    simp [State.pushPublish, LockedFifo.publish, hl]

/-- A pop, as the owner that makes it sees it. -/
theorem Core.pop_spec {k : PopChoice R} {o : Option R} (hc : Core sched s h) (ht : c ∈ s.owned t)
    (hs : s.nextRunnable t c k = some (s', o)) :
    Core sched s' (h.set t (h.submitting t) (o.toList ++ h.carried t) (h.pushing t)) ∧
      Only t s s' ∧ s'.hands = s.hands ∧
      s'.owned t = if o = none then (s.owned t).erase c else s.owned t := by
  have hpc : s'.pc = s.pc := by
    unfold State.nextRunnable at hs
    split at hs <;> cases hs <;> rfl
  have hhands : s'.hands = s.hands := by
    unfold State.hands
    rw [hpc]
  cases o with
  | none =>
      obtain ⟨hc', hown⟩ := hc.nextRunnable_none ht hs
      refine ⟨?_, fun u hu => ⟨by rw [hpc], by simp [hown, hu]⟩, hhands, by simp [hown]⟩
      simpa [Hands.set] using hc'
  | some next =>
      obtain ⟨hc', hown⟩ := hc.nextRunnable_some hs
      exact ⟨hc', fun u hu => ⟨by rw [hpc], by rw [hown]⟩, hhands, by simp [hown]⟩

theorem Only.schedule [DecidableEq S] {how : How} : Only t s (s.schedule sched how t c r) :=
  fun u hu => ⟨rfl, by simp [State.schedule, State.move, hu]⟩

/-- A thread posts or defers what it has in hand, and returns false. -/
theorem Inv.scheduleRet [DecidableEq S] {how : How} {x : R} {b : Option C} (hi : Inv sched s)
    (hown : c ∈ s.owned t) (hpush : (s.pc t).pushing = none)
    (hx : (s.pc t).carried = [x] ∧ (s.pc t).submitting = none ∨
      (s.pc t).carried = [] ∧ (s.pc t).submitting = some x) :
    Inv sched ((s.schedule sched how t c x).ret t r b false) := by
  have h1 : s.hands.submitting t = (s.pc t).submitting := rfl
  have h2 : s.hands.carried t = (s.pc t).carried := rfl
  have h3 : s.hands.pushing t = (s.pc t).pushing := rfl
  have hmem : x ∈ s.hands.carried t ∨ s.hands.submitting t = some x := by
    rw [h1, h2]
    rcases hx with ⟨hc, -⟩ | ⟨-, hs⟩
    · simp [hc]
    · exact .inr hs
  have hdrop : s.hands.drop t x = s.hands.set t none [] none := by
    unfold Hands.drop
    rw [h1, h2, h3, hpush]
    rcases hx with ⟨hc, hs⟩ | ⟨hc, hs⟩ <;> simp [hc, hs]
  refine hi.ret (hdrop ▸ (hi.core.schedule hown hmem).ret_false ?_ ?_) .schedule rfl
  all_goals simp [hdrop, Hands.set]

theorem stepThread_inv [DecidableEq S] {k : Choice R} (hi : Inv sched s)
    (hs : stepThread sched s t k = some s') : Inv sched s' := by
  have hok := hi.pc t
  have hc := hi.core
  have h1 : s.hands.submitting t = (s.pc t).submitting := rfl
  have h2 : s.hands.carried t = (s.pc t).carried := rfl
  have h3 : s.hands.pushing t = (s.pc t).pushing := rfl
  have hself : s.hands.set t (s.pc t).submitting (s.pc t).carried (s.pc t).pushing = s.hands :=
    Hands.set_self _ _ _ h1 h2 h3
  cases hp : s.pc t <;> simp only [stepThread, hp] at hs <;> rw [hp] at hok h1 h2 h3 hself
  case enterPush d x initial =>
    cases hs
    exact hi.goto (hc.pushPrepare h1) .refl (by rw [h2]; rfl) trivial
  case enterPublish d x initial =>
    obtain ⟨s₁, b, he, hc', ho, hh, hown⟩ := hc.publish_spec h3
    rw [h1, h2] at hc'
    rw [he] at hs
    cases b <;> cases hs
    · exact hi.ret (hc'.ret_false (by simp [Hands.set, Pc.submitting]) (by simp [Hands.set])) ho
        (by rw [hh]; rfl)
    · exact hi.goto hc' ho (by rw [hh]; rfl) (by simp [PcOk, hown])
  case enterPop d x initial =>
    split at hs
    · cases hs
    all_goals
      rename_i he
      obtain ⟨hc', ho, hh, hown⟩ := hc.pop_spec hok he
      rw [h1, h2, h3] at hc'
      cases hs
    · exact hi.ret (hc'.ret_false (by simp [Hands.set, Pc.submitting])
        (by simp [Hands.set, Pc.pushing])) ho (by rw [hh]; rfl)
    · exact hi.goto hc' ho (by rw [hh]; rfl) (by simpa [PcOk, hown] using hok)
  case enterNext d x initial next =>
    have hsched : ∀ how, Inv sched ((s.schedule sched how t d next).ret t x (some d) false) :=
      fun how => hi.scheduleRet hok (by rw [hp]; rfl) (.inl (by rw [hp]; exact ⟨rfl, rfl⟩))
    split at hs
    · cases hs
      exact hsched _
    · split at hs
      · cases hs
        exact hsched _
      · split at hs <;> cases hs
        · exact hsched _
        · rename_i hne
          obtain rfl : next = x := by simpa using hne
          exact hi.retTrue hc .refl (.inl hself.symm)
  case same d x =>
    split at hs <;> cases hs
    · exact hi.scheduleRet hok (by rw [hp]; rfl) (.inr (by rw [hp]; exact ⟨rfl, rfl⟩))
    · exact hi.retTrue hc .refl (.inr hself.symm)
  case preempt d x =>
    split at hs <;> cases hs
    exact hi.scheduleRet hok (by rw [hp]; rfl) (.inr (by rw [hp]; exact ⟨rfl, rfl⟩))
  case leavePop d after =>
    split at hs
    · cases hs
    all_goals
      rename_i he
      obtain ⟨hc', ho, hh, hown⟩ := hc.pop_spec hok he
      rw [h1, h2, h3] at hc'
      cases hs
    · exact hi.left hc' ho (by rw [hh]; rfl)
    · exact hi.goto hc' ho (by rw [hh]; rfl) (by simpa [PcOk, hown] using hok)
  case leavePost d next after =>
    cases hs
    have hne : after ≠ some next := by
      rintro rfl
      have hsub := (hc.submitting t next).mp h1
      have hcar := (hc.carried t next).mp (by rw [h2]; exact List.mem_singleton_self _)
      rw [hsub] at hcar
      cases hcar
    refine hi.left (hc.schedule hok (.inl (by rw [h2]; exact List.mem_singleton_self _)))
      .schedule ?_
    conv_lhs => rw [← hself]
    exact Hands.drop_set (by simp [Pc.carried]) hne
  case transferPop d x =>
    obtain ⟨hown, hfrom, hne⟩ := hok
    split at hs
    · cases hs
    · rename_i o he
      obtain ⟨hc', ho, hh, hown'⟩ := hc.pop_spec hown he
      rw [h1, h2, h3] at hc'
      cases hs
      refine hi.goto hc' ho (by rw [hh]; simp [Pc.carried, Pc.submitting, Pc.pushing]) ⟨hne, ?_⟩
      intro hm
      refine ⟨d, ?_, hfrom⟩
      rw [hown', if_neg hm]
      exact hown
  case transferPush x =>
    cases hs
    exact hi.goto (hc.pushPrepare h1) .refl (by rw [h2]; rfl) hok
  case transferPublish x =>
    obtain ⟨s₁, b, he, hc', ho, hh, hown⟩ := hc.publish_spec h3
    rw [h1, h2] at hc'
    rw [he] at hs
    cases b <;> cases hs
    · exact hi.thenMore hc' ho (by rw [hh]; rfl) (by rw [hown]; exact hok) (by simp)
    · refine hi.goto hc' ho (by rw [hh]; rfl) ⟨Transfer.Ok.mono hok ?_, ?_⟩
      · intro c hm _
        simp [hown, hm]
      · simp [hown]
  case transferNextPop x =>
    obtain ⟨hx, hto⟩ := hok
    split at hs
    · cases hs
    all_goals
      rename_i he
      obtain ⟨hc', ho, hh, hown⟩ := hc.pop_spec hto he
      rw [h1, h2, h3] at hc'
      cases hs
    · refine hi.thenMore hc' ho (by rw [hh]; rfl) (hx.mono ?_) (by simp)
      intro c hm hne
      simpa [hown, hne] using hm
    · exact hi.goto hc' ho (by rw [hh]; rfl) (by simpa [PcOk, hown] using ⟨hx, hto⟩)
  case transferNext x next =>
    obtain ⟨hx, hto⟩ := hok
    have hsched : ∀ how how', Inv sched
        ((s.schedule sched how t x.toContext next).thenMore t how' x false) := by
      intro how how'
      refine hi.thenMore (hc.schedule hto (.inl (by rw [h2]; simp [Pc.carried]))) .schedule ?_
        (hx.mono ?_) (by simp)
      · conv_lhs => rw [← hself]
        exact Hands.drop_set (by simp [Pc.carried]) (by simp [Pc.submitting])
      · intro c hm hne
        simpa [State.schedule, State.move, hne] using hm
    split at hs
    · cases hs
      exact hsched _ _
    · split at hs
      · cases hs
        exact hsched _ _
      · split at hs <;> cases hs
        · rename_i hnext
          subst hnext
          exact hi.thenMore hc .refl hself.symm hx fun _ => hto
        · exact hsched _ _
  case transferMore how d more x result =>
    obtain ⟨hown, hne, hres⟩ := hok
    cases hs
    cases result with
    | false => exact hi.scheduleRet hown (by rw [hp]; rfl) (.inl (by rw [hp]; exact ⟨rfl, rfl⟩))
    | true =>
        have hnd := hc.carriedNodup t
        rw [h2] at hnd
        have hnr : x.r ≠ more := by simpa [Pc.carried] using hnd
        refine hi.retTrue (hc.schedule hown (.inl (by rw [h2]; simp [Pc.carried]))) .schedule (.inl ?_)
        conv_lhs => rw [← hself]
        refine Hands.drop_set ?_ (by simp [Pc.submitting])
        simp [Pc.carried, hnr]
  all_goals cases hs

-- ============================================================================
-- Every run
-- ============================================================================

theorem startTransfer_inv {a b : Option C} {returning : Bool} (hi : Inv sched s)
    (hp : s.pc t = .idle) (hown : ∀ c ∈ a, c ∈ s.owned t) (hr : s.status r = .done) :
    Inv sched (startTransfer s t a b r returning) := by
  unfold startTransfer
  split
  · rename_i hab
    subst hab
    split
    · split
      · exact hi.submit hp hr rfl rfl rfl (hown _ rfl)
      · exact hi.retDone hp hr
    · exact hi.retDone hp hr
  · rename_i hab
    split
    · exact hi.submit hp hr rfl rfl rfl (hown _ rfl)
    · exact hi.retDone hp hr
    · exact hi.submit hp hr rfl rfl rfl ⟨hown _ rfl, rfl, hab⟩
    · exact hi.submit hp hr rfl rfl rfl ⟨hab, by simp⟩

theorem step_inv [DecidableEq S] {a : Act R C} (hi : Inv sched s)
    (hs : (contexts sched).step s a = some s') : Inv sched s' := by
  cases a <;> simp only [contexts] at hs
  case enter t c r initial =>
    split at hs
    · rename_i hc
      split at hs <;> cases hs
      · exact hi.retDone hc.1 hc.2
      · exact hi.submit hc.1 hc.2 rfl rfl rfl trivial
    · cases hs
  case transfer t a b r returning =>
    split at hs <;> cases hs
    rename_i hc
    exact startTransfer_inv hi hc.1 hc.2.1 hc.2.2
  case leave t c =>
    split at hs
    · rename_i hc
      split at hs <;> cases hs
      · exact hi
      · exact hi.goto hi.core .refl (Inv.hands_idle hc.1).symm (hc.2 _ rfl)
    · cases hs
  case preempt t c r =>
    split at hs
    · rename_i hc
      split at hs <;> cases hs
      · exact hi.retDone hc.1 hc.2.2
      · exact hi.submit hc.1 hc.2.2 rfl rfl rfl (hc.2.1 _ rfl)
    · cases hs
  case step t k => exact stepThread_inv hi hs
  case run t e =>
    split at hs <;> cases hs
    rename_i hc
    refine hi.of_step (t := t) (hi.core.run hc.2) ?_ ?_
    · exact fun u hu => ⟨rfl, by simp [hu]⟩
    · simp only [State.move, hc.1]
      trivial

theorem reachable_inv [DecidableEq S] (h : (contexts sched).Reachable s) : Inv sched s :=
  h.invariant (fun _ hi => hi ▸ start_inv) fun _ _ _ hi _ hs => step_inv hi hs

end Steps

end Coroactors.Context
