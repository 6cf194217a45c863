/-
  Coroactors.Context.Yield

  `async_context_manager::do_yield` (coroactors/detail/async_context.h), next
  to the other calls on contexts.

  A yield pushes its runnable into the mailbox of its own context, pops the
  next runnable, and posts or defers the runnable it was called with, not the
  one it popped.  These are the same one exactly when the mailbox was empty at
  the push.  If it was not, the popped runnable is in no place any more and the
  other one is in two.  A pop that finds nothing, because a push in front is in
  flight, unlocks the context and the yield is in order.
-/

import Coroactors.Context.Isolation
import Coroactors.Context.Steps

namespace Coroactors.Context

open Coroactors.Conc

-- ============================================================================
-- Model
-- ============================================================================

section Model

variable {R C S : Type*}

/-- Contexts with threads that may be in a yield.  A thread in `do_yield` has
    the positions of `do_enter`: before `push_runnable`, between its halves,
    before `next_runnable`, and with the next runnable in hand. -/
structure YState (R C S : Type*) where
  base : State R C S
  yielding : Nat → Bool
  /-- The mailbox of the context when the thread called `yield`; no step reads
      it. -/
  before : Nat → List R
  assertFailed : Bool

def YState.start : YState R C S where
  base := .start
  yielding _ := false
  before _ := []
  assertFailed := false

inductive YAct (R C : Type*) where
  /-- A step of a thread that is not in a yield. -/
  | other (a : Act R C)
  | yield (t : Nat) (c : Option C) (r : R)
  /-- The next step of a yield. -/
  | step (t : Nat) (choice : Choice R)
deriving DecidableEq, Repr

def YAct.thread : YAct R C → Nat
  | .other a => a.thread
  | .yield t _ _ | .step t _ => t

variable [DecidableEq R] [DecidableEq C] [DecidableEq S] (sched : C → S)

/-- The next step of thread `t` in `do_yield`. -/
def stepYield (y : YState R C S) (t : Nat) (k : Choice R) : Option (YState R C S) :=
  let s := y.base
  match s.pc t with
  | .enterPush c r i => some { y with base := (s.pushPrepare c r).goto t (.enterPublish c r i) }
  | .enterPublish c r i =>
      match s.pushPublish t c r with
      | (s, locked) =>
          some { y with
            base := s.goto t (.enterPop c r i)
            assertFailed := y.assertFailed || locked }
  | .enterPop c r i =>
      match s.nextRunnable t c k.pop with
      | none => none
      | some (s, none) =>
          some { y with
            base := s.ret t r (some c) false
            yielding := Function.update y.yielding t false }
      | some (s, some next) => some { y with base := s.goto t (.enterNext c r i next) }
  | .enterNext c r _ _ =>
      -- `post_or_defer` gets `r`, and `next` is not used
      match k.preempt with
      | some how =>
          some { y with
            base := (s.schedule sched how t c r).ret t r (some c) false
            yielding := Function.update y.yielding t false }
      | none => none
  | _ => none

/-- Contexts, their schedulers, and the threads that use them, with yields. -/
def yields : System (YState R C S) (YAct R C) where
  init y := y = YState.start
  step y
    | .other a =>
        if y.yielding a.thread then none
        else ((contexts sched).step y.base a).map fun s => { y with base := s }
    | .yield t c r =>
        let s := y.base
        if s.pc t = .idle ∧ (∀ d ∈ c, d ∈ s.owned t) ∧ s.status r = .done then
          match c with
          | none => some { y with base := s.ret t r none true }
          | some c =>
              some { y with
                base := s.submit t r (.enterPush c r false)
                yielding := Function.update y.yielding t true
                before := Function.update y.before t (s.box c).items }
        else none
    | .step t k => if y.yielding t then stepYield sched y t k else none

/-- The pop of a yield finds the runnable of the yield or nothing. -/
def Clean (y : YState R C S) : YAct R C → Prop
  | .step t k =>
      match y.base.pc t with
      | .enterPop c r _ => k.pop = .item → (y.base.box c).items.head? = some r
      | _ => True
  | _ => True

/-- The thread returns false from a yield of `r` in the context `c`. -/
def Yielded (y y' : YState R C S) (t : Nat) (c : C) (r : R) : Prop :=
  y.yielding t = true ∧ y'.yielding t = false ∧
    y'.base.log = y.base.log ++ [⟨t, r, some c, false⟩]

/-- Every runnable that was in the mailbox, and the one that yields, is in the
    mailbox or with the scheduler, and in one place; if the context is locked,
    the oldest of them was handed to the scheduler. -/
structure Kept (s : State R C S) (c : C) (r : R) (before : List R) : Prop where
  placed : ∀ x, x ∈ before ∨ x = r → ∃ p, (p = .mailbox c ∨ p = .queue (sched c)) ∧
    At s x p ∧ ∀ p', At s x p' → p' = p
  once : (s.box c).items.Nodup ∧ ((s.queue (sched c)).map Entry.runnable).Nodup
  oldest : (s.box c).lock = .locked → ∃ how x, (before ++ [r]).head? = some x ∧
    ⟨how, x, c⟩ ∈ s.queue (sched c) ∧ ∀ e ∈ s.queue (sched c), e.context = c → e.runnable = x

end Model

-- ============================================================================
-- What a step leaves alone
-- ============================================================================

variable {R C S : Type*} {s s₁ s' : State R C S} {t u : Nat}

/-- A step of `t` moves no other thread, and takes runnables only from the
    mailboxes of its own contexts. -/
structure Frame (t : Nat) (s s' : State R C S) : Prop where
  only : Only t s s'
  items : ∀ c, c ∉ s.owned t → (s.box c).items <+: (s'.box c).items

theorem Frame.refl : Frame t s s := ⟨.refl, fun _ _ => List.prefix_rfl⟩

/-- What leaves the mailboxes alone. -/
theorem Frame.of_box (h : Frame t s s₁) (ho : Only t s₁ s') (hb : s'.box = s₁.box) :
    Frame t s s' := by
  refine ⟨fun u hu => ?_, fun c hc => hb ▸ h.items c hc⟩
  obtain ⟨h1, h2⟩ := h.only u hu
  obtain ⟨h3, h4⟩ := ho u hu
  exact ⟨h3.trans h1, h4.trans h2⟩

theorem Frame.goto {q : Pc R C} (h : Frame t s s₁) : Frame t s (s₁.goto t q) :=
  h.of_box (Only.goto .refl) rfl

@[simp] theorem owned_goto {q : Pc R C} : (s.goto t q).owned = s.owned := rfl

@[simp] theorem box_goto {q : Pc R C} : (s.goto t q).box = s.box := rfl

section Frame

variable [DecidableEq R] {r : R} {b : Option C} {c : C}

theorem Frame.ret {res : Bool} (h : Frame t s s₁) : Frame t s (s₁.ret t r b res) :=
  h.of_box (fun u hu => ⟨by simp [State.ret, State.goto, hu], rfl⟩) rfl

theorem Frame.left {after : Option R} (h : Frame t s s₁) : Frame t s (s₁.left t after) := by
  cases after with
  | none => exact h.goto
  | some r => exact h.ret

theorem Frame.thenMore {how : How} {x : Transfer R C} {result : Bool} (h : Frame t s s₁) :
    Frame t s (s₁.thenMore t how x result) := by
  unfold State.thenMore
  split
  · exact h.goto
  · exact h.ret

theorem Frame.submit {q : Pc R C} (h : Frame t s s₁) : Frame t s (s₁.submit t r q) :=
  h.of_box (fun u hu => ⟨by simp [State.submit, State.goto, State.move, hu], rfl⟩) rfl

variable [DecidableEq C]

theorem Frame.pushPrepare : Frame t s (s.pushPrepare c r) := by
  refine ⟨fun u hu => ⟨rfl, rfl⟩, fun d hd => ?_⟩
  by_cases hdc : d = c
  · subst hdc
    simp [State.pushPrepare, LockedFifo.prepare]
  · simp [State.pushPrepare, hdc, State.move]

theorem Frame.pushPublish : Frame t s (s.pushPublish t c r).1 := by
  by_cases hl : (s.box c).lock = .promised r
  · refine ⟨fun u hu => ?_, fun d hd => ?_⟩
    · simp [State.pushPublish, LockedFifo.publish, hl, hu]
    · by_cases hdc : d = c
      · subst hdc
        simp [State.pushPublish, LockedFifo.publish, hl]
      · simp [State.pushPublish, LockedFifo.publish, hl, hdc]
  · refine ⟨fun u hu => ?_, fun d hd => ?_⟩
    · simp [State.pushPublish, LockedFifo.publish, hl]
    · by_cases hdc : d = c
      · subst hdc
        simp [State.pushPublish, LockedFifo.publish, hl]
      · simp [State.pushPublish, LockedFifo.publish, hl, hdc]

theorem items_pushPublish {d : C} :
    ((s.pushPublish t c r).1.box d).items = (s.box d).items := by
  by_cases hl : (s.box c).lock = .promised r <;> by_cases hdc : d = c <;>
    simp [State.pushPublish, LockedFifo.publish, hl, hdc]

/-- A pop takes the first runnable. -/
theorem items_nextRunnable {k : PopChoice R} {next : R}
    (hs : s.nextRunnable t c k = some (s', some next)) :
    (s.box c).items = next :: (s'.box c).items ∧ k = .item := by
  unfold State.nextRunnable at hs
  split at hs
  · cases hs
  · rename_i m x hpop
    cases hs
    cases k with
    | item =>
        obtain ⟨r', rest, ⟨⟩, hi, -, rfl⟩ | ⟨h, -⟩ := LockedFifo.pop_cases hpop
        · simp [hi]
        · cases h
    | null heir =>
        cases heir <;> simp only [LockedFifo.pop] at hpop <;> split at hpop <;> cases hpop
  · cases hs

theorem pc_nextRunnable {k : PopChoice R} {o : Option R}
    (hs : s.nextRunnable t c k = some (s', o)) : s'.pc = s.pc := by
  unfold State.nextRunnable at hs
  split at hs <;> cases hs <;> rfl

theorem Frame.nextRunnable {k : PopChoice R} {o : Option R} (hc : c ∈ s.owned t)
    (hs : s.nextRunnable t c k = some (s', o)) : Frame t s s' := by
  have hne : ∀ d, d ∉ s.owned t → d ≠ c := by
    rintro d hd rfl
    exact hd hc
  unfold State.nextRunnable at hs
  split at hs <;> cases hs
  · exact ⟨fun u hu => ⟨rfl, rfl⟩, fun d hd => by simp [hne d hd]⟩
  · exact ⟨fun u hu => ⟨rfl, by simp [hu]⟩, fun d hd => by simp [hne d hd]⟩

variable [DecidableEq S] {sched : C → S}

theorem Frame.schedule {how : How} (h : Frame t s s₁) :
    Frame t s (s₁.schedule sched how t c r) :=
  h.of_box Only.schedule rfl

theorem stepThread_frame {k : Choice R} (hi : Inv sched s)
    (hs : stepThread sched s t k = some s') : Frame t s s' := by
  have hok := hi.pc t
  cases hp : s.pc t <;> simp only [stepThread, hp] at hs <;> rw [hp] at hok
  case idle => cases hs
  case enterPush d x i =>
    cases hs
    exact Frame.pushPrepare.goto
  case enterPublish d x i =>
    have hf : Frame t s (s.pushPublish t d x).1 := .pushPublish
    split at hs <;> cases hs <;> rename_i he <;> rw [he] at hf
    · exact hf.goto
    · exact hf.ret
  case enterPop d x i =>
    split at hs <;> cases hs <;> rename_i he
    · exact (Frame.nextRunnable hok he).ret
    · exact (Frame.nextRunnable hok he).goto
  case enterNext d x i next =>
    split at hs
    · cases hs
      exact Frame.refl.schedule.ret
    · split at hs
      · cases hs
        exact Frame.refl.schedule.ret
      · split at hs <;> cases hs
        · exact Frame.refl.schedule.ret
        · exact Frame.refl.ret
  case same d x =>
    split at hs <;> cases hs
    · exact Frame.refl.schedule.ret
    · exact Frame.refl.ret
  case preempt d x =>
    split at hs <;> cases hs
    exact Frame.refl.schedule.ret
  case leavePop d after =>
    split at hs <;> cases hs <;> rename_i he
    · exact (Frame.nextRunnable hok he).left
    · exact (Frame.nextRunnable hok he).goto
  case leavePost d next after =>
    cases hs
    exact Frame.refl.schedule.left
  case transferPop d x =>
    split at hs <;> cases hs
    rename_i he
    exact (Frame.nextRunnable hok.1 he).goto
  case transferPush x =>
    cases hs
    exact Frame.pushPrepare.goto
  case transferPublish x =>
    have hf : Frame t s (s.pushPublish t x.toContext x.r).1 := .pushPublish
    split at hs <;> cases hs <;> rename_i he <;> rw [he] at hf
    · exact hf.goto
    · exact hf.thenMore
  case transferNextPop x =>
    split at hs <;> cases hs <;> rename_i he
    · exact (Frame.nextRunnable hok.2 he).thenMore
    · exact (Frame.nextRunnable hok.2 he).goto
  case transferNext x next =>
    split at hs
    · cases hs
      exact Frame.refl.schedule.thenMore
    · split at hs
      · cases hs
        exact Frame.refl.schedule.thenMore
      · split at hs <;> cases hs
        · exact Frame.refl.thenMore
        · exact Frame.refl.schedule.thenMore
  case transferMore how d more x result =>
    cases hs
    exact Frame.refl.schedule.ret

theorem step_frame {a : Act R C} (hi : Inv sched s) (hs : (contexts sched).step s a = some s') :
    Frame a.thread s s' := by
  cases a <;> simp only [contexts] at hs
  case enter t c r initial =>
    split at hs
    · split at hs <;> cases hs
      · exact Frame.refl.ret
      · exact Frame.refl.submit
    · cases hs
  case transfer t a b r returning =>
    split at hs <;> cases hs
    unfold startTransfer
    repeat' split
    all_goals first | exact Frame.refl.ret | exact Frame.refl.submit
  case leave t c =>
    split at hs
    · split at hs <;> cases hs
      · exact Frame.refl
      · exact Frame.refl.goto
    · cases hs
  case preempt t c r =>
    split at hs
    · split at hs <;> cases hs
      · exact Frame.refl.ret
      · exact Frame.refl.submit
    · cases hs
  case step t k => exact stepThread_frame hi hs
  case run t e =>
    split at hs <;> cases hs
    exact ⟨fun u hu => ⟨rfl, Function.update_of_ne hu ..⟩, fun d hd => List.prefix_rfl⟩

end Frame

-- ============================================================================
-- The invariant
-- ============================================================================

variable {y y' : YState R C S}

/-- What a thread in a yield relies on: it owns the context, so nobody else
    takes runnables from its mailbox. -/
def YieldOk (s : State R C S) (own : List C) (before : List R) : Pc R C → Prop
  | .enterPush c r _ => c ∈ own ∧ before <+: (s.box c).items ∧ r ∉ before
  | .enterPublish c r _ | .enterPop c r _ =>
      c ∈ own ∧ before <+: (s.box c).items ∧ r ∉ before ∧ r ∈ (s.box c).items
  | .enterNext c r _ next =>
      c ∈ own ∧ (next = r ∧ before = [] ∨ next ≠ r ∧ r ∈ (s.box c).items)
  | _ => False

structure YInv (sched : C → S) (y : YState R C S) : Prop where
  inv : Inv sched y.base
  ok : y.assertFailed = false
  yield : ∀ t, y.yielding t = true →
    YieldOk y.base (y.base.owned t) (y.before t) (y.base.pc t)

/-- The mailboxes of the thread's contexts only grow. -/
theorem YieldOk.mono {own : List C} {before : List R} {p : Pc R C} (h : YieldOk s own before p)
    (hb : ∀ c ∈ own, (s.box c).items <+: (s'.box c).items) : YieldOk s' own before p := by
  cases p with
  | enterPush c r i =>
      obtain ⟨h1, h2, h3⟩ := h
      exact ⟨h1, h2.trans (hb c h1), h3⟩
  | enterPublish c r i =>
      obtain ⟨h1, h2, h3, h4⟩ := h
      exact ⟨h1, h2.trans (hb c h1), h3, (hb c h1).subset h4⟩
  | enterPop c r i =>
      obtain ⟨h1, h2, h3, h4⟩ := h
      exact ⟨h1, h2.trans (hb c h1), h3, (hb c h1).subset h4⟩
  | enterNext c r i next =>
      obtain ⟨h1, h2⟩ := h
      exact ⟨h1, h2.imp_right fun h => ⟨h.1, (hb c h1).subset h.2⟩⟩
  | _ => exact h

section Steps

variable {sched : C → S}

theorem Inv.owned_unique {c : C} (hi : Inv sched s) (ht : c ∈ s.owned t) (hu : c ∈ s.owned u) :
    t = u := by
  have h1 := (hi.core.owned t c).mp ht
  have h2 := (hi.core.owned u c).mp hu
  rw [h1] at h2
  exact Owner.thread.inj h2

/-- A step of `t`: the other threads in a yield go on as before. -/
theorem YInv.of_frame (hi : YInv sched y) (hf : Frame t y.base y'.base)
    (hinv : Inv sched y'.base) (hok : y'.assertFailed = false)
    (hy : ∀ u, u ≠ t → y'.yielding u = y.yielding u ∧ y'.before u = y.before u)
    (ht : y'.yielding t = true →
      YieldOk y'.base (y'.base.owned t) (y'.before t) (y'.base.pc t)) : YInv sched y' := by
  refine ⟨hinv, hok, fun u hu => ?_⟩
  by_cases hut : u = t
  · subst hut
    exact ht hu
  · obtain ⟨h1, h2⟩ := hf.only u hut
    rw [h1, h2, (hy u hut).2]
    refine (hi.yield u ((hy u hut).1 ▸ hu)).mono fun c hc => hf.items c fun hct => ?_
    exact hut (hi.inv.owned_unique hc hct)

variable [DecidableEq R] [DecidableEq C] [DecidableEq S]

/-- The post of a yield that has another runnable in hand. -/
def Misposts (y : YState R C S) : YAct R C → Prop
  | .step t _ =>
      match y.base.pc t with
      | .enterNext _ r _ next => next ≠ r
      | _ => False
  | _ => False

/-- The pop takes the runnable of the yield, and the mailbox was empty; or it
    takes another one. -/
theorem popped_cases {before items rest : List R} {r next : R} (hpre : before <+: items)
    (hr : r ∉ before) (hmem : r ∈ items) (hitems : items = next :: rest) :
    next = r ∧ before = [] ∨ next ≠ r ∧ r ∈ rest := by
  subst hitems
  by_cases hn : next = r
  · subst hn
    refine .inl ⟨rfl, ?_⟩
    cases before with
    | nil => rfl
    | cons x l =>
        have hx := (List.cons_prefix_cons.mp hpre).1
        simp [hx] at hr
  · exact .inr ⟨hn, (List.mem_cons.mp hmem).resolve_left fun h => hn h.symm⟩

/-- The steps of a yield. -/
inductive YieldStep (sched : C → S) (y : YState R C S) (t : Nat) (k : Choice R) :
    YState R C S → Prop
  | push {c : C} {r : R} {i : Bool} (hp : y.base.pc t = .enterPush c r i) :
      YieldStep sched y t k
        { y with base := (y.base.pushPrepare c r).goto t (.enterPublish c r i) }
  | publish {c : C} {r : R} {i : Bool} (hp : y.base.pc t = .enterPublish c r i) :
      YieldStep sched y t k { y with
        base := (y.base.pushPublish t c r).1.goto t (.enterPop c r i)
        assertFailed := y.assertFailed || (y.base.pushPublish t c r).2 }
  | unlocks {c : C} {r : R} {i : Bool} {s₁ : State R C S} (hp : y.base.pc t = .enterPop c r i)
      (hn : y.base.nextRunnable t c k.pop = some (s₁, none)) :
      YieldStep sched y t k { y with
        base := s₁.ret t r (some c) false
        yielding := Function.update y.yielding t false }
  | pops {c : C} {r next : R} {i : Bool} {s₁ : State R C S} (hp : y.base.pc t = .enterPop c r i)
      (hn : y.base.nextRunnable t c k.pop = some (s₁, some next)) :
      YieldStep sched y t k { y with base := s₁.goto t (.enterNext c r i next) }
  | posts {c : C} {r next : R} {i : Bool} {how : How} (hp : y.base.pc t = .enterNext c r i next) :
      YieldStep sched y t k { y with
        base := (y.base.schedule sched how t c r).ret t r (some c) false
        yielding := Function.update y.yielding t false }

theorem stepYield_cases {k : Choice R} (hs : stepYield sched y t k = some y') :
    YieldStep sched y t k y' := by
  cases hp : y.base.pc t <;> simp only [stepYield, hp] at hs
  case enterPush c r i =>
    cases hs
    exact .push hp
  case enterPublish c r i =>
    cases hs
    exact .publish hp
  case enterPop c r i =>
    split at hs <;> cases hs <;> rename_i he
    · exact .unlocks hp he
    · exact .pops hp he
  case enterNext c r i next =>
    split at hs <;> cases hs
    exact .posts hp
  all_goals cases hs

theorem YieldStep.inv {k : Choice R} (h : YieldStep sched y t k y') (hi : YInv sched y)
    (ht : y.yielding t = true) (hm : ¬ Misposts y (.step t k)) : YInv sched y' := by
  have hyield := hi.yield t ht
  have hinv := hi.inv
  have hc := hinv.core
  have h1 : y.base.hands.submitting t = (y.base.pc t).submitting := rfl
  have h2 : y.base.hands.carried t = (y.base.pc t).carried := rfl
  have h3 : y.base.hands.pushing t = (y.base.pc t).pushing := rfl
  have hother : ∀ b : Bool, ∀ u, u ≠ t → Function.update y.yielding t b u = y.yielding u ∧
      y.before u = y.before u := fun b u hu => ⟨Function.update_of_ne hu .., rfl⟩
  cases h with
  | @push c r i hp =>
      rw [hp] at hyield h1 h2 h3
      obtain ⟨hown, hpre, hr⟩ := hyield
      refine hi.of_frame Frame.pushPrepare.goto ?_ hi.ok (fun u _ => ⟨rfl, rfl⟩) fun _ => ?_
      · exact hinv.goto (hc.pushPrepare h1) .refl (by rw [h2]; rfl) trivial
      · rw [pc_goto]
        refine ⟨hown, ?_, hr, ?_⟩
        · simpa [State.pushPrepare, LockedFifo.prepare] using hpre.trans (List.prefix_append ..)
        · simp [State.pushPrepare, LockedFifo.prepare]
  | @publish c r i hp =>
      rw [hp] at hyield h1 h2 h3
      obtain ⟨hown, hpre, hr, hmem⟩ := hyield
      have hlock : (y.base.box c).lock = .locked := by
        rw [hc.lock, (hc.owned t c).mp hown]
        simp
      have hfalse : (y.base.pushPublish t c r).2 = false := by
        simp [State.pushPublish, LockedFifo.publish, hlock]
      obtain ⟨s₁, b, he, hc', ho, hh, hown'⟩ := hc.publish_spec h3
      have hframe := Frame.pushPublish (s := y.base) (t := t) (c := c) (r := r)
      have hitems := items_pushPublish (s := y.base) (t := t) (c := c) (r := r) (d := c)
      rw [h1, h2] at hc'
      rw [he] at hfalse hframe hitems ⊢
      obtain rfl : b = false := hfalse
      rw [if_neg (by simp)] at hown'
      refine hi.of_frame hframe.goto ?_ (by simp [hi.ok]) (fun u _ => ⟨rfl, rfl⟩) fun _ => ?_
      · exact hinv.goto hc' ho (by rw [hh]; rfl) (by rw [hown']; exact hown)
      · rw [pc_goto, owned_goto, hown']
        refine ⟨hown, ?_, hr, ?_⟩
        · rw [box_goto, hitems]
          exact hpre
        · rw [box_goto, hitems]
          exact hmem
  | @unlocks c r i s₁ hp hn =>
      rw [hp] at hyield h1 h2 h3
      obtain ⟨hc', ho, hh, -⟩ := hc.pop_spec hyield.1 hn
      rw [h1, h2, h3] at hc'
      refine hi.of_frame (Frame.nextRunnable hyield.1 hn).ret ?_ hi.ok (hother false) (by simp)
      exact hinv.ret (hc'.ret_false (by simp [Hands.set, Pc.submitting])
        (by simp [Hands.set, Pc.pushing])) ho (by rw [hh]; rfl)
  | @pops c r next i s₁ hp hn =>
      rw [hp] at hyield h1 h2 h3
      obtain ⟨hown, hpre, hr, hmem⟩ := hyield
      obtain ⟨hc', ho, hh, hown'⟩ := hc.pop_spec hown hn
      rw [h1, h2, h3] at hc'
      rw [if_neg (by simp)] at hown'
      refine hi.of_frame (Frame.nextRunnable hown hn).goto ?_ hi.ok (fun u _ => ⟨rfl, rfl⟩)
        fun _ => ?_
      · exact hinv.goto hc' ho (by rw [hh]; rfl) (by rw [hown']; exact hown)
      · rw [pc_goto, owned_goto, hown']
        exact ⟨hown, popped_cases hpre hr hmem (items_nextRunnable hn).1⟩
  | @posts c r next i how hp =>
      rw [hp] at hyield
      obtain rfl : next = r := by
        by_contra hne
        exact hm (by simpa [Misposts, hp] using hne)
      refine hi.of_frame Frame.refl.schedule.ret ?_ hi.ok (hother false) (by simp)
      exact hinv.scheduleRet hyield.1 (by rw [hp]; rfl) (.inl (by rw [hp]; exact ⟨rfl, rfl⟩))

theorem step_yinv {a : YAct R C} (hi : YInv sched y) (hm : ¬ Misposts y a)
    (hs : (yields sched).step y a = some y') : YInv sched y' := by
  cases a with
  | other a =>
      simp only [yields] at hs
      split at hs
      · cases hs
      · rename_i hy
        obtain ⟨s', hs', rfl⟩ := Option.map_eq_some_iff.mp hs
        refine hi.of_frame (step_frame hi.inv hs') (step_inv hi.inv hs') hi.ok
          (fun u _ => ⟨rfl, rfl⟩) fun h => absurd h hy
  | yield t c r =>
      simp only [yields] at hs
      split at hs
      · rename_i hc
        obtain ⟨hp, hown, hr⟩ := hc
        split at hs <;> cases hs
        · refine hi.of_frame (t := t) Frame.refl.ret (hi.inv.retDone hp hr) hi.ok
            (fun u _ => ⟨rfl, rfl⟩) fun h => ?_
          have := hi.yield t h
          rw [hp] at this
          exact this.elim
        · rename_i c
          refine hi.of_frame (t := t) Frame.refl.submit
            (hi.inv.submit hp hr rfl rfl rfl trivial) hi.ok
            (fun u hu => ⟨Function.update_of_ne hu .., Function.update_of_ne hu ..⟩) fun _ => ?_
          have hpl := (hi.inv.core.done r).mp hr
          have hni : r ∉ (y.base.box c).items := by
            intro hm
            rw [hi.inv.core.items c r, hpl] at hm
            cases hm
          simpa [State.submit, State.goto, State.move, YieldOk] using
            ⟨hown c rfl, hni⟩
      · cases hs
  | step t k =>
      simp only [yields] at hs
      split at hs
      · rename_i hy
        exact (stepYield_cases hs).inv hi hy hm
      · cases hs

omit [DecidableEq R] [DecidableEq C] [DecidableEq S] in
theorem start_yinv : YInv sched (YState.start : YState R C S) :=
  ⟨start_inv, rfl, fun t h => by simp [YState.start] at h⟩

-- ============================================================================
-- Yields that post what they popped
-- ============================================================================

/-- The threads in `p` have their own runnable in hand when they are about to
    post it. -/
def Straight (p : Nat → Prop) (y : YState R C S) : Prop :=
  ∀ t c r i next, p t → y.yielding t = true → y.base.pc t = .enterNext c r i next → next = r

/-- The other threads stay where they are, in a yield or not. -/
theorem step_others {a : YAct R C} (hi : YInv sched y)
    (hs : (yields sched).step y a = some y') (hu : u ≠ a.thread) :
    y'.base.pc u = y.base.pc u ∧ y'.yielding u = y.yielding u ∧ y'.before u = y.before u := by
  cases a with
  | other a =>
      simp only [yields] at hs
      split at hs
      · cases hs
      · obtain ⟨s', hs', rfl⟩ := Option.map_eq_some_iff.mp hs
        exact ⟨((step_frame hi.inv hs').only u hu).1, rfl, rfl⟩
  | yield t c r =>
      simp only [yields] at hs
      split at hs
      · split at hs <;> cases hs
        · exact ⟨Function.update_of_ne hu .., rfl, rfl⟩
        · exact ⟨Function.update_of_ne hu .., Function.update_of_ne hu ..,
            Function.update_of_ne hu ..⟩
      · cases hs
  | step t k =>
      have hu : u ≠ t := hu
      simp only [yields] at hs
      split at hs
      · cases stepYield_cases hs with
        | push hp => exact ⟨Function.update_of_ne hu .., rfl, rfl⟩
        | publish hp =>
            exact ⟨(Function.update_of_ne hu ..).trans (Frame.pushPublish.only u hu).1, rfl, rfl⟩
        | unlocks hp hn =>
            exact ⟨(Function.update_of_ne hu ..).trans (by rw [pc_nextRunnable hn]),
              Function.update_of_ne hu .., rfl⟩
        | pops hp hn =>
            exact ⟨(Function.update_of_ne hu ..).trans (by rw [pc_nextRunnable hn]), rfl, rfl⟩
        | posts hp => exact ⟨Function.update_of_ne hu .., Function.update_of_ne hu .., rfl⟩
      · cases hs

theorem Straight.step {p : Nat → Prop} {a : YAct R C} (h : Straight p y) (hi : YInv sched y)
    (ha : Clean y a) (hs : (yields sched).step y a = some y') : Straight p y' := by
  intro u c r i next hp hyu hpc
  by_cases hu : u = a.thread
  · subst hu
    cases a with
    | other a =>
        simp only [yields] at hs
        split at hs
        · cases hs
        · rename_i hy
          obtain ⟨s', hs', rfl⟩ := Option.map_eq_some_iff.mp hs
          exact absurd hyu hy
    | yield t d x =>
        simp only [yields] at hs
        split at hs
        · split at hs <;> cases hs <;> simp [State.ret, State.submit, State.goto, State.move,
            YAct.thread] at hpc
        · cases hs
    | step t k =>
        simp only [yields] at hs
        split at hs
        · cases stepYield_cases hs with
          | push hq => simp [YAct.thread] at hpc
          | publish hq => simp [YAct.thread] at hpc
          | unlocks hq hn => simp [YAct.thread] at hyu
          | pops hq hn =>
              obtain ⟨hitems, hk⟩ := items_nextRunnable hn
              simp only [Clean, hq] at ha
              have := ha hk
              rw [hitems, List.head?_cons, Option.some.injEq] at this
              rw [show (YAct.step t k).thread = t from rfl, pc_goto] at hpc
              cases hpc
              exact this
          | posts hq => simp [YAct.thread] at hyu
        · cases hs
  · obtain ⟨h1, h2, -⟩ := step_others hi hs hu
    rw [h1] at hpc
    rw [h2] at hyu
    exact h u c r i next hp hyu hpc

/-- A yield that posts its own runnable does not post in the place of another. -/
theorem Straight.not_misposts {a : YAct R C} {p : Nat → Prop} (h : Straight p y)
    (hp : p a.thread) (hs : (yields sched).step y a = some y') : ¬ Misposts y a := by
  intro hm
  cases a with
  | step t k =>
      simp only [yields] at hs
      split at hs
      · rename_i hy
        cases hq : y.base.pc t <;> simp only [Misposts, hq] at hm
        exact hm (h t _ _ _ _ hp hy hq)
      · cases hs
  | _ => exact hm

theorem reachable_clean (hr : (yields sched).ReachableIf Clean y) :
    YInv sched y ∧ Straight (fun _ => True) y := by
  refine hr.invariant (I := fun y => YInv sched y ∧ Straight (fun _ => True) y) ?_ ?_
  · rintro y rfl
    exact ⟨start_yinv, fun t c r i next _ h => by simp [YState.start] at h⟩
  · rintro y a y' ⟨hi, hst⟩ ha hs
    exact ⟨step_yinv hi (hst.not_misposts trivial hs) hs, hst.step hi ha hs⟩

-- ============================================================================
-- The return of a yield
-- ============================================================================

omit [DecidableEq R] [DecidableEq C] [DecidableEq S] in
/-- A runnable that is in a place is in no other. -/
theorem Inv.at_unique {x : R} {p : Spot C S} (hi : Inv sched s) (h : At s x p) :
    ∀ p', At s x p' → p' = p :=
  fun _ h' => Spot.place_injective ((hi.at_iff.mp h').symm.trans (hi.at_iff.mp h))

omit [DecidableEq S] in
/-- A pop that unlocks leaves the runnables where they are. -/
theorem box_nextRunnable_none {c : C} {k : PopChoice R}
    (hs : s.nextRunnable t c k = some (s', none)) :
    (s'.box c).items = (s.box c).items ∧ (s'.box c).lock ≠ .locked := by
  unfold State.nextRunnable at hs
  split at hs
  · cases hs
  · cases hs
  · rename_i m hpop
    cases hs
    obtain ⟨_, _, h, -⟩ | ⟨-, l, hl, rfl⟩ := LockedFifo.pop_cases hpop
    · cases h
    · simpa using hl

/-- A yield in order keeps every runnable. -/
theorem YieldStep.kept {c : C} {r : R} {k : Choice R} (h : YieldStep sched y t k y')
    (hi : YInv sched y) (hst : Straight (fun _ => True) y) (hi' : YInv sched y')
    (hy : Yielded y y' t c r) : Kept sched y'.base c r (y.before t) := by
  obtain ⟨ht, ht', hlog⟩ := hy
  have hinv := hi'.inv
  have hyield := hi.yield t ht
  have honce := And.intro (hinv.core.itemsNodup c) (hinv.core.queueNodup (sched c))
  cases h with
  | push hp => exact absurd (ht.symm.trans ht') (by simp)
  | publish hp => exact absurd (ht.symm.trans ht') (by simp)
  | pops hp hn => exact absurd (ht.symm.trans ht') (by simp)
  | @unlocks c' r' i s₁ hp hn =>
      have hl := log_nextRunnable hn
      have he : c' = c ∧ r' = r := by simpa [State.ret, hl, and_comm] using hlog
      obtain ⟨rfl, rfl⟩ := he
      rw [hp] at hyield
      obtain ⟨hown, hpre, hr, hmem⟩ := hyield
      obtain ⟨hitems, hlock⟩ := box_nextRunnable_none hn
      refine ⟨fun x hx => ?_, honce, fun hl => absurd hl hlock⟩
      have hx' : x ∈ (s₁.box c').items := by
        rw [hitems]
        rcases hx with hx | rfl
        · exact hpre.subset hx
        · exact hmem
      exact ⟨.mailbox c', .inl rfl, hx', hinv.at_unique hx'⟩
  | @posts c' r' next i how hp =>
      have he : c' = c ∧ r' = r := by
        simpa [State.ret, State.schedule, State.move, and_comm] using hlog
      obtain ⟨rfl, rfl⟩ := he
      obtain rfl := hst t c' r' i next trivial ht hp
      rw [hp] at hyield
      have hbefore : y.before t = [] := by
        rcases hyield.2 with ⟨-, hb⟩ | ⟨hne, -⟩
        · exact hb
        · exact absurd rfl hne
      have hmem : ⟨how, next, c'⟩ ∈
          ((y.base.schedule sched how t c' next).ret t next (some c') false).queue (sched c') := by
        simp [State.ret, State.goto, State.schedule]
      have hat : At ((y.base.schedule sched how t c' next).ret t next (some c') false) next
          (.queue (sched c')) := List.mem_map_of_mem hmem
      rw [hbefore]
      refine ⟨fun x hx => ?_, honce, fun _ => ⟨how, next, rfl, hmem, fun e he hec => ?_⟩⟩
      · obtain rfl : x = next := by simpa using hx
        exact ⟨.queue (sched c'), .inr rfl, hat, hinv.at_unique hat⟩
      · have h1 := (hinv.core.queue _ e he).2.2
        have h2 := (hinv.core.queue _ _ hmem).2.2
        rw [hec] at h1
        rw [h1] at h2
        exact Owner.entry.inj h2

/-- A yield that posts in the place of another runnable puts its own into two
    places. -/
theorem YieldStep.not_kept {c : C} {r next : R} {i : Bool} {before : List R} {k : Choice R}
    (h : YieldStep sched y t k y') (hp : y.base.pc t = .enterNext c r i next)
    (hmem : r ∈ (y.base.box c).items) : ¬ Kept sched y'.base c r before := by
  intro hk
  cases h with
  | @posts c' r' next' i' how hq =>
      rw [hp] at hq
      cases hq
      obtain ⟨p, -, -, huniq⟩ := hk.placed r (.inr rfl)
      have h1 := huniq (.mailbox c) hmem
      have h2 := huniq (.queue (sched c)) (by
        simp [At, State.ret, State.goto, State.schedule])
      rw [← h1] at h2
      cases h2
  | push hq => simp [hp] at hq
  | publish hq => simp [hp] at hq
  | unlocks hq => simp [hp] at hq
  | pops hq => simp [hp] at hq

/-- Only a step of the yield ends it. -/
theorem Yielded.step {a : YAct R C} {c : C} {r : R} (h : Yielded y y' t c r) (hi : YInv sched y)
    (hs : (yields sched).step y a = some y') : ∃ k, YieldStep sched y t k y' := by
  obtain ⟨ht, ht', -⟩ := h
  have hthread : t = a.thread := by
    by_contra hne
    rw [(step_others hi hs hne).2.1, ht] at ht'
    cases ht'
  cases a with
  | other a =>
      simp only [yields] at hs
      split at hs
      · cases hs
      · obtain ⟨s', -, rfl⟩ := Option.map_eq_some_iff.mp hs
        rw [show y.yielding t = false from ht'] at ht
        cases ht
  | yield u d x =>
      obtain rfl : t = u := hthread
      simp only [yields] at hs
      split at hs
      · split at hs <;> cases hs
        · rw [show y.yielding t = false from ht'] at ht
          cases ht
        · simp at ht'
      · cases hs
  | step u k =>
      obtain rfl : t = u := hthread
      simp only [yields, ht, if_true] at hs
      exact ⟨k, stepYield_cases hs⟩

/-- A yield that is not in order has another runnable in hand after its pop. -/
theorem exists_next_of_not_clean {c : C} {r : R} {i : Bool} {k : Choice R}
    (ht : y.yielding t = true) (hp : y.base.pc t = .enterPop c r i)
    (hc : ¬ Clean y (.step t k)) (hs : (yields sched).step y (.step t k) = some y') :
    ∃ next, next ≠ r ∧ y'.yielding t = true ∧ y'.base.pc t = .enterNext c r i next := by
  simp only [Clean, hp, not_forall] at hc
  obtain ⟨hk, hhead⟩ := hc
  simp only [yields, ht, if_true] at hs
  cases stepYield_cases hs with
  | pops hq hn =>
      rw [hp] at hq
      cases hq
      obtain ⟨hitems, -⟩ := items_nextRunnable hn
      refine ⟨_, ?_, ht, pc_goto⟩
      rintro rfl
      exact hhead (by rw [hitems]; rfl)
  | unlocks hq hn =>
      rw [hk] at hn
      unfold State.nextRunnable at hn
      split at hn
      · cases hn
      · cases hn
      · rename_i m hpop
        simp only [LockedFifo.pop] at hpop
        split at hpop
        · split at hpop <;> cases hpop
        · cases hpop
  | push hq => simp [hp] at hq
  | publish hq => simp [hp] at hq
  | posts hq => simp [hp] at hq

/-- Until it returns, the yield has the other runnable in hand, and its own is
    in the mailbox. -/
theorem path_misposts {c : C} {r next : R} {i : Bool}
    (hpath : (yields sched).Path (fun x a => Clean x a ∧ a.thread ≠ t) y y') (hi : YInv sched y)
    (hst : Straight (· ≠ t) y) (hy : y.yielding t = true)
    (hp : y.base.pc t = .enterNext c r i next) :
    YInv sched y' ∧ y'.yielding t = true ∧ y'.base.pc t = .enterNext c r i next := by
  have h := hpath.invariant (I := fun x => (YInv sched x ∧ Straight (· ≠ t) x) ∧
    x.yielding t = true ∧ x.base.pc t = .enterNext c r i next) ?_ ⟨⟨hi, hst⟩, hy, hp⟩
  · exact ⟨h.1.1, h.2⟩
  · rintro x a x' ⟨⟨hx, hxs⟩, hxy, hxp⟩ ⟨ha, hne⟩ hs
    obtain ⟨h1, h2, -⟩ := step_others hx hs (Ne.symm hne)
    exact ⟨⟨step_yinv hx (hxs.not_misposts hne hs) hs, hxs.step hx ha hs⟩, h2.trans hxy,
      h1.trans hxp⟩

/-- In every run whose yields all pop their own runnable or nothing, contexts
    are isolated, no assertion fails, and every yield keeps every runnable in
    one place; but a yield that pops another runnable does not, whatever the
    other threads do until it returns. -/
theorem yield_kept_iff_clean (sched : C → S) :
    (∀ y : YState R C S, (yields sched).ReachableIf Clean y →
      Isolated sched y.base ∧ y.assertFailed = false) ∧
    (∀ (y y' : YState R C S) (a : YAct R C) (t : Nat) (c : C) (r : R),
      (yields sched).ReachableIf Clean y → Clean y a → (yields sched).step y a = some y' →
      Yielded y y' t c r → Kept sched y'.base c r (y.before t)) ∧
    (∀ (y y₁ y₂ y' : YState R C S) (t : Nat) (c : C) (r : R) (i : Bool) (k k' : Choice R),
      (yields sched).ReachableIf Clean y → y.yielding t = true →
      y.base.pc t = .enterPop c r i → ¬ Clean y (.step t k) →
      (yields sched).step y (.step t k) = some y₁ →
      (yields sched).Path (fun x a => Clean x a ∧ a.thread ≠ t) y₁ y₂ →
      (yields sched).step y₂ (.step t k') = some y' →
      Yielded y₂ y' t c r ∧ ¬ Kept sched y'.base c r (y.before t)) := by
  refine ⟨?_, ?_, ?_⟩
  · intro y hr
    obtain ⟨hi, -⟩ := reachable_clean hr
    exact ⟨hi.inv.isolated, hi.ok⟩
  · intro y y' a t c r hr ha hs hy
    obtain ⟨hi, hst⟩ := reachable_clean hr
    have hi' := step_yinv hi (hst.not_misposts trivial hs) hs
    obtain ⟨k, hstep⟩ := hy.step hi hs
    exact hstep.kept hi hst hi' hy
  · intro y y₁ y₂ y' t c r i k k' hr ht hp hclean hs hpath hs'
    obtain ⟨hi, hst⟩ := reachable_clean hr
    have hi₁ := step_yinv hi (hst.not_misposts trivial hs) hs
    obtain ⟨next, hne, ht₁, hp₁⟩ := exists_next_of_not_clean ht hp hclean hs
    have hst₁ : Straight (· ≠ t) y₁ := by
      intro u d x j z hu hyu hpu
      obtain ⟨h1, h2, -⟩ := step_others hi hs hu
      exact hst u d x j z trivial (h2 ▸ hyu) (h1 ▸ hpu)
    obtain ⟨hi₂, ht₂, hp₂⟩ := path_misposts hpath hi₁ hst₁ ht₁ hp₁
    have hyield := hi₂.yield t ht₂
    rw [hp₂] at hyield
    have hmem : r ∈ (y₂.base.box c).items := by
      rcases hyield.2 with ⟨he, -⟩ | ⟨-, hm⟩
      · exact absurd he hne
      · exact hm
    simp only [yields, ht₂, if_true] at hs'
    have hstep := stepYield_cases hs'
    refine ⟨⟨ht₂, ?_⟩, hstep.not_kept hp₂ hmem⟩
    cases hstep with
    | posts hq =>
        rw [hp₂] at hq
        cases hq
        exact ⟨by simp, rfl⟩
    | push hq => simp [hp₂] at hq
    | publish hq => simp [hp₂] at hq
    | unlocks hq => simp [hp₂] at hq
    | pops hq => simp [hp₂] at hq

end Steps

-- ============================================================================
-- A yield with another runnable in the mailbox
-- ============================================================================

/-- Thread 0 enters the context with runnable 0 and owns it, runnable 1 is
    queued by thread 1, and thread 0 yields. -/
def yieldQueued : List (YAct Nat Unit) :=
  let item : Choice Nat := ⟨.item, none⟩
  [.other (.enter 0 (some ()) 0 false), .other (.step 0 item), .other (.step 0 item),
   .other (.step 0 item), .other (.step 0 item), .other (.enter 1 (some ()) 1 false),
   .other (.step 1 item), .other (.step 1 item), .yield 0 (some ()) 0, .step 0 item,
   .step 0 item, .step 0 item]

/-- After the yield runnable 1 is in no place and runnable 0 is in two. -/
theorem yield_loses_runnable :
    ¬ ∀ (y y' : YState Nat Unit Unit) (a : YAct Nat Unit) (t : Nat) (c : Unit) (r : Nat),
      (yields fun _ => ()).Reachable y → (yields fun _ => ()).step y a = some y' →
      Yielded y y' t c r → Kept (fun _ => ()) y'.base c r (y.before t) := by
  intro h
  obtain ⟨y, hr, hp⟩ := System.exists_reachable_of_run (M := yields fun _ : Unit => ())
    (s := YState.start) yieldQueued
    (fun y => y.yielding 0 && y.base.pc 0 == .enterNext () 0 false 1 && y.before 0 == [1] &&
      (y.base.box ()).items == [0] && y.base.queue () == [])
    rfl (by decide)
  simp only [Bool.and_eq_true, beq_iff_eq] at hp
  obtain ⟨⟨⟨⟨hy, hpc⟩, hb⟩, hitems⟩, hq⟩ := hp
  have hs : (yields fun _ : Unit => ()).step y (.step 0 ⟨.item, some .defer⟩) = some { y with
      base := (y.base.schedule (fun _ => ()) .defer 0 () 0).ret 0 0 (some ()) false
      yielding := Function.update y.yielding 0 false } := by
    simp [yields, hy, stepYield, hpc]
  have hk := h y _ _ 0 () 0 hr hs ⟨hy, by simp, rfl⟩
  obtain ⟨p, hpl, hat, -⟩ := hk.placed 1 (.inl (by simp [hb]))
  rcases hpl with rfl | rfl
  · simp [At, State.ret, State.goto, State.schedule, State.move, hitems] at hat
  · simp [At, State.ret, State.goto, State.schedule, hq] at hat

end Coroactors.Context
