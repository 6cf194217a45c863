/-
  Coroactors.Context.Isolation

  Actor isolation and conservation of runnables for `async_context_manager`
  (coroactors/detail/async_context.h): in every run of `enter`, `transfer`,
  `leave` and `preempt` calls, a locked context is owned by one thread or by
  one queued runnable, and a runnable whose call answered false is in one
  mailbox, in one scheduler queue or in the hands of one thread, until it runs.

  The third place cannot be left out: between `next_runnable()` and the post or
  defer that follows it, a runnable is in no mailbox and in no queue.
-/

import Coroactors.Context.Inv

namespace Coroactors.Context

open Coroactors.Conc

variable {R C S : Type*} {s s' : State R C S} {t : Nat}

-- ============================================================================
-- Owners and places
-- ============================================================================

/-- A thread, or a runnable in a scheduler's queue. -/
inductive Holder (R : Type*) where
  | thread (t : Nat)
  | runnable (r : R)

/-- Who owns the context `c`. -/
def Owns (sched : C → S) (s : State R C S) (c : C) : Holder R → Prop
  | .thread t => c ∈ s.owned t
  | .runnable r => ∃ e ∈ s.queue (sched c), e.runnable = r ∧ e.context = c

/-- A place where a runnable can be. -/
inductive Spot (C S : Type*) where
  | mailbox (c : C)
  | queue (q : S)
  /-- A thread popped it and has not posted or deferred it yet. -/
  | hands (t : Nat)

/-- Where the runnable `r` is. -/
def At (s : State R C S) (r : R) : Spot C S → Prop
  | .mailbox c => r ∈ (s.box c).items
  | .queue q => r ∈ (s.queue q).map Entry.runnable
  | .hands t => r ∈ (s.pc t).carried

/-- What holds in every state of a run. -/
structure Isolated (sched : C → S) (s : State R C S) : Prop where
  /-- A locked context has one owner. -/
  locked : ∀ c, (s.box c).lock = .locked → ∃ o, Owns sched s c o ∧ ∀ o', Owns sched s c o' → o' = o
  /-- An unlocked context has none. -/
  unlocked : ∀ c, (s.box c).lock ≠ .locked → ∀ o, ¬ Owns sched s c o
  /-- A runnable whose call answered false and that did not run is in one place. -/
  placed : ∀ r, s.status r = .waiting → ∃ p, At s r p ∧ ∀ p', At s r p' → p' = p
  /-- A runnable that nobody submitted, or that ran, is in none. -/
  gone : ∀ r, s.status r = .done → ∀ p, ¬ At s r p
  /-- No place holds it twice, and no thread owns a context twice. -/
  once : (∀ c, (s.box c).items.Nodup) ∧ (∀ q, ((s.queue q).map Entry.runnable).Nodup) ∧
    (∀ t, (s.pc t).carried.Nodup) ∧ ∀ t, (s.owned t).Nodup

/-- The place of a runnable as the state's bookkeeping names it. -/
def Spot.place : Spot C S → Place C S
  | .mailbox c => .mailbox c
  | .queue q => .queue q
  | .hands t => .carried t

theorem Spot.place_injective {p p' : Spot C S} (h : p.place = p'.place) : p = p' := by
  cases p <;> cases p' <;> simp_all [Spot.place]

section Isolated

variable {sched : C → S}

theorem Inv.at_iff {r : R} {p : Spot C S} (hi : Inv sched s) : At s r p ↔ s.place r = p.place := by
  have hc := hi.core
  cases p with
  | mailbox c => exact hc.items c r
  | hands t => exact hc.carried t r
  | queue q =>
      constructor
      · intro hm
        obtain ⟨e, he, rfl⟩ := List.mem_map.mp hm
        exact (hc.queue q e he).2.1
      · intro hp
        obtain ⟨e, he, hr⟩ := hc.queued r q hp
        exact List.mem_map.mpr ⟨e, he, hr⟩

def Holder.owner : Holder R → Owner R
  | .thread t => .thread t
  | .runnable r => .entry r

theorem Inv.owns_iff {c : C} {o : Holder R} (hi : Inv sched s) :
    Owns sched s c o ↔ s.owner c = o.owner := by
  have hc := hi.core
  cases o with
  | thread t => exact hc.owned t c
  | runnable r =>
      refine ⟨?_, hc.entry c r⟩
      rintro ⟨e, he, rfl, rfl⟩
      exact (hc.queue _ e he).2.2

theorem Inv.isolated (hi : Inv sched s) : Isolated sched s where
  locked := by
    intro c hl
    have hne := (hi.core.lock c).mp hl
    obtain ⟨o, ho⟩ : ∃ o : Holder R, s.owner c = o.owner := by
      cases hown : s.owner c with
      | nobody => exact absurd hown hne
      | thread t => exact ⟨.thread t, rfl⟩
      | entry r => exact ⟨.runnable r, rfl⟩
    refine ⟨o, hi.owns_iff.mpr ho, fun o' ho' => ?_⟩
    have he := (hi.owns_iff.mp ho').symm.trans ho
    cases o <;> cases o' <;> simp_all [Holder.owner]
  unlocked := by
    intro c hl o ho
    refine hl ((hi.core.lock c).mpr ?_)
    rw [hi.owns_iff.mp ho]
    cases o <;> simp [Holder.owner]
  placed := by
    intro r hr
    obtain ⟨p, hp⟩ : ∃ p : Spot C S, s.place r = p.place := by
      cases hpl : s.place r with
      | nowhere =>
          have := (hi.core.done r).mpr hpl
          rw [hr] at this
          cases this
      | submitting t =>
          have := hi.core.submitted t r hpl
          rw [hr] at this
          cases this
      | mailbox c => exact ⟨.mailbox c, rfl⟩
      | queue q => exact ⟨.queue q, rfl⟩
      | carried t => exact ⟨.hands t, rfl⟩
    exact ⟨p, hi.at_iff.mpr hp, fun p' hp' =>
      Spot.place_injective ((hi.at_iff.mp hp').symm.trans hp)⟩
  gone := by
    intro r hr p hp
    have hpl := (hi.core.done r).mp hr
    rw [hi.at_iff.mp hp] at hpl
    cases p <;> cases hpl
  once := ⟨hi.core.itemsNodup, hi.core.queueNodup, hi.core.carriedNodup, hi.core.ownedNodup⟩

end Isolated

-- ============================================================================
-- Calls that answer true
-- ============================================================================

/-- If the step returns true from a call into `c`, the caller owns `c`, and the
    runnable is not pending any more. -/
def TrueOwns (s s' : State R C S) : Prop :=
  ∀ t r b, s'.log = s.log ++ [⟨t, r, b, true⟩] →
    (∀ c ∈ b, c ∈ s'.owned t) ∧ s'.status r = .done

theorem TrueOwns.of_log (h : s'.log = s.log) : TrueOwns s s' := by
  intro t r b hlog
  rw [h] at hlog
  simp at hlog

theorem TrueOwns.goto {s₁ : State R C S} {pc : Pc R C} (hlog : s₁.log = s.log) :
    TrueOwns s (s₁.goto t pc) :=
  .of_log hlog

section Returns

variable [DecidableEq R] {r : R} {b : Option C}

theorem TrueOwns.ret {s₁ : State R C S} {res : Bool} (hlog : s₁.log = s.log)
    (hown : res = true → ∀ c ∈ b, c ∈ s₁.owned t) : TrueOwns s (s₁.ret t r b res) := by
  intro t' r' b' h
  have he : (⟨t, r, b, res⟩ : Event R C) = ⟨t', r', b', true⟩ := by
    simpa [State.ret, State.goto, hlog] using h
  cases he
  exact ⟨hown rfl, by simp [State.ret, State.goto]⟩

theorem TrueOwns.thenMore {s₁ : State R C S} {how : How} {x : Transfer R C} {result : Bool}
    (hlog : s₁.log = s.log) (hown : result = true → x.toContext ∈ s₁.owned t) :
    TrueOwns s (s₁.thenMore t how x result) := by
  unfold State.thenMore
  split
  · exact .of_log hlog
  · exact .ret hlog (by simpa using hown)

theorem TrueOwns.left {s₁ : State R C S} {after : Option R} (hlog : s₁.log = s.log) :
    TrueOwns s (s₁.left t after) := by
  cases after with
  | none => exact .of_log hlog
  | some r => exact .ret hlog (by simp)

variable [DecidableEq C]

theorem log_pushPublish {c : C} : (s.pushPublish t c r).1.log = s.log := by
  by_cases hl : (s.box c).lock = .promised r <;> simp [State.pushPublish, LockedFifo.publish, hl]

theorem log_nextRunnable {c : C} {k : PopChoice R} {o : Option R}
    (hs : s.nextRunnable t c k = some (s', o)) : s'.log = s.log := by
  unfold State.nextRunnable at hs
  split at hs <;> cases hs <;> rfl

variable [DecidableEq S] {sched : C → S}

theorem stepThread_trueOwns {k : Choice R} (hi : Inv sched s)
    (hs : stepThread sched s t k = some s') : TrueOwns s s' := by
  have hok := hi.pc t
  cases hp : s.pc t <;> simp only [stepThread, hp] at hs <;> rw [hp] at hok
  case enterPublish d x initial =>
    have hlog := log_pushPublish (s := s) (t := t) (c := d) (r := x)
    split at hs <;> cases hs <;> rename_i he <;> rw [he] at hlog
    · exact .of_log hlog
    · exact .ret hlog (by simp)
  case enterPop d x initial =>
    split at hs
    · cases hs
    all_goals
      rename_i he
      cases hs
    · exact .ret (log_nextRunnable he) (by simp)
    · exact .goto (log_nextRunnable he)
  case enterNext d x initial next =>
    split at hs
    · cases hs
      exact .ret rfl (by simp)
    · split at hs
      · cases hs
        exact .ret rfl (by simp)
      · split at hs <;> cases hs
        · exact .ret rfl (by simp)
        · have hd : d ∈ s.owned t := hok
          exact .ret rfl (by simpa using hd)
  case same d x =>
    split at hs <;> cases hs
    · exact .ret rfl (by simp)
    · have hd : d ∈ s.owned t := hok
      exact .ret rfl (by simpa using hd)
  case preempt d x =>
    split at hs <;> cases hs
    exact .ret rfl (by simp)
  case leavePop d after =>
    split at hs
    · cases hs
    all_goals
      rename_i he
      cases hs
    · exact .left (log_nextRunnable he)
    · exact .goto (log_nextRunnable he)
  case leavePost d next after =>
    cases hs
    exact .left rfl
  case transferPop d x =>
    split at hs
    · cases hs
    · rename_i he
      cases hs
      exact .goto (log_nextRunnable he)
  case transferPublish x =>
    have hlog := log_pushPublish (s := s) (t := t) (c := x.toContext) (r := x.r)
    split at hs <;> cases hs <;> rename_i he <;> rw [he] at hlog
    · exact .of_log hlog
    · exact .thenMore hlog (by simp)
  case transferNextPop x =>
    split at hs
    · cases hs
    all_goals
      rename_i he
      cases hs
    · exact .thenMore (log_nextRunnable he) (by simp)
    · exact .goto (log_nextRunnable he)
  case transferNext x next =>
    split at hs
    · cases hs
      exact .thenMore rfl (by simp)
    · split at hs
      · cases hs
        exact .thenMore rfl (by simp)
      · split at hs <;> cases hs
        · exact .thenMore rfl fun _ => hok.2
        · exact .thenMore rfl (by simp)
  case transferMore how d more x result =>
    obtain ⟨-, hne, hres⟩ := hok
    cases hs
    refine .ret rfl ?_
    intro hr c hc
    obtain rfl : x.toContext = c := by simpa using hc
    simpa [State.schedule, State.move, Ne.symm hne] using hres hr
  all_goals
    cases hs
    try exact .of_log rfl

theorem step_trueOwns {a : Act R C} (hi : Inv sched s)
    (hs : (contexts sched).step s a = some s') : TrueOwns s s' := by
  cases a <;> simp only [contexts] at hs
  case enter t c r initial =>
    split at hs
    · split at hs <;> cases hs
      · exact .ret rfl (by simp)
      · exact .of_log rfl
    · cases hs
  case transfer t a b r returning =>
    split at hs <;> cases hs
    rename_i hc
    unfold startTransfer
    split
    · rename_i hab
      subst hab
      split
      · split
        · exact .of_log rfl
        · exact .ret rfl fun _ => hc.2.1
      · exact .ret rfl (by simp)
    · split
      · exact .of_log rfl
      · exact .ret rfl (by simp)
      · exact .of_log rfl
      · exact .of_log rfl
  case leave t c =>
    split at hs
    · split at hs <;> cases hs <;> exact .of_log rfl
    · cases hs
  case preempt t c r =>
    split at hs
    · split at hs <;> cases hs
      · exact .ret rfl (by simp)
      · exact .of_log rfl
    · cases hs
  case step t k => exact stepThread_trueOwns hi hs
  case run t e =>
    split at hs <;> cases hs
    exact .of_log rfl

-- ============================================================================
-- Every run
-- ============================================================================

/-- In every state of every run a locked context has one owner and an unlocked
    one has none, and a runnable whose call answered false and that did not run
    is in one mailbox, one queue, or the hands of one thread on its way from a
    pop to a post or defer; and when a call answers true the caller owns the
    context it entered, and the runnable is in no place. -/
theorem contexts_isolated (sched : C → S) :
    (∀ s : State R C S, (contexts sched).Reachable s → Isolated sched s) ∧
    (∀ (s s' : State R C S) (a : Act R C), (contexts sched).Reachable s →
      (contexts sched).step s a = some s' → ∀ t r b, s'.log = s.log ++ [⟨t, r, b, true⟩] →
        (∀ c ∈ b, c ∈ s'.owned t) ∧ ∀ p, ¬ At s' r p) := by
  refine ⟨fun s hr => (reachable_inv hr).isolated, ?_⟩
  intro s s' a hr hs t r b hlog
  obtain ⟨hown, hdone⟩ := step_trueOwns (reachable_inv hr) hs t r b hlog
  exact ⟨hown, (step_inv (reachable_inv hr) hs).isolated.gone r hdone⟩

end Returns

/-- Thread 0 enters the context with runnable 0 and owns it; the call of thread
    1 with runnable 1 returns false; thread 0 leaves, and has popped runnable 1
    but not posted it. -/
def poppedNotPosted : List (Act Nat Unit) :=
  let item : Choice Nat := ⟨.item, none⟩
  [.enter 0 (some ()) 0 false, .step 0 item, .step 0 item, .step 0 item, .step 0 item,
   .enter 1 (some ()) 1 false, .step 1 item, .step 1 item,
   .leave 0 (some ()), .step 0 item]

/-- Mailboxes and scheduler queues alone do not hold every waiting runnable. -/
theorem waiting_not_stored :
    ¬ ∀ s : State Nat Unit Unit, (contexts fun _ => ()).Reachable s → ∀ r, s.status r = .waiting →
      ∃ p, (∀ t, p ≠ Spot.hands t) ∧ At s r p := by
  intro h
  obtain ⟨s, hr, hp⟩ := System.exists_reachable_of_run (M := contexts fun _ : Unit => ())
    (s := State.start) poppedNotPosted
    (fun s => s.status 1 == .waiting && (s.box ()).items == [] && s.queue () == [])
    rfl (by decide)
  simp only [Bool.and_eq_true, beq_iff_eq] at hp
  obtain ⟨p, hne, hat⟩ := h s hr 1 hp.1.1
  cases p with
  | mailbox c => simp [At, hp.1.2] at hat
  | queue q => simp [At, hp.2] at hat
  | hands t => exact hne t rfl

end Coroactors.Context
