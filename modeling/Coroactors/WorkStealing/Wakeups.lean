/-
  Coroactors.WorkStealing.Wakeups

  Waiting and waking in `WorkStealingScheduler`
  (src/benchmarks/benchmark_actor_latency.cpp): the threads of
  Coroactors.WorkStealing.Global with the sleepers of `blocked_threads_` and the
  calls of `notify_one` and `notify_all`.

  A worker in `wait` falls asleep when it finds the value it expects, and goes
  on only after it was woken, which may also happen without a reason.  A thread
  whose step requires a `notify_one` owes it (`notifying`) until it makes the
  call; the sleeper that is woken is any one of them.  `wokenUp` and `current`
  are the variables of `next_task` that decide whether a worker wakes the next
  one before it returns.
-/

import Coroactors.Conc.Sleepers
import Coroactors.WorkStealing.GlobalOwner

namespace Coroactors.WorkStealing.Wakeups

open Coroactors.Conc
open Coroactors.WorkStealing.Global (Pc Choice FlagShutdown FlagLocalTasksMask
  FlagGlobalQueueLockedMask FlagWakeupMask WaitingThreadsIncrement scheduler stepThread)

-- ============================================================================
-- Model
-- ============================================================================

structure State (N : Type*) where
  base : Global.State N
  /-- The threads that are blocked in `wait`. -/
  asleep : List Nat
  wokenUp : Nat → Bool
  current : Nat → Nat
  /-- The threads before their `notify_one`. -/
  notifying : List Nat
  /-- The destructor is before its `notify_all`. -/
  closing : Bool

inductive Act (N : Type*) where
  | pushToGlobal (t : Nat) (n : N)
  | wakeByLocalTasks (t : Nat)
  | nextTask (t : Nat) (global : Bool)
  | step (t : Nat) (c : Choice)
  /-- `notify_one`, and whom it wakes. -/
  | notify (t : Nat) (w : Option Nat)
  /-- A thread in `wait` looks at the value again without being notified. -/
  | spurious (w : Nat)
  | shutdown
  | notifyAll
deriving DecidableEq, Repr

section Model

variable {N : Type*} [DecidableEq N]

def State.start (next : N → Mailbox.Word N) : State N where
  base := .start next
  asleep := []
  wokenUp _ := false
  current _ := 0
  notifying := []
  closing := false

namespace State

/-- The next step of the thread is followed by `notify_one`. -/
def mustNotify (s : State N) (t : Nat) : Bool :=
  match s.base.pc t with
  | .pushAdd =>
      s.base.word &&& FlagGlobalQueueLockedMask = 0 ∧ WaitingThreadsIncrement ≤ s.base.word
  | .wakeOr => s.base.word &&& FlagLocalTasksMask = 0 ∧ WaitingThreadsIncrement ≤ s.base.word
  | .nextRelease _ =>
      s.wokenUp t = true ∧ s.current t &&& FlagWakeupMask ≠ 0 ∧
        WaitingThreadsIncrement ≤ s.current t
  | _ => false

/-- `woken_up` after a step of the thread to `b`. -/
def wokenAfter (s : State N) (t : Nat) (c : Choice) (b : Global.State N) : Bool :=
  match s.base.pc t with
  | .nextLoad => false
  | .nextSteal _ => if c = .found then s.wokenUp t else false
  | .nextWait _ => b.pc t = .nextSub false
  | _ => s.wokenUp t

/-- `current` after a step of the thread under the mutex to `b`. -/
def currentAfter (s : State N) (t : Nat) (b : Global.State N) : Nat :=
  match s.base.pc t with
  | .nextLocked | .nextSubGlobal _ | .nextSubLocal => b.word
  | _ => s.current t

/-- The thread made a step to `b`. -/
def advance (s : State N) (t : Nat) (c : Choice) (b : Global.State N) : State N :=
  { s with
    base := b
    wokenUp := Function.update s.wokenUp t (s.wokenAfter t c b)
    current := Function.update s.current t (s.currentAfter t b)
    notifying := if s.mustNotify t then t :: s.notifying else s.notifying }

end State

/-- The scheduler with its sleepers. -/
def sleepers : System (State N) (Act N) where
  init s := ∃ next, s = .start next
  step s
    | .pushToGlobal t n =>
        if t ∈ s.notifying then none
        else (scheduler.step s.base (.pushToGlobal t n)).map fun b => { s with base := b }
    | .wakeByLocalTasks t =>
        if t ∈ s.notifying then none
        else (scheduler.step s.base (.wakeByLocalTasks t)).map fun b => { s with base := b }
    | .nextTask t global =>
        if t ∈ s.notifying then none
        else (scheduler.step s.base (.nextTask t global)).map fun b => { s with base := b }
    | .step t c =>
        if t ∈ s.asleep ∨ t ∈ s.notifying then none
        else if s.base.pc t = .nextWait s.base.word then some { s with asleep := t :: s.asleep }
        else (stepThread s.base t c).map (s.advance t c)
    | .notify t w =>
        if t ∈ s.notifying then
          (notifyOne s.asleep w).map fun l =>
            { s with asleep := l, notifying := s.notifying.erase t }
        else none
    | .spurious w =>
        if w ∈ s.asleep then some { s with asleep := s.asleep.erase w } else none
    | .shutdown =>
        (scheduler.step s.base .shutdown).map fun b => { s with base := b, closing := true }
    | .notifyAll => if s.closing then some { s with asleep := [], closing := false } else none

end Model

-- ============================================================================
-- Who is on the way
-- ============================================================================

section Invariant

variable {N : Type*} {s s' : State N} {t u : Nat} {c : Choice} {b : Global.State N} {q : Pc N}

/-- Some bit that wakes a worker is set. -/
def State.Alarm (s : State N) : Prop := s.base.word &&& FlagWakeupMask ≠ 0

/-- The worker goes for the mutex. -/
def isHeading : Pc N → Bool
  | .nextSub false | .nextLock | .nextLocked => true
  | _ => false

/-- The worker is under the mutex, and knows that there is something to do. -/
def isWorking : Pc N → Bool
  | .nextPop | .nextUnlock _ | .nextSubGlobal _ | .nextStealLocked | .nextSubLocal => true
  | _ => false

def isReleasing : Pc N → Bool
  | .nextRelease _ => true
  | _ => false

/-- The thread is going to look at the queues, or to wake somebody who will:
    it owes a `notify_one`, or is in `wait` but not asleep, or was woken and has
    not come to a mutex with nothing to do. -/
def State.OnWay (s : State N) (t : Nat) : Prop :=
  t ∈ s.notifying ∨ (∃ v, s.base.pc t = .nextWait v) ∧ t ∉ s.asleep ∨
    s.wokenUp t = true ∧ (isHeading (s.base.pc t) = true ∨ isWorking (s.base.pc t) = true ∨
      isReleasing (s.base.pc t) = true ∧ s.current t &&& FlagWakeupMask ≠ 0)

structure Inv [DecidableEq N] (s : State N) : Prop where
  base : scheduler.Reachable s.base
  nodup : s.asleep.Nodup
  sleeps : ∀ w ∈ s.asleep, ∃ v, s.base.pc w = .nextWait v
  -- A worker waits for a change of a value that told it to wait
  expects : ∀ t v, s.base.pc t = .nextSteal v ∨ s.base.pc t = .nextWait v →
    v &&& FlagWakeupMask = 0
  working : ∀ t, isWorking (s.base.pc t) = true → s.current t &&& FlagWakeupMask ≠ 0
  -- While one works under the mutex the alarm stays on, and nobody falls asleep
  current : ∀ t, isWorking (s.base.pc t) = true ∨ isReleasing (s.base.pc t) = true →
    s.current t &&& FlagWakeupMask ≠ 0 →
      s.Alarm ∧ (s.asleep ≠ [] → WaitingThreadsIncrement ≤ s.current t)
  closed : s.base.word &&& FlagShutdown ≠ 0 → s.closing = true ∨ s.asleep = []
  covered : Covered (s.Alarm ∧ s.closing = false) s.asleep s.OnWay

theorem holds_of_isWorking {p : Pc N} (h : isWorking p = true ∨ isReleasing p = true) :
    p.role.holds = true := by
  cases p <;> first | rfl | simp [isWorking, isReleasing] at h

variable [DecidableEq N]

/-- With a sleeper, some thread is counted as waiting. -/
theorem Inv.waits (h : Inv s) (hne : s.asleep ≠ []) : WaitingThreadsIncrement ≤ s.base.word := by
  obtain ⟨w, hw⟩ := List.exists_mem_of_ne_nil _ hne
  obtain ⟨v, hv⟩ := h.sleeps w hw
  have hb := Global.reachable_inv h.base
  have hmem := (hb.waits w).mpr (by rw [hv]; rfl)
  have hpos := List.length_pos_of_mem hmem
  have hcount := hb.waiting_eq
  unfold WaitingThreadsIncrement
  omega

-- ============================================================================
-- A step of a thread
-- ============================================================================

/-- A thread at `p` goes to `q`: what has to be shown about the new state. -/
theorem Inv.move (h : Inv s) (hs : stepThread s.base t c = some b) (hawake : t ∉ s.asleep)
    (hfree : t ∉ s.notifying) (hpc : b.pc = Function.update s.base.pc t q)
    (hexpects : ∀ v, q = .nextSteal v ∨ q = .nextWait v → v &&& FlagWakeupMask = 0)
    (hshut : b.word &&& FlagShutdown = s.base.word &&& FlagShutdown)
    (hkeeps : (s.base.pc t).role.holds = false → s.Alarm → b.word &&& FlagWakeupMask ≠ 0)
    (hraises : b.word &&& FlagWakeupMask ≠ 0 → s.asleep ≠ [] → ¬s.Alarm → s.mustNotify t = true)
    (hworking : isWorking q = true → s.currentAfter t b &&& FlagWakeupMask ≠ 0)
    (hcurrent : isWorking q = true ∨ isReleasing q = true →
      s.currentAfter t b &&& FlagWakeupMask ≠ 0 → b.word &&& FlagWakeupMask ≠ 0 ∧
        (s.asleep ≠ [] → WaitingThreadsIncrement ≤ s.currentAfter t b))
    (hway : b.word &&& FlagWakeupMask ≠ 0 → s.asleep ≠ [] → s.closing = false →
      (∃ v, s.base.pc t = .nextWait v) ∨ s.wokenUp t = true ∧ (isHeading (s.base.pc t) = true ∨
        isWorking (s.base.pc t) = true ∨
          isReleasing (s.base.pc t) = true ∧ s.current t &&& FlagWakeupMask ≠ 0) →
      (s.advance t c b).OnWay t) :
    Inv (s.advance t c b) := by
  have hself : b.pc t = q := by rw [hpc, Function.update_self]
  have hother : ∀ u, u ≠ t → b.pc u = s.base.pc u := fun u hu => by
    rw [hpc, Function.update_of_ne hu]
  have hnotify : ∀ u, u ∈ s.notifying → u ∈ (s.advance t c b).notifying := by
    intro u hu
    simp only [State.advance]
    split
    · exact List.mem_cons_of_mem _ hu
    · exact hu
  refine ⟨h.base.next (.step t c) hs, h.nodup, ?_, ?_, ?_, ?_, ?_, ?_⟩
  · intro w hw
    rw [show (s.advance t c b).base.pc w = b.pc w from rfl, hother w (fun e => hawake (e ▸ hw))]
    exact h.sleeps w hw
  · intro u v hu
    rw [show (s.advance t c b).base.pc u = b.pc u from rfl] at hu
    by_cases hut : u = t
    · rw [hut, hself] at hu
      exact hexpects v hu
    · rw [hother u hut] at hu
      exact h.expects u v hu
  · intro u hu
    rw [show (s.advance t c b).base.pc u = b.pc u from rfl] at hu
    by_cases hut : u = t
    · subst hut
      rw [hself] at hu
      simpa [State.advance] using hworking hu
    · rw [hother u hut] at hu
      simpa [State.advance, Function.update_of_ne hut] using h.working u hu
  · intro u hu hcur
    rw [show (s.advance t c b).base.pc u = b.pc u from rfl] at hu
    by_cases hut : u = t
    · subst hut
      rw [hself] at hu
      simp only [State.advance, Function.update_self] at hcur ⊢
      exact hcurrent hu hcur
    · rw [hother u hut] at hu
      simp only [State.advance, Function.update_of_ne hut] at hcur ⊢
      obtain ⟨halarm, hwait⟩ := h.current u hu hcur
      refine ⟨hkeeps ?_ halarm, hwait⟩
      -- only one of the two has the mutex
      have hb := Global.reachable_inv h.base
      have hmutex := (hb.mutex u).mpr (holds_of_isWorking hu)
      by_contra hholds
      have ht := (hb.mutex t).mpr (by simpa using hholds)
      rw [hmutex, Option.some.injEq] at ht
      exact hut ht
  · intro hodd
    rw [show (s.advance t c b).base.word = b.word from rfl, hshut] at hodd
    exact h.closed hodd
  · refine h.covered.move t (List.Subset.refl _) ?_ ?_ ?_
    · rintro ⟨halarm, hopen⟩ hne hcalm
      have hmust := hraises halarm hne fun ha => hcalm ⟨ha, hopen⟩
      exact .inl (by simp [State.advance, hmust])
    · intro u hut hu
      rcases hu with hu | ⟨⟨v, hv⟩, hsleep⟩ | ⟨hwoken, hplace⟩
      · exact .inl (hnotify u hu)
      · exact .inr (.inl ⟨⟨v, (hother u hut).trans hv⟩, hsleep⟩)
      · refine .inr (.inr ⟨(Function.update_of_ne hut ..).trans hwoken, ?_⟩)
        rw [show (s.advance t c b).base.pc u = b.pc u from rfl, hother u hut,
          show (s.advance t c b).current u = s.current u from Function.update_of_ne hut ..]
        exact hplace
    · rintro ⟨halarm, hopen⟩ hne hu
      rcases hu with hu | ⟨hu, -⟩ | hu
      · exact absurd hu hfree
      · exact ⟨t, hway halarm hne hopen (.inl hu)⟩
      · exact ⟨t, hway halarm hne hopen (.inr hu)⟩

/-- A place where the alarm does not matter. -/
def isOutside : Pc N → Bool
  | .nextSub false | .nextLock | .nextLocked | .nextPop | .nextUnlock _ | .nextSubGlobal _
  | .nextStealLocked | .nextSubLocal | .nextRelease _ | .nextSteal _ | .nextWait _ => false
  | _ => true

omit [DecidableEq N] in
theorem of_isOutside {p : Pc N} (h : isOutside p = true) :
    isHeading p = false ∧ isWorking p = false ∧ isReleasing p = false ∧
      (∀ v, p ≠ .nextSteal v) ∧ ∀ v, p ≠ .nextWait v := by
  cases p
  case nextSub b => cases b <;> simp_all [isOutside, isHeading, isWorking, isReleasing]
  all_goals simp_all [isOutside, isHeading, isWorking, isReleasing]

/-- A step between two places where the alarm does not matter. -/
theorem Inv.outside (h : Inv s) (hs : stepThread s.base t c = some b) (hawake : t ∉ s.asleep)
    (hfree : t ∉ s.notifying) (hpc : b.pc = Function.update s.base.pc t q)
    (hp : isOutside (s.base.pc t) = true) (hq : isOutside q = true)
    (hshut : b.word &&& FlagShutdown = s.base.word &&& FlagShutdown)
    (hkeeps : (s.base.pc t).role.holds = false → s.Alarm → b.word &&& FlagWakeupMask ≠ 0)
    (hraises : b.word &&& FlagWakeupMask ≠ 0 → s.asleep ≠ [] → ¬s.Alarm → s.mustNotify t = true) :
    Inv (s.advance t c b) := by
  obtain ⟨hp1, hp2, hp3, -, hp4⟩ := of_isOutside hp
  obtain ⟨-, hq2, hq3, hq4, hq5⟩ := of_isOutside hq
  refine h.move hs hawake hfree hpc ?_ hshut hkeeps hraises ?_ ?_ ?_
  · rintro v (hv | hv)
    · exact absurd hv (hq4 v)
    · exact absurd hv (hq5 v)
  · rw [hq2]
    intro hq
    cases hq
  · rw [hq2, hq3]
    rintro (hf | hf) <;> cases hf
  · rw [hp1, hp2, hp3]
    rintro - - - (⟨v, hv⟩ | ⟨-, hf | hf | ⟨hf, -⟩⟩)
    · exact absurd hv (hp4 v)
    all_goals cases hf

/-- Such a step that leaves the word alone. -/
theorem Inv.still (h : Inv s) (hs : stepThread s.base t c = some b) (hawake : t ∉ s.asleep)
    (hfree : t ∉ s.notifying) (hpc : b.pc = Function.update s.base.pc t q)
    (hp : isOutside (s.base.pc t) = true) (hq : isOutside q = true)
    (hword : b.word = s.base.word) : Inv (s.advance t c b) := by
  refine h.outside hs hawake hfree hpc hp hq (by rw [hword]) (fun _ ha => ?_) fun ha _ hn => ?_
  · rw [hword]
    exact ha
  · rw [hword] at ha
    exact absurd ha hn

omit [DecidableEq N] in
/-- The worker under the mutex knows the value `v` of the word. -/
theorem recheck_place {s : Global.State N} [DecidableEq N] (t v : Nat) :
    ∃ q, (s.recheck t v).pc = Function.update s.pc t q ∧ (s.recheck t v).word = s.word ∧
      ((q = .nextLoad ∧ v &&& FlagWakeupMask = 0) ∨
        (v &&& FlagWakeupMask ≠ 0 ∧ (q = .nextPop ∨ q = .nextStealLocked ∨ q = .nextLocked ∨
          q = .idle ∧ v &&& FlagShutdown ≠ 0))) := by
  unfold Global.State.recheck
  split
  next hv => exact ⟨.nextLoad, rfl, rfl, .inl ⟨rfl, hv⟩⟩
  next hv =>
  split
  · refine ⟨.nextPop, ?_, ?_, .inr ⟨hv, .inl rfl⟩⟩ <;> unfold Global.State.withdraw <;> split <;> rfl
  · split
    · exact ⟨.nextStealLocked, rfl, rfl, .inr ⟨hv, .inr (.inl rfl)⟩⟩
    · split
      next hs => exact ⟨.idle, rfl, rfl, .inr ⟨hv, .inr (.inr (.inr ⟨rfl, hs⟩))⟩⟩
      · exact ⟨.nextLocked, rfl, rfl, .inr ⟨hv, .inr (.inr (.inl rfl))⟩⟩

/-- The worker under the mutex looks at the word, after it changed it to `v`. -/
theorem Inv.recheck {v : Nat} (h : Inv s)
    (hs : stepThread s.base t c = some (({ s.base with word := v } : Global.State N).recheck t v))
    (hawake : t ∉ s.asleep) (hfree : t ∉ s.notifying)
    (hholds : (s.base.pc t).role.holds = true)
    (hcur : ∀ b : Global.State N, s.currentAfter t b = b.word)
    (hwoken : ∀ b, s.wokenAfter t c b = s.wokenUp t)
    (hwait : ∀ w, s.base.pc t ≠ .nextWait w)
    (hshut : v &&& FlagShutdown = s.base.word &&& FlagShutdown)
    (hraises : v &&& FlagWakeupMask ≠ 0 → s.Alarm)
    (hcount : WaitingThreadsIncrement ≤ s.base.word → WaitingThreadsIncrement ≤ v) :
    Inv (s.advance t c (({ s.base with word := v } : Global.State N).recheck t v)) := by
  obtain ⟨q, hpc, hword, hq⟩ := recheck_place (s := ({ s.base with word := v } : Global.State N)) t v
  refine h.move (q := q) hs hawake hfree hpc ?_ (by rw [hword, hshut]) ?_ ?_ ?_ ?_ ?_
  · rintro w hw
    rcases hq with ⟨rfl, -⟩ | ⟨-, rfl | rfl | rfl | ⟨rfl, -⟩⟩ <;> rcases hw with hw | hw <;> cases hw
  · rw [hholds]
    intro hq
    cases hq
  · rw [hword]
    exact fun ha _ hn => absurd (hraises ha) hn
  · intro hw
    rw [hcur, hword]
    rcases hq with ⟨rfl, -⟩ | ⟨hv, -⟩
    · cases hw
    · exact hv
  · rw [hcur, hword]
    exact fun _ hv => ⟨hv, fun hne => hcount (h.waits hne)⟩
  · rw [hword]
    rintro ha hne hopen (⟨w, hw⟩ | ⟨hw, -⟩)
    · exact absurd hw (hwait w)
    · have hwoken' : (s.advance t c (({ s.base with word := v } : Global.State N).recheck t v)).wokenUp
          t = true := by
        simp only [State.advance, Function.update_self, hwoken]
        exact hw
      have hplace : (s.advance t c (({ s.base with word := v } : Global.State N).recheck t v)).base.pc
          t = q := by
        simp only [State.advance, hpc, Function.update_self]
      refine .inr (.inr ⟨hwoken', ?_⟩)
      rw [hplace]
      rcases hq with ⟨-, hv⟩ | ⟨-, rfl | rfl | rfl | ⟨-, hodd⟩⟩
      · exact absurd hv ha
      · exact .inr (.inl rfl)
      · exact .inr (.inl rfl)
      · exact .inl rfl
      · rw [hshut] at hodd
        rcases h.closed hodd with hc | hc
        · rw [hopen] at hc
          cases hc
        · exact absurd hc hne

-- ============================================================================
-- The steps
-- ============================================================================

theorem mask_of_mod {v w : Nat} (h : v % 32 = w % 32) :
    v &&& FlagWakeupMask = w &&& FlagWakeupMask ∧ v &&& FlagShutdown = w &&& FlagShutdown := by
  rw [Global.and_wakeup, Global.and_wakeup, Global.and_shutdown, Global.and_shutdown]
  omega

/-- `push_to_global` adds the lock's unit. -/
theorem Inv.pushAdd (h : Inv s) (hp : s.base.pc t = .pushAdd)
    (hs : stepThread s.base t c = some b) (hawake : t ∉ s.asleep) (hfree : t ∉ s.notifying) :
    Inv (s.advance t c b) := by
  have hb := Global.reachable_inv h.base
  have hcount := hb.count
  have hstored := Global.stored_le (s := s.base)
  have hunit := Global.unit_le (s := s.base)
  simp only [stepThread, hp] at hs
  have hword : b.word = s.base.word + 8 := by
    cases hs
    unfold Global.State.deposit
    split <;> rfl
  have hpc : b.pc = Function.update s.base.pc t .idle := by
    cases hs
    unfold Global.State.deposit
    split <;> rfl
  have hlocked : s.base.word / 8 % 4 ≤ 2 := by
    rw [show s.base.word / 8 % 4 = _ from hcount]
    omega
  have halarm : b.word &&& FlagWakeupMask ≠ 0 := by
    rw [hword, Global.and_wakeup]
    omega
  refine h.outside (by simp only [stepThread, hp]; exact hs) hawake hfree hpc (by rw [hp]; rfl) rfl
    ?_ (fun _ _ => halarm) fun _ hne hcalm => ?_
  · rw [hword, Global.and_shutdown, Global.and_shutdown]
    omega
  · have hzero : s.base.word % 32 = 0 := by
      rw [← Global.and_wakeup]
      exact not_not.mp hcalm
    have hglobal : s.base.word &&& FlagGlobalQueueLockedMask = 0 := by
      rw [Global.and_global, Global.globalLocked]
      omega
    simp only [State.mustNotify, hp, hglobal, h.waits hne, and_self, decide_true]

/-- `wake_by_local_tasks` sets the flag. -/
theorem Inv.wakeOr (h : Inv s) (hp : s.base.pc t = .wakeOr)
    (hs : stepThread s.base t c = some b) (hawake : t ∉ s.asleep) (hfree : t ∉ s.notifying) :
    Inv (s.advance t c b) := by
  simp only [stepThread, hp] at hs
  have hword : b.word = s.base.word ||| FlagLocalTasksMask := by
    cases hs
    rfl
  have halarm : b.word &&& FlagWakeupMask ≠ 0 := by
    have hmod := Global.or_local_mod s.base.word
    rw [hword, Global.and_wakeup]
    omega
  refine h.outside (q := .idle) (by simp only [stepThread, hp]; exact hs) hawake hfree
    (by cases hs; rfl) (by rw [hp]; rfl) rfl ?_ (fun _ _ => halarm) fun _ hne hcalm => ?_
  · have hmod : (s.base.word ||| 6) % 2 ^ 1 = s.base.word % 2 ^ 1 ||| 6 % 2 ^ 1 :=
      Nat.or_mod_two_pow
    rw [hword, Global.and_shutdown, Global.and_shutdown]
    simpa [FlagLocalTasksMask] using hmod
  · have hzero : s.base.word % 32 = 0 := by
      rw [← Global.and_wakeup]
      exact not_not.mp hcalm
    have hlocal : s.base.word &&& FlagLocalTasksMask = 0 := by
      rw [Global.and_local]
      omega
    simp only [State.mustNotify, hp, hlocal, h.waits hne, and_self, decide_true]

/-- `pop_global_task` subtracts the lock's unit. -/
theorem Inv.globalSub {r : Option (Mailbox.Ptr N)} (h : Inv s) (hp : s.base.pc t = .globalSub r)
    (hs : stepThread s.base t c = some b) (hawake : t ∉ s.asleep) (hfree : t ∉ s.notifying) :
    Inv (s.advance t c b) := by
  have hcount := (Global.reachable_inv h.base).unit_le_count (t := t) (by rw [hp]; rfl)
    (by rw [hp]; rfl)
  rw [Global.globalLocked] at hcount
  simp only [stepThread, hp, Global.FlagGlobalQueueLocked] at hs
  have hword : b.word = s.base.word - 8 := by
    cases hs
    rfl
  refine h.outside (q := .globalRelease r) (by simp only [stepThread, hp]; exact hs) hawake hfree
    (by cases hs; rfl) (by rw [hp]; rfl) rfl ?_ ?_ fun _ _ hcalm => ?_
  · rw [hword, Global.and_shutdown, Global.and_shutdown]
    omega
  · rw [hp]
    intro hq
    cases hq
  · unfold State.Alarm at hcalm
    rw [Global.and_wakeup] at hcalm
    omega

/-- A worker is counted as waiting. -/
theorem Inv.nextAdd (h : Inv s) (hp : s.base.pc t = .nextAdd)
    (hs : stepThread s.base t c = some b) (hawake : t ∉ s.asleep) (hfree : t ∉ s.notifying) :
    Inv (s.advance t c b) := by
  obtain ⟨hmask, hshut⟩ := mask_of_mod (v := s.base.word + WaitingThreadsIncrement) (w := s.base.word)
    (by unfold WaitingThreadsIncrement; omega)
  simp only [stepThread, hp] at hs
  have hs' : stepThread s.base t c = some b := by simp only [stepThread, hp]; exact hs
  split at hs <;> cases hs
  next hcalm =>
    refine h.move (q := .nextSteal (s.base.word + WaitingThreadsIncrement)) hs' hawake hfree rfl
      ?_ hshut ?_ ?_ (fun hq => by cases hq) ?_ ?_
    · rintro v (hv | hv) <;> cases hv
      exact hcalm
    · exact fun _ ha => absurd (hmask.symm.trans hcalm) ha
    · exact fun ha _ _ => absurd hcalm ha
    · rintro (hf | hf) <;> cases hf
    · exact fun ha => absurd hcalm ha
  next hcalm =>
    refine h.move (q := .nextSub false) hs' hawake hfree rfl ?_ hshut ?_ ?_
      (fun hq => by cases hq) ?_ ?_
    · rintro v (hv | hv) <;> cases hv
    · exact fun _ _ => hcalm
    · exact fun _ _ hn => absurd (fun hz => hcalm (hmask.trans hz)) hn
    · rintro (hf | hf) <;> cases hf
    · rw [hp]
      rintro - - - (⟨v, hv⟩ | ⟨-, hf | hf | ⟨hf, -⟩⟩)
      · cases hv
      all_goals cases hf

/-- A worker that waits goes to sleep, or finds nothing changed by `try_stealing`. -/
theorem Inv.nextSteal {v : Nat} (h : Inv s) (hp : s.base.pc t = .nextSteal v)
    (hs : stepThread s.base t c = some b) (hawake : t ∉ s.asleep) (hfree : t ∉ s.notifying) :
    Inv (s.advance t c b) := by
  have hv := h.expects t v (.inl hp)
  simp only [stepThread, hp] at hs
  have hs' : stepThread s.base t c = some b := by simp only [stepThread, hp]; exact hs
  have hno : ¬((∃ w, s.base.pc t = .nextWait w) ∨ s.wokenUp t = true ∧
      (isHeading (s.base.pc t) = true ∨ isWorking (s.base.pc t) = true ∨
        isReleasing (s.base.pc t) = true ∧ s.current t &&& FlagWakeupMask ≠ 0)) := by
    rw [hp]
    rintro (⟨w, hw⟩ | ⟨-, hf | hf | ⟨hf, -⟩⟩)
    · cases hw
    all_goals cases hf
  split at hs <;> cases hs
  · refine h.move (q := .nextSub true) hs' hawake hfree rfl ?_ rfl (fun _ ha => ha)
      (fun ha _ hn => absurd ha hn) (fun hq => by cases hq) ?_ fun _ _ _ hw => absurd hw hno
    · rintro w (hw | hw) <;> cases hw
    · rintro (hf | hf) <;> cases hf
  · refine h.move (q := .nextWait v) hs' hawake hfree rfl ?_ rfl (fun _ ha => ha)
      (fun ha _ hn => absurd ha hn) (fun hq => by cases hq) ?_ fun _ _ _ hw => absurd hw hno
    · rintro w (hw | hw) <;> cases hw
      exact hv
    · rintro (hf | hf) <;> cases hf

/-- A worker comes back from `wait`. -/
theorem Inv.nextWait {v : Nat} (h : Inv s) (hp : s.base.pc t = .nextWait v)
    (hs : stepThread s.base t c = some b) (hawake : t ∉ s.asleep) (hfree : t ∉ s.notifying) :
    Inv (s.advance t c b) := by
  simp only [stepThread, hp] at hs
  have hs' : stepThread s.base t c = some b := by simp only [stepThread, hp]; exact hs
  split at hs
  · cases hs
  split at hs <;> cases hs
  next hcalm =>
    refine h.move (q := .nextWait s.base.word) hs' hawake hfree rfl ?_ rfl (fun _ ha => ha)
      (fun ha _ hn => absurd ha hn) (fun hq => by cases hq) ?_ fun ha => absurd hcalm ha
    · rintro w (hw | hw) <;> cases hw
      exact hcalm
    · rintro (hf | hf) <;> cases hf
  next halarm =>
    refine h.move (q := .nextSub false) hs' hawake hfree rfl ?_ rfl (fun _ ha => ha)
      (fun ha _ hn => absurd ha hn) (fun hq => by cases hq) ?_ fun _ _ _ _ => ?_
    · rintro w (hw | hw) <;> cases hw
    · rintro (hf | hf) <;> cases hf
    · have hplace : (s.base.goto t (.nextSub false)).pc t = .nextSub false := Function.update_self ..
      refine .inr (.inr ⟨?_, .inl ?_⟩)
      · simp only [State.advance, Function.update_self, State.wokenAfter, hp, hplace, decide_true]
      · simp only [State.advance, hplace, isHeading]

/-- A worker is not counted any more. -/
theorem Inv.nextSub {stolen : Bool} (h : Inv s) (hp : s.base.pc t = .nextSub stolen)
    (hs : stepThread s.base t c = some b) (hawake : t ∉ s.asleep) (hfree : t ∉ s.notifying) :
    Inv (s.advance t c b) := by
  have hb := Global.reachable_inv h.base
  have hpos := List.length_pos_of_mem ((hb.waits t).mpr (by rw [hp]; rfl))
  have hcount := hb.waiting_eq
  obtain ⟨hmask, hshut⟩ := mask_of_mod (v := s.base.word - WaitingThreadsIncrement) (w := s.base.word)
    (by unfold WaitingThreadsIncrement; omega)
  have hkeeps : s.Alarm → s.base.word - WaitingThreadsIncrement &&& FlagWakeupMask ≠ 0 := fun ha hz =>
    ha (hmask.symm.trans hz)
  have hraises : s.base.word - WaitingThreadsIncrement &&& FlagWakeupMask ≠ 0 → s.Alarm := fun ha hz =>
    ha (hmask.trans hz)
  simp only [stepThread, hp] at hs
  have hs' : stepThread s.base t c = some b := by simp only [stepThread, hp]; exact hs
  cases stolen with
  | true =>
      cases hs
      refine h.outside (q := .idle) hs' hawake hfree rfl (by rw [hp]; rfl) rfl hshut
        (fun _ => hkeeps) fun ha _ hn => absurd (hraises ha) hn
  | false =>
      simp only [Bool.false_eq_true, if_false, Global.State.look] at hs
      split at hs <;> cases hs
      next hcalm =>
        refine h.move (q := .nextAdd) hs' hawake hfree rfl ?_ hshut (fun _ => hkeeps)
          (fun ha => absurd hcalm ha) (fun hq => by cases hq) ?_ fun ha => absurd hcalm ha
        · rintro w (hw | hw) <;> cases hw
        · rintro (hf | hf) <;> cases hf
      next halarm =>
        refine h.move (q := .nextLock) hs' hawake hfree rfl ?_ hshut (fun _ => hkeeps)
          (fun ha _ hn => absurd (hraises ha) hn) (fun hq => by cases hq) ?_ ?_
        · rintro w (hw | hw) <;> cases hw
        · rintro (hf | hf) <;> cases hf
        · rw [hp]
          rintro - - - (⟨w, hw⟩ | ⟨hw, -⟩)
          · cases hw
          · refine .inr (.inr ⟨?_, .inl ?_⟩)
            · simpa [State.advance, State.wokenAfter, hp] using hw
            · simp [State.advance, Global.State.goto, isHeading]

/-- A worker goes on under the mutex, with the same knowledge. -/
theorem Inv.worked (h : Inv s) (hs : stepThread s.base t c = some b) (hawake : t ∉ s.asleep)
    (hfree : t ∉ s.notifying) (hpc : b.pc = Function.update s.base.pc t q)
    (hword : b.word = s.base.word) (hp : isWorking (s.base.pc t) = true)
    (hq : isWorking q = true ∨ isReleasing q = true) (hwait : ∀ v, s.base.pc t ≠ .nextWait v)
    (hcur : s.currentAfter t b = s.current t) (hwoken : s.wokenAfter t c b = s.wokenUp t) :
    Inv (s.advance t c b) := by
  have hknown := h.working t hp
  refine h.move hs hawake hfree hpc ?_ (by rw [hword]) ?_ ?_ ?_ ?_ ?_
  · rintro v (rfl | rfl) <;> rcases hq with hq | hq <;> cases hq
  · rw [holds_of_isWorking (.inl hp)]
    intro hq
    cases hq
  · rw [hword]
    exact fun ha _ hn => absurd ha hn
  · rw [hcur]
    exact fun _ => hknown
  · rw [hcur, hword]
    exact fun _ => h.current t (.inl hp)
  · rintro - - - (⟨v, hv⟩ | ⟨hw, -⟩)
    · exact absurd hv (hwait v)
    · refine .inr (.inr ⟨?_, ?_⟩)
      · simpa [State.advance, hwoken] using hw
      · simp only [State.advance, hpc, Function.update_self, hcur]
        rcases hq with hq | hq
        · exact .inr (.inl hq)
        · exact .inr (.inr ⟨hq, hknown⟩)

theorem stepMailbox_op {s : Global.State N} {o : Mailbox.Op} (h : Global.Inv s)
    (hcall : (s.pc t).role.call = .op o) (hs : s.stepMailbox t = some b) :
    (∃ m, b = { s with mailbox := m }) ∨ ∃ m e, e.Returns (t + 1) o ∧
      b = ({ s with mailbox := m } : Global.State N).returned t (some e) := by
  obtain ⟨m, hm, hreach, -, rfl⟩ := Global.stepMailbox_cases h hs
  have hop : (s.mailbox.pc (t + 1)).op = some o := by
    have hin := h.inside t
    rwa [hcall] at hin
  cases Mailbox.stepThread_call hm hop with
  | inside hin hlog howners =>
      have hne : m.pc (t + 1) ≠ .idle := fun hi => by simp [hi, Mailbox.Pc.op] at hin
      exact .inl ⟨m, if_neg hne⟩
  | returned e hidle hlog howners hret =>
      exact .inr ⟨m, e, hret, by rw [if_pos hidle, hlog, List.getLast?_concat]⟩
  | crashed hc =>
      have hok := (Mailbox.reachable_inv hreach).pc (t + 1)
      rw [hc] at hok
      exact hok.elim

omit [DecidableEq N] in
theorem deposit_pc {s : Global.State N} : (s.deposit t).pc = s.pc ∧ (s.deposit t).word = s.word := by
  unfold Global.State.deposit
  split <;> exact ⟨rfl, rfl⟩

/-- A call on the mailbox outside the loop of `next_task`. -/
theorem Inv.mailboxOutside (h : Inv s)
    (hp : s.base.pc t = .push ∨ s.base.pc t = .pushUnlock ∨ s.base.pc t = .globalPop ∨
      ∃ r, s.base.pc t = .globalUnlock r)
    (hs : stepThread s.base t c = some b) (hawake : t ∉ s.asleep) (hfree : t ∉ s.notifying) :
    Inv (s.advance t c b) := by
  have hb := Global.reachable_inv h.base
  have hout : isOutside (s.base.pc t) = true := by
    rcases hp with hp | hp | hp | ⟨r, hp⟩ <;> rw [hp] <;> rfl
  have hm : s.base.stepMailbox t = some b := by
    rcases hp with hp | hp | hp | ⟨r, hp⟩ <;> simpa only [stepThread, hp] using hs
  -- The thread stays inside the mailbox, or the call returned
  suffices hq : ∃ q, b.pc = Function.update s.base.pc t q ∧ isOutside q = true ∧
      b.word = s.base.word by
    obtain ⟨q, hpc, hq, hword⟩ := hq
    exact h.still hs hawake hfree hpc hout hq hword
  have hstay (m : Mailbox.State N) : ∃ q, ({ s.base with mailbox := m } : Global.State N).pc =
      Function.update s.base.pc t q ∧ isOutside q = true ∧
        ({ s.base with mailbox := m } : Global.State N).word = s.base.word :=
    ⟨s.base.pc t, (Function.update_eq_self ..).symm, hout, rfl⟩
  rcases hp with hp | hp | hp | ⟨r, hp⟩
  · obtain ⟨m, hm', -, -, rfl⟩ := Global.stepMailbox_cases hb hm
    have hin : (s.base.mailbox.pc (t + 1)).inPush = true := by
      have hin := hb.inside t
      rwa [hp] at hin
    rcases Mailbox.stepThread_push hm' hin with ⟨hin', -, -⟩ | ⟨n, x, hidle, hlog, -⟩
    · have hne : m.pc (t + 1) ≠ .idle := fun hi => by simp [hi, Mailbox.Pc.inPush] at hin'
      rw [if_neg hne]
      exact hstay m
    · rw [if_pos hidle, hlog, List.getLast?_concat]
      cases x with
      | true => exact ⟨.pushUnlock, rfl, rfl, rfl⟩
      | false => exact ⟨.idle, rfl, rfl, rfl⟩
  · rcases stepMailbox_op (o := .tryUnlock) hb (by rw [hp]; rfl) hm with
      ⟨m, rfl⟩ | ⟨m, e, ⟨x, rfl⟩, rfl⟩
    · exact hstay m
    · simp only [Global.State.returned, hp]
      cases x with
      | true => exact ⟨.idle, rfl, rfl, rfl⟩
      | false => exact ⟨.pushAdd, rfl, rfl, rfl⟩
  · rcases stepMailbox_op (o := .pop) hb (by rw [hp]; rfl) hm with ⟨m, rfl⟩ | ⟨m, e, ⟨x, rfl⟩, rfl⟩
    · exact hstay m
    · cases x with
      | none =>
          simp only [Global.State.returned, hp]
          exact ⟨.globalSub none, rfl, rfl, rfl⟩
      | some r =>
          simp only [Global.State.returned, hp]
          exact ⟨.globalUnlock r, rfl, rfl, rfl⟩
  · rcases stepMailbox_op (o := .tryUnlock) hb (by rw [hp]; rfl) hm with
      ⟨m, rfl⟩ | ⟨m, e, ⟨x, rfl⟩, rfl⟩
    · exact hstay m
    · simp only [Global.State.returned, hp]
      cases x with
      | true => exact ⟨.globalSub (some r), rfl, rfl, rfl⟩
      | false =>
          refine ⟨.globalRelease (some r), ?_, rfl, deposit_pc.2⟩
          simp only [Global.State.goto, Bool.false_eq_true, if_false, deposit_pc.1]

/-- `pop` and `try_unlock` in the loop of `next_task`. -/
theorem Inv.mailboxWorking (h : Inv s)
    (hp : s.base.pc t = .nextPop ∨ ∃ r, s.base.pc t = .nextUnlock r)
    (hs : stepThread s.base t c = some b) (hawake : t ∉ s.asleep) (hfree : t ∉ s.notifying) :
    Inv (s.advance t c b) := by
  have hb := Global.reachable_inv h.base
  have hm : s.base.stepMailbox t = some b := by
    rcases hp with hp | ⟨r, hp⟩ <;> simpa only [stepThread, hp] using hs
  have hwork : isWorking (s.base.pc t) = true := by
    rcases hp with hp | ⟨r, hp⟩ <;> rw [hp] <;> rfl
  suffices hq : ∃ q, b.pc = Function.update s.base.pc t q ∧
      (isWorking q = true ∨ isReleasing q = true) ∧ b.word = s.base.word by
    obtain ⟨q, hpc, hq, hword⟩ := hq
    refine h.worked hs hawake hfree hpc hword hwork hq ?_ ?_ ?_ <;> rcases hp with hp | ⟨r, hp⟩ <;>
      simp [hp, State.currentAfter, State.wokenAfter]
  have hstay (m : Mailbox.State N) : ∃ q, ({ s.base with mailbox := m } : Global.State N).pc =
      Function.update s.base.pc t q ∧ (isWorking q = true ∨ isReleasing q = true) ∧
        ({ s.base with mailbox := m } : Global.State N).word = s.base.word :=
    ⟨s.base.pc t, (Function.update_eq_self ..).symm, .inl hwork, rfl⟩
  rcases hp with hp | ⟨r, hp⟩
  · rcases stepMailbox_op (o := .pop) hb (by rw [hp]; rfl) hm with ⟨m, rfl⟩ | ⟨m, e, ⟨x, rfl⟩, rfl⟩
    · exact hstay m
    · cases x with
      | none =>
          simp only [Global.State.returned, hp]
          exact ⟨.nextSubGlobal none, rfl, .inl rfl, rfl⟩
      | some r =>
          simp only [Global.State.returned, hp]
          exact ⟨.nextUnlock r, rfl, .inl rfl, rfl⟩
  · rcases stepMailbox_op (o := .tryUnlock) hb (by rw [hp]; rfl) hm with
      ⟨m, rfl⟩ | ⟨m, e, ⟨x, rfl⟩, rfl⟩
    · exact hstay m
    · simp only [Global.State.returned, hp]
      cases x with
      | true => exact ⟨.nextSubGlobal (some r), rfl, .inl rfl, rfl⟩
      | false =>
          refine ⟨.nextRelease (some r), ?_, .inr rfl, deposit_pc.2⟩
          simp only [Global.State.goto, Bool.false_eq_true, if_false, deposit_pc.1]

/-- The worker locks the mutex. -/
theorem Inv.nextLock (h : Inv s) (hp : s.base.pc t = .nextLock)
    (hs : stepThread s.base t c = some b) (hawake : t ∉ s.asleep) (hfree : t ∉ s.notifying) :
    Inv (s.advance t c b) := by
  have hs' := hs
  simp only [stepThread, hp, Global.State.lock] at hs
  split at hs <;> cases hs
  refine h.move (q := .nextLocked) hs' hawake hfree rfl ?_ rfl (fun _ ha => ha)
    (fun ha _ hn => absurd ha hn) (fun hq => by cases hq) ?_ ?_
  · rintro w (hw | hw) <;> cases hw
  · rintro (hf | hf) <;> cases hf
  · rintro - - - (⟨w, hw⟩ | ⟨hw, -⟩)
    · rw [hp] at hw
      cases hw
    · refine .inr (.inr ⟨?_, .inl ?_⟩)
      · simpa [State.advance, State.wokenAfter, hp] using hw
      · simp [State.advance, Global.State.goto, isHeading]

/-- The worker under the mutex reads the word. -/
theorem Inv.nextLocked (h : Inv s) (hp : s.base.pc t = .nextLocked)
    (hs : stepThread s.base t c = some b) (hawake : t ∉ s.asleep) (hfree : t ∉ s.notifying) :
    Inv (s.advance t c b) := by
  have hs' := hs
  simp only [stepThread, hp] at hs
  cases hs
  exact h.recheck (v := s.base.word) hs' hawake hfree (by rw [hp]; rfl)
    (fun b => by simp only [State.currentAfter, hp]) (fun b => by simp only [State.wokenAfter, hp])
    (by simp [hp]) rfl (fun ha => ha) fun hw => hw

/-- The worker subtracts the lock's unit. -/
theorem Inv.nextSubGlobal {r : Option (Mailbox.Ptr N)} (h : Inv s)
    (hp : s.base.pc t = .nextSubGlobal r) (hs : stepThread s.base t c = some b)
    (hawake : t ∉ s.asleep) (hfree : t ∉ s.notifying) : Inv (s.advance t c b) := by
  have hcount := (Global.reachable_inv h.base).unit_le_count (t := t) (by rw [hp]; rfl)
    (by rw [hp]; rfl)
  rw [Global.globalLocked] at hcount
  have hs' := hs
  simp only [stepThread, hp] at hs
  have hshut : s.base.word - Global.FlagGlobalQueueLocked &&& FlagShutdown =
      s.base.word &&& FlagShutdown := by
    rw [Global.and_shutdown, Global.and_shutdown, Global.FlagGlobalQueueLocked]
    omega
  have halarm : s.Alarm := by
    unfold State.Alarm
    rw [Global.and_wakeup]
    omega
  have hwaits : WaitingThreadsIncrement ≤ s.base.word →
      WaitingThreadsIncrement ≤ s.base.word - Global.FlagGlobalQueueLocked := by
    rw [WaitingThreadsIncrement, Global.FlagGlobalQueueLocked]
    omega
  cases r with
  | none =>
      cases hs
      exact h.recheck hs' hawake hfree (by rw [hp]; rfl)
        (fun b => by simp only [State.currentAfter, hp])
        (fun b => by simp only [State.wokenAfter, hp]) (by simp [hp]) hshut (fun _ => halarm) hwaits
  | some r =>
      cases hs
      refine h.move (q := .nextRelease (some r)) hs' hawake hfree rfl ?_ hshut ?_
        (fun _ _ hn => absurd halarm hn) (fun hq => by cases hq) ?_ ?_
      · rintro w (hw | hw) <;> cases hw
      · rw [hp]
        intro hq
        cases hq
      · simp only [State.currentAfter, hp]
        exact fun _ ha => ⟨ha, fun hne => hwaits (h.waits hne)⟩
      · rintro ha - - (⟨w, hw⟩ | ⟨hw, -⟩)
        · rw [hp] at hw
          cases hw
        · refine .inr (.inr ⟨?_, .inr (.inr ⟨?_, ?_⟩)⟩)
          · simpa [State.advance, State.wokenAfter, hp] using hw
          · simp [State.advance, Global.State.goto, isReleasing]
          · simpa [State.advance, State.currentAfter, hp] using ha

/-- The worker found no local tasks. -/
theorem Inv.nextSubLocal (h : Inv s) (hp : s.base.pc t = .nextSubLocal)
    (hs : stepThread s.base t c = some b) (hawake : t ∉ s.asleep) (hfree : t ∉ s.notifying) :
    Inv (s.advance t c b) := by
  have hlocal := (Global.reachable_inv h.base).locals t (by rw [hp]; rfl)
  have hs' := hs
  simp only [stepThread, hp] at hs
  cases hs
  refine h.recheck hs' hawake hfree (by rw [hp]; rfl)
    (fun b => by simp only [State.currentAfter, hp]) (fun b => by simp only [State.wokenAfter, hp])
    (by simp [hp]) ?_ (fun _ => ?_) ?_
  · rw [Global.and_shutdown, Global.and_shutdown, Global.NoLocalTasksDecrement]
    omega
  · unfold State.Alarm
    rw [Global.and_wakeup]
    omega
  · rw [WaitingThreadsIncrement, Global.NoLocalTasksDecrement]
    omega

/-- The worker tries to steal under the mutex. -/
theorem Inv.nextStealLocked (h : Inv s) (hp : s.base.pc t = .nextStealLocked)
    (hs : stepThread s.base t c = some b) (hawake : t ∉ s.asleep) (hfree : t ∉ s.notifying) :
    Inv (s.advance t c b) := by
  have hs' := hs
  simp only [stepThread, hp] at hs
  have hwork : isWorking (s.base.pc t) = true := by rw [hp]; rfl
  split at hs <;> cases hs
  · exact h.worked (q := .nextRelease none) hs' hawake hfree rfl rfl hwork (.inr rfl) (by simp [hp])
      (by simp only [State.currentAfter, hp]) (by simp only [State.wokenAfter, hp])
  · exact h.worked (q := .nextSubLocal) hs' hawake hfree rfl rfl hwork (.inl rfl) (by simp [hp])
      (by simp only [State.currentAfter, hp]) (by simp only [State.wokenAfter, hp])

/-- The worker unlocks the mutex and returns. -/
theorem Inv.nextRelease {r : Option (Mailbox.Ptr N)} (h : Inv s)
    (hp : s.base.pc t = .nextRelease r) (hs : stepThread s.base t c = some b)
    (hawake : t ∉ s.asleep) (hfree : t ∉ s.notifying) : Inv (s.advance t c b) := by
  have hs' := hs
  simp only [stepThread, hp] at hs
  have hpc : b.pc = Function.update s.base.pc t .idle := by cases r <;> cases hs <;> rfl
  have hword : b.word = s.base.word := by cases r <;> cases hs <;> rfl
  refine h.move (q := .idle) hs' hawake hfree hpc ?_ (by rw [hword]) ?_ ?_
    (fun hq => by cases hq) ?_ ?_
  · rintro w (hw | hw) <;> cases hw
  · rw [hp]
    intro hq
    cases hq
  · rw [hword]
    exact fun ha _ hn => absurd ha hn
  · rintro (hf | hf) <;> cases hf
  · rintro - hne - (⟨w, hw⟩ | ⟨hw, hf | hf | ⟨hrel, hcur⟩⟩)
    · rw [hp] at hw
      cases hw
    · rw [hp] at hf
      cases hf
    · rw [hp] at hf
      cases hf
    -- The next worker has to be woken, as somebody sleeps
    · have hwait := (h.current t (.inr hrel) hcur).2 hne
      have hmust : s.mustNotify t = true := by
        simp only [State.mustNotify, hp, hw, hwait, and_true, true_and, decide_eq_true_eq]
        exact hcur
      exact .inl (by simp [State.advance, hmust])

theorem Inv.step (h : Inv s) (hs : stepThread s.base t c = some b) (hawake : t ∉ s.asleep)
    (hfree : t ∉ s.notifying) : Inv (s.advance t c b) := by
  cases hp : s.base.pc t
  case push => exact h.mailboxOutside (.inl hp) hs hawake hfree
  case pushUnlock => exact h.mailboxOutside (.inr (.inl hp)) hs hawake hfree
  case globalPop => exact h.mailboxOutside (.inr (.inr (.inl hp))) hs hawake hfree
  case globalUnlock r => exact h.mailboxOutside (.inr (.inr (.inr ⟨r, hp⟩))) hs hawake hfree
  case pushAdd => exact h.pushAdd hp hs hawake hfree
  case wakeOr => exact h.wakeOr hp hs hawake hfree
  case globalSub r => exact h.globalSub hp hs hawake hfree
  case nextAdd => exact h.nextAdd hp hs hawake hfree
  case nextSteal v => exact h.nextSteal hp hs hawake hfree
  case nextWait v => exact h.nextWait hp hs hawake hfree
  case nextSub stolen => exact h.nextSub hp hs hawake hfree
  case nextLock => exact h.nextLock hp hs hawake hfree
  case nextLocked => exact h.nextLocked hp hs hawake hfree
  case nextPop => exact h.mailboxWorking (.inl hp) hs hawake hfree
  case nextUnlock r => exact h.mailboxWorking (.inr ⟨r, hp⟩) hs hawake hfree
  case nextSubGlobal r => exact h.nextSubGlobal hp hs hawake hfree
  case nextStealLocked => exact h.nextStealLocked hp hs hawake hfree
  case nextSubLocal => exact h.nextSubLocal hp hs hawake hfree
  case nextRelease r => exact h.nextRelease hp hs hawake hfree
  case idle => simp only [stepThread, hp, reduceCtorEq] at hs
  case nextLoad =>
      have hs' := hs
      simp only [stepThread, hp, Global.State.look] at hs
      split at hs <;> cases hs
      · exact h.still hs' hawake hfree rfl (by rw [hp]; rfl) rfl rfl
      next halarm =>
        refine h.move (q := .nextLock) hs' hawake hfree rfl ?_ rfl (fun _ ha => ha)
          (fun ha _ hn => absurd ha hn) (fun hq => by cases hq) ?_ ?_
        · rintro w (hw | hw) <;> cases hw
        · rintro (hf | hf) <;> cases hf
        · rw [hp]
          rintro - - - (⟨w, hw⟩ | ⟨-, hf | hf | ⟨hf, -⟩⟩)
          · cases hw
          all_goals cases hf
  case globalRelease r =>
      have hs' := hs
      simp only [stepThread, hp] at hs
      cases r with
      | none =>
          cases hs
          exact h.still hs' hawake hfree rfl (by rw [hp]; rfl) rfl rfl
      | some r =>
          dsimp only at hs
          split at hs <;> cases hs <;>
            exact h.still hs' hawake hfree rfl (by rw [hp]; rfl) rfl rfl
  case globalLock =>
      have hs' := hs
      simp only [stepThread, hp, Global.State.lock] at hs
      split at hs <;> cases hs
      exact h.still hs' hawake hfree rfl (by rw [hp]; rfl) rfl rfl
  case globalLocked =>
      have hs' := hs
      simp only [stepThread, hp] at hs
      split at hs <;> cases hs
      · exact h.still hs' hawake hfree rfl (by rw [hp]; rfl) rfl rfl
      · refine h.still (q := .globalPop) hs' hawake hfree ?_ (by rw [hp]; rfl) rfl ?_ <;>
          unfold Global.State.withdraw <;> split <;> rfl
  case globalLoad =>
      have hs' := hs
      simp only [stepThread, hp] at hs
      split at hs
      · cases hs
        exact h.still hs' hawake hfree rfl (by rw [hp]; rfl) rfl rfl
      · split at hs <;> cases hs <;>
          exact h.still hs' hawake hfree rfl (by rw [hp]; rfl) rfl rfl
  case wakeLoad | nextLocal =>
      have hs' := hs
      simp only [stepThread, hp] at hs
      split at hs <;> cases hs <;>
        exact h.still hs' hawake hfree rfl (by rw [hp]; rfl) rfl rfl

-- ============================================================================
-- The other actions
-- ============================================================================

/-- A thread begins a call. -/
theorem Inv.call {a : Global.Act N} (h : Inv s) (hs : scheduler.step s.base a = some b)
    (hidle : s.base.pc t = .idle) (hpc : b.pc = Function.update s.base.pc t q)
    (hq : isOutside q = true) (hword : b.word = s.base.word) : Inv { s with base := b } := by
  obtain ⟨-, hq2, hq3, hq4, hq5⟩ := of_isOutside hq
  have hother : ∀ u, u ≠ t → b.pc u = s.base.pc u := fun u hu => by
    rw [hpc, Function.update_of_ne hu]
  have hself : b.pc t = q := by rw [hpc, Function.update_self]
  have halarm : ({ s with base := b } : State N).Alarm ↔ s.Alarm := by
    unfold State.Alarm
    rw [hword]
  refine ⟨h.base.next a hs, h.nodup, ?_, ?_, ?_, ?_, by rw [hword]; exact h.closed, ?_⟩
  · intro w hw
    obtain ⟨v, hv⟩ := h.sleeps w hw
    refine ⟨v, (hother w ?_).trans hv⟩
    rintro rfl
    rw [hidle] at hv
    cases hv
  · intro u v hu
    by_cases hut : u = t
    · subst hut
      rw [hself] at hu
      rcases hu with hu | hu
      · exact absurd hu (hq4 v)
      · exact absurd hu (hq5 v)
    · rw [hother u hut] at hu
      exact h.expects u v hu
  · intro u hu
    by_cases hut : u = t
    · subst hut
      rw [hself, hq2] at hu
      cases hu
    · rw [hother u hut] at hu
      exact h.working u hu
  · intro u hu hcur
    by_cases hut : u = t
    · subst hut
      rw [hself, hq2, hq3] at hu
      rcases hu with hu | hu <;> cases hu
    · rw [hother u hut] at hu
      rw [halarm]
      exact h.current u hu hcur
  · have hway : ∀ u, s.OnWay u → ({ s with base := b } : State N).OnWay u := by
      intro u hu
      by_cases hut : u = t
      · subst hut
        rcases hu with hu | ⟨⟨v, hv⟩, -⟩ | ⟨-, hu⟩
        · exact .inl hu
        · rw [hidle] at hv
          cases hv
        · rw [hidle] at hu
          rcases hu with hu | hu | ⟨hu, -⟩ <;> cases hu
      · rcases hu with hu | ⟨⟨v, hv⟩, hsleep⟩ | ⟨hwoken, hu⟩
        · exact .inl hu
        · exact .inr (.inl ⟨⟨v, (hother u hut).trans hv⟩, hsleep⟩)
        · refine .inr (.inr ⟨hwoken, ?_⟩)
          rw [hother u hut]
          exact hu
    rintro ⟨ha, hopen⟩ hne
    obtain ⟨u, hu⟩ := h.covered ⟨halarm.mp ha, hopen⟩ hne
    exact ⟨u, hway u hu⟩

/-- Fewer threads sleep, and one that was woken is on its way. -/
theorem Inv.wake {l m : List Nat} (h : Inv s) (hl : l ⊆ s.asleep) (hnodup : l.Nodup)
    (hwoken : l ≠ [] → ∃ x, x ∈ s.asleep ∧ x ∉ l) :
    Inv { s with asleep := l, notifying := m } := by
  have hsome : l ≠ [] → s.asleep ≠ [] := by
    rintro hne hnil
    rw [hnil] at hl
    exact hne (List.subset_nil.mp hl)
  refine ⟨h.base, hnodup, fun w hw => h.sleeps w (hl hw), h.expects, h.working, ?_, ?_, ?_⟩
  · intro u hu hcur
    obtain ⟨ha, hwait⟩ := h.current u hu hcur
    exact ⟨ha, fun hne => hwait (hsome hne)⟩
  · intro hodd
    refine (h.closed hodd).imp_right fun hnil => ?_
    rw [hnil] at hl
    exact List.subset_nil.mp hl
  · intro _ hne
    obtain ⟨x, hx, hx'⟩ := hwoken hne
    exact ⟨x, .inr (.inl ⟨h.sleeps x hx, hx'⟩)⟩

/-- A worker falls asleep on the value that it expects. -/
theorem Inv.sleep (h : Inv s) (ht : t ∉ s.asleep) (hp : s.base.pc t = .nextWait s.base.word) :
    Inv { s with asleep := t :: s.asleep } := by
  have hcalm := h.expects t _ (.inr hp)
  refine ⟨h.base, List.nodup_cons.mpr ⟨ht, h.nodup⟩, ?_, h.expects, h.working, ?_, ?_, ?_⟩
  · intro w hw
    rcases List.mem_cons.mp hw with rfl | hw
    · exact ⟨_, hp⟩
    · exact h.sleeps w hw
  · intro u hu hcur
    exact absurd hcalm (h.current u hu hcur).1
  · intro hodd
    have hodd' : s.base.word &&& FlagShutdown ≠ 0 := hodd
    rw [Global.and_shutdown] at hodd'
    rw [Global.and_wakeup] at hcalm
    omega
  · exact .off fun ha => ha.1 hcalm

theorem Inv.shutdown (h : Inv s) (hs : scheduler.step s.base .shutdown = some b) :
    Inv { s with base := b, closing := true } := by
  have hreach := h.base.next .shutdown hs
  simp only [scheduler] at hs
  cases hs
  refine ⟨hreach, h.nodup, h.sleeps, h.expects, h.working, ?_, fun _ => .inl rfl,
    .off fun ha => by cases ha.2⟩
  intro u hu hcur
  obtain ⟨ha, hwait⟩ := h.current u hu hcur
  have ha' : s.base.word &&& FlagWakeupMask ≠ 0 := ha
  refine ⟨?_, hwait⟩
  show (s.base.word ||| FlagShutdown) &&& FlagWakeupMask ≠ 0
  have hdiv := Global.or_shutdown_div s.base.word
  have hle : s.base.word ≤ s.base.word ||| FlagShutdown := Nat.left_le_or
  rw [Global.and_wakeup] at ha' ⊢
  -- Only bit 0 may change, and it does not become clear
  omega

theorem step_inv {a : Act N} (h : Inv s) (hs : sleepers.step s a = some s') : Inv s' := by
  cases a with
  | pushToGlobal t n =>
      simp only [sleepers] at hs
      split at hs
      · cases hs
      · obtain ⟨b, hb, rfl⟩ := Option.map_eq_some_iff.mp hs
        have hb' := hb
        simp only [scheduler] at hb
        split at hb <;> cases hb
        next hc => exact h.call hb' hc.1 rfl rfl rfl
  | wakeByLocalTasks t =>
      simp only [sleepers] at hs
      split at hs
      · cases hs
      · obtain ⟨b, hb, rfl⟩ := Option.map_eq_some_iff.mp hs
        have hb' := hb
        simp only [scheduler] at hb
        split at hb <;> cases hb
        next hc => exact h.call hb' hc rfl rfl rfl
  | nextTask t global =>
      simp only [sleepers] at hs
      split at hs
      · cases hs
      · obtain ⟨b, hb, rfl⟩ := Option.map_eq_some_iff.mp hs
        have hb' := hb
        simp only [scheduler] at hb
        split at hb <;> cases hb
        next hc => exact h.call hb' hc rfl (by cases global <;> rfl) rfl
  | step t c =>
      simp only [sleepers] at hs
      split at hs
      · cases hs
      next hfree =>
        obtain ⟨hawake, hfree⟩ := not_or.mp hfree
        split at hs
        next hp =>
          cases hs
          exact h.sleep hawake hp
        · obtain ⟨b, hb, rfl⟩ := Option.map_eq_some_iff.mp hs
          exact h.step hb hawake hfree
  | notify t w =>
      simp only [sleepers] at hs
      split at hs
      · obtain ⟨l, hl, rfl⟩ := Option.map_eq_some_iff.mp hs
        exact h.wake (notifyOne_subset hl) (notifyOne_nodup hl h.nodup)
          fun hne => exists_woken hl h.nodup hne
      · cases hs
  | spurious w =>
      simp only [sleepers] at hs
      split at hs <;> cases hs
      next hw =>
        exact h.wake (m := s.notifying) List.erase_subset (h.nodup.erase w)
          fun _ => ⟨w, hw, h.nodup.not_mem_erase⟩
  | shutdown =>
      simp only [sleepers] at hs
      obtain ⟨b, hb, rfl⟩ := Option.map_eq_some_iff.mp hs
      exact h.shutdown hb
  | notifyAll =>
      simp only [sleepers] at hs
      split at hs <;> cases hs
      refine ⟨h.base, List.nodup_nil, (fun _ hw => by cases hw), h.expects, h.working, ?_,
        fun _ => .inr rfl, .awake rfl⟩
      intro u hu hcur
      exact ⟨(h.current u hu hcur).1, fun hne => absurd rfl hne⟩

theorem reachable_inv (hr : sleepers.Reachable s) : Inv s := by
  refine hr.invariant ?_ fun _ _ _ hi _ hs => step_inv hi hs
  rintro _ ⟨next, rfl⟩
  refine ⟨.init ⟨next, rfl⟩, List.nodup_nil, (fun _ hw => by cases hw), ?_,
    (fun _ hw => by cases hw), ?_, fun _ => .inr rfl, .awake rfl⟩
  · rintro t v (hv | hv) <;> cases hv
  · rintro t (ht | ht) <;> cases ht

-- ============================================================================
-- No task is left behind
-- ============================================================================

/-- Nothing happens any more unless somebody begins a call. -/
structure State.Quiet (s : State N) : Prop where
  rests : ∀ t, s.base.pc t = .idle ∨ t ∈ s.asleep
  notified : s.notifying = []
  open' : s.closing = false

/-- In every run, while some bit of the word asks for a worker and a worker
    sleeps, some thread is on its way: it owes a `notify_one`, is about to find
    in `wait` that the value changed, or was woken and goes for the mutex or is
    under it.  Hence in a state in which everybody rests and a worker sleeps, no
    bit is set and every task that was pushed to the global queue was taken.
    After the destructor's `notify_all` no worker sleeps, in this state or in
    any later one.  (Fewer than 2^26 threads wait, so that the word does not
    wrap.) -/
theorem wakeups_not_lost :
    (∀ s : State N, sleepers.Reachable s → s.base.word &&& FlagWakeupMask ≠ 0 →
      s.closing = false → s.asleep ≠ [] → ∃ t, s.OnWay t) ∧
    (∀ s : State N, sleepers.Reachable s → s.Quiet → s.asleep ≠ [] →
      s.base.word &&& FlagWakeupMask = 0 ∧ s.base.mailbox.remaining = []) ∧
    (∀ s : State N, sleepers.Reachable s → s.base.word &&& FlagShutdown ≠ 0 →
      s.closing = false → s.asleep = []) := by
  refine ⟨fun s hr ha hopen hne => (reachable_inv hr).covered ⟨ha, hopen⟩ hne, ?_, ?_⟩
  · intro s hr hq hne
    have h := reachable_inv hr
    have hb := Global.reachable_inv h.base
    have hplace : ∀ t, s.base.pc t = .idle ∨ ∃ v, s.base.pc t = .nextWait v := fun t =>
      (hq.rests t).imp_right (h.sleeps t)
    have hcalm : s.base.word &&& FlagWakeupMask = 0 := by
      by_contra ha
      obtain ⟨t, ht⟩ := h.covered ⟨ha, hq.open'⟩ hne
      rcases ht with ht | ⟨⟨v, hv⟩, ht⟩ | ⟨-, ht⟩
      · rw [hq.notified] at ht
        cases ht
      · rcases hq.rests t with hp | hp
        · rw [hp] at hv
          cases hv
        · exact ht hp
      · rcases hplace t with hp | ⟨v, hp⟩ <;> rw [hp] at ht <;>
          rcases ht with ht | ht | ⟨ht, -⟩ <;> cases ht
    refine ⟨hcalm, ?_⟩
    by_contra hrem
    have hpush : ∀ t, (s.base.pc t).pushing = false := fun t => by
      rcases hplace t with hp | ⟨v, hp⟩ <;> rw [hp] <;> rfl
    have hmutex : s.base.mutex = none := by
      cases hm : s.base.mutex with
      | none => rfl
      | some t =>
          have hholds := (hb.mutex t).mp hm
          rcases hplace t with hp | ⟨v, hp⟩ <;> rw [hp] at hholds <;> cases hholds
    have hcount := hb.count
    rw [hb.stored_of_remaining hpush hmutex hrem, Global.globalLocked] at hcount
    rw [Global.and_wakeup] at hcalm
    omega
  · intro s hr hodd hopen
    refine ((reachable_inv hr).closed hodd).resolve_left ?_
    rw [hopen]
    intro hq
    cases hq

end Invariant

end Coroactors.WorkStealing.Wakeups
