/-
  Coroactors.BlockingQueue.StdMutex

  `TBlockingQueueWithStdMutex` (src/benchmarks/benchmark_actor_latency.cpp): a
  queue under a mutex, whose consumers sleep on a condition variable while it is
  empty.

  What a thread does under the mutex between two waits is one step: nobody else
  sees the fields in between.  Who `notify_one` wakes is free, and a sleeper may
  also wake up without a reason.

  Every `push` wakes a sleeper, so a sleeper that was woken may find that its
  item is gone.  No wakeup is lost all the same: while somebody sleeps there are
  no more items than waiters that are awake.
-/

import Coroactors.Conc.Positions
import Coroactors.Conc.Sleepers
import Coroactors.Conc.System

namespace Coroactors.BlockingQueue

open Coroactors.Conc

/-- A call that returned; `T()` is none. -/
inductive Event (T : Type*) where
  | push (t : Nat) (x : T)
  | pop (t : Nat) (r : Option T)
  | tryPop (t : Nat) (r : Option T)
  | shutdown (t : Nat)
deriving DecidableEq, Repr

section Event

variable {T : Type*}

def Event.pushed : Event T → List T
  | .push _ x => [x]
  | _ => []

def Event.taken : Event T → List T
  | .pop _ r | .tryPop _ r => r.toList
  | _ => []

/-- What the calls of a log pushed. -/
def pushed (log : List (Event T)) : List T := log.flatMap Event.pushed

/-- What the calls of a log took out. -/
def taken (log : List (Event T)) : List T := log.flatMap Event.taken

theorem pushed_concat {log : List (Event T)} {e : Event T} :
    pushed (log ++ [e]) = pushed log ++ e.pushed := by
  simp [pushed]

theorem taken_concat {log : List (Event T)} {e : Event T} :
    taken (log ++ [e]) = taken log ++ e.taken := by
  simp [taken]

end Event

namespace StdMutex

-- ============================================================================
-- Model
-- ============================================================================

inductive Pc (T : Type*) where
  | idle
  /-- `push`: before the mutex is locked. -/
  | pushLock (x : T)
  | push (x : T)
  /-- `pop`: before the mutex is locked. -/
  | popLock
  | pop
  /-- `pop`: in `NotEmpty.wait`. -/
  | wait
  /-- `pop`: back from `NotEmpty.wait`, with the mutex. -/
  | woken
  /-- `try_pop`: before the mutex is locked. -/
  | tryLock
  | tryPop
  /-- `shutdown`: before the mutex is locked. -/
  | shutdownLock
  | shutdown
deriving DecidableEq, Repr

structure State (T : Type*) where
  items : List T
  waiters : Nat
  /-- `Shutdown`. -/
  stopped : Bool
  /-- The owner of `Lock`. -/
  mutex : Option Nat
  /-- The threads that sleep on `NotEmpty`. -/
  asleep : List Nat
  pc : Nat → Pc T
  log : List (Event T)
  assertFailed : Bool

inductive Act (T : Type*) where
  | push (t : Nat) (x : T)
  | pop (t : Nat)
  | tryPop (t : Nat)
  | shutdown (t : Nat)
  /-- The next step of a call; `w` is whom a `notify_one` wakes. -/
  | step (t : Nat) (w : Option Nat)
  /-- A sleeper wakes up without being notified. -/
  | spurious (w : Nat)
deriving DecidableEq, Repr

section Model

variable {T : Type*}

def State.start : State T where
  items := []
  waiters := 0
  stopped := false
  mutex := none
  asleep := []
  pc _ := .idle
  log := []
  assertFailed := false

namespace State

def goto (s : State T) (t : Nat) (pc : Pc T) : State T :=
  { s with pc := Function.update s.pc t pc }

def lock (s : State T) (t : Nat) (pc : Pc T) : Option (State T) :=
  if s.mutex = none then some ({ s with mutex := some t }.goto t pc) else none

/-- The call unlocks the mutex and returns. -/
def ret (s : State T) (t : Nat) (e : Event T) : State T :=
  { s with mutex := none, log := s.log ++ [e] }.goto t .idle

/-- `NotEmpty.wait`. -/
def sleep (s : State T) (t : Nat) : State T :=
  { s with mutex := none, asleep := t :: s.asleep }.goto t .wait

/-- The end of `pop`, with the mutex. -/
def finish (s : State T) (t : Nat) : State T :=
  match s.items with
  | x :: items => { s with items := items }.ret t (.pop t (some x))
  | [] => { s with assertFailed := s.assertFailed || !s.stopped }.ret t (.pop t none)

end State

def stepThread (s : State T) (t : Nat) (w : Option Nat) : Option (State T) :=
  match s.pc t with
  | .idle => none
  | .pushLock x => s.lock t (.push x)
  | .push x =>
      (notifyOne s.asleep w).map fun asleep =>
        { s with items := s.items ++ [x], asleep := asleep }.ret t (.push t x)
  | .popLock => s.lock t .pop
  | .pop =>
      if s.items.isEmpty && !s.stopped then some ({ s with waiters := s.waiters + 1 }.sleep t)
      else some (s.finish t)
  | .wait => if t ∈ s.asleep then none else s.lock t .woken
  | .woken =>
      if s.items.isEmpty && !s.stopped then some (s.sleep t)
      else some ({ s with waiters := s.waiters - 1 }.finish t)
  | .tryLock => s.lock t .tryPop
  | .tryPop =>
      match s.items with
      | x :: items => some ({ s with items := items }.ret t (.tryPop t (some x)))
      | [] => some (s.ret t (.tryPop t none))
  | .shutdownLock => s.lock t .shutdown
  | .shutdown => some ({ s with stopped := true, asleep := [] }.ret t (.shutdown t))

/-- The queue, and any number of threads. -/
def queue (T : Type*) : System (State T) (Act T) where
  init s := s = .start
  step s
    | .push t x =>
        match s.pc t with
        | .idle => some (s.goto t (.pushLock x))
        | _ => none
    | .pop t =>
        match s.pc t with
        | .idle => some (s.goto t .popLock)
        | _ => none
    | .tryPop t =>
        match s.pc t with
        | .idle => some (s.goto t .tryLock)
        | _ => none
    | .shutdown t =>
        match s.pc t with
        | .idle => some (s.goto t .shutdownLock)
        | _ => none
    | .step t w => stepThread s t w
    | .spurious w =>
        if w ∈ s.asleep then some { s with asleep := s.asleep.erase w } else none

end Model

-- ============================================================================
-- The invariant
-- ============================================================================

section Inv

variable {T : Type*} {s s' : State T} {t u : Nat} {q : Pc T}

def Pc.holds : Pc T → Bool
  | .push _ | .pop | .woken | .tryPop | .shutdown => true
  | _ => false

/-- The thread is counted in `Waiters`. -/
def Pc.waits : Pc T → Bool
  | .wait | .woken => true
  | _ => false

structure Inv (s : State T) : Prop where
  mutex : Holds Pc.holds s.mutex s.pc
  waiting : Counted Pc.waits s.waiters s.pc
  sleeps : ∀ t ∈ s.asleep, s.pc t = .wait
  nodup : s.asleep.Nodup
  -- While somebody sleeps there is a waiter that is awake for every item
  enough : s.asleep ≠ [] → s.items.length + s.asleep.length ≤ s.waiters
  stopped : s.stopped = true → s.asleep = []
  fifo : taken s.log ++ s.items = pushed s.log
  null : ∀ t, .pop t none ∈ s.log → s.stopped = true
  drained : ∀ t, s.log.getLast? = some (.pop t none) → s.items = []
  assertOk : s.assertFailed = false

/-- Nobody at a position other than `wait` sleeps. -/
theorem Inv.sleeps_of_ne (h : Inv s) (hp : s.pc t ≠ .wait) (w : Nat) (hw : w ∈ s.asleep) :
    Function.update s.pc t q w = .wait := by
  have hwait := h.sleeps w hw
  rw [Function.update_of_ne]
  · exact hwait
  · rintro rfl
    exact hp hwait

-- ============================================================================
-- The mutex
-- ============================================================================

theorem Inv.goto (h : Inv s) (hp : s.pc t ≠ .wait) (hq : q.holds = (s.pc t).holds)
    (hw : q.waits = (s.pc t).waits) : Inv (s.goto t q) :=
  ⟨h.mutex.move hq, h.waiting.move hw, h.sleeps_of_ne hp, h.nodup, h.enough, h.stopped, h.fifo,
    h.null, h.drained, h.assertOk⟩

theorem lock_inv (h : Inv s) (hs : s.lock t q = some s') (ht : t ∉ s.asleep) (hq : q.holds = true)
    (hw : q.waits = (s.pc t).waits) : Inv s' := by
  unfold State.lock at hs
  split at hs <;> cases hs
  next hm =>
    have hmutex := h.mutex
    rw [hm] at hmutex
    refine ⟨hmutex.lock hq, h.waiting.move hw, fun w hwa => ?_, h.nodup, h.enough, h.stopped,
      h.fifo, h.null, h.drained, h.assertOk⟩
    have hne : w ≠ t := fun he => ht (he ▸ hwa)
    exact (Function.update_of_ne hne _ _).trans (h.sleeps w hwa)

-- ============================================================================
-- Waiting
-- ============================================================================

/-- The thread finds the queue empty, and falls asleep. -/
theorem Inv.sleep {n : Nat} (h : Inv s) (hp : (s.pc t).holds = true) (ht : t ∉ s.asleep)
    (hcount : Counted Pc.waits n (Function.update s.pc t .wait))
    (hempty : (s.items.isEmpty && !s.stopped) = true) : Inv ({ s with waiters := n }.sleep t) := by
  obtain ⟨hitems, hopen⟩ := Bool.and_eq_true_iff.mp hempty
  have hnil : s.items = [] := List.isEmpty_iff.mp hitems
  have hsleeps : ∀ w ∈ t :: s.asleep, Function.update s.pc t .wait w = .wait := by
    intro w hw
    by_cases hwt : w = t
    · rw [hwt, Function.update_self]
    · rw [Function.update_of_ne hwt]
      exact h.sleeps w (List.mem_of_ne_of_mem hwt hw)
  have hnodup : (t :: s.asleep).Nodup := List.nodup_cons.mpr ⟨ht, h.nodup⟩
  refine ⟨h.mutex.unlock hp rfl, hcount, hsleeps, hnodup, ?_, ?_, h.fifo, h.null, h.drained,
    h.assertOk⟩
  · intro _
    have hle := hcount.length_le hnodup fun w hw => by rw [hsleeps w hw]; rfl
    show s.items.length + (t :: s.asleep).length ≤ n
    rw [hnil]
    simpa using hle
  · intro hstop
    have hstop' : s.stopped = true := hstop
    simp [hstop'] at hopen

-- ============================================================================
-- Returns
-- ============================================================================

/-- A call returns with the fields as they are under the mutex. -/
theorem Inv.ret {n : Nat} {items : List T} {l : List Nat} {b : Bool} {e : Event T} (h : Inv s)
    (hp : (s.pc t).holds = true) (hne : s.pc t ≠ .wait)
    (hcount : Counted Pc.waits n (Function.update s.pc t .idle)) (hl : l ⊆ s.asleep)
    (hnodup : l.Nodup) (henough : l ≠ [] → items.length + l.length ≤ n)
    (hb : s.stopped = true → b = true) (hstop : b = true → l = [])
    (hfifo : e.taken ++ items = s.items ++ e.pushed)
    (hnull : ∀ u, e = .pop u none → b = true ∧ items = []) :
    Inv ({ s with items := items, waiters := n, stopped := b, asleep := l }.ret t e) := by
  refine ⟨h.mutex.unlock hp rfl, hcount, fun w hw => h.sleeps_of_ne hne w (hl hw), hnodup, henough,
    hstop, ?_, ?_, ?_, h.assertOk⟩
  · show taken (s.log ++ [e]) ++ items = pushed (s.log ++ [e])
    rw [taken_concat, pushed_concat, List.append_assoc, hfifo, ← List.append_assoc, h.fifo]
  · intro u hu
    rcases List.mem_append.mp hu with hu | hu
    · exact hb (h.null u hu)
    · exact (hnull u (List.mem_singleton.mp hu).symm).1
  · intro u hu
    have hlast : (s.log ++ [e]).getLast? = some (.pop u none) := hu
    rw [List.getLast?_concat] at hlast
    exact (hnull u (Option.some.inj hlast)).2

/-- `pop` takes the first item, or there is none after `shutdown`. -/
theorem Inv.finish {n : Nat} (h : Inv s) (hp : (s.pc t).holds = true) (hne : s.pc t ≠ .wait)
    (hcount : Counted Pc.waits n (Function.update s.pc t .idle)) (hn : s.waiters ≤ n + 1)
    (hfull : (s.items.isEmpty && !s.stopped) = false) : Inv ({ s with waiters := n }.finish t) := by
  unfold State.finish
  split
  next x items hi =>
    have hi' : s.items = x :: items := hi
    refine h.ret hp hne hcount (List.Subset.refl _) h.nodup ?_ id h.stopped ?_ (by simp)
    · intro hsome
      have henough := h.enough hsome
      rw [hi', List.length_cons] at henough
      show items.length + s.asleep.length ≤ n
      omega
    · rw [hi']
      exact (List.append_nil _).symm
  next hi =>
    have hi' : s.items = [] := hi
    have hstop : s.stopped = true := by simpa [hi'] using hfull
    have hnew : Inv ({ s with waiters := n }.ret t (.pop t none)) := by
      refine h.ret hp hne hcount (List.Subset.refl _) h.nodup ?_ id h.stopped ?_ ?_
      · exact fun hsome => absurd (h.stopped hstop) hsome
      · rw [hi']
        rfl
      · exact fun _ _ => ⟨hstop, hi'⟩
    simpa [hstop] using hnew

theorem push_inv {x : T} {w : Option Nat} {l : List Nat} (h : Inv s) (hp : s.pc t = .push x)
    (hw : notifyOne s.asleep w = some l) :
    Inv ({ s with items := s.items ++ [x], asleep := l }.ret t (.push t x)) := by
  refine h.ret (by rw [hp]; rfl) (by rw [hp]; simp) (h.waiting.move (by rw [hp]; rfl))
    (notifyOne_subset hw) (notifyOne_nodup hw h.nodup) ?_ id ?_ rfl (by simp)
  · intro hne
    -- One of the sleepers was woken, for the new item
    rcases notifyOne_cases hw with ⟨-, rfl⟩ | ⟨y, hy, rfl⟩
    · exact absurd rfl hne
    · have henough := h.enough (List.ne_nil_of_mem hy)
      have hpos := List.length_pos_of_mem hy
      rw [List.length_append, List.length_singleton, List.length_erase_of_mem hy]
      omega
  · intro hstop
    have hsub := notifyOne_subset hw
    rw [h.stopped hstop] at hsub
    exact List.subset_nil.mp hsub

-- ============================================================================
-- Every step
-- ============================================================================

theorem stepThread_inv {w : Option Nat} (h : Inv s) (hs : stepThread s t w = some s') : Inv s' := by
  have hout : s.pc t ≠ .wait → t ∉ s.asleep := fun hp ht => hp (h.sleeps t ht)
  cases hp : s.pc t <;> simp only [stepThread, hp] at hs <;> rw [hp] at hout
  case idle => cases hs
  case pushLock | popLock | tryLock | shutdownLock =>
      exact lock_inv h hs (hout (by simp)) rfl (by rw [hp]; rfl)
  case push x =>
      obtain ⟨l, hl, rfl⟩ := Option.map_eq_some_iff.mp hs
      exact push_inv h hp hl
  case pop =>
      split at hs <;> cases hs
      next hempty =>
        exact h.sleep (by rw [hp]; rfl) (hout (by simp))
          (h.waiting.enter (by rw [hp]; rfl) rfl) hempty
      next hfull =>
        exact h.finish (n := s.waiters) (by rw [hp]; rfl) (by rw [hp]; simp)
          (h.waiting.move (by rw [hp]; rfl)) (Nat.le_succ _) (by simpa using hfull)
  case wait =>
      split at hs
      · cases hs
      next ht => exact lock_inv h hs ht rfl (by rw [hp]; rfl)
  case woken =>
      split at hs <;> cases hs
      next hempty =>
        exact h.sleep (n := s.waiters) (by rw [hp]; rfl) (hout (by simp))
          (h.waiting.move (by rw [hp]; rfl)) hempty
      next hfull =>
        exact h.finish (by rw [hp]; rfl) (by rw [hp]; simp)
          (h.waiting.leave (by rw [hp]; rfl) rfl) (by omega) (by simpa using hfull)
  case tryPop =>
      have hcount : Counted Pc.waits s.waiters (Function.update s.pc t .idle) :=
        h.waiting.move (by rw [hp]; rfl)
      split at hs <;> cases hs
      next x items hi =>
        refine h.ret (by rw [hp]; rfl) (by rw [hp]; simp) hcount (List.Subset.refl _) h.nodup ?_ id
          h.stopped ?_ (by simp)
        · intro hsome
          have henough := h.enough hsome
          rw [hi, List.length_cons] at henough
          omega
        · rw [hi]
          exact (List.append_nil _).symm
      next hi =>
        exact h.ret (by rw [hp]; rfl) (by rw [hp]; simp) hcount (List.Subset.refl _) h.nodup
          h.enough id h.stopped (List.append_nil _).symm (by simp)
  case shutdown =>
      cases hs
      exact h.ret (by rw [hp]; rfl) (by rw [hp]; simp) (h.waiting.move (by rw [hp]; rfl))
        (List.nil_subset _) List.nodup_nil (by simp) (fun _ => rfl) (fun _ => rfl)
        (List.append_nil _).symm (by simp)

theorem step_inv {a : Act T} (h : Inv s) (hs : (queue T).step s a = some s') : Inv s' := by
  cases a with
  | step t w => exact stepThread_inv h hs
  | spurious w =>
      simp only [queue] at hs
      split at hs <;> cases hs
      next hw =>
        refine ⟨h.mutex, h.waiting, fun v hv => h.sleeps v (List.mem_of_mem_erase hv),
          h.nodup.erase w, ?_, ?_, h.fifo, h.null, h.drained, h.assertOk⟩
        · intro _
          have henough := h.enough (List.ne_nil_of_mem hw)
          show s.items.length + (s.asleep.erase w).length ≤ s.waiters
          rw [List.length_erase_of_mem hw]
          omega
        · intro hstop
          have hnil := h.stopped hstop
          rw [hnil] at hw
          cases hw
  | push t | pop t | tryPop t | shutdown t =>
      simp only [queue] at hs
      split at hs <;> cases hs
      next hp => exact h.goto (by rw [hp]; simp) (by rw [hp]; rfl) (by rw [hp]; rfl)

theorem reachable_inv (hr : (queue T).Reachable s) : Inv s := by
  refine hr.invariant ?_ fun _ _ _ hi _ hs => step_inv hi hs
  rintro _ rfl
  refine ⟨fun t => by simp [State.start, Pc.holds],
    ⟨[], List.nodup_nil, fun t => by simp [State.start, Pc.waits], rfl⟩, by simp [State.start],
    List.nodup_nil, fun hne => absurd rfl hne, fun _ => rfl, rfl, by simp [State.start],
    fun _ _ => rfl, rfl⟩

/-- In every run the items that were taken are the first of those that were
    pushed, each taken once, and the others are in the queue.  While a consumer
    sleeps there are as many other waiters, all awake, as items; hence with
    everybody at rest and a sleeper the queue is empty, and after `shutdown`
    nobody sleeps.  `pop` returns nothing only after `shutdown`, and only when
    everything that was pushed is taken. -/
theorem stdMutex_queue :
    (∀ s : State T, (queue T).Reachable s →
      taken s.log ++ s.items = pushed s.log ∧ s.assertFailed = false) ∧
    (∀ s : State T, (queue T).Reachable s → s.asleep ≠ [] →
      s.stopped = false ∧ ∃ l : List Nat, l.Nodup ∧ s.items.length ≤ l.length ∧
        ∀ t ∈ l, (s.pc t = .wait ∨ s.pc t = .woken) ∧ t ∉ s.asleep) ∧
    (∀ s : State T, (queue T).Reachable s → (∀ t, s.pc t = .idle ∨ t ∈ s.asleep) →
      s.asleep ≠ [] → taken s.log = pushed s.log) ∧
    (∀ s : State T, (queue T).Reachable s → ∀ t,
      (.pop t none ∈ s.log → s.stopped = true) ∧
      (s.log.getLast? = some (.pop t none) → taken s.log = pushed s.log)) := by
  have hawake : ∀ s : State T, (queue T).Reachable s → s.asleep ≠ [] →
      s.stopped = false ∧ ∃ l : List Nat, l.Nodup ∧ s.items.length ≤ l.length ∧
        ∀ t ∈ l, (s.pc t = .wait ∨ s.pc t = .woken) ∧ t ∉ s.asleep := by
    intro s hr hne
    have h := reachable_inv hr
    refine ⟨?_, ?_⟩
    · by_contra hstop
      exact hne (h.stopped (by simpa using hstop))
    · obtain ⟨l, hl, hmem, hlen⟩ := h.waiting.exists_others s.asleep
      have henough := h.enough hne
      refine ⟨l, hl, by omega, fun t ht => ⟨?_, (hmem t ht).2⟩⟩
      have hwaits := (hmem t ht).1
      cases hp : s.pc t <;> rw [hp] at hwaits <;> cases hwaits
      · exact .inl rfl
      · exact .inr rfl
  refine ⟨fun s hr => ⟨(reachable_inv hr).fifo, (reachable_inv hr).assertOk⟩, hawake, ?_, ?_⟩
  · intro s hr hrest hne
    obtain ⟨-, l, -, hlen, hmem⟩ := hawake s hr hne
    have hnil : l = [] := by
      refine List.eq_nil_iff_forall_not_mem.mpr fun t ht => ?_
      obtain ⟨hp, hout⟩ := hmem t ht
      rcases hrest t with hidle | hin
      · rcases hp with hp | hp <;> rw [hp] at hidle <;> cases hidle
      · exact hout hin
    have hfifo := (reachable_inv hr).fifo
    rw [hnil, List.length_nil, Nat.le_zero, List.length_eq_zero_iff] at hlen
    rwa [hlen, List.append_nil] at hfifo
  · intro s hr t
    have h := reachable_inv hr
    refine ⟨h.null t, fun hlast => ?_⟩
    have hfifo := h.fifo
    rwa [h.drained t hlast, List.append_nil] at hfifo

end Inv

end StdMutex

end Coroactors.BlockingQueue
