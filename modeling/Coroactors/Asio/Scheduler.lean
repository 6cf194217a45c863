/-
  Coroactors.Asio.Scheduler

  The timers of `asio_actor_scheduler` (coroactors/asio_actor_scheduler.h).

  A `timer_t` is reference counted.  The local pointer in `schedule`, the wait
  handler, and the callback that is stored in the timer itself hold references.
  asio completes every wait and calls its handler once, at any time after
  `async_wait`, and destroys the handler after that; a wait that was cancelled
  may complete with an error.

  The steps of `schedule` may come between expirations, stop requests and the
  steps of other calls.  A token is what `stop_token` is: it may have no state,
  its state may lose its sources, and it may be stopped.

  A timer that is registered with a token holds a reference to itself, which
  nothing ever drops.
-/

import Coroactors.Conc.System
import Mathlib.Data.List.Basic

namespace Coroactors.Asio.Scheduler

open Coroactors.Conc

-- ============================================================================
-- Data
-- ============================================================================

structure Token where
  /-- The token has a state. -/
  hasState : Bool
  /-- The state has a source. -/
  sources : Bool
  stopped : Bool
  /-- The timers whose callbacks are registered. -/
  callbacks : List Nat
deriving DecidableEq, Repr

def Token.stopRequested (k : Token) : Bool := k.hasState && k.stopped

def Token.stopPossible (k : Token) : Bool := k.hasState && (k.stopped || k.sources)

/-- Where a call of `schedule` is. -/
inductive Phase where
  | unused
  /-- Before `t.stop_requested()`. -/
  | check
  /-- Before `new timer_t`. -/
  | create
  /-- `start`: before `async_wait`. -/
  | wait
  /-- `start`: before `token.stop_possible()`. -/
  | possible
  /-- `start`: in `cancel.emplace`, before the `cancel_t` is made. -/
  | emplace
  /-- `start`: in `cancel.emplace`, before `add_callback`. -/
  | addCallback
  /-- Before the local pointer is destroyed. -/
  | drop
  | returned
deriving DecidableEq, Repr

/-- The wait handler. -/
inductive Handler where
  | none
  | waiting
  /-- It was called, and is not destroyed. -/
  | called
  | destroyed
deriving DecidableEq, Repr

structure Timer where
  token : Nat
  phase : Phase
  handler : Handler
  /-- `timer.cancel()` was called while the handler waited. -/
  cancelled : Bool
  refcount : Nat
  /-- The object was created, and not deleted. -/
  alive : Bool
  /-- `cancel` holds a `stop_callback`, and that a reference. -/
  cancel : Bool
  /-- What the callback was called with. -/
  calls : List Bool
deriving DecidableEq, Repr

def Timer.new : Timer where
  token := 0
  phase := .unused
  handler := .none
  cancelled := false
  refcount := 0
  alive := false
  cancel := false
  calls := []

structure State where
  tokens : Nat → Token
  timers : Nat → Timer

inductive Act where
  /-- A call of `schedule` with a callback of its own. -/
  | schedule (i token : Nat)
  | step (i : Nat)
  /-- The wait is over, with an error or not, and the handler is called. -/
  | complete (i : Nat) (error : Bool)
  | destroyHandler (i : Nat)
  | requestStop (token : Nat)
  /-- The last source of the token is destroyed. -/
  | dropSources (token : Nat)
deriving DecidableEq, Repr

-- ============================================================================
-- Operations
-- ============================================================================

/-- `intrusive_ptr_add_ref`. -/
def Timer.addRef (r : Timer) : Timer := { r with refcount := r.refcount + 1 }

/-- `intrusive_ptr_release`. -/
def Timer.release (r : Timer) : Timer :=
  { r with refcount := r.refcount - 1, alive := r.alive && r.refcount != 1 }

/-- `finish`: the callback is called. -/
def Timer.finish (r : Timer) (error : Bool) : Timer :=
  { r with calls := r.calls ++ [if error then false else true] }

/-- `timer.cancel()`. -/
def Timer.cancelWait (r : Timer) : Timer :=
  { r with cancelled := r.cancelled || r.handler = .waiting }

namespace State

def set (s : State) (i : Nat) (r : Timer) : State :=
  { s with timers := Function.update s.timers i r }

def setToken (s : State) (k : Nat) (v : Token) : State :=
  { s with tokens := Function.update s.tokens k v }

/-- A reference is dropped: the last one deletes the timer, whose destructor
    removes the callback from the token. -/
def release (s : State) (i : Nat) (r : Timer) : State :=
  let s' := s.set i r.release
  if r.refcount = 1 then
    let k := s.tokens r.token
    s'.setToken r.token { k with callbacks := k.callbacks.erase i }
  else s'

/-- `request_stop`: the callbacks are called and removed. -/
def stop (s : State) (token : Nat) : State :=
  let k := s.tokens token
  { tokens := Function.update s.tokens token { k with stopped := true, callbacks := [] }
    timers := fun i => if i ∈ k.callbacks then (s.timers i).cancelWait else s.timers i }

/-- `add_callback`, for the callback in timer `i`. -/
def addCallback (s : State) (i : Nat) (r : Timer) : State :=
  let k := s.tokens r.token
  if k.stopped then s.set i { r.cancelWait with phase := .drop }
  else if k.sources then
    (s.set i { r with phase := .drop }).setToken r.token { k with callbacks := i :: k.callbacks }
  else s.set i { r with phase := .drop }

end State

-- ============================================================================
-- Steps
-- ============================================================================

/-- The next step of a call of `schedule`. -/
def stepCall (s : State) (i : Nat) : Option State :=
  let r := s.timers i
  match r.phase with
  | .unused | .returned => none
  | .check =>
      if (s.tokens r.token).stopRequested then
        some (s.set i { r.finish true with phase := .returned })
      else some (s.set i { r with phase := .create })
  | .create => some (s.set i { r with refcount := 1, alive := true, phase := .wait })
  | .wait => some (s.set i { r.addRef with handler := .waiting, phase := .possible })
  | .possible =>
      if (s.tokens r.token).stopPossible then some (s.set i { r with phase := .emplace })
      else some (s.set i { r with phase := .drop })
  | .emplace => some (s.set i { r.addRef with cancel := true, phase := .addCallback })
  | .addCallback => some (s.addCallback i r)
  | .drop => some (s.release i { r with phase := .returned })

/-- One scheduler, with any tokens and any number of timers. -/
def timers : System State Act where
  init s := (∀ k, (s.tokens k).callbacks = []) ∧ ∀ i, s.timers i = .new
  step s
    | .schedule i token =>
        if (s.timers i).phase = .unused then
          some (s.set i { Timer.new with token := token, phase := .check })
        else none
    | .step i => stepCall s i
    | .complete i error =>
        let r := s.timers i
        if r.handler = .waiting ∧ (error = true → r.cancelled = true) then
          some (s.set i { r.finish error with handler := .called })
        else none
    | .destroyHandler i =>
        let r := s.timers i
        if r.handler = .called then some (s.release i { r with handler := .destroyed }) else none
    | .requestStop token =>
        let k := s.tokens token
        if k.hasState ∧ k.sources then some (if k.stopped then s else s.stop token) else none
    | .dropSources token =>
        let k := s.tokens token
        some (s.setToken token { k with sources := false })

-- ============================================================================
-- References
-- ============================================================================

/-- The reference of the local pointer. -/
def Phase.refs : Phase → Nat
  | .wait | .possible | .emplace | .addCallback | .drop => 1
  | .unused | .check | .create | .returned => 0

/-- Before `async_wait`. -/
def Phase.early : Phase → Bool
  | .unused | .check | .create | .wait => true
  | _ => false

/-- The reference of the handler. -/
def Handler.refs : Handler → Nat
  | .waiting | .called => 1
  | .none | .destroyed => 0

/-- The calls that the handler made. -/
def Handler.calls : Handler → Nat
  | .called | .destroyed => 1
  | .none | .waiting => 0

/-- `schedule` called the callback itself, as the token was stopped already. -/
def Timer.refused (r : Timer) : Bool := r.phase = .returned && r.handler = .none

/-- What the references and calls of a timer come from. -/
structure Timer.Ok (r : Timer) : Prop where
  refs : r.refcount = r.phase.refs + r.handler.refs + r.cancel.toNat
  alive : r.alive = true ↔ r.refcount ≠ 0
  early : r.phase.early = true → r.handler = .none
  started : r.phase.early = false → r.phase ≠ .returned → r.handler ≠ .none
  own : r.phase = .addCallback → r.cancel = true
  plain : r.phase = .possible ∨ r.phase = .emplace ∨ r.handler = .none → r.cancel = false
  calls : r.calls.length = r.handler.calls + r.refused.toNat

structure Inv (s : State) : Prop where
  ok : ∀ i, (s.timers i).Ok
  registered : ∀ k i, i ∈ (s.tokens k).callbacks → (s.timers i).cancel = true

variable {s s' : State} {i k : Nat}

/-- One timer changes, and no callback is registered. -/
theorem Inv.set (hi : Inv s) {r : Timer} (hr : r.Ok)
    (hc : (s.timers i).cancel = true → r.cancel = true) : Inv (s.set i r) := by
  constructor
  · intro j
    by_cases hj : j = i
    · subst hj
      simpa [State.set] using hr
    · simpa [State.set, Function.update_of_ne hj] using hi.ok j
  · intro k j hk
    have hold := hi.registered k j hk
    by_cases hj : j = i
    · subst hj
      simpa [State.set] using hc hold
    · simpa [State.set, Function.update_of_ne hj] using hold

/-- The callbacks of one token change. -/
theorem Inv.setToken (hi : Inv s) {v : Token} (h : ∀ j ∈ v.callbacks, (s.timers j).cancel = true) :
    Inv (s.setToken k v) := by
  refine ⟨hi.ok, fun l j hl => ?_⟩
  by_cases hk : l = k
  · subst hk
    exact h j (by simpa [State.setToken] using hl)
  · exact hi.registered l j (by simpa [State.setToken, Function.update_of_ne hk] using hl)

/-- A reference is dropped. -/
theorem Inv.release (hi : Inv s) {r : Timer} (hr : r.release.Ok)
    (hc : (s.timers i).cancel = true → r.cancel = true) : Inv (s.release i r) := by
  have hset := hi.set hr hc
  unfold State.release
  split
  · refine hset.setToken fun j hj => ?_
    exact hset.registered r.token j (List.mem_of_mem_erase hj)
  · exact hset

attribute [local grind] Phase.refs Phase.early Handler.refs Handler.calls Timer.refused Timer.addRef
  Timer.release Timer.finish Timer.cancelWait

theorem Timer.Ok.cancelWait {r : Timer} (h : r.Ok) : r.cancelWait.Ok := by
  obtain ⟨⟩ := h
  constructor <;> assumption

theorem Inv.stop (hi : Inv s) : Inv (s.stop k) := by
  constructor
  · intro j
    simp only [State.stop]
    split
    · exact (hi.ok j).cancelWait
    · exact hi.ok j
  · intro l j hl
    have hold : (s.timers j).cancel = true := by
      by_cases hk : l = k
      · subst hk
        simp [State.stop] at hl
      · exact hi.registered l j (by simpa [State.stop, Function.update_of_ne hk] using hl)
    simp only [State.stop]
    split <;> exact hold

theorem stepCall_inv (hi : Inv s) (hs : stepCall s i = some s') : Inv s' := by
  have hr := hi.ok i
  obtain ⟨hrefs, halive, hearly, hstarted, hown, hplain, hcalls⟩ := hr
  cases hp : (s.timers i).phase <;> simp only [stepCall, hp] at hs
  case unused | returned => cases hs
  case check =>
      split at hs <;> cases hs
      · exact hi.set (by constructor <;> grind -linarith) (by grind -linarith)
      · exact hi.set (by constructor <;> grind -linarith) (by grind -linarith)
  case create | wait | emplace =>
      cases hs
      exact hi.set (by constructor <;> grind -linarith) (by grind -linarith)
  case possible =>
      split at hs <;> cases hs
      · exact hi.set (by constructor <;> grind -linarith) (by grind -linarith)
      · exact hi.set (by constructor <;> grind -linarith) (by grind -linarith)
  case addCallback =>
      cases hs
      have hset : Inv (s.set i { s.timers i with phase := .drop }) :=
        hi.set (by constructor <;> grind -linarith) (by grind -linarith)
      simp only [State.addCallback]
      split
      · exact hi.set (by constructor <;> grind -linarith) (by grind -linarith)
      · split
        · refine hset.setToken fun j hj => ?_
          rcases List.mem_cons.mp hj with rfl | hj
          · simpa [State.set] using hown hp
          · exact hset.registered _ j hj
        · exact hset
  case drop =>
      cases hs
      exact hi.release (by constructor <;> grind -linarith) (by grind -linarith)

theorem Timer.new_ok : Timer.new.Ok := by
  constructor <;> simp [Timer.new, Phase.refs, Phase.early, Handler.refs, Handler.calls,
    Timer.refused]

theorem Timer.check_ok {token : Nat} : { Timer.new with token := token, phase := .check }.Ok := by
  constructor <;> simp [Timer.new, Phase.refs, Phase.early, Handler.refs, Handler.calls,
    Timer.refused]

theorem step_inv {a : Act} (hi : Inv s) (hs : timers.step s a = some s') : Inv s' := by
  cases a with
  | schedule i token =>
      simp only [timers] at hs
      split at hs <;> cases hs
      next hp =>
        have hr := hi.ok i
        refine hi.set Timer.check_ok fun hc => ?_
        have := hr.plain (.inr (.inr (hr.early (by rw [hp]; rfl))))
        rw [this] at hc
        cases hc
  | step i => exact stepCall_inv hi hs
  | complete i error =>
      simp only [timers] at hs
      split at hs <;> cases hs
      next hp =>
        obtain ⟨hrefs, halive, hearly, hstarted, hown, hplain, hcalls⟩ := hi.ok i
        exact hi.set (by constructor <;> grind -linarith) id
  | destroyHandler i =>
      simp only [timers] at hs
      split at hs <;> cases hs
      next hp =>
        obtain ⟨hrefs, halive, hearly, hstarted, hown, hplain, hcalls⟩ := hi.ok i
        exact hi.release (by constructor <;> grind -linarith) id
  | requestStop token =>
      simp only [timers] at hs
      split at hs <;> cases hs
      split
      · exact hi
      · exact hi.stop
  | dropSources token =>
      cases hs
      exact hi.setToken fun j hj => hi.registered token j hj

theorem reachable_inv (hr : timers.Reachable s) : Inv s := by
  refine hr.invariant ?_ fun _ _ _ hi _ hs => step_inv hi hs
  rintro s ⟨htok, htim⟩
  refine ⟨fun i => ?_, fun k i hk => ?_⟩
  · rw [htim i]
    exact Timer.new_ok
  · rw [htok k] at hk
    cases hk

-- ============================================================================
-- Timers that are not freed
-- ============================================================================

/-- Once `schedule` returned, the timer has references exactly as long as its
    handler is there, and is not registered with a token after that. -/
def Freed (s : State) (i : Nat) : Prop :=
  (s.timers i).phase = .returned → (s.timers i).refused = false →
    ((s.timers i).refcount ≠ 0 ↔ (s.timers i).handler ≠ .destroyed) ∧
      ((s.timers i).handler = .destroyed → ∀ k, i ∉ (s.tokens k).callbacks)

/-- The callback is called at most once, and it was called when `schedule`
    returned and the timer does not wait any more. -/
def CalledOnce (s : State) (i : Nat) : Prop :=
  (s.timers i).calls.length ≤ 1 ∧
    ((s.timers i).phase = .returned →
      ((s.timers i).calls.length = 1 ↔ (s.timers i).handler ≠ .waiting))

/-- `start` is never called with a token that may be stopped. -/
def NeverPossible (s : State) : Act → Prop
  | .step i => (s.timers i).phase = .possible → (s.tokens (s.timers i).token).stopPossible = false
  | _ => True

/-- The timer did not register, and is not about to. -/
def Timer.Plain (r : Timer) : Prop :=
  r.cancel = false ∧ r.phase ≠ .emplace ∧ r.phase ≠ .addCallback

theorem State.release_timers {r : Timer} :
    (s.release i r).timers = Function.update s.timers i r.release := by
  unfold State.release
  split <;> rfl

theorem plain_set {r : Timer} (hi : ∀ j, (s.timers j).Plain) (hr : r.Plain) (j : Nat) :
    (Function.update s.timers i r j).Plain := by
  by_cases hj : j = i
  · rwa [hj, Function.update_self]
  · rw [Function.update_of_ne hj]
    exact hi j

/-- A timer whose token cannot be stopped stays without a reference to itself. -/
theorem step_plain {a : Act} (hi : ∀ j, (s.timers j).Plain) (hok : NeverPossible s a)
    (hs : timers.step s a = some s') : ∀ j, (s'.timers j).Plain := by
  cases a with
  | schedule i token =>
      simp only [timers] at hs
      split at hs <;> cases hs
      exact plain_set hi (by simp [Timer.Plain, Timer.new])
  | step i =>
      have hr := hi i
      simp only [timers] at hs
      cases hp : (s.timers i).phase <;> simp only [stepCall, hp] at hs
      case unused | returned => cases hs
      case emplace => exact absurd hp hr.2.1
      case addCallback => exact absurd hp hr.2.2
      case check =>
          split at hs <;> cases hs
          · exact plain_set hi (by simpa [Timer.Plain, Timer.finish] using hr.1)
          · exact plain_set hi (by simpa [Timer.Plain] using hr.1)
      case create | wait =>
          cases hs
          exact plain_set hi (by simpa [Timer.Plain, Timer.addRef] using hr.1)
      case possible =>
          rw [hok hp] at hs
          cases hs
          exact plain_set hi (by simpa [Timer.Plain] using hr.1)
      case drop =>
          cases hs
          rw [State.release_timers]
          exact plain_set hi (by simpa [Timer.Plain, Timer.release] using hr.1)
  | complete i error =>
      simp only [timers] at hs
      split at hs <;> cases hs
      exact plain_set hi (hi i)
  | destroyHandler i =>
      simp only [timers] at hs
      split at hs <;> cases hs
      rw [State.release_timers]
      exact plain_set hi (hi i)
  | requestStop token =>
      simp only [timers] at hs
      split at hs <;> cases hs
      split
      · exact hi
      · intro j
        simp only [State.stop]
        split <;> exact hi j
  | dropSources token =>
      cases hs
      exact hi

theorem reachable_plain (hr : timers.ReachableIf NeverPossible s) (i : Nat) :
    (s.timers i).cancel = false := by
  have h : ∀ j, (s.timers j).Plain := by
    refine hr.invariant (I := fun s => ∀ j, (s.timers j).Plain) ?_
      fun _ _ _ hi hok hs => step_plain hi hok hs
    rintro s ⟨-, htim⟩ j
    rw [htim j]
    simp [Timer.Plain, Timer.new]
  exact (h i).1

/-- A timer without a reference to itself is freed. -/
theorem Inv.freed (hi : Inv s) (hc : (s.timers i).cancel = false) : Freed s i := by
  intro hp hf
  have hr := hi.ok i
  have hrefs := hr.refs
  rw [hp, hc] at hrefs
  refine ⟨?_, fun hd k hk => ?_⟩
  · cases hh : (s.timers i).handler <;> simp_all [Timer.refused, Phase.refs, Handler.refs]
  · have := hi.registered k i hk
    rw [hc] at this
    cases this

theorem Inv.calledOnce (hi : Inv s) : CalledOnce s i := by
  have hr := hi.ok i
  have hcalls := hr.calls
  cases hh : (s.timers i).handler <;> by_cases hp : (s.timers i).phase = .returned <;>
    simp_all [CalledOnce, Timer.refused, Handler.calls]

/-- In every run in which `start` never sees a token that may be stopped, every
    callback is called once and every timer is freed when its handler is gone.

    In every run, every callback is called once; and a timer that did see such a
    token keeps a reference to itself for good: when its handler is gone it is
    not freed. -/
theorem timers_freed_of_neverPossible (s : State) (i : Nat) :
    (timers.ReachableIf NeverPossible s → CalledOnce s i ∧ Freed s i) ∧
    (timers.Reachable s → CalledOnce s i ∧
      ((s.timers i).cancel = true → (s.timers i).refcount ≠ 0) ∧
      ((s.timers i).phase = .returned → (s.timers i).refused = false →
        (s.timers i).handler = .destroyed →
          (Freed s i ↔ (s.timers i).cancel = false))) := by
  refine ⟨fun hr => ?_, fun hr => ?_⟩
  · have hi := reachable_inv hr.reachable
    exact ⟨hi.calledOnce, hi.freed (reachable_plain hr i)⟩
  · have hi := reachable_inv hr
    have hrefs := (hi.ok i).refs
    have hkeep : (s.timers i).cancel = true → (s.timers i).refcount ≠ 0 := by
      intro hc
      rw [hc, Bool.toNat_true] at hrefs
      omega
    refine ⟨hi.calledOnce, hkeep, fun hp hf hd => ⟨fun hfree => ?_, hi.freed⟩⟩
    by_contra hc
    have hne := hkeep (by simpa using hc)
    exact ((hfree hp hf).1.mp hne) hd

/-- One timer with a token that has a source: the wait ends, and the handler is
    called and destroyed. -/
def leak : List Act :=
  [.schedule 0 0, .step 0, .step 0, .step 0, .step 0, .step 0, .step 0, .step 0,
    .complete 0 false, .destroyHandler 0]

/-- The timer is never freed, and stays registered. -/
theorem timer_leaks : ∃ s, timers.Reachable s ∧ ¬ Freed s 0 := by
  let start : State := ⟨fun _ => ⟨true, true, false, []⟩, fun _ => .new⟩
  obtain ⟨s, hr, hs⟩ := System.exists_reachable_of_run (M := timers) (s := start) leak
    (fun s => (s.timers 0).phase = .returned ∧ (s.timers 0).refused = false ∧
      (s.timers 0).handler = .destroyed ∧ (s.timers 0).refcount ≠ 0)
    ⟨fun _ => rfl, fun _ => rfl⟩ (by decide)
  obtain ⟨hp, hf, hd, hc⟩ := of_decide_eq_true hs
  exact ⟨s, hr, fun h => (h hp hf).1.mp hc hd⟩

end Coroactors.Asio.Scheduler
