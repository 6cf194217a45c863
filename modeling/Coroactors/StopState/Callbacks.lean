/-
  Coroactors.StopState.Callbacks

  The invariant behind the callbacks of `stop_state`: where every callback is,
  and who may touch it.

  A callback is in the list, or `remove_callback` took it out, or the one
  `request_stop` that stopped the state took it out, invoked it and is done
  with it; at most one callback is between the last two (`Phase.busy`).  A
  thread relies only on callbacks it is adding or removing, and on the phase if
  it is the thread that stopped the state; `Keeps` says that a step of another
  thread leaves these as they are.
-/

import Coroactors.StopState.Lock
import Coroactors.Conc.DList

namespace Coroactors.StopState

open Coroactors.Conc

variable {K : Type*} {s s' : State K} {t u : Nat}

-- ============================================================================
-- What a thread relies on
-- ============================================================================

/-- `request_stop` took the callback out of the list. -/
def Stage.popped : Stage → Bool
  | .taken | .running | .returned | .finished => true
  | .out | .listed | .unlinked => false

/-- `request_stop` is at work on the callback. -/
def Stage.inFlight : Stage → Bool
  | .taken | .running | .returned => true
  | .out | .listed | .unlinked | .finished => false

/-- The callback was added, and `remove_callback` did not take it out. -/
def Stage.kept : Stage → Bool
  | .listed | .taken | .running | .returned | .finished => true
  | .out | .unlinked => false

/-- `remove_callback` was called for the callback. -/
def Life.ended : Life → Bool
  | .removing _ | .gone _ => true
  | .fresh | .adding _ | .live | .refused => false

def Want.Ok (s : State K) (t : Nat) : Want K → Prop
  | .add k => s.life k = .adding t ∧ s.stage k = .out ∧ s.invoked k = 0
  | .remove k => s.life k = .removing t ∧ (s.stage k).kept = true
  | .again => s.stopper = some t ∧ s.phase = .scanning ∧ s.running = some t
  | .stop => True

/-- The loop of `add_callback` went past its checks, so the state was not
    stopped when it was called. -/
def Want.Early (s : State K) : Want K → Prop
  | .add k => s.late k = false
  | _ => True

def Want.HeldOk (s : State K) (t : Nat) : Want K → Prop
  | .add k => (Want.add k).Ok s t ∧ s.late k = false ∧ s.stopper = none
  | .remove k => (Want.remove k).Ok s t
  | .again => Want.again.Ok s t
  | .stop => s.stopper = some t ∧ s.phase = .scanning

def After.Ok (s : State K) (t : Nat) : After K → Prop
  | .added k => s.life k = .adding t ∧ (s.stage k).kept = true
  | .removed k true => s.life k = .removing t ∧ s.stage k = .unlinked
  | .removed k false => s.life k = .removing t ∧ (s.stage k).popped = true
  | .invoke k empty => s.stopper = some t ∧ s.phase = .busy k ∧ s.stage k = .taken ∧
      (empty = true → s.list = [])
  | .finished => s.stopper = some t ∧ s.phase = .scanning ∧ s.list = []

def PcOk (s : State K) (t : Nat) : Pc K → Prop
  | .user => True
  | .load w => w.Ok s t
  | .lockCas w _ _ | .spin w _ | .setWaiting w _ _ | .wait w _ _ | .blocked w _ _
  | .reload w _ _ => w.Ok s t ∧ w.Early s
  | .notifyAll => s.stopper = some t ∧ s.phase = .scanning
  | .held w => w.HeldOk s t
  | .unlock a | .notifyOne a => a.Ok s t
  | .checkRunning k => s.life k = .removing t ∧ (s.stage k).popped = true
  | .acquire k => s.life k = .removing t ∧ (s.stage k).popped = true
  | .returned k empty => s.stopper = some t ∧ s.phase = .busy k ∧ s.stage k = .returned ∧
      (empty = true → s.list = [])
  | .release k empty => s.stopper = some t ∧ s.phase = .busy k ∧ s.stage k = .returned ∧
      (empty = true → s.list = []) ∧ s.flag t = false ∧ s.removed k = none

def Caller.Ok (s : State K) (t : Nat) : Caller K → Prop
  | .add k => s.life k = .adding t ∧ s.stage k = .out ∧ s.invoked k = 1
  | .stop k empty => s.stopper = some t ∧ s.phase = .busy k ∧ s.stage k = .running ∧
      (empty = true → s.list = [])

def Caller.callback : Caller K → K
  | .add k | .stop k _ => k

-- ============================================================================
-- The invariant
-- ============================================================================

/-- The callbacks, the list and the phase. -/
structure Data (s : State K) : Prop where
  linked : Linked s.head s.prev s.next s.list
  listed : ∀ k, s.stage k = .listed ↔ k ∈ s.list
  added : ∀ k, k ∈ s.added ↔ s.stage k ≠ .out
  taken : ∀ k, k ∈ s.taken ↔ (s.stage k).popped = true
  invokedLe : ∀ k, s.invoked k ≤ 1
  notInvoked : ∀ k, s.stage k = .listed ∨ s.stage k = .unlinked ∨ s.stage k = .taken →
    s.invoked k = 0
  invoked : ∀ k, s.stage k = .running ∨ s.stage k = .returned ∨ s.stage k = .finished →
    s.invoked k = 1
  idle : s.stopper = none ↔ s.phase = .idle
  busy : ∀ k, s.phase = .busy k ↔ (s.stage k).inFlight = true
  popped : ∀ k, (s.stage k).popped = true → s.stopper ≠ none ∧ s.running = s.stopper
  running : ∀ t, s.running = some t → s.stopper = some t
  drained : s.phase = .over → s.list = []
  stopsLe : s.stops.count true ≤ 1
  stops : true ∈ s.stops ↔ s.phase = .over
  refusals : false ∈ s.stops → s.stopper ≠ none
  late : ∀ k, s.late k = true → s.stopper ≠ none ∧ s.stage k = .out
  fresh : ∀ k, s.life k = .fresh → s.stage k = .out ∧ s.invoked k = 0 ∧ s.late k = false
  refused : ∀ k, s.life k = .refused → s.stage k = .out ∧ (s.late k = true → s.invoked k = 1)
  live : ∀ k, s.life k = .live → (s.stage k).kept = true
  ended : ∀ k, (s.life k).ended = true → s.stage k ≠ .out
  unlinked : ∀ k, s.stage k = .unlinked → (s.life k).ended = true
  gone : ∀ k t, s.life k = .gone t → s.stage k = .unlinked ∨ s.stage k = .finished ∨
    ((s.stage k = .running ∨ s.stage k = .returned) ∧ s.stopper = some t ∧ s.flag t = true)
  flag : ∀ t k, s.stopper = some t → s.phase = .busy k → s.flag t = true → s.life k = .gone t
  removed : ∀ k, s.stage k = .taken ∨ s.stage k = .running → s.removed k = s.stopper
  removedNone : ∀ k, s.stage k = .finished → s.removed k = none ∨ ∃ t, s.life k = .gone t
  done : ∀ k, 0 < s.done k → s.stage k = .finished

/-- At most one callback is in flight. -/
theorem Data.inFlight_unique {k k' : K} (hd : Data s) (hb : s.phase = .busy k)
    (h : (s.stage k').inFlight = true) : k' = k := by
  have := (hd.busy k').mpr h
  rw [hb] at this
  exact (Phase.busy.inj this).symm

/-- The orders of additions and invocations. -/
structure Order (s : State K) : Prop where
  added : (s.taken ++ s.list).Sublist s.added.reverse
  ranBut : ∀ k, s.stage k = .taken → s.taken = s.ran ++ [k]
  ran : (∀ k, s.stage k ≠ .taken) → s.taken = s.ran

/-- The thread is about to invoke the callback. -/
def Pc.invokes (k : K) : Pc K → Prop
  | .unlock (.invoke k' _) | .notifyOne (.invoke k' _) => k' = k
  | _ => False

/-- `request_stop` may still touch the callback, which returned. -/
def Pc.atReturned (k : K) : Pc K → Prop
  | .returned k' _ | .release k' _ => k' = k
  | _ => False

structure Inv (s : State K) : Prop where
  pcs : ∀ t, PcOk s t (s.pc t)
  frames : ∀ t, ∀ c ∈ s.stack t, c.Ok s t
  framesNodup : ∀ t, ((s.stack t).map Caller.callback).Nodup
  data : Data s
  order : Order s
  takenAt : ∀ t k, s.stopper = some t → s.stage k = .taken → (s.pc t).invokes k
  runningAt : ∀ t k, s.stopper = some t → s.stage k = .running → k ∈ (s.stack t).map Caller.callback
  returnedAt : ∀ t k, s.stopper = some t → s.stage k = .returned → (s.pc t).atReturned k

theorem Inv.start : Inv (State.start : State K) where
  pcs _ := trivial
  frames t c h := by cases h
  framesNodup _ := List.nodup_nil
  data := by
    constructor
    case linked => exact .empty
    all_goals simp [State.start, Stage.popped, Stage.inFlight, Life.ended]
  order := ⟨List.Sublist.refl _, nofun, fun _ => rfl⟩
  takenAt t k h := by cases h
  runningAt t k h := by cases h
  returnedAt t k h := by cases h

-- ============================================================================
-- Steps of other threads
-- ============================================================================

/-- What the thread `u` relies on is the same in both states. -/
structure Keeps (s s' : State K) (u : Nat) : Prop where
  adding : ∀ k, s.life k = .adding u → s'.life k = .adding u ∧ s'.late k = s.late k ∧
    (s.stage k = .out → s'.stage k = .out ∧ s'.invoked k = s.invoked k) ∧
    ((s.stage k).kept = true → (s'.stage k).kept = true)
  removing : ∀ k, s.life k = .removing u → s'.life k = .removing u ∧
    ((s.stage k).kept = true → (s'.stage k).kept = true) ∧
    (s.stage k = .unlinked → s'.stage k = .unlinked) ∧
    ((s.stage k).popped = true → (s'.stage k).popped = true)
  stopper : s.stopper = some u → s'.stopper = some u ∧ s'.phase = s.phase ∧
    (s.list = [] → s'.list = []) ∧ s'.flag u = s.flag u ∧ s'.running = s.running
  busy : ∀ k, s.stopper = some u → s.phase = .busy k →
    s'.stage k = s.stage k ∧ s'.removed k = s.removed k

theorem Keeps.refl (s : State K) (u : Nat) : Keeps s s u := by
  constructor <;> simp_all

theorem Keeps.want {w : Want K} (h : Keeps s s' u) (hw : w.Ok s u) : w.Ok s' u := by
  cases w with
  | add k =>
      obtain ⟨h1, h2, h3⟩ := hw
      obtain ⟨e1, -, e2, -⟩ := h.adding k h1
      exact ⟨e1, (e2 h2).1, (e2 h2).2.trans h3⟩
  | remove k => exact ⟨(h.removing k hw.1).1, (h.removing k hw.1).2.1 hw.2⟩
  | again =>
      obtain ⟨h1, h2, h3⟩ := hw
      obtain ⟨e1, e2, -, -, e3⟩ := h.stopper h1
      exact ⟨e1, e2.trans h2, e3.trans h3⟩
  | stop => trivial

theorem Keeps.early {w : Want K} (h : Keeps s s' u) (hw : w.Ok s u) (he : w.Early s) :
    w.Early s' := by
  cases w with
  | add k => exact (h.adding k hw.1).2.1.trans he
  | _ => trivial

theorem Keeps.after {a : After K} (h : Keeps s s' u) (ha : a.Ok s u) : a.Ok s' u := by
  cases a with
  | added k => exact ⟨(h.adding k ha.1).1, (h.adding k ha.1).2.2.2 ha.2⟩
  | removed k found =>
      cases found with
      | true => exact ⟨(h.removing k ha.1).1, (h.removing k ha.1).2.2.1 ha.2⟩
      | false => exact ⟨(h.removing k ha.1).1, (h.removing k ha.1).2.2.2 ha.2⟩
  | invoke k empty =>
      obtain ⟨h1, h2, h3, h4⟩ := ha
      obtain ⟨e1, e2, e3, -⟩ := h.stopper h1
      exact ⟨e1, e2.trans h2, (h.busy k h1 h2).1.trans h3, fun he => e3 (h4 he)⟩
  | finished =>
      obtain ⟨h1, h2, h3⟩ := ha
      obtain ⟨e1, e2, e3, -⟩ := h.stopper h1
      exact ⟨e1, e2.trans h2, e3 h3⟩

/-- Another thread is where it was, and what it relies on still holds. -/
theorem Keeps.pcOk {pc : Pc K} (h : Keeps s s' u)
    (hnone : pc.holds = true → s.stopper = none → s'.stopper = none) (hp : PcOk s u pc) :
    PcOk s' u pc := by
  cases pc with
  | user => trivial
  | load w => exact h.want hp
  | lockCas w _ _ => exact ⟨h.want hp.1, h.early hp.1 hp.2⟩
  | spin w _ => exact ⟨h.want hp.1, h.early hp.1 hp.2⟩
  | setWaiting w _ _ => exact ⟨h.want hp.1, h.early hp.1 hp.2⟩
  | wait w _ _ => exact ⟨h.want hp.1, h.early hp.1 hp.2⟩
  | blocked w _ _ => exact ⟨h.want hp.1, h.early hp.1 hp.2⟩
  | reload w _ _ => exact ⟨h.want hp.1, h.early hp.1 hp.2⟩
  | notifyAll => exact ⟨(h.stopper hp.1).1, (h.stopper hp.1).2.1.trans hp.2⟩
  | held w =>
      cases w with
      | add k =>
          obtain ⟨h1, h2, h3⟩ := hp
          exact ⟨h.want h1, h.early (w := .add k) h1 h2, hnone rfl h3⟩
      | remove k => exact h.want (w := .remove k) hp
      | again => exact h.want (w := .again) hp
      | stop => exact ⟨(h.stopper hp.1).1, (h.stopper hp.1).2.1.trans hp.2⟩
  | unlock a => exact h.after hp
  | notifyOne a => exact h.after hp
  | checkRunning k => exact ⟨(h.removing k hp.1).1, (h.removing k hp.1).2.2.2 hp.2⟩
  | acquire k => exact ⟨(h.removing k hp.1).1, (h.removing k hp.1).2.2.2 hp.2⟩
  | returned k empty =>
      obtain ⟨h1, h2, h3, h4⟩ := hp
      obtain ⟨e1, e2, e3, -⟩ := h.stopper h1
      exact ⟨e1, e2.trans h2, (h.busy k h1 h2).1.trans h3, fun he => e3 (h4 he)⟩
  | release k empty =>
      obtain ⟨h1, h2, h3, h4, h5, h6⟩ := hp
      obtain ⟨e1, e2, e3, e4, -⟩ := h.stopper h1
      obtain ⟨e5, e6⟩ := h.busy k h1 h2
      exact ⟨e1, e2.trans h2, e5.trans h3, fun he => e3 (h4 he), e4.trans h5, e6.trans h6⟩

theorem Keeps.caller {c : Caller K} (h : Keeps s s' u) (hc : c.Ok s u) : c.Ok s' u := by
  cases c with
  | add k =>
      obtain ⟨h1, h2, h3⟩ := hc
      obtain ⟨e1, -, e2, -⟩ := h.adding k h1
      exact ⟨e1, (e2 h2).1, (e2 h2).2.trans h3⟩
  | stop k empty =>
      obtain ⟨h1, h2, h3, h4⟩ := hc
      obtain ⟨e1, e2, e3, -⟩ := h.stopper h1
      exact ⟨e1, e2.trans h2, (h.busy k h1 h2).1.trans h3, fun he => e3 (h4 he)⟩

/-- A step of the thread `t`: it moves, what the other threads rely on stays,
    and the rest is about `t` and the data. -/
theorem Inv.of_step {pc : Pc K} {st : List (Caller K)} (hi : Inv s)
    (hpc : s'.pc = Function.update s.pc t pc) (hst : s'.stack = Function.update s.stack t st)
    (hstop : s'.stopper = s.stopper ∨ s'.stopper = some t)
    (hk : ∀ u, u ≠ t → Keeps s s' u)
    (hnone : ∀ u, u ≠ t → (s.pc u).holds = true → s.stopper = none → s'.stopper = none)
    (hp : PcOk s' t pc) (hf : ∀ c ∈ st, c.Ok s' t) (hnd : (st.map Caller.callback).Nodup)
    (hd : Data s') (ho : Order s')
    (htaken : s'.stopper = some t → ∀ k, s'.stage k = .taken → pc.invokes k)
    (hrun : s'.stopper = some t → ∀ k, s'.stage k = .running → k ∈ st.map Caller.callback)
    (hret : s'.stopper = some t → ∀ k, s'.stage k = .returned → pc.atReturned k) : Inv s' := by
  -- the phase of another thread's `request_stop` is as it was
  have hother (x : Nat) (hx : x ≠ t) (k : K) (hs : s'.stopper = some x)
      (hfl : (s'.stage k).inFlight = true) : s.stopper = some x ∧ s.stage k = s'.stage k := by
    have hs0 : s.stopper = some x := by
      rcases hstop with h | h
      · exact h.symm.trans hs
      · rw [hs] at h
        exact absurd (Option.some.inj h) hx
    have hb := (hd.busy k).mpr hfl
    rw [((hk x hx).stopper hs0).2.1] at hb
    exact ⟨hs0, ((hk x hx).busy k hs0 hb).1.symm⟩
  constructor
  case pcs =>
    intro u
    rw [hpc]
    by_cases h : u = t
    · subst h
      simpa using hp
    · simpa [h] using (hk u h).pcOk (hnone u h) (hi.pcs u)
  case frames =>
    intro u c hc
    rw [hst] at hc
    by_cases h : u = t
    · subst h
      exact hf c (by simpa using hc)
    · exact (hk u h).caller (hi.frames u c (by simpa [h] using hc))
  case framesNodup =>
    intro u
    rw [hst]
    by_cases h : u = t
    · subst h
      simpa using hnd
    · simpa [h] using hi.framesNodup u
  case data => exact hd
  case order => exact ho
  case takenAt =>
    intro x k hx hs
    rw [hpc]
    by_cases h : x = t
    · subst h
      simpa using htaken hx k hs
    · obtain ⟨hs0, he⟩ := hother x h k hx (by rw [hs]; rfl)
      simpa [h] using hi.takenAt x k hs0 (he.trans hs)
  case runningAt =>
    intro x k hx hs
    rw [hst]
    by_cases h : x = t
    · subst h
      simpa using hrun hx k hs
    · obtain ⟨hs0, he⟩ := hother x h k hx (by rw [hs]; rfl)
      simpa [h] using hi.runningAt x k hs0 (he.trans hs)
  case returnedAt =>
    intro x k hx hs
    rw [hpc]
    by_cases h : x = t
    · subst h
      simpa using hret hx k hs
    · obtain ⟨hs0, he⟩ := hother x h k hx (by rw [hs]; rfl)
      simpa [h] using hi.returnedAt x k hs0 (he.trans hs)

/-- Only the place of a thread and the word change. -/
theorem Inv.quiet {p : Pc K} {v : Nat} {l : List Nat} {h : Option Nat} (hi : Inv s)
    (hp : PcOk s t p) (htaken : ∀ k, (s.pc t).invokes k → p.invokes k)
    (hret : ∀ k, (s.pc t).atReturned k → p.atReturned k) :
    Inv { s with pc := Function.update s.pc t p, word := v, waiters := l, holder := h } := by
  have hd : Data { s with pc := Function.update s.pc t p, word := v, waiters := l, holder := h } :=
    { hi.data with }
  have hk (u : Nat) :
      Keeps s { s with pc := Function.update s.pc t p, word := v, waiters := l, holder := h } u :=
    { Keeps.refl s u with }
  refine hi.of_step rfl (Function.update_eq_self t s.stack).symm (.inl rfl)
    (fun u _ => hk u) (fun _ _ _ h => h) ((hk t).pcOk (fun _ h => h) hp)
    (fun c hc => (hk t).caller (hi.frames t c hc)) (hi.framesNodup t) hd { hi.order with } ?_ ?_ ?_
  · exact fun hs k hst => htaken k (hi.takenAt t k hs hst)
  · exact fun hs k hst => hi.runningAt t k hs hst
  · exact fun hs k hst => hret k (hi.returnedAt t k hs hst)

/-- Only the word and who sleeps on it change. -/
theorem Inv.word {v : Nat} {l : List Nat} {h : Option Nat} (hi : Inv s) :
    Inv { s with word := v, waiters := l, holder := h } := by
  have := hi.quiet (t := 0) (v := v) (l := l) (h := h) (hi.pcs 0) (fun _ h => h) fun _ h => h
  rwa [Function.update_eq_self] at this

-- ============================================================================
-- Calls that begin and return
-- ============================================================================

/-- The thread is not at work for `request_stop`. -/
def Pc.Free (pc : Pc K) : Prop := ∀ k, ¬ pc.invokes k ∧ ¬ pc.atReturned k

/-- `request_stop` returns false. -/
theorem Inv.retFalse (hi : Inv s) (hfree : (s.pc t).Free) (hs : s.stopper ≠ none) :
    Inv (s.retStop t false) := by
  have hd := hi.data
  have hd' : Data (s.retStop t false) := by
    refine { hd with stopsLe := ?_, stops := ?_, refusals := ?_ }
    · simpa [State.retStop] using hd.stopsLe
    · simpa [State.retStop] using hd.stops
    · exact fun _ => hs
  have hk (u : Nat) : Keeps s (s.retStop t false) u := { Keeps.refl s u with }
  refine hi.of_step rfl (Function.update_eq_self t s.stack).symm (.inl rfl) (fun u _ => hk u)
    (fun _ _ _ h => h) trivial (fun c hc => (hk t).caller (hi.frames t c hc)) (hi.framesNodup t)
    hd' { hi.order with } ?_ ?_ ?_
  · exact fun hs k' hk => absurd (hi.takenAt t k' hs hk) (hfree k').1
  · exact fun hs k' hk => hi.runningAt t k' hs hk
  · exact fun hs k' hk => absurd (hi.returnedAt t k' hs hk) (hfree k').2

/-- `lock_stop` takes the lock. -/
theorem Inv.stopAcquired {p : Pc K} {v : Nat} (hi : Inv s) (hlock : LockInv s)
    (hl : locked s.word = false) (hs : s.stopper = none)
    (hp : p = .notifyAll ∨ p = .held .stop) :
    Inv { s with
      pc := Function.update s.pc t p
      word := v
      holder := some t
      stopper := some t
      phase := .scanning } := by
  have hd := hi.data
  have hidle := hd.idle.mp hs
  have hno (k : K) : (s.stage k).popped = false := by
    cases h : (s.stage k).popped with
    | false => rfl
    | true => exact absurd hs (hd.popped k h).1
  have hno' (k : K) : s.stage k ≠ .taken ∧ s.stage k ≠ .running ∧ s.stage k ≠ .returned := by
    have := hno k
    refine ⟨?_, ?_, ?_⟩ <;> intro h <;> simp [h, Stage.popped] at this
  refine hi.of_step rfl (Function.update_eq_self t s.stack).symm (.inr rfl) ?_ ?_ ?_ ?_
    (hi.framesNodup t) ?_ { hi.order with } ?_ ?_ ?_
  · intro u hu
    constructor <;> simp_all
  · intro u _ hh
    have := hlock.locked_of_holds hh
    rw [hl] at this
    cases this
  · rcases hp with rfl | rfl <;> exact ⟨rfl, rfl⟩
  · intro c hc
    have := hi.frames t c hc
    cases c with
    | add k => exact this
    | stop k empty => exact absurd this.2.2.1 (hno' k).2.1
  · have hgone := hd.gone
    refine { hd with idle := ?_, busy := ?_, popped := ?_, running := ?_, drained := ?_, stops := ?_, refusals := ?_, late := ?_, gone := ?_, flag := ?_, removed := ?_ }
    · simp
    · intro k
      have := hd.busy k
      simpa [hidle] using this
    · intro k hk
      simp [hno k] at hk
    · intro x hx
      have := hd.running x hx
      rw [hs] at this
      cases this
    · simp
    · simpa [hidle] using hd.stops
    · simp
    · intro k hk
      exact absurd hs (hd.late k hk).1
    · intro k x hk
      have := hgone k x hk
      simpa [hno' k, hs] using this
    · simp
    · intro k hk
      simp [hno' k] at hk
  · exact fun _ k hk => absurd hk (hno' k).1
  · exact fun _ k hk => absurd hk (hno' k).2.1
  · exact fun _ k hk => absurd hk (hno' k).2.2

/-- `request_stop` finds the list empty and returns. -/
theorem Inv.over (hi : Inv s) (hfree : (s.pc t).Free) (ha : After.finished.Ok s t) :
    Inv ({ s with phase := .over }.retStop t true) := by
  obtain ⟨hstop, hphase, hnil⟩ := ha
  have hd := hi.data
  have hcount : true ∉ s.stops := by
    rw [hd.stops, hphase]
    nofun
  have hno (k : K) : (s.stage k).inFlight = false := by
    have := hd.busy k
    rw [hphase] at this
    simpa using this
  refine hi.of_step rfl (Function.update_eq_self t s.stack).symm (.inl rfl) ?_ (fun _ _ _ h => h)
    trivial ?_ (hi.framesNodup t) ?_ { hi.order with } ?_ ?_ ?_
  · intro u hu
    have hu' : s.stopper ≠ some u := by
      rw [hstop]
      exact fun h => hu (Option.some.inj h).symm
    constructor <;> intros <;> simp only [State.retStop] <;> grind -linarith
  · intro c hc
    have := hi.frames t c hc
    cases c with
    | add k' => exact this
    | stop k' empty =>
        have h := hno k'
        rw [this.2.2.1] at h
        cases h
  · have hlate := hd.late
    have hgone := hd.gone
    refine { hd with idle := ?_, busy := ?_, drained := ?_, stopsLe := ?_, stops := ?_, refusals := ?_, flag := ?_ }
    · simp [State.retStop, hstop]
    · intro k
      simp [State.retStop, hno]
    · exact fun _ => hnil
    · simp [State.retStop, List.count_append, List.count_eq_zero.mpr hcount]
    · simp [State.retStop]
    · intro _
      simp [State.retStop, hstop]
    · intro x k _ h
      cases h
  · exact fun hs k' hk => absurd (hi.takenAt t k' hs hk) (hfree k').1
  · exact fun hs k' hk => hi.runningAt t k' hs hk
  · exact fun hs k' hk => absurd (hi.returnedAt t k' hs hk) (hfree k').2

/-- The loops that take the lock, from a word just read. -/
theorem Inv.contend {w : Want K} {i : Nat} (hi : Inv s) (hfree : (s.pc t).Free) (hw : w.Ok s t)
    (he : w.Early s) (v : Nat) : Inv (s.contend t w v i) := by
  have hnone (k : K) {p : Prop} : (s.pc t).invokes k → p := fun h => absurd h (hfree k).1
  have hnone' (k : K) {p : Prop} : (s.pc t).atReturned k → p := fun h => absurd h (hfree k).2
  unfold State.contend
  split
  · exact hi.quiet ⟨hw, he⟩ (hnone ·) (hnone' ·)
  · split
    · split <;> exact hi.quiet ⟨hw, he⟩ (hnone ·) (hnone' ·)
    · exact hi.quiet ⟨hw, he⟩ (hnone ·) (hnone' ·)

/-- The lock is taken. -/
theorem Inv.acquired {w : Want K} (hi : Inv s) (hlock : LockInv s) (hfree : (s.pc t).Free)
    (hw : w.Ok s t) (he : w.Early s) (hl : locked s.word = false)
    (hpass : w.passes s.word = true) : Inv (s.acquired t w s.word) := by
  have hnone (k : K) {p : Prop} : (s.pc t).invokes k → p := fun h => absurd h (hfree k).1
  have hnone' (k : K) {p : Prop} : (s.pc t).atReturned k → p := fun h => absurd h (hfree k).2
  have hstopped (h : stopped s.word = false) : s.stopper = none := by
    rw [hlock.stopped] at h
    simpa using h
  cases w with
  | stop =>
      have hs := hstopped (by simpa [Want.passes] using hpass)
      simp only [State.acquired]
      split
      · exact hi.stopAcquired hlock hl hs (.inl rfl)
      · exact hi.stopAcquired hlock hl hs (.inr rfl)
  | add k =>
      have hs := hstopped (by simp_all [Want.passes])
      exact hi.quiet (p := .held (.add k)) ⟨hw, he, hs⟩ (hnone ·) (hnone' ·)
  | remove k => exact hi.quiet (p := .held (.remove k)) hw (hnone ·) (hnone' ·)
  | again => exact hi.quiet (p := .held .again) hw (hnone ·) (hnone' ·)

/-- `request_stop` notes which thread runs the callbacks. -/
theorem Inv.setRunning (hi : Inv s) (hp : s.pc t = .held .stop) (hstop : s.stopper = some t)
    (hphase : s.phase = .scanning) : Inv { s with running := some t } := by
  have hfree : (s.pc t).Free := by simp [Pc.Free, hp, Pc.invokes, Pc.atReturned]
  have hd := hi.data
  refine hi.of_step (Function.update_eq_self t s.pc).symm (Function.update_eq_self t s.stack).symm
    (.inl rfl) ?_ (fun _ _ _ h => h) ?_ ?_ (hi.framesNodup t) ?_ { hi.order with } ?_ ?_ ?_
  · intro u hu
    have hu' : s.stopper ≠ some u := by
      rw [hstop]
      exact fun h => hu (Option.some.inj h).symm
    constructor <;> intros <;> grind -linarith
  · rw [hp]
    exact ⟨hstop, hphase⟩
  · intro c hc
    have := hi.frames t c hc
    cases c with
    | add k' => exact this
    | stop k' empty => exact this
  · refine { hd with popped := ?_, running := ?_ }
    · exact fun k h => ⟨(hd.popped k h).1, hstop.symm⟩
    · exact fun x h => hstop.trans h
  · exact fun hs k' hk => absurd (hi.takenAt t k' hs hk) (hfree k').1
  · exact fun hs k' hk => hi.runningAt t k' hs hk
  · exact fun hs k' hk => absurd (hi.returnedAt t k' hs hk) (hfree k').2

section Effects

variable [DecidableEq K] {k : K}

/-- What became of a callback changes. -/
theorem Data.setLife {l : Life} (hd : Data s) (hold : ∀ u, s.life k ≠ .gone u)
    (hfresh : l ≠ .fresh) (hrefused : l = .refused → s.stage k = .out ∧
      (s.late k = true → s.invoked k = 1)) (hlive : l = .live → (s.stage k).kept = true)
    (hended : l.ended = true → s.stage k ≠ .out)
    (hunlinked : s.stage k = .unlinked → l.ended = true)
    (hgone : ∀ u, l = .gone u → s.stage k = .unlinked ∨ s.stage k = .finished ∨
      ((s.stage k = .running ∨ s.stage k = .returned) ∧ s.stopper = some u ∧ s.flag u = true)) :
    Data { s with life := Function.update s.life k l } := by
  have hflag := hd.flag
  have hgone' := hd.gone
  have hlive' := hd.live
  have hrefused' := hd.refused
  have hfresh' := hd.fresh
  have hnone := hd.removedNone
  have hended' := hd.ended
  have hunlinked' := hd.unlinked
  refine { hd with fresh := ?_, refused := ?_, live := ?_, ended := ?_, unlinked := ?_, gone := ?_, flag := ?_, removedNone := ?_ }
  all_goals
    intros
    simp only [Function.update_apply] at *
    grind -linarith

/-- A call of `add_callback` or `remove_callback` for `k` begins, or returns to
    the frames `st`. -/
theorem Inv.setLife {pc : Pc K} {l : Life} {st : List (Caller K)} {late : K → Bool} {done : K → Nat}
    (hi : Inv s)
    (hs' : s' = { s with
      pc := Function.update s.pc t pc
      stack := Function.update s.stack t st
      life := Function.update s.life k l
      late := late
      done := done })
    (hfree : (s.pc t).Free)
    (hmine : ∀ u, u ≠ t → s.life k ≠ .adding u ∧ s.life k ≠ .removing u)
    (hlate : ∀ k', k' ≠ k → late k' = s.late k') (hd : Data s') (hp : PcOk s' t pc)
    (hst : ∀ c ∈ st, c ∈ s.stack t ∧ c ≠ .add k) (hnd : (st.map Caller.callback).Nodup)
    (hrun : ∀ k', s.stage k' = .running → k' ∈ (s.stack t).map Caller.callback →
      k' ∈ st.map Caller.callback) : Inv s' := by
  subst hs'
  refine hi.of_step rfl rfl (.inl rfl) ?_ (fun _ _ _ h => h) hp ?_ hnd hd { hi.order with } ?_ ?_ ?_
  · intro u hu
    have := hmine u hu
    constructor <;> intros <;> simp only [Function.update_apply] <;> grind -linarith
  · intro c hc
    obtain ⟨hm, hne⟩ := hst c hc
    have := hi.frames t c hm
    cases c with
    | add k' =>
        have hk : k' ≠ k := fun h => hne (h ▸ rfl)
        exact ⟨(Function.update_of_ne hk ..).trans this.1, this.2⟩
    | stop k' empty => exact this
  · exact fun hs k' hk => absurd (hi.takenAt t k' hs hk) (hfree k').1
  · exact fun hs k' hk => hrun k' hk (hi.runningAt t k' hs hk)
  · exact fun hs k' hk => absurd (hi.returnedAt t k' hs hk) (hfree k').2

/-- The same with the frames as they are. -/
theorem Inv.setLifeHere {pc : Pc K} {l : Life} {late : K → Bool} {done : K → Nat} (hi : Inv s)
    (hs' : s' = { s with
      pc := Function.update s.pc t pc
      life := Function.update s.life k l
      late := late
      done := done })
    (hfree : (s.pc t).Free)
    (hmine : ∀ u, u ≠ t → s.life k ≠ .adding u ∧ s.life k ≠ .removing u)
    (hlate : ∀ k', k' ≠ k → late k' = s.late k') (hd : Data s') (hp : PcOk s' t pc)
    (hadd : s.life k ≠ .adding t ∨ s.stage k ≠ .out ∨ s.invoked k ≠ 1) : Inv s' := by
  rw [← Function.update_eq_self t s.stack] at hs'
  refine hi.setLife hs' hfree hmine hlate hd hp ?_ (hi.framesNodup t) fun _ _ h => h
  intro c hc
  refine ⟨hc, ?_⟩
  rintro rfl
  have := hi.frames t _ hc
  simp [this.1, this.2.1, this.2.2] at hadd

/-- `add_callback` is called. -/
theorem Inv.startAdd (hi : Inv s) (hlock : LockInv s) (hp : s.pc t = .user)
    (hl : s.life k = .fresh) :
    Inv ({ s with
      life := Function.update s.life k (.adding t)
      late := Function.update s.late k (stopped s.word) }.goto t (.load (.add k))) := by
  obtain ⟨hout, hinv, -⟩ := hi.data.fresh k hl
  have hd := hi.data.setLife (k := k) (l := .adding t) (by simp [hl]) (by simp) (by simp) (by simp)
    (by simp [Life.ended]) (by simp [hout]) (by simp)
  have hstop := hlock.stopped
  refine hi.setLifeHere (k := k) rfl (by simp [Pc.Free, hp, Pc.invokes, Pc.atReturned])
    (by simp [hl]) (fun _ h => Function.update_of_ne h ..) ?_ ?_ (.inl (by simp [hl]))
  · refine { hd with late := ?_, fresh := ?_, refused := ?_ }
    · intro k' h
      have := hd.late k'
      by_cases hk : k' = k
      · subst hk
        have h' : stopped s.word = true := by simpa [State.goto] using h
        rw [h', eq_comm, Option.isSome_iff_ne_none] at hstop
        exact ⟨hstop, hout⟩
      · exact this (by simpa [State.goto, hk] using h)
    · intro k' h
      by_cases hk : k' = k
      · subst hk
        simp [State.goto] at h
      · simpa [State.goto, hk] using hd.fresh k' h
    · intro k' h
      by_cases hk : k' = k
      · subst hk
        simp [State.goto] at h
      · simpa [State.goto, hk] using hd.refused k' h
  · exact ⟨Function.update_self .., hout, hinv⟩

/-- `remove_callback` is called. -/
theorem Inv.startRemove (hi : Inv s) (hp : s.pc t = .user) (hl : s.life k = .live) :
    Inv ({ s with life := Function.update s.life k (.removing t) }.goto t
      (.load (.remove k))) := by
  have hkept := hi.data.live k hl
  have hd := hi.data.setLife (k := k) (l := .removing t) (by simp [hl]) (by simp) (by simp)
    (by simp) (fun _ h => by simp [h, Stage.kept] at hkept) (fun _ => rfl) (by simp)
  exact hi.setLifeHere (k := k) rfl (by simp [Pc.Free, hp, Pc.invokes, Pc.atReturned])
    (by simp [hl]) (fun _ _ => rfl) { hd with } ⟨Function.update_self .., hkept⟩
    (.inl (by simp [hl]))

/-- `add_callback` returns true. -/
theorem Inv.retAdded (hi : Inv s) (hfree : (s.pc t).Free) (ha : (After.added k).Ok s t) :
    Inv (s.retLife t k .live) := by
  obtain ⟨hl, hkept⟩ := ha
  have hd := hi.data.setLife (k := k) (l := .live) (by simp [hl]) (by simp) (by simp)
    (fun _ => hkept) (by simp [Life.ended]) (fun h => by simp [h, Stage.kept] at hkept) (by simp)
  refine hi.setLifeHere rfl hfree (by simp +contextual [hl, eq_comm])
    (fun _ _ => rfl) { hd with } trivial (.inr (.inl ?_))
  intro h
  simp [h, Stage.kept] at hkept

/-- `remove_callback` returns, and `request_stop` is not at work on the callback. -/
theorem Inv.retRemoved {d : K → Nat} (hi : Inv s) (hfree : (s.pc t).Free)
    (hl : s.life k = .removing t) (hst : s.stage k = .unlinked ∨ s.stage k = .finished)
    (hdone : ∀ k', 0 < d k' → 0 < s.done k') :
    Inv ({ s with done := d }.retLife t k (.gone t)) := by
  have hd := hi.data.setLife (k := k) (l := .gone t) (by simp [hl]) (by simp) (by simp) (by simp)
    (fun _ h => by simp [h] at hst) (fun _ => rfl) (fun _ _ => by tauto)
  exact hi.setLifeHere rfl hfree (by simp +contextual [hl, eq_comm])
    (fun _ _ => rfl) { hd with done := fun k' h => hd.done k' (hdone k' h) } trivial
    (.inl (by simp [hl]))

/-- `add_callback` returns false. -/
theorem Inv.refuse (hi : Inv s) (hfree : (s.pc t).Free) (hw : (Want.add k).Ok s t)
    (hlate : s.late k = false) : Inv (s.retLife t k .refused) := by
  obtain ⟨hl, hout, hinv⟩ := hw
  have hd := hi.data.setLife (k := k) (l := .refused) (by simp [hl]) (by simp)
    (fun _ => ⟨hout, by simp [hlate]⟩) (by simp) (by simp [Life.ended]) (by simp [hout]) (by simp)
  exact hi.setLifeHere rfl hfree (by simp +contextual [hl, eq_comm]) (fun _ _ => rfl)
    { hd with } trivial (.inr (.inr (by simp [hinv])))

/-- A callback that `add_callback` ran returns. -/
theorem Inv.retAdd {rest : List (Caller K)} (hi : Inv s) (hfree : (s.pc t).Free)
    (hst : s.stack t = .add k :: rest) :
    Inv ({ s with stack := Function.update s.stack t rest }.retLife t k .refused) := by
  have hmem : Caller.add k ∈ s.stack t := by simp [hst]
  obtain ⟨hl, hout, hinv⟩ := hi.frames t _ hmem
  have hnd := hi.framesNodup t
  rw [hst, List.map_cons, List.nodup_cons] at hnd
  have hd := hi.data.setLife (k := k) (l := .refused) (by simp [hl]) (by simp)
    (fun _ => ⟨hout, fun _ => hinv⟩) (by simp) (by simp [Life.ended]) (by simp [hout]) (by simp)
  refine hi.setLife (k := k) rfl hfree ?_ (fun _ _ => rfl) { hd with } trivial ?_ hnd.2 ?_
  · simp +contextual [hl, eq_comm]
  · intro c hc
    refine ⟨by simp [hst, hc], ?_⟩
    rintro rfl
    exact hnd.1 (List.mem_map_of_mem hc)
  · intro k' hk' hm
    rw [hst, List.map_cons, List.mem_cons] at hm
    refine hm.resolve_left ?_
    rintro rfl
    simp [hout] at hk'

/-- `add_callback` finds the state stopped and runs the callback. -/
theorem Inv.inline (hi : Inv s) (hfree : (s.pc t).Free) (hw : (Want.add k).Ok s t) :
    Inv (s.invoke t (.add k) k) := by
  obtain ⟨hl, hout, hinv⟩ := hw
  have hne : k ∉ (s.stack t).map Caller.callback := by
    intro hm
    obtain ⟨c, hc, rfl⟩ := List.mem_map.mp hm
    have := hi.frames t c hc
    cases c with
    | add k =>
        have := this.2.2.symm.trans hinv
        cases this
    | stop k empty =>
        have := this.2.2.1.symm.trans hout
        cases this
  have hd := hi.data
  refine hi.of_step rfl rfl (.inl rfl) ?_ (fun _ _ _ h => h) trivial ?_
    (List.nodup_cons.mpr ⟨hne, hi.framesNodup t⟩) ?_ { hi.order with } ?_ ?_ ?_
  · intro u hu
    constructor <;> intros <;> simp only [State.invoke, Function.update_apply] <;> grind -linarith
  · intro c hc
    rcases List.mem_cons.mp hc with rfl | hc
    · exact ⟨hl, hout, by simp [State.invoke, hinv]⟩
    · have hck : c.callback ≠ k := fun h => hne (h ▸ List.mem_map_of_mem hc)
      have := hi.frames t c hc
      cases c with
      | add k' => exact ⟨this.1, this.2.1, (Function.update_of_ne hck ..).trans this.2.2⟩
      | stop k' empty => exact this
  · have hle := hd.invokedLe
    have h0 := hd.notInvoked
    have h1 := hd.invoked
    have hf := hd.fresh
    have hr := hd.refused
    refine { hd with invokedLe := ?_, notInvoked := ?_, invoked := ?_, fresh := ?_, refused := ?_ }
    all_goals
      intros
      simp only [State.invoke, Function.update_apply] at *
      grind -linarith
  · exact fun hs k' hk => absurd (hi.takenAt t k' hs hk) (hfree k').1
  · exact fun hs k' hk => List.mem_cons_of_mem _ (hi.runningAt t k' hs hk)
  · exact fun hs k' hk => absurd (hi.returnedAt t k' hs hk) (hfree k').2

-- ============================================================================
-- The list
-- ============================================================================

/-- `add_callback` puts the callback in front of the list. -/
theorem State.insert_spec (h : Linked s.head s.prev s.next s.list) (hk : k ∉ s.list) :
    ∃ prev next, Linked (some k) prev next (k :: s.list) ∧
      s.insert k = { s with
        head := some k
        prev := prev
        next := next
        list := k :: s.list
        added := s.added ++ [k]
        stage := Function.update s.stage k .listed } := by
  refine ⟨_, _, h.pushFront hk, ?_⟩
  unfold State.insert
  cases hh : s.head with
  | some x => rfl
  | none =>
      have : Function.update s.next k none = s.next := by
        rw [← h.next_eq_none hk, Function.update_eq_self]
      simp only [this, Linked.setBack]

/-- The head is taken out of the list. -/
theorem State.dropHead_spec (h : Linked s.head s.prev s.next s.list) (hk : s.head = some k) :
    ∃ head prev next, Linked head prev next (s.list.erase k) ∧
      s.dropHead k = { s with
        head := head
        prev := prev
        next := next
        list := s.list.erase k } := by
  rw [hk] at h
  refine ⟨_, _, _, h.popFront, ?_⟩
  unfold State.dropHead
  cases hn : s.next k <;> rfl

/-- An element with a predecessor is taken out of the list. -/
theorem State.unlink_spec {p : K} (h : Linked s.head s.prev s.next s.list)
    (hp : s.prev k = some p) :
    ∃ head prev next, Linked head prev next (s.list.erase k) ∧
      s.unlink k p = { s with
        head := head
        prev := prev
        next := next
        list := s.list.erase k } := by
  refine ⟨_, _, _, h.unlink hp, ?_⟩
  unfold State.unlink
  cases hn : s.next k with
  | some n => simp only [Linked.setBack]
  | none =>
      have hkp : k ≠ p := fun e => (((h.prev p k).mp hp).ne h.nodup) e.symm
      have : Function.update (Function.update s.next p none) k none =
          Function.update s.next p none := by
        rw [← hn, Function.update_eq_self_iff, Function.update_of_ne hkp]
      simp only [this, Linked.setBack]

/-- `remove_callback_locked` takes the callback out of the list, if it is there. -/
theorem State.removeCallbackLocked_spec (h : Linked s.head s.prev s.next s.list) :
    (k ∈ s.list ∧ ∃ head prev next, Linked head prev next (s.list.erase k) ∧
      s.removeCallbackLocked k = ({ s with
        head := head
        prev := prev
        next := next
        list := s.list.erase k
        stage := Function.update s.stage k .unlinked }, true)) ∨
    (k ∉ s.list ∧ s.removeCallbackLocked k = (s, false)) := by
  unfold State.removeCallbackLocked
  split
  · rename_i hh
    refine .inl ⟨h.mem_iff.mpr (.inl hh), ?_⟩
    obtain ⟨head, prev, next, hl, he⟩ := State.dropHead_spec
      (s := { s with stage := Function.update s.stage k .unlinked }) h hh
    exact ⟨head, prev, next, hl, congrArg (·, true) he⟩
  · rename_i hh
    cases hp : s.prev k with
    | none =>
        refine .inr ⟨?_, rfl⟩
        rw [h.mem_iff, hp]
        simpa using hh
    | some p =>
        obtain ⟨head, prev, next, hl, he⟩ := State.unlink_spec
          (s := { s with stage := Function.update s.stage k .unlinked }) h hp
        exact .inl ⟨h.mem_iff.mpr (.inr (by simp [hp])), head, prev, next, hl,
          congrArg (·, true) he⟩

end Effects

end Coroactors.StopState
