/-
  Coroactors.PackagedAwaitable.Owner

  `packaged_awaitable` (coroactors/packaged_awaitable.h and
  coroactors/detail/packaged_awaitable.h): an object that owns a coroutine and
  receives its `result` (coroactors/result.h).

  The object has the handle of the coroutine, and the promise of the coroutine
  points back to the object: the coroutine stores what it returns in the object,
  and its promise clears the handle when the frame is destroyed, by whomever.
  Objects are moved while the coroutine is suspended, while it runs, and between
  its return and the end of its frame; the promise is then bound to the new
  object.  A handle that was released belongs to whoever released it.

  Everything happens in one thread.  That coroutines are destroyed only while
  they are suspended is up to the user.
-/

import Coroactors.Conc.System
import Mathlib.Tactic.Common

namespace Coroactors.PackagedAwaitable

open Coroactors.Conc

-- ============================================================================
-- Model
-- ============================================================================

/-- `result<T>`: a variant. -/
inductive Result (V E : Type*) where
  | none
  | value (v : V)
  | exception (e : E)
deriving DecidableEq, Repr

/-- Moving from a variant leaves it at the same alternative, with what is left of
    the content. -/
def Result.left {V E : Type*} (value : V → V) (exception : E → E) : Result V E → Result V E
  | .none => .none
  | .value v => .value (value v)
  | .exception e => .exception (exception e)

/-- `operator bool`. -/
def Result.isSet {V E : Type*} : Result V E → Bool
  | .none => false
  | .value _ | .exception _ => true

/-- Where a coroutine is. -/
inductive Phase where
  /-- Not created yet. -/
  | none
  | suspended
  | running
  /-- `return_value` or `unhandled_exception` was called. -/
  | returned
  /-- The frame was destroyed. -/
  | gone
deriving DecidableEq, Repr

def Phase.alive : Phase → Bool
  | .suspended | .running | .returned => true
  | .none | .gone => false

/-- Objects `P` and coroutines `C`. -/
structure State (P C V E : Type*) where
  /-- The object is constructed. -/
  live : P → Bool
  result : P → Result V E
  handle : P → Option C
  phase : C → Phase
  /-- `result_ptr` and `handle_ptr`, which always point to one object. -/
  bound : C → Option P
  /-- The handle was released. -/
  raw : C → Bool
  assertFailed : Bool
  /-- An object or a frame was used that is not there, or a coroutine destroyed
      that was not suspended. -/
  crashed : Bool
  /-- History: the coroutine that the object was made for. -/
  origin : P → Option C
  /-- History: what the coroutine returned. -/
  outcome : C → Result V E

inductive Act (P C V E : Type*) where
  /-- The constructor of `p` makes the coroutine `c`. -/
  | construct (p : P) (c : C)
  /-- `q` is move-constructed from `p`. -/
  | move (p q : P)
  | release (p : P)
  | destroy (p : P)
  /-- `~packaged_awaitable`. -/
  | destruct (p : P)
  /-- The awaitable suspends the coroutine. -/
  | suspend (c : C)
  /-- The awaitable resumes it. -/
  | resume (c : C)
  /-- `return_value` or `unhandled_exception`. -/
  | ret (c : C) (r : Result V E)
  /-- `final_suspend` does not suspend: the frame ends. -/
  | finish (c : C)
  /-- A released coroutine is destroyed. -/
  | destroyRaw (c : C)
deriving DecidableEq, Repr

section Model

variable {P C V E : Type*} [DecidableEq P] [DecidableEq C]

namespace State

def start : State P C V E where
  live _ := false
  result _ := .none
  handle _ := none
  phase _ := .none
  bound _ := none
  raw _ := false
  assertFailed := false
  crashed := false
  origin _ := none
  outcome _ := .none

/-- The promise of `c` is used. -/
def promise (s : State P C V E) (c : C) : State P C V E :=
  { s with crashed := s.crashed || !(s.phase c).alive }

/-- `bind` and `unbind`. -/
def bind (s : State P C V E) (c : C) (p : Option P) : State P C V E :=
  { s.promise c with bound := Function.update s.bound c p }

/-- `set_value` or `set_exception`, if the promise is bound. -/
def store (s : State P C V E) (c : C) (r : Result V E) : State P C V E :=
  match s.bound c with
  | none => s
  | some p =>
      { s with result := Function.update s.result p r, crashed := s.crashed || !s.live p }

/-- `~packaged_awaitable_promise`, and the frame is gone. -/
def endFrame (s : State P C V E) (c : C) : State P C V E :=
  match s.bound c with
  | none => { s with phase := Function.update s.phase c .gone }
  | some p =>
      { s with
        handle := Function.update s.handle p none
        crashed := s.crashed || !s.live p
        phase := Function.update s.phase c .gone }

/-- `coroutine_handle::destroy`. -/
def destroyFrame (s : State P C V E) (c : C) : State P C V E :=
  { s with crashed := s.crashed || s.phase c ≠ Phase.suspended }.endFrame c

/-- `destroy`, and what the destructor does. -/
def destroy (s : State P C V E) (p : P) : State P C V E :=
  match s.handle p with
  | none => s
  | some c =>
      let s' := s.destroyFrame c
      { s' with assertFailed := s'.assertFailed || (s'.handle p).isSome }

end State

variable (P C) in
/-- Objects and their coroutines; `value` and `exception` say what moving leaves
    behind. -/
def packaged (value : V → V) (exception : E → E) : System (State P C V E) (Act P C V E) where
  init s := s = .start
  step s
    | .construct p c =>
        if s.live p = false ∧ s.phase c = .none then
          let s' := { s with
            live := Function.update s.live p true
            result := Function.update s.result p .none
            handle := Function.update s.handle p (some c)
            phase := Function.update s.phase c .running
            origin := Function.update s.origin p (some c) }
          some (s'.bind c (some p))
        else none
    | .move p q =>
        if s.live p = true ∧ s.live q = false then
          let s' := { s with
            live := Function.update s.live q true
            result := Function.update (Function.update s.result p
              ((s.result p).left value exception)) q (s.result p)
            handle := Function.update (Function.update s.handle p none) q (s.handle p)
            origin := Function.update (Function.update s.origin p none) q (s.origin p) }
          match s.handle p with
          | none => some s'
          | some c => some (s'.bind c (some q))
        else none
    | .release p =>
        if s.live p = true then
          match s.handle p with
          | none => some s
          | some c =>
              some { s.bind c none with
                handle := Function.update s.handle p none
                raw := Function.update s.raw c true }
        else none
    | .destroy p => if s.live p = true then some (s.destroy p) else none
    | .destruct p =>
        if s.live p = true then
          some { s.destroy p with
            live := Function.update s.live p false
            origin := Function.update s.origin p none }
        else none
    | .suspend c =>
        if s.phase c = .running then
          some { s with phase := Function.update s.phase c .suspended }
        else none
    | .resume c =>
        if s.phase c = .suspended then
          some { s with phase := Function.update s.phase c .running }
        else none
    | .ret c r =>
        if s.phase c = .running ∧ r.isSet = true then
          some { s.store c r with
            phase := Function.update s.phase c .returned
            outcome := Function.update s.outcome c r }
        else none
    | .finish c => if s.phase c = .returned then some (s.endFrame c) else none
    | .destroyRaw c =>
        if s.raw c = true ∧ (s.phase c).alive = true then some (s.destroyFrame c) else none

end Model

/-- Only suspended coroutines are destroyed. -/
def Careful {P C V E : Type*} (s : State P C V E) : Act P C V E → Prop
  | .destroy p | .destruct p => ∀ c, s.handle p = some c → s.phase c = .suspended
  | .destroyRaw c => s.phase c = .suspended
  | _ => True

-- ============================================================================
-- The invariant
-- ============================================================================

structure Inv {P C V E : Type*} (s : State P C V E) : Prop where
  /-- Handles and the pointers of the promises go together. -/
  held : ∀ p c, s.handle p = some c ↔ s.bound c = some p ∧ (s.phase c).alive = true
  live : ∀ p c, s.origin p = some c → s.live p = true
  stands : ∀ p c, s.handle p = some c → s.origin p = some c
  once : ∀ p q c, s.origin p = some c → s.origin q = some c → p = q
  raw : ∀ c, s.raw c = true → s.bound c = none
  owned : ∀ c, (s.phase c).alive = true → s.raw c = false → ∃ p, s.bound c = some p
  fresh : ∀ c, s.phase c = .none → s.raw c = false ∧ s.outcome c = .none ∧ ∀ p, s.origin p ≠ some c
  early : ∀ c, s.phase c = .suspended ∨ s.phase c = .running → s.outcome c = .none
  result : ∀ p c, s.origin p = some c →
    s.result p = s.outcome c ∨ s.raw c = true ∧ s.result p = .none
  assertOk : s.assertFailed = false
  crashOk : s.crashed = false

section Invariant

variable {P C V E : Type*} {s s' : State P C V E} {p q : P} {c : C}

theorem inv_start : Inv (.start : State P C V E) where
  held p c := by simp [State.start]
  live p c h := by cases h
  stands p c h := by cases h
  once p q c h := by cases h
  raw c h := by cases h
  owned c h := by cases h
  fresh c _ := ⟨rfl, rfl, fun p h => by cases h⟩
  early c _ := rfl
  result p c h := by cases h
  assertOk := rfl
  crashOk := rfl

theorem Inv.alive_of_handle (h : Inv s) (hp : s.handle p = some c) : (s.phase c).alive = true :=
  ((h.held p c).mp hp).2

/-- A promise that is bound points to an object that is there. -/
theorem Inv.live_of_handle (h : Inv s) (hp : s.handle p = some c) : s.live p = true :=
  h.live p c (h.stands p c hp)

/-- A coroutine that nobody points to from an object was released. -/
theorem Inv.raw_of_unbound (h : Inv s) (hc : (s.phase c).alive = true) (hb : s.bound c = none) :
    s.raw c = true := by
  cases hr : s.raw c with
  | true => rfl
  | false =>
      obtain ⟨p, hp⟩ := h.owned c hc hr
      rw [hb] at hp
      cases hp

variable [DecidableEq P] [DecidableEq C]

-- ============================================================================
-- Steps
-- ============================================================================

omit [DecidableEq P] in
/-- The coroutine goes between suspended and running. -/
theorem Inv.go {ph : Phase} (h : Inv s) (hc : s.phase c = .suspended ∨ s.phase c = .running)
    (hph : ph = .suspended ∨ ph = .running) :
    Inv { s with phase := Function.update s.phase c ph } := by
  have halive : ph.alive = true := by rcases hph with rfl | rfl <;> rfl
  have hsame : ∀ d, (Function.update s.phase c ph d).alive = (s.phase d).alive := by
    intro d
    by_cases hd : d = c
    · subst hd
      rw [Function.update_self, halive]
      rcases hc with hc | hc <;> rw [hc] <;> rfl
    · rw [Function.update_of_ne hd]
  have hfresh : ∀ d, Function.update s.phase c ph d = .none → s.phase d = .none := by
    intro d hd
    by_cases hdc : d = c
    · subst hdc
      rw [Function.update_self] at hd
      rw [hd] at halive
      cases halive
    · rwa [Function.update_of_ne hdc] at hd
  have hearly : ∀ d, Function.update s.phase c ph d = .suspended ∨
      Function.update s.phase c ph d = .running → s.outcome d = .none := by
    intro d hd
    by_cases hdc : d = c
    · subst hdc
      exact h.early d hc
    · rw [Function.update_of_ne hdc] at hd
      exact h.early d hd
  exact
    { h with
      held := fun p d => by rw [h.held]; simp only [hsame]
      owned := fun d hd => h.owned d (by rwa [hsame] at hd)
      fresh := fun d hd => h.fresh d (hfresh d hd)
      early := hearly }

/-- The frame of a live coroutine ends: whoever has the handle sees it. -/
theorem Inv.endFrame (h : Inv s) (hc : (s.phase c).alive = true) : Inv (s.endFrame c) := by
  have hgone : ∀ d, (Function.update s.phase c .gone d).alive = true →
      d ≠ c ∧ (s.phase d).alive = true := by
    intro d hd
    by_cases hdc : d = c
    · subst hdc
      rw [Function.update_self] at hd
      cases hd
    · rw [Function.update_of_ne hdc] at hd
      exact ⟨hdc, hd⟩
  have hkeep : ∀ d, d ≠ c → (Function.update s.phase c .gone d).alive = (s.phase d).alive :=
    fun d hd => by rw [Function.update_of_ne hd]
  have hfresh : ∀ d, Function.update s.phase c .gone d = .none → s.phase d = .none := by
    intro d hd
    by_cases hdc : d = c
    · subst hdc
      rw [Function.update_self] at hd
      cases hd
    · rwa [Function.update_of_ne hdc] at hd
  have hearly : ∀ d, Function.update s.phase c .gone d = .suspended ∨
      Function.update s.phase c .gone d = .running → s.outcome d = .none := by
    intro d hd
    by_cases hdc : d = c
    · subst hdc
      rw [Function.update_self] at hd
      rcases hd with hd | hd <;> cases hd
    · rw [Function.update_of_ne hdc] at hd
      exact h.early d hd
  cases hb : s.bound c with
  | none =>
      simp only [State.endFrame, hb]
      refine
        { h with
          held := fun p d => ?_
          owned := fun d hd => h.owned d (hgone d hd).2
          fresh := fun d hd => h.fresh d (hfresh d hd)
          early := hearly }
      rw [h.held]
      refine and_congr_right fun hbd => ?_
      have hdc : d ≠ c := by
        rintro rfl
        rw [hb] at hbd
        cases hbd
      simp only [hkeep d hdc]
  | some q =>
      have hq : s.handle q = some c := (h.held q c).mpr ⟨hb, hc⟩
      have hlive := h.live_of_handle hq
      have hhandle : ∀ p d, Function.update s.handle q none p = some d ↔
          s.handle p = some d ∧ p ≠ q := by
        intro p d
        by_cases hpq : p = q
        · subst hpq
          simp
        · simp [hpq]
      simp only [State.endFrame, hb]
      refine
        { h with
          held := fun p d => ?_
          stands := fun p d hp => h.stands p d ((hhandle p d).mp hp).1
          owned := fun d hd => h.owned d (hgone d hd).2
          fresh := fun d hd => h.fresh d (hfresh d hd)
          early := hearly
          crashOk := by simp [h.crashOk, hlive] }
      show Function.update s.handle q none p = some d ↔ _
      rw [hhandle, h.held]
      constructor
      · rintro ⟨⟨hbd, hd⟩, hpq⟩
        refine ⟨hbd, ?_⟩
        have hdc : d ≠ c := by
          rintro rfl
          rw [hb] at hbd
          exact hpq (Option.some.inj hbd).symm
        simpa only [hkeep d hdc] using hd
      · rintro ⟨hbd, hd⟩
        obtain ⟨hdc, hd'⟩ := hgone d hd
        refine ⟨⟨hbd, hd'⟩, ?_⟩
        rintro rfl
        have hp := (h.held p d).mpr ⟨hbd, hd'⟩
        rw [hq] at hp
        exact hdc (Option.some.inj hp).symm

theorem destroyFrame_eq (hc : s.phase c = .suspended) : s.destroyFrame c = s.endFrame c := by
  rw [State.destroyFrame, hc]
  simp

/-- The promise clears the handle. -/
theorem endFrame_handle (hb : s.bound c = some p) : (s.endFrame c).handle p = none := by
  simp [State.endFrame, hb]

theorem endFrame_frame :
    (s.endFrame c).live = s.live ∧ (s.endFrame c).origin = s.origin := by
  cases hb : s.bound c <;> simp [State.endFrame, hb]

theorem destroy_frame : (s.destroy p).live = s.live ∧ (s.destroy p).origin = s.origin := by
  cases hp : s.handle p with
  | none => simp [State.destroy, hp]
  | some c =>
      obtain ⟨hlive, horigin⟩ := endFrame_frame (c := c)
        (s := { s with crashed := s.crashed || s.phase c ≠ Phase.suspended })
      simp only [State.destroy, hp]
      exact ⟨hlive, horigin⟩

/-- After `destroy` the object has no handle. -/
theorem Inv.destroy (h : Inv s) (hok : ∀ c, s.handle p = some c → s.phase c = .suspended) :
    Inv (s.destroy p) ∧ (s.destroy p).handle p = none := by
  cases hp : s.handle p with
  | none =>
      simp only [State.destroy, hp]
      exact ⟨h, trivial⟩
  | some c =>
      have hb : s.bound c = some p := ((h.held p c).mp hp).1
      have hend := h.endFrame (h.alive_of_handle hp)
      have hnone := endFrame_handle hb
      simp only [State.destroy, hp, destroyFrame_eq (hok c hp), hnone, Option.isSome_none,
        Bool.or_false]
      exact ⟨hend, trivial⟩

omit [DecidableEq C] in
/-- An object without a handle goes away. -/
theorem Inv.drop (h : Inv s) (hp : s.handle p = none) :
    Inv { s with
      live := Function.update s.live p false
      origin := Function.update s.origin p none } := by
  have horigin : ∀ q d, Function.update s.origin p none q = some d → q ≠ p ∧ s.origin q = some d := by
    intro q d hq
    by_cases hqp : q = p
    · subst hqp
      rw [Function.update_self] at hq
      cases hq
    · rw [Function.update_of_ne hqp] at hq
      exact ⟨hqp, hq⟩
  exact
    { h with
      live := fun q d hq => by
        obtain ⟨hqp, hq'⟩ := horigin q d hq
        exact (Function.update_of_ne hqp _ _).trans (h.live q d hq')
      stands := fun q d hq => by
        have hqp : q ≠ p := by
          rintro rfl
          exact Option.some_ne_none d (hq.symm.trans hp)
        exact (Function.update_of_ne hqp _ _).trans (h.stands q d hq)
      once := fun q r d hq hr => h.once q r d (horigin q d hq).2 (horigin r d hr).2
      fresh := fun d hd => ⟨(h.fresh d hd).1, (h.fresh d hd).2.1, fun q hq =>
        (h.fresh d hd).2.2 q (horigin q d hq).2⟩
      result := fun q d hq => h.result q d (horigin q d hq).2 }

/-- A coroutine returns: the object that stands for it has the result, unless the
    coroutine was released. -/
theorem Inv.ret {r : Result V E} (h : Inv s) (hc : s.phase c = .running) :
    Inv { s.store c r with
      phase := Function.update s.phase c .returned
      outcome := Function.update s.outcome c r } := by
  have halive : (s.phase c).alive = true := by rw [hc]; rfl
  have hearly : s.outcome c = .none := h.early c (.inr hc)
  have hsame : ∀ d, (Function.update s.phase c .returned d).alive = (s.phase d).alive := by
    intro d
    by_cases hd : d = c
    · subst hd
      rw [Function.update_self, halive]
      rfl
    · rw [Function.update_of_ne hd]
  have hother : ∀ d ph, ph ≠ .returned → Function.update s.phase c .returned d = ph →
      d ≠ c ∧ s.phase d = ph := by
    intro d ph hph hd
    by_cases hdc : d = c
    · subst hdc
      rw [Function.update_self] at hd
      exact absurd hd.symm hph
    · rw [Function.update_of_ne hdc] at hd
      exact ⟨hdc, hd⟩
  have hout : ∀ d, d ≠ c → Function.update s.outcome c r d = s.outcome d := fun d hd =>
    Function.update_of_ne hd _ _
  have hfresh : ∀ d, Function.update s.phase c .returned d = .none →
      s.raw d = false ∧ Function.update s.outcome c r d = .none ∧ ∀ p, s.origin p ≠ some d := by
    intro d hd
    obtain ⟨hdc, hd'⟩ := hother d .none (by simp) hd
    rw [hout d hdc]
    exact h.fresh d hd'
  have hearly' : ∀ d, Function.update s.phase c .returned d = .suspended ∨
      Function.update s.phase c .returned d = .running →
      Function.update s.outcome c r d = .none := by
    rintro d (hd | hd)
    · obtain ⟨hdc, hd'⟩ := hother d .suspended (by simp) hd
      rw [hout d hdc]
      exact h.early d (.inl hd')
    · obtain ⟨hdc, hd'⟩ := hother d .running (by simp) hd
      rw [hout d hdc]
      exact h.early d (.inr hd')
  cases hb : s.bound c with
  | none =>
      have hraw := h.raw_of_unbound halive hb
      simp only [State.store, hb]
      refine
        { h with
          held := fun p d => by rw [h.held]; simp only [hsame]
          owned := fun d hd => h.owned d (by rwa [hsame] at hd)
          fresh := hfresh
          early := hearly'
          result := fun p d hp => ?_ }
      by_cases hdc : d = c
      · subst hdc
        refine .inr ⟨hraw, ?_⟩
        rcases h.result p d hp with hres | ⟨-, hres⟩
        · exact hres.trans hearly
        · exact hres
      · have := h.result p d hp
        rwa [← hout d hdc] at this
  | some q =>
      have hq : s.handle q = some c := (h.held q c).mpr ⟨hb, halive⟩
      have hstands := h.stands q c hq
      simp only [State.store, hb]
      refine
        { h with
          held := fun p d => by rw [h.held]; simp only [hsame]
          owned := fun d hd => h.owned d (by rwa [hsame] at hd)
          fresh := hfresh
          early := hearly'
          result := fun p d hp => ?_
          crashOk := by simp [h.crashOk, h.live_of_handle hq] }
      show Function.update s.result q r p = Function.update s.outcome c r d ∨
        s.raw d = true ∧ Function.update s.result q r p = .none
      by_cases hpq : p = q
      · subst hpq
        have hdc : d = c := Option.some.inj (hp.symm.trans hstands)
        subst hdc
        exact .inl (by rw [Function.update_self, Function.update_self])
      · have hdc : d ≠ c := by
          rintro rfl
          exact hpq (h.once p q d hp hstands)
        rw [Function.update_of_ne hpq, hout d hdc]
        exact h.result p d hp

/-- A released coroutine belongs to nobody. -/
theorem Inv.release (h : Inv s) (hp : s.handle p = some c) :
    Inv { s.bind c none with
      handle := Function.update s.handle p none
      raw := Function.update s.raw c true } := by
  have halive := h.alive_of_handle hp
  have hbc : s.bound c = some p := ((h.held p c).mp hp).1
  refine
    { h with
      held := fun q d => ?_
      stands := fun q d hq => ?_
      raw := fun d hd => ?_
      owned := fun d hd hr => ?_
      fresh := fun d hd => ?_
      result := fun q d hq => ?_
      crashOk := by simp [State.bind, State.promise, h.crashOk, halive] }
  · show Function.update s.handle p none q = some d ↔
      Function.update s.bound c none d = some q ∧ (s.phase d).alive = true
    by_cases hdc : d = c
    · subst hdc
      rw [Function.update_self]
      refine iff_of_false (fun hq => ?_) (fun hq => Option.some_ne_none q hq.1.symm)
      by_cases hqp : q = p
      · subst hqp
        rw [Function.update_self] at hq
        cases hq
      · rw [Function.update_of_ne hqp, h.held, hbc] at hq
        exact hqp (Option.some.inj hq.1).symm
    · rw [Function.update_of_ne hdc, ← h.held]
      by_cases hqp : q = p
      · subst hqp
        rw [Function.update_self, hp]
        exact iff_of_false (by simp) fun he => hdc (Option.some.inj he).symm
      · rw [Function.update_of_ne hqp]
  · have hq' : Function.update s.handle p none q = some d := hq
    by_cases hqp : q = p
    · subst hqp
      rw [Function.update_self] at hq'
      cases hq'
    · rw [Function.update_of_ne hqp] at hq'
      exact h.stands q d hq'
  · show Function.update s.bound c none d = none
    have hd' : Function.update s.raw c true d = true := hd
    by_cases hdc : d = c
    · rw [hdc, Function.update_self]
    · rw [Function.update_of_ne hdc] at hd' ⊢
      exact h.raw d hd'
  · show ∃ q, Function.update s.bound c none d = some q
    have hr' : Function.update s.raw c true d = false := hr
    by_cases hdc : d = c
    · rw [hdc, Function.update_self] at hr'
      cases hr'
    · rw [Function.update_of_ne hdc] at hr' ⊢
      exact h.owned d hd hr'
  · have hd' : s.phase d = .none := hd
    have hdc : d ≠ c := by
      rintro rfl
      rw [hd'] at halive
      cases halive
    obtain ⟨hr, ho, hn⟩ := h.fresh d hd'
    exact ⟨(Function.update_of_ne hdc _ _).trans hr, ho, hn⟩
  · show s.result q = s.outcome d ∨ Function.update s.raw c true d = true ∧ s.result q = .none
    refine (h.result q d hq).imp_right fun hres => ⟨?_, hres.2⟩
    by_cases hdc : d = c
    · rw [hdc, Function.update_self]
    · rw [Function.update_of_ne hdc]
      exact hres.1

omit [DecidableEq C] in
/-- What `p` had is at `q`. -/
theorem moved_iff {f : P → Option C} {r : P} :
    Function.update (Function.update f p none) q (f p) r = some c ↔
      r = q ∧ f p = some c ∨ r ≠ q ∧ r ≠ p ∧ f r = some c := by
  by_cases hrq : r = q
  · subst hrq
    simp
  · by_cases hrp : r = p
    · subst hrp
      simp [hrq]
    · simp [hrq, hrp]

/-- Handle and origin go from `p` to the new object `q`, and the promise, if there
    is one, follows. -/
theorem Inv.move {b : C → Option P} {f : P → Result V E} (h : Inv s) (hp : s.live p = true)
    (hq : s.live q = false) (hb : ∀ d, b d = if s.handle p = some d then some q else s.bound d)
    (hf : f q = s.result p) (hf' : ∀ r, r ≠ q → r ≠ p → f r = s.result r) :
    Inv { s with
      live := Function.update s.live q true
      result := f
      handle := Function.update (Function.update s.handle p none) q (s.handle p)
      origin := Function.update (Function.update s.origin p none) q (s.origin p)
      bound := b } := by
  have hpq : p ≠ q := by
    rintro rfl
    rw [hp] at hq
    cases hq
  have horigin : ∀ d, s.origin q ≠ some d := fun d hd => by
    rw [h.live q d hd] at hq
    cases hq
  have hhandle : ∀ d, s.handle q ≠ some d := fun d hd => horigin d (h.stands q d hd)
  refine
    { h with
      held := fun r d => ?_
      live := fun r d hr => ?_
      stands := fun r d hr => ?_
      once := fun r r' d hr hr' => ?_
      raw := fun d hd => ?_
      owned := fun d hd hr => ?_
      fresh := fun d hd => ?_
      result := fun r d hr => ?_ }
  · show Function.update (Function.update s.handle p none) q (s.handle p) r = some d ↔
      b d = some r ∧ (s.phase d).alive = true
    rw [moved_iff, hb]
    by_cases hpd : s.handle p = some d
    · have halive := h.alive_of_handle hpd
      have hbound : s.bound d = some p := ((h.held p d).mp hpd).1
      rw [if_pos hpd]
      constructor
      · rintro (⟨rfl, -⟩ | ⟨-, hrp, hr⟩)
        · exact ⟨rfl, halive⟩
        · have := ((h.held r d).mp hr).1
          rw [hbound] at this
          exact absurd (Option.some.inj this).symm hrp
      · rintro ⟨hr, -⟩
        exact .inl ⟨(Option.some.inj hr).symm, hpd⟩
    · rw [if_neg hpd, ← h.held]
      constructor
      · rintro (⟨-, hp⟩ | ⟨-, -, hr⟩)
        · exact absurd hp hpd
        · exact hr
      · intro hr
        refine .inr ⟨?_, ?_, hr⟩
        · rintro rfl
          exact hhandle d hr
        · rintro rfl
          exact hpd hr
  · rcases moved_iff.mp hr with ⟨rfl, -⟩ | ⟨hrq, -, hr'⟩
    · exact Function.update_self ..
    · exact (Function.update_of_ne hrq _ _).trans (h.live r d hr')
  · refine moved_iff.mpr ?_
    rcases moved_iff.mp hr with ⟨hrq, hr'⟩ | ⟨hrq, hrp, hr'⟩
    · exact .inl ⟨hrq, h.stands p d hr'⟩
    · exact .inr ⟨hrq, hrp, h.stands r d hr'⟩
  · rcases moved_iff.mp hr with ⟨rfl, hd⟩ | ⟨hrq, hrp, hd⟩ <;>
      rcases moved_iff.mp hr' with ⟨rfl, hd'⟩ | ⟨hrq', hrp', hd'⟩
    · rfl
    · exact absurd (h.once p r' d hd hd').symm hrp'
    · exact absurd (h.once r p d hd hd') hrp
    · exact h.once r r' d hd hd'
  · show b d = none
    have hne : s.handle p ≠ some d := fun hpd => by
      have := ((h.held p d).mp hpd).1
      rw [h.raw d hd] at this
      cases this
    rw [hb, if_neg hne]
    exact h.raw d hd
  · show ∃ r, b d = some r
    rw [hb]
    split
    · exact ⟨q, rfl⟩
    · exact h.owned d hd hr
  · obtain ⟨hr, ho, hn⟩ := h.fresh d hd
    refine ⟨hr, ho, fun r hr' => ?_⟩
    rcases moved_iff.mp hr' with ⟨-, hd'⟩ | ⟨-, -, hd'⟩
    · exact hn p hd'
    · exact hn r hd'
  · show f r = s.outcome d ∨ s.raw d = true ∧ f r = .none
    rcases moved_iff.mp hr with ⟨rfl, hd⟩ | ⟨hrq, hrp, hd⟩
    · rw [hf]
      exact h.result p d hd
    · rw [hf' r hrq hrp]
      exact h.result r d hd

omit [DecidableEq P] in
theorem update_iff {α β : Type*} [DecidableEq α] {f : α → β} {a x : α} {v y : β} :
    Function.update f a v x = y ↔ x = a ∧ v = y ∨ x ≠ a ∧ f x = y := by
  by_cases hx : x = a
  · subst hx
    simp
  · simp [hx]

/-- A new object with a new coroutine. -/
theorem Inv.construct (h : Inv s) (hp : s.live p = false) (hc : s.phase c = .none) :
    Inv { s with
      live := Function.update s.live p true
      result := Function.update s.result p .none
      handle := Function.update s.handle p (some c)
      phase := Function.update s.phase c .running
      origin := Function.update s.origin p (some c)
      bound := Function.update s.bound c (some p) } := by
  have horigin : ∀ d, s.origin p ≠ some d := fun d hd => by
    rw [h.live p d hd] at hp
    cases hp
  obtain ⟨hraw, hout, hnone⟩ := h.fresh c hc
  have hdead : (s.phase c).alive = false := by rw [hc]; rfl
  refine
    { h with
      held := fun q d => ?_
      live := fun q d hq => ?_
      stands := fun q d hq => ?_
      once := fun q r d hq hr => ?_
      raw := fun d hd => ?_
      owned := fun d hd hr => ?_
      fresh := fun d hd => ?_
      early := fun d hd => ?_
      result := fun q d hq => ?_ }
  · show Function.update s.handle p (some c) q = some d ↔
      Function.update s.bound c (some p) d = some q ∧
        (Function.update s.phase c .running d).alive = true
    by_cases hdc : d = c
    · subst hdc
      rw [Function.update_self, Function.update_self, update_iff]
      constructor
      · rintro (⟨rfl, -⟩ | ⟨-, hq⟩)
        · exact ⟨rfl, rfl⟩
        · rw [h.alive_of_handle hq] at hdead
          cases hdead
      · rintro ⟨hq, -⟩
        exact .inl ⟨(Option.some.inj hq).symm, rfl⟩
    · rw [Function.update_of_ne hdc, Function.update_of_ne hdc, ← h.held, update_iff]
      constructor
      · rintro (⟨-, hcd⟩ | ⟨-, hq⟩)
        · exact absurd (Option.some.inj hcd).symm hdc
        · exact hq
      · intro hq
        refine .inr ⟨?_, hq⟩
        rintro rfl
        exact horigin d (h.stands q d hq)
  · rcases update_iff.mp hq with ⟨rfl, -⟩ | ⟨hqp, hq'⟩
    · exact Function.update_self ..
    · exact (Function.update_of_ne hqp _ _).trans (h.live q d hq')
  · rcases update_iff.mp hq with ⟨rfl, hcd⟩ | ⟨hqp, hq'⟩
    · exact (Function.update_self ..).trans hcd
    · exact (Function.update_of_ne hqp _ _).trans (h.stands q d hq')
  · rcases update_iff.mp hq with ⟨rfl, hcd⟩ | ⟨hqp, hq'⟩ <;>
      rcases update_iff.mp hr with ⟨rfl, hcd'⟩ | ⟨hrp, hr'⟩
    · rfl
    · exact absurd (hcd ▸ hr') (hnone r)
    · exact absurd (hcd' ▸ hq') (hnone q)
    · exact h.once q r d hq' hr'
  · have hdc : d ≠ c := by
      rintro rfl
      have hd' : s.raw d = true := hd
      rw [hraw] at hd'
      cases hd'
    exact (Function.update_of_ne hdc _ _).trans (h.raw d hd)
  · show ∃ q, Function.update s.bound c (some p) d = some q
    by_cases hdc : d = c
    · exact ⟨p, by rw [hdc, Function.update_self]⟩
    · have hd' : (Function.update s.phase c .running d).alive = true := hd
      rw [Function.update_of_ne hdc] at hd' ⊢
      exact h.owned d hd' hr
  · rcases update_iff.mp hd with ⟨-, hd'⟩ | ⟨hdc, hd'⟩
    · cases hd'
    · obtain ⟨hr, ho, hn⟩ := h.fresh d hd'
      refine ⟨hr, ho, fun q hq => ?_⟩
      rcases update_iff.mp hq with ⟨-, hcd⟩ | ⟨-, hq'⟩
      · exact hdc (Option.some.inj hcd).symm
      · exact hn q hq'
  · show s.outcome d = .none
    by_cases hdc : d = c
    · rw [hdc]
      exact hout
    · have hd' : Function.update s.phase c .running d = .suspended ∨
          Function.update s.phase c .running d = .running := hd
      rw [Function.update_of_ne hdc] at hd'
      exact h.early d hd'
  · show Function.update s.result p .none q = s.outcome d ∨
      s.raw d = true ∧ Function.update s.result p .none q = .none
    rcases update_iff.mp hq with ⟨rfl, hcd⟩ | ⟨hqp, hq'⟩
    · rw [Function.update_self, ← Option.some.inj hcd]
      exact .inl hout.symm
    · rw [Function.update_of_ne hqp]
      exact h.result q d hq'

omit [DecidableEq P] in
theorem bind_eq {b : Option P} (hc : (s.phase c).alive = true) :
    s.bind c b = { s with bound := Function.update s.bound c b } := by
  simp [State.bind, State.promise, hc]

variable {value : V → V} {exception : E → E}

theorem Inv.step_move (h : Inv s)
    (hs : (packaged P C value exception).step s (.move p q) = some s') : Inv s' := by
  obtain ⟨⟨hp, hq⟩, hs⟩ := Option.ite_none_right_eq_some.mp hs
  have hself : Function.update (Function.update s.result p
      ((s.result p).left value exception)) q (s.result p) q = s.result p := Function.update_self ..
  have hother : ∀ r, r ≠ q → r ≠ p → Function.update (Function.update s.result p
      ((s.result p).left value exception)) q (s.result p) r = s.result r := fun r hrq hrp => by
    rw [Function.update_of_ne hrq, Function.update_of_ne hrp]
  cases hc : s.handle p with
  | none =>
      simp only [hc, Option.some.injEq] at hs
      have := h.move (b := s.bound) hp hq (by simp [hc]) hself hother
      rw [hc] at this
      rwa [← hs]
  | some c =>
      have halive := h.alive_of_handle hc
      simp only [hc, Option.some.injEq] at hs
      rw [← hs, bind_eq (by exact halive), ← hc]
      refine h.move hp hq (fun d => ?_) hself hother
      by_cases hdc : d = c
      · rw [hdc, Function.update_self, if_pos hc]
      · rw [Function.update_of_ne hdc, if_neg]
        rw [hc]
        exact fun he => hdc (Option.some.inj he).symm

theorem step_inv {a : Act P C V E} (h : Inv s) (hok : Careful s a)
    (hs : (packaged P C value exception).step s a = some s') : Inv s' := by
  cases a with
  | construct p c =>
      obtain ⟨⟨hp, hc⟩, hs⟩ := Option.ite_none_right_eq_some.mp hs
      cases hs
      rw [bind_eq (by simp [Phase.alive])]
      exact h.construct hp hc
  | move p q => exact h.step_move hs
  | release p =>
      obtain ⟨-, hs⟩ := Option.ite_none_right_eq_some.mp hs
      cases hc : s.handle p with
      | none =>
          simp only [hc] at hs
          cases hs
          exact h
      | some c =>
          simp only [hc] at hs
          cases hs
          exact h.release hc
  | destroy p =>
      obtain ⟨-, hs⟩ := Option.ite_none_right_eq_some.mp hs
      cases hs
      exact (h.destroy hok).1
  | destruct p =>
      obtain ⟨-, hs⟩ := Option.ite_none_right_eq_some.mp hs
      obtain ⟨hd, hnone⟩ := h.destroy hok
      have hfinal := hd.drop hnone
      obtain ⟨hlive, horigin⟩ := destroy_frame (s := s) (p := p)
      rw [hlive, horigin] at hfinal
      cases hs
      exact hfinal
  | suspend c =>
      obtain ⟨hc, hs⟩ := Option.ite_none_right_eq_some.mp hs
      cases hs
      exact h.go (.inr hc) (.inl rfl)
  | resume c =>
      obtain ⟨hc, hs⟩ := Option.ite_none_right_eq_some.mp hs
      cases hs
      exact h.go (.inl hc) (.inr rfl)
  | ret c r =>
      obtain ⟨⟨hc, -⟩, hs⟩ := Option.ite_none_right_eq_some.mp hs
      cases hs
      exact h.ret hc
  | finish c =>
      obtain ⟨hc, hs⟩ := Option.ite_none_right_eq_some.mp hs
      cases hs
      exact h.endFrame (by rw [hc]; rfl)
  | destroyRaw c =>
      obtain ⟨-, hs⟩ := Option.ite_none_right_eq_some.mp hs
      cases hs
      have hc : s.phase c = .suspended := hok
      rw [destroyFrame_eq hc]
      exact h.endFrame (by rw [hc]; rfl)

theorem reachable_inv (h : (packaged P C value exception).ReachableIf Careful s) : Inv s := by
  refine System.ReachableIf.invariant (fun s hs => ?_) (fun s a s' hi hok hs => ?_) h
  · cases hs
    exact inv_start
  · exact step_inv hi hok hs

-- ============================================================================
-- Main result
-- ============================================================================

/-- **Ownership and results.**  As long as only suspended coroutines are
    destroyed, every assertion holds and nothing is used that is gone.  A
    coroutine whose frame is there is held by exactly one object, or it was
    released and is held by none.  The object that stands for a coroutine,
    wherever it was moved, holds it exactly as long as it runs and was not
    released, and has what the coroutine returned, or nothing if the coroutine
    did not return or was released before. -/
theorem packaged_owns (h : (packaged P C value exception).ReachableIf Careful s) :
    s.crashed = false ∧ s.assertFailed = false ∧
      (∀ c, (s.phase c).alive = true →
        s.raw c = false ∧ (∃ p, s.origin p = some c ∧ ∀ q, s.handle q = some c ↔ q = p) ∨
          s.raw c = true ∧ ∀ q, s.handle q ≠ some c) ∧
      (∀ p c, s.origin p = some c → s.live p = true ∧
        (s.handle p = some c ↔ (s.phase c).alive = true ∧ s.raw c = false) ∧
        (s.result p = s.outcome c ∨ s.raw c = true ∧ s.result p = .none)) ∧
      ∀ p c, s.handle p = some c → s.origin p = some c := by
  have hi := reachable_inv h
  have hunheld : ∀ c q, s.raw c = true → s.handle q ≠ some c := by
    intro c q hr hq
    have hb := ((hi.held q c).mp hq).1
    rw [hi.raw c hr] at hb
    cases hb
  have hheld : ∀ c, (s.phase c).alive = true → s.raw c = false → ∃ p, s.handle p = some c := by
    intro c hc hr
    obtain ⟨p, hp⟩ := hi.owned c hc hr
    exact ⟨p, (hi.held p c).mpr ⟨hp, hc⟩⟩
  refine ⟨hi.crashOk, hi.assertOk, fun c hc => ?_, fun p c hp => ?_, hi.stands⟩
  · cases hr : s.raw c with
    | true => exact .inr ⟨rfl, fun q => hunheld c q hr⟩
    | false =>
        obtain ⟨p, hp⟩ := hheld c hc hr
        have horigin := hi.stands p c hp
        refine .inl ⟨rfl, p, horigin, fun q => ⟨fun hq => ?_, fun hq => hq ▸ hp⟩⟩
        exact hi.once q p c (hi.stands q c hq) horigin
  · refine ⟨hi.live p c hp, ⟨fun hc => ⟨hi.alive_of_handle hc, ?_⟩, fun ⟨hc, hr⟩ => ?_⟩,
      hi.result p c hp⟩
    · by_contra hr
      exact hunheld c p (by simpa using hr) hc
    · obtain ⟨q, hq⟩ := hheld c hc hr
      rwa [hi.once p q c hp (hi.stands q c hq)]

end Invariant

/-- The coroutine of an object returns after it was moved. -/
theorem packaged_owns_moved : ∃ s : State Nat Nat Nat Nat,
    (packaged Nat Nat id id).ReachableIf Careful s ∧ s.crashed = false ∧ s.handle 1 = none ∧
      s.result 1 = .value 7 := by
  have h1 : (packaged Nat Nat (V := Nat) (E := Nat) id id).ReachableIf Careful _ :=
    .step (.construct 0 0) (.init rfl) trivial rfl
  have h2 := h1.step (Act.suspend 0) trivial rfl
  have h3 := h2.step (Act.move 0 1) trivial rfl
  have h4 := h3.step (Act.resume 0) trivial rfl
  have h5 := h4.step (Act.ret 0 (.value 7)) trivial rfl
  have h6 := h5.step (Act.finish 0) trivial rfl
  exact ⟨_, h6, (packaged_owns h6).1, rfl, rfl⟩

end Coroactors.PackagedAwaitable
