/-
  Coroactors.Async.AwaitInv

  The invariant of `co_await ctx(awaitable)` (Coroactors.Async.ChangeContext)
  for the awaits whose awaiter is not ready or keeps the context: where the
  task is, which thread owns which of the two contexts, and which of the two
  runnables will resume the coroutine.
-/

import Coroactors.Async.ChangeContext

namespace Coroactors.Async

open Coroactors.Conc
open Coroactors.Context (contexts stepThread Aims Keeps)

variable {R C S : Type*} {s s' : State R C S}

-- ============================================================================
-- The invariant
-- ============================================================================

/-- No ready awaiter is awaited in a context other than the current one. -/
def SameIfReady (s : State R C S) : Act R C → Prop
  | .coAwait new ready _ => ready = true → s.context = new
  | _ => True

/-- The thread on whose stack the task is.  `task` tells whether `await_resume`
    still has to enter it. -/
def Coro.listed (task : Bool) : Coro → Option Nat
  | .running t | .resumed t | .threw t => some t
  | .resuming t => if task then none else some t
  | .absent | .suspended => none

/-- The coroutine has not come to the `co_await`. -/
def Coro.early : Coro → Bool
  | .absent | .running _ => true
  | _ => false

def Coro.hasThrown : Coro → Bool
  | .threw _ => true
  | _ => false

/-- The old context is released once, if it has to be. -/
def State.Released (s : State R C S) : Prop :=
  ∀ c, s.old = some c → s.new ≠ some c → s.released = 1

/-- What is known by the place of `await_suspend`. -/
def State.Phase (s : State R C S) : Prop :=
  match s.suspend with
  | .before => s.coro.early = true ∧ s.handle = .none ∧ s.released = 0 ∧ s.task = false
  | .awaiter =>
      s.coro.early = false ∧ s.coro.hasThrown = false ∧ s.handle ≠ .none ∧ s.released = 0 ∧
        s.task = true ∧
        ∀ c, s.old = some c → Keeps s.base s.thread c ∧ (s.coro ≠ .suspended → s.new ≠ some c)
  | .transfer ready =>
      ready = false ∧ s.coro.early = false ∧ s.coro.hasThrown = false ∧ s.handle = .none ∧
        s.task = true ∧ (s.base.pc s.thread).transfers s.old s.new .switch ∧
        if (s.base.pc s.thread).releases.isSome then s.released = 0 else s.Released
  | .guard _ => False
  | .leave =>
      s.coro.early = false ∧ s.coro.hasThrown = false ∧ s.handle ≠ .none ∧ s.task = true ∧
        ∃ c, s.old = some c ∧ (s.base.pc s.thread).leaves c ∧
          s.released = if (s.base.pc s.thread).releases.isSome then 0 else 1
  | .returned => s.coro.early = false ∧ (s.coro.hasThrown = true ∨ s.Released)

structure Sound [DecidableEq R] [DecidableEq C] [DecidableEq S] (sched : C → S)
    (s : State R C S) : Prop where
  reach : (contexts sched).Reachable s.base
  terminated : s.terminated = false
  touched : s.touched = false
  active : s.active = (s.coro.listed s.task).isSome
  stack : ∀ u, (s.stack u).count self = if s.coro.listed s.task = some u then 1 else 0
  keeps : ∀ t c, s.coro.thread = some t → s.context = some c → Keeps s.base t c
  phase : s.Phase
  context : s.coro.early = false → s.context = if s.coro.hasThrown then s.old else s.new
  doneSwitch : s.coro.early = true ∨ s.handle ≠ .none ∨ s.coro ≠ .suspended →
    s.base.status .switch = .done
  doneRestore : s.handle = .none ∨ s.handle = .given ∨ s.coro ≠ .suspended →
    s.base.status .restore = .done
  given : s.handle = .given → s.coro = .suspended
  task : s.coro = .suspended → s.task = true
  entering : ∀ t, s.handle = .entering t → (s.base.pc t).enters s.new .restore
  freshSwitch : s.coro.early = true ∨ s.suspend = .awaiter → ∀ b, Aims s.base .switch b
  aimsSwitch : s.coro.early = false → Aims s.base .switch s.new
  freshRestore : s.handle = .none ∨ s.handle = .given → ∀ b, Aims s.base .restore b
  aimsRestore : s.coro.early = false → Aims s.base .restore s.new

-- ============================================================================
-- Steps that change the contexts only
-- ============================================================================

section Steps

variable [DecidableEq R] [DecidableEq C] [DecidableEq S] {sched : C → S}
  {b : Context.State (Runnable R) C S}

theorem start_sound : Sound sched (State.start : State R C S) where
  reach := .init rfl
  terminated := rfl
  touched := rfl
  active := rfl
  stack u := by simp [State.start, Await.start, Coro.listed]
  keeps t c h := by cases h
  phase := ⟨rfl, rfl, rfl, rfl⟩
  context h := by cases h
  doneSwitch _ := rfl
  doneRestore _ := rfl
  given h := by cases h
  task h := by cases h
  entering t h := by cases h
  freshSwitch _ d := ⟨by simp [State.start, Await.start, Context.State.start, LockedFifo.empty],
    by simp [State.start, Await.start, Context.State.start], fun t => trivial⟩
  aimsSwitch h := by cases h
  freshRestore _ d := ⟨by simp [State.start, Await.start, Context.State.start, LockedFifo.empty],
    by simp [State.start, Await.start, Context.State.start], fun t => trivial⟩
  aimsRestore h := by cases h

theorem Sound.inv (h : Sound sched s) : Context.Inv sched s.base := Context.reachable_inv h.reach

omit [DecidableEq R] [DecidableEq C] [DecidableEq S] in
theorem State.Phase.of_base (h : s.Phase)
    (hpc : (∃ r, s.suspend = .transfer r) ∨ s.suspend = .leave →
      b.pc s.thread = s.base.pc s.thread)
    (hk : s.suspend = .awaiter → ∀ c, s.old = some c → Keeps s.base s.thread c →
      Keeps b s.thread c) : State.Phase { s with base := b } := by
  cases hp : s.suspend <;> simp only [State.Phase, hp] at h ⊢
  case before | returned => exact h
  case awaiter =>
    obtain ⟨h1, h2, h3, h4, h5, h6⟩ := h
    exact ⟨h1, h2, h3, h4, h5, fun c hc => ⟨hk hp c hc (h6 c hc).1, (h6 c hc).2⟩⟩
  case transfer ready =>
    rw [hpc (.inl ⟨ready, hp⟩)]
    exact h
  case leave =>
    rw [hpc (.inr hp)]
    exact h

omit [DecidableEq R] [DecidableEq C] [DecidableEq S] in
theorem busy_of_suspend (h : (∃ r, s.suspend = .transfer r) ∨ s.suspend = .leave) :
    s.busy s.thread = true := by
  rcases h with ⟨r, h⟩ | h <;> simp [State.busy, Await.busy, Suspend.inCall, h]

/-- A step on contexts that is not one of the calls of the `co_await`. -/
theorem Sound.of_base {a : Context.Act (Runnable R) C} (h : Sound sched s)
    (hs : (contexts sched).step s.base a = some b) (hbusy : s.busy a.thread = false)
    (hswitch : ∀ d, a.submits ≠ some (.switch, d)) (hrestore : ∀ d, a.submits ≠ some (.restore, d))
    (hheld : ∀ t c, s.holds (s.suspend = .awaiter) t c = true → a.leaves ≠ some (t, c)) :
    Sound sched { s with base := b } := by
  have hi := h.inv
  have hpc : ∀ u, s.busy u = true → b.pc u = s.base.pc u := by
    intro u hu
    refine (Context.step_only hs u ?_).1
    rintro rfl
    rw [hbusy] at hu
    cases hu
  have haim : ∀ {r d}, (∀ d, a.submits ≠ some (r, d)) → Aims s.base r d → Aims b r d := by
    intro r d hr ha
    exact ha.step hi (fun e he => absurd he (hr e)) hs
  exact {
    reach := .step a h.reach trivial hs
    terminated := h.terminated
    touched := h.touched
    active := h.active
    stack := h.stack
    keeps := by
      intro t c ht hc
      refine (h.keeps t c ht hc).step hi (hheld t c ?_) hs
      simp only at ht hc
      simp [Await.holds, ht, hc]
    phase := by
      refine h.phase.of_base (fun hx => hpc _ (busy_of_suspend hx)) fun hp c hc hk => hk.step hi (hheld _ _ ?_) hs
      simp [Await.holds, hp, hc]
    context := h.context
    doneSwitch := fun hd => Context.done_step (h.doneSwitch hd) hswitch hs
    doneRestore := fun hd => Context.done_step (h.doneRestore hd) hrestore hs
    given := h.given
    task := h.task
    entering := by
      intro t ht
      simp only at ht ⊢
      rw [hpc t (by simp [State.busy, Await.busy, ht])]
      exact h.entering t ht
    freshSwitch := fun hf d => haim hswitch (h.freshSwitch hf d)
    aimsSwitch := fun hf => haim hswitch (h.aimsSwitch hf)
    freshRestore := fun hf d => haim hrestore (h.freshRestore hf d)
    aimsRestore := fun hf => haim hrestore (h.aimsRestore hf) }

theorem Sound.other {a : Context.Act (Runnable R) C} (h : Sound sched s) (ha : s.allows a = true)
    (hs : (contexts sched).step s.base a = some b) : Sound sched { s with base := b } := by
  obtain ⟨hbusy, hsub, hleave⟩ := Await.of_allows ha
  exact h.of_base hs hbusy (fun d => hsub _ d rfl) (fun d => hsub _ d rfl) hleave

-- ============================================================================
-- Steps of the coroutine
-- ============================================================================

omit [DecidableEq R] [DecidableEq C] [DecidableEq S] in
/-- Before the `co_await` there is no `await_suspend`. -/
theorem State.Phase.before (h : s.Phase) (he : s.coro.early = true) :
    s.suspend = .before ∧ s.handle = .none ∧ s.released = 0 ∧ s.task = false := by
  cases hp : s.suspend <;> simp only [State.Phase, hp] at h
  case before => exact ⟨rfl, h.2⟩
  case transfer => simp [he] at h
  all_goals simp [he] at h

theorem Sound.start {t : Nat} {c : Option C} (h : Sound sched s) (hc : s.coro = .absent)
    (hp : s.base.pc t = .idle) (ho : ∀ d ∈ c, d ∈ s.base.owned t) :
    Sound sched (State.enter { s with coro := .running t, context := c } t) := by
  obtain ⟨hsus, hh, hrel, htask⟩ := h.phase.before (by rw [hc]; rfl)
  have hact : s.active = false := by rw [h.active, hc]; rfl
  have hstack : ∀ u, (s.stack u).count self = 0 := by
    intro u
    rw [h.stack u, hc]
    rfl
  have hfresh := h.freshSwitch (.inl (by rw [hc]; rfl))
  have he : State.enter { s with coro := .running t, context := c } t =
      { s with
        coro := .running t
        context := c
        active := true
        stack := Function.update s.stack t (self :: s.stack t) } := by
    simp [State.enter, Await.enter_of_inactive, hact]
  rw [he]
  exact {
    reach := h.reach
    terminated := h.terminated
    touched := h.touched
    active := rfl
    stack := by
      intro u
      by_cases hu : u = t
      · subst hu
        simp [Coro.listed, hstack]
      · simp [Coro.listed, hu, hstack, Ne.symm hu]
    keeps := by
      rintro u d ⟨⟩ hd
      exact ⟨ho d hd, by simp [hp, Context.Pc.gives]⟩
    phase := by simp [State.Phase, hsus, Coro.early, hh, hrel, htask]
    context := by simp [Coro.early]
    doneSwitch := fun _ => h.doneSwitch (.inl (by rw [hc]; rfl))
    doneRestore := fun _ => h.doneRestore (.inl hh)
    given := fun hg => by simp [hh] at hg
    task := by simp
    entering := h.entering
    freshSwitch := fun _ => hfresh
    aimsSwitch := by simp [Coro.early]
    freshRestore := h.freshRestore
    aimsRestore := by simp [Coro.early] }

theorem Sound.coAwait {t : Nat} {new : Option C} {ready : Bool} {w : Awaiter} (h : Sound sched s)
    (hc : s.coro = .running t) (htop : (s.stack t).head? = some self)
    (hready : ready = true → s.context = new)
    (hs : s.coAwait sched t new ready w = some s') : Sound sched s' := by
  have hearly : s.coro.early = true := by rw [hc]; rfl
  obtain ⟨hsus, hh, hrel, htask⟩ := h.phase.before hearly
  have hfresh := h.freshSwitch (.inl hearly)
  have hfresh' := h.freshRestore (.inl hh)
  have hsw := h.doneSwitch (.inl hearly)
  have hre := h.doneRestore (.inl hh)
  have hstack : ∀ u, (s.stack u).count self = if t = u then 1 else 0 := by
    intro u
    rw [h.stack u, hc]
    simp [Coro.listed]
  have hkeep : ∀ c, s.context = some c → Keeps s.base t c :=
    fun c hx => h.keeps t c (by rw [hc]; rfl) hx
  unfold State.coAwait at hs
  cases ready with
  | true =>
      obtain rfl := hready rfl
      simp only [Bool.true_and, decide_true, if_true, Option.some.injEq] at hs
      subst hs
      exact {
        reach := h.reach
        terminated := h.terminated
        touched := h.touched
        active := by
          rw [h.active, hc]
          simp [Coro.listed, htask]
        stack := by
          intro u
          simp [Coro.listed, htask, hstack]
        keeps := by
          rintro u c ⟨⟩ hx
          exact hkeep c hx
        phase := ⟨rfl, .inr fun c h1 h2 => absurd h1 h2⟩
        context := fun _ => rfl
        doneSwitch := fun _ => hsw
        doneRestore := fun _ => hre
        given := fun hg => by simp [hh] at hg
        task := by simp
        entering := fun u hu => by simp [hh] at hu
        freshSwitch := fun _ => hfresh
        aimsSwitch := fun _ => hfresh _
        freshRestore := fun _ => hfresh'
        aimsRestore := fun _ => hfresh' _ }
  | false =>
      obtain ⟨rest, hrest⟩ : ∃ rest, s.stack t = self :: rest := by
        cases hst : s.stack t <;> simp_all
      simp only [Bool.false_and, Bool.false_eq_true, if_false, Option.some.injEq, State.leave,
        Await.leave_of_head, hrest, List.head?_cons, List.tail_cons] at hs
      subst hs
      exact {
        reach := h.reach
        terminated := h.terminated
        touched := h.touched
        active := rfl
        stack := by
          intro u
          have hu := hstack u
          by_cases hut : u = t
          · subst hut
            rw [hrest] at hu
            simpa [Coro.listed] using hu
          · simpa [Coro.listed, hut, Ne.symm hut] using hu
        keeps := by simp [Coro.thread]
        phase := by
          refine ⟨rfl, rfl, by simp, hrel, rfl, fun c hx => ⟨hkeep c hx, by simp⟩⟩
        context := fun _ => rfl
        doneSwitch := fun _ => hsw
        doneRestore := fun _ => hre
        given := fun _ => rfl
        task := fun _ => rfl
        entering := by simp
        freshSwitch := fun _ => hfresh
        aimsSwitch := fun _ => hfresh _
        freshRestore := fun _ => hfresh'
        aimsRestore := fun _ => hfresh' _ }

/-- The task enters the stack of the thread. -/
theorem count_enter {st : Nat → List Nat} {t : Nat} (h : ∀ u, (st u).count self = 0) (u : Nat) :
    (Function.update st t (self :: st t) u).count self = if t = u then 1 else 0 := by
  by_cases hu : u = t
  · subst hu
    simp [h]
  · simp [hu, h, Ne.symm hu]

theorem Sound.awaitResume {t : Nat} (h : Sound sched s) (hc : s.coro = .resuming t) :
    Sound sched (let s' := { s with coro := .resumed t }
      if s'.task then s'.enter t else s') := by
  have hearly : s.coro.early = false := by rw [hc]; rfl
  have hne : s.coro ≠ .suspended := by simp [hc]
  have hphase : ∀ a st, State.Phase { s with coro := .resumed t, active := a, stack := st } := by
    intro a st
    have hp := h.phase
    cases hsus : s.suspend <;> simp only [State.Phase, hsus, hc] at hp ⊢
    case before => cases hp.1
    case awaiter =>
      obtain ⟨h1, h2, h3, h4, h5, h6⟩ := hp
      exact ⟨rfl, rfl, h3, h4, h5, fun c hx => ⟨(h6 c hx).1, fun _ => (h6 c hx).2 (by simp)⟩⟩
    all_goals exact hp
  have hmake : ∀ a st, a = true → (∀ u, (st u).count self = if t = u then 1 else 0) →
      Sound sched { s with coro := .resumed t, active := a, stack := st } := by
    intro a st ha hst
    exact {
      reach := h.reach
      terminated := h.terminated
      touched := h.touched
      active := ha
      stack := fun u => by simpa [Coro.listed] using hst u
      keeps := fun u c hu hx => h.keeps u c (by rw [hc]; exact hu) hx
      phase := hphase a st
      context := by
        intro _
        have := h.context hearly
        rw [hc] at this
        exact this
      doneSwitch := fun _ => h.doneSwitch (.inr (.inr hne))
      doneRestore := fun _ => h.doneRestore (.inr (.inr hne))
      given := fun hg => absurd (h.given hg) hne
      task := by simp
      entering := h.entering
      freshSwitch := by
        rintro (he | hp) d
        · cases he
        · exact h.freshSwitch (.inr hp) d
      aimsSwitch := fun _ => h.aimsSwitch hearly
      freshRestore := h.freshRestore
      aimsRestore := fun _ => h.aimsRestore hearly }
  have hact := h.active
  have hstack := h.stack
  rw [hc] at hact hstack
  by_cases htask : s.task = true
  · simp only [htask, Coro.listed, if_true, Option.isSome_none] at hact hstack
    have he : (let s' := { s with coro := .resumed t }
        if s'.task then s'.enter t else s') =
        { s with
          coro := .resumed t
          active := true
          stack := Function.update s.stack t (self :: s.stack t) } := by
      simp [State.enter, Await.enter_of_inactive, hact, htask]
    rw [he]
    exact hmake true _ rfl (count_enter fun u => by simpa using hstack u)
  · simp only [htask, Coro.listed] at hact hstack
    have he : (let s' := { s with coro := .resumed t }
        if s'.task then s'.enter t else s') =
        { s with coro := .resumed t, active := s.active, stack := s.stack } := by
      simp [htask]
    rw [he]
    exact hmake s.active s.stack (by rw [hact]; rfl) fun u => by simpa using hstack u

-- ============================================================================
-- Calls on contexts
-- ============================================================================

/-- A step of a call after which the coroutine is where it was. -/
theorem Sound.continues {hd : Handle} {p : Suspend} {n : Nat} (h : Sound sched s)
    (hearly : s.coro.early = false) (hreach : (contexts sched).Reachable b)
    (hkeep : ∀ t c, s.coro.thread = some t → s.context = some c → Keeps b t c)
    (hphase : State.Phase { s with base := b, handle := hd, suspend := p, released := n })
    (hsw : hd ≠ .none ∨ s.coro ≠ .suspended → b.status .switch = .done)
    (hre : hd = .none ∨ hd = .given ∨ s.coro ≠ .suspended → b.status .restore = .done)
    (hgiven : hd = .given → s.coro = .suspended)
    (hent : ∀ t, hd = .entering t → (b.pc t).enters s.new .restore)
    (hfs : p = .awaiter → ∀ d, Aims b .switch d) (has : Aims b .switch s.new)
    (hfr : hd = .none ∨ hd = .given → ∀ d, Aims b .restore d) (har : Aims b .restore s.new) :
    Sound sched { s with base := b, handle := hd, suspend := p, released := n } where
  reach := hreach
  terminated := h.terminated
  touched := h.touched
  active := h.active
  stack := h.stack
  keeps := hkeep
  phase := hphase
  context := h.context
  doneSwitch := by
    rintro (he | hx)
    · rw [hearly] at he
      cases he
    · exact hsw hx
  doneRestore := hre
  given := hgiven
  task := h.task
  entering := hent
  freshSwitch := by
    rintro (he | hp)
    · rw [hearly] at he
      cases he
    · exact hfs hp
  aimsSwitch := fun _ => has
  freshRestore := hfr
  aimsRestore := fun _ => har

/-- The coroutine goes on in a thread that owns the new context. -/
theorem Sound.resumes {t : Nat} {x : Bool} (h : Sound sched s) (hc : s.coro = .suspended)
    (hkeep : ∀ c, s.new = some c → Keeps s.base t c)
    (hphase : State.Phase { s with scheduled := x, coro := .resuming t })
    (hsw : s.base.status .switch = .done) (hre : s.base.status .restore = .done)
    (hgiven : s.handle ≠ .given) : Sound sched { s with scheduled := x, coro := .resuming t } := by
  have hearly : s.coro.early = false := by rw [hc]; rfl
  have htask := h.task hc
  have hcontext : s.context = s.new := by
    have := h.context hearly
    rw [hc] at this
    exact this
  have hact := h.active
  have hstack := h.stack
  rw [hc] at hact hstack
  exact {
    reach := h.reach
    terminated := h.terminated
    touched := h.touched
    active := by simpa [Coro.listed, htask] using hact
    stack := fun u => by simpa [Coro.listed, htask] using hstack u
    keeps := by
      rintro u c ⟨⟩ hx
      exact hkeep c (hcontext ▸ hx)
    phase := hphase
    context := fun _ => hcontext
    doneSwitch := fun _ => hsw
    doneRestore := fun _ => hre
    given := fun hg => absurd hg hgiven
    task := by simp
    entering := h.entering
    freshSwitch := by
      rintro (he | hp)
      · cases he
      · exact h.freshSwitch (.inr hp)
    aimsSwitch := fun _ => h.aimsSwitch hearly
    freshRestore := h.freshRestore
    aimsRestore := fun _ => h.aimsRestore hearly }

omit [DecidableEq R] [DecidableEq C] [DecidableEq S] in
theorem State.Phase.resumes {t : Nat} {x : Bool} (h : s.Phase) (hc : s.coro = .suspended)
    (hne : s.suspend = .awaiter → ∀ c, s.old = some c → s.new ≠ some c) :
    State.Phase { s with scheduled := x, coro := .resuming t } := by
  cases hp : s.suspend <;> simp only [State.Phase, hp, hc] at h ⊢
  case before => cases h.1
  case awaiter =>
    obtain ⟨h1, h2, h3, h4, h5, h6⟩ := h
    exact ⟨rfl, rfl, h3, h4, h5, fun c hx => ⟨(h6 c hx).1, fun _ => hne hp c hx⟩⟩
  all_goals exact h

omit [DecidableEq R] [DecidableEq C] [DecidableEq S] in
/-- The handle given to the awaiter is used. -/
theorem State.Phase.used {hd : Handle} (h : s.Phase) (h1 : s.handle ≠ .none) (h2 : hd ≠ .none) :
    State.Phase { s with handle := hd } := by
  cases hp : s.suspend <;> simp only [State.Phase, hp] at h ⊢
  case before => exact absurd h.2.1 h1
  case awaiter => exact ⟨h.1, h.2.1, h2, h.2.2.2⟩
  case transfer => exact absurd h.2.2.2.1 h1
  case leave => exact ⟨h.1, h.2.1, h2, h.2.2.2⟩
  case returned => exact h

theorem Sound.context_eq (h : Sound sched s) (hearly : s.coro.early = false)
    (ht : s.coro.hasThrown = false) : s.context = s.new := by
  rw [h.context hearly, if_neg (by simp [ht])]

/-- A busy thread is in a call. -/
theorem Sound.busy_pc {t : Nat} (h : Sound sched s) (hb : s.busy t = true) :
    s.base.pc t ≠ .idle := by
  simp only [State.busy, Await.busy, Bool.or_eq_true, Bool.and_eq_true, decide_eq_true_eq] at hb
  rcases hb with hb | ⟨hcall, rfl⟩
  · exact Context.Pc.ne_idle_of_enters (h.entering t hb)
  · have hp := h.phase
    cases hsus : s.suspend <;> simp only [State.Phase, hsus] at hp hcall
    case transfer => exact Context.Pc.ne_idle_of_transfers hp.2.2.2.2.2.1
    case leave =>
      obtain ⟨c, -, hl, -⟩ := hp.2.2.2.2
      exact Context.Pc.ne_idle_of_leaves hl
    all_goals cases hcall

/-- The awaiter suspended, and `await_suspend` leaves the old context. -/
theorem Sound.leaves (h : Sound sched s) (hp : s.suspend = .awaiter)
    (hs : (contexts sched).step s.base (.leave s.thread s.old) = some b) :
    Sound sched (State.leaveOld { s with base := b }) := by
  have hi := h.inv
  have hph := h.phase
  simp only [State.Phase, hp] at hph
  obtain ⟨hearly, hthrown, hhandle, hrel, htask, hold⟩ := hph
  have hcontext := h.context_eq hearly hthrown
  have hidle : s.base.pc s.thread = .idle := Context.step_idle (by simp) hs
  have hsub : ∀ r d, (Context.Act.leave s.thread s.old : Context.Act (Runnable R) C).submits ≠
      some (r, d) := by simp [Context.Act.submits]
  have haim : ∀ {r d}, Aims s.base r d → Aims b r d :=
    fun ha => ha.step hi (fun e he => absurd he (hsub _ e)) hs
  have hkeep : ∀ t c, s.coro.thread = some t → s.context = some c → Keeps b t c := by
    intro t c ht hc
    refine (h.keeps t c ht hc).step hi ?_ hs
    intro hl
    have hne : s.coro ≠ .suspended := by
      intro hx
      rw [hx] at ht
      cases ht
    cases hx : s.old with
    | none => simp [Context.Act.leaves, hx] at hl
    | some d =>
        simp only [Context.Act.leaves, hx, Option.some.injEq, Prod.mk.injEq] at hl
        obtain ⟨-, rfl⟩ := hl
        exact (hold d hx).2 hne (hcontext ▸ hc)
  have hent : ∀ t, s.handle = .entering t → (b.pc t).enters s.new .restore := by
    intro t ht
    have he := h.entering t ht
    rw [(Context.step_only hs t ?_).1]
    · exact he
    · intro hx
      obtain rfl : t = s.thread := hx
      exact h.busy_pc (by simp [State.busy, Await.busy, ht]) hidle
  have hmake : ∀ p, p ≠ .awaiter → State.Phase { s with base := b, suspend := p } →
      Sound sched { s with base := b, suspend := p } := by
    intro p hne hphase
    exact h.continues hearly (.step _ h.reach trivial hs) hkeep hphase
      (fun hx => Context.done_step (h.doneSwitch (.inr hx)) (hsub _) hs)
      (fun hx => Context.done_step (h.doneRestore hx) (hsub _) hs)
      h.given hent (fun hx => absurd hx hne) (haim (h.aimsSwitch hearly))
      (fun hx d => haim (h.freshRestore hx d)) (haim (h.aimsRestore hearly))
  obtain ⟨c, hc, hl, hr⟩ | ⟨hb, hn⟩ := Context.leave_starts hs
  · have hne : b.pc s.thread ≠ .idle := Context.Pc.ne_idle_of_leaves hl
    simp only [State.leaveOld, hne, if_false]
    exact hmake .leave (by simp) ⟨hearly, hthrown, hhandle, htask, c, hc, hl, by simp [hr, hrel]⟩
  · simp only [State.leaveOld, hb, if_true, State.suspendReturns, Bool.false_eq_true, if_false]
    exact hmake .returned (by simp) ⟨hearly, .inr fun c hc => by simp [hn] at hc⟩

/-- The awaiter did not suspend, and `transfer_to` changes the context. -/
theorem Sound.transfers (h : Sound sched s) (hp : s.suspend = .awaiter) (hg : s.handle = .given)
    (hs : State.startTransfer sched { s with handle := .none } false = some s') :
    Sound sched s' := by
  have hi := h.inv
  have hph := h.phase
  simp only [State.Phase, hp] at hph
  obtain ⟨hearly, hthrown, -, hrel, htask, -⟩ := hph
  have hc := h.given hg
  have hcontext := h.context_eq hearly hthrown
  obtain ⟨b, hb, rfl⟩ := Option.map_eq_some_iff.mp hs
  simp only [hcontext] at hb
  have hre : b.status .restore = .done :=
    Context.done_step (h.doneRestore (.inr (.inl hg))) (by simp [Context.Act.submits]) hb
  have haim : Aims b .switch s.new :=
    (h.freshSwitch (.inr hp) s.new).step hi (by simp [Context.Act.submits]) hb
  have haim' : ∀ d, Aims b .restore d :=
    fun d => (h.freshRestore (.inr hg) d).step hi (by simp [Context.Act.submits]) hb
  have hmake : ∀ p, p ≠ .awaiter → State.Phase { s with base := b, handle := .none, suspend := p } →
      Sound sched { s with base := b, handle := .none, suspend := p } := by
    intro p hne hphase
    refine h.continues hearly (.step _ h.reach trivial hb) ?_ hphase ?_ (fun _ => hre)
      (by simp) (by simp) (fun hx => absurd hx hne) haim (fun _ => haim') (haim' _)
    · intro t c ht
      rw [hc] at ht
      cases ht
    · rintro (hx | hx)
      · exact absurd rfl hx
      · exact absurd hc hx
  obtain ⟨ht, hr, -⟩ | ⟨hidle, hab, hl⟩ := Context.transfer_starts hb
  · have hne : b.pc s.thread ≠ .idle := Context.Pc.ne_idle_of_transfers ht
    simp only [State.transferTo, hne, if_false]
    refine hmake (.transfer false) (by simp) ⟨rfl, hearly, hthrown, rfl, htask, ht, ?_⟩
    simp only [hr]
    by_cases hab : s.old = s.new
    · rw [if_pos hab]
      exact fun c h1 h2 => absurd (hab ▸ h1) h2
    · rw [if_neg hab]
      cases ho : s.old with
      | none =>
          intro c h1
          cases h1
      | some c => exact hrel
  · have hans : Await.answer { s with base := b } = true := Await.answer_of_log hl
    have hbase := hmake .returned (by simp) ⟨hearly, .inr fun c h1 h2 => absurd (hab ▸ h1) h2⟩
    obtain ⟨hk, hsw⟩ := Context.keeps_of_true hi hb hl hidle
    simp only [State.transferTo, hidle, if_true, Bool.false_eq_true, if_false]
    have he : State.suspendReturns { s with base := b, handle := .none }
        (Await.answer { s with base := b, handle := .none }) =
        { s with base := b, handle := .none, suspend := .returned, coro := .resuming s.thread } := by
      rw [show Await.answer { s with base := b, handle := .none } = true from hans]
      rfl
    rw [he]
    exact hbase.resumes hc hk (hbase.phase.resumes hc (by simp)) hsw hre (by simp)

theorem Sound.throws (h : Sound sched s) (hp : s.suspend = .awaiter) (hg : s.handle = .given) :
    Sound sched { s.runGuard with
      handle := .none, suspend := .returned, coro := .threw s.thread } := by
  have hph := h.phase
  simp only [State.Phase, hp] at hph
  obtain ⟨hearly, hthrown, hhandle, hrel, htask, hold⟩ := hph
  have hc := h.given hg
  have hact := h.active
  have hstack := h.stack
  rw [hc] at hact hstack
  have hact : s.active = false := hact
  simp only [State.runGuard, State.enter, Await.enter_of_inactive, hact]
  exact {
    reach := h.reach
    terminated := h.terminated
    touched := h.touched
    active := rfl
    stack := fun u => by
      simpa [Coro.listed] using count_enter (fun v => by simpa [Coro.listed] using hstack v) u
    keeps := by
      rintro t c ⟨⟩ hx
      exact (hold c hx).1
    phase := ⟨rfl, .inl rfl⟩
    context := fun _ => rfl
    doneSwitch := fun _ => h.doneSwitch (.inr (.inl hhandle))
    doneRestore := fun _ => h.doneRestore (.inr (.inl hg))
    given := by simp
    task := by simp
    entering := by simp
    freshSwitch := fun _ => h.freshSwitch (.inr hp)
    aimsSwitch := fun _ => h.freshSwitch (.inr hp) _
    freshRestore := fun _ => h.freshRestore (.inr hg)
    aimsRestore := fun _ => h.freshRestore (.inr hg) _ }

/-- A thread resumes the wrapped handle. -/
theorem Sound.resume {t : Nat} (h : Sound sched s) (hg : s.handle = .given)
    (hs : (contexts sched).step s.base (.enter t s.context .restore false) = some b) :
    Sound sched (State.restoreTask { s with base := b } t) := by
  have hi := h.inv
  have hc := h.given hg
  have hearly : s.coro.early = false := by rw [hc]; rfl
  have hcontext := h.context_eq hearly (by rw [hc]; rfl)
  rw [hcontext] at hs
  have hidle : s.base.pc t = .idle := Context.step_idle (by simp) hs
  have hsw : b.status .switch = .done :=
    Context.done_step (h.doneSwitch (.inr (.inl (by simp [hg])))) (by simp [Context.Act.submits]) hs
  have haim : ∀ {d}, Aims s.base .switch d → Aims b .switch d :=
    fun ha => ha.step hi (by simp [Context.Act.submits]) hs
  have haim' : Aims b .restore s.new :=
    (h.freshRestore (.inr hg) s.new).step hi (by simp [Context.Act.submits]) hs
  have hphase : State.Phase { s with base := b } := by
    refine h.phase.of_base ?_ fun _ c _ hk => hk.step hi (by simp [Context.Act.leaves]) hs
    intro hb
    refine (Context.step_only hs s.thread ?_).1
    intro hx
    have hx : s.thread = t := hx
    exact h.busy_pc (busy_of_suspend hb) (hx ▸ hidle)
  have hmake : ∀ hd, hd ≠ .none → hd ≠ .given →
      (∀ u, hd = .entering u → (b.pc u).enters s.new .restore) →
      Sound sched { s with base := b, handle := hd } := by
    intro hd h1 h2 hent
    refine h.continues hearly (.step _ h.reach trivial hs) ?_
      (hphase.used (by simp [hg]) h1) (fun _ => hsw) ?_ (fun hx => absurd hx h2) hent
      (fun hx d => haim (h.freshSwitch (.inr hx) d)) (haim (h.aimsSwitch hearly)) ?_ haim'
    · intro u c hu
      rw [hc] at hu
      cases hu
    · rintro (hx | hx | hx)
      · exact absurd hx h1
      · exact absurd hx h2
      · exact absurd hc hx
    · rintro (hx | hx)
      · exact absurd hx h1
      · exact absurd hx h2
  obtain ⟨he, -⟩ | ⟨hb, hn, hl⟩ := Context.enter_starts hs
  · have hne : b.pc t ≠ .idle := Context.Pc.ne_idle_of_enters he
    rw [State.restoreTask, Await.restoreTask_of_call hne]
    refine hmake (.entering t) (by simp) (by simp) ?_
    rintro u ⟨⟩
    exact he
  · rw [State.restoreTask, Await.restoreTask_of_log hb hl]
    have hbase := hmake .used (by simp) (by simp) (by simp)
    obtain ⟨hk, hre⟩ := Context.keeps_of_true hi hs hl hb
    refine hbase.resumes hc hk (hbase.phase.resumes hc fun _ c _ => ?_) hsw hre (by simp)
    simp [hn]

/-- A step of the call of the wrapped handle. -/
theorem Sound.enterStep {t : Nat} {k : Context.Choice (Runnable R)} (h : Sound sched s)
    (hh : s.handle = .entering t) (hs : stepThread sched s.base t k = some b) :
    Sound sched (State.restoreTask { s with base := b } t) := by
  have hi := h.inv
  have hstep := Context.stepThread_cases hs
  have hact : (contexts sched).step s.base (.step t k) = some b := hs
  have hent := h.entering t hh
  have hearly : s.coro.early = false := by
    cases hx : s.coro.early with
    | false => rfl
    | true => simp [(h.phase.before hx).2.1] at hh
  have hsw : b.status .switch = .done := hstep.done (h.doneSwitch (.inr (.inl (by simp [hh]))))
  have haim : ∀ {r d}, Aims s.base r d → Aims b r d := fun ha => hstep.aims (hi.pc t) ha
  have hphase : State.Phase { s with base := b } := by
    refine h.phase.of_base ?_ fun _ c _ hk => hstep.keeps hi hk
    intro hb
    refine (hstep.only s.thread ?_).1
    rintro rfl
    have hp := h.phase
    rcases hb with ⟨r, hb⟩ | hb <;> simp only [State.Phase, hb, hh] at hp
    · exact absurd hp.2.2.2.1 (by simp)
    · obtain ⟨c, -, hl, -⟩ := hp.2.2.2.2
      exact Context.Pc.not_leaves_of_enters hent hl
  have hmake : ∀ hd, hd ≠ .none → hd ≠ .given →
      (∀ u, hd = .entering u → (b.pc u).enters s.new .restore) →
      Sound sched { s with base := b, handle := hd } := by
    intro hd h1 h2 hent
    refine h.continues hearly (.step _ h.reach trivial hact) ?_
      (hphase.used (by simp [hh]) h1) (fun _ => hsw) ?_ (fun hx => absurd hx h2) hent
      (fun hx d => haim (h.freshSwitch (.inr hx) d)) (haim (h.aimsSwitch hearly)) ?_
      (haim (h.aimsRestore hearly))
    · intro u c hu hx
      exact hstep.keeps hi (h.keeps u c hu hx)
    · rintro (hx | hx | hx)
      · exact absurd hx h1
      · exact absurd hx h2
      · exact hstep.done (h.doneRestore (.inr (.inr hx)))
    · rintro (hx | hx)
      · exact absurd hx h1
      · exact absurd hx h2
  obtain ⟨he, -, -⟩ | ⟨hb, res, hl⟩ := hstep.enters hent
  · have hne : b.pc t ≠ .idle := Context.Pc.ne_idle_of_enters he
    rw [State.restoreTask, Await.restoreTask_of_call hne]
    refine hmake (.entering t) (by simp) (by simp) ?_
    rintro u ⟨⟩
    exact he
  · rw [State.restoreTask, Await.restoreTask_of_log hb hl]
    have hbase := hmake .used (by simp) (by simp) (by simp)
    cases res with
    | false => exact hbase
    | true =>
        have hc : s.coro = .suspended := by
          by_contra hx
          exact hstep.pending hi hl (h.doneRestore (.inr (.inr hx)))
        obtain ⟨hk, hre⟩ := Context.keeps_of_true hi hact hl hb
        refine hbase.resumes hc hk (hbase.phase.resumes hc fun hp c h1 h2 => ?_) hsw hre (by simp)
        -- the old context would have been entered while it was locked
        have hph := h.phase
        simp only [State.Phase, show s.suspend = .awaiter from hp] at hph
        have hold := (hph.2.2.2.2.2 c h1).1
        have hi' := Context.step_inv hi hact
        have hown := (hi'.core.owned t c).mp (hk c h2).owned
        rw [(hi'.core.owned s.thread c).mp (hstep.keeps hi hold).owned] at hown
        obtain rfl := Context.Owner.thread.inj hown
        rw [show s.new = some c from h2] at hent
        exact hold.pc (hstep.enters_true hent hl)

/-- After a step of the call of `await_suspend` the old context is released. -/
theorem Sound.released_step (h : Sound sched s)
    (hp : (∃ r, s.suspend = .transfer r) ∨ s.suspend = .leave) :
    ∀ c, s.old = some c → s.new ≠ some c →
      s.released + (s.base.pc s.thread).releases.toList.length = 1 := by
  intro c h1 h2
  have hph := h.phase
  rcases hp with ⟨r, hp⟩ | hp <;> simp only [State.Phase, hp] at hph
  · obtain ⟨-, -, -, -, -, -, hrel⟩ := hph
    cases hx : (s.base.pc s.thread).releases with
    | none =>
        rw [hx] at hrel
        simpa using hrel c h1 h2
    | some d =>
        rw [hx] at hrel
        simp only [Option.isSome_some, if_true] at hrel
        simp [hrel]
  · obtain ⟨-, -, -, -, d, -, -, hrel⟩ := hph
    rw [hrel]
    cases (s.base.pc s.thread).releases <;> rfl

/-- A step of the transfer of `transfer_to`. -/
theorem Sound.transferStep {r : Bool} {k : Context.Choice (Runnable R)} (h : Sound sched s)
    (hp : s.suspend = .transfer r) (hs : stepThread sched s.base s.thread k = some b) :
    Sound sched (State.transferTo { s with
      base := b
      released := s.released + (s.base.pc s.thread).releases.toList.length } r) := by
  have hi := h.inv
  have hstep := Context.stepThread_cases hs
  have hact : (contexts sched).step s.base (.step s.thread k) = some b := hs
  have hph := h.phase
  simp only [State.Phase, hp] at hph
  obtain ⟨rfl, hearly, hthrown, hnone, htask, htr, -⟩ := hph
  have hre : b.status .restore = .done := hstep.done (h.doneRestore (.inl hnone))
  have haim : ∀ {r d}, Aims s.base r d → Aims b r d := fun ha => hstep.aims (hi.pc _) ha
  have hrel' := h.released_step (.inl ⟨_, hp⟩)
  have hmake : ∀ p, p ≠ .awaiter → State.Phase { s with
        base := b
        released := s.released + (s.base.pc s.thread).releases.toList.length
        suspend := p } → Sound sched { s with
        base := b
        released := s.released + (s.base.pc s.thread).releases.toList.length
        suspend := p } := by
    intro p hne hphase
    refine h.continues hearly (.step _ h.reach trivial hact)
      (fun t c ht hx => hstep.keeps hi (h.keeps t c ht hx)) hphase
      (fun hx => hstep.done (h.doneSwitch (.inr hx))) (fun _ => hre) h.given
      (fun t ht => absurd ht (by simp [hnone])) (fun hx => absurd hx hne)
      (haim (h.aimsSwitch hearly)) (fun hx d => haim (h.freshRestore hx d))
      (haim (h.aimsRestore hearly))
  obtain ⟨ht, hr, -⟩ | ⟨hb, res, hl⟩ := hstep.transfers htr
  · have hne : b.pc s.thread ≠ .idle := Context.Pc.ne_idle_of_transfers ht
    simp only [State.transferTo, hne, if_false]
    exact hmake (.transfer false) (by simp) ⟨rfl, hearly, hthrown, hnone, htask, ht, by
      simp only [hr]
      exact hrel'⟩
  · have hans : ∀ n, Await.answer { s with base := b, released := n } = res := fun n =>
      Await.answer_of_log hl
    simp only [State.transferTo, hb, if_true, Bool.false_eq_true, if_false, hans,
      State.suspendReturns]
    have hbase := hmake .returned (by simp) ⟨hearly, .inr hrel'⟩
    cases res with
    | false => exact hbase
    | true =>
        have hc : s.coro = .suspended := by
          by_contra hx
          exact hstep.pending hi hl (h.doneSwitch (.inr (.inr hx)))
        obtain ⟨hk, hsw⟩ := Context.keeps_of_true hi hact hl hb
        exact hbase.resumes hc hk (hbase.phase.resumes hc (by simp)) hsw hre (by simp [hnone])

/-- A step of `leave(old_context)`. -/
theorem Sound.leaveStep {k : Context.Choice (Runnable R)} (h : Sound sched s)
    (hp : s.suspend = .leave) (hs : stepThread sched s.base s.thread k = some b) :
    Sound sched (State.leaveOld { s with
      base := b
      released := s.released + (s.base.pc s.thread).releases.toList.length }) := by
  have hi := h.inv
  have hstep := Context.stepThread_cases hs
  have hact : (contexts sched).step s.base (.step s.thread k) = some b := hs
  have hph := h.phase
  simp only [State.Phase, hp] at hph
  obtain ⟨hearly, hthrown, hne, htask, c, hc, hlv, hrel⟩ := hph
  have haim : ∀ {r d}, Aims s.base r d → Aims b r d := fun ha => hstep.aims (hi.pc _) ha
  have hrel' : s.released + (s.base.pc s.thread).releases.toList.length = 1 := by
    rw [hrel]
    cases (s.base.pc s.thread).releases <;> rfl
  have hent : ∀ t, s.handle = .entering t → (b.pc t).enters s.new .restore := by
    intro t ht
    have he := h.entering t ht
    rw [(hstep.only t ?_).1]
    · exact he
    · rintro rfl
      exact Context.Pc.not_leaves_of_enters he hlv
  have hmake : ∀ p, p ≠ .awaiter → State.Phase { s with
        base := b
        released := s.released + (s.base.pc s.thread).releases.toList.length
        suspend := p } → Sound sched { s with
        base := b
        released := s.released + (s.base.pc s.thread).releases.toList.length
        suspend := p } := by
    intro p hne hphase
    exact h.continues hearly (.step _ h.reach trivial hact)
      (fun t c ht hx => hstep.keeps hi (h.keeps t c ht hx)) hphase
      (fun hx => hstep.done (h.doneSwitch (.inr hx))) (fun hx => hstep.done (h.doneRestore hx))
      h.given hent (fun hx => absurd hx hne) (haim (h.aimsSwitch hearly))
      (fun hx d => haim (h.freshRestore hx d)) (haim (h.aimsRestore hearly))
  obtain ⟨hl, hr⟩ | hb := hstep.leaves hlv
  · have hidle : b.pc s.thread ≠ .idle := Context.Pc.ne_idle_of_leaves hl
    simp only [State.leaveOld, hidle, if_false]
    exact hmake .leave (by simp) ⟨hearly, hthrown, hne, htask, c, hc, hl, by simp [hr, hrel']⟩
  · simp only [State.leaveOld, hb, if_true, State.suspendReturns, Bool.false_eq_true, if_false]
    exact hmake .returned (by simp) ⟨hearly, .inr fun _ _ _ => hrel'⟩

/-- A runnable of the awaiter that is queued resumes the coroutine. -/
theorem Sound.queued {e : Context.Entry (Runnable R) C} (h : Sound sched s)
    (he : e.runnable = .switch ∨ e.runnable = .restore)
    (hq : e ∈ s.base.queue (sched e.context)) :
    s.coro = .suspended ∧ s.new = some e.context ∧
      (e.runnable = .switch → s.handle = .none) ∧
      (e.runnable = .restore → s.handle ≠ .none ∧ s.handle ≠ .given) := by
  have hi := h.inv
  obtain ⟨-, hplace, -⟩ := hi.core.queue _ e hq
  have hpend : s.base.status e.runnable ≠ .done := by
    intro hd
    rw [(hi.core.done _).mp hd] at hplace
    cases hplace
  have hc : s.coro = .suspended := by
    by_contra hx
    rcases he with he | he <;> rw [he] at hpend
    · exact hpend (h.doneSwitch (.inr (.inr hx)))
    · exact hpend (h.doneRestore (.inr (.inr hx)))
  have hearly : s.coro.early = false := by rw [hc]; rfl
  refine ⟨hc, ?_, ?_, ?_⟩
  · rcases he with he | he
    · exact (h.aimsSwitch hearly).queue _ e hq he
    · exact (h.aimsRestore hearly).queue _ e hq he
  · intro he
    rw [he] at hpend
    by_contra hx
    exact hpend (h.doneSwitch (.inr (.inl hx)))
  · intro he
    rw [he] at hpend
    exact ⟨fun hx => hpend (h.doneRestore (.inl hx)),
      fun hx => hpend (h.doneRestore (.inr (.inl hx)))⟩

/-- A thread runs one of the two runnables. -/
theorem Sound.run {t : Nat} {x : Bool} {e : Context.Entry (Runnable R) C} (h : Sound sched s)
    (he : e.runnable = .switch ∨ e.runnable = .restore)
    (hs : (contexts sched).step s.base (.run t e) = some b) :
    Sound sched { s with base := b, scheduled := x, coro := .resuming t } ∧ s.task = true := by
  have hi := h.inv
  have hidle : s.base.pc t = .idle := Context.step_idle (by simp) hs
  have hbusy : s.busy t = false := by
    cases hb : s.busy t with
    | false => rfl
    | true => exact absurd hidle (h.busy_pc hb)
  have hbase : Sound sched { s with base := b } :=
    h.of_base hs hbusy (by simp [Context.Act.submits]) (by simp [Context.Act.submits])
      (by simp [Context.Act.leaves])
  simp only [contexts] at hs
  split at hs
  swap
  · cases hs
  rename_i hq
  obtain ⟨-, -, howner⟩ := hi.core.queue _ e hq.2
  obtain ⟨hc, hnew, hsw, hre⟩ := h.queued he hq.2
  have hdone : b.status e.runnable = .done := by
    cases hs
    simp
  have hown : e.context ∈ b.owned t := by
    cases hs
    simp
  have hpc : b.pc t = .idle := by
    cases hs
    exact hidle
  have hgiven : s.handle ≠ .given ∧ b.status .switch = .done ∧ b.status .restore = .done := by
    rcases he with he | he <;> rw [he] at hdone
    · exact ⟨by simp [hsw he], hdone, hbase.doneRestore (.inl (hsw he))⟩
    · exact ⟨(hre he).2, hbase.doneSwitch (.inr (.inl (hre he).1)), hdone⟩
  refine ⟨hbase.resumes hc ?_ (hbase.phase.resumes hc ?_) hgiven.2.1 hgiven.2.2 hgiven.1,
    h.task hc⟩
  · intro c hx
    obtain rfl : e.context = c := Option.some.inj (hnew.symm.trans hx)
    exact ⟨hown, by simp [hpc, Context.Pc.gives]⟩
  · intro hp c h1 h2
    -- the old context is locked by the thread of the `co_await`, not by the entry
    have hph := h.phase
    simp only [State.Phase, show s.suspend = .awaiter from hp] at hph
    have hold := (hi.core.owned _ _).mp (hph.2.2.2.2.2 c h1).1.owned
    obtain rfl : e.context = c := Option.some.inj (hnew.symm.trans h2)
    rw [howner] at hold
    cases hold

-- ============================================================================
-- Every run
-- ============================================================================

/-- Another task enters or leaves a thread's stack. -/
theorem Sound.of_stack {st : Nat → List Nat} (h : Sound sched s)
    (hst : ∀ u, (st u).count self = (s.stack u).count self) : Sound sched { s with stack := st } :=
  { h with stack := fun u => (hst u).trans (h.stack u) }

theorem step_sound {a : Act R C} (h : Sound sched s) (hok : SameIfReady s a)
    (hs : (changeContext sched).step s a = some s') : Sound sched s' := by
  simp only [changeContext] at hs
  rw [if_neg (by simp [h.terminated])] at hs
  cases a <;> simp only at hs
  case start t c =>
    split at hs <;> cases hs
    rename_i hc
    exact h.start hc.1 hc.2.1 hc.2.2
  case coAwait new ready w =>
    split at hs
    · rename_i t hc
      split at hs
      · rename_i htop
        exact h.coAwait hc htop hok hs
      · cases hs
    · cases hs
  case suspended b =>
    split at hs
    · cases hs
    · rename_i hp
      have hp := not_not.mp hp
      split at hs
      · obtain ⟨c, hc, rfl⟩ := Option.map_eq_some_iff.mp hs
        exact h.leaves hp hc
      · split at hs
        · rename_i hg
          exact h.transfers hp hg.2 hs
        · cases hs
  case throws =>
    split at hs <;> cases hs
    rename_i hc
    exact h.throws hc.1 hc.2
  case resume t =>
    split at hs
    · rename_i hg
      obtain ⟨c, hc, rfl⟩ := Option.map_eq_some_iff.mp hs
      exact h.resume hg hc
    · cases hs
  case suspendStep k =>
    obtain ⟨c, hc, hs⟩ := Option.bind_eq_some_iff.mp hs
    split at hs <;> cases hs
    · rename_i hp
      exact h.transferStep hp hc
    · rename_i hp
      exact h.leaveStep hp hc
  case enterStep k =>
    split at hs
    · rename_i hh
      obtain ⟨c, hc, rfl⟩ := Option.map_eq_some_iff.mp hs
      exact h.enterStep hh hc
    · cases hs
  case guard =>
    split at hs
    · rename_i hp
      have hph := h.phase
      simp only [State.Phase, hp] at hph
    · cases hs
  case run t e =>
    split at hs
    · rename_i he
      obtain ⟨c, hc, rfl⟩ := Option.map_eq_some_iff.mp hs
      obtain ⟨hrun, htask⟩ := h.run (x := true) (.inl he) hc
      rw [if_pos htask]
      exact hrun
    · rename_i he
      obtain ⟨c, hc, rfl⟩ := Option.map_eq_some_iff.mp hs
      exact (h.run (.inr he) hc).1
    · cases hs
  case awaitResume =>
    split at hs <;> cases hs
    rename_i hc
    exact h.awaitResume hc
  case other a =>
    split at hs
    · rename_i ha
      obtain ⟨c, hc, rfl⟩ := Option.map_eq_some_iff.mp hs
      exact h.other ha hc
    · cases hs
  case otherEnter t i =>
    split at hs <;> cases hs
    rename_i hi
    refine h.of_stack fun u => ?_
    by_cases hu : u = t
    · subst hu
      simp [hi]
    · simp [hu]
  case otherLeave t =>
    split at hs
    · rename_i i rest hst
      split at hs <;> cases hs
      rename_i hi
      refine h.of_stack fun u => ?_
      by_cases hu : u = t
      · subst hu
        simp [hst, hi]
      · simp [hu]
    · cases hs

theorem reachable_sound (h : (changeContext sched).ReachableIf SameIfReady s) : Sound sched s := by
  refine h.invariant ?_ ?_
  · rintro s rfl
    exact start_sound
  · intro s a s' hs hok hstep
    exact step_sound hs hok hstep

end Steps

end Coroactors.Async
