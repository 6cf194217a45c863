/-
  Coroactors.Async.SameInv

  `co_await awaitable` (Coroactors.Async.SameContext) releases the context once
  if the coroutine suspends, and the coroutine goes on when a thread has the
  context again; if the awaiter does not suspend after all, or throws, nothing
  happened.
-/

import Coroactors.Async.AwaitInv
import Coroactors.Async.SameContext

namespace Coroactors.Async.Same

open Coroactors.Conc
open Coroactors.Context (contexts stepThread Aims Keeps)

variable {R C S : Type*} {s s' : State R C S}

-- ============================================================================
-- The invariant
-- ============================================================================

/-- What is known by the place of `await_suspend`. -/
def State.Phase (s : State R C S) : Prop :=
  match s.suspend with
  | .before => s.coro.early = true ∧ s.handle = .none ∧ s.released = 0 ∧ s.calls = 0 ∧
      s.task = false
  | .awaiter =>
      (s.coro.early = false ∧ s.coro.hasThrown = false ∧ s.handle ≠ .none ∧ s.task = true) ∧
        s.released = 0 ∧ (s.handle = .given → s.calls = 0) ∧
        ∀ c, s.context = some c → Keeps s.base s.thread c ∧ s.coro = .suspended
  | .leave =>
      (s.coro.early = false ∧ s.coro.hasThrown = false ∧ s.handle ≠ .none ∧ s.task = true) ∧
        ∃ c, s.context = some c ∧ (s.base.pc s.thread).leaves c ∧
          if (s.base.pc s.thread).releases.isSome then s.released = 0 ∧ s.coro = .suspended
          else s.released = 1
  | .returned =>
      (s.coro.early = false ∧ s.handle = .none ∧ s.released = 0 ∧ s.calls = 0 ∧
        s.coro.thread = some s.thread) ∨
      (s.coro.early = false ∧ s.coro.hasThrown = false ∧ s.handle ≠ .none ∧ s.task = true) ∧
        s.released = if s.context.isSome then 1 else 0

structure Sound [DecidableEq R] [DecidableEq C] [DecidableEq S] (sched : C → S)
    (s : State R C S) : Prop where
  reach : (contexts sched).Reachable s.base
  terminated : s.terminated = false
  active : s.active = (s.coro.listed s.task).isSome
  stack : ∀ u, (s.stack u).count self = if s.coro.listed s.task = some u then 1 else 0
  keeps : ∀ t c, s.coro.thread = some t → s.context = some c → Keeps s.base t c
  phase : s.Phase
  old : s.coro.early = false → s.old = s.context
  done : s.handle = .none ∨ s.handle = .given ∨ s.coro ≠ .suspended →
    s.base.status .restore = .done
  given : s.handle = .given → s.coro = .suspended
  task : s.coro = .suspended → s.task = true
  entering : ∀ t, s.handle = .entering t → (s.base.pc t).enters s.context .restore
  fresh : s.handle = .none ∨ s.handle = .given → ∀ b, Aims s.base .restore b
  aims : s.coro.early = false → Aims s.base .restore s.context

-- ============================================================================
-- Steps that change the contexts only
-- ============================================================================

section Steps

variable [DecidableEq R] [DecidableEq C] [DecidableEq S] {sched : C → S}
  {b : Context.State (Runnable R) C S}

theorem start_sound : Sound sched (State.start : State R C S) where
  reach := .init rfl
  terminated := rfl
  active := rfl
  stack u := by simp [State.start, Await.start, Coro.listed]
  keeps t c h := by cases h
  phase := ⟨rfl, rfl, rfl, rfl, rfl⟩
  old h := by cases h
  done _ := rfl
  given h := by cases h
  task h := by cases h
  entering t h := by cases h
  fresh _ d := ⟨by simp [State.start, Await.start, Context.State.start, LockedFifo.empty],
    by simp [State.start, Await.start, Context.State.start], fun t => trivial⟩
  aims h := by cases h

theorem Sound.inv (h : Sound sched s) : Context.Inv sched s.base := Context.reachable_inv h.reach

omit [DecidableEq R] [DecidableEq C] [DecidableEq S] in
theorem State.Phase.of_base (h : s.Phase)
    (hpc : s.suspend = .leave → b.pc s.thread = s.base.pc s.thread)
    (hk : s.suspend = .awaiter → ∀ c, s.context = some c → Keeps s.base s.thread c →
      Keeps b s.thread c) : State.Phase { s with base := b } := by
  cases hp : s.suspend <;> simp only [State.Phase, hp] at h ⊢
  case before | returned => exact h
  case awaiter =>
      obtain ⟨h1, h2, h3, h4⟩ := h
      exact ⟨h1, h2, h3, fun c hc => ⟨hk hp c hc (h4 c hc).1, (h4 c hc).2⟩⟩
  case leave =>
      rw [hpc hp]
      exact h

omit [DecidableEq R] [DecidableEq C] [DecidableEq S] in
/-- Before the `co_await` there is no `await_suspend`. -/
theorem State.Phase.before (h : s.Phase) (he : s.coro.early = true) :
    s.suspend = .before ∧ s.handle = .none ∧ s.released = 0 ∧ s.calls = 0 ∧ s.task = false := by
  cases hp : s.suspend <;> simp only [State.Phase, hp] at h
  case before => exact ⟨rfl, h.2⟩
  all_goals simp [he] at h

/-- A busy thread is in a call. -/
theorem Sound.busy_pc {t : Nat} (h : Sound sched s) (hb : s.busy t = true) :
    s.base.pc t ≠ .idle := by
  simp only [State.busy, Await.busy, Bool.or_eq_true, decide_eq_true_eq, Bool.and_eq_true] at hb
  rcases hb with hb | ⟨hb, rfl⟩
  · exact Context.Pc.ne_idle_of_enters (h.entering t hb)
  · have hp := h.phase
    simp only [State.Phase, hb] at hp
    obtain ⟨-, c, -, hl, -⟩ := hp
    exact Context.Pc.ne_idle_of_leaves hl

/-- A step on contexts that is not one of the calls of the `co_await`. -/
theorem Sound.of_base {a : Context.Act (Runnable R) C} (h : Sound sched s)
    (hs : (contexts sched).step s.base a = some b) (hbusy : s.busy a.thread = false)
    (hrestore : ∀ d, a.submits ≠ some (.restore, d))
    (hheld : ∀ t c, s.holds (s.suspend = .awaiter) t c = true → a.leaves ≠ some (t, c)) :
    Sound sched { s with base := b } := by
  have hi := h.inv
  have hpc : ∀ u, s.busy u = true → b.pc u = s.base.pc u := by
    intro u hu
    refine (Context.step_only hs u ?_).1
    rintro rfl
    rw [hbusy] at hu
    cases hu
  have haim : ∀ {d}, Aims s.base .restore d → Aims b .restore d := by
    intro d ha
    exact ha.step hi (fun e he => absurd he (hrestore e)) hs
  exact {
    reach := .step a h.reach trivial hs
    terminated := h.terminated
    active := h.active
    stack := h.stack
    keeps := by
      intro t c ht hc
      refine (h.keeps t c ht hc).step hi (hheld t c ?_) hs
      simp only at ht hc
      simp [Await.holds, ht, hc]
    phase := by
      refine h.phase.of_base (fun hx => hpc _ ?_) fun hp c hc hk => hk.step hi (hheld _ _ ?_) hs
      · simp [State.busy, Await.busy, hx]
      · have hearly : s.coro.early = false := by
          have hph := h.phase
          simp only [State.Phase, hp] at hph
          exact hph.1.1
        simp [Await.holds, hp, h.old hearly, hc]
    old := h.old
    done := fun hd => Context.done_step (h.done hd) hrestore hs
    given := h.given
    task := h.task
    entering := by
      intro t ht
      simp only at ht ⊢
      rw [hpc t (by simp [State.busy, Await.busy, ht])]
      exact h.entering t ht
    fresh := fun hf d => haim (h.fresh hf d)
    aims := fun hf => haim (h.aims hf) }

theorem Sound.other {a : Context.Act (Runnable R) C} (h : Sound sched s) (ha : s.allows a = true)
    (hs : (contexts sched).step s.base a = some b) : Sound sched { s with base := b } := by
  obtain ⟨hbusy, hsub, hleave⟩ := Await.of_allows ha
  exact h.of_base hs hbusy (fun d => hsub _ d rfl) hleave

-- ============================================================================
-- Steps of the coroutine
-- ============================================================================

theorem Sound.start {t : Nat} {c : Option C} (h : Sound sched s) (hc : s.coro = .absent)
    (hp : s.base.pc t = .idle) (ho : ∀ d ∈ c, d ∈ s.base.owned t) :
    Sound sched (State.enter { s with coro := .running t, context := c } t) := by
  obtain ⟨hsus, hh, hrel, hcalls, htask⟩ := h.phase.before (by rw [hc]; rfl)
  have hact : s.active = false := by rw [h.active, hc]; rfl
  have hstack : ∀ u, (s.stack u).count self = 0 := by
    intro u
    rw [h.stack u, hc]
    rfl
  have he : State.enter { s with coro := .running t, context := c } t =
      { s with
        coro := .running t
        context := c
        active := true
        stack := Function.update s.stack t (self :: s.stack t) } := by
    simp [State.enter, Await.enter_of_inactive, hact]
  rw [he]
  exact {
    reach := h.reach
    terminated := h.terminated
    active := rfl
    stack := fun u => by simpa [Coro.listed] using count_enter hstack u
    keeps := by
      rintro u d ⟨⟩ hd
      exact ⟨ho d hd, by simp [hp, Context.Pc.gives]⟩
    phase := by simp [State.Phase, hsus, Coro.early, hh, hrel, hcalls, htask]
    old := by simp [Coro.early]
    done := fun _ => h.done (.inl hh)
    given := fun hg => by simp [hh] at hg
    task := by simp
    entering := fun u hu => by simp [hh] at hu
    fresh := h.fresh
    aims := by simp [Coro.early] }

theorem Sound.coAwait {t : Nat} {ready : Bool} {w : Awaiter} (h : Sound sched s)
    (hc : s.coro = .running t) (htop : (s.stack t).head? = some self) :
    Sound sched (s.coAwait t ready w) := by
  obtain ⟨hsus, hh, hrel, hcalls, htask⟩ := h.phase.before (by rw [hc]; rfl)
  have hfresh := h.fresh (.inl hh)
  have hdone := h.done (.inl hh)
  have hstack : ∀ u, (s.stack u).count self = if t = u then 1 else 0 := by
    intro u
    rw [h.stack u, hc]
    simp [Coro.listed]
  have hkeep : ∀ c, s.context = some c → Keeps s.base t c :=
    fun c hx => h.keeps t c (by rw [hc]; rfl) hx
  unfold State.coAwait
  cases ready with
  | true =>
      exact {
        reach := h.reach
        terminated := h.terminated
        active := by
          rw [show s.active = true by rw [h.active, hc]; rfl]
          simp [Coro.listed, htask]
        stack := fun u => by simp [Coro.listed, htask, hstack]
        keeps := by
          rintro u c ⟨⟩ hx
          exact hkeep c hx
        phase := .inl ⟨rfl, hh, hrel, hcalls, rfl⟩
        old := fun _ => rfl
        done := fun _ => hdone
        given := fun hg => by simp [hh] at hg
        task := by simp
        entering := fun u hu => by simp [hh] at hu
        fresh := fun _ => hfresh
        aims := fun _ => hfresh _ }
  | false =>
      obtain ⟨rest, hrest⟩ : ∃ rest, s.stack t = self :: rest := by
        cases hst : s.stack t <;> simp_all
      simp only [Bool.false_eq_true, if_false, State.leave, Await.leave_of_head, hrest, List.head?_cons, List.tail_cons]
      exact {
        reach := h.reach
        terminated := h.terminated
        active := rfl
        stack := by
          intro u
          have hu := hstack u
          by_cases hut : u = t
          · subst hut
            rw [hrest] at hu
            simpa [Coro.listed] using hu
          · simpa [Coro.listed, hut, Ne.symm hut] using hu
        keeps := by simp [Coro.thread]
        phase := ⟨⟨rfl, rfl, by simp, rfl⟩, hrel, fun _ => hcalls, fun c hx => ⟨hkeep c hx, rfl⟩⟩
        old := fun _ => rfl
        done := fun _ => hdone
        given := fun _ => rfl
        task := fun _ => rfl
        entering := by simp
        fresh := fun _ => hfresh
        aims := fun _ => hfresh _ }

omit [DecidableEq R] [DecidableEq C] [DecidableEq S] in
/-- The phase is that of a coroutine that goes on, or does not. -/
theorem State.Phase.of_coro {q : Coro} {a : Bool} {st : Nat → List Nat} (h : s.Phase)
    (hc : s.coro.early = false) (hq : q.early = false) (ht : q.hasThrown = s.coro.hasThrown)
    (hth : q.thread = s.coro.thread) (hsus : s.coro = .suspended → q = .suspended) :
    State.Phase { s with coro := q, active := a, stack := st } := by
  cases hp : s.suspend <;> simp only [State.Phase, hp] at h ⊢
  case before =>
      rw [hc] at h
      cases h.1
  case awaiter =>
      obtain ⟨⟨-, h2, h3, h4⟩, h5, h6, h7⟩ := h
      exact ⟨⟨hq, ht.trans h2, h3, h4⟩, h5, h6, fun c hx => ⟨(h7 c hx).1, hsus (h7 c hx).2⟩⟩
  case leave =>
      obtain ⟨⟨-, h2, h3, h4⟩, c, h5, h6, h7⟩ := h
      refine ⟨⟨hq, ht.trans h2, h3, h4⟩, c, h5, h6, ?_⟩
      split at h7
      · rename_i hr
        rw [if_pos hr]
        exact ⟨h7.1, hsus h7.2⟩
      · rename_i hr
        rwa [if_neg hr]
  case returned =>
      rcases h with ⟨-, h2, h3, h4, h5⟩ | ⟨⟨-, h2, h3, h4⟩, h5⟩
      · exact .inl ⟨hq, h2, h3, h4, hth.trans h5⟩
      · exact .inr ⟨⟨hq, ht.trans h2, h3, h4⟩, h5⟩

theorem Sound.awaitResume {t : Nat} (h : Sound sched s) (hc : s.coro = .resuming t) :
    Sound sched (let s' := { s with coro := .resumed t }
      if s'.task then s'.enter t else s') := by
  have hearly : s.coro.early = false := by rw [hc]; rfl
  have hne : s.coro ≠ .suspended := by simp [hc]
  have hmake : ∀ a st, a = true → (∀ u, (st u).count self = if t = u then 1 else 0) →
      Sound sched { s with coro := .resumed t, active := a, stack := st } := by
    intro a st ha hst
    exact {
      reach := h.reach
      terminated := h.terminated
      active := ha
      stack := fun u => by simpa [Coro.listed] using hst u
      keeps := fun u c hu hx => h.keeps u c (by rw [hc]; exact hu) hx
      phase := h.phase.of_coro hearly rfl (by rw [hc]; rfl) (by rw [hc]; rfl) fun hx => absurd hx hne
      old := fun _ => h.old hearly
      done := fun _ => h.done (.inr (.inr hne))
      given := fun hg => absurd (h.given hg) hne
      task := by simp
      entering := h.entering
      fresh := h.fresh
      aims := fun _ => h.aims hearly }
  have hact := h.active
  have hstack := h.stack
  rw [hc] at hact hstack
  by_cases htask : s.task = true
  · simp only [htask, Coro.listed, if_true, Option.isSome_none] at hact hstack
    have he : (let s' := { s with coro := .resumed t }
        if s'.task then s'.enter t else s') =
        { s with
          coro := .resumed t
          active := true
          stack := Function.update s.stack t (self :: s.stack t) } := by
      simp [State.enter, Await.enter_of_inactive, hact, htask]
    rw [he]
    exact hmake true _ rfl (count_enter fun u => by simpa using hstack u)
  · simp only [htask, Coro.listed] at hact hstack
    have he : (let s' := { s with coro := .resumed t }
        if s'.task then s'.enter t else s') =
        { s with coro := .resumed t, active := s.active, stack := s.stack } := by
      simp [htask]
    rw [he]
    exact hmake s.active s.stack (by rw [hact]; rfl) fun u => by simpa using hstack u

/-- The awaiter did not suspend. -/
theorem Sound.staysAwake (h : Sound sched s) (hp : s.suspend = .awaiter)
    (hg : s.handle = .given) :
    Sound sched { s with handle := .none, suspend := .returned, coro := .resuming s.thread } := by
  have hph := h.phase
  simp only [State.Phase, hp] at hph
  obtain ⟨⟨hearly, -, -, htask⟩, hrel, hcalls, hold⟩ := hph
  have hc := h.given hg
  have hact := h.active
  have hstack := h.stack
  rw [hc] at hact hstack
  exact {
    reach := h.reach
    terminated := h.terminated
    active := by simpa [Coro.listed, htask] using hact
    stack := fun u => by simpa [Coro.listed, htask] using hstack u
    keeps := by
      rintro t c ⟨⟩ hx
      exact (hold c hx).1
    phase := .inl ⟨rfl, rfl, hrel, hcalls hg, rfl⟩
    old := fun _ => h.old hearly
    done := fun _ => h.done (.inr (.inl hg))
    given := by simp
    task := by simp
    entering := by simp
    fresh := fun _ => h.fresh (.inr hg)
    aims := fun _ => h.fresh (.inr hg) _ }

theorem Sound.throws (h : Sound sched s) (hp : s.suspend = .awaiter) (hg : s.handle = .given) :
    Sound sched { s.enter s.thread with
      task := false, handle := .none, suspend := .returned, coro := .threw s.thread } := by
  have hph := h.phase
  simp only [State.Phase, hp] at hph
  obtain ⟨⟨hearly, -, -, htask⟩, hrel, hcalls, hold⟩ := hph
  have hc := h.given hg
  have hact := h.active
  have hstack := h.stack
  rw [hc] at hact hstack
  have hact : s.active = false := hact
  simp only [State.enter, Await.enter_of_inactive, hact]
  exact {
    reach := h.reach
    terminated := h.terminated
    active := rfl
    stack := fun u => by
      simpa [Coro.listed] using count_enter (fun v => by simpa [Coro.listed] using hstack v) u
    keeps := by
      rintro t c ⟨⟩ hx
      exact (hold c hx).1
    phase := .inl ⟨rfl, rfl, hrel, hcalls hg, rfl⟩
    old := fun _ => h.old hearly
    done := fun _ => h.done (.inr (.inl hg))
    given := by simp
    task := by simp
    entering := by simp
    fresh := fun _ => h.fresh (.inr hg)
    aims := fun _ => h.fresh (.inr hg) _ }

-- ============================================================================
-- Calls on contexts
-- ============================================================================

/-- A step of a call after which the coroutine is where it was. -/
theorem Sound.continues {hd : Handle} {p : Suspend} {n m : Nat} (h : Sound sched s)
    (hearly : s.coro.early = false) (hreach : (contexts sched).Reachable b)
    (hkeep : ∀ t c, s.coro.thread = some t → s.context = some c → Keeps b t c)
    (hphase : State.Phase { s with base := b, handle := hd, suspend := p, released := n, calls := m })
    (hdone : hd = .none ∨ hd = .given ∨ s.coro ≠ .suspended → b.status .restore = .done)
    (hgiven : hd = .given → s.coro = .suspended)
    (hent : ∀ t, hd = .entering t → (b.pc t).enters s.context .restore)
    (hfresh : hd = .none ∨ hd = .given → ∀ d, Aims b .restore d)
    (haims : Aims b .restore s.context) :
    Sound sched { s with base := b, handle := hd, suspend := p, released := n, calls := m } where
  reach := hreach
  terminated := h.terminated
  active := h.active
  stack := h.stack
  keeps := hkeep
  phase := hphase
  old := fun _ => h.old hearly
  done := hdone
  given := hgiven
  task := h.task
  entering := hent
  fresh := hfresh
  aims := fun _ => haims

/-- The context is not locked by the `co_await` any more. -/
def State.Unlocked (s : State R C S) : Prop :=
  ∀ c, s.context = some c → s.suspend ≠ .awaiter ∧
    (s.suspend = .leave → (s.base.pc s.thread).releases = none)

/-- The coroutine goes on in a thread that owns the context. -/
theorem Sound.resumes {t : Nat} {x : Bool} (h : Sound sched s) (hc : s.coro = .suspended)
    (hkeep : ∀ c, s.context = some c → Keeps s.base t c) (hunlocked : s.Unlocked)
    (hdone : s.base.status .restore = .done) (hgiven : s.handle ≠ .given)
    (hnone : s.handle ≠ .none) :
    Sound sched { s with scheduled := x, coro := .resuming t } := by
  have hearly : s.coro.early = false := by rw [hc]; rfl
  have htask := h.task hc
  have hact := h.active
  have hstack := h.stack
  have hph := h.phase
  rw [hc] at hact hstack
  have hphase : State.Phase { s with scheduled := x, coro := .resuming t } := by
    cases hp : s.suspend <;> simp only [State.Phase, hp] at hph ⊢
    case before =>
        rw [hearly] at hph
        cases hph.1
    case awaiter =>
        obtain ⟨⟨-, h2, h3, h4⟩, h5, h6, h7⟩ := hph
        exact ⟨⟨rfl, rfl, h3, h4⟩, h5, h6, fun c hx => absurd hp (hunlocked c hx).1⟩
    case leave =>
        obtain ⟨⟨-, h2, h3, h4⟩, c, h5, h6, h7⟩ := hph
        have hnone := (hunlocked c h5).2 hp
        rw [hnone] at h7
        exact ⟨⟨rfl, rfl, h3, h4⟩, c, h5, h6, by rw [hnone]; exact h7⟩
    case returned =>
        rcases hph with ⟨-, h2, -, -, -⟩ | ⟨⟨-, h2, h3, h4⟩, h5⟩
        · exact absurd h2 hnone
        · exact .inr ⟨⟨rfl, rfl, h3, h4⟩, h5⟩
  exact {
    reach := h.reach
    terminated := h.terminated
    active := by simpa [Coro.listed, htask] using hact
    stack := fun u => by simpa [Coro.listed, htask] using hstack u
    keeps := by
      rintro u c ⟨⟩ hx
      exact hkeep c hx
    phase := hphase
    old := fun _ => h.old hearly
    done := fun _ => hdone
    given := fun hg => absurd hg hgiven
    task := by simp
    entering := h.entering
    fresh := h.fresh
    aims := fun _ => h.aims hearly }

omit [DecidableEq R] [DecidableEq C] [DecidableEq S] in
/-- The handle given to the awaiter is used. -/
theorem State.Phase.used {hd : Handle} {m : Nat} (h : s.Phase) (h1 : s.handle ≠ .none)
    (h2 : hd ≠ .none) (h3 : hd ≠ .given) : State.Phase { s with handle := hd, calls := m } := by
  cases hp : s.suspend <;> simp only [State.Phase, hp] at h ⊢
  case before => exact absurd h.2.1 h1
  case awaiter =>
      exact ⟨⟨h.1.1, h.1.2.1, h2, h.1.2.2.2⟩, h.2.1, fun hx => absurd hx h3, h.2.2.2⟩
  case leave => exact ⟨⟨h.1.1, h.1.2.1, h2, h.1.2.2.2⟩, h.2⟩
  case returned =>
      rcases h with h | h
      · exact absurd h.2.1 h1
      · exact .inr ⟨⟨h.1.1, h.1.2.1, h2, h.1.2.2.2⟩, h.2⟩

/-- The awaiter suspended, and `await_suspend` leaves the context. -/
theorem Sound.leaves (h : Sound sched s) (hp : s.suspend = .awaiter)
    (hs : (contexts sched).step s.base (.leave s.thread s.old) = some b) :
    Sound sched (State.leaveContext { s with base := b, calls := s.calls + 1 }) := by
  have hi := h.inv
  have hph := h.phase
  simp only [State.Phase, hp] at hph
  obtain ⟨⟨hearly, hthrown, hhandle, htask⟩, hrel, -, hold⟩ := hph
  rw [h.old hearly] at hs
  have hidle : s.base.pc s.thread = .idle := Context.step_idle (by simp) hs
  have hsub : ∀ d, (Context.Act.leave s.thread s.context : Context.Act (Runnable R) C).submits ≠
      some (.restore, d) := by simp [Context.Act.submits]
  have haim : ∀ {d}, Aims s.base .restore d → Aims b .restore d :=
    fun ha => ha.step hi (fun e he => absurd he (hsub e)) hs
  have hkeep : ∀ t c, s.coro.thread = some t → s.context = some c → Keeps b t c := by
    intro t c ht hc
    rw [(hold c hc).2] at ht
    cases ht
  have hent : ∀ t, s.handle = .entering t → (b.pc t).enters s.context .restore := by
    intro t ht
    rw [(Context.step_only hs t ?_).1]
    · exact h.entering t ht
    · intro hx
      obtain rfl : t = s.thread := hx
      exact h.busy_pc (by simp [State.busy, Await.busy, ht]) hidle
  have hmake : ∀ p, State.Phase { s with base := b, suspend := p, calls := s.calls + 1 } →
      Sound sched { s with base := b, suspend := p, calls := s.calls + 1 } := by
    intro p hphase
    exact h.continues hearly (.step _ h.reach trivial hs) hkeep hphase
      (fun hx => Context.done_step (h.done hx) hsub hs) h.given hent
      (fun hx d => haim (h.fresh hx d)) (haim (h.aims hearly))
  obtain ⟨c, hc, hl, hr⟩ | ⟨hb, hn⟩ := Context.leave_starts hs
  · have hne : b.pc s.thread ≠ .idle := Context.Pc.ne_idle_of_leaves hl
    simp only [State.leaveContext, hne, if_false]
    exact hmake .leave ⟨⟨hearly, hthrown, hhandle, htask⟩, c, hc, hl, by
      rw [hr]
      exact ⟨hrel, (hold c hc).2⟩⟩
  · simp only [State.leaveContext, hb, if_true]
    exact hmake .returned (.inr ⟨⟨hearly, hthrown, hhandle, htask⟩, by simp [hn, hrel]⟩)

/-- A step of `leave(context)`. -/
theorem Sound.leaveStep {k : Context.Choice (Runnable R)} (h : Sound sched s)
    (hp : s.suspend = .leave) (hs : stepThread sched s.base s.thread k = some b) :
    Sound sched (State.leaveContext { s with
      base := b
      released := s.released + (s.base.pc s.thread).releases.toList.length }) := by
  have hi := h.inv
  have hstep := Context.stepThread_cases hs
  have hact : (contexts sched).step s.base (.step s.thread k) = some b := hs
  have hph := h.phase
  simp only [State.Phase, hp] at hph
  obtain ⟨hbits, c, hc, hlv, hrel⟩ := hph
  have haim : ∀ {d}, Aims s.base .restore d → Aims b .restore d :=
    fun ha => hstep.aims (hi.pc _) ha
  have hrel' : s.released + (s.base.pc s.thread).releases.toList.length = 1 := by
    cases hr : (s.base.pc s.thread).releases with
    | none => simpa [hr] using hrel
    | some d =>
        rw [hr] at hrel
        simp [show s.released = 0 from hrel.1]
  have hent : ∀ t, s.handle = .entering t → (b.pc t).enters s.context .restore := by
    intro t ht
    have he := h.entering t ht
    rw [(hstep.only t ?_).1]
    · exact he
    · rintro rfl
      exact Context.Pc.not_leaves_of_enters he hlv
  have hmake : ∀ p, State.Phase { s with
        base := b
        released := s.released + (s.base.pc s.thread).releases.toList.length
        suspend := p } → Sound sched { s with
        base := b
        released := s.released + (s.base.pc s.thread).releases.toList.length
        suspend := p } := by
    intro p hphase
    exact h.continues hbits.1 (.step _ h.reach trivial hact)
      (fun t c ht hx => hstep.keeps hi (h.keeps t c ht hx)) hphase
      (fun hx => hstep.done (h.done hx)) h.given hent (fun hx d => haim (h.fresh hx d))
      (haim (h.aims hbits.1))
  obtain ⟨hl, hr⟩ | hb := hstep.leaves hlv
  · have hidle : b.pc s.thread ≠ .idle := Context.Pc.ne_idle_of_leaves hl
    simp only [State.leaveContext, hidle, if_false]
    refine hmake .leave ⟨hbits, c, hc, hl, ?_⟩
    simp only [hr]
    exact hrel'
  · simp only [State.leaveContext, hb, if_true]
    exact hmake .returned (.inr ⟨hbits, by simp [hc, hrel']⟩)

/-- As long as the `co_await` has not released the context, its thread owns it. -/
theorem Sound.locked {c : C} (h : Sound sched s) (hc : s.context = some c)
    (hp : s.suspend = .awaiter ∨
      s.suspend = .leave ∧ (s.base.pc s.thread).releases ≠ none) :
    c ∈ s.base.owned s.thread := by
  have hph := h.phase
  rcases hp with hp | ⟨hp, hr⟩ <;> simp only [State.Phase, hp] at hph
  · exact (hph.2.2.2 c hc).1.owned
  · obtain ⟨-, d, hd, hl, -⟩ := hph
    obtain rfl : c = d := Option.some.inj (hc.symm.trans hd)
    obtain ⟨e, he⟩ := Option.ne_none_iff_exists'.mp hr
    have hown := h.inv.owned_of_releases he
    have hec : e = c := by
      cases hpc : s.base.pc s.thread <;> rw [hpc] at hl he <;> cases he
      case leavePop d after => cases after <;> first | exact hl | exact hl.elim
      case transferPop => exact hl.elim
    exact hec ▸ hown

/-- A thread resumes the wrapped handle. -/
theorem Sound.resume {t : Nat} (h : Sound sched s) (hg : s.handle = .given)
    (hs : (contexts sched).step s.base (.enter t s.context .restore false) = some b) :
    Sound sched (State.restoreTask { s with base := b, calls := s.calls + 1 } t) := by
  have hi := h.inv
  have hc := h.given hg
  have hearly : s.coro.early = false := by rw [hc]; rfl
  have hidle : s.base.pc t = .idle := Context.step_idle (by simp) hs
  have haim : Aims b .restore s.context :=
    (h.fresh (.inr hg) s.context).step hi (by simp [Context.Act.submits]) hs
  have hphase : State.Phase { s with base := b } := by
    refine h.phase.of_base ?_ fun _ c _ hk => hk.step hi (by simp [Context.Act.leaves]) hs
    intro hp
    refine (Context.step_only hs s.thread ?_).1
    intro hx
    have hx : s.thread = t := hx
    exact h.busy_pc (by simp [State.busy, Await.busy, hp]) (hx ▸ hidle)
  have hmake : ∀ hd, hd ≠ .none → hd ≠ .given →
      (∀ u, hd = .entering u → (b.pc u).enters s.context .restore) →
      Sound sched { s with base := b, handle := hd, calls := s.calls + 1 } := by
    intro hd h1 h2 hent
    refine h.continues hearly (.step _ h.reach trivial hs) ?_
      (hphase.used (by simp [hg]) h1 h2) ?_ (fun hx => absurd hx h2) hent ?_ haim
    · intro u c hu
      rw [hc] at hu
      cases hu
    · rintro (hx | hx | hx)
      · exact absurd hx h1
      · exact absurd hx h2
      · exact absurd hc hx
    · rintro (hx | hx)
      · exact absurd hx h1
      · exact absurd hx h2
  obtain ⟨he, -⟩ | ⟨hb, hn, hl⟩ := Context.enter_starts hs
  · have hne : b.pc t ≠ .idle := Context.Pc.ne_idle_of_enters he
    rw [State.restoreTask, Await.restoreTask_of_call hne]
    refine hmake (.entering t) (by simp) (by simp) ?_
    rintro u ⟨⟩
    exact he
  · rw [State.restoreTask, Await.restoreTask_of_log hb hl]
    have hbase := hmake .used (by simp) (by simp) (by simp)
    obtain ⟨hk, hre⟩ := Context.keeps_of_true hi hs hl hb
    refine hbase.resumes hc hk (fun c hx => ?_) hre (by simp) (by simp)
    simp [hn] at hx

/-- A step of the call of the wrapped handle. -/
theorem Sound.enterStep {t : Nat} {k : Context.Choice (Runnable R)} (h : Sound sched s)
    (hh : s.handle = .entering t) (hs : stepThread sched s.base t k = some b) :
    Sound sched (State.restoreTask { s with base := b } t) := by
  have hi := h.inv
  have hstep := Context.stepThread_cases hs
  have hact : (contexts sched).step s.base (.step t k) = some b := hs
  have hent := h.entering t hh
  have hearly : s.coro.early = false := by
    cases hx : s.coro.early with
    | false => rfl
    | true => simp [(h.phase.before hx).2.1] at hh
  have haim : ∀ {d}, Aims s.base .restore d → Aims b .restore d :=
    fun ha => hstep.aims (hi.pc t) ha
  -- the thread of `leave` is another one
  have hother : s.suspend = .leave → s.thread ≠ t := by
    rintro hp rfl
    have hph := h.phase
    simp only [State.Phase, hp] at hph
    obtain ⟨-, c, -, hl, -⟩ := hph
    exact Context.Pc.not_leaves_of_enters hent hl
  have hphase : State.Phase { s with base := b } :=
    h.phase.of_base (fun hp => (hstep.only s.thread (hother hp)).1)
      fun _ c _ hk => hstep.keeps hi hk
  have hmake : ∀ hd, hd ≠ .none → hd ≠ .given →
      (∀ u, hd = .entering u → (b.pc u).enters s.context .restore) →
      Sound sched { s with base := b, handle := hd } := by
    intro hd h1 h2 hent
    refine h.continues hearly (.step _ h.reach trivial hact) ?_
      (hphase.used (by simp [hh]) h1 h2) ?_ (fun hx => absurd hx h2) hent ?_ (haim (h.aims hearly))
    · intro u c hu hx
      exact hstep.keeps hi (h.keeps u c hu hx)
    · rintro (hx | hx | hx)
      · exact absurd hx h1
      · exact absurd hx h2
      · exact hstep.done (h.done (.inr (.inr hx)))
    · rintro (hx | hx)
      · exact absurd hx h1
      · exact absurd hx h2
  obtain ⟨he, -, -⟩ | ⟨hb, res, hl⟩ := hstep.enters hent
  · have hne : b.pc t ≠ .idle := Context.Pc.ne_idle_of_enters he
    rw [State.restoreTask, Await.restoreTask_of_call hne]
    refine hmake (.entering t) (by simp) (by simp) ?_
    rintro u ⟨⟩
    exact he
  · rw [State.restoreTask, Await.restoreTask_of_log hb hl]
    have hbase := hmake .used (by simp) (by simp) (by simp)
    cases res with
    | false => exact hbase
    | true =>
        have hc : s.coro = .suspended := by
          by_contra hx
          exact hstep.pending hi hl (h.done (.inr (.inr hx)))
        obtain ⟨hk, hre⟩ := Context.keeps_of_true hi hact hl hb
        refine hbase.resumes hc hk (fun c hx => ?_) hre (by simp) (by simp)
        have hi' := Context.step_inv hi hact
        have hnew := (hi'.core.owned t c).mp (hk c hx).owned
        rw [show s.context = some c from hx] at hent
        -- the context would have been entered while it was locked
        constructor
        · intro hp
          have hph := h.phase
          simp only [State.Phase, show s.suspend = .awaiter from hp] at hph
          have hold := (hph.2.2.2 c hx).1
          rw [(hi'.core.owned s.thread c).mp (hstep.keeps hi hold).owned] at hnew
          obtain rfl := Context.Owner.thread.inj hnew
          exact hold.pc (hstep.enters_true hent hl)
        · intro hp
          have hp : s.suspend = .leave := hp
          by_contra hr
          have hpc := hstep.only s.thread (hother hp)
          have hown := h.locked hx (.inr ⟨hp, by rw [← hpc.1]; exact hr⟩)
          rw [← hpc.2] at hown
          rw [(hi'.core.owned s.thread c).mp hown] at hnew
          exact hother hp (Context.Owner.thread.inj hnew)

/-- The runnable of the awaiter that is queued resumes the coroutine. -/
theorem Sound.queued {e : Context.Entry (Runnable R) C} (h : Sound sched s)
    (he : e.runnable = .restore) (hq : e ∈ s.base.queue (sched e.context)) :
    s.coro = .suspended ∧ s.context = some e.context ∧ s.handle ≠ .none ∧ s.handle ≠ .given := by
  have hi := h.inv
  obtain ⟨-, hplace, -⟩ := hi.core.queue _ e hq
  have hpend : s.base.status .restore ≠ .done := by
    intro hd
    rw [he, (hi.core.done _).mp hd] at hplace
    cases hplace
  have hc : s.coro = .suspended := by
    by_contra hx
    exact hpend (h.done (.inr (.inr hx)))
  exact ⟨hc, (h.aims (by rw [hc]; rfl)).queue _ e hq he, fun hx => hpend (h.done (.inl hx)),
    fun hx => hpend (h.done (.inr (.inl hx)))⟩

/-- A thread runs the runnable. -/
theorem Sound.run {t : Nat} {x : Bool} {e : Context.Entry (Runnable R) C} (h : Sound sched s)
    (he : e.runnable = .restore) (hs : (contexts sched).step s.base (.run t e) = some b) :
    Sound sched { s with base := b, scheduled := x, coro := .resuming t } := by
  have hi := h.inv
  have hidle : s.base.pc t = .idle := Context.step_idle (by simp) hs
  have hbusy : s.busy t = false := by
    cases hb : s.busy t with
    | false => rfl
    | true => exact absurd hidle (h.busy_pc hb)
  have hbase : Sound sched { s with base := b } :=
    h.of_base hs hbusy (by simp [Context.Act.submits]) (by simp [Context.Act.leaves])
  have honly := Context.step_only hs
  simp only [contexts] at hs
  split at hs
  swap
  · cases hs
  rename_i hq
  obtain ⟨-, -, howner⟩ := hi.core.queue _ e hq.2
  obtain ⟨hc, hcontext, hnone, hgiven⟩ := h.queued he hq.2
  have hdone : b.status e.runnable = .done := by
    cases hs
    simp
  have hown : e.context ∈ b.owned t := by
    cases hs
    simp
  have hpc : b.pc = s.base.pc := by
    cases hs
    rfl
  rw [he] at hdone
  refine hbase.resumes hc (fun c hx => ?_) (fun c hx => ?_) hdone hgiven hnone
  · obtain rfl : e.context = c := Option.some.inj (hcontext.symm.trans hx)
    exact ⟨hown, by simp [hpc, hidle, Context.Pc.gives]⟩
  · -- the context is the entry's, not the thread's of the `co_await`
    have hnot : e.context ∉ s.base.owned s.thread := by
      intro hx
      rw [(hi.core.owned _ _).mp hx] at howner
      cases howner
    refine ⟨fun hp => hnot (h.locked hcontext (.inl hp)), fun hp => ?_⟩
    by_contra hr
    exact hnot (h.locked hcontext (.inr ⟨hp, by rw [← hpc]; exact hr⟩))

-- ============================================================================
-- Every run
-- ============================================================================

/-- Another task enters or leaves a thread's stack. -/
theorem Sound.of_stack {st : Nat → List Nat} (h : Sound sched s)
    (hst : ∀ u, (st u).count self = (s.stack u).count self) : Sound sched { s with stack := st } :=
  { h with stack := fun u => (hst u).trans (h.stack u) }

theorem step_sound {a : Act R C} (h : Sound sched s)
    (hs : (sameContext sched).step s a = some s') : Sound sched s' := by
  simp only [sameContext] at hs
  rw [if_neg (by simp [h.terminated])] at hs
  cases a <;> simp only at hs
  case start t c =>
      split at hs <;> cases hs
      rename_i hc
      exact h.start hc.1 hc.2.1 hc.2.2
  case coAwait ready w =>
      split at hs
      · rename_i t hc
        split at hs <;> cases hs
        rename_i htop
        exact h.coAwait hc htop
      · cases hs
  case suspended b =>
      split at hs
      · cases hs
      · rename_i hp
        have hp := not_not.mp hp
        split at hs
        · obtain ⟨c, hc, rfl⟩ := Option.map_eq_some_iff.mp hs
          exact h.leaves hp hc
        · split at hs <;> cases hs
          rename_i hg
          exact h.staysAwake hp hg.2
  case throws =>
      split at hs <;> cases hs
      rename_i hc
      exact h.throws hc.1 hc.2
  case resume t =>
      split at hs
      · rename_i hg
        obtain ⟨c, hc, rfl⟩ := Option.map_eq_some_iff.mp hs
        exact h.resume hg hc
      · cases hs
  case suspendStep k =>
      split at hs
      · rename_i hp
        obtain ⟨c, hc, rfl⟩ := Option.map_eq_some_iff.mp hs
        exact h.leaveStep hp hc
      · cases hs
  case enterStep k =>
      split at hs
      · rename_i hh
        obtain ⟨c, hc, rfl⟩ := Option.map_eq_some_iff.mp hs
        exact h.enterStep hh hc
      · cases hs
  case run t e =>
      split at hs
      · rename_i he
        obtain ⟨c, hc, rfl⟩ := Option.map_eq_some_iff.mp hs
        exact h.run he hc
      · cases hs
  case awaitResume =>
      split at hs <;> cases hs
      rename_i hc
      exact h.awaitResume hc
  case other a =>
      split at hs
      · rename_i ha
        obtain ⟨c, hc, rfl⟩ := Option.map_eq_some_iff.mp hs
        exact h.other ha hc
      · cases hs
  case otherEnter t i =>
      split at hs <;> cases hs
      rename_i hi
      refine h.of_stack fun u => ?_
      by_cases hu : u = t
      · subst hu
        simp [hi]
      · simp [hu]
  case otherLeave t =>
      split at hs
      · rename_i i rest hst
        split at hs <;> cases hs
        rename_i hi
        refine h.of_stack fun u => ?_
        by_cases hu : u = t
        · subst hu
          simp [hst, hi]
        · simp [hu]
      · cases hs

theorem reachable_sound (h : (sameContext sched).Reachable s) : Sound sched s := by
  refine h.invariant ?_ fun s a s' hi _ hs => step_sound hi hs
  rintro s rfl
  exact start_sound

-- ============================================================================
-- What a caller sees
-- ============================================================================

/-- Nobody but thread `t` has the context. -/
structure OnlyOwner (s : Context.State (Runnable R) C S) (t : Nat) (c : C) : Prop where
  owned : c ∈ s.owned t
  thread : ∀ u, c ∈ s.owned u → u = t
  queue : ∀ q, ∀ e ∈ s.queue q, e.context ≠ c

theorem Sound.onlyOwner {t : Nat} {c : C} (h : Sound sched s) (ht : s.coro.thread = some t)
    (hc : s.context = some c) : OnlyOwner s.base t c := by
  have hi := h.inv
  have hown := (h.keeps t c ht hc).owned
  have howner := (hi.core.owned t c).mp hown
  refine ⟨hown, fun u hu => ?_, fun q e he hec => ?_⟩
  · have hu' := (hi.core.owned u c).mp hu
    rw [howner] at hu'
    exact (Context.Owner.thread.inj hu').symm
  · have hq := (hi.core.queue q e he).2.2
    rw [hec, howner] at hq
    cases hq

/-- How often the context was released, by the place of `await_suspend`. -/
theorem Sound.released (h : Sound sched s) : s.released ≤ 1 ∧
    (s.suspend = .returned → s.handle ≠ .none → ∀ c, s.context = some c → s.released = 1) ∧
    (s.handle ≠ .none → s.coro ≠ .suspended → ∀ c, s.context = some c → s.released = 1) := by
  have hph := h.phase
  cases hp : s.suspend <;> simp only [State.Phase, hp] at hph
  case before =>
      refine ⟨by omega, by simp, fun hn => absurd hph.2.1 hn⟩
  case awaiter =>
      obtain ⟨-, hrel, -, hold⟩ := hph
      exact ⟨by omega, by simp, fun _ hc c hx => absurd (hold c hx).2 hc⟩
  case leave =>
      obtain ⟨-, c, -, -, hrel⟩ := hph
      split at hrel
      · exact ⟨by omega, by simp, fun _ hc => absurd hrel.2 hc⟩
      · exact ⟨by omega, by simp, fun _ _ _ _ => hrel⟩
  case returned =>
      rcases hph with ⟨-, hn, hrel, -⟩ | ⟨-, hrel⟩
      · exact ⟨by omega, fun _ hx => absurd hn hx, fun hx => absurd hn hx⟩
      · have hone : ∀ c, s.context = some c → s.released = 1 := fun c hc => by
          rw [hrel, hc]
          rfl
        refine ⟨?_, fun _ _ => hone, fun _ _ => hone⟩
        rw [hrel]
        split <;> omega

theorem awaitResume_stack (h : Sound sched s) (ht : s.task = true)
    (hs : (sameContext sched).step s .awaitResume = some s') :
    ∃ t, s'.coro = .resumed t ∧ s'.stack t = self :: s.stack t := by
  simp only [sameContext] at hs
  rw [if_neg (by simp [h.terminated])] at hs
  split at hs <;> cases hs
  rename_i t hc
  have hact := h.active
  rw [hc] at hact
  simp only [ht, Coro.listed, if_true, Option.isSome_none] at hact
  refine ⟨t, ?_, ?_⟩ <;> simp [ht, State.enter, Await.enter, hact]

theorem throws_stack (h : Sound sched s) (hs : (sameContext sched).step s .throws = some s') :
    s'.coro = .threw s.thread ∧ s'.stack s.thread = self :: s.stack s.thread ∧
      s'.base = s.base ∧ s'.context = s.context := by
  simp only [sameContext] at hs
  rw [if_neg (by simp [h.terminated])] at hs
  split at hs <;> cases hs
  rename_i hc
  have hact := h.active
  rw [h.given hc.2] at hact
  have hact : s.active = false := hact
  refine ⟨rfl, ?_, ?_, ?_⟩ <;> simp [State.enter, Await.enter_of_inactive, hact]

theorem awake_unchanged (h : Sound sched s)
    (hs : (sameContext sched).step s (.suspended false) = some s') :
    s'.coro = .resuming s.thread ∧ s'.task = true ∧ s'.base = s.base ∧ s'.context = s.context := by
  simp only [sameContext] at hs
  rw [if_neg (by simp [h.terminated])] at hs
  split at hs
  · cases hs
  · rename_i hp
    have hp := not_not.mp hp
    have hph := h.phase
    simp only [State.Phase, hp] at hph
    simp only [Bool.false_eq_true, if_false] at hs
    split at hs <;> cases hs
    exact ⟨rfl, hph.1.2.2.2, rfl, rfl⟩

/-- In every run the context is released at most once, and once if the
    coroutine suspended and `await_suspend` returned.  A coroutine that goes on
    has the context for itself, after the release if it suspended.  If the
    awaiter did not suspend or threw, neither the `co_await` nor the wrapped
    handle called `async_context_manager`, and the task is on top of the stack
    of the same thread, with the context it had. -/
theorem sameContext_once (sched : C → S) :
    (∀ s : State R C S, (sameContext sched).Reachable s →
      s.terminated = false ∧ s.released ≤ 1 ∧
      (s.suspend = .returned → s.handle ≠ .none → ∀ c, s.context = some c → s.released = 1)) ∧
    (∀ s : State R C S, (sameContext sched).Reachable s → ∀ t c,
      s.coro = .resuming t ∨ s.coro = .resumed t ∨ s.coro = .threw t → s.context = some c →
      OnlyOwner s.base t c ∧ (s.handle ≠ .none → s.released = 1)) ∧
    (∀ s : State R C S, (sameContext sched).Reachable s →
      s.suspend = .returned → s.handle = .none →
      s.coro.thread = some s.thread ∧ s.context = s.old ∧ s.released = 0 ∧ s.calls = 0 ∧
      s.base.status .restore = .done ∧
      ∀ c, s.context = some c → OnlyOwner s.base s.thread c) ∧
    (∀ s s' : State R C S, (sameContext sched).Reachable s →
      ((sameContext sched).step s .awaitResume = some s' → s.task = true →
        ∃ t, s'.coro = .resumed t ∧ s'.stack t = self :: s.stack t) ∧
      ((sameContext sched).step s (.suspended false) = some s' →
        s'.coro = .resuming s.thread ∧ s'.task = true ∧ s'.base = s.base ∧
          s'.context = s.context) ∧
      ((sameContext sched).step s .throws = some s' →
        s'.coro = .threw s.thread ∧ s'.stack s.thread = self :: s.stack s.thread ∧
          s'.base = s.base ∧ s'.context = s.context)) := by
  refine ⟨?_, ?_, ?_, ?_⟩
  · intro s hr
    have h := reachable_sound hr
    exact ⟨h.terminated, h.released.1, h.released.2.1⟩
  · intro s hr t c ht hc
    have h := reachable_sound hr
    have hthread : s.coro.thread = some t := by
      rcases ht with ht | ht | ht <;> rw [ht] <;> rfl
    have hne : s.coro ≠ .suspended := by
      intro hx
      rw [hx] at hthread
      cases hthread
    exact ⟨h.onlyOwner hthread hc, fun hn => h.released.2.2 hn hne c hc⟩
  · intro s hr hp hn
    have h := reachable_sound hr
    have hph := h.phase
    simp only [State.Phase, hp] at hph
    rcases hph with ⟨hearly, -, hrel, hcalls, hth⟩ | ⟨⟨-, -, hh, -⟩, -⟩
    · exact ⟨hth, (h.old hearly).symm, hrel, hcalls, h.done (.inl hn),
        fun c hc => h.onlyOwner hth hc⟩
    · exact absurd hn hh
  · intro s s' hr
    have h := reachable_sound hr
    exact ⟨fun hs ht => awaitResume_stack h ht hs, fun hs => awake_unchanged h hs,
      fun hs => throws_stack h hs⟩

end Steps

end Coroactors.Async.Same
