/-
  Coroactors.Context.Calls

  What a caller of `async_context_manager` can rely on while its call and those
  of other threads go on: its runnable runs in the context it was submitted to
  (`Aims`), a runnable that is not pending is not made so by others, the thread
  keeps the contexts that no call of its own gives up (`Keeps`), and a call of
  `enter`, `transfer` or `leave` ends with its own answer (`Pc.enters`,
  `Pc.transfers`, `Pc.leaves`).
-/

import Coroactors.Context.Isolation
import Coroactors.Context.Steps

namespace Coroactors.Context

open Coroactors.Conc

variable {R C S : Type*} {s s' : State R C S} {t : Nat}

-- ============================================================================
-- Where a runnable runs
-- ============================================================================

/-- What the thread does with `r` ends in the context `b`. -/
def Pc.aims (r : R) (b : Option C) : Pc R C → Prop
  | .idle => True
  | .enterPush c x _ | .enterPublish c x _ | .enterPop c x _ | .same c x | .preempt c x =>
      x = r → b = some c
  | .enterNext c x _ next => (x = r → b = some c) ∧ (next = r → b = some c)
  | .leavePop _ after => after = some r → b = none
  | .leavePost c next after => (next = r → b = some c) ∧ (after = some r → b = none)
  | .transferPop _ x => x.r = r → b = some x.toContext
  | .transferPush x | .transferPublish x | .transferNextPop x =>
      (x.r = r → b = some x.toContext) ∧ (x.more = some r → b = x.fromContext)
  | .transferNext x next =>
      (x.r = r → b = some x.toContext) ∧ (x.more = some r → b = x.fromContext) ∧
        (next = r → b = some x.toContext)
  | .transferMore _ c more x _ => (x.r = r → b = some x.toContext) ∧ (more = r → b = some c)

/-- Wherever `r` is, it runs in the context `b`. -/
structure Aims (s : State R C S) (r : R) (b : Option C) : Prop where
  box : ∀ c, r ∈ (s.box c).items → b = some c
  queue : ∀ q, ∀ e ∈ s.queue q, e.runnable = r → b = some e.context
  pc : ∀ t, (s.pc t).aims r b

theorem Aims.goto {r : R} {b : Option C} {q : Pc R C} (h : Aims s r b) (hq : q.aims r b) :
    Aims (s.goto t q) r b := by
  refine ⟨h.box, h.queue, fun u => ?_⟩
  by_cases hu : u = t
  · subst hu
    simpa [State.goto] using hq
  · simpa [State.goto, hu] using h.pc u

/-- What takes nothing but runnables from a mailbox. -/
theorem Aims.of_items {r : R} {b : Option C} {s₁ : State R C S} (h : Aims s r b)
    (hi : ∀ c, ∀ x ∈ (s₁.box c).items, x ∈ (s.box c).items) (hq : s₁.queue = s.queue)
    (hp : s₁.pc = s.pc) : Aims s₁ r b := by
  refine ⟨fun c hc => h.box c (hi c r hc), ?_, ?_⟩
  · rw [hq]
    exact h.queue
  · rw [hp]
    exact h.pc

/-- The runnable a pop returns runs in the context it was popped from. -/
theorem Aims.next {r : R} {b : Option C} {c : C} {next : R} {rest : List R} (h : Aims s r b)
    (hi : (s.box c).items = next :: rest) (hn : next = r) : b = some c :=
  h.box c (by rw [hi, hn]; exact List.mem_cons_self)

/-- The runnable a step submits, and into which context. -/
def Act.submits : Act R C → Option (R × Option C)
  | .enter _ c r _ | .transfer _ _ c r _ | .preempt _ c r => some (r, c)
  | _ => none

section Aims

variable [DecidableEq R] {r : R} {b : Option C}

theorem left_cases (after : Option R) :
    (after = none ∧ s.left t after = s.goto t .idle) ∨
      ∃ x, after = some x ∧ s.left t after = s.ret t x none true := by
  cases after with
  | none => exact .inl ⟨rfl, rfl⟩
  | some x => exact .inr ⟨x, rfl, rfl⟩

theorem thenMore_cases (how : How) (x : Transfer R C) (result : Bool) :
    (∃ c more, x.fromContext = some c ∧ x.more = some more ∧
      s.thenMore t how x result = s.goto t (.transferMore how c more x result)) ∨
      s.thenMore t how x result = s.ret t x.r (some x.toContext) result := by
  unfold State.thenMore
  split
  · exact .inl ⟨_, _, by assumption, by assumption, rfl⟩
  · exact .inr rfl

theorem Aims.ret {x : R} {d : Option C} {res : Bool} (h : Aims s r b) :
    Aims (s.ret t x d res) r b := by
  have hg := h.goto (t := t) (q := .idle) trivial
  exact ⟨hg.box, hg.queue, hg.pc⟩

theorem Aims.submit {x : R} {q : Pc R C} (h : Aims s r b) (hq : q.aims r b) :
    Aims (s.submit t x q) r b := by
  have hg := h.goto (t := t) hq
  exact ⟨hg.box, hg.queue, hg.pc⟩

theorem Aims.left {after : Option R} (h : Aims s r b) : Aims (s.left t after) r b := by
  obtain ⟨-, he⟩ | ⟨x, -, he⟩ := left_cases (s := s) (t := t) after <;> rw [he]
  · exact h.goto trivial
  · exact h.ret

theorem Aims.thenMore {how : How} {x : Transfer R C} {result : Bool} (h : Aims s r b)
    (h1 : x.r = r → b = some x.toContext) (h2 : x.more = some r → b = x.fromContext) :
    Aims (s.thenMore t how x result) r b := by
  obtain ⟨c, more, hf, hm, he⟩ | he := thenMore_cases (s := s) (t := t) how x result <;> rw [he]
  · refine h.goto ⟨h1, fun hr => ?_⟩
    rw [h2 (by rw [hm, hr]), hf]
  · exact h.ret

variable [DecidableEq C]

theorem Aims.pushPrepare {c : C} {x : R} (h : Aims s r b) (hx : x = r → b = some c) :
    Aims (s.pushPrepare c x) r b := by
  refine ⟨fun d hd => ?_, h.queue, h.pc⟩
  by_cases hdc : d = c
  · subst hdc
    have hd : r ∈ (s.box d).items ∨ r = x := by
      simpa [State.pushPrepare, LockedFifo.prepare] using hd
    rcases hd with hd | rfl
    · exact h.box d hd
    · exact hx rfl
  · exact h.box d (by simpa [State.pushPrepare, State.move, hdc] using hd)

theorem Aims.lockBox {c : C} {x : R} (h : Aims s r b) : Aims (s.lockBox t c x) r b := by
  refine h.of_items (fun d y hy => ?_) rfl rfl
  by_cases hd : d = c
  · subst hd
    simpa [State.lockBox] using hy
  · simpa [State.lockBox, hd] using hy

theorem Aims.fillBox {c : C} {x : R} (h : Aims s r b) : Aims (s.fillBox c x) r b := by
  refine h.of_items (fun d y hy => ?_) rfl rfl
  by_cases hd : d = c
  · subst hd
    simpa [State.fillBox] using hy
  · simpa [State.fillBox, hd] using hy

omit [DecidableEq R] in
theorem Aims.unlockBox {c : C} {l : Lock R} (h : Aims s r b) : Aims (s.unlockBox t c l) r b := by
  refine h.of_items (fun d y hy => ?_) rfl rfl
  by_cases hd : d = c
  · subst hd
    simpa [State.unlockBox] using hy
  · simpa [State.unlockBox, hd] using hy

theorem Aims.takeBox {c : C} {next : R} {rest : List R} (h : Aims s r b)
    (hi : (s.box c).items = next :: rest) : Aims (s.takeBox t c next rest) r b := by
  refine h.of_items (fun d y hy => ?_) rfl rfl
  by_cases hd : d = c
  · subst hd
    rw [hi]
    exact List.mem_cons_of_mem _ (by simpa [State.takeBox, State.move] using hy)
  · simpa [State.takeBox, State.move, hd] using hy

variable [DecidableEq S] {sched : C → S}

theorem Aims.schedule {how : How} {c : C} {x : R} (h : Aims s r b) (hx : x = r → b = some c) :
    Aims (s.schedule sched how t c x) r b := by
  refine ⟨h.box, fun q e he hr => ?_, h.pc⟩
  by_cases hq : q = sched c
  · subst hq
    have he : e ∈ s.queue (sched c) ∨ e = ⟨how, x, c⟩ := by
      simpa [State.schedule, State.move] using he
    rcases he with he | rfl
    · exact h.queue _ e he hr
    · exact hx hr
  · exact h.queue q e (by simpa [State.schedule, State.move, hq] using he) hr

theorem ThreadStep.aims (h : ThreadStep sched s t s') (hok : PcOk (s.owned t) (s.pc t))
    (ha : Aims s r b) : Aims s' r b := by
  have hpc := ha.pc t
  cases h with
  | enterPush hp =>
      rw [hp] at hpc
      exact (ha.pushPrepare hpc).goto hpc
  | enterLock hp hl =>
      rw [hp] at hpc
      exact ha.lockBox.goto hpc
  | enterFill hp hl => exact ha.fillBox.ret
  | enterTake hp hi hf =>
      rw [hp] at hpc
      exact (ha.takeBox hi).goto ⟨hpc, ha.next hi⟩
  | enterUnlock hp hl => exact ha.unlockBox.ret
  | enterSchedule how hp =>
      rw [hp] at hpc
      exact (ha.schedule hpc.2).ret
  | sameSchedule how hp | preempt how hp =>
      rw [hp] at hpc
      exact (ha.schedule hpc).ret
  | enterTrue hp | sameTrue hp => exact ha.ret
  | leaveTake hp hi hf =>
      rw [hp] at hpc
      exact (ha.takeBox hi).goto ⟨ha.next hi, hpc⟩
  | leaveUnlock hp hl => exact ha.unlockBox.left
  | leavePost hp =>
      rw [hp] at hpc
      exact (ha.schedule hpc.1).left
  | transferTake hp hi hf =>
      rw [hp] at hpc hok
      refine (ha.takeBox hi).goto ⟨hpc, fun hn => ?_⟩
      exact (ha.next hi (Option.some.inj hn)).trans hok.2.1.symm
  | transferUnlock hp hl =>
      rw [hp] at hpc
      exact ha.unlockBox.goto ⟨hpc, by simp⟩
  | transferPush hp =>
      rw [hp] at hpc
      exact (ha.pushPrepare hpc.1).goto hpc
  | transferLock hp hl =>
      rw [hp] at hpc
      exact ha.lockBox.goto hpc
  | transferFill hp hl =>
      rw [hp] at hpc
      exact ha.fillBox.thenMore hpc.1 hpc.2
  | transferNextTake hp hi hf =>
      rw [hp] at hpc
      exact (ha.takeBox hi).goto ⟨hpc.1, hpc.2, ha.next hi⟩
  | transferNextUnlock hp hl =>
      rw [hp] at hpc
      exact ha.unlockBox.thenMore hpc.1 hpc.2
  | transferSchedule how how' hp =>
      rw [hp] at hpc
      exact (ha.schedule hpc.2.2).thenMore hpc.1 hpc.2.1
  | transferTrue hp =>
      rw [hp] at hpc
      exact ha.thenMore hpc.1 hpc.2.1
  | transferMore hp =>
      rw [hp] at hpc
      exact (ha.schedule hpc.2).ret

/-- A runnable that no step submits to another context keeps its aim. -/
theorem Aims.step {a : Act R C} (h : Aims s r b) (hi : Inv sched s)
    (ha : ∀ d, a.submits = some (r, d) → d = b) (hs : (contexts sched).step s a = some s') :
    Aims s' r b := by
  cases a <;> simp only [contexts] at hs
  case enter t c x initial =>
    have hx : x = r → b = c := fun hx => (ha c (by rw [← hx]; rfl)).symm
    split at hs
    · split at hs <;> cases hs
      · exact h.ret
      · exact h.submit hx
    · cases hs
  case transfer t d c x returning =>
    have hx : x = r → b = c := fun hx => (ha c (by rw [← hx]; rfl)).symm
    split at hs <;> cases hs
    unfold startTransfer
    split
    · split
      · split
        · exact h.submit hx
        · exact h.ret
      · exact h.ret
    · split
      · exact h.submit fun hr => hx (Option.some.inj hr)
      · exact h.ret
      · exact h.submit hx
      · exact h.submit ⟨hx, by simp⟩
  case leave t c =>
    split at hs
    · split at hs <;> cases hs
      · exact h
      · exact h.goto (by simp [Pc.aims])
    · cases hs
  case preempt t c x =>
    have hx : x = r → b = c := fun hx => (ha c (by rw [← hx]; rfl)).symm
    split at hs
    · split at hs <;> cases hs
      · exact h.ret
      · exact h.submit hx
    · cases hs
  case step t k => exact (stepThread_cases hs).aims (hi.pc t) h
  case run t e =>
    split at hs <;> cases hs
    refine ⟨h.box, fun q e' he' hr => ?_, h.pc⟩
    refine h.queue q e' ?_ hr
    by_cases hq : q = sched e.context
    · subst hq
      exact List.mem_of_mem_erase (by simpa [State.move] using he')
    · simpa [State.move, hq] using he'

end Aims

-- ============================================================================
-- Runnables that are not pending
-- ============================================================================

section Done

variable [DecidableEq R] {r : R}

theorem done_ret {x : R} {b : Option C} {res : Bool} (h : s.status r = .done) :
    (s.ret t x b res).status r = .done := by
  by_cases hx : r = x
  · subst hx
    cases res <;> simp [State.ret, State.goto, h]
  · cases res <;> by_cases hs : s.status x = .submitted t <;> simp [State.ret, State.goto, hs, h, hx]

theorem done_left {after : Option R} (h : s.status r = .done) :
    (s.left t after).status r = .done := by
  obtain ⟨-, he⟩ | ⟨x, -, he⟩ := left_cases (s := s) (t := t) after <;> rw [he]
  · exact h
  · exact done_ret h

theorem done_thenMore {how : How} {x : Transfer R C} {result : Bool} (h : s.status r = .done) :
    (s.thenMore t how x result).status r = .done := by
  obtain ⟨_, _, -, -, he⟩ | he := thenMore_cases (s := s) (t := t) how x result <;> rw [he]
  · exact h
  · exact done_ret h

variable [DecidableEq C] [DecidableEq S] {sched : C → S}

theorem ThreadStep.done (h : ThreadStep sched s t s') (hr : s.status r = .done) :
    s'.status r = .done := by
  cases h with
  | enterFill | enterUnlock | enterSchedule | enterTrue | sameSchedule | sameTrue | preempt
  | transferMore => exact done_ret hr
  | leaveUnlock | leavePost => exact done_left hr
  | transferFill | transferNextUnlock | transferSchedule | transferTrue => exact done_thenMore hr
  | _ => exact hr

/-- A runnable that is not pending is made so by its own submission only. -/
theorem done_step {a : Act R C} (h : s.status r = .done) (ha : ∀ b, a.submits ≠ some (r, b))
    (hs : (contexts sched).step s a = some s') : s'.status r = .done := by
  have hsub : ∀ {t : Nat} {x : R} {q : Pc R C}, r ≠ x → (s.submit t x q).status r = .done := by
    intro t x q hx
    simp [State.submit, hx, h]
  cases a <;> simp only [contexts] at hs
  case enter t c x initial =>
    have hx : r ≠ x := by
      rintro rfl
      exact ha c rfl
    split at hs
    · split at hs <;> cases hs
      · exact done_ret h
      · exact hsub hx
    · cases hs
  case transfer t d c x returning =>
    have hx : r ≠ x := by
      rintro rfl
      exact ha c rfl
    split at hs <;> cases hs
    unfold startTransfer
    repeat' split
    all_goals first | exact done_ret h | exact hsub hx
  case leave t c =>
    split at hs
    · split at hs <;> cases hs <;> exact h
    · cases hs
  case preempt t c x =>
    have hx : r ≠ x := by
      rintro rfl
      exact ha c rfl
    split at hs
    · split at hs <;> cases hs
      · exact done_ret h
      · exact hsub hx
    · cases hs
  case step t k => exact (stepThread_cases hs).done h
  case run t e =>
    split at hs <;> cases hs
    by_cases hr : r = e.runnable
    · simp [hr]
    · simpa [hr] using h

end Done

-- ============================================================================
-- Contexts that a thread keeps
-- ============================================================================

/-- The rest of the call gives up the context `c`, or may do so. -/
def Pc.gives (c : C) : Pc R C → Prop
  | .idle | .enterPush _ _ _ | .enterPublish _ _ _ => False
  | .enterPop d _ _ | .enterNext d _ _ _ | .same d _ | .preempt d _ | .leavePop d _
  | .leavePost d _ _ | .transferPop d _ | .transferMore _ d _ _ _ => d = c
  | .transferPush x | .transferPublish x => x.more ≠ none ∧ x.fromContext = some c
  | .transferNextPop x | .transferNext x _ =>
      x.toContext = c ∨ x.more ≠ none ∧ x.fromContext = some c

/-- The thread owns `c` and is not about to give it up. -/
structure Keeps (s : State R C S) (t : Nat) (c : C) : Prop where
  owned : c ∈ s.owned t
  pc : ¬ (s.pc t).gives c

/-- The context a call by a thread leaves. -/
def Act.leaves : Act R C → Option (Nat × C)
  | .transfer t (some c) _ _ _ | .leave t (some c) | .preempt t (some c) _ => some (t, c)
  | _ => none

section Keeps

variable [DecidableEq R] [DecidableEq C] [DecidableEq S] {sched : C → S} {c : C} {u : Nat}

theorem ThreadStep.only (h : ThreadStep sched s t s') : Only t s s' := by
  have hleft : ∀ {s₁ : State R C S} {after : Option R}, Only t s s₁ →
      Only t s (s₁.left t after) := by
    intro s₁ after ho
    cases after <;> exact ho.goto
  have hmore : ∀ {s₁ : State R C S} {how : How} {x : Transfer R C} {res : Bool}, Only t s s₁ →
      Only t s (s₁.thenMore t how x res) := by
    intro s₁ how x res ho
    unfold State.thenMore
    split <;> exact ho.goto
  cases h <;>
    first
    | refine Only.goto fun u hu => ⟨rfl, ?_⟩
    | refine hleft fun u hu => ⟨rfl, ?_⟩
    | refine hmore fun u hu => ⟨rfl, ?_⟩
  all_goals
    first
    | rfl
    | exact Function.update_of_ne hu ..

theorem step_only {a : Act R C} (hs : (contexts sched).step s a = some s') :
    Only a.thread s s' := by
  cases a <;> simp only [contexts] at hs
  case transfer t d b r returning =>
    split at hs <;> cases hs
    unfold startTransfer
    repeat' split
    all_goals exact Only.goto .refl
  case step t k => exact (stepThread_cases hs).only
  case run t e =>
    split at hs <;> cases hs
    exact fun u hu => ⟨rfl, Function.update_of_ne hu ..⟩
  all_goals
    split at hs
    · split at hs <;> cases hs <;> first | exact .refl | exact Only.goto .refl
    · cases hs

omit [DecidableEq R] [DecidableEq C] [DecidableEq S] in
theorem Keeps.goto {q : Pc R C} (ho : c ∈ s.owned t) (hq : ¬ q.gives c) : Keeps (s.goto t q) t c :=
  ⟨ho, by simpa [State.goto] using hq⟩

omit [DecidableEq C] [DecidableEq S] in
theorem Keeps.ret {r : R} {b : Option C} {res : Bool} (ho : c ∈ s.owned t) :
    Keeps (s.ret t r b res) t c :=
  ⟨ho, by simp [State.ret, State.goto, Pc.gives]⟩

omit [DecidableEq C] [DecidableEq S] in
theorem Keeps.left {after : Option R} (ho : c ∈ s.owned t) : Keeps (s.left t after) t c := by
  cases after with
  | none => exact .goto ho (by simp [Pc.gives])
  | some r => exact .ret ho

omit [DecidableEq C] [DecidableEq S] in
theorem Keeps.thenMore {how : How} {x : Transfer R C} {res : Bool} (ho : c ∈ s.owned t)
    (hx : ¬ (x.more ≠ none ∧ x.fromContext = some c)) : Keeps (s.thenMore t how x res) t c := by
  obtain ⟨d, more, hf, hm, he⟩ | he := thenMore_cases (s := s) (t := t) how x res <;> rw [he]
  · refine .goto ho ?_
    rintro rfl
    exact hx ⟨by simp [hm], hf⟩
  · exact .ret ho

theorem ThreadStep.keeps (h : ThreadStep sched s t s') (hi : Inv sched s) (hk : Keeps s u c) :
    Keeps s' u c := by
  by_cases hu : u = t
  swap
  · obtain ⟨hp, ho⟩ := h.only u hu
    exact ⟨ho ▸ hk.owned, hp ▸ hk.pc⟩
  subst hu
  obtain ⟨hown, hpc⟩ := hk
  have hlock : ∀ d r, (s.box d).lock = .promised r → d ≠ c := by
    rintro d r hl rfl
    have := (hi.core.lock d).mpr (by rw [(hi.core.owned u d).mp hown]; simp)
    rw [hl] at this
    cases this
  have hdrop : ∀ d, d ≠ c → c ∈ (s.owned u).erase d := by
    intro d hd
    exact (List.mem_erase_of_ne (Ne.symm hd)).mpr hown
  have hunlock : ∀ {d l}, d ≠ c → c ∈ (s.unlockBox u d l).owned u := by
    intro d l hd
    simpa [State.unlockBox] using hdrop d hd
  have hsched : ∀ {d r how}, d ≠ c → c ∈ (s.schedule sched how u d r).owned u := by
    intro d r how hd
    simpa [State.schedule, State.move] using hdrop d hd
  have hbox : ∀ {d r}, c ∈ (s.lockBox u d r).owned u := by
    intro d r
    simp [State.lockBox, hown]
  cases h with
  | enterPush hp => exact .goto hown (by simp [Pc.gives])
  | enterLock hp hl => exact .goto hbox (hlock _ _ hl)
  | enterFill hp hl => exact .ret hown
  | enterTake hp hi hf =>
      rw [hp] at hpc
      exact .goto hown hpc
  | enterUnlock hp hl =>
      rw [hp] at hpc
      exact .ret (hunlock hpc)
  | enterSchedule how hp | sameSchedule how hp | preempt how hp =>
      rw [hp] at hpc
      exact .ret (hsched hpc)
  | enterTrue hp | sameTrue hp => exact .ret hown
  | leaveTake hp hi hf =>
      rw [hp] at hpc
      exact .goto hown hpc
  | leaveUnlock hp hl =>
      rw [hp] at hpc
      exact .left (hunlock hpc)
  | leavePost hp =>
      rw [hp] at hpc
      exact .left (hsched hpc)
  | transferTake hp _ hf =>
      have hok := hi.pc u
      rw [hp] at hpc hok
      refine .goto hown ?_
      rintro ⟨-, hf⟩
      exact hpc (Option.some.inj (hok.2.1.symm.trans hf))
  | transferUnlock hp hl =>
      rw [hp] at hpc
      exact .goto (hunlock hpc) (by simp [Pc.gives])
  | transferPush hp =>
      rw [hp] at hpc
      exact .goto hown hpc
  | transferLock hp hl =>
      rw [hp] at hpc
      refine .goto hbox ?_
      rintro (hx | hx)
      · exact hlock _ _ hl hx
      · exact hpc hx
  | transferFill hp hl =>
      rw [hp] at hpc
      exact .thenMore hown hpc
  | transferNextTake hp hi hf =>
      rw [hp] at hpc
      exact .goto hown hpc
  | transferNextUnlock hp hl =>
      rw [hp] at hpc
      exact .thenMore (hunlock fun hx => hpc (.inl hx)) fun hx => hpc (.inr hx)
  | transferSchedule how how' hp =>
      rw [hp] at hpc
      exact .thenMore (hsched fun hx => hpc (.inl hx)) fun hx => hpc (.inr hx)
  | transferTrue hp =>
      rw [hp] at hpc
      exact .thenMore hown fun hx => hpc (.inr hx)
  | transferMore hp =>
      rw [hp] at hpc
      exact .ret (hsched hpc)

/-- A thread keeps a context until a call of its own leaves it. -/
theorem Keeps.step {a : Act R C} (hk : Keeps s u c) (hi : Inv sched s)
    (ha : a.leaves ≠ some (u, c)) (hs : (contexts sched).step s a = some s') : Keeps s' u c := by
  have hsub : ∀ {t r} {q : Pc R C}, (t = u → ¬ q.gives c) → Keeps (s.submit t r q) u c := by
    intro t r q hq
    refine ⟨hk.owned, ?_⟩
    by_cases ht : u = t
    · subst ht
      simpa [State.submit, State.goto, State.move] using hq rfl
    · simpa [State.submit, State.goto, State.move, ht] using hk.pc
  have hret : ∀ {t r b res}, Keeps (s.ret t r b res) u c := by
    intro t r b res
    refine ⟨hk.owned, ?_⟩
    by_cases ht : u = t
    · subst ht
      simp [State.ret, State.goto, Pc.gives]
    · simpa [State.ret, State.goto, ht] using hk.pc
  cases a <;> simp only [contexts] at hs
  case enter t d r initial =>
    split at hs
    · split at hs <;> cases hs
      · exact hret
      · exact hsub fun _ => by simp [Pc.gives]
    · cases hs
  case transfer t d b r returning =>
    have hne : ∀ e, d = some e → t = u → e ≠ c := by
      rintro e rfl rfl rfl
      exact ha rfl
    split at hs <;> cases hs
    unfold startTransfer
    split
    · rename_i hdb
      split
      · split
        · exact hsub (hne _ hdb)
        · exact hret
      · exact hret
    · split
      · exact hsub (hne _ rfl)
      · exact hret
      · exact hsub (hne _ rfl)
      · exact hsub fun _ => by simp [Pc.gives]
  case leave t d =>
    split at hs
    · split at hs <;> cases hs
      · exact hk
      · rename_i e _
        refine ⟨hk.owned, ?_⟩
        by_cases ht : u = t
        · subst ht
          have : e ≠ c := by
            rintro rfl
            exact ha rfl
          simpa [State.goto, Pc.gives] using this
        · simpa [State.goto, ht] using hk.pc
    · cases hs
  case preempt t d r =>
    split at hs
    · split at hs <;> cases hs
      · exact hret
      · refine hsub ?_
        rintro rfl rfl
        exact ha rfl
    · cases hs
  case step t k => exact (stepThread_cases hs).keeps hi hk
  case run t e =>
    split at hs <;> cases hs
    refine ⟨?_, hk.pc⟩
    by_cases ht : u = t
    · subst ht
      simpa using .inr hk.owned
    · simpa [ht] using hk.owned

end Keeps

-- ============================================================================
-- Calls
-- ============================================================================

/-- The thread is in a call of `transfer` from `a` to `b` with `r`. -/
def Pc.transfers (a b : Option C) (r : R) : Pc R C → Prop
  | .same c x => x = r ∧ a = some c ∧ b = some c
  | .leavePop c after | .leavePost c _ after => after = some r ∧ a = some c ∧ b = none
  | .transferPop c x => x.r = r ∧ a = some c ∧ a ≠ b ∧ b = some x.toContext
  | .transferPush x | .transferPublish x | .transferNextPop x | .transferNext x _
  | .transferMore _ _ _ x _ => x.r = r ∧ a ≠ b ∧ b = some x.toContext
  | _ => False

/-- The thread is in a call of `enter` into `b` with `r`. -/
def Pc.enters (b : Option C) (r : R) : Pc R C → Prop
  | .enterPush c x _ | .enterPublish c x _ | .enterPop c x _ | .enterNext c x _ _ =>
      x = r ∧ b = some c
  | _ => False

/-- The thread is in a call of `leave`. -/
def Pc.leaves (c : C) : Pc R C → Prop
  | .leavePop d none | .leavePost d _ none => d = c
  | _ => False

/-- The context whose next runnable the thread is about to take on its way out. -/
def Pc.releases : Pc R C → Option C
  | .leavePop c _ | .transferPop c _ => some c
  | _ => none

/-- A transfer that has not released its context has not submitted its runnable
    either. -/
theorem Pc.submitting_of_transfers {p : Pc R C} {a b : Option C} {r : R} (h : p.transfers a b r)
    (hr : p.releases ≠ none) : p.submitting = some r := by
  cases p <;> simp_all [Pc.transfers, Pc.releases, Pc.submitting]

theorem Pc.not_leaves_of_enters {p : Pc R C} {b : Option C} {r : R} {c : C} (h : p.enters b r) :
    ¬ p.leaves c := by
  cases p <;> simp_all [Pc.enters, Pc.leaves]

/-- A thread in a call is not idle. -/
theorem Pc.ne_idle_of_enters {p : Pc R C} {b : Option C} {r : R} (h : p.enters b r) :
    p ≠ .idle := by
  rintro rfl
  exact h

theorem Pc.ne_idle_of_transfers {p : Pc R C} {a b : Option C} {r : R} (h : p.transfers a b r) :
    p ≠ .idle := by
  rintro rfl
  exact h

theorem Pc.ne_idle_of_leaves {p : Pc R C} {c : C} (h : p.leaves c) : p ≠ .idle := by
  rintro rfl
  exact h

section Calls

variable [DecidableEq R] {r : R} {a b : Option C}

/-- The call goes on, and has released the context it leaves; or it returns. -/
def Goes (s s' : State R C S) (t : Nat) (r : R) (b : Option C) (p : Pc R C → Prop) : Prop :=
  (p (s'.pc t) ∧ (s'.pc t).releases = none ∧ s'.log = s.log) ∨
    s'.pc t = .idle ∧ ∃ res, s'.log = s.log ++ [⟨t, r, b, res⟩]

omit [DecidableEq R] in
theorem Goes.goto {s₁ : State R C S} {p : Pc R C → Prop} {q : Pc R C} (hl : s₁.log = s.log)
    (hp : p q) (hq : q.releases = none) : Goes s (s₁.goto t q) t r b p :=
  .inl ⟨by simpa [State.goto] using hp, by simpa [State.goto] using hq, hl⟩

theorem Goes.ret {s₁ : State R C S} {p : Pc R C → Prop} {res : Bool} (hl : s₁.log = s.log) :
    Goes s (s₁.ret t r b res) t r b p :=
  .inr ⟨by simp [State.ret, State.goto], res, by simp [State.ret, State.goto, hl]⟩

variable [DecidableEq C] [DecidableEq S] {sched : C → S}

theorem ThreadStep.enters (h : ThreadStep sched s t s') (hp : (s.pc t).enters b r) :
    Goes s s' t r b (·.enters b r) := by
  cases h with
  | enterPush h | enterLock h | enterTake h =>
      rw [h] at hp
      exact .goto rfl hp rfl
  | enterFill h | enterUnlock h | enterSchedule how h | enterTrue h =>
      rw [h] at hp
      obtain ⟨rfl, rfl⟩ := hp
      exact .ret rfl
  | _ => simp_all only [Pc.enters]

theorem ThreadStep.transfers (h : ThreadStep sched s t s') (hp : (s.pc t).transfers a b r) :
    Goes s s' t r b (·.transfers a b r) := by
  have hmore : ∀ {s₁ : State R C S} {how : How} {x : Transfer R C} {res : Bool},
      s₁.log = s.log → x.r = r ∧ a ≠ b ∧ b = some x.toContext →
      Goes s (s₁.thenMore t how x res) t r b (·.transfers a b r) := by
    rintro s₁ how x res hl ⟨rfl, hne, rfl⟩
    obtain ⟨_, _, -, -, he⟩ | he := thenMore_cases (s := s₁) (t := t) how x res <;> rw [he]
    · exact .goto hl ⟨rfl, hne, rfl⟩ rfl
    · exact .ret hl
  cases h with
  | sameSchedule how h | sameTrue h =>
      rw [h] at hp
      obtain ⟨rfl, -, rfl⟩ := hp
      exact .ret rfl
  | leaveTake h =>
      rw [h] at hp
      exact .goto rfl hp rfl
  | leaveUnlock h | leavePost h =>
      rw [h] at hp
      obtain ⟨rfl, -, rfl⟩ := hp
      exact .ret rfl
  | transferTake h | transferUnlock h =>
      rw [h] at hp
      exact .goto rfl ⟨hp.1, hp.2.2⟩ rfl
  | transferPush h | transferLock h | transferNextTake h =>
      rw [h] at hp
      exact .goto rfl hp rfl
  | transferFill h | transferNextUnlock h | transferSchedule how how' h | transferTrue h =>
      rw [h] at hp
      exact hmore rfl hp
  | transferMore h =>
      rw [h] at hp
      obtain ⟨rfl, -, rfl⟩ := hp
      exact .ret rfl
  | _ => simp_all only [Pc.transfers]

/-- `leave` goes on, and has released the context; or it returns. -/
theorem ThreadStep.leaves {c : C} (h : ThreadStep sched s t s') (hp : (s.pc t).leaves c) :
    ((s'.pc t).leaves c ∧ (s'.pc t).releases = none) ∨ s'.pc t = .idle := by
  cases h with
  | @leaveTake _ after _ _ h =>
      rw [h] at hp
      cases after with
      | none =>
          exact .inl ⟨by simpa [State.goto, Pc.leaves] using hp, by simp [State.goto, Pc.releases]⟩
      | some r => exact hp.elim
  | @leaveUnlock _ after _ h | @leavePost _ _ after h =>
      rw [h] at hp
      cases after with
      | none => exact .inr (by simp [State.left, State.goto])
      | some r => exact hp.elim
  | _ => simp_all only [Pc.leaves]

/-- The start of `enter`. -/
theorem enter_starts {i : Bool} (hs : (contexts sched).step s (.enter t b r i) = some s') :
    ((s'.pc t).enters b r ∧ s'.log = s.log) ∨
      s'.pc t = .idle ∧ b = none ∧ s'.log = s.log ++ [⟨t, r, b, true⟩] := by
  simp only [contexts] at hs
  split at hs
  · split at hs <;> cases hs
    · exact .inr ⟨by simp [State.ret, State.goto], rfl, rfl⟩
    · exact .inl ⟨by simp [State.submit, State.goto, State.move, Pc.enters], rfl⟩
  · cases hs

/-- The start of `transfer` on the return path. -/
theorem transfer_starts (hs : (contexts sched).step s (.transfer t a b r true) = some s') :
    ((s'.pc t).transfers a b r ∧ (s'.pc t).releases = (if a = b then none else a) ∧
      s'.log = s.log) ∨
      s'.pc t = .idle ∧ a = b ∧ s'.log = s.log ++ [⟨t, r, b, true⟩] := by
  simp only [contexts] at hs
  split at hs <;> cases hs
  unfold startTransfer
  split
  · rename_i hab
    subst hab
    cases a with
    | none => exact .inr ⟨by simp [State.ret, State.goto], rfl, rfl⟩
    | some c =>
        exact .inl ⟨by simp [State.submit, State.goto, State.move, Pc.transfers],
          by simp [State.submit, State.goto, State.move, Pc.releases], rfl⟩
  · rename_i hab
    cases a with
    | none =>
        cases b with
        | none => exact absurd rfl hab
        | some d =>
            exact .inl ⟨by simp [State.submit, State.goto, State.move, Pc.transfers],
              by simp [State.submit, State.goto, State.move, Pc.releases], rfl⟩
    | some c =>
        refine .inl ⟨?_, ?_, ?_⟩ <;> cases b
        · simp [State.submit, State.goto, State.move, Pc.transfers]
        · simpa [State.submit, State.goto, State.move, Pc.transfers] using hab
        · simp [State.submit, State.goto, State.move, Pc.releases]
        · simp [State.submit, State.goto, State.move, Pc.releases]
        all_goals rfl

/-- The start of `leave`. -/
theorem leave_starts (hs : (contexts sched).step s (.leave t a) = some s') :
    (∃ c, a = some c ∧ (s'.pc t).leaves c ∧ (s'.pc t).releases = some c) ∨
      s'.pc t = .idle ∧ a = none := by
  simp only [contexts] at hs
  split at hs
  · rename_i hc
    split at hs <;> cases hs
    · exact .inr ⟨hc.1, rfl⟩
    · exact .inl ⟨_, rfl, by simp [State.goto, Pc.leaves], by simp [State.goto, Pc.releases]⟩
  · cases hs

/-- `enter` that answers true has the context as its own. -/
theorem ThreadStep.enters_true {c : C} {d : Option C} (h : ThreadStep sched s t s')
    (hp : (s.pc t).enters (some c) r) (hl : s'.log = s.log ++ [⟨t, r, d, true⟩]) :
    (s.pc t).gives c := by
  cases h with
  | enterTrue h =>
      rw [h] at hp ⊢
      exact (Option.some.inj hp.2).symm
  | enterPush | enterLock | enterTake =>
      simp [State.goto, State.pushPrepare, State.lockBox, State.takeBox, State.move] at hl
  | enterFill | enterUnlock | enterSchedule =>
      simp [State.ret, State.goto, State.fillBox, State.unlockBox, State.schedule,
        State.move] at hl
  | _ => simp_all only [Pc.enters]

/-- A call starts in a thread that is in none. -/
theorem step_idle {a : Act R C} (ha : ∀ k, a ≠ .step a.thread k)
    (hs : (contexts sched).step s a = some s') : s.pc a.thread = .idle := by
  cases a <;> simp only [contexts] at hs
  case step t k => exact absurd rfl (ha k)
  all_goals
    split at hs
    · rename_i hc
      exact hc.1
    · cases hs

/-- A call answers true with a runnable that it has in hand. -/
theorem ThreadStep.pending (h : ThreadStep sched s t s') (hi : Inv sched s)
    (hl : s'.log = s.log ++ [⟨t, r, b, true⟩]) : s.status r ≠ .done := by
  have hin : (s.pc t).submitting = some r ∨ r ∈ (s.pc t).carried → s.status r ≠ .done := by
    intro hr hd
    have hplace := (hi.core.done r).mp hd
    rcases hr with hr | hr
    · rw [(hi.core.submitting t r).mp hr] at hplace
      cases hplace
    · rw [(hi.core.carried t r).mp hr] at hplace
      cases hplace
  have hret : ∀ {s₁ : State R C S} {x : R} {d : Option C} {res : Bool},
      (s₁.ret t x d res).log = s.log ++ [⟨t, r, b, true⟩] → s₁.log = s.log →
      x = r ∧ res = true := by
    intro s₁ x d res h hs
    simp [State.ret, State.goto, hs] at h
    exact ⟨h.1, h.2.2⟩
  have hleft : ∀ {s₁ : State R C S} {after : Option R},
      (s₁.left t after).log = s.log ++ [⟨t, r, b, true⟩] → s₁.log = s.log →
      after = some r := by
    intro s₁ after h hs
    cases after with
    | none => simp [State.left, State.goto, hs] at h
    | some x => rw [(hret h hs).1]
  have hmore : ∀ {s₁ : State R C S} {how : How} {x : Transfer R C} {res : Bool},
      (s₁.thenMore t how x res).log = s.log ++ [⟨t, r, b, true⟩] → s₁.log = s.log →
      x.r = r ∧ res = true := by
    intro s₁ how x res h hs
    obtain ⟨_, _, -, -, he⟩ | he := thenMore_cases (s := s₁) (t := t) how x res <;> rw [he] at h
    · simp [State.goto, hs] at h
    · exact hret h hs
  refine hin ?_
  cases h with
  | enterFill | enterUnlock | enterSchedule | sameSchedule | preempt => cases (hret hl rfl).2
  | transferFill | transferNextUnlock | transferSchedule => cases (hmore hl rfl).2
  | enterTrue hp =>
      rw [hp, (hret hl rfl).1]
      exact .inr (by simp [Pc.carried])
  | sameTrue hp =>
      rw [hp, (hret hl rfl).1]
      exact .inl rfl
  | leaveUnlock hp | leavePost hp =>
      rw [hp, hleft hl rfl]
      exact .inl rfl
  | transferTrue hp =>
      rw [hp, (hmore hl rfl).1]
      exact .inr (by simp [Pc.carried])
  | transferMore hp =>
      obtain ⟨hx, rfl⟩ := hret hl rfl
      rw [hp]
      exact .inr (by simp [Pc.carried, hx])
  | _ =>
      simp [State.goto, State.pushPrepare, State.lockBox, State.takeBox, State.unlockBox,
        State.move] at hl

/-- The thread of a call that answered true keeps the context. -/
theorem keeps_of_true {a : Act R C} {d : Option C} (hi : Inv sched s)
    (hs : (contexts sched).step s a = some s') (hl : s'.log = s.log ++ [⟨t, r, d, true⟩])
    (hidle : s'.pc t = .idle) : (∀ c, d = some c → Keeps s' t c) ∧ s'.status r = .done := by
  obtain ⟨hown, hdone⟩ := step_trueOwns hi hs t r d hl
  exact ⟨fun c hc => ⟨hown c hc, by simp [hidle, Pc.gives]⟩, hdone⟩

omit [DecidableEq R] [DecidableEq C] [DecidableEq S] in
/-- A thread that is about to release a context owns it. -/
theorem Inv.owned_of_releases {c : C} (hi : Inv sched s) (hr : (s.pc t).releases = some c) :
    c ∈ s.owned t := by
  have hok := hi.pc t
  cases hp : s.pc t <;> rw [hp] at hr hok <;> cases hr
  case leavePop => exact hok
  case transferPop => exact hok.1

end Calls

end Coroactors.Context
