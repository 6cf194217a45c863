/-
  Coroactors.StopState.Honour

  What `stop_state` (coroactors/detail/stop_token_polyfill.h) promises about
  callbacks, for every interleaving of `add_callback`, `remove_callback` and
  `request_stop`, also from inside of callbacks:

    * a callback is invoked at most once, and exactly once if `request_stop`
      took it from the list or it was added to a stopped state;
    * one `request_stop` returns true, and one that returns false does so
      after the stop;
    * callbacks in the list are invoked one at a time, the last added first;
    * once `remove_callback` returns, the callback is not invoked any more and
      `request_stop` does not touch it, and it does not run either, unless it
      was removed on the thread it runs on.
-/

import Coroactors.StopState.CallbackSteps

namespace Coroactors.StopState

open Coroactors.Conc

variable {K : Type*} {s s' : State K} {t : Nat} {k : K}

-- ============================================================================
-- The promises
-- ============================================================================

/-- `request_stop` invoked the callback on the thread, and it did not return. -/
def RunsOn (s : State K) (t : Nat) (k : K) : Prop := ∃ empty, Caller.stop k empty ∈ s.stack t

/-- `request_stop` is going to access the callback after it returned. -/
def Touches (s : State K) (t : Nat) (k : K) : Prop :=
  ∃ empty, (s.pc t = .returned k empty ∧ s.flag t = false) ∨ s.pc t = .release k empty

structure Honoured (s : State K) : Prop where
  once : ∀ k, s.invoked k ≤ 1
  /-- A callback that `request_stop` took was invoked, or is next. -/
  taken : ∀ k ∈ s.taken, s.invoked k = 1 ∨ ∃ t, (s.pc t).invokes k
  /-- When it returned true, it took everything that was not removed. -/
  complete : true ∈ s.stops → s.head = none ∧
    ∀ k ∈ s.added, (k ∈ s.taken ∧ s.invoked k = 1) ∨ (s.life k).ended = true
  /-- A callback added after the stop was invoked when `add_callback` returned. -/
  late : ∀ k, s.late k = true →
    (∃ t, s.life k = .adding t) ∨ (s.life k = .refused ∧ s.invoked k = 1)
  oneTrue : s.stops.count true ≤ 1
  falseAfter : false ∈ s.stops → stopped s.word = true
  order : s.ran.Sublist s.added.reverse
  oneAtATime : ∀ t u k k', RunsOn s t k → RunsOn s u k' → t = u ∧ k = k'
  gone : ∀ k t, s.life k = .gone t → k ∉ s.list ∧ (∀ u, ¬ (s.pc u).invokes k) ∧
    (∀ u, ¬ Touches s u k) ∧ ∀ u, RunsOn s u k → u = t ∧ s.running = some t

theorem Inv.runsOn {empty : Bool} (hi : Inv s) (h : Caller.stop k empty ∈ s.stack t) :
    s.stopper = some t ∧ s.phase = .busy k ∧ s.stage k = .running := by
  obtain ⟨h1, h2, h3, -⟩ := hi.frames t _ h
  exact ⟨h1, h2, h3⟩

theorem Inv.invokes (hi : Inv s) (h : (s.pc t).invokes k) : s.stage k = .taken := by
  have := hi.pcs t
  cases hp : s.pc t <;> rw [hp] at h this <;> simp only [Pc.invokes] at h
  case unlock a =>
    cases a with
    | invoke k' empty =>
        obtain rfl : k' = k := h
        exact this.2.2.1
    | _ => exact h.elim
  case notifyOne a =>
    cases a with
    | invoke k' empty =>
        obtain rfl : k' = k := h
        exact this.2.2.1
    | _ => exact h.elim

/-- A callback that `request_stop` took and that is not next was invoked. -/
theorem Inv.taken_invoked (hi : Inv s) (hk : k ∈ s.taken) :
    s.invoked k = 1 ∨ (s.stage k = .taken ∧ ∃ t, (s.pc t).invokes k) := by
  have hd := hi.data
  have hpop := (hd.taken k).mp hk
  cases hst : s.stage k <;> rw [hst] at hpop <;> try cases hpop
  case taken =>
    have hne := (hd.popped k (by rw [hst]; rfl)).1
    obtain ⟨t, ht⟩ := Option.ne_none_iff_exists'.mp hne
    exact .inr ⟨rfl, t, hi.takenAt t k ht hst⟩
  case running => exact .inl (hd.invoked k (.inl hst))
  case returned => exact .inl (hd.invoked k (.inr (.inl hst)))
  case finished => exact .inl (hd.invoked k (.inr (.inr hst)))

theorem Inv.complete (hi : Inv s) (hover : true ∈ s.stops) :
    s.head = none ∧ ∀ k ∈ s.added, (k ∈ s.taken ∧ s.invoked k = 1) ∨ (s.life k).ended = true := by
  have hd := hi.data
  have hphase := hd.stops.mp hover
  have hnil := hd.drained hphase
  refine ⟨by rw [hd.linked.head, hnil]; rfl, ?_⟩
  intro k hk
  have hout := (hd.added k).mp hk
  cases hpop : (s.stage k).popped with
  | true =>
      have hmem := (hd.taken k).mpr hpop
      rcases hi.taken_invoked hmem with h | ⟨h, -⟩
      · exact .inl ⟨hmem, h⟩
      · have := (hd.busy k).mpr (by rw [h]; rfl)
        rw [hphase] at this
        cases this
  | false =>
      have hlisted : s.stage k ≠ .listed := by
        intro h
        have := (hd.listed k).mp h
        simp [hnil] at this
      refine .inr (hd.unlinked k ?_)
      cases hst : s.stage k <;> simp_all [Stage.popped]

theorem Inv.late (hi : Inv s) (hl : s.late k = true) :
    (∃ t, s.life k = .adding t) ∨ (s.life k = .refused ∧ s.invoked k = 1) := by
  have hd := hi.data
  have hout := (hd.late k hl).2
  cases hlife : s.life k with
  | fresh =>
      have := (hd.fresh k hlife).2.2
      rw [hl] at this
      cases this
  | adding t => exact .inl ⟨t, rfl⟩
  | live =>
      have := hd.live k hlife
      rw [hout] at this
      cases this
  | refused => exact .inr ⟨rfl, (hd.refused k hlife).2 hl⟩
  | removing t => exact absurd hout (hd.ended k (by rw [hlife]; rfl))
  | gone t => exact absurd hout (hd.ended k (by rw [hlife]; rfl))

theorem Inv.gone (hi : Inv s) (hl : s.life k = .gone t) :
    k ∉ s.list ∧ (∀ u, ¬ (s.pc u).invokes k) ∧ (∀ u, ¬ Touches s u k) ∧
      ∀ u, RunsOn s u k → u = t ∧ s.running = some t := by
  have hd := hi.data
  have hg := hd.gone k t hl
  refine ⟨?_, ?_, ?_, ?_⟩
  · rw [← hd.listed]
    rintro h
    simp [h] at hg
  · intro u h
    have := hi.invokes h
    simp [this] at hg
  · rintro u ⟨empty, ⟨hp, hflag⟩ | hp⟩
    · have := hi.pcs u
      rw [hp] at this
      obtain ⟨hstop, -, hret, -⟩ := this
      rcases hg with h | h | ⟨-, hs, hf⟩
      · simp [hret] at h
      · simp [hret] at h
      · obtain rfl : t = u := Option.some.inj (hs.symm.trans hstop)
        rw [hflag] at hf
        cases hf
    · have := hi.pcs u
      rw [hp] at this
      obtain ⟨hstop, -, hret, -, hflag, -⟩ := this
      rcases hg with h | h | ⟨-, hs, hf⟩
      · simp [hret] at h
      · simp [hret] at h
      · obtain rfl : t = u := Option.some.inj (hs.symm.trans hstop)
        rw [hflag] at hf
        cases hf
  · rintro u ⟨empty, h⟩
    obtain ⟨hstop, -, hrun⟩ := hi.runsOn h
    rcases hg with h | h | ⟨-, hs, -⟩
    · simp [hrun] at h
    · simp [hrun] at h
    · refine ⟨Option.some.inj (hstop.symm.trans hs), ?_⟩
      rw [(hd.popped k (by rw [hrun]; rfl)).2, hs]

theorem Inv.honoured (hi : Inv s) (hlock : LockInv s) : Honoured s where
  once := hi.data.invokedLe
  taken k hk := (hi.taken_invoked hk).imp id And.right
  complete := hi.complete
  late _ := hi.late
  oneTrue := hi.data.stopsLe
  falseAfter h := by
    rw [hlock.stopped, Option.isSome_iff_ne_none]
    exact hi.data.refusals h
  order := by
    have ho := hi.order
    have hran : s.ran.Sublist s.taken := by
      by_cases h : ∃ k, s.stage k = .taken
      · obtain ⟨k, hk⟩ := h
        rw [ho.ranBut k hk]
        exact List.sublist_append_left ..
      · rw [ho.ran fun k hk => h ⟨k, hk⟩]
    exact (hran.trans (List.sublist_append_left ..)).trans ho.added
  oneAtATime := by
    rintro t u k k' ⟨e, h⟩ ⟨e', h'⟩
    obtain ⟨h1, h2, -⟩ := hi.runsOn h
    obtain ⟨h1', h2', -⟩ := hi.runsOn h'
    exact ⟨Option.some.inj (h1.symm.trans h1'), Phase.busy.inj (h2.symm.trans h2')⟩
  gone _ _ := hi.gone

-- ============================================================================
-- After a removal
-- ============================================================================

/-- What became of the callback, and how often it was invoked, stays. -/
def Settled (s s' : State K) (k : K) : Prop :=
  s'.life k = s.life k ∧ s'.invoked k = s.invoked k

section Settled

variable [DecidableEq K]

theorem settled_loop {w : Want K} {v i : Nat} (hw : w.Ok s t) (hk : ∀ u, s.life k ≠ .adding u) :
    Settled s (s.loop t w v i) k := by
  have hcontend : Settled s (s.contend t w v i) k := by
    unfold State.contend
    repeat' split
    all_goals exact ⟨rfl, rfl⟩
  cases w with
  | add k' =>
      have hne : k ≠ k' := by
        rintro rfl
        exact hk t hw.1
      simp only [State.loop]
      split
      · exact ⟨rfl, Function.update_of_ne hne ..⟩
      · split
        · exact ⟨Function.update_of_ne hne .., rfl⟩
        · exact hcontend
  | stop =>
      simp only [State.loop]
      split
      · exact ⟨rfl, rfl⟩
      · exact hcontend
  | remove k' => exact hcontend
  | again => exact hcontend

theorem settled_takeHead : Settled s (s.takeHead t) k := by
  unfold State.takeHead
  split <;> exact ⟨rfl, rfl⟩

theorem settled_critical {w : Want K} : Settled s (s.critical t w) k := by
  cases w with
  | add k' =>
      simp only [State.critical, State.insert]
      cases s.head <;> exact ⟨rfl, rfl⟩
  | remove k' =>
      simp only [State.critical, State.removeCallbackLocked]
      split
      · exact ⟨rfl, rfl⟩
      · cases s.prev k' with
        | none => exact ⟨rfl, rfl⟩
        | some p =>
            simp only [State.unlink]
            cases s.next k' <;> exact ⟨rfl, rfl⟩
  | stop =>
      simp only [State.critical]
      split
      · exact ⟨rfl, rfl⟩
      · exact settled_takeHead (s := { s with running := some t })
  | again => exact settled_takeHead

theorem settled_finish {a : After K} (ha : a.Ok s t) (hadd : ∀ u, s.life k ≠ .adding u)
    (hrem : ∀ u, s.life k ≠ .removing u) (hst : s.stage k ≠ .taken) :
    Settled s (s.finish t a) k := by
  cases a with
  | added k' =>
      have hne : k ≠ k' := by
        rintro rfl
        exact hadd t ha.1
      exact ⟨Function.update_of_ne hne .., rfl⟩
  | removed k' found =>
      cases found with
      | true =>
          have hne : k ≠ k' := by
            rintro rfl
            exact hrem t ha.1
          exact ⟨Function.update_of_ne hne .., rfl⟩
      | false => exact ⟨rfl, rfl⟩
  | invoke k' empty =>
      have hne : k ≠ k' := by
        rintro rfl
        exact hst ha.2.2.1
      exact ⟨rfl, Function.update_of_ne hne ..⟩
  | finished => exact ⟨rfl, rfl⟩

theorem settled_proceed {k' : K} {empty : Bool} : Settled s (s.proceed t k' empty) k := by
  unfold State.proceed
  split <;> exact ⟨rfl, rfl⟩

theorem stepThread_settled {c : Choice} {u : Nat} (hi : Inv s) (hl : s.life k = .gone u)
    (hs : stepThread s t c = some s') : Settled s s' k := by
  have hadd (x : Nat) : s.life k ≠ .adding x := by simp [hl]
  have hrem (x : Nat) : s.life k ≠ .removing x := by simp [hl]
  have hst : s.stage k ≠ .taken := by
    intro h
    have := hi.data.gone k u hl
    simp [h] at this
  have hok := hi.pcs t
  cases hp : s.pc t <;> simp only [stepThread, hp] at hs <;> rw [hp] at hok
  case user => cases hs
  case load w =>
    cases hs
    exact settled_loop hok hadd
  case lockCas w current i =>
    split at hs <;> cases hs
    · cases w with
      | stop =>
          simp only [State.acquired]
          split <;> exact ⟨rfl, rfl⟩
      | _ => exact ⟨rfl, rfl⟩
    · exact ⟨rfl, rfl⟩
  case spin w i =>
    cases hs
    exact settled_loop hok.1 hadd
  case setWaiting w current i =>
    split at hs <;> cases hs
    · exact ⟨rfl, rfl⟩
    · exact settled_loop hok.1 hadd
  case wait w current i => split at hs <;> cases hs <;> exact ⟨rfl, rfl⟩
  case blocked w current i =>
    split at hs <;> split at hs <;> cases hs <;> exact ⟨rfl, rfl⟩
  case reload w i notified =>
    cases hs
    exact settled_loop hok.1 hadd
  case notifyAll =>
    cases hs
    exact ⟨rfl, rfl⟩
  case held w =>
    cases hs
    exact settled_critical
  case unlock a =>
    split at hs <;> cases hs
    · exact ⟨rfl, rfl⟩
    · have ha : a.Ok { s with word := s.word - flagLocked, holder := none } t :=
        Keeps.after { Keeps.refl s t with } hok
      exact settled_finish ha hadd hrem hst
  case notifyOne a =>
    split at hs
    · split at hs <;> cases hs
      rename_i x _
      have ha : a.Ok { s with waiters := s.waiters.erase x } t :=
        Keeps.after { Keeps.refl s t with } hok
      exact settled_finish ha hadd hrem hst
    · split at hs <;> cases hs
      exact settled_finish hok hadd hrem hst
  case checkRunning k' =>
    have hne : k ≠ k' := by
      rintro rfl
      exact hrem t hok.1
    split at hs <;> cases hs
    · exact ⟨Function.update_of_ne hne .., rfl⟩
    · exact ⟨rfl, rfl⟩
  case acquire k' =>
    have hne : k ≠ k' := by
      rintro rfl
      exact hrem t hok.1
    split at hs <;> cases hs
    exact ⟨Function.update_of_ne hne .., rfl⟩
  case returned k' empty =>
    split at hs <;> cases hs
    · exact settled_proceed
    · exact ⟨rfl, rfl⟩
  case release k' empty =>
    cases hs
    exact settled_proceed (s := { s with done := Function.update s.done k' (s.done k' + 1) })

/-- No step concerns a callback whose removal returned. -/
theorem step_settled {a : Act K} {u : Nat} (hi : Inv s) (hl : s.life k = .gone u)
    (hs : stopState.step s a = some s') : Settled s s' k := by
  cases a <;> simp only [stopState] at hs
  case addSource t => split at hs <;> cases hs; exact ⟨rfl, rfl⟩
  case removeSource t => split at hs <;> cases hs; exact ⟨rfl, rfl⟩
  case add t k' =>
    split at hs <;> cases hs
    rename_i h
    have hne : k ≠ k' := by
      rintro rfl
      simp [hl] at h
    exact ⟨Function.update_of_ne hne .., rfl⟩
  case remove t k' =>
    split at hs <;> cases hs
    rename_i h
    have hne : k ≠ k' := by
      rintro rfl
      simp [hl] at h
    exact ⟨Function.update_of_ne hne .., rfl⟩
  case requestStop t => split at hs <;> cases hs; exact ⟨rfl, rfl⟩
  case ret t =>
    split at hs
    · split at hs <;> cases hs
      · rename_i k' rest hst
        have hne : k ≠ k' := by
          rintro rfl
          have := (hi.frames t (.add k) (by simp [hst])).1
          simp [hl] at this
        exact ⟨Function.update_of_ne hne .., rfl⟩
      · exact ⟨rfl, rfl⟩
    · cases hs
  case step t c => exact stepThread_settled hi hl hs

theorem path_settled {u : Nat} (hr : stopState.Reachable s) (hl : s.life k = .gone u)
    (hp : stopState.Path (fun _ _ => True) s s') : Settled s s' k := by
  induction hp with
  | refl => exact ⟨rfl, rfl⟩
  | step a hp _ hs ih =>
      have := step_settled (reachable_inv (hp.reachable hr)) (ih.1.trans hl) hs
      exact ⟨this.1.trans ih.1, this.2.trans ih.2⟩

-- ============================================================================
-- Every run
-- ============================================================================

/-- In every state of every run the promises hold, and a callback whose removal
    returned is never invoked again. -/
theorem callbacks_honoured :
    (∀ s : State K, stopState.Reachable s → Honoured s) ∧
    (∀ (s s' : State K) (k : K) (t : Nat), stopState.Reachable s → s.life k = .gone t →
      stopState.Path (fun _ _ => True) s s' →
        s'.life k = .gone t ∧ s'.invoked k = s.invoked k) := by
  refine ⟨fun s hr => (reachable_inv hr).honoured (reachable_lockInv hr), ?_⟩
  intro s s' k t hr hl hp
  have := path_settled hr hl hp
  exact ⟨this.1.trans hl, this.2⟩

end Settled

end Coroactors.StopState
