/-
  Coroactors.StopScope.Inward

  Stops go inward only: `Spread` says what one step can stop, and along a run in
  which nothing older than a source is requested nothing older is stopped.
-/

import Coroactors.StopScope.Run

namespace Coroactors.StopScope

open Coroactors.Conc

variable {s s' : State} {t q : Nat} {k : Task}

-- ============================================================================
-- What a step can stop
-- ============================================================================

/-- A step stops a source if it requests that, or for a `propagate` that was
    taken or is being constructed. -/
structure Spread (s s' : State) : Prop where
  next : s.nextSource ≤ s'.nextSource
  outside : ∀ o, o < s.nextSource → (s'.sources o).outside = (s.sources o).outside
  visible : ∀ o, (s.sources o).stage.Visible → (s'.sources o).stage.Visible
  requested : ∀ o, (s.sources o).requested = true → (s'.sources o).requested = true
  still : ∀ o, (s.sources o).stopped = true → (s'.sources o).stopped = true
  stopped : ∀ o, (s'.sources o).stopped = true → (s.sources o).stopped = true ∨
    (s'.sources o).requested = true ∨ (∃ p, s.busy p (.taken o)) ∨
    (s.sources o).stage = .entering
  busy : ∀ o hand, s'.busy o hand → (∃ hand', s.busy o hand') ∨ (s.sources o).stopped = false

variable {th : Nat}

theorem Spread.congr (hsources : s'.sources = s.sources) (hbusy : s'.busy = s.busy)
    (hnext : s'.nextSource = s.nextSource) : Spread s s' := by
  refine ⟨Nat.le_of_eq hnext.symm, ?_, ?_, ?_, ?_, ?_, ?_⟩
  · simp [hsources]
  · simp [hsources]
  · simp [hsources]
  · simp [hsources]
  · intro o ho
    exact .inl (hsources ▸ ho)
  · intro o hand ho
    exact .inl ⟨hand, hbusy ▸ ho⟩

theorem spread_newSource (h : Core s) (stage : Stage) (token : Token)
    (owner : Option (Nat × Nat)) : Spread s (s.newSource stage token owner) := by
  have hself : (s.newSource stage token owner).sources s.nextSource =
      ⟨stage, false, [], token, none, false, false, false, owner⟩ := by
    simp [State.newSource, State.setSource]
  have hother : ∀ r, r ≠ s.nextSource →
      (s.newSource stage token owner).sources r = s.sources r := by
    intro r hr
    simp [State.newSource, State.setSource, hr]
  have hfresh := (h.fresh s.nextSource (Nat.le_refl _)).1
  refine ⟨Nat.le_succ _, fun o ho => ?_, fun o ho => ?_, fun o ho => ?_, fun o ho => ?_,
    fun o ho => ?_, fun o hand ho => .inl ⟨hand, ho⟩⟩
  · rw [hother o (Nat.ne_of_lt ho)]
  all_goals
    by_cases hne : o = s.nextSource
    · subst hne
      first
        | exact absurd ho (by rw [hself]; simp)
        | exact absurd ho (by rw [hfresh]; simp [State.initial, Stage.Visible])
    · first
        | (rw [hother o hne] at ho; exact .inl ho)
        | (rw [hother o hne]; exact ho)

theorem Spread.of_same (hstopped : ∀ o, (s'.sources o).stopped = (s.sources o).stopped)
    (hrequested : ∀ o, (s'.sources o).requested = (s.sources o).requested)
    (houtside : ∀ o, (s'.sources o).outside = (s.sources o).outside)
    (hvisible : ∀ o, (s.sources o).stage.Visible → (s'.sources o).stage.Visible)
    (hbusy : ∀ o hand, s'.busy o hand → ∃ hand', s.busy o hand')
    (hnext : s'.nextSource = s.nextSource) : Spread s s' := by
  refine ⟨Nat.le_of_eq hnext.symm, fun o _ => houtside o, hvisible, fun o ho => ?_, fun o ho => ?_,
    fun o ho => ?_, fun o hand ho => .inl (hbusy o hand ho)⟩
  · rw [hrequested]
    exact ho
  · rw [hstopped]
    exact ho
  · exact .inl (hstopped o ▸ ho)

/-- `request_stop` in a state that has the sources of `s`. -/
theorem spread_requestStop (s₁ : State) (th q : Nat) (stage : Stage) (fired direct : Bool)
    (hsources : s₁.sources = s.sources) (hnext : s₁.nextSource = s.nextSource)
    (hbusy : ∀ o hand, s₁.busy o hand → ∃ hand', s.busy o hand')
    (hstage : Stops.StageStep (s.sources q).stage stage)
    (hcause : direct = true ∨ (∃ p, s.busy p (.taken q)) ∨ (s.sources q).stage = .entering)
    (hs : s' = (s₁.setSource q { s.sources q with stage := stage, fired := fired }).requestStop
      th q direct) : Spread s s' := by
  have hself : s'.sources q =
      { s.sources q with
        stage := stage, fired := fired, stopped := true
        requested := (s.sources q).requested || direct } := by
    simp [hs, State.requestStop, State.setSource]
  have hother : ∀ r, r ≠ q → s'.sources r = s.sources r := by
    intro r hr
    simp [hs, State.requestStop, State.setSource, hr, hsources]
  refine ⟨?_, fun o ho => ?_, fun o ho => ?_, fun o ho => ?_, fun o ho => ?_, fun o ho => ?_,
    fun o hand ho => ?_⟩
  · rw [hs, ← hnext]
    exact Nat.le_refl _
  · by_cases hne : o = q
    · rw [hne, hself]
    · rw [hother o hne]
  · by_cases hne : o = q
    · rw [hne, hself]
      exact hstage.visible (hne ▸ ho)
    · rw [hother o hne]
      exact ho
  · by_cases hne : o = q
    · rw [hne, hself]
      simp [← hne, ho]
    · rw [hother o hne]
      exact ho
  · by_cases hne : o = q
    · rw [hne, hself]
    · rw [hother o hne]
      exact ho
  · by_cases hne : o = q
    · subst hne
      refine .inr ?_
      rw [hself]
      exact hcause.imp_left fun hd => by simp [hd]
    · rw [hother o hne] at ho
      exact .inl ho
  · subst hs
    cases hq : (s.sources q).stopped with
    | true =>
        refine .inl (hbusy o hand ?_)
        simpa [State.busy, State.requestStop, State.setSource, hq] using ho
    | false =>
        rw [busy_push s₁ th q] at ho
        · rcases ho with ho | ⟨rfl, -⟩
          · exact .inl (hbusy o hand ho)
          · exact .inr hq
        · simp [State.requestStop, State.setSource, hq]

/-- `request_stop` that changes nothing else of the source. -/
theorem spread_request (th : Nat) (q : Nat) (direct : Bool)
    (hcause : direct = true ∨ (∃ p, s.busy p (.taken q)) ∨ (s.sources q).stage = .entering) :
    Spread s (s.requestStop th q direct) := by
  refine spread_requestStop s th q (s.sources q).stage (s.sources q).fired direct rfl rfl
    (fun o hand ho => ⟨hand, ho⟩) (.inl rfl) hcause ?_
  rw [show ({ s.sources q with stage := (s.sources q).stage, fired := (s.sources q).fired } :
    Source) = s.sources q from rfl, setSource_self]

/-- A source changes its stage, and a list of callbacks changes. -/
theorem spread_setStage {s₁ : State} {stage : Stage} (hsources : ∀ o, ∃ callbacks,
      s₁.sources o = { s.sources o with callbacks := callbacks })
    (hvisible : (s.sources q).stage.Visible → stage.Visible) (hstack : s₁.stack = s.stack)
    (hnext : s₁.nextSource = s.nextSource) : Spread s (s₁.setStage q stage) := by
  have hfield : ∀ o, ∃ callbacks, (s₁.setStage q stage).sources o =
      { s.sources o with
        stage := if o = q then stage else (s.sources o).stage, callbacks := callbacks } := by
    intro o
    obtain ⟨callbacks, heq⟩ := hsources o
    refine ⟨callbacks, ?_⟩
    by_cases ho : o = q
    · subst ho
      simp [State.setStage, State.setSource, heq]
    · simp [State.setStage, State.setSource, ho, heq]
  refine Spread.of_same (fun o => ?_) (fun o => ?_) (fun o => ?_) (fun o ho => ?_)
    (fun o hand ho => ⟨hand, ?_⟩) hnext
  · obtain ⟨callbacks, heq⟩ := hfield o
    rw [heq]
  · obtain ⟨callbacks, heq⟩ := hfield o
    rw [heq]
  · obtain ⟨callbacks, heq⟩ := hfield o
    rw [heq]
  · obtain ⟨callbacks, heq⟩ := hfield o
    rw [heq]
    by_cases hoq : o = q
    · subst hoq
      simpa using hvisible ho
    · simpa [hoq] using ho
  · simpa [State.busy, State.setStage, State.setSource, hstack] using ho

theorem setCallbacks_sources (p : Nat) (callbacks : List Nat) (o : Nat) :
    ∃ callbacks', (s.setSource p { s.sources p with callbacks := callbacks }).sources o =
      { s.sources o with callbacks := callbacks' } := by
  by_cases ho : o = p
  · subst ho
    exact ⟨callbacks, by simp [State.setSource]⟩
  · exact ⟨(s.sources o).callbacks, by simp [State.setSource, ho]⟩

theorem spread_hook (token : Token) (hentering : (s.sources q).stage = .entering) :
    Spread s (s.hook th q token) := by
  have hunseen : (s.sources q).stage.Visible → Stage.live.Visible :=
    fun _ => ⟨by simp, by simp⟩
  unfold State.hook
  cases token with
  | none => exact spread_setStage (fun o => ⟨_, rfl⟩) hunseen rfl rfl
  | some p =>
      simp only
      split
      · refine spread_requestStop s th q .live (s.sources q).fired false rfl rfl
          (fun o hand ho => ⟨hand, ho⟩) (.inr ⟨hentering, rfl⟩) (.inr (.inr hentering)) rfl
      · exact spread_setStage (setCallbacks_sources p _) hunseen rfl rfl

theorem spread_unhook (hs : s.unhook th q = some s') : Spread s s' := by
  have hended : (s.sources q).stage.Visible → Stage.ended.Visible :=
    fun _ => ⟨by simp, by simp⟩
  unfold State.unhook at hs
  split at hs
  · cases hs
    exact spread_setStage (fun o => ⟨_, rfl⟩) hended rfl rfl
  · rename_i p _
    split at hs
    · cases hs
      exact spread_setStage (setCallbacks_sources p _) hended rfl rfl
    · split at hs
      · cases hs
      · cases hs
        exact spread_setStage (fun o => ⟨_, rfl⟩) hended rfl rfl

theorem spread_stopStep {p : Nat} {hand : Hand} {rest : List Item}
    (hstack : s.stack th = .request p hand :: rest) : Spread s (s.stopStep th p hand rest) := by
  have hp : ∃ hand', s.busy p hand' := ⟨hand, th, by rw [hstack]; exact List.mem_cons_self⟩
  have hbusy : ∀ (s₁ : State) (new : List Item),
      s₁.stack = Function.update s.stack th (new ++ rest) →
      (∀ o h', .request o h' ∈ new → o = p) → ∀ o h', s₁.busy o h' → ∃ h'', s.busy o h'' := by
    intro s₁ new hs₁ hnew o h' ho
    rcases (busy_top s₁ new hstack hs₁ o h').1 ho with ho | ho
    · exact ⟨h', ho⟩
    · rw [hnew o h' ho]
      exact hp
  cases hand with
  | idle =>
      cases hc : (s.sources p).callbacks with
      | nil =>
          have heq : s.stopStep th p .idle rest =
              { s with stack := Function.update s.stack th rest } := by
            simp [State.stopStep, hc]
          rw [heq]
          exact Spread.of_same (fun _ => rfl) (fun _ => rfl) (fun _ => rfl) (fun _ h => h)
            (hbusy _ [] rfl (by simp)) rfl
      | cons c cs =>
          have heq : s.stopStep th p .idle rest =
              { (s.setSource p { s.sources p with callbacks := cs }).setRunner c (some th) with
                stack := Function.update s.stack th (.request p (.taken c) :: rest) } := by
            simp [State.stopStep, hc, State.setRunner, State.setSource]
          have hfield : ∀ o, Stops.Same
              (((s.setSource p { s.sources p with callbacks := cs }).setRunner c
                (some th)).sources o)
              ((s.setSource p { s.sources p with callbacks := cs }).sources o) :=
            fun o => (setRunner_same (some th) o).1
          rw [heq]
          refine Spread.of_same (fun o => ?_) (fun o => ?_) (fun o => ?_) (fun o ho => ?_)
            (hbusy _ [.request p (.taken c)] rfl (by simp)) rfl
          all_goals obtain ⟨callbacks, hcs⟩ := setCallbacks_sources (s := s) p cs o
          · exact (hfield o).stopped.trans (by rw [hcs])
          · exact (hfield o).requested.trans (by rw [hcs])
          · exact (hfield o).outside.trans (by rw [hcs])
          · have hst : (((s.setSource p { s.sources p with callbacks := cs }).setRunner c
                (some th)).sources o).stage = (s.sources o).stage :=
              (hfield o).stage.trans (by rw [hcs])
            rw [hst]
            exact ho
  | taken c =>
      have htaken : ∃ p, s.busy p (.taken c) :=
        ⟨p, th, by rw [hstack]; exact List.mem_cons_self⟩
      refine spread_requestStop
        { s with stack := Function.update s.stack th (.request p (.running c) :: rest) } th c
        (s.sources c).stage (s.sources c).fired false rfl rfl
        (hbusy _ [.request p (.running c)] rfl (by simp)) (.inl rfl) (.inr (.inl htaken)) ?_
      rw [show ({ s.sources c with stage := (s.sources c).stage, fired := (s.sources c).fired } :
        Source) = s.sources c from rfl]
      simp [State.stopStep, State.setSource]
  | running c =>
      have hfield : ∀ o, Stops.Same ((s.stopStep th p (.running c) rest).sources o)
          (s.sources o) := fun o => (setRunner_same none o).1
      refine Spread.of_same (fun o => (hfield o).stopped) (fun o => (hfield o).requested)
        (fun o => (hfield o).outside) (fun o ho => ?_)
        (hbusy _ [.request p .idle] rfl (by simp)) rfl
      rw [(hfield o).stage]
      exact ho

-- ============================================================================
-- Steps
-- ============================================================================

/-- Only the sources and the stacks matter. -/
theorem Spread.base {s₀ : State} (h : Spread s₀ s') (hsources : s₀.sources = s.sources)
    (hstack : s₀.stack = s.stack) (hnext : s₀.nextSource = s.nextSource) : Spread s s' := by
  have hbusy : s₀.busy = s.busy := by
    funext q hand
    rw [State.busy, State.busy, hstack]
  constructor
  · rw [← hnext]
    exact h.next
  · rw [← hnext, ← hsources]
    exact h.outside
  · rw [← hsources]
    exact h.visible
  · rw [← hsources]
    exact h.requested
  · rw [← hsources]
    exact h.still
  · rw [← hsources, ← hbusy]
    exact h.stopped
  · rw [← hsources, ← hbusy]
    exact h.busy

theorem Spread.sameSources (hsources : s'.sources = s.sources) (hstack : s'.stack = s.stack)
    (hnext : s'.nextSource = s.nextSource) : Spread s s' := by
  refine Spread.congr hsources ?_ hnext
  funext q hand
  rw [State.busy, State.busy, hstack]

theorem spread_finishBody {rest : List Frame} (hb : s.body th = some (t, k, rest))
    (hs : s.finishBody th t k rest = some s') : Spread s s' := by
  unfold State.finishBody at hs
  split at hs
  · cases hs
    obtain ⟨-, -, l, hstack⟩ := State.body_eq hb
    exact Spread.congr rfl (busy_tasks (s := s) rfl fun r hand => by simp [hstack]) rfl
  · obtain ⟨G, -, hs⟩ := Option.bind_eq_some_iff.mp hs
    cases hs
    exact Spread.sameSources rfl rfl rfl
  · cases hs
    exact Spread.sameSources rfl rfl rfl

theorem spread_advanceDeadline (h : Inv s) {outer : Token} {place : Deadline} {rest : List Frame}
    (hd : AtDeadline s t k outer place rest)
    (hs : s.advanceDeadline th t k outer rest place = some s') : Spread s s' := by
  cases place with
  | check scheduler =>
      simp only [State.advanceDeadline] at hs
      split at hs
      · cases hs
        have hnew := spread_newSource h.core .entering k.token (some (t, rest.length))
        exact ⟨hnew.next, hnew.outside, hnew.visible, hnew.requested, hnew.still, hnew.stopped,
          hnew.busy⟩
      · cases hs
        exact Spread.sameSources rfl rfl rfl
  | propagate q =>
      cases hs
      refine (spread_hook (s := s.setTask t
        { k with frames := .withDeadline outer (.recheck q) :: rest }) k.token ?_).base rfl rfl rfl
      exact hd.place.1.stage
  | recheck q =>
      simp only [State.advanceDeadline] at hs
      split at hs
      · cases hs
        exact Spread.sameSources rfl rfl rfl
      · cases hs
        have hfield : ∀ o, ((s.setTask t
            { k with frames := .withDeadline outer (.schedule q) :: rest }).setSource
            q { s.sources q with armed := true }).sources o =
            { s.sources o with armed := if o = q then true else (s.sources o).armed } := by
          intro o
          by_cases ho : o = q
          · simp [ho, State.setSource]
          · simp [ho, State.setSource, State.setTask]
        refine Spread.of_same (fun o => ?_) (fun o => ?_) (fun o => ?_) (fun o ho => ?_)
          (fun o hand ho => ⟨hand, ho⟩) rfl
        · rw [hfield]
        · rw [hfield]
        · rw [hfield]
        · rw [hfield]
          exact ho
  | schedule q =>
      cases hs
      exact Spread.sameSources rfl rfl rfl
  | opened q saved =>
      cases hs
      exact Spread.sameSources rfl rfl rfl
  | unhook q leave => exact (spread_unhook hs).base rfl rfl rfl
  | stopSelf q leave =>
      cases hs
      exact (spread_request th q true (.inl rfl)).base rfl rfl rfl
  | closed leave =>
      simp only [State.advanceDeadline] at hs
      split at hs
      · cases hs
        exact Spread.sameSources rfl rfl rfl
      · cases hs
        exact Spread.sameSources rfl rfl rfl
  | pass =>
      cases hs
      exact Spread.sameSources rfl rfl rfl

theorem spread_advanceGroup {G : Group} {rest : List Frame} (hg : AtGroup s t k q G rest)
    (hs : s.advanceGroup th t k q G rest = some s') : Spread s s' := by
  unfold State.advanceGroup at hs
  split at hs
  · rename_i hphase
    cases hs
    have hstage := hg.ok.stage
    rw [hphase] at hstage
    exact (spread_hook (s := (s.setTask t
      { k with frames := .call :: .withTaskGroup q :: rest }).setGroup
      q { G with phase := .opened }) k.token hstage).base rfl rfl rfl
  · cases hs
  · exact (spread_unhook hs).base rfl rfl rfl
  · cases hs
    exact (spread_request th q true (.inl rfl)).base rfl rfl rfl
  · split at hs
    · cases hs
      exact Spread.sameSources rfl rfl rfl
    · cases hs
  · cases hs

theorem spread_step (h : Inv s) (a : Act) (hs : step s a = some s') : Spread s s' := by
  cases a with
  | source =>
      cases hs
      exact spread_newSource h.core .external none none
  | start th token =>
      simp only [step, Option.ite_none_right_eq_some, Option.some.injEq] at hs
      rw [← hs.2]
      exact Spread.congr rfl (busy_tasks (s := s) rfl fun r hand => by simp) rfl
  | request th q =>
      simp only [step, Option.ite_none_right_eq_some, Option.some.injEq] at hs
      rw [← hs.2]
      exact spread_request th q true (.inl rfl)
  | timer th q deadline =>
      simp only [step, Option.ite_none_right_eq_some] at hs
      obtain ⟨-, hs⟩ := hs
      cases deadline with
      | true =>
          cases hs
          exact spread_requestStop s th q (s.sources q).stage true true rfl rfl
            (fun o hand ho => ⟨hand, ho⟩) (.inl rfl) (.inl rfl) rfl
      | false =>
          cases hs
          exact Spread.sameSources rfl rfl rfl
  | call th =>
      obtain ⟨⟨t, k, rest⟩, -, hs⟩ := Option.bind_eq_some_iff.mp hs
      cases hs
      exact Spread.sameSources rfl rfl rfl
  | withStopToken th token =>
      obtain ⟨⟨t, k, rest⟩, -, hs⟩ := Option.bind_eq_some_iff.mp hs
      simp only [Option.ite_none_right_eq_some, Option.some.injEq] at hs
      rw [← hs.2]
      exact Spread.sameSources rfl rfl rfl
  | withDeadline th scheduler =>
      obtain ⟨⟨t, k, rest⟩, -, hs⟩ := Option.bind_eq_some_iff.mp hs
      cases hs
      exact Spread.sameSources rfl rfl rfl
  | withTaskGroup th =>
      obtain ⟨⟨t, k, rest⟩, -, hs⟩ := Option.bind_eq_some_iff.mp hs
      cases hs
      have hnew := spread_newSource h.core .entering k.token (some (t, rest.length + 1))
      exact ⟨hnew.next, hnew.outside, hnew.visible, hnew.requested, hnew.still, hnew.stopped,
        hnew.busy⟩
  | add th q =>
      obtain ⟨G, -, hs⟩ := Option.bind_eq_some_iff.mp hs
      simp only [Option.ite_none_right_eq_some, Option.some.injEq] at hs
      rw [← hs.2]
      refine Spread.congr rfl ?_ rfl
      exact busy_tasks (s := s) rfl fun r hand => by simp [State.setGroup]
  | finish th =>
      obtain ⟨⟨t, k, rest⟩, hb, hs⟩ := Option.bind_eq_some_iff.mp hs
      exact spread_finishBody hb hs
  | advance th =>
      obtain ⟨⟨t, k⟩, hc, hs⟩ := Option.bind_eq_some_iff.mp hs
      have hk := (State.current_eq hc).1
      simp only at hs
      split at hs
      · cases hs
        exact Spread.sameSources rfl rfl rfl
      · rename_i hf
        exact spread_advanceDeadline h (h.atDeadline hk hf) hs
      · rename_i q rest hf
        obtain ⟨G, hG, hs⟩ := Option.bind_eq_some_iff.mp hs
        exact spread_advanceGroup (h.atGroup hk hf hG) hs
      · cases hs
  | suspend th =>
      obtain ⟨⟨t, k⟩, hc, hs⟩ := Option.bind_eq_some_iff.mp hs
      cases hs
      obtain ⟨-, l, hstack⟩ := State.current_eq hc
      exact Spread.congr rfl (busy_tasks (s := s) rfl fun r hand => by simp [hstack]) rfl
  | resume th t =>
      obtain ⟨k, hk, hs⟩ := Option.bind_eq_some_iff.mp hs
      simp only at hs
      split at hs
      · cases hs
      · cases hs
        exact Spread.congr rfl (busy_tasks (s := s) rfl fun r hand => by simp) rfl
  | stop th =>
      simp only [step] at hs
      split at hs
      · rename_i hstack
        cases hs
        exact spread_stopStep hstack
      · cases hs

-- ============================================================================
-- Inward
-- ============================================================================

/-- What has become of the sources that were visible in `s`, and of those older
    than `q` among them. -/
structure Inward (s : State) (q : Nat) (s' : State) : Prop where
  inv : Inv s'
  next : s.nextSource ≤ s'.nextSource
  outside : ∀ o, (s.sources o).stage.Visible → (s'.sources o).outside = (s.sources o).outside
  visible : ∀ o, (s.sources o).stage.Visible → (s'.sources o).stage.Visible
  still : ∀ o, (s.sources o).stopped = true → (s'.sources o).stopped = true
  kept : (∀ o, o < q → (s'.sources o).requested = true → (s.sources o).requested = true) →
    ∀ o, o < q → (s.sources o).stage.Visible →
      ((s'.sources o).stopped = true → (s.sources o).stopped = true) ∧ ∀ hand, ¬s'.busy o hand

theorem Inward.step {s₁ s₂ : State} (hs : Inv s) (h : Inward s q s₁) (a : Act)
    (ha : system.step s₁ a = some s₂) : Inward s q s₂ := by
  have hstep : Spread s₁ s₂ := spread_step h.inv a ha
  refine ⟨h.inv.step a ha, Nat.le_trans h.next hstep.next, fun o ho => ?_,
    fun o ho => hstep.visible o (h.visible o ho), fun o ho => hstep.still o (h.still o ho),
    fun hreq => ?_⟩
  · rw [hstep.outside o (h.inv.core.lt_of_visible (h.visible o ho))]
    exact h.outside o ho
  · have hold := h.kept fun o hoq hr => hreq o hoq (hstep.requested o hr)
    have hstopped : ∀ o, o < q → (s.sources o).stage.Visible →
        (s₂.sources o).stopped = true → (s.sources o).stopped = true := by
      intro o hoq hv ho
      rcases hstep.stopped o ho with h₁ | hr | ⟨p, hp⟩ | hentering
      · exact (hold o hoq hv).1 h₁
      · exact hs.core.stops.requested o (hreq o hoq hr)
      · -- a `propagate` was taken by a call for the token outside
        have hout := h.inv.core.stops.taken p o hp
        rw [h.outside o hv] at hout
        obtain ⟨hpo, hpv⟩ := hs.core.stops.outside o p hout
        exact absurd hp ((hold p (Nat.lt_trans hpo hoq) hpv).2 _)
      · exact absurd hentering (h.visible o hv).2
    refine fun o hoq hv => ⟨hstopped o hoq hv, fun hand hb => ?_⟩
    rcases hstep.busy o hand hb with ⟨hand', hb'⟩ | hnew
    · exact (hold o hoq hv).2 hand' hb'
    · have h₂ := (h.inv.step a ha).core.stops.item o hand hb
      have h₁ := h.still o (hstopped o hoq hv h₂)
      simp [hnew] at h₁

/-- Until something older than `q` is requested, no stop reaches anything that
    is older than `q`. -/
theorem inward (hs : system.Reachable s) (hquiet : s.Quiet) (q : Nat)
    (hpath : system.Path (fun _ _ => True) s s')
    (hreq : ∀ o, o < q → (s'.sources o).requested = true → (s.sources o).requested = true)
    {o : Nat} (ho : o < q) (hvisible : (s.sources o).stage.Visible) :
    (s'.sources o).stopped = (s.sources o).stopped := by
  have hi := inv_of_reachable hs
  have hstart : Inward s q s :=
    ⟨hi, Nat.le_refl _, fun _ _ => rfl, fun _ hv => hv, fun _ h => h,
      fun _ o _ _ => ⟨id, hquiet.not_busy o⟩⟩
  have hrun : Inward s q s' :=
    hpath.invariant (fun _ a _ h _ ha => h.step hi a ha) hstart
  rw [Bool.eq_iff_iff]
  exact ⟨(hrun.kept hreq o ho hvisible).1, hrun.still o⟩

end Coroactors.StopScope
