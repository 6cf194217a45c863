/-
  Coroactors.StopScope.Nesting

  Cancellation is scoped by the nesting of wrappers.

  When no `request_stop` is in progress, the token of a body is stopped if its
  innermost wrapper says so, and only then (`stopped_of_mustStop`,
  `shouldStop_of_stopped`).  There is one exception by design: a
  `with_task_group` whose callback has finished goes on to the destructor of
  `propagate` and to its own `group.request_stop()`.  In between its tasks are
  not stopped by the end of the callback, nor by a stop of the token outside
  once `propagate` is gone; a `group.request_stop()` of somebody else does stop
  them, and so does a stop of the token outside until then (`mustStop`).

  Stops go inward only (Coroactors.StopScope.Inward).
-/

import Coroactors.StopScope.Inward

namespace Coroactors.StopScope

open Coroactors.Conc

variable {s s' : State} {t q : Nat} {k : Task}

-- ============================================================================
-- The law of the innermost wrapper
-- ============================================================================

theorem stopRequested_some : s.stopRequested (some q) = (s.sources q).stopped := rfl

/-- The source of a `with_deadline` that has its body. -/
theorem Inv.requested_iff_fired (h : Inv s) {owner : Nat × Nat} {outer : Token}
    {around : List Token} (ho : Own s owner outer around q .live) :
    (s.sources q).requested = true ↔ (s.sources q).fired = true := by
  refine ⟨fun hr => ?_, fun hf => (h.core.fired q hf).1⟩
  rcases h.core.direct q hr with he | he | he | he
  · rw [ho.stage] at he
    cases he
  · exact he
  · rw [ho.stage] at he
    cases he
  · exact absurd ho.plain he

/-- A stopped token of a body is stopped because its innermost wrapper says so. -/
theorem Inv.shouldStop_of_stopped (h : Inv s) (hk : s.tasks t = some k) {top : Bool}
    {frames : List Frame} (hframes : FramesOk s t k.root k.around top frames)
    (hstop : s.stopRequested (inside k.root frames) = true) : s.shouldStop k frames = true := by
  induction frames generalizing top with
  | nil =>
      cases hgroup : k.group with
      | none =>
          simp only [State.shouldStop, State.wrapperStops, hgroup]
          exact hstop
      | some q =>
          obtain ⟨hroot, -⟩ := (h.task t k hk).member q hgroup
          rw [inside, hroot, stopRequested_some] at hstop
          simp only [State.shouldStop, State.wrapperStops, hgroup, Bool.or_eq_true]
          rcases h.core.stops.cause q hstop with hr | ho
          · exact .inl (.inr hr)
          · exact .inl (.inl (State.stopRequested_iff.mpr ho))
  | cons f below ih =>
      cases f with
      | call => exact ih hframes.2 hstop
      | withTaskGroup q => exact ih hframes.2 hstop
      | withStopToken token saved => exact hstop
      | withDeadline outer place =>
          cases place with
          | opened q saved =>
              have ho := hframes.1.2.1
              rw [inside, stopRequested_some] at hstop
              simp only [State.shouldStop, State.wrapperStops, Bool.or_eq_true]
              rcases h.core.stops.cause q hstop with hr | hout
              · exact .inr ((h.requested_iff_fired ho).mp hr)
              · rw [ho.outside, hframes.1.1] at hout
                exact .inl (State.stopRequested_iff.mpr hout)
          | _ => exact hstop

/-- When its innermost wrapper says so, and no `request_stop` is in progress,
    the token of a body is stopped. -/
theorem Inv.stopped_of_mustStop (h : Inv s) (hquiet : s.Quiet) (hk : s.tasks t = some k) {top : Bool}
    {frames : List Frame} (hframes : FramesOk s t k.root k.around top frames)
    (hmust : s.mustStop k frames = true) :
    s.stopRequested (inside k.root frames) = true := by
  induction frames generalizing top with
  | nil =>
      cases hgroup : k.group with
      | none =>
          simp only [State.mustStop, State.wrapperStops, hgroup] at hmust
          exact hmust
      | some q =>
          obtain ⟨hroot, G, hG, hmem, -⟩ := (h.task t k hk).member q hgroup
          have hok := h.core.group q G hG
          have hstage := hok.stage
          rw [inside, hroot, stopRequested_some]
          simp only [State.mustStop, State.wrapperStops, hgroup, hG, Option.any_some,
            Bool.or_eq_true] at hmust
          rcases hmust with hr | hlaw
          · exact h.core.stops.requested q hr
          cases hphase : G.phase with
          | propagate =>
              rw [hok.running (.inl hphase)] at hmem
              cases hmem
          | opened | finished =>
              rw [hphase] at hstage hlaw
              rw [h.core.stops.law hquiet.not_busy hstage]
              exact .inr (State.stopRequested_iff.mp hlaw)
          | stopping =>
              rw [hphase] at hlaw
              cases hlaw
          | draining => exact h.core.stops.requested q (hok.requested (.inl hphase))
          | gone =>
              rw [hok.running (.inr hphase)] at hmem
              cases hmem
  | cons f below ih =>
      cases f with
      | call => exact ih hframes.2 hmust
      | withTaskGroup q => exact ih hframes.2 hmust
      | withStopToken token saved => exact hmust
      | withDeadline outer place =>
          cases place with
          | opened q saved =>
              have ho := hframes.1.2.1
              simp only [State.mustStop, State.wrapperStops, Bool.or_eq_true] at hmust
              rw [inside, stopRequested_some, h.core.stops.law hquiet.not_busy ho.stage]
              rcases hmust with hout | hf
              · refine .inr ?_
                rw [ho.outside, hframes.1.1]
                exact State.stopRequested_iff.mp hout
              · exact .inl ((h.requested_iff_fired ho).mpr hf)
          | _ => exact hmust

/-- The two differ in that moment of a `with_task_group` only. -/
theorem Inv.mustStop_eq (h : Inv s) (hk : s.tasks t = some k) {frames : List Frame}
    (hclosing : s.closing k frames = false) : s.mustStop k frames = s.shouldStop k frames := by
  unfold State.mustStop State.shouldStop
  induction frames with
  | nil =>
      cases hgroup : k.group with
      | none => simp only [State.wrapperStops, hgroup]
      | some q =>
          obtain ⟨-, G, hG, -⟩ := (h.task t k hk).member q hgroup
          simp only [State.closing, hgroup, hG, Option.any_some, Bool.or_eq_false_iff,
            decide_eq_false_iff_not] at hclosing
          simp only [State.wrapperStops, hgroup, hG, Option.any_some, Group.callbackFinished]
          cases hphase : G.phase with
          | finished => exact absurd hphase hclosing.1
          | stopping => exact absurd hphase hclosing.2
          | propagate | opened =>
              simp only [Bool.or_false]
              exact Bool.or_comm _ _
          | draining | gone => simp only [Bool.or_true]
  | cons f below ih =>
      cases f with
      | call | withTaskGroup q => exact ih hclosing
      | withStopToken token saved => rfl
      | withDeadline outer place => cases place <;> rfl

-- ============================================================================
-- Tokens outside
-- ============================================================================

/-- The task has a wrapper with the source `q`, and `tokens` are the tokens
    outside of it. -/
inductive Wraps (k : Task) (q : Nat) : List Token → Prop
  | deadline {above below : List Frame} {outer saved : Token} :
      k.frames = above ++ .withDeadline outer (.opened q saved) :: below →
      Wraps k q (outer :: (outsides below ++ k.around))
  | group : k.group = some q → Wraps k q k.around

theorem FramesOk.at {root : Token} {around : List Token} {top : Bool} {f : Frame}
    {above below : List Frame} (h : FramesOk s t root around top (above ++ f :: below)) :
    ∃ top', FramesOk s t root around top' (f :: below) := by
  induction above generalizing top with
  | nil => exact ⟨top, h⟩
  | cons a above ih => exact ih h.2

/-- The tokens outside of a wrapper are older than its source. -/
theorem Inv.older (h : Inv s) (hk : s.tasks t = some k) {tokens : List Token}
    (hw : Wraps k q tokens) {x : Nat} (hx : some x ∈ tokens) :
    x < q ∧ (s.sources x).stage.Visible := by
  have hok := h.task t k hk
  cases hw with
  | deadline hf =>
      have hframes := hok.frames
      rw [hf] at hframes
      obtain ⟨top, hat⟩ := hframes.at
      refine ⟨hat.1.2.1.older x hx, ?_⟩
      rcases List.mem_append.mp (List.cons_append ▸ hx) with hx | hx
      · exact hat.outsides_ok hok.root _ hx x rfl
      · exact hok.around _ hx x rfl
  | group hgroup =>
      obtain ⟨-, G, hG, -, haround⟩ := hok.member q hgroup
      refine ⟨(h.core.group q G hG).older x (haround ▸ hx), hok.around _ hx x rfl⟩

/-- The token that the task had when it entered a wrapper. -/
def Frame.found : Frame → Option Token
  | .withStopToken _ saved => some saved
  | .withDeadline outer _ => some outer
  | .call | .withTaskGroup _ => none

theorem hook_tasks (th : Nat) (token : Token) : (s.hook th q token).tasks = s.tasks := by
  unfold State.hook
  split
  · rfl
  · split <;> rfl

theorem unhook_tasks {th : Nat} (hs : s.unhook th q = some s') : s'.tasks = s.tasks := by
  unfold State.unhook at hs
  split at hs
  · cases hs
    rfl
  · split at hs
    · cases hs
      rfl
    · split at hs
      · cases hs
      · cases hs
        rfl

/-- A task keeps the token it started with. -/
theorem advanceDeadline_root {th : Nat} {outer : Token} {place : Deadline} {rest : List Frame}
    (hs : s.advanceDeadline th t k outer rest place = some s') :
    ∃ k', s'.tasks = Function.update s.tasks t (some k') ∧ k'.root = k.root := by
  cases place with
  | check scheduler =>
      simp only [State.advanceDeadline] at hs
      split at hs <;> cases hs <;> exact ⟨_, rfl, rfl⟩
  | propagate q =>
      cases hs
      exact ⟨_, hook_tasks th k.token, rfl⟩
  | recheck q =>
      simp only [State.advanceDeadline] at hs
      split at hs <;> cases hs <;> exact ⟨_, rfl, rfl⟩
  | unhook q leave => exact ⟨_, unhook_tasks hs, rfl⟩
  | closed leave =>
      simp only [State.advanceDeadline] at hs
      split at hs <;> cases hs <;> exact ⟨_, rfl, rfl⟩
  | schedule q | opened q saved | stopSelf q leave | pass =>
      cases hs
      exact ⟨_, rfl, rfl⟩

/-- At the end of `with_stop_token` or `with_deadline` the token of the task is
    the one it had before. -/
theorem Inv.restored (h : Inv s) {th : Nat} {f : Frame} {rest : List Frame} {outer : Token}
    (hc : s.current th = some (t, k)) (hf : k.frames = f :: rest) (hfound : f.found = some outer)
    (hs : system.step s (.advance th) = some s') {k' : Task} (hk' : s'.tasks t = some k')
    (hrest : k'.frames = rest) : k'.token = outer := by
  have hk := (State.current_eq hc).1
  have h' : Inv s' := h.step (.advance th) hs
  have hframes := (h.task t k hk).frames
  rw [hf] at hframes
  have hs' : StopScope.step s (.advance th) = some s' := hs
  simp only [StopScope.step, hc, Option.bind_eq_bind, Option.bind_some, hf] at hs'
  have hroot : k'.root = k.root ∧ outer = inside k.root rest := by
    cases f with
    | call | withTaskGroup q => cases hfound
    | withStopToken token saved =>
        cases hfound
        cases hs'
        simp only [State.setTask, Function.update_self, Option.some.injEq] at hk'
        subst hk'
        exact ⟨rfl, hframes.1.2⟩
    | withDeadline outer place =>
        cases hfound
        obtain ⟨k₁, htasks, hroot⟩ := advanceDeadline_root hs'
        rw [htasks, Function.update_self] at hk'
        cases hk'
        exact ⟨hroot, hframes.1.1⟩
  rw [(h'.task t k' hk').token, hrest, hroot.1, hroot.2]

-- ============================================================================
-- Scopes
-- ============================================================================

/-- Cancellation is scoped by the nesting of wrappers, when no `request_stop` is
    in progress: a body is stopped only if its innermost wrapper says so; and it
    is if the wrapper says so, but for what does not stop the tasks of a
    `with_task_group` yet, between the end of its callback and its own
    `group.request_stop()` (`mustStop`, and not `shouldStop`).  What happens
    inside of a wrapper stops nothing outside, and the token outside is
    restored. -/
theorem nesting :
    (∀ s, system.Reachable s → s.Quiet → ∀ t k rest, s.tasks t = some k →
      k.frames = .call :: rest →
      (s.stopRequested k.token = true → s.shouldStop k k.frames = true) ∧
      (s.mustStop k k.frames = true → s.stopRequested k.token = true) ∧
      (s.closing k k.frames = false → s.mustStop k k.frames = s.shouldStop k k.frames)) ∧
    (∀ s, system.Reachable s → s.Quiet → ∀ t k q tokens x, s.tasks t = some k →
      Wraps k q tokens → some x ∈ tokens →
      ∀ s', system.Path (fun _ _ => True) s s' →
      (∀ o, o < q → (s'.sources o).requested = true → (s.sources o).requested = true) →
      (s'.sources x).stopped = (s.sources x).stopped) ∧
    (∀ s, system.Reachable s → ∀ th t k f rest outer, s.current th = some (t, k) →
      k.frames = f :: rest → f.found = some outer →
      ∀ s', system.step s (.advance th) = some s' →
      ∀ k', s'.tasks t = some k' → k'.frames = rest → k'.token = outer) := by
  refine ⟨fun s hs hquiet t k rest hk _ => ?_, fun s hs hquiet t k q tokens x hk hw hx => ?_,
    fun s hs th t k f rest outer hc hf hfound s' hstep k' hk' hrest => ?_⟩
  · have h := inv_of_reachable hs
    have hok := h.task t k hk
    rw [hok.token]
    exact ⟨h.shouldStop_of_stopped hk hok.frames, h.stopped_of_mustStop hquiet hk hok.frames,
      h.mustStop_eq hk⟩
  · intro s' hpath hreq
    obtain ⟨hxq, hvisible⟩ := (inv_of_reachable hs).older hk hw hx
    exact inward hs hquiet q hpath hreq hxq hvisible
  · exact (inv_of_reachable hs).restored hc hf hfound hstep hk' hrest

-- a timer that fires stops the body of `with_deadline`, and not the task outside
example : (system.run State.initial
      [.start 0 none, .withDeadline 0 true, .advance 0, .advance 0, .advance 0, .advance 0,
        .timer 1 0 true, .stop 1]).map
    (fun s => (s.tasks 0).map fun k => (s.stopRequested k.token, k.frames.length, s.stack 1)) =
    some (some (true, 3, [])) := by
  rfl

/-- The exception: the callback of a `with_task_group` has finished, nothing is
    in progress, and a task of the group is not stopped yet. -/
theorem nesting_closing : ∃ s, system.Reachable s ∧ s.Quiet ∧ ∃ t k rest, s.tasks t = some k ∧
    k.frames = .call :: rest ∧ s.shouldStop k k.frames = true ∧ s.stopRequested k.token = false := by
  have hrun : ∃ s, system.run State.initial
      [.start 0 none, .withTaskGroup 0, .advance 0, .add 1 0, .finish 0] = some s ∧
      s.stack = Function.update (Function.update (fun _ => []) 0 [.task 0]) 1 [.task 1] ∧
      ∃ k, s.tasks 1 = some k ∧ k.frames = [.call] ∧ s.shouldStop k k.frames = true ∧
        s.stopRequested k.token = false := ⟨_, rfl, rfl, _, rfl, rfl, rfl, rfl⟩
  obtain ⟨s, hs, hstack, k, hk, hframes, hshould, hstop⟩ := hrun
  refine ⟨s, System.reachable_of_run (.init rfl) hs, fun th q hand hmem => ?_, 1, k, [], hk,
    hframes, hshould, hstop⟩
  rw [hstack] at hmem
  by_cases h1 : th = 1
  · simp [h1] at hmem
  · by_cases h0 : th = 0
    · simp [h0] at hmem
    · simp [h0, h1] at hmem

end Coroactors.StopScope
