/-
  Coroactors.StopScope.Run

  The statements of `with_task_group` keep the invariant of nested wrappers, and
  so does every other step: it holds in every reachable state.
-/

import Coroactors.StopScope.Deadline

namespace Coroactors.StopScope

open Coroactors.Conc

variable {s s' : State} {th t q : Nat} {k : Task} {G : Group} {rest : List Frame}

-- ============================================================================
-- The statements of with_task_group
-- ============================================================================

/-- What is known of a task whose top coroutine is a `with_task_group`. -/
structure AtGroup (s : State) (t : Nat) (k : Task) (q : Nat) (G : Group) (rest : List Frame) :
    Prop where
  task : s.tasks t = some k
  frames : k.frames = .withTaskGroup q :: rest
  token : k.token = inside k.root rest
  group : s.groups q = some G
  ok : GroupOk s q G
  owner : (s.sources q).owner = some (t, rest.length)
  outside : (s.sources q).outside = inside k.root rest
  below : FramesOk s t k.root k.around false rest

theorem Inv.atGroup (h : Inv s) (hk : s.tasks t = some k)
    (hf : k.frames = .withTaskGroup q :: rest) (hG : s.groups q = some G) :
    AtGroup s t k q G rest := by
  have hok := h.task t k hk
  have hframes := hok.frames
  have htoken := hok.token
  rw [hf] at hframes htoken
  obtain ⟨⟨howner, hout, -⟩, hrest⟩ := hframes
  exact ⟨hk, hf, htoken, hG, h.core.group q G hG, howner, hout, hrest⟩

theorem setTask_self (hk : s.tasks t = some k) : s.setTask t k = s := by
  simp only [State.setTask, ← hk, Function.update_eq_self]

/-- The `propagate` of a `with_task_group` comes or goes. -/
theorem Inv.group_moves (h : Inv s) (hg : AtGroup s t k q G rest) (phase : Phase) {k' : Task}
    (hm : Moves ((s.setTask t k').setGroup q { G with phase := phase }) s' q phase.stage)
    (hvisible : phase.stage.Visible) (hpropagate : phase ≠ .propagate)
    (hdraining : phase ≠ .draining) (hgone : phase ≠ .gone)
    (hroot : k'.root = k.root) (haround : k'.around = k.around) (hgroup : k'.group = k.group)
    (htoken : k'.token = inside k.root k'.frames)
    (hframes : FramesOk s' t k.root k.around true (.withTaskGroup q :: rest) →
      (phase = .opened → FramesOk s' t k.root k.around false (.withTaskGroup q :: rest)) →
      FramesOk s' t k.root k.around true k'.frames) : Inv s' := by
  have hq := h.core.lt_of_group hg.group
  have hother : ∀ r, r ≠ q →
      ((s.setTask t k').setGroup q { G with phase := phase }).groups r = s.groups r :=
    fun r hr => Function.update_of_ne hr _ _
  have hself : ((s.setTask t k').setGroup q { G with phase := phase }).groups q =
      some { G with phase := phase } := Function.update_self _ _ _
  have hcore : Core s' := by
    refine hm.core h.core rfl rfl rfl hother hq (fun _ => hvisible) (fun _ => ?_) fun G' hG' => ?_
    · exact .inr (.inr (.inr (by simp [hself])))
    · rw [hself, Option.some.injEq] at hG'
      subst hG'
      exact ⟨rfl, fun hp => (hp.elim hdraining hgone).elim,
        fun hp => (hp.elim hpropagate hgone).elim, hg.ok.outer, hg.ok.older, hg.ok.visible⟩
  have he : Effect s s' (some (t, rest.length)) := by
    refine hm.effect rfl hother (fun _ => hvisible) (fun _ hne => absurd hg.owner hne)
      fun G' hG' => ?_
    obtain rfl : G' = G := Option.some.inj (hG'.symm.trans hg.group)
    exact ⟨_, hself, rfl, rfl⟩
  have hframe : ∀ top, (top = false → phase = .opened) →
      FramesOk s' t k.root k.around top (.withTaskGroup q :: rest) := by
    intro top htop
    refine ⟨⟨hm.self.owner.trans hg.owner, hm.self.outside.trans hg.outside, phase, ?_, htop⟩,
      hg.below.effect he⟩
    rw [hm.groups, hself]
    rfl
  exact h.move hg.task hm.tasks hm.nextTask hcore he (by simp) hroot haround hgroup htoken
    (hframes (hframe true (by simp)) fun hp => hframe false fun _ => hp)

theorem Inv.group_propagate (h : Inv s) (hg : AtGroup s t k q G rest)
    (hphase : G.phase = .propagate) :
    Inv (((s.setTask t { k with frames := .call :: .withTaskGroup q :: rest }).setGroup
      q { G with phase := .opened }).hook th q k.token) := by
  have hq := h.core.lt_of_group hg.group
  have hstage := hg.ok.stage
  rw [hphase] at hstage
  have hm : Moves ((s.setTask t { k with frames := .call :: .withTaskGroup q :: rest }).setGroup
      q { G with phase := .opened }) (((s.setTask t
        { k with frames := .call :: .withTaskGroup q :: rest }).setGroup
      q { G with phase := .opened }).hook th q k.token) q .live :=
    hook_moves h.core.stops hstage (hg.outside.trans hg.token.symm) hq
  exact h.group_moves hg .opened hm ⟨by simp [Phase.stage], by simp [Phase.stage]⟩
    (by simp) (by simp) (by simp) rfl rfl rfl hg.token fun _ hopen => ⟨trivial, hopen rfl⟩

theorem Inv.group_unhook (h : Inv s) (hg : AtGroup s t k q G rest) (hphase : G.phase = .finished)
    (hs : (s.setGroup q { G with phase := .stopping }).unhook th q = some s') : Inv s' := by
  have hq := h.core.lt_of_group hg.group
  have hstage := hg.ok.stage
  rw [hphase] at hstage
  have hm : Moves (s.setGroup q { G with phase := .stopping }) s' q .ended :=
    unhook_moves h.core.stops hstage hq hs
  rw [← setTask_self hg.task] at hm
  refine h.group_moves hg .stopping hm ⟨by simp [Phase.stage], by simp [Phase.stage]⟩
    (by simp) (by simp) (by simp) rfl rfl rfl ?_ fun htop _ => ?_
  · rw [hg.frames]
    exact hg.token
  · rw [hg.frames]
    exact htop

theorem Inv.group_stop (h : Inv s) (hg : AtGroup s t k q G rest) (hphase : G.phase = .stopping) :
    Inv ((s.setGroup q { G with phase := .draining }).requestStop th q true) := by
  have hq := h.core.lt_of_group hg.group
  obtain ⟨hcore, he⟩ := h.core.requestStop_plain th hq (.inr (.inr (by simp [hg.group])))
  have h₁ : Inv (s.requestStop th q true) := h.still rfl rfl hcore he
  have hg₁ : AtGroup (s.requestStop th q true) t k q G rest := h₁.atGroup hg.task hg.frames hg.group
  have hstage := hg₁.ok.stage
  rw [hphase] at hstage
  have hok : GroupOk (s.requestStop th q true) q { G with phase := .draining } := by
    refine ⟨hstage, fun _ => ?_, by simp, hg₁.ok.outer, hg₁.ok.older, hg₁.ok.visible⟩
    simp [State.requestStop, State.setSource]
  have h₂ := h₁.setPhase hg₁.task hg₁.group hg₁.owner .draining hok k rfl rfl rfl ?_ fun he₂ => ?_
  · rw [setTask_self hg₁.task] at h₂
    exact h₂
  · rw [hg.frames]
    exact hg.token
  · rw [hg.frames]
    refine ⟨⟨hg₁.owner, hg₁.outside, .draining, ?_, by simp⟩, hg₁.below.effect he₂⟩
    simp [State.setGroup]

theorem Inv.group_leave (h : Inv s) (hg : AtGroup s t k q G rest) (hphase : G.phase = .draining)
    (hrunning : G.running = []) :
    Inv ((s.setTask t { k with frames := rest }).setGroup q { G with phase := .gone }) := by
  have hstage := hg.ok.stage
  rw [hphase] at hstage
  have hok : GroupOk s q { G with phase := .gone } :=
    ⟨hstage, fun _ => hg.ok.requested (.inl hphase), fun _ => hrunning, hg.ok.outer, hg.ok.older,
      hg.ok.visible⟩
  exact h.setPhase hg.task hg.group hg.owner .gone hok { k with frames := rest } rfl rfl rfl
    hg.token fun he => (hg.below.effect he).top

theorem Inv.advanceGroup (h : Inv s) (hg : AtGroup s t k q G rest)
    (hs : s.advanceGroup th t k q G rest = some s') : Inv s' := by
  unfold State.advanceGroup at hs
  split at hs
  · rename_i hphase
    cases hs
    exact h.group_propagate hg hphase
  · cases hs
  · rename_i hphase
    exact h.group_unhook hg hphase hs
  · rename_i hphase
    cases hs
    exact h.group_stop hg hphase
  · rename_i hphase
    split at hs
    · rename_i hrunning
      cases hs
      exact h.group_leave hg hphase hrunning
    · cases hs
  · cases hs

-- ============================================================================
-- Runs
-- ============================================================================

/-- `with_stop_token` ends. -/
theorem Inv.restoreToken (h : Inv s) (hk : s.tasks t = some k) {token saved : Token}
    (hf : k.frames = .withStopToken token saved :: rest) :
    Inv (s.setTask t { k with token := saved, frames := rest }) := by
  have hframes := (h.task t k hk).frames
  rw [hf] at hframes
  exact h.setTask hk _ rfl rfl rfl hframes.1.2 hframes.2.top

theorem Inv.advance (h : Inv s) (hs : step s (.advance th) = some s') : Inv s' := by
  obtain ⟨⟨t, k⟩, hc, hs⟩ := Option.bind_eq_some_iff.mp hs
  have hk := (State.current_eq hc).1
  simp only at hs
  split at hs
  · rename_i hf
    cases hs
    exact h.restoreToken hk hf
  · rename_i hf
    exact h.advanceDeadline (h.atDeadline hk hf) hs
  · rename_i q rest hf
    obtain ⟨G, hG, hs⟩ := Option.bind_eq_some_iff.mp hs
    exact h.advanceGroup (h.atGroup hk hf hG) hs
  · cases hs

theorem Inv.request (h : Inv s)
    (hq : (s.sources q).stage = .external ∨ s.groups q ≠ none) :
    Inv (s.requestStop th q true) := by
  have hlt : q < s.nextSource := by
    by_contra hlt
    obtain ⟨hfresh, hnone⟩ := h.core.fresh q (Nat.le_of_not_lt hlt)
    rcases hq with hq | hq
    · rw [hfresh] at hq
      cases hq
    · exact hq hnone
  obtain ⟨hcore, he⟩ := h.core.requestStop_plain th hlt (.inr hq)
  exact h.still rfl rfl hcore he

theorem Inv.timer (h : Inv s) (harmed : (s.sources q).armed = true) :
    Inv ((s.setSource q { s.sources q with fired := true }).requestStop th q true) := by
  have hlt : q < s.nextSource := by
    by_contra hlt
    rw [(h.core.fresh q (Nat.le_of_not_lt hlt)).1] at harmed
    cases harmed
  obtain ⟨hcore, he⟩ := h.core.requestStop th hlt true (fun _ => harmed) (.inr (.inl rfl))
    rfl
  exact h.still rfl rfl hcore he

theorem Inv.stop (h : Inv s) {hand : Hand} {l : List Item}
    (hstack : s.stack th = .request q hand :: l) : Inv (s.stopStep th q hand l) := by
  have hm := stopStep_moves h.core hstack s.nextSource
  have hlike : ∀ r, Like ((s.stopStep th q hand l).sources r) (s.sources r) :=
    fun r => (stopStep_moves h.core hstack (r + 1)).like r (Nat.ne_of_lt (Nat.lt_succ_self r))
  have hvis : ∀ r, (s.sources r).stage.Visible →
      ((s.stopStep th q hand l).sources r).stage.Visible := by
    intro r hr
    rw [(hlike r).stage]
    exact hr
  have he : Effect s (s.stopStep th q hand l) none := by
    refine ⟨hvis, fun r _ _ => ?_, fun r G hG => ⟨G, by rw [hm.groups, hG], rfl, rfl⟩⟩
    have hl := hlike r
    rw [State.shape, State.shape, hl.stage, hl.outside, hl.owner, hl.armed, hm.groups]
  have hcore : Core (s.stopStep th q hand l) := by
    refine ⟨hm.stops, fun r hr => ?_, fun r hr => ?_, fun r hf => ?_, fun r G hG => ?_, ?_⟩
    · rw [hm.nextSource] at hr
      rw [hm.fresh r hr, hm.groups]
      exact h.core.fresh r hr
    · rw [(hlike r).stage, (hlike r).fired, hm.groups]
      exact h.core.direct r ((hlike r).requested ▸ hr)
    · rw [(hlike r).requested, (hlike r).armed]
      exact h.core.fired r ((hlike r).fired ▸ hf)
    · have hok := h.core.group r G (hm.groups ▸ hG)
      have hl := hlike r
      exact ⟨by rw [hl.stage]; exact hok.stage, by rw [hl.requested]; exact hok.requested,
        hok.running, by rw [hl.outside]; exact hok.outer, hok.older,
        fun token ht => (hok.visible token ht).mono hvis⟩
    · rw [hm.assertFailed]
      exact h.core.noAssert
  exact h.still hm.tasks hm.nextTask hcore he

theorem Inv.step (h : Inv s) (a : Act) (hs : step s a = some s') : Inv s' := by
  cases a with
  | source =>
      cases hs
      obtain ⟨hcore, he⟩ := h.core.newSource .external none none (by simp) (by simp [TokenOk])
      exact h.still rfl rfl hcore he
  | start th token =>
      simp only [StopScope.step, Option.ite_none_right_eq_some, Bool.and_eq_true,
        Option.some.injEq] at hs
      exact hs.2 ▸ h.start hs.1.2
  | request th q =>
      simp only [StopScope.step, Option.ite_none_right_eq_some, Bool.and_eq_true, Bool.or_eq_true,
        decide_eq_true_eq, Option.some.injEq] at hs
      obtain ⟨⟨-, hq⟩, rfl⟩ := hs
      refine h.request (hq.imp_right fun hG => ?_)
      exact Option.isSome_iff_ne_none.mp hG
  | timer th q deadline =>
      simp only [StopScope.step, Option.ite_none_right_eq_some, Bool.and_eq_true] at hs
      obtain ⟨⟨-, harmed⟩, hs⟩ := hs
      cases deadline with
      | true =>
          cases hs
          exact h.timer harmed
      | false =>
          cases hs
          exact h
  | call th =>
      obtain ⟨⟨t, k, rest⟩, hb, hs⟩ := Option.bind_eq_some_iff.mp hs
      cases hs
      exact h.call hb
  | withStopToken th token =>
      obtain ⟨⟨t, k, rest⟩, hb, hs⟩ := Option.bind_eq_some_iff.mp hs
      simp only [Option.ite_none_right_eq_some, Option.some.injEq] at hs
      exact hs.2 ▸ h.withStopToken hb hs.1
  | withDeadline th scheduler =>
      obtain ⟨⟨t, k, rest⟩, hb, hs⟩ := Option.bind_eq_some_iff.mp hs
      cases hs
      exact h.withDeadline hb scheduler
  | withTaskGroup th =>
      obtain ⟨⟨t, k, rest⟩, hb, hs⟩ := Option.bind_eq_some_iff.mp hs
      cases hs
      exact h.withTaskGroup hb
  | add th q =>
      obtain ⟨G, hG, hs⟩ := Option.bind_eq_some_iff.mp hs
      simp only [Option.ite_none_right_eq_some, Bool.and_eq_true, decide_eq_true_eq,
        Option.some.injEq] at hs
      obtain ⟨⟨⟨-, hopen⟩, hgone⟩, rfl⟩ := hs
      exact h.add hG hopen hgone
  | finish th =>
      obtain ⟨⟨t, k, rest⟩, hb, hs⟩ := Option.bind_eq_some_iff.mp hs
      exact h.finishBody hb hs
  | advance th => exact h.advance hs
  | suspend th =>
      obtain ⟨⟨t, k⟩, hc, hs⟩ := Option.bind_eq_some_iff.mp hs
      cases hs
      exact h.suspend hc
  | resume th t =>
      obtain ⟨k, hk, hs⟩ := Option.bind_eq_some_iff.mp hs
      simp only at hs
      split at hs
      · cases hs
      · cases hs
        exact h.resume hk
  | stop th =>
      simp only [StopScope.step] at hs
      split at hs
      · rename_i hstack
        cases hs
        exact h.stop hstack
      · cases hs

theorem Inv.initial : Inv State.initial := by
  refine ⟨⟨⟨?_, ?_, ?_, ?_, ?_, ?_, ?_, ?_⟩, fun _ _ => ⟨rfl, rfl⟩, ?_, ?_, ?_, rfl⟩, ?_,
    fun _ _ => rfl⟩ <;> simp [State.initial, State.busy]

theorem inv_of_reachable (h : system.Reachable s) : Inv s :=
  h.invariant (fun _ hs => hs ▸ Inv.initial) fun _ a _ hi _ hs => hi.step a hs

end Coroactors.StopScope
