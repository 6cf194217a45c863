/-
  Coroactors.StopScope.Deadline

  The statements of `with_deadline_impl` keep the invariant of nested wrappers,
  and its assertion does not fail.
-/

import Coroactors.StopScope.Wrappers

namespace Coroactors.StopScope

variable {s s' : State} {th t q : Nat} {k : Task} {rest : List Frame}

-- ============================================================================
-- The statements of with_deadline
-- ============================================================================

/-- What is known of a task whose top coroutine is a `with_deadline`. -/
structure AtDeadline (s : State) (t : Nat) (k : Task) (outer : Token) (place : Deadline)
    (rest : List Frame) : Prop where
  task : s.tasks t = some k
  token : k.token = inside k.root (.withDeadline outer place :: rest)
  outer_eq : outer = inside k.root rest
  outer_ok : TokenOk s outer
  around : ∀ token ∈ outer :: (outsides rest ++ k.around), TokenOk s token
  place : DeadlineOk s (t, rest.length) outer (outer :: (outsides rest ++ k.around)) place
  below : FramesOk s t k.root k.around false rest

theorem Inv.atDeadline (h : Inv s) (hk : s.tasks t = some k) {outer : Token} {place : Deadline}
    (hf : k.frames = .withDeadline outer place :: rest) : AtDeadline s t k outer place rest := by
  have hok := h.task t k hk
  have hframes := hok.frames
  have htoken := hok.token
  have haround := hok.tokensAround_ok
  rw [hf] at hframes htoken
  rw [State.tokensAround, hf] at haround
  obtain ⟨⟨houter, hplace⟩, hrest⟩ := hframes
  refine ⟨hk, htoken, houter, ?_, haround, hplace, hrest⟩
  rw [houter]
  exact hrest.inside_ok hok.root

section Deadline

variable {outer saved : Token} {leave : Bool}

theorem Inv.deadline_enter (h : Inv s) {scheduler : Bool}
    (hd : AtDeadline s t k outer (.check scheduler) rest) :
    Inv ((s.newSource .entering k.token (some (t, rest.length))).setTask t
      { k with frames := .withDeadline outer (.propagate s.nextSource) :: rest }) := by
  have htoken : k.token = outer := hd.token.trans hd.outer_eq.symm
  obtain ⟨hcore, he⟩ := h.core.newSource .entering k.token (some (t, rest.length)) (by simp)
    (htoken ▸ hd.outer_ok)
  have hself : (s.newSource .entering k.token (some (t, rest.length))).sources s.nextSource =
      ⟨.entering, false, [], k.token, none, false, false, false, some (t, rest.length)⟩ := by
    simp [State.newSource, State.setSource]
  have he' : Effect s ((s.newSource .entering k.token (some (t, rest.length))).setTask t
      { k with frames := .withDeadline outer (.propagate s.nextSource) :: rest }) none :=
    ⟨he.visible, he.shape, he.members⟩
  refine h.move hd.task rfl rfl (hcore.congr rfl rfl rfl rfl rfl) he' (by simp) rfl rfl rfl
    hd.token ⟨⟨hd.outer_eq, ⟨?_, ?_, ?_, ?_, fun x hx => ?_⟩, ?_⟩, hd.below.frame he'⟩
  · exact congrArg Source.owner hself
  · exact congrArg Source.stage hself
  · exact (congrArg Source.outside hself).trans htoken
  · exact (h.core.fresh s.nextSource (Nat.le_refl _)).2
  · exact h.core.lt_of_visible (hd.around _ hx x rfl)
  · exact congrArg Source.armed hself

/-- Without a source of its own, now or any more. -/
theorem Inv.deadline_pass (h : Inv s) {place : Deadline}
    (hd : AtDeadline s t k outer place rest) (htoken : k.token = outer) :
    Inv (s.setTask t { k with frames := .call :: .withDeadline outer .pass :: rest }) :=
  h.setTask hd.task _ rfl rfl rfl (htoken.trans hd.outer_eq) ⟨trivial, ⟨hd.outer_eq, trivial⟩, hd.below⟩

theorem Inv.deadline_leave (h : Inv s) {place : Deadline}
    (hd : AtDeadline s t k outer place rest) (htoken : k.token = outer) :
    Inv (s.setTask t { k with frames := rest }) :=
  h.setTask hd.task _ rfl rfl rfl (htoken.trans hd.outer_eq) hd.below.top

theorem Own.lt {owner : Nat × Nat} {around : List Token} {stage : Stage} (h : Core s)
    (ho : Own s owner outer around q stage) : q < s.nextSource := by
  by_contra hlt
  have howner := ho.owner
  rw [(h.fresh q (Nat.le_of_not_lt hlt)).1] at howner
  cases howner

/-- A `propagate` of a `with_deadline` comes or goes. -/
theorem Inv.deadline_moves (h : Inv s) {place place' : Deadline} {stage stage' : Stage}
    (hd : AtDeadline s t k outer place rest)
    (ho : Own s (t, rest.length) outer (outer :: (outsides rest ++ k.around)) q stage)
    (hm : Moves (s.setTask t { k with frames := .withDeadline outer place' :: rest }) s' q stage')
    (htoken : k.token = inside k.root (.withDeadline outer place' :: rest))
    (hvisible : stage'.Visible)
    (hdirect : (s.sources q).requested = true →
      stage' = .ended ∨ (s.sources q).fired = true ∨ stage' = .external)
    (hplace : Own s' (t, rest.length) outer (outer :: (outsides rest ++ k.around)) q stage' →
      (s'.sources q).armed = (s.sources q).armed →
      DeadlineOk s' (t, rest.length) outer (outer :: (outsides rest ++ k.around)) place') :
    Inv s' := by
  have hcore : Core s' := by
    refine hm.core h.core rfl rfl rfl (fun _ _ => rfl) (ho.lt h.core) (fun _ => hvisible)
      (fun hr => ?_) fun G hG => ?_
    · rcases hdirect hr with he | he | he
      · exact .inl he
      · exact .inr (.inl he)
      · exact .inr (.inr (.inl he))
    · have hnone : s.groups q = some G := hG
      rw [ho.plain] at hnone
      cases hnone
  have he : Effect s s' (some (t, rest.length)) :=
    hm.effect rfl (fun _ _ => rfl) (fun _ => hvisible) (fun _ hne => absurd ho.owner hne)
      fun G hG => ⟨G, hG, rfl, rfl⟩
  have hown : Own s' (t, rest.length) outer (outer :: (outsides rest ++ k.around)) q stage' := by
    refine ⟨hm.self.owner.trans ho.owner, hm.self.stage, hm.self.outside.trans ho.outside, ?_,
      ho.older⟩
    rw [hm.groups]
    exact ho.plain
  refine h.move hd.task hm.tasks hm.nextTask hcore he (by simp) rfl rfl rfl htoken
    ⟨⟨hd.outer_eq, hplace hown hm.self.armed⟩, hd.below.effect he⟩

theorem Inv.deadline_propagate (h : Inv s) (hd : AtDeadline s t k outer (.propagate q) rest) :
    Inv ((s.setTask t { k with frames := .withDeadline outer (.recheck q) :: rest }).hook
      th q k.token) := by
  obtain ⟨ho, harmed⟩ := hd.place
  have htoken : k.token = outer := hd.token.trans hd.outer_eq.symm
  have hq : q < s.nextSource := ho.lt h.core
  have hm : Moves (s.setTask t { k with frames := .withDeadline outer (.recheck q) :: rest })
      ((s.setTask t { k with frames := .withDeadline outer (.recheck q) :: rest }).hook
        th q k.token) q .live :=
    hook_moves h.core.stops ho.stage (ho.outside.trans htoken.symm) hq
  refine h.deadline_moves hd ho hm hd.token ⟨by simp, by simp⟩ (fun hr => ?_)
    fun hown ha => ⟨hown, ha.trans harmed⟩
  rcases h.core.direct q hr with he | he | he | he
  · rw [ho.stage] at he
    cases he
  · exact .inr (.inl he)
  · rw [ho.stage] at he
    cases he
  · exact absurd ho.plain he

theorem Inv.deadline_unhook (h : Inv s) (hd : AtDeadline s t k outer (.unhook q leave) rest)
    (hs : (s.setTask t { k with frames := .withDeadline outer (.stopSelf q leave) :: rest }).unhook
      th q = some s') : Inv s' := by
  have ho : Own s (t, rest.length) outer (outer :: (outsides rest ++ k.around)) q .live := hd.place
  have hq : q < s.nextSource := ho.lt h.core
  exact h.deadline_moves hd ho (unhook_moves h.core.stops ho.stage hq hs) hd.token
    ⟨by simp, by simp⟩ (fun _ => .inl rfl) fun hown _ => hown

/-- The check of its own token finds a stop: the token outside was stopped. -/
theorem Inv.deadline_stopped (h : Inv s) (hd : AtDeadline s t k outer (.recheck q) rest)
    (hstop : s.stopRequested (some q) = true) : s.stopRequested k.token = true := by
  obtain ⟨ho, harmed⟩ := hd.place
  have htoken : k.token = outer := hd.token.trans hd.outer_eq.symm
  have hq : (s.sources q).stopped = true := by simpa [State.stopRequested] using hstop
  rw [htoken, State.stopRequested_iff, ← ho.outside]
  refine (h.core.stops.cause q hq).resolve_left fun hr => ?_
  rcases h.core.direct q hr with he | he | he | he
  · rw [ho.stage] at he
    cases he
  · simp [(h.core.fired q he).2] at harmed
  · rw [ho.stage] at he
    cases he
  · exact he ho.plain

theorem Inv.deadline_fallback (h : Inv s) (hd : AtDeadline s t k outer (.recheck q) rest)
    (hstop : s.stopRequested (some q) = true) :
    Inv { s.setTask t { k with frames := .withDeadline outer (.unhook q false) :: rest } with
      assertFailed := s.assertFailed || !s.stopRequested k.token } := by
  have hassert : (s.assertFailed || !s.stopRequested k.token) = s.assertFailed := by
    simp [h.deadline_stopped hd hstop]
  rw [hassert]
  exact h.setTask hd.task _ rfl rfl rfl hd.token ⟨⟨hd.outer_eq, hd.place.1⟩, hd.below⟩

theorem Inv.deadline_arm (h : Inv s) (hd : AtDeadline s t k outer (.recheck q) rest) :
    Inv ((s.setTask t { k with frames := .withDeadline outer (.schedule q) :: rest }).setSource
      q { s.sources q with armed := true }) := by
  obtain ⟨ho, -⟩ := hd.place
  have hq : q < s.nextSource := ho.lt h.core
  have hself : Function.update s.sources q { s.sources q with armed := true } q =
      { s.sources q with armed := true } := Function.update_self _ _ _
  have hother : ∀ r, r ≠ q →
      Function.update s.sources q { s.sources q with armed := true } r = s.sources r :=
    fun r hr => Function.update_of_ne hr _ _
  have hsame : ∀ r, Stops.Same
      (Function.update s.sources q { s.sources q with armed := true } r) (s.sources r) := by
    intro r
    by_cases hrq : r = q
    · rw [hrq, hself]
      exact ⟨rfl, rfl, rfl, rfl, rfl⟩
    · rw [hother r hrq]
      exact Stops.Same.refl _
  have hlike : ∀ r, r ≠ q → Like
      (Function.update s.sources q { s.sources q with armed := true } r) (s.sources r) := by
    intro r hr
    rw [hother r hr]
    exact Like.refl _
  have hcore : Core ((s.setTask t
      { k with frames := .withDeadline outer (.schedule q) :: rest }).setSource
      q { s.sources q with armed := true }) := by
    refine h.core.change q (h.core.stops.congr hsame) hlike (fun _ _ => rfl) (Nat.le_refl _)
      hq (fun r hr => ?_) (fun hv => ?_) (fun hr => ?_) (fun hf => ?_)
      (fun _ G hG => ?_) h.core.noAssert
    · exact hother r (Nat.ne_of_gt (Nat.lt_of_lt_of_le hq hr))
    · exact (congrArg Source.stage hself).symm ▸ hv
    · have hr' : (s.sources q).requested = true :=
        (congrArg Source.requested hself).symm.trans hr
      rw [show ((s.setTask t
        { k with frames := .withDeadline outer (.schedule q) :: rest }).setSource
        q { s.sources q with armed := true }).sources q = { s.sources q with armed := true }
        from hself]
      exact h.core.direct q hr'
    · have hf' : (s.sources q).fired = true := (congrArg Source.fired hself).symm.trans hf
      exact ⟨(congrArg Source.requested hself).trans (h.core.fired q hf').1,
        congrArg Source.armed hself⟩
    · have hnone : s.groups q = some G := hG
      rw [ho.plain] at hnone
      cases hnone
  have he : Effect s ((s.setTask t
      { k with frames := .withDeadline outer (.schedule q) :: rest }).setSource
      q { s.sources q with armed := true }) (some (t, rest.length)) := by
    refine Effect.change q hlike (fun _ _ => rfl) (fun hv => ?_)
      (fun _ hne => absurd ho.owner hne) fun G hG => ⟨G, hG, rfl, rfl⟩
    exact (congrArg Source.stage hself).symm ▸ hv
  refine h.move hd.task rfl rfl hcore he (by simp) rfl rfl rfl hd.token
    ⟨⟨hd.outer_eq, ⟨?_, ?_, ?_, ho.plain, ho.older⟩⟩, hd.below.effect he⟩
  · exact (congrArg Source.owner hself).trans ho.owner
  · exact (congrArg Source.stage hself).trans ho.stage
  · exact (congrArg Source.outside hself).trans ho.outside

theorem Inv.deadline_open (h : Inv s) (hd : AtDeadline s t k outer (.schedule q) rest) :
    Inv (s.setTask t
      { k with
        token := some q
        frames := .call :: .withDeadline outer (.opened q k.token) :: rest }) :=
  h.setTask hd.task _ rfl rfl rfl rfl
    ⟨trivial, ⟨hd.outer_eq, hd.place, hd.token.trans hd.outer_eq.symm⟩, hd.below⟩

theorem Inv.deadline_restore (h : Inv s) (hd : AtDeadline s t k outer (.opened q saved) rest) :
    Inv (s.setTask t
      { k with token := saved, frames := .withDeadline outer (.unhook q true) :: rest }) :=
  h.setTask hd.task _ rfl rfl rfl (hd.place.2.trans hd.outer_eq) ⟨⟨hd.outer_eq, hd.place.1⟩, hd.below⟩

theorem Inv.deadline_stopSelf (h : Inv s) (hd : AtDeadline s t k outer (.stopSelf q leave) rest) :
    Inv ((s.setTask t { k with frames := .withDeadline outer (.closed leave) :: rest }).requestStop
      th q true) := by
  have ho : Own s (t, rest.length) outer (outer :: (outsides rest ++ k.around)) q .ended :=
    hd.place
  have hcore₀ : Core (s.setTask t { k with frames := .withDeadline outer (.closed leave) :: rest }) :=
    h.core.congr rfl rfl rfl rfl rfl
  have hq : q < s.nextSource := ho.lt h.core
  obtain ⟨hcore, he⟩ := hcore₀.requestStop_plain th hq (.inl ho.stage)
  have he' : Effect s ((s.setTask t
      { k with frames := .withDeadline outer (.closed leave) :: rest }).requestStop th q true)
      none := ⟨he.visible, he.shape, he.members⟩
  exact h.move hd.task rfl rfl hcore he' (by simp) rfl rfl rfl hd.token
    ⟨⟨hd.outer_eq, trivial⟩, hd.below.frame he'⟩

theorem Inv.advanceDeadline (h : Inv s) {place : Deadline}
    (hd : AtDeadline s t k outer place rest)
    (hs : s.advanceDeadline th t k outer rest place = some s') : Inv s' := by
  cases place with
  | check scheduler =>
      simp only [State.advanceDeadline] at hs
      split at hs
      · cases hs
        exact h.deadline_enter hd
      · cases hs
        exact h.deadline_pass hd (hd.token.trans hd.outer_eq.symm)
  | propagate q =>
      cases hs
      exact h.deadline_propagate hd
  | recheck q =>
      simp only [State.advanceDeadline] at hs
      split at hs
      · rename_i hstop
        cases hs
        exact h.deadline_fallback hd hstop
      · cases hs
        exact h.deadline_arm hd
  | schedule q =>
      cases hs
      exact h.deadline_open hd
  | opened q saved =>
      cases hs
      exact h.deadline_restore hd
  | unhook q leave => exact h.deadline_unhook hd hs
  | stopSelf q leave =>
      cases hs
      exact h.deadline_stopSelf hd
  | closed leave =>
      simp only [State.advanceDeadline] at hs
      split at hs
      · cases hs
        exact h.deadline_leave hd (hd.token.trans hd.outer_eq.symm)
      · cases hs
        exact h.deadline_pass hd (hd.token.trans hd.outer_eq.symm)
  | pass =>
      cases hs
      exact h.deadline_leave hd (hd.token.trans hd.outer_eq.symm)

end Deadline

end Coroactors.StopScope
