/-
  Coroactors.StopScope.Wrappers

  The invariant of nested wrappers while tasks start, call, await and end, and
  what a `request_stop` or a new source changes.
-/

import Coroactors.StopScope.Steps

namespace Coroactors.StopScope

variable {s s' s₀ : State} {th t q : Nat} {k : Task} {G : Group} {rest : List Frame}
  {own : Option (Nat × Nat)}

-- ============================================================================
-- Sources and groups
-- ============================================================================

/-- A `propagate` comes or goes. -/
theorem Moves.core {stage : Stage} (hm : Moves s₀ s' q stage) (h : Core s)
    (hsources : s₀.sources = s.sources) (hnext : s₀.nextSource = s.nextSource)
    (hassert : s₀.assertFailed = s.assertFailed) (hgroups : ∀ r, r ≠ q → s₀.groups r = s.groups r)
    (hq : q < s.nextSource) (hvisible : (s.sources q).stage.Visible → stage.Visible)
    (hdirect : (s.sources q).requested = true →
      stage = .ended ∨ (s.sources q).fired = true ∨ stage = .external ∨ s₀.groups q ≠ none)
    (hgroup : ∀ G, s₀.groups q = some G → G.phase.stage = stage ∧
      (G.phase = .draining ∨ G.phase = .gone → (s.sources q).requested = true) ∧
      (G.phase = .propagate ∨ G.phase = .gone → G.running = []) ∧
      G.around.head? = some (s.sources q).outside ∧ (∀ x, some x ∈ G.around → x < q) ∧
      ∀ token ∈ G.around, TokenOk s token) : Core s' := by
  have hself : Like (s'.sources q) { s.sources q with stage := stage } := by
    rw [← hsources]
    exact hm.self
  refine h.change q hm.stops (fun r hr => ?_) (fun r hr => ?_) ?_ ?_ (fun r hr => ?_)
    (fun hv => ?_) (fun hr => ?_) (fun hf => ?_) (fun hvis G hG => ?_) ?_
  · rw [← hsources]
    exact hm.like r hr
  · rw [hm.groups]
    exact hgroups r hr
  · exact Nat.le_of_eq (hm.nextSource.trans hnext).symm
  · rw [hm.nextSource, hnext]
    exact hq
  · rw [← hsources]
    exact hm.fresh r (hm.nextSource ▸ hr)
  · rw [hself.stage]
    exact hvisible hv
  · rw [hself.stage, hself.fired, hm.groups]
    exact hdirect (hself.requested ▸ hr)
  · rw [hself.requested, hself.armed]
    exact h.fired q (hself.fired ▸ hf)
  · obtain ⟨hstage, hreq, hrunning, houter, holder, htokens⟩ := hgroup G (hm.groups ▸ hG)
    exact ⟨by rw [hself.stage, hstage], by rw [hself.requested]; exact hreq, hrunning,
      by rw [hself.outside]; exact houter, holder, fun token ht => (htokens token ht).mono hvis⟩
  · rw [hm.assertFailed, hassert]
    exact h.noAssert

theorem Moves.effect {stage : Stage} (hm : Moves s₀ s' q stage)
    (hsources : s₀.sources = s.sources) (hgroups : ∀ r, r ≠ q → s₀.groups r = s.groups r)
    (hvisible : (s.sources q).stage.Visible → stage.Visible)
    (hshape : (s.sources q).owner ≠ none → (s.sources q).owner ≠ own →
      (s.sources q).stage = stage ∧ (s₀.groups q).map Group.phase = (s.groups q).map Group.phase)
    (hmembers : ∀ G, s.groups q = some G →
      ∃ G', s₀.groups q = some G' ∧ G'.running = G.running ∧ G'.around = G.around) :
    Effect s s' own := by
  have hself : Like (s'.sources q) { s.sources q with stage := stage } := by
    rw [← hsources]
    exact hm.self
  refine Effect.change q (fun r hr => ?_) (fun r hr => ?_) (fun hv => ?_) (fun ho hne => ?_)
    fun G hG => ?_
  · rw [← hsources]
    exact hm.like r hr
  · rw [hm.groups]
    exact hgroups r hr
  · rw [hself.stage]
    exact hvisible hv
  · obtain ⟨hstage, hphase⟩ := hshape ho hne
    rw [State.shape, State.shape, hself.stage, hself.outside, hself.owner, hself.armed, hm.groups,
      hphase, ← hstage]
  · rw [hm.groups]
    exact hmembers G hG

/-- `request_stop` that no `propagate` calls; `fired` if a timer does. -/
theorem Core.requestStop (h : Core s) (th : Nat) (hq : q < s.nextSource) (fired : Bool)
    (hfired : fired = true → (s.sources q).armed = true)
    (hdirect : (s.sources q).stage = .ended ∨ fired = true ∨ (s.sources q).stage = .external ∨
      s.groups q ≠ none)
    (hs : s' = (s.setSource q { s.sources q with fired := fired }).requestStop th q true) :
    Core s' ∧ Effect s s' none := by
  have hself : s'.sources q =
      { s.sources q with fired := fired, stopped := true, requested := true } := by
    simp [hs, State.requestStop, State.setSource]
  have hother : ∀ r, r ≠ q → s'.sources r = s.sources r := by
    intro r hr
    simp [hs, State.requestStop, State.setSource, hr]
  have hgroups : s'.groups = s.groups := by
    rw [hs]
    rfl
  have hlike : ∀ r, r ≠ q → Like (s'.sources r) (s.sources r) := by
    intro r hr
    rw [hother r hr]
    exact Like.refl _
  have hnext : s'.nextSource = s.nextSource := by
    rw [hs]
    rfl
  have hvis : (s.sources q).stage.Visible → (s'.sources q).stage.Visible := by
    rw [hself]
    exact id
  constructor
  · refine h.change q ?_ hlike (fun r _ => by rw [hgroups]) (Nat.le_of_eq hnext.symm)
      (hnext ▸ hq) (fun r hr => ?_) hvis (fun _ => ?_) (fun hf => ?_)
      (fun hvisible G hG => ?_) ?_
    · rw [hs]
      exact stops_requestStop h.stops (.inl rfl) (.inl rfl) rfl
    · exact hother r (Nat.ne_of_gt (Nat.lt_of_lt_of_le hq (hnext ▸ hr)))
    · rw [hself, hgroups]
      exact hdirect
    · rw [hself] at hf ⊢
      exact ⟨rfl, hfired hf⟩
    · rw [hgroups] at hG
      have hok := h.group q G hG
      exact ⟨by rw [hself]; exact hok.stage, fun _ => by rw [hself], hok.running,
        by rw [hself]; exact hok.outer, hok.older,
        fun token ht => (hok.visible token ht).mono hvisible⟩
    · rw [hs]
      exact h.noAssert
  · refine Effect.change q hlike (fun r _ => by rw [hgroups]) hvis (fun _ _ => ?_) fun G hG => ?_
    · rw [State.shape, State.shape, hself, hgroups]
    · exact ⟨G, by rw [hgroups, hG], rfl, rfl⟩

theorem Core.requestStop_plain (h : Core s) (th : Nat) (hq : q < s.nextSource)
    (hdirect : (s.sources q).stage = .ended ∨ (s.sources q).stage = .external ∨
      s.groups q ≠ none) :
    Core (s.requestStop th q true) ∧ Effect s (s.requestStop th q true) none := by
  have heq : s.requestStop th q true =
      (s.setSource q { s.sources q with fired := (s.sources q).fired }).requestStop th q true := by
    rw [show ({ s.sources q with fired := (s.sources q).fired } : Source) = s.sources q from rfl,
      setSource_self]
  refine h.requestStop th hq (s.sources q).fired (fun hf => (h.fired q hf).2) ?_ heq
  rcases hdirect with he | he
  · exact .inl he
  · exact .inr (.inr he)

/-- The phase or the tasks of a group change. -/
theorem Core.setGroup (h : Core s) (hq : q < s.nextSource)
    (hG : GroupOk s q G) : Core (s.setGroup q G) := by
  refine h.change q h.stops (fun r _ => Like.refl _) (fun r hr => ?_) (Nat.le_refl _) hq
    (fun _ _ => rfl) id (fun hr => ?_) (h.fired q) (fun _ G' hG' => ?_) h.noAssert
  · exact Function.update_of_ne hr _ _
  · exact .inr (.inr (.inr (by simp [State.setGroup])))
  · simp only [State.setGroup, Function.update_self, Option.some.injEq] at hG'
    subst hG'
    exact hG.mono rfl fun _ hv => hv

theorem Core.lt_of_group (h : Core s) (hG : s.groups q = some G) : q < s.nextSource := by
  by_contra hlt
  rw [(h.fresh q (Nat.le_of_not_lt hlt)).2] at hG
  cases hG

theorem Core.newSource (h : Core s) (stage : Stage) (token : Token) (owner : Option (Nat × Nat))
    (hstage : stage ≠ .live) (htoken : TokenOk s token) :
    Core (s.newSource stage token owner) ∧ Effect s (s.newSource stage token owner) none := by
  obtain ⟨hfresh, hgroup⟩ := h.fresh s.nextSource (Nat.le_refl _)
  have hself : (s.newSource stage token owner).sources s.nextSource =
      ⟨stage, false, [], token, none, false, false, false, owner⟩ := by
    simp [State.newSource, State.setSource]
  have hother : ∀ r, r ≠ s.nextSource →
      (s.newSource stage token owner).sources r = s.sources r := by
    intro r hr
    simp [State.newSource, State.setSource, hr]
  have hlike : ∀ r, r ≠ s.nextSource →
      Like ((s.newSource stage token owner).sources r) (s.sources r) := by
    intro r hr
    rw [hother r hr]
    exact Like.refl _
  have hunseen : ¬(s.sources s.nextSource).stage.Visible := by
    rw [hfresh]
    exact fun hv => hv.1 rfl
  constructor
  · refine h.change s.nextSource ?_ hlike (fun _ _ => rfl) (Nat.le_succ _) (Nat.lt_succ_self _)
      (fun r hr => ?_) (fun hv => absurd hv hunseen) ?_ ?_ (fun _ G hG => ?_) h.noAssert
    · refine h.stops.new ?_ ?_ ?_ rfl rfl rfl hstage fun p hp => ?_
      · rw [hfresh]
        rfl
      · rw [hfresh]
        rfl
      · rw [hfresh]
        rfl
      · exact ⟨h.lt_of_visible (htoken p hp), htoken p hp⟩
    · exact hother r (Nat.ne_of_gt hr)
    · simp [hself]
    · simp [hself]
    · rw [show (s.newSource stage token owner).groups = s.groups from rfl, hgroup] at hG
      cases hG
  · refine Effect.change s.nextSource hlike (fun _ _ => rfl) (fun hv => absurd hv hunseen)
      (fun ho => ?_) fun G hG => ?_
    · rw [hfresh] at ho
      exact absurd rfl ho
    · rw [hgroup] at hG
      cases hG

-- ============================================================================
-- Tasks
-- ============================================================================

theorem State.current_eq (h : s.current th = some (t, k)) :
    s.tasks t = some k ∧ ∃ l, s.stack th = .task t :: l := by
  unfold State.current at h
  split at h
  · rename_i u l hstack
    obtain ⟨k', hk', heq⟩ := Option.map_eq_some_iff.mp h
    cases heq
    exact ⟨hk', l, hstack⟩
  · cases h

theorem State.body_eq (h : s.body th = some (t, k, rest)) :
    s.tasks t = some k ∧ k.frames = .call :: rest ∧ ∃ l, s.stack th = .task t :: l := by
  unfold State.body at h
  split at h
  · rename_i u k' hc
    split at h
    · rename_i hf
      cases h
      exact ⟨(State.current_eq hc).1, hf, (State.current_eq hc).2⟩
    · cases h
  · cases h

/-- A task goes on, and no source changes. -/
theorem Inv.setTask (h : Inv s) (hk : s.tasks t = some k) (k' : Task)
    (hroot : k'.root = k.root) (haround : k'.around = k.around) (hgroup : k'.group = k.group)
    (htoken : k'.token = inside k.root k'.frames)
    (hframes : FramesOk s t k.root k.around true k'.frames) : Inv (s.setTask t k') := by
  have he : Effect s (s.setTask t k') none := Effect.congr rfl rfl
  exact h.move hk rfl rfl (h.core.congr rfl rfl rfl rfl rfl) he (by simp) hroot haround hgroup
    htoken (hframes.frame he)

/-- The stack changes, but not the calls of `request_stop` on it. -/
theorem Inv.setStack (h : Inv s) {l : List Item}
    (hl : ∀ r hand, .request r hand ∈ l ↔ .request r hand ∈ s.stack th) :
    Inv { s with stack := Function.update s.stack th l } :=
  h.still rfl rfl (h.core.congr rfl rfl (busy_tasks rfl hl) rfl rfl) (Effect.congr rfl rfl)

/-- A coroutine that is not on top may be on top. -/
theorem FramesOk.top {root : Token} {around : List Token} {frames : List Frame}
    (h : FramesOk s t root around false frames) : FramesOk s t root around true frames := by
  cases frames with
  | nil => trivial
  | cons f below =>
      refine ⟨?_, h.2⟩
      have hf := h.1
      cases f with
      | call => trivial
      | withStopToken token saved => exact hf
      | withDeadline outer place => exact hf
      | withTaskGroup q =>
          obtain ⟨howner, hout, phase, hphase, -⟩ := hf
          exact ⟨howner, hout, phase, hphase, by simp⟩

/-- What is known of a task that executes its body. -/
theorem Inv.body (h : Inv s) (hb : s.body th = some (t, k, rest)) :
    s.tasks t = some k ∧ k.token = inside k.root rest ∧ TokenOk s k.token ∧
      FramesOk s t k.root k.around false rest := by
  obtain ⟨hk, hf, -⟩ := State.body_eq hb
  have hok := h.task t k hk
  have hframes := hok.frames
  have htoken := hok.token
  rw [hf] at hframes htoken
  exact ⟨hk, htoken, hok.token_ok, hframes.2⟩

theorem Inv.call (h : Inv s) (hb : s.body th = some (t, k, rest)) :
    Inv (s.setTask t { k with frames := .call :: .call :: rest }) := by
  obtain ⟨hk, htoken, -, hframes⟩ := h.body hb
  exact h.setTask hk _ rfl rfl rfl htoken ⟨trivial, trivial, hframes⟩

theorem Inv.withStopToken (h : Inv s) (hb : s.body th = some (t, k, rest)) {token : Token}
    (hv : token.all s.visible = true) :
    Inv (s.setTask t
      { k with
        token := token, frames := .call :: .withStopToken token k.token :: .call :: rest }) := by
  obtain ⟨hk, htoken, -, hframes⟩ := h.body hb
  refine h.setTask hk _ rfl rfl rfl rfl ⟨trivial, ⟨?_, htoken⟩, trivial, hframes⟩
  rintro q rfl
  exact State.visible_iff.mp (by simpa using hv)

theorem Inv.withDeadline (h : Inv s) (hb : s.body th = some (t, k, rest)) (scheduler : Bool) :
    Inv (s.setTask t
      { k with frames := .withDeadline k.token (.check scheduler) :: .call :: rest }) := by
  obtain ⟨hk, htoken, -, hframes⟩ := h.body hb
  exact h.setTask hk _ rfl rfl rfl htoken ⟨⟨htoken, trivial⟩, trivial, hframes⟩

theorem Inv.withTaskGroup (h : Inv s) (hb : s.body th = some (t, k, rest)) :
    Inv (((s.newSource .entering k.token (some (t, rest.length + 1))).setTask t
      { k with frames := .withTaskGroup s.nextSource :: .call :: rest }).setGroup
      s.nextSource ⟨.propagate, [], k.token :: State.tokensAround k⟩) := by
  obtain ⟨hk, htoken, htokenOk, hframes⟩ := h.body hb
  have haround : ∀ token ∈ k.token :: State.tokensAround k, TokenOk s token := by
    intro token ht
    rcases List.mem_cons.mp ht with rfl | ht
    · exact htokenOk
    · exact (h.task t k hk).tokensAround_ok token ht
  obtain ⟨hcore, he⟩ := h.core.newSource .entering k.token (some (t, rest.length + 1)) (by simp)
    htokenOk
  have hself : (s.newSource .entering k.token (some (t, rest.length + 1))).sources s.nextSource =
      ⟨.entering, false, [], k.token, none, false, false, false, some (t, rest.length + 1)⟩ := by
    simp [State.newSource, State.setSource]
  obtain ⟨hfresh, hgroup⟩ := h.core.fresh s.nextSource (Nat.le_refl _)
  refine h.move hk rfl rfl ?_
    (show Effect s _ none from ⟨he.visible, fun r ho hne => ?_, fun r G hG => ?_⟩)
    (by simp) rfl rfl rfl htoken ⟨⟨?_, ?_, .propagate, ?_, by simp⟩, trivial, ?_⟩
  · refine Core.setGroup (hcore.congr rfl rfl rfl rfl rfl) (Nat.lt_succ_self _)
      ⟨?_, by simp, fun _ => rfl, ?_, fun x hx => ?_, fun token ht => ?_⟩
    · exact congrArg Source.stage hself
    · exact congrArg (fun x => some (Source.outside x)) hself.symm
    · exact h.core.lt_of_visible (haround _ hx x rfl)
    · exact (haround token ht).mono he.visible
  · have hr : r ≠ s.nextSource := by
      rintro rfl
      rw [hfresh] at ho
      exact ho rfl
    rw [← he.shape r ho hne]
    simp [State.shape, State.setGroup, State.setTask, hr]
  · have hr : r ≠ s.nextSource := by
      rintro rfl
      rw [hgroup] at hG
      cases hG
    exact ⟨G, (Function.update_of_ne hr _ _).trans hG, rfl, rfl⟩
  · exact congrArg Source.owner hself
  · exact (congrArg Source.outside hself).trans htoken
  · simp [State.setGroup]
  · refine (hframes.frame he).mono (fun _ hv => hv) fun r d hr hd => ?_
    have hne : r ≠ s.nextSource := by
      rintro rfl
      rw [hself, Option.some.injEq, Prod.mk.injEq] at hr
      exact Nat.lt_irrefl _ (Nat.lt_trans hd (hr.2 ▸ Nat.lt_succ_self _))
    simp [State.shape, State.setGroup, State.setTask, hne]

theorem Inv.startTask (h : Inv s) (hok : TaskOk s s.nextTask k) : Inv (s.startTask th k) := by
  have he : Effect s (s.startTask th k) none := Effect.congr rfl rfl
  have hcore : Core (s.startTask th k) := by
    refine h.core.congr rfl rfl ?_ rfl rfl
    exact busy_tasks (s := s) rfl fun r hand => by simp
  refine ⟨hcore, fun u k₁ hu => ?_, fun u hu => ?_⟩
  · by_cases hut : u = s.nextTask
    · subst hut
      simp only [State.startTask, State.setTask, Function.update_self, Option.some.injEq] at hu
      subst hu
      exact hok.effect he (by simp)
    · simp only [State.startTask, State.setTask, Function.update_of_ne hut] at hu
      exact (h.task u k₁ hu).effect he (by simp)
  · exact (Function.update_of_ne (Nat.ne_of_gt hu) _ _).trans (h.freshTask u (Nat.le_of_lt hu))

/-- The tasks that a group waits for change; those that exist stay. -/
theorem Inv.setRunning (h : Inv s) (hG : s.groups q = some G) (running : List Nat)
    (hempty : G.phase = .propagate ∨ G.phase = .gone → running = [])
    (hkeep : ∀ u k, s.tasks u = some k → u ∈ G.running → u ∈ running) :
    Inv (s.setGroup q { G with running := running }) := by
  have hok := h.core.group q G hG
  have hcore : Core (s.setGroup q { G with running := running }) :=
    h.core.setGroup (h.core.lt_of_group hG) ⟨hok.stage, hok.requested, hempty, hok.outer, hok.older, hok.visible⟩
  refine ⟨hcore, fun u k₁ hu => ?_, h.freshTask⟩
  refine (h.task u k₁ hu).mono (fun _ hv => hv) (fun r d _ => ?_) fun r G' hG' hmem => ?_
  · by_cases hrq : r = q
    · subst hrq
      simp [State.shape, State.setGroup, hG]
    · simp [State.shape, State.setGroup, hrq]
  · by_cases hrq : r = q
    · subst hrq
      obtain rfl : G' = G := Option.some.inj (hG'.symm.trans hG)
      exact ⟨_, Function.update_self _ _ _, hkeep u k₁ hu hmem, rfl⟩
    · exact ⟨G', (Function.update_of_ne hrq _ _).trans hG', hmem, rfl⟩

theorem Inv.add (h : Inv s) (hG : s.groups q = some G) (hopen : G.phase ≠ .propagate)
    (hgone : G.phase ≠ .gone) :
    Inv ((s.setGroup q { G with running := s.nextTask :: G.running }).startTask th
      ⟨some q, [.call], true, some q, some q, G.around⟩) := by
  have hok := h.core.group q G hG
  have h₁ := h.setRunning hG (s.nextTask :: G.running) (fun hp => ?_)
    fun u k _ hu => List.mem_cons_of_mem _ hu
  · refine h₁.startTask ⟨rfl, ⟨trivial, trivial⟩, ?_, hok.visible, ?_⟩
    · rintro q' hq'
      cases hq'
      have hstage : (s.sources q).stage = G.phase.stage := hok.stage
      show (s.sources q).stage.Visible
      rw [hstage]
      revert hopen
      cases G.phase <;> simp [Phase.stage, Stage.Visible]
    · intro q' hq'
      cases hq'
      exact ⟨rfl, _, Function.update_self _ _ _, List.mem_cons_self, rfl⟩
  · rcases hp with hp | hp
    · exact absurd hp hopen
    · exact absurd hp hgone

theorem Inv.start (h : Inv s) {token : Token} (hv : token.all s.visible = true) :
    Inv (s.startTask th ⟨token, [.call], true, none, token, []⟩) := by
  refine h.startTask ⟨rfl, ⟨trivial, trivial⟩, ?_, by simp, by simp⟩
  rintro q rfl
  exact State.visible_iff.mp (by simpa using hv)

theorem Inv.endTask (h : Inv s) (hk : s.tasks t = some k) {l : List Item}
    (hstack : s.stack th = .task t :: l) : Inv (s.endTask th t k) := by
  have h₁ : Inv { s with
      tasks := Function.update s.tasks t none
      stack := Function.update s.stack th (s.stack th).tail } := by
    refine ⟨h.core.congr rfl rfl ?_ rfl rfl, fun u k₁ hu => ?_, fun u hu => ?_⟩
    · exact busy_tasks (s := s) rfl fun r hand => by simp [hstack]
    · have hut : u ≠ t := by
        rintro rfl
        simp at hu
      simp only [Function.update_of_ne hut] at hu
      exact (h.task u k₁ hu).effect (show Effect s _ none from Effect.congr rfl rfl) (by simp)
    · by_cases hut : u = t
      · simp [hut]
      · exact (Function.update_of_ne hut _ _).trans (h.freshTask u hu)
  unfold State.endTask
  cases hgroup : k.group with
  | none => exact h₁
  | some q =>
      obtain ⟨-, G, hG, -, -⟩ := (h.task t k hk).member q hgroup
      simp only [hG, Option.map_some]
      refine h₁.setRunning hG (G.running.erase t) (fun hp => ?_) fun u k₁ hu hmem => ?_
      · rw [(h.core.group q G hG).running hp]
        rfl
      · have hut : u ≠ t := by
          rintro rfl
          simp at hu
        exact (List.mem_erase_of_ne hut).mpr hmem

theorem Inv.suspend (h : Inv s) (hc : s.current th = some (t, k)) :
    Inv { s.setTask t { k with active := false } with
      stack := Function.update s.stack th (s.stack th).tail } := by
  obtain ⟨hk, l, hstack⟩ := State.current_eq hc
  have hok := h.task t k hk
  have h₁ := h.setTask hk { k with active := false } rfl rfl rfl hok.token hok.frames
  exact h₁.setStack fun r hand => by simp [State.setTask, hstack]

theorem Inv.resume (h : Inv s) (hk : s.tasks t = some k) :
    Inv { s.setTask t { k with active := true } with
      stack := Function.update s.stack th (.task t :: s.stack th) } := by
  have hok := h.task t k hk
  have h₁ := h.setTask hk { k with active := true } rfl rfl rfl hok.token hok.frames
  exact h₁.setStack fun r hand => by simp [State.setTask]

/-- The coroutine of a `with_task_group` brings its group to the next phase, and
    its source stays as it is. -/
theorem Inv.setPhase (h : Inv s) (hk : s.tasks t = some k) (hG : s.groups q = some G)
    (howner : (s.sources q).owner = some (t, rest.length)) (phase : Phase)
    (hok : GroupOk s q { G with phase := phase }) (k' : Task)
    (hroot : k'.root = k.root) (haround : k'.around = k.around) (hgroup : k'.group = k.group)
    (htoken : k'.token = inside k.root k'.frames)
    (hframes : Effect s ((s.setTask t k').setGroup q { G with phase := phase })
      (some (t, rest.length)) →
      FramesOk ((s.setTask t k').setGroup q { G with phase := phase }) t k.root k.around true
        k'.frames) :
    Inv ((s.setTask t k').setGroup q { G with phase := phase }) := by
  have hcore : Core ((s.setTask t k').setGroup q { G with phase := phase }) := by
    have hcore₁ : Core (s.setTask t k') := h.core.congr rfl rfl rfl rfl rfl
    exact hcore₁.setGroup (h.core.lt_of_group hG) (hok.mono rfl fun _ hv => hv)
  have he : Effect s ((s.setTask t k').setGroup q { G with phase := phase })
      (some (t, rest.length)) := by
    refine Effect.change q (fun r _ => Like.refl _) (fun r hr => Function.update_of_ne hr _ _) id
      (fun _ hne => absurd howner hne) fun G' hG' => ?_
    obtain rfl : G' = G := Option.some.inj (hG'.symm.trans hG)
    exact ⟨_, Function.update_self _ _ _, rfl, rfl⟩
  exact h.move hk rfl rfl hcore he (by simp) hroot haround hgroup htoken (hframes he)

/-- The callback of a `with_task_group` or any other body ends. -/
theorem Inv.finishBody (h : Inv s) (hb : s.body th = some (t, k, rest))
    (hs : s.finishBody th t k rest = some s') : Inv s' := by
  obtain ⟨hk, htoken, -, hframes⟩ := h.body hb
  unfold State.finishBody at hs
  split at hs
  · cases hs
    obtain ⟨-, -, l, hstack⟩ := State.body_eq hb
    exact h.endTask hk hstack
  · rename_i q below
    obtain ⟨G, hG, hs⟩ := Option.bind_eq_some_iff.mp hs
    cases hs
    obtain ⟨⟨howner, hout, phase, hphase, hopen⟩, hbelow⟩ := hframes
    have hG' := h.core.group q G hG
    have hopened : G.phase = .opened := by
      rw [hG, Option.map_some, Option.some.injEq] at hphase
      exact hphase.trans (hopen rfl)
    have hstage := hG'.stage
    rw [hopened] at hstage
    refine h.setPhase hk hG howner .finished
      ⟨hstage, by simp, by simp, hG'.outer, hG'.older, hG'.visible⟩
      { k with frames := .withTaskGroup q :: below } rfl rfl rfl htoken
      fun he => ⟨⟨howner, hout, .finished, ?_, by simp⟩, hbelow.effect he⟩
    simp [State.setGroup]
  · cases hs
    exact h.setTask hk _ rfl rfl rfl htoken hframes.top

end Coroactors.StopScope
