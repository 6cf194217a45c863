/-
  Coroactors.StopScope.Steps

  Every step keeps the invariant of nested wrappers.

  First what the operations of stop states do to the sources, then what has to
  be shown when one source changes (`Core.change`, `Effect.change`) and when a
  task does (`Inv.move`), then one lemma for each statement of a wrapper.
-/

import Coroactors.StopScope.Inv

namespace Coroactors.StopScope

variable {s s' : State} {th t p q : Nat} {own : Option (Nat × Nat)}

-- ============================================================================
-- Operations of stop states
-- ============================================================================

/-- The same for the coroutines, and requested by the same. -/
structure Like (x y : Source) : Prop where
  stage : x.stage = y.stage
  outside : x.outside = y.outside
  owner : x.owner = y.owner
  requested : x.requested = y.requested
  fired : x.fired = y.fired
  armed : x.armed = y.armed

theorem Like.refl (x : Source) : Like x x := ⟨rfl, rfl, rfl, rfl, rfl, rfl⟩

theorem Like.trans {x y z : Source} (h : Like x y) (h' : Like y z) : Like x z :=
  ⟨h.stage.trans h'.stage, h.outside.trans h'.outside, h.owner.trans h'.owner,
    h.requested.trans h'.requested, h.fired.trans h'.fired, h.armed.trans h'.armed⟩

theorem mem_update_stack {stack : Nat → List Item} {th' : Nat} {item : Item} {l : List Item} :
    item ∈ Function.update stack th l th' ↔ th' = th ∧ item ∈ l ∨ th' ≠ th ∧ item ∈ stack th' := by
  by_cases hth : th' = th
  · simp [hth]
  · simp [hth]

/-- What is in progress after one more item was put on a stack. -/
theorem busy_push (s : State) (th p : Nat)
    (hstack : s'.stack = Function.update s.stack th (.request p .idle :: s.stack th))
    (r : Nat) (hand : Hand) :
    s'.busy r hand ↔ s.busy r hand ∨ r = p ∧ hand = .idle := by
  simp only [State.busy, hstack, mem_update_stack, List.mem_cons, Item.request.injEq]
  constructor
  · rintro ⟨th', ⟨rfl, heq | hmem⟩ | ⟨-, hmem⟩⟩
    · exact .inr heq
    · exact .inl ⟨th', hmem⟩
    · exact .inl ⟨th', hmem⟩
  · rintro (⟨th', hmem⟩ | heq)
    · by_cases hth : th' = th
      · exact ⟨th, .inl ⟨rfl, .inr (hth ▸ hmem)⟩⟩
      · exact ⟨th', .inr ⟨hth, hmem⟩⟩
    · exact ⟨th, .inl ⟨rfl, .inl heq⟩⟩

/-- What is in progress after the item on top of a stack changed. -/
theorem busy_top (s' : State) (new : List Item) {old : Item} {rest : List Item}
    (hold : s.stack th = old :: rest)
    (hstack : s'.stack = Function.update s.stack th (new ++ rest)) (r : Nat) (hand : Hand) :
    (s'.busy r hand → s.busy r hand ∨ .request r hand ∈ new) ∧
      (s.busy r hand → s'.busy r hand ∨ old = .request r hand) := by
  simp only [State.busy, hstack, mem_update_stack, List.mem_append]
  constructor
  · rintro ⟨th', ⟨rfl, hnew | hrest⟩ | ⟨-, hmem⟩⟩
    · exact .inr hnew
    · refine .inl ⟨th', ?_⟩
      rw [hold]
      exact List.mem_cons_of_mem _ hrest
    · exact .inl ⟨th', hmem⟩
  · rintro ⟨th', hmem⟩
    by_cases hth : th' = th
    · rw [hth, hold] at hmem
      rcases List.mem_cons.mp hmem with heq | hrest
      · exact .inr heq.symm
      · exact .inl ⟨th, .inl ⟨rfl, .inr hrest⟩⟩
    · exact .inl ⟨th', .inr ⟨hth, hmem⟩⟩

/-- Tasks come and go on a stack. -/
theorem busy_tasks {l : List Item} (hstack : s'.stack = Function.update s.stack th l)
    (hl : ∀ r hand, .request r hand ∈ l ↔ .request r hand ∈ s.stack th) :
    s'.busy = s.busy := by
  funext r hand
  simp only [State.busy, hstack, mem_update_stack, hl, eq_iff_iff]
  constructor
  · rintro ⟨th', ⟨rfl, hmem⟩ | ⟨-, hmem⟩⟩
    · exact ⟨th', hmem⟩
    · exact ⟨th', hmem⟩
  · rintro ⟨th', hmem⟩
    by_cases hth : th' = th
    · exact ⟨th, .inl ⟨rfl, hth ▸ hmem⟩⟩
    · exact ⟨th', .inr ⟨hth, hmem⟩⟩

theorem stops_requestStop (h : Stops s.sources s.busy) {stage : Stage} {fired direct : Bool}
    (hstage : Stops.StageStep (s.sources q).stage stage)
    (hcause : direct = true ∨ stoppedIn s.sources (s.sources q).outside) {s₁ : State}
    (hs₁ : s₁ = s.setSource q { s.sources q with stage := stage, fired := fired }) :
    Stops (s₁.requestStop th q direct).sources (s₁.requestStop th q direct).busy := by
  subst hs₁
  have hsrc : (State.requestStop
      (s.setSource q { s.sources q with stage := stage, fired := fired }) th q direct).sources =
      Function.update s.sources q
        { s.sources q with
          stage := stage, fired := fired, stopped := true
          requested := (s.sources q).requested || direct } := by
    simp [State.requestStop, State.setSource]
  rw [hsrc]
  refine h.request hstage rfl rfl rfl ?_ fun r hand => ?_
  · refine hcause.imp_left fun hd => ?_
    simp [hd]
  · cases hq : (s.sources q).stopped with
    | true =>
        simp only [State.busy, State.requestStop, State.setSource, Function.update_self, hq]
        simp
    | false =>
        rw [busy_push s th q]
        · simp
        · simp [State.requestStop, State.setSource, hq]

theorem setSource_self : s.setSource q (s.sources q) = s := by
  simp [State.setSource]

/-- An operation brings the source `q` to a stage, and no stop was requested but
    by a `propagate`. -/
structure Moves (s s' : State) (q : Nat) (stage : Stage) : Prop where
  stops : Stops s'.sources s'.busy
  like : ∀ r, r ≠ q → Like (s'.sources r) (s.sources r)
  self : Like (s'.sources q) { s.sources q with stage := stage }
  fresh : ∀ r, s.nextSource ≤ r → s'.sources r = s.sources r
  groups : s'.groups = s.groups
  tasks : s'.tasks = s.tasks
  nextSource : s'.nextSource = s.nextSource
  nextTask : s'.nextTask = s.nextTask
  assertFailed : s'.assertFailed = s.assertFailed

theorem hook_moves {token : Token} (h : Stops s.sources s.busy)
    (hentering : (s.sources q).stage = .entering) (hout : (s.sources q).outside = token)
    (hq : q < s.nextSource) : Moves s (s.hook th q token) q .live := by
  have hne : ∀ r, s.nextSource ≤ r → r ≠ q := fun r hr => Nat.ne_of_gt (Nat.lt_of_lt_of_le hq hr)
  cases token with
  | none =>
      refine ⟨h.hookNone hout, fun r hr => ?_, ?_, fun r hr => ?_, rfl, rfl, rfl, rfl, rfl⟩
      · simp only [State.hook, State.setStage, State.setSource, Function.update_of_ne hr]
        exact Like.refl _
      · simp only [State.hook, State.setStage, State.setSource, Function.update_self]
        exact Like.refl _
      · simp only [State.hook, State.setStage, State.setSource, Function.update_of_ne (hne r hr)]
  | some p =>
      have hpq := h.outside q p hout
      cases hp : (s.sources p).stopped with
      | true =>
          have heq : s.hook th q (some p) = (s.setSource q
              { s.sources q with stage := .live, fired := (s.sources q).fired }).requestStop
              th q false := by
            simp [State.hook, hp, State.setStage]
          rw [heq]
          refine ⟨stops_requestStop h (.inr ⟨hentering, rfl⟩) (.inr ⟨p, hout, hp⟩) rfl,
            fun r hr => ?_, ?_, fun r hr => ?_, rfl, rfl, rfl, rfl, rfl⟩
          · simp only [State.requestStop, State.setSource, Function.update_of_ne hr]
            exact Like.refl _
          · simp only [State.requestStop, State.setSource, Function.update_self, Bool.or_false]
            exact ⟨rfl, rfl, rfl, rfl, rfl, rfl⟩
          · simp only [State.requestStop, State.setSource, Function.update_of_ne (hne r hr)]
      | false =>
          have heq : s.hook th q (some p) = (s.setSource p
              { s.sources p with callbacks := q :: (s.sources p).callbacks }).setStage q .live := by
            simp [State.hook, hp]
          rw [heq]
          refine ⟨h.hookSome hentering hout hp rfl, fun r hr => ?_, ?_, fun r hr => ?_, rfl, rfl,
            rfl, rfl, rfl⟩
          · simp only [State.setStage, State.setSource, Function.update_of_ne hr]
            by_cases hrp : r = p
            · rw [hrp, Function.update_self]
              exact ⟨rfl, rfl, rfl, rfl, rfl, rfl⟩
            · rw [Function.update_of_ne hrp]
              exact Like.refl _
          · simp only [State.setStage, State.setSource, Function.update_self]
            rw [Function.update_of_ne (Nat.ne_of_gt hpq.1)]
            exact Like.refl _
          · simp only [State.setStage, State.setSource, Function.update_of_ne (hne r hr)]
            rw [Function.update_of_ne (Nat.ne_of_gt
              (Nat.lt_trans hpq.1 (Nat.lt_of_lt_of_le hq hr)))]

theorem unhook_moves (h : Stops s.sources s.busy) (hlive : (s.sources q).stage = .live)
    (hq : q < s.nextSource) (hs : s.unhook th q = some s') : Moves s s' q .ended := by
  have hne : ∀ r, s.nextSource ≤ r → r ≠ q := fun r hr => Nat.ne_of_gt (Nat.lt_of_lt_of_le hq hr)
  -- the callback is in no list
  have hplain : (∀ r, q ∉ (s.sources r).callbacks) → Moves s (s.setStage q .ended) q .ended := by
    intro hout
    have hsrc : ∀ r, (s.setStage q .ended).sources r =
        { s.sources r with stage := if r = q then .ended else (s.sources r).stage } := by
      intro r
      by_cases hrq : r = q
      · simp [hrq, State.setStage, State.setSource]
      · simp [hrq, State.setStage, State.setSource]
    refine ⟨?_, fun r hr => ?_, ?_, fun r hr => ?_, rfl, rfl, rfl, rfl, rfl⟩
    · refine h.unhook (q := q) hlive (fun r => by rw [hsrc]) (fun r => by rw [hsrc])
        (fun r => by rw [hsrc]) (fun r => by rw [hsrc]) fun r c => ?_
      · rw [hsrc]
        refine ⟨fun hc => ⟨hc, ?_⟩, And.left⟩
        rintro rfl
        exact hout r hc
    · rw [hsrc, if_neg hr]
      exact Like.refl _
    · rw [hsrc, if_pos rfl]
      exact Like.refl _
    · rw [hsrc, if_neg (hne r hr)]
  unfold State.unhook at hs
  split at hs
  · rename_i hout
    cases hs
    refine hplain fun r hr => ?_
    have hlisted := (h.listed r q hr).1
    simp [hout] at hlisted
  · rename_i p hout
    have hpq := h.outside q p hout
    split at hs
    · cases hs
      have hsrc : ∀ r, ((s.setSource p
          { s.sources p with
            callbacks := (s.sources p).callbacks.filter (· ≠ q) }).setStage q .ended).sources r =
          { s.sources r with
            stage := if r = q then .ended else (s.sources r).stage
            callbacks :=
              if r = p then (s.sources r).callbacks.filter (· ≠ q)
              else (s.sources r).callbacks } := by
        intro r
        by_cases hrq : r = q
        · subst hrq
          simp [State.setStage, State.setSource, Nat.ne_of_gt hpq.1]
        · by_cases hrp : r = p
          · subst hrp
            simp [State.setStage, State.setSource, hrq]
          · simp [State.setStage, State.setSource, hrq, hrp]
      refine ⟨?_, fun r hr => ?_, ?_, fun r hr => ?_, rfl, rfl, rfl, rfl, rfl⟩
      · refine h.unhook (q := q) hlive (fun r => by rw [hsrc]) (fun r => by rw [hsrc])
          (fun r => by rw [hsrc]) (fun r => by rw [hsrc]) fun r c => ?_
        · rw [hsrc]
          by_cases hrp : r = p
          · simp [hrp]
          · simp only [hrp, if_false]
            refine ⟨fun hc => ⟨hc, ?_⟩, And.left⟩
            rintro rfl
            exact hrp (Option.some.inj ((h.listed r c hc).1.symm.trans hout))
      · rw [hsrc, if_neg hr]
        exact ⟨rfl, rfl, rfl, rfl, rfl, rfl⟩
      · rw [hsrc, if_pos rfl]
        exact ⟨rfl, rfl, rfl, rfl, rfl, rfl⟩
      · rw [hsrc, if_neg (hne r hr), if_neg]
        exact Nat.ne_of_gt (Nat.lt_trans hpq.1 (Nat.lt_of_lt_of_le hq hr))
    · rename_i hmem
      split at hs
      · cases hs
      · cases hs
        refine hplain fun r hr => ?_
        have hrp : r = p := Option.some.inj ((h.listed r q hr).1.symm.trans hout)
        exact hmem (hrp ▸ hr)

theorem setRunner_same (runner : Option Nat) (r : Nat) :
    Stops.Same ((s.setRunner q runner).sources r) (s.sources r) ∧
      Like ((s.setRunner q runner).sources r) (s.sources r) := by
  by_cases hrq : r = q
  · subst hrq
    simp only [State.setRunner, State.setSource, Function.update_self]
    exact ⟨⟨rfl, rfl, rfl, rfl, rfl⟩, ⟨rfl, rfl, rfl, rfl, rfl, rfl⟩⟩
  · simp only [State.setRunner, State.setSource, Function.update_of_ne hrq]
    exact ⟨Stops.Same.refl _, Like.refl _⟩

/-- A source that has not been made is neither in a list nor taken. -/
theorem Core.unlisted (h : Core s) {r c : Nat} (hc : c ∈ (s.sources r).callbacks) :
    c < s.nextSource ∧ r < s.nextSource := by
  have hl := h.stops.listed r c hc
  exact ⟨h.lt_of_visible (by rw [hl.2]; exact ⟨by simp, by simp⟩),
    h.lt_of_visible (h.stops.outside c r hl.1).2⟩

theorem stopStep_moves (h : Core s) {hand : Hand} {rest : List Item}
    (hstack : s.stack th = .request p hand :: rest) (q : Nat) :
    Moves s (s.stopStep th p hand rest) q (s.sources q).stage := by
  have hbusy : s.busy p hand := ⟨th, by rw [hstack]; exact List.mem_cons_self⟩
  have hp := h.stops.item p hand hbusy
  cases hand with
  | idle =>
      cases hc : (s.sources p).callbacks with
      | nil =>
          have htop := busy_top (s.stopStep th p .idle rest) [] hstack
            (by simp [State.stopStep, hc])
          refine ⟨?_, fun r _ => ?_, ?_, fun r _ => ?_, ?_, ?_, ?_, ?_, ?_⟩
          · have hsrc : (s.stopStep th p .idle rest).sources = s.sources := by
              simp [State.stopStep, hc]
            rw [hsrc]
            refine h.stops.setBusy (fun r hand hb => ?_) (fun r hand hb hne => ?_)
              (fun r c hb => ?_) fun r c hb => ?_
            · exact h.stops.item r hand (((htop r hand).1 hb).resolve_right (by simp))
            · refine ⟨hand, ((htop r hand).2 hb).resolve_right ?_⟩
              intro heq
              cases heq
              exact hne hc
            · exact h.stops.taken r c (((htop r _).1 hb).resolve_right (by simp))
            · exact .inl (((htop r _).2 hb).resolve_right (by simp))
          all_goals simp [State.stopStep, hc, Like.refl]
      | cons c cs =>
          have htop := busy_top (s.stopStep th p .idle rest) [.request p (.taken c)] hstack
            (by simp [State.stopStep, State.setSource, hc])
          have heq : s.stopStep th p .idle rest =
              { (s.setSource p { s.sources p with callbacks := cs }).setRunner c (some th) with
                stack := Function.update s.stack th (.request p (.taken c) :: rest) } := by
            simp [State.stopStep, hc, State.setRunner, State.setSource]
          have hlike : ∀ r, Like ((s.setSource p
              { s.sources p with callbacks := cs }).sources r) (s.sources r) := by
            intro r
            by_cases hrp : r = p
            · rw [hrp]
              simp only [State.setSource, Function.update_self]
              exact ⟨rfl, rfl, rfl, rfl, rfl, rfl⟩
            · simp only [State.setSource, Function.update_of_ne hrp]
              exact Like.refl _
          have hmade := h.unlisted (r := p) (c := c) (by rw [hc]; exact List.mem_cons_self)
          have hlike' : ∀ r, Like ((s.stopStep th p .idle rest).sources r) (s.sources r) := by
            intro r
            rw [heq]
            exact (setRunner_same (some th) r).2.trans (hlike r)
          refine ⟨?_, fun r _ => hlike' r, hlike' q, fun r hr => ?_, ?_, ?_, ?_, ?_, ?_⟩
          · have hnew : (s.stopStep th p .idle rest).busy p (.taken c) :=
              ⟨th, by simp [State.stopStep, hc]⟩
            have hstops := h.stops.take hc hp hnew
              (fun r hand hb => ((htop r hand).1 hb).imp_right fun hm => by simpa using hm)
              (fun r hand hb => ((htop r hand).2 hb).imp_right fun hm => ?_)
            · refine hstops.congr fun r => ?_
              rw [heq]
              exact (setRunner_same (some th) r).1
            · cases hm
              exact ⟨rfl, rfl⟩
          · have hrc : r ≠ c := Nat.ne_of_gt (Nat.lt_of_lt_of_le hmade.1 hr)
            have hrp : r ≠ p := Nat.ne_of_gt (Nat.lt_of_lt_of_le hmade.2 hr)
            rw [heq]
            simp [State.setRunner, State.setSource, hrc, hrp]
          all_goals
            rw [heq]
            rfl
  | taken c =>
      have hout := h.stops.taken p c hbusy
      have hc : c < s.nextSource := by
        by_contra hlt
        rw [(h.fresh c (Nat.le_of_not_lt hlt)).1] at hout
        cases hout
      have htop := busy_top
        { s with stack := Function.update s.stack th (.request p (.running c) :: rest) }
        [.request p (.running c)] hstack rfl
      have hlike : ∀ r, Like ((s.stopStep th p (.taken c) rest).sources r) (s.sources r) := by
        intro r
        by_cases hrc : r = c
        · subst hrc
          simp only [State.stopStep, State.requestStop, State.setSource, Function.update_self,
            Bool.or_false]
          exact ⟨rfl, rfl, rfl, rfl, rfl, rfl⟩
        · simp only [State.stopStep, State.requestStop, State.setSource, Function.update_of_ne hrc]
          exact Like.refl _
      refine ⟨?_, fun r _ => hlike r, hlike q, fun r hr => ?_, rfl, rfl, rfl, rfl, rfl⟩
      · have hflag := h.stops.request (q := c)
          (x := { s.sources c with stopped := true, requested := (s.sources c).requested || false })
          (.inl rfl) rfl rfl rfl (.inr ⟨p, hout, hp⟩) (fun _ _ => Iff.rfl)
        have hbusy' : ∀ r hand, (s.stopStep th p (.taken c) rest).busy r hand ↔
            State.busy { s with
              stack := Function.update s.stack th (.request p (.running c) :: rest) } r hand ∨
              (s.sources c).stopped = false ∧ r = c ∧ hand = .idle := by
          intro r hand
          cases hstopped : (s.sources c).stopped with
          | true => simp [State.busy, State.stopStep, State.requestStop, State.setSource, hstopped]
          | false =>
              rw [busy_push
                { s with stack := Function.update s.stack th (.request p (.running c) :: rest) }
                th c]
              · simp
              · simp [State.stopStep, State.requestStop, State.setSource, hstopped]
        -- the callback that leaves the hand has run
        refine hflag.setBusy (fun r hand hb => ?_) (fun r hand hb _ => ?_) (fun r d hb => ?_)
          fun r d hb => ?_
        · rcases (hbusy' r hand).mp hb with hb | ⟨-, rfl, -⟩
          · rcases (htop r hand).1 hb with hb | hb
            · exact hflag.item r hand (.inl hb)
            · rw [List.mem_singleton, Item.request.injEq] at hb
              rw [hb.1]
              exact hflag.item p _ (.inl hbusy)
          · exact congrArg Source.stopped (Function.update_self r _ s.sources)
        · rcases hb with hb | hb
          · rcases (htop r hand).2 hb with hb | heq
            · exact ⟨hand, (hbusy' r hand).mpr (.inl hb)⟩
            · cases heq
              exact ⟨.running c, (hbusy' p _).mpr (.inl ⟨th, by simp⟩)⟩
          · exact ⟨hand, (hbusy' r hand).mpr (.inr hb)⟩
        · rcases (hbusy' r _).mp hb with hb | ⟨-, -, hidle⟩
          · refine hflag.taken r d (.inl (((htop r _).1 hb).resolve_right ?_))
            simp
          · cases hidle
        · rcases hb with hb | ⟨-, -, hidle⟩
          · rcases (htop r _).2 hb with hb | heq
            · exact .inl ((hbusy' r _).mpr (.inl hb))
            · cases heq
              exact .inr (congrArg Source.stopped (Function.update_self c _ s.sources))
          · cases hidle
      · have hrc : r ≠ c := Nat.ne_of_gt (Nat.lt_of_lt_of_le hc hr)
        simp only [State.stopStep, State.requestStop, State.setSource, Function.update_of_ne hrc]
  | running c =>
      have htop := busy_top (s.stopStep th p (.running c) rest) [.request p .idle] hstack rfl
      have hlike : ∀ r, Like ((s.stopStep th p (.running c) rest).sources r) (s.sources r) :=
        fun r => (setRunner_same none r).2
      refine ⟨?_, fun r _ => hlike r, hlike q, fun r hr => ?_, rfl, rfl, rfl, rfl, rfl⟩
      · have hstops : Stops s.sources (s.stopStep th p (.running c) rest).busy := by
          refine h.stops.setBusy (fun r hand hb => ?_) (fun r hand hb _ => ?_) (fun r d hb => ?_)
            fun r d hb => ?_
          · rcases (htop r hand).1 hb with hb | hb
            · exact h.stops.item r hand hb
            · rw [List.mem_singleton, Item.request.injEq] at hb
              rw [hb.1]
              exact hp
          · rcases (htop r hand).2 hb with hb | heq
            · exact ⟨hand, hb⟩
            · cases heq
              exact ⟨.idle, th, by simp [State.stopStep]⟩
          · exact h.stops.taken r d (((htop r _).1 hb).resolve_right (by simp))
          · exact .inl (((htop r _).2 hb).resolve_right (by simp))
        exact hstops.congr fun r => (setRunner_same none r).1
      · have hfresh := (h.fresh r hr).1
        by_cases hrc : r = c
        · subst hrc
          simp [State.stopStep, State.setRunner, State.setSource, hfresh, State.initial]
        · simp [State.stopStep, State.setRunner, State.setSource, hrc]

-- ============================================================================
-- What has to be shown
-- ============================================================================

/-- Nothing changes for the coroutines but the source `q`, and what is shown of
    it. -/
theorem Core.change (h : Core s) (q : Nat) (hstops : Stops s'.sources s'.busy)
    (hlike : ∀ r, r ≠ q → Like (s'.sources r) (s.sources r))
    (hgroups : ∀ r, r ≠ q → s'.groups r = s.groups r)
    (hnext : s.nextSource ≤ s'.nextSource) (hq : q < s'.nextSource)
    (hfresh : ∀ r, s'.nextSource ≤ r → s'.sources r = s.sources r)
    (hvisible : (s.sources q).stage.Visible → (s'.sources q).stage.Visible)
    (hdirect : (s'.sources q).requested = true →
      (s'.sources q).stage = .ended ∨ (s'.sources q).fired = true ∨
        (s'.sources q).stage = .external ∨ s'.groups q ≠ none)
    (hfired : (s'.sources q).fired = true →
      (s'.sources q).requested = true ∧ (s'.sources q).armed = true)
    (hgroup : (∀ r, (s.sources r).stage.Visible → (s'.sources r).stage.Visible) →
      ∀ G, s'.groups q = some G → GroupOk s' q G)
    (hassert : s'.assertFailed = false) : Core s' := by
  have hvis : ∀ r, (s.sources r).stage.Visible → (s'.sources r).stage.Visible := by
    intro r hr
    by_cases hrq : r = q
    · subst hrq
      exact hvisible hr
    · rw [(hlike r hrq).stage]
      exact hr
  refine ⟨hstops, fun r hr => ?_, fun r hr => ?_, fun r hr => ?_, fun r G hG => ?_, hassert⟩
  · have hrq : r ≠ q := Nat.ne_of_gt (Nat.lt_of_lt_of_le hq hr)
    rw [hfresh r hr, hgroups r hrq]
    exact h.fresh r (Nat.le_trans hnext hr)
  · by_cases hrq : r = q
    · subst hrq
      exact hdirect hr
    · have hl := hlike r hrq
      rw [hl.stage, hl.fired, hgroups r hrq]
      exact h.direct r (hl.requested ▸ hr)
  · by_cases hrq : r = q
    · subst hrq
      exact hfired hr
    · have hl := hlike r hrq
      rw [hl.requested, hl.armed]
      exact h.fired r (hl.fired ▸ hr)
  · by_cases hrq : r = q
    · subst hrq
      exact hgroup hvis G hG
    · have hl := hlike r hrq
      have hok := h.group r G (hgroups r hrq ▸ hG)
      exact ⟨by rw [hl.stage]; exact hok.stage, by rw [hl.requested]; exact hok.requested,
        hok.running, by rw [hl.outside]; exact hok.outer, hok.older,
        fun token ht => (hok.visible token ht).mono hvis⟩

theorem Effect.change (q : Nat) (hlike : ∀ r, r ≠ q → Like (s'.sources r) (s.sources r))
    (hgroups : ∀ r, r ≠ q → s'.groups r = s.groups r)
    (hvisible : (s.sources q).stage.Visible → (s'.sources q).stage.Visible)
    (hshape : (s.sources q).owner ≠ none → (s.sources q).owner ≠ own → s'.shape q = s.shape q)
    (hmembers : ∀ G, s.groups q = some G →
      ∃ G', s'.groups q = some G' ∧ G'.running = G.running ∧ G'.around = G.around) :
    Effect s s' own := by
  refine ⟨fun r hr => ?_, fun r hr hown => ?_, fun r G hG => ?_⟩
  · by_cases hrq : r = q
    · subst hrq
      exact hvisible hr
    · rw [(hlike r hrq).stage]
      exact hr
  · by_cases hrq : r = q
    · subst hrq
      exact hshape hr hown
    · have hl := hlike r hrq
      rw [State.shape, State.shape, hl.stage, hl.outside, hl.owner, hl.armed, hgroups r hrq]
  · by_cases hrq : r = q
    · subst hrq
      exact hmembers G hG
    · exact ⟨G, (hgroups r hrq).trans hG, rfl, rfl⟩

theorem Core.congr (h : Core s) (hsources : s'.sources = s.sources) (hgroups : s'.groups = s.groups)
    (hbusy : s'.busy = s.busy) (hnext : s'.nextSource = s.nextSource)
    (hassert : s'.assertFailed = s.assertFailed) : Core s' := by
  refine ⟨by rw [hsources, hbusy]; exact h.stops, by rw [hsources, hgroups, hnext]; exact h.fresh,
    by rw [hsources, hgroups]; exact h.direct, by rw [hsources]; exact h.fired, fun q G hG => ?_,
    by rw [hassert]; exact h.noAssert⟩
  exact (h.group q G (hgroups ▸ hG)).mono (by rw [hsources]) (by simp [hsources])

theorem Effect.congr (hsources : s'.sources = s.sources) (hgroups : s'.groups = s.groups) :
    Effect s s' own := by
  refine ⟨by simp [hsources], fun q _ _ => ?_, fun q G hG => ⟨G, by rw [hgroups, hG], rfl, rfl⟩⟩
  rw [State.shape, State.shape, hsources, hgroups]

/-- A task changes its coroutines. -/
theorem TaskOk.restack {k k' : Task} (h : TaskOk s t k) (he : Effect s s' own)
    (hroot : k'.root = k.root) (haround : k'.around = k.around) (hgroup : k'.group = k.group)
    (htoken : k'.token = inside k.root k'.frames)
    (hframes : FramesOk s' t k.root k.around true k'.frames) : TaskOk s' t k' := by
  refine ⟨by rw [hroot]; exact htoken, by rw [hroot, haround]; exact hframes,
    by rw [hroot]; exact h.root.mono he.visible, fun token ht => ?_, fun q hq => ?_⟩
  · rw [haround] at ht
    exact (h.around token ht).mono he.visible
  · rw [hgroup] at hq
    obtain ⟨hr, G, hG, ht, ha⟩ := h.member q hq
    obtain ⟨G', hG', hrunning, haround'⟩ := he.members q G hG
    exact ⟨hroot.trans hr, G', hG', hrunning ▸ ht, haround.trans (ha.trans haround'.symm)⟩

/-- One task makes a step. -/
theorem Inv.move (h : Inv s) {k k' : Task} (hk : s.tasks t = some k)
    (htasks : s'.tasks = Function.update s.tasks t (some k')) (hnext : s'.nextTask = s.nextTask)
    (hcore : Core s') (he : Effect s s' own) (hown : ∀ u d, own = some (u, d) → u = t)
    (hroot : k'.root = k.root) (haround : k'.around = k.around) (hgroup : k'.group = k.group)
    (htoken : k'.token = inside k.root k'.frames)
    (hframes : FramesOk s' t k.root k.around true k'.frames) : Inv s' := by
  refine ⟨hcore, fun u k₁ hu => ?_, fun u hu => ?_⟩
  · by_cases hut : u = t
    · subst hut
      rw [htasks, Function.update_self] at hu
      cases hu
      exact (h.task u k hk).restack he hroot haround hgroup htoken hframes
    · rw [htasks, Function.update_of_ne hut] at hu
      exact (h.task u k₁ hu).effect he fun d hd => hut (hown u d hd)
  · have hut : u ≠ t := by
      rintro rfl
      rw [hnext] at hu
      rw [h.freshTask u hu] at hk
      cases hk
    rw [htasks, Function.update_of_ne hut]
    exact h.freshTask u (hnext ▸ hu)

/-- No task changes. -/
theorem Inv.still (h : Inv s) (htasks : s'.tasks = s.tasks) (hnext : s'.nextTask = s.nextTask)
    (hcore : Core s') (he : Effect s s' none) : Inv s' := by
  refine ⟨hcore, fun u k₁ hu => ?_, fun u hu => ?_⟩
  · exact (h.task u k₁ (htasks ▸ hu)).effect he (by simp)
  · rw [htasks]
    exact h.freshTask u (hnext ▸ hu)

end Coroactors.StopScope
