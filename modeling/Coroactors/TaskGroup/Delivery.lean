/-
  Coroactors.TaskGroup.Delivery

  `task_group_sink` (coroactors/detail/task_group.h) delivers every result
  exactly once, in the order of the compare-exchanges that pushed them, and
  wakes its awaiter exactly once.

  `Delivery` collects what holds in a state of the run.  It is proved from the
  invariants of `SinkInv` and `History` for every run that meets `CancelOk`;
  a run of an owner that only awaits `next()` and `next_result()` has no stop
  callback and always does.
-/

import Coroactors.TaskGroup.History

namespace Coroactors.TaskGroup

open Coroactors.Conc

variable {α : Type*} {s s' : State α}

theorem reachable_nodes (h : (group α).ReachableIf CancelOk s) : Nodes s := by
  refine h.invariant_of (J := Inv) (fun _ => reachable_inv) ?_ fun _ _ _ hi hn _ => step_nodes hn hi
  rintro s rfl
  constructor <;> simp [State.start, State.waiting, Head.list, Pusher.finished]

theorem reachable_conts (h : (group α).ReachableIf CancelOk s) : Conts s := by
  refine h.invariant_of (J := Inv) (fun _ => reachable_inv) ?_ fun _ _ _ hi hc _ => step_conts hc hi
  rintro s rfl
  constructor <;> simp [State.start, State.pending]

-- ============================================================================
-- One state
-- ============================================================================

/-- What the sink promises in a state of its run. -/
structure Delivery (s : State α) : Prop where
  /-- The results come in the order they were pushed in. -/
  inOrder : s.delivered <+: s.pushed
  /-- No task's result is there twice. -/
  once : (s.pushed.map Node.index).Nodup
  /-- The sink's `await_resume` is only reached with a result. -/
  resumed : ∀ k, s.owner = .resume k → k ≠ .whenReady → s.avail
  noCrash : s.owner ≠ .crashed
  asserts : s.assertFailed = false
  /-- An installed continuation was returned once, or is still installed or in
      the hands of the `push` that took it. -/
  woken : ∀ c ∈ s.installed, s.returned.count c + s.pending.count c = 1
  installed : ∀ c ∈ s.returned, c ∈ s.installed
  /-- Nobody is left waiting while there is a result. -/
  awaiting : s.lastReady = .awaiting → s.pushed = s.delivered
  count : s.count = s.nextIndex - s.delivered.length
  /-- Results are discarded by or after `detach` only. -/
  kept : s.owner ≠ .detached → s.dropped = [] ∧ s.late = []
  /-- After `detach` the result of a task that is through `push` was delivered
      or is discarded, once. -/
  discarded : s.owner = .detached → ∀ n, s.tasks n.index = .done n.value → n ∉ s.delivered →
    n ∈ s.dropped ++ s.late ∧ ((s.dropped ++ s.late).map Node.index).count n.index = 1
  nothingTaken : s.owner = .detached → ∀ i v, s.tasks i ≠ .taken v

theorem OwnerOk.readyQueue_of_awaiting {o : Owner} (h : OwnerOk s o)
    (hl : s.lastReady = .awaiting) : s.readyQueue = [] := by
  cases o <;> grind -linarith [OwnerOk, Quiet, Suspending, Waiting, Destroying, Head.plain]

theorem Nodes.pushed_of_awaiting (h : Nodes s) (hi : Inv s) (hl : s.lastReady = .awaiting) :
    s.pushed = s.delivered := by
  have hne : s.owner ≠ .detached := by
    intro ho
    have hok := hi.owner
    rw [ho] at hok
    simp [hl, OwnerOk] at hok
  have hw : s.waiting = [] := by
    simp [State.waiting, hi.owner.readyQueue_of_awaiting hl, hi.owner.hand_of_awaiting hl, hl,
      Head.list]
  rw [h.order, hw, h.dropped hne, List.append_nil, List.append_nil]

/-- Nothing waits in a detached sink. -/
theorem waiting_of_detached (hi : Inv s) (ho : s.owner = .detached) : s.waiting = [] := by
  have hok := hi.owner
  rw [ho] at hok
  obtain ⟨hl, hq, hh, -⟩ := hok
  simp [State.waiting, hl, hq, hh, Head.list]

theorem Nodes.discarded (h : Nodes s) (hi : Inv s) (ho : s.owner = .detached) {n : Node α}
    (ht : s.tasks n.index = .done n.value) (hn : n ∉ s.delivered) :
    n ∈ s.dropped ++ s.late ∧ ((s.dropped ++ s.late).map Node.index).count n.index = 1 := by
  have horder : s.pushed = s.delivered ++ s.dropped := by
    rw [h.order, waiting_of_detached hi ho, List.append_nil]
  have hmem : n ∈ s.dropped ++ s.late := by
    have := (h.mem n).mpr (by simp [ht, Pusher.finished])
    rw [horder, List.append_assoc, List.mem_append] at this
    exact this.resolve_left hn
  refine ⟨hmem, List.count_eq_one_of_mem ?_ (List.mem_map_of_mem hmem)⟩
  have hnd := h.nodup
  rw [horder, List.append_assoc, List.map_append] at hnd
  exact hnd.of_append_right

theorem Conts.woken (h : Conts s) {c : Nat} (hc : c ∈ s.installed) :
    s.returned.count c + s.pending.count c = 1 := by
  rw [← List.count_append, ← h.installed]
  exact List.count_eq_one_of_mem h.nodup hc

theorem Inv.delivery (hi : Inv s) (hn : Nodes s) (hc : Conts s) : Delivery s where
  inOrder := by
    rw [hn.order, List.append_assoc]
    exact List.prefix_append _ _
  once := by
    have := hn.nodup
    rw [List.map_append] at this
    exact this.of_append_left
  resumed := by
    intro k ho hk
    have hok := hi.owner
    rw [ho] at hok
    exact hok.2.resolve_right fun h => hk h.1
  noCrash := by
    intro ho
    have hok := hi.owner
    rw [ho] at hok
    exact hok
  asserts := hi.assertOk
  woken := fun c => hc.woken
  installed := by
    intro c hr
    rw [hc.installed]
    exact List.mem_append_left _ hr
  awaiting := hn.pushed_of_awaiting hi
  count := by
    have := hn.count
    omega
  kept := fun ho => ⟨hn.dropped ho, hn.late ho⟩
  discarded := fun ho _ => hn.discarded hi ho
  nothingTaken := by
    intro ho i v ht
    have hok := hi.owner
    rw [ho] at hok
    rw [hi.hand i v, hok.2.2.1] at ht
    cases ht

-- ============================================================================
-- Steps
-- ============================================================================

/-- The `push` that took the awaiter returns its continuation next. -/
theorem push_returns {i : Nat} {v : α} (hi : Inv s) (ht : s.tasks i = .taken v) :
    ∃ c s', s.pending = [c] ∧ (group α).step s (.push i false) = some s' ∧
      s'.returned = s.returned ++ [c] := by
  have hh := (hi.hand i v).mp ht
  have hcont : ∃ c, s.continuation = some c := by
    have hok := hi.owner
    cases ho : s.owner <;> rw [ho] at hok <;>
      simp [OwnerOk, Quiet, Suspending, Waiting, Destroying, hh] at hok <;> grind -linarith
  obtain ⟨c, hcont⟩ := hcont
  refine ⟨c, ?_⟩
  simp [State.pending, hh, hcont, group, pushStep, ht, State.takeContinuation, State.setTask,
    State.assert]

/-- A detached sink stays detached and returns no continuation. -/
theorem detached_step {a : Act α} (hi : Inv s) (ho : s.owner = .detached)
    (hs : (group α).step s a = some s') :
    s'.owner = .detached ∧ s'.returned = s.returned ∧ s'.delivered = s.delivered := by
  have hok := hi.owner
  rw [ho] at hok
  obtain ⟨hl, -, hh, -⟩ := hok
  cases a <;> simp only [group, ho, awaitStep, ownerStep] at hs
  case complete i v =>
    split at hs <;> cases hs
    exact ⟨ho, rfl, rfl⟩
  case push i sp =>
    cases hp : s.tasks i <;> simp only [pushStep, hp] at hs
    case pushCas v head =>
      cases head <;> simp only [hl, Head.view] at hs
      all_goals
        cases hs
        exact ⟨ho, rfl, rfl⟩
    case taken v =>
      rw [hi.hand i v, hh] at hp
      cases hp
    all_goals
      cases hs
      try exact ⟨ho, rfl, rfl⟩
  case cancel sp =>
    have hoff : s.canceller = .off := off_of_not_armed hi (by rw [ho]; rfl)
    simp [cancelStep, hoff] at hs
  all_goals cases hs

-- ============================================================================
-- Runs of `next()` and `next_result()`
-- ============================================================================

/-- The owner awaits `next()` and `next_result()` only. -/
def NextOnly (_ : State α) : Act α → Prop
  | .await k => k ≠ .whenReady
  | _ => True

/-- Without `when_ready()` there is no stop callback. -/
def NoCallback (s : State α) : Prop := s.canceller = .off ∧ s.owner ≠ .token

theorem ownerStep_noCallback {tok : Token} {sp : Bool} (h : NoCallback s)
    (hs : ownerStep s tok sp = some s') : NoCallback s' := by
  obtain ⟨hc, hne⟩ := h
  have hpop : ∀ t : State α, t.canceller = .off → NoCallback t.popReady := by
    intro t ht
    unfold State.popReady
    split <;> exact ⟨ht, by simp⟩
  cases ho : s.owner <;> simp only [ownerStep, ho] at hs
  case token => exact absurd ho hne
  case resume k =>
    have hresume : NoCallback s.awaitResume := by
      unfold State.awaitResume
      split
      · exact hpop s hc
      · simp only
        split
        · exact hpop _ hc
        · exact ⟨hc, by simp⟩
    cases k <;> simp only at hs
    case whenReady =>
      split at hs <;> cases hs
      exact ⟨rfl, by simp⟩
    all_goals
      cases hs
      exact hresume
  case removed =>
    split at hs <;> cases hs
    · exact ⟨hc, by simp⟩
    · refine ⟨?_, by simp⟩
      unfold State.awaitReadyAssert
      split <;> exact hc
  case suspendCas k c head =>
    cases head <;> simp only at hs
    case null | cancelled => split at hs <;> cases hs <;> exact ⟨hc, by simp⟩
    all_goals
      cases hs
      exact ⟨hc, by simp⟩
  case destroyCas c head =>
    cases head <;> simp only at hs
    case awaiting | cancelled => split at hs <;> cases hs <;> exact ⟨hc, by simp⟩
    all_goals
      cases hs
      exact ⟨hc, by simp⟩
  case destroy c =>
    split at hs <;> cases hs
    exact ⟨rfl, by simp⟩
  all_goals
    cases hs
    try exact ⟨hc, by simp⟩

theorem pushStep_noCallback {i : Nat} {sp : Bool} (h : NoCallback s)
    (hs : pushStep s i sp = some s') : NoCallback s' := by
  cases hp : s.tasks i <;> simp only [pushStep, hp] at hs
  case pushCas v head =>
    cases head <;> simp only at hs
    case detached =>
      cases hs
      exact h
    all_goals split at hs <;> cases hs <;> exact h
  case taken v =>
    cases hs
    refine ⟨h.1, fun ho => h.2 ?_⟩
    have ho' : s.owner.wake = .token := ho
    cases hw : s.owner <;> simp_all [Owner.wake]
  all_goals
    cases hs
    try exact h

theorem step_noCallback {a : Act α} (h : NoCallback s) (hi : Inv s) (hok : NextOnly s a)
    (hs : (group α).step s a = some s') : NoCallback s' := by
  cases a <;> simp only [group] at hs
  case add | complete i v =>
    split at hs <;> cases hs
    exact h
  case ready =>
    split at hs <;> cases hs
    unfold State.ready
    split <;> exact h
  case await k =>
    obtain ⟨-, rfl | ⟨o, rfl, -, -, hne⟩⟩ := awaitStep_spec hi hs
    · exact h
    · exact ⟨h.1, hne hok⟩
  case owner tok sp => exact ownerStep_noCallback h hs
  case destroy =>
    split at hs
    · split at hs <;> cases hs
      exact ⟨h.1, by simp⟩
    · cases hs
  case detach =>
    split at hs <;> cases hs
    exact ⟨h.1, by simp [State.detach]⟩
  case push i sp => exact pushStep_noCallback h hs
  case cancel sp => simp [cancelStep, h.1] at hs

theorem NoCallback.cancelOk (h : NoCallback s) (a : Act α) : CancelOk s a := by
  cases a with
  | cancel sp =>
      intro hc
      rw [h.1] at hc
      cases hc
  | _ => trivial

/-- Such a run meets `CancelOk` at every step. -/
theorem cancelOk_of_nextOnly (h : (group α).ReachableIf NextOnly s) :
    (group α).ReachableIf CancelOk s ∧ NoCallback s := by
  induction h with
  | init hi =>
      obtain rfl := hi
      exact ⟨.init rfl, rfl, by simp [State.start]⟩
  | step a _ hok hs ih =>
      obtain ⟨hr, hnc⟩ := ih
      exact ⟨.step a hr (hnc.cancelOk a) hs, step_noCallback hnc (reachable_inv hr) hok hs⟩

/-- Every run of `next()` and `next_result()` awaits delivers every result
    once and in order and wakes its awaiter once; a `push` that took the
    awaiter returns it; and after `detach` no continuation is returned. -/
theorem nextOnly_delivery :
    (∀ s : State α, (group α).ReachableIf NextOnly s → Delivery s) ∧
    (∀ (s : State α) (i : Nat) (v : α), (group α).ReachableIf NextOnly s →
      s.tasks i = .taken v → ∃ c s', s.pending = [c] ∧
        (group α).step s (.push i false) = some s' ∧ s'.returned = s.returned ++ [c]) ∧
    (∀ s s' : State α, (group α).ReachableIf NextOnly s → s.owner = .detached →
      (group α).Path NextOnly s s' → s'.returned = s.returned ∧ s'.delivered = s.delivered) := by
  refine ⟨?_, ?_, ?_⟩
  · intro s h
    obtain ⟨hr, -⟩ := cancelOk_of_nextOnly h
    exact (reachable_inv hr).delivery (reachable_nodes hr) (reachable_conts hr)
  · intro s i v h ht
    exact push_returns (reachable_inv (cancelOk_of_nextOnly h).1) ht
  · intro s s' h ho hpath
    have hkeep : (group α).ReachableIf NextOnly s' ∧ s'.owner = .detached ∧
        s'.returned = s.returned ∧ s'.delivered = s.delivered := by
      refine hpath.invariant (I := fun t => (group α).ReachableIf NextOnly t ∧
        t.owner = .detached ∧ t.returned = s.returned ∧ t.delivered = s.delivered) ?_
        ⟨h, ho, rfl, rfl⟩
      rintro t a t' ⟨ht, hd, h1, h2⟩ hok hs
      obtain ⟨hd', h1', h2'⟩ :=
        detached_step (reachable_inv (cancelOk_of_nextOnly ht).1) hd hs
      exact ⟨.step a ht hok hs, hd', h1'.trans h1, h2'.trans h2⟩
    exact hkeep.2.2

end Coroactors.TaskGroup
