/-
  Coroactors.TaskGroup.History

  What `task_group_sink` (coroactors/detail/task_group.h) does with results and
  continuations over a whole run.

    * `Nodes` — every result that got into `last_ready` is delivered, destroyed
      by `detach`, or in one of three places: the ready queue, the hands of a
      `push` that took the awaiter, and the list in `last_ready`, in that order.
    * `Conts` — every continuation that got into `last_ready` was returned, or
      is still there, or is in the hands of the `push` that took it.
-/

import Coroactors.TaskGroup.SinkInv
import Mathlib.Data.Finset.Card
import Mathlib.Data.Finset.Range

namespace Coroactors.TaskGroup

open Coroactors.Conc

variable {α : Type*} {s s' : State α}

-- ============================================================================
-- Results
-- ============================================================================

/-- The outcome of a task whose `push` got through its compare-exchange or
    discarded the result. -/
def Pusher.finished : Pusher α → Option α
  | .taken v | .done v => some v
  | _ => none

/-- The results that are neither delivered nor destroyed, oldest first. -/
def State.waiting (s : State α) : List (Node α) :=
  s.readyQueue ++ s.hand.toList ++ s.lastReady.list.reverse

structure Nodes (s : State α) : Prop where
  order : s.pushed = s.delivered ++ s.dropped ++ s.waiting
  mem : ∀ n, n ∈ s.pushed ++ s.late ↔ (s.tasks n.index).finished = some n.value
  nodup : ((s.pushed ++ s.late).map Node.index).Nodup
  dropped : s.owner ≠ .detached → s.dropped = []
  late : s.owner ≠ .detached → s.late = []
  lateView : ∀ i v, s.tasks i = .pushCas v .detached → s.owner = .detached
  count : s.count + s.delivered.length = s.nextIndex

/-- The step leaves every result where it is. -/
structure SameNodes (s s' : State α) : Prop where
  waiting : s'.waiting = s.waiting
  pushed : s'.pushed = s.pushed
  delivered : s'.delivered = s.delivered
  dropped : s'.dropped = s.dropped
  late : s'.late = s.late
  count : s'.count = s.count
  nextIndex : s'.nextIndex = s.nextIndex
  finished : ∀ i, (s'.tasks i).finished = (s.tasks i).finished
  lateView : ∀ i v, s'.tasks i = .pushCas v .detached →
    s.tasks i = .pushCas v .detached ∨ s.lastReady = .detached
  detached : s'.owner = .detached ↔ s.owner = .detached

/-- Only a detached sink has the marker of `detach`. -/
theorem OwnerOk.detached_of {o : Owner} (h : OwnerOk s o) (hl : s.lastReady = .detached) :
    o = .detached := by
  cases o <;> grind -linarith [OwnerOk, Quiet, Suspending, Waiting, Destroying, Head.plain]

theorem Nodes.same (h : Nodes s) (hi : Inv s) (hsame : SameNodes s s') : Nodes s' := by
  obtain ⟨hw, hp, hd, hdr, hl, hc, hn, hf, hv, ho⟩ := hsame
  refine ⟨by rw [hp, hd, hdr, hw]; exact h.order, ?_, by rw [hp, hl]; exact h.nodup, ?_, ?_, ?_,
    by rw [hc, hd, hn]; exact h.count⟩
  · intro n
    rw [hp, hl, hf]
    exact h.mem n
  · intro hne
    rw [hdr]
    exact h.dropped fun he => hne (ho.mpr he)
  · intro hne
    rw [hl]
    exact h.late fun he => hne (ho.mpr he)
  · intro i v ht
    refine ho.mpr ?_
    rcases hv i v ht with hv | hv
    · exact h.lateView i v hv
    · exact hi.owner.detached_of hv

/-- The results pushed so far belong to different tasks that were added. -/
theorem Nodes.length_le (h : Nodes s) (hi : Inv s) : s.pushed.length ≤ s.nextIndex := by
  have hsub : ((s.pushed ++ s.late).map Node.index).toFinset ⊆ Finset.range s.nextIndex := by
    intro i hm
    simp only [List.mem_toFinset, List.mem_map] at hm
    obtain ⟨n, hn, rfl⟩ := hm
    have hf := (h.mem n).mp hn
    rw [Finset.mem_range]
    by_contra hge
    rw [hi.fresh n.index (by omega)] at hf
    simp [Pusher.finished] at hf
  have hcard := Finset.card_le_card hsub
  rw [List.toFinset_card_of_nodup h.nodup, Finset.card_range, List.length_map,
    List.length_append] at hcard
  omega

/-- A task's `push` finishes: its node is a new one. -/
theorem Nodes.finish (h : Nodes s) {i : Nat} {v : α} {p : Pusher α}
    (hi : (s.tasks i).finished = none) (hp : p.finished = some v)
    (ht : s'.tasks = Function.update s.tasks i p)
    (hperm : (s'.pushed ++ s'.late).Perm (⟨i, v⟩ :: (s.pushed ++ s.late))) :
    (∀ n, n ∈ s'.pushed ++ s'.late ↔ (s'.tasks n.index).finished = some n.value) ∧
      ((s'.pushed ++ s'.late).map Node.index).Nodup := by
  have hnew : ∀ n ∈ s.pushed ++ s.late, n.index ≠ i := by
    rintro n hn rfl
    rw [(h.mem n).mp hn] at hi
    cases hi
  constructor
  · rintro ⟨j, w⟩
    rw [hperm.mem_iff, List.mem_cons, h.mem, ht]
    by_cases hj : j = i
    · subst hj
      simp [hp, hi, eq_comm]
    · simp [hj]
  · rw [(hperm.map Node.index).nodup_iff, List.map_cons, List.nodup_cons]
    refine ⟨?_, h.nodup⟩
    intro hm
    obtain ⟨n, hn, he⟩ := List.mem_map.mp hm
    exact hnew n hn he

theorem lateView_update {i : Nat} {p : Pusher α} (hp : ∀ v, p ≠ .pushCas v .detached) (j : Nat)
    (v : α) (h : Function.update s.tasks i p j = .pushCas v .detached) :
    s.tasks j = .pushCas v .detached := by
  by_cases hj : j = i
  · subst hj
    rw [Function.update_self] at h
    exact absurd h (hp v)
  · rwa [Function.update_of_ne hj] at h

/-- A `push` whose compare-exchange succeeds. -/
theorem Nodes.push (h : Nodes s) {i : Nat} {v : α} {p : Pusher α}
    (hi : (s.tasks i).finished = none) (hp : p.finished = some v)
    (hw : s'.waiting = s.waiting ++ [⟨i, v⟩]) (h1 : s'.pushed = s.pushed ++ [⟨i, v⟩])
    (h2 : s'.delivered = s.delivered) (h3 : s'.dropped = s.dropped) (h4 : s'.late = s.late)
    (h5 : s'.count = s.count) (h6 : s'.nextIndex = s.nextIndex)
    (h7 : s'.tasks = Function.update s.tasks i p) (h8 : s'.owner = s.owner) : Nodes s' := by
  have hperm : (s'.pushed ++ s'.late).Perm (⟨i, v⟩ :: (s.pushed ++ s.late)) := by
    rw [h1, h4, List.append_assoc]
    exact List.perm_middle
  obtain ⟨hmem, hnodup⟩ := h.finish hi hp h7 hperm
  refine ⟨?_, hmem, hnodup, ?_, ?_, ?_, ?_⟩
  · rw [h1, h2, h3, hw, h.order]
    simp
  · rw [h8, h3]
    exact h.dropped
  · rw [h8, h4]
    exact h.late
  · intro j w hj
    rw [h8]
    refine h.lateView j w (lateView_update ?_ j w (h7 ▸ hj))
    rintro w rfl
    cases hp
  · rw [h5, h2, h6]
    exact h.count

/-- A `push` that finds the sink detached. -/
theorem Nodes.discard (h : Nodes s) {i : Nat} {v : α} (ht : s.tasks i = .pushCas v .detached) :
    Nodes { (s.setTask i (.done v)) with late := s.late ++ [⟨i, v⟩] } := by
  have hd : s.owner = .detached := h.lateView i v ht
  have hperm : (s.pushed ++ (s.late ++ [Node.mk i v])).Perm (⟨i, v⟩ :: (s.pushed ++ s.late)) := by
    rw [← List.append_assoc]
    exact List.perm_append_singleton _ _
  have ht' : ({ (s.setTask i (.done v)) with late := s.late ++ [⟨i, v⟩] } : State α).tasks =
      Function.update s.tasks i (.done v) := rfl
  obtain ⟨hmem, hnodup⟩ := h.finish (by simp [ht, Pusher.finished]) rfl ht' hperm
  exact ⟨h.order, hmem, hnodup, fun hne => absurd hd hne, fun hne => absurd hd hne,
    fun _ _ _ => hd, h.count⟩

/-- The step leaves a task's outcome alone. -/
theorem SameNodes.setTask {i : Nat} {p : Pusher α} (hp : p.finished = (s.tasks i).finished)
    (hv : ∀ v, p = .pushCas v .detached → s.lastReady = .detached) :
    SameNodes s (s.setTask i p) := by
  refine ⟨rfl, rfl, rfl, rfl, rfl, rfl, rfl, ?_, ?_, .rfl⟩
  · intro j
    by_cases hj : j = i
    · subst hj
      simp [State.setTask, hp]
    · simp [State.setTask, hj]
  · intro j v ht
    by_cases hj : j = i
    · subst hj
      simp only [State.setTask, Function.update_self] at ht
      exact .inr (hv v ht)
    · simp only [State.setTask, Function.update_of_ne hj] at ht
      exact .inl ht

theorem pushStep_nodes {i : Nat} {sp : Bool} (h : Nodes s) (hi : Inv s)
    (hs : pushStep s i sp = some s') : Nodes s' := by
  cases hp : s.tasks i <;> simp only [pushStep, hp] at hs
  case push v =>
    cases hs
    refine h.same hi (.setTask (by simp [hp, Pusher.finished]) ?_)
    intro w hw
    injection hw with _ hw
    simpa using hw
  case pushCas v head =>
    have hnone : (s.tasks i).finished = none := by simp [hp, Pusher.finished]
    have hreload : Nodes (s.setTask i (.pushCas v s.lastReady.view)) := by
      refine h.same hi (.setTask (by simp [hp, Pusher.finished]) ?_)
      intro w hw
      injection hw with _ hw
      simpa using hw
    cases head <;> simp only at hs
    case awaiting =>
      split at hs <;> cases hs
      · rename_i hc
        have hl : s.lastReady = .awaiting := by
          simp only [Bool.and_eq_true, decide_eq_true_eq, Head.view_eq_awaiting] at hc
          exact hc.1
        have hh := hi.owner.hand_of_awaiting hl
        refine h.push hnone (p := .taken v) rfl ?_ rfl rfl rfl rfl rfl rfl rfl rfl
        simp [State.waiting, State.setTask, hl, hh, Head.list]
      · exact hreload
    case detached =>
      cases hs
      exact h.discard hp
    all_goals
      split at hs <;> cases hs
      · refine h.push hnone (p := .done v) rfl ?_ rfl rfl rfl rfl rfl rfl rfl rfl
        simp [State.waiting, State.setTask, Head.list]
      · exact hreload
  case taken v =>
    have hh := (hi.hand i v).mp hp
    obtain ⟨ho, hq, -⟩ := hi.owner.of_hand (by simp [hh])
    have hsame : SameNodes s (s.setTask i (.done v)) :=
      .setTask (by simp [hp, Pusher.finished]) (by simp)
    cases hs
    refine h.same hi ⟨?_, rfl, rfl, rfl, rfl, rfl, rfl, hsame.finished, hsame.lateView, ?_⟩
    · simp [State.waiting, State.takeContinuation, State.assert, State.setTask, hq, hh]
    · cases hw : s.owner <;>
        simp_all [State.takeContinuation, State.assert, State.setTask, Owner.wake, Owner.waits]
  all_goals cases hs

/-- A step of another party than a task that leaves the results alone. -/
theorem SameNodes.moved (hw : s'.waiting = s.waiting) (h1 : s'.pushed = s.pushed)
    (h2 : s'.delivered = s.delivered) (h3 : s'.dropped = s.dropped) (h4 : s'.late = s.late)
    (h5 : s'.count = s.count) (h6 : s'.nextIndex = s.nextIndex) (h7 : s'.tasks = s.tasks)
    (h8 : s'.owner = .detached ↔ s.owner = .detached) : SameNodes s s' :=
  ⟨hw, h1, h2, h3, h4, h5, h6, fun _ => by rw [h7], fun _ _ ht => .inl (h7 ▸ ht), h8⟩

theorem Owner.wake_detached {o : Owner} : o.wake = .detached ↔ o = .detached := by
  cases o <;> simp [Owner.wake]

theorem cancelStep_nodes {sp : Bool} (hs : cancelStep s sp = some s') : SameNodes s s' := by
  cases hp : s.canceller <;> simp only [cancelStep, hp] at hs
  case cas head =>
    cases head <;> simp only at hs
    case awaiting =>
      split at hs <;> cases hs
      · rename_i hc
        simp only [Bool.and_eq_true, decide_eq_true_eq, Head.view_eq_awaiting] at hc
        refine .moved ?_ rfl rfl rfl rfl rfl rfl rfl Owner.wake_detached
        simp [State.waiting, State.takeContinuation, hc.1, Head.list]
      · exact .moved rfl rfl rfl rfl rfl rfl rfl rfl .rfl
    case null =>
      split at hs <;> cases hs
      · rename_i hc
        simp only [Bool.and_eq_true, decide_eq_true_eq, Head.view_eq_null] at hc
        refine .moved ?_ rfl rfl rfl rfl rfl rfl rfl .rfl
        simp [State.waiting, hc.1, Head.list]
      · exact .moved rfl rfl rfl rfl rfl rfl rfl rfl .rfl
    all_goals
      cases hs
      exact .moved rfl rfl rfl rfl rfl rfl rfl rfl .rfl
  all_goals
    cases hs
    try exact .moved rfl rfl rfl rfl rfl rfl rfl rfl .rfl

/-- The owner delivers a result in `await_resume`; its other steps leave the
    results where they are. -/
theorem ownerStep_nodes {tok : Token} {sp : Bool} (hi : Inv s)
    (hs : ownerStep s tok sp = some s') :
    SameNodes s s' ∨ ∃ k, k ≠ .whenReady ∧ s.owner = .resume k ∧ s' = s.awaitResume := by
  have hok := hi.owner
  cases ho : s.owner <;> simp only [ownerStep, ho] at hs <;> rw [ho] at hok
  case token =>
    cases tok <;> simp only at hs <;> cases hs <;>
      exact .inl (.moved rfl rfl rfl rfl rfl rfl rfl rfl (by simp [ho]))
  case suspend k =>
    cases hs
    exact .inl (.moved rfl rfl rfl rfl rfl rfl rfl rfl (by simp [ho]))
  case suspendCas k c head =>
    cases head <;> simp only at hs
    case null =>
      split at hs <;> cases hs
      · rename_i hc
        simp only [Bool.and_eq_true, decide_eq_true_eq, Head.view_eq_null] at hc
        refine .inl (.moved ?_ rfl rfl rfl rfl rfl rfl rfl (by simp [ho]))
        simp [State.waiting, hc.1, Head.list]
      · exact .inl (.moved rfl rfl rfl rfl rfl rfl rfl rfl (by simp [ho]))
    case cancelled =>
      split at hs <;> cases hs
      · rename_i hc
        simp only [Bool.and_eq_true, decide_eq_true_eq, Head.view_eq_cancelled] at hc
        refine .inl (.moved ?_ rfl rfl rfl rfl rfl rfl rfl (by simp [ho]))
        simp [State.waiting, hc.1, Head.list]
      · exact .inl (.moved rfl rfl rfl rfl rfl rfl rfl rfl (by simp [ho]))
    all_goals
      cases hs
      exact .inl (.moved rfl rfl rfl rfl rfl rfl rfl rfl (by simp [ho]))
  case resume k =>
    cases k <;> simp only at hs
    case whenReady =>
      split at hs <;> cases hs
      exact .inl (.moved rfl rfl rfl rfl rfl rfl rfl rfl (by simp [ho]))
    all_goals
      cases hs
      exact .inr ⟨_, by simp, rfl, rfl⟩
  case removed =>
    obtain ⟨r, hr, -, hass⟩ := awaitReady_of_quiet hok.1
    rw [hr, hass] at hs
    cases hs
    exact .inl (.moved rfl rfl rfl rfl rfl rfl rfl rfl (by simp [ho]))
  case destroyCas c head =>
    cases head <;> simp only at hs
    case awaiting =>
      split at hs <;> cases hs
      · rename_i hc
        simp only [Bool.and_eq_true, decide_eq_true_eq, Head.view_eq_awaiting] at hc
        refine .inl (.moved ?_ rfl rfl rfl rfl rfl rfl rfl (by simp [ho]))
        simp [State.waiting, State.takeContinuation, hc.1, Head.list]
      · exact .inl (.moved rfl rfl rfl rfl rfl rfl rfl rfl (by simp [ho]))
    case cancelled =>
      split at hs <;> cases hs
      · rename_i hc
        simp only [Bool.and_eq_true, decide_eq_true_eq, Head.view_eq_cancelled] at hc
        refine .inl (.moved ?_ rfl rfl rfl rfl rfl rfl rfl (by simp [ho]))
        simp [State.waiting, hc.1, Head.list]
      · exact .inl (.moved rfl rfl rfl rfl rfl rfl rfl rfl (by simp [ho]))
    all_goals
      cases hs
      exact .inl (.moved rfl rfl rfl rfl rfl rfl rfl rfl (by simp [ho]))
  case destroy c =>
    split at hs <;> cases hs
    exact .inl (.moved rfl rfl rfl rfl rfl rfl rfl rfl (by simp [ho]))
  all_goals
    cases hs
    try exact .inl (.moved rfl rfl rfl rfl rfl rfl rfl rfl (by simp [ho]))

theorem awaitResume_nodes {k : Kind} (h : Nodes s) (hi : Inv s) (hk : k ≠ .whenReady)
    (ho : s.owner = .resume k) : Nodes s.awaitResume := by
  have hok := hi.owner
  rw [ho] at hok
  obtain ⟨hq, hav⟩ := hok
  obtain ⟨n, rest, h', hsplit, -, he⟩ := awaitResume_spec hq (by simpa [hk] using hav)
  have hd : s.owner ≠ .detached := by simp [ho]
  have horder : s.pushed = s.delivered ++ n :: rest ++ h'.list.reverse := by
    have := h.order
    rw [State.waiting, hq.2.1, h.dropped hd] at this
    simpa [hsplit] using this
  have hlen : s.delivered.length + 1 ≤ s.nextIndex := by
    have := h.length_le hi
    simp [horder] at this
    omega
  rw [he]
  refine ⟨?_, h.mem, h.nodup, fun _ => h.dropped hd, fun _ => h.late hd, ?_, ?_⟩
  · simp [State.waiting, hq.2.1, h.dropped hd, horder]
  · intro i v ht
    exact absurd (h.lateView i v ht) hd
  · have := h.count
    simp
    omega

/-- `await_ready` answers an owner that does not await, and changes nothing
    but the owner's position. -/
theorem awaitStep_spec {k : Kind} (hi : Inv s) (hs : awaitStep s k = some s') :
    s.owner = .idle ∧ (s' = s ∨ ∃ o, s' = { s with owner := o } ∧ o ≠ .detached ∧
      (∀ k c v, o ≠ .suspendCas k c v) ∧ (k ≠ .whenReady → o ≠ .token)) := by
  have hok := hi.owner
  cases ho : s.owner <;> simp only [awaitStep, ho] at hs <;> rw [ho] at hok
  case idle =>
    refine ⟨rfl, ?_⟩
    obtain ⟨r, hr, -, hass⟩ := awaitReady_of_quiet hok
    split at hs
    · cases hs
      exact .inl rfl
    · rw [hr, hass] at hs
      right
      cases r <;> simp only at hs <;> cases hs
      · cases k <;> exact ⟨_, rfl, by simp, by simp, by simp⟩
      · exact ⟨_, rfl, by simp, by simp, by simp⟩
  all_goals cases hs

theorem step_nodes {a : Act α} (h : Nodes s) (hi : Inv s) (hs : (group α).step s a = some s') :
    Nodes s' := by
  cases a <;> simp only [group] at hs
  case add =>
    split at hs <;> cases hs
    rename_i ho
    have habs : s.tasks s.nextIndex = .absent := hi.fresh _ (Nat.le_refl _)
    have hsame : SameNodes s (s.setTask s.nextIndex .running) :=
      .setTask (by simp [habs, Pusher.finished]) (by simp)
    have h' := h.same hi hsame
    refine ⟨h'.order, h'.mem, h'.nodup, h'.dropped, h'.late, h'.lateView, ?_⟩
    have := h.count
    simp [State.nextTask, State.setTask]
    omega
  case ready =>
    split at hs <;> cases hs
    have hsame : SameNodes s s.ready := by
      unfold State.ready
      split <;> exact .moved rfl rfl rfl rfl rfl rfl rfl rfl .rfl
    exact h.same hi hsame
  case await k =>
    obtain ⟨ho, rfl | ⟨o, rfl, hne, -, -⟩⟩ := awaitStep_spec hi hs
    · exact h
    · exact h.same hi (.moved rfl rfl rfl rfl rfl rfl rfl rfl (by simp [ho, hne]))
  case owner tok sp =>
    rcases ownerStep_nodes hi hs with hsame | ⟨k, hk, ho, rfl⟩
    · exact h.same hi hsame
    · exact awaitResume_nodes h hi hk ho
  case destroy =>
    split at hs
    case h_1 k c ho =>
      split at hs <;> cases hs
      exact h.same hi (.moved rfl rfl rfl rfl rfl rfl rfl rfl (by simp [ho]))
    case h_2 => cases hs
  case detach =>
    split at hs <;> cases hs
    rename_i ho
    have hok := hi.owner
    rw [ho] at hok
    have hd : s.owner ≠ .detached := by simp [ho]
    refine ⟨?_, h.mem, h.nodup, fun hne => absurd rfl hne, fun hne => absurd rfl hne,
      fun _ _ _ => rfl, h.count⟩
    have := h.order
    simp only [State.waiting, hok.2.1, h.dropped hd] at this
    simp [State.detach, State.waiting, hok.2.1, h.dropped hd, this, Head.list]
  case complete i v =>
    split at hs <;> cases hs
    rename_i hr
    have hrun : s.tasks i = .running := by
      cases ht : s.tasks i <;> simp_all
    exact h.same hi (.setTask (by simp [hrun, Pusher.finished]) (by simp))
  case push i sp => exact pushStep_nodes h hi hs
  case cancel sp => exact h.same hi (cancelStep_nodes hs)

-- ============================================================================
-- Continuations
-- ============================================================================

/-- The continuation installed in `last_ready`, or taken by a `push` that has
    not returned it yet. -/
def State.pending (s : State α) : List Nat :=
  if s.lastReady.view = .awaiting ∨ s.hand.isSome then s.continuation.toList else []

structure Conts (s : State α) : Prop where
  installed : s.installed = s.returned ++ s.pending
  nodup : s.installed.Nodup
  bound : ∀ c ∈ s.installed, c < s.awaits
  fresh : ∀ k c v, s.owner = .suspendCas k c v → c ∉ s.installed ∧ c < s.awaits

theorem pending_eq_nil (hl : s.lastReady ≠ .awaiting) (hh : s.hand = none) : s.pending = [] := by
  simp [State.pending, hl, hh]

theorem Quiet.pending (h : Quiet s) : s.pending = [] :=
  pending_eq_nil (Head.plain_ne h.2.2).1 h.2.1

theorem Suspending.pending {k : Kind} (h : Suspending s k) : s.pending = [] := by
  refine pending_eq_nil ?_ h.2.1
  rcases h.2.2 with hp | ⟨hp, -⟩
  · exact (Head.plain_ne hp).1
  · simp [hp]

/-- A step that neither installs nor returns a continuation. -/
theorem Conts.keep (h : Conts s) (h1 : s'.installed = s.installed) (h2 : s'.returned = s.returned)
    (h3 : s'.pending = s.pending) (h4 : s'.awaits = s.awaits)
    (h5 : ∀ k c v, s'.owner = .suspendCas k c v → ∃ k' v', s.owner = .suspendCas k' c v') :
    Conts s' := by
  refine ⟨by rw [h1, h2, h3]; exact h.installed, h1 ▸ h.nodup, ?_, ?_⟩
  · rw [h1, h4]
    exact h.bound
  · intro k c v ho
    obtain ⟨k', v', ho'⟩ := h5 k c v ho
    rw [h1, h4]
    exact h.fresh k' c v' ho'

/-- A step that returns the continuation it took. -/
theorem Conts.give (h : Conts s) (h1 : s'.installed = s.installed)
    (h2 : s'.returned = s.returned ++ s.pending) (h3 : s'.pending = [])
    (h4 : s'.awaits = s.awaits) (h5 : ∀ k c v, s'.owner ≠ .suspendCas k c v) : Conts s' := by
  refine ⟨?_, h1 ▸ h.nodup, ?_, fun k c v ho => absurd ho (h5 k c v)⟩
  · rw [h1, h2, h3, List.append_nil]
    exact h.installed
  · rw [h1, h4]
    exact h.bound

/-- `await_suspend` stores a new handle. -/
theorem Conts.prepare (h : Conts s) (h1 : s'.installed = s.installed)
    (h2 : s'.returned = s.returned) (h3 : s'.pending = s.pending) (h4 : s'.awaits = s.awaits + 1)
    (h5 : ∀ k c v, s'.owner = .suspendCas k c v → c = s.awaits) : Conts s' := by
  refine ⟨by rw [h1, h2, h3]; exact h.installed, h1 ▸ h.nodup, ?_, ?_⟩
  · intro c hc
    rw [h4]
    exact Nat.lt_succ_of_lt (h.bound c (h1 ▸ hc))
  · intro k c v ho
    obtain rfl := h5 k c v ho
    rw [h1, h4]
    exact ⟨fun hc => absurd (h.bound _ hc) (Nat.lt_irrefl _), Nat.lt_succ_self _⟩

/-- `await_suspend` installs its handle. -/
theorem Conts.install (h : Conts s) {k : Kind} {c : Nat} {v : View}
    (ho : s.owner = .suspendCas k c v) (hp : s.pending = [])
    (h1 : s'.installed = s.installed ++ [c]) (h2 : s'.returned = s.returned)
    (h3 : s'.pending = [c]) (h4 : s'.awaits = s.awaits)
    (h5 : ∀ k c v, s'.owner ≠ .suspendCas k c v) : Conts s' := by
  obtain ⟨hnew, hlt⟩ := h.fresh k c v ho
  refine ⟨?_, ?_, ?_, fun k c v ho => absurd ho (h5 k c v)⟩
  · rw [h1, h2, h3, h.installed, hp, List.append_nil]
  · rw [h1, List.nodup_append_comm, List.singleton_append, List.nodup_cons]
    exact ⟨hnew, h.nodup⟩
  · intro c' hc
    rw [h1, List.mem_append, List.mem_singleton] at hc
    rw [h4]
    rcases hc with hc | rfl
    · exact h.bound c' hc
    · exact hlt

theorem Owner.wake_suspendCas {o : Owner} {k : Kind} {c : Nat} {v : View}
    (h : o.wake = .suspendCas k c v) : o = .suspendCas k c v := by
  cases o <;> simp_all [Owner.wake]

theorem pushStep_conts {i : Nat} {sp : Bool} (h : Conts s) (hi : Inv s)
    (hs : pushStep s i sp = some s') : Conts s' := by
  cases hp : s.tasks i <;> simp only [pushStep, hp] at hs
  case push v =>
    cases hs
    exact h.keep rfl rfl rfl rfl fun k c v ho => ⟨k, v, ho⟩
  case pushCas v head =>
    cases head <;> simp only at hs
    case awaiting =>
      split at hs <;> cases hs
      · rename_i hc
        simp only [Bool.and_eq_true, decide_eq_true_eq, Head.view_eq_awaiting] at hc
        refine h.keep rfl rfl ?_ rfl fun k c v ho => ⟨k, v, ho⟩
        simp [State.pending, State.setTask, hc.1]
      · exact h.keep rfl rfl rfl rfl fun k c v ho => ⟨k, v, ho⟩
    case detached =>
      cases hs
      exact h.keep rfl rfl rfl rfl fun k c v ho => ⟨k, v, ho⟩
    all_goals
      split at hs <;> cases hs
      · rename_i hc
        refine h.keep rfl rfl ?_ rfl fun k c v ho => ⟨k, v, ho⟩
        simp [State.pending, State.setTask, hc]
      · exact h.keep rfl rfl rfl rfl fun k c v ho => ⟨k, v, ho⟩
  case taken v =>
    have hh := (hi.hand i v).mp hp
    obtain ⟨ho, hq, hpl⟩ := hi.owner.of_hand (by simp [hh])
    have hna : s.lastReady ≠ .awaiting := by
      rcases hpl with hpl | ⟨hpl, -⟩
      · exact (Head.plain_ne hpl).1
      · simp [hpl]
    cases hs
    refine h.give rfl ?_ (pending_eq_nil hna rfl) rfl ?_
    · simp [State.takeContinuation, State.setTask, State.assert, State.pending, hh]
    · intro k c w hw
      have hw' : s.owner = .suspendCas k c w := Owner.wake_suspendCas hw
      simp [hw', Owner.waits] at ho
  all_goals cases hs

theorem cancelStep_conts {sp : Bool} (h : Conts s) (hi : Inv s)
    (hs : cancelStep s sp = some s') : Conts s' := by
  cases hp : s.canceller <;> simp only [cancelStep, hp] at hs
  case cas head =>
    cases head <;> simp only at hs
    case awaiting =>
      split at hs <;> cases hs
      · rename_i hc
        simp only [Bool.and_eq_true, decide_eq_true_eq, Head.view_eq_awaiting] at hc
        have hw := hi.owner.of_awaiting hc.1
        refine h.give rfl ?_ (pending_eq_nil (by simp) (hi.owner.hand_of_awaiting hc.1)) rfl ?_
        · simp [State.takeContinuation, State.pending, hc.1]
        · intro k c w ho
          simp [Owner.wake_suspendCas ho, Owner.waits] at hw
      · exact h.keep rfl rfl rfl rfl fun k c v ho => ⟨k, v, ho⟩
    case null =>
      split at hs <;> cases hs
      · rename_i hc
        simp only [Bool.and_eq_true, decide_eq_true_eq, Head.view_eq_null] at hc
        refine h.keep rfl rfl ?_ rfl fun k c v ho => ⟨k, v, ho⟩
        simp [State.pending, hc.1]
      · exact h.keep rfl rfl rfl rfl fun k c v ho => ⟨k, v, ho⟩
    all_goals
      cases hs
      exact h.keep rfl rfl rfl rfl fun k c v ho => ⟨k, v, ho⟩
  all_goals
    cases hs
    try exact h.keep rfl rfl rfl rfl fun k c v ho => ⟨k, v, ho⟩

theorem ownerStep_conts {tok : Token} {sp : Bool} (h : Conts s) (hi : Inv s)
    (hs : ownerStep s tok sp = some s') : Conts s' := by
  have hok := hi.owner
  cases ho : s.owner <;> simp only [ownerStep, ho] at hs <;> rw [ho] at hok
  case token =>
    cases tok <;> simp only at hs <;> cases hs <;> exact h.keep rfl rfl rfl rfl (by simp)
  case suspend k =>
    have hnil := hok.1.pending
    cases hs
    refine h.prepare rfl rfl ?_ rfl ?_
    · rw [hnil]
      exact Suspending.pending (k := k) hok.1
    · rintro k c v ⟨⟩
      rfl
  case suspendCas k c head =>
    obtain ⟨hsus, hc, -⟩ := hok
    have hnil := hsus.pending
    cases head <;> simp only at hs
    case null =>
      split at hs <;> cases hs
      · exact h.install ho hnil rfl rfl (by simp [State.pending, hc, Head.view]) rfl (by simp)
      · exact h.keep rfl rfl rfl rfl fun k' c' v' ho' => ⟨k, .null, by cases ho'; exact ho⟩
    case cancelled =>
      split at hs <;> cases hs
      · refine h.keep rfl rfl ?_ rfl (by simp)
        rw [hnil]
        exact pending_eq_nil (by simp) hsus.2.1
      · exact h.keep rfl rfl rfl rfl fun k' c' v' ho' => ⟨k, .cancelled, by cases ho'; exact ho⟩
    all_goals
      cases hs
      refine h.keep rfl rfl ?_ rfl (by simp)
      rw [hnil]
      simp [State.pending]
  case resume k =>
    have hresume : k ≠ .whenReady → Conts s.awaitResume := by
      intro hk
      obtain ⟨hq, hav⟩ := hok
      obtain ⟨n, rest, h', -, hpl, he⟩ := awaitResume_spec hq (by simpa [hk] using hav)
      rw [he]
      refine h.keep rfl rfl ?_ rfl (by simp)
      rw [hq.pending]
      exact pending_eq_nil (Head.plain_ne hpl).1 hq.2.1
    cases k <;> simp only at hs
    case whenReady =>
      split at hs <;> cases hs
      exact h.keep rfl rfl rfl rfl (by simp)
    all_goals
      cases hs
      exact hresume (by simp)
  case removed =>
    obtain ⟨r, hr, -, hass⟩ := awaitReady_of_quiet hok.1
    rw [hr, hass] at hs
    cases hs
    exact h.keep rfl rfl rfl rfl (by simp)
  case destroyCas c head =>
    cases head <;> simp only at hs
    case awaiting =>
      split at hs <;> cases hs
      · rename_i hc
        simp only [Bool.and_eq_true, decide_eq_true_eq, Head.view_eq_awaiting] at hc
        refine h.give rfl ?_ (pending_eq_nil (by simp) (hi.owner.hand_of_awaiting hc.1)) rfl
          (by simp)
        simp [State.takeContinuation, State.pending, hc.1]
      · exact h.keep rfl rfl rfl rfl (by simp)
    case cancelled =>
      split at hs <;> cases hs
      · rename_i hc
        simp only [Bool.and_eq_true, decide_eq_true_eq, Head.view_eq_cancelled] at hc
        exact h.keep rfl rfl (by simp [State.pending, hc.1]) rfl (by simp)
      · exact h.keep rfl rfl rfl rfl (by simp)
    all_goals
      cases hs
      exact h.keep rfl rfl rfl rfl (by simp)
  case destroy c =>
    split at hs <;> cases hs
    exact h.keep rfl rfl rfl rfl (by simp)
  all_goals
    cases hs
    try exact h.keep rfl rfl rfl rfl (by simp)

theorem step_conts {a : Act α} (h : Conts s) (hi : Inv s) (hs : (group α).step s a = some s') :
    Conts s' := by
  cases a <;> simp only [group] at hs
  case add =>
    split at hs <;> cases hs
    exact h.keep rfl rfl rfl rfl fun k c v ho => ⟨k, v, ho⟩
  case ready =>
    split at hs <;> cases hs
    unfold State.ready
    split
    · exact h
    · exact h.keep rfl rfl rfl rfl fun k c v ho => ⟨k, v, ho⟩
  case await k =>
    obtain ⟨ho, rfl | ⟨o, rfl, -, hne, -⟩⟩ := awaitStep_spec hi hs
    · exact h
    · exact h.keep rfl rfl rfl rfl fun k c v he => absurd he (hne k c v)
  case owner tok sp => exact ownerStep_conts h hi hs
  case destroy =>
    split at hs
    case h_1 k c ho =>
      split at hs <;> cases hs
      exact h.keep rfl rfl rfl rfl (by simp)
    case h_2 => cases hs
  case detach =>
    split at hs <;> cases hs
    rename_i ho
    have hok := hi.owner
    rw [ho] at hok
    refine h.keep rfl rfl ?_ rfl (by simp [State.detach])
    rw [Quiet.pending hok]
    exact pending_eq_nil (by simp [State.detach]) hok.2.1
  case complete i v =>
    split at hs <;> cases hs
    exact h.keep rfl rfl rfl rfl fun k c v ho => ⟨k, v, ho⟩
  case push i sp => exact pushStep_conts h hi hs
  case cancel sp => exact cancelStep_conts h hi hs

end Coroactors.TaskGroup
