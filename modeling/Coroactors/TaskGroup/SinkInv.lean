/-
  Coroactors.TaskGroup.SinkInv

  The invariant of `task_group_sink` that ties the word `last_ready` to the
  owner's position, and its preservation by every step.

  `OwnerOk` says, position by position, which markers `last_ready` may hold,
  whether a continuation is stored, and whether a result is there to be taken.
  One kind of step breaks it: the stop callback of a `when_ready()` marks an
  empty head as cancelled although `await_suspend` is over, because a `push`
  has already taken the awaiter.  `CancelOk` excludes exactly that step.
-/

import Coroactors.TaskGroup.Sink
import Mathlib.Tactic.Common

namespace Coroactors.TaskGroup

open Coroactors.Conc

variable {α : Type*} {s s' : State α}

-- ============================================================================
-- The invariant
-- ============================================================================

/-- `last_ready` holds no marker: it is null or a list of results. -/
def Head.plain : Head α → Bool
  | .null | .results _ _ => true
  | _ => false

/-- Some result can be taken without waiting. -/
def State.avail (s : State α) : Prop := s.readyQueue ≠ [] ∨ s.lastReady.list ≠ []

/-- Nobody waits: no continuation, nothing in the hands of a `push`, no marker. -/
def Quiet (s : State α) : Prop :=
  s.continuation = none ∧ s.hand = none ∧ s.lastReady.plain = true

/-- The sink before a continuation is installed: a `when_ready` may already
    have been cancelled. -/
def Suspending (s : State α) (k : Kind) : Prop :=
  s.readyQueue = [] ∧ s.hand = none ∧
    (s.lastReady.plain = true ∨ s.lastReady = .cancelled ∧ k = .whenReady ∧ s.stop = true)

/-- The continuation `c` is installed, or a `push` took it and has its node
    still in hand. -/
def Waiting (s : State α) (c : Nat) : Prop :=
  s.continuation = some c ∧ s.readyQueue = [] ∧
    (s.lastReady = .awaiting ∧ s.hand = none ∨ s.lastReady.plain = true ∧ s.hand ≠ none)

/-- The awaiter is being destroyed: as in `Waiting`, or the continuation is
    gone, and the stop callback may have marked an empty head. -/
def Destroying (s : State α) (c : Nat) : Prop :=
  (s.lastReady = .awaiting ∧ s.continuation = some c ∧ s.readyQueue = [] ∧ s.hand = none) ∨
    (s.lastReady.plain = true ∨ s.lastReady = .cancelled) ∧
      (s.continuation = some c ∧ s.readyQueue = [] ∧ s.hand ≠ none ∨
        s.continuation = none ∧ s.hand = none)

/-- The sink at each position of the owner. -/
def OwnerOk (s : State α) : Owner → Prop
  | .idle => Quiet s
  | .token => Quiet s ∧ s.readyQueue = []
  | .suspend k => Suspending s k ∧ s.continuation = none
  | .suspendCas k c head => Suspending s k ∧ s.continuation = some c ∧
      head ≠ .awaiting ∧ head ≠ .detached ∧ (∀ i, head = .node i → s.lastReady.list ≠ [])
  | .suspended _ c => Waiting s c
  | .resume k => Quiet s ∧ (s.avail ∨ k = .whenReady ∧ s.stop = true)
  | .removed => Quiet s ∧ (s.avail ∨ s.stop = true)
  | .completed r => Quiet s ∧ (s.avail ∨ s.stop = true) ∧ (r = true → s.avail)
  | .destroy c | .destroyLoad c => Destroying s c
  | .destroyCas c head => Destroying s c ∧ head ≠ .detached ∧
      (head ≠ .awaiting → s.lastReady ≠ .awaiting) ∧
      (head ≠ .awaiting → head ≠ .cancelled → s.lastReady ≠ .cancelled)
  | .lost c => (Waiting s c ∧ s.lastReady ≠ .awaiting) ∨ Quiet s
  | .crashed => False
  | .detached => s.lastReady = .detached ∧ s.readyQueue = [] ∧ s.hand = none ∧
      s.continuation = none

/-- The owner positions at which a stop callback may be registered. -/
def Owner.armed : Owner → Bool
  | .suspend .whenReady | .suspendCas .whenReady _ _ | .suspended .whenReady _
  | .resume .whenReady | .destroy _ => true
  | _ => false

structure Inv (s : State α) : Prop where
  assertOk : s.assertFailed = false
  fresh : ∀ i, s.nextIndex ≤ i → s.tasks i = .absent
  hand : ∀ i v, s.tasks i = .taken v ↔ s.hand = some ⟨i, v⟩
  armed : s.canceller ≠ .off → s.owner.armed = true
  ran : s.canceller ≠ .off → s.canceller ≠ .armed → s.stop = true
  cancelView : ∀ h, s.canceller = .cas h → h ≠ .detached
  owner : OwnerOk s s.owner

/-- The owner is through `await_suspend` and is going to `await_resume`. -/
def Owner.through : Owner → Bool
  | .suspended _ _ | .resume _ => true
  | _ => false

/-- The stop callback does not mark an empty head as cancelled once the
    `when_ready` it belongs to has got through `await_suspend`. -/
def CancelOk (s : State α) : Act α → Prop
  | .cancel spurious =>
      s.canceller = .cas .null → s.lastReady = .null → spurious = false →
        s.owner.through = false
  | _ => True

-- ============================================================================
-- Reading `last_ready`
-- ============================================================================

@[simp] theorem Head.view_eq_null {h : Head α} : h.view = .null ↔ h = .null := by
  cases h <;> simp [Head.view]

@[simp] theorem Head.view_eq_awaiting {h : Head α} : h.view = .awaiting ↔ h = .awaiting := by
  cases h <;> simp [Head.view]

@[simp] theorem Head.view_eq_detached {h : Head α} : h.view = .detached ↔ h = .detached := by
  cases h <;> simp [Head.view]

@[simp] theorem Head.view_eq_cancelled {h : Head α} : h.view = .cancelled ↔ h = .cancelled := by
  cases h <;> simp [Head.view]

theorem Head.list_ne_nil_of_view {h : Head α} {i : Nat} (hv : h.view = .node i) :
    h.list ≠ [] := by
  cases h <;> simp_all [Head.view, Head.list]

theorem Head.plain_ne {h : Head α} (hp : h.plain = true) :
    h ≠ .awaiting ∧ h ≠ .detached ∧ h ≠ .cancelled := by
  cases h <;> simp_all [Head.plain]

attribute [local grind] OwnerOk Quiet Suspending Waiting Destroying State.avail Head.plain Head.list

/-- The owner's part of the invariant reads five fields. -/
theorem OwnerOk.congr {o : Owner} (h : OwnerOk s o) (h1 : s'.lastReady = s.lastReady)
    (h2 : s'.readyQueue = s.readyQueue) (h3 : s'.continuation = s.continuation)
    (h4 : s'.hand = s.hand) (h5 : s.stop = true → s'.stop = true) : OwnerOk s' o := by
  cases o <;> grind -linarith

theorem OwnerOk.hand_of_awaiting {o : Owner} (h : OwnerOk s o) (hl : s.lastReady = .awaiting) :
    s.hand = none := by
  cases o <;> grind -linarith

/-- The positions at which somebody else may take the continuation away. -/
def Owner.waits : Owner → Bool
  | .suspended _ _ | .destroy _ | .destroyLoad _ | .destroyCas _ _ | .lost _ => true
  | _ => false

/-- The positions of an awaiter that is being destroyed. -/
def Owner.destroying : Owner → Bool
  | .destroy _ | .destroyLoad _ | .destroyCas _ _ => true
  | _ => false

/-- While a `push` has its node in hand the owner waits, and nothing is queued. -/
theorem OwnerOk.of_hand {o : Owner} (h : OwnerOk s o) (hl : s.hand ≠ none) :
    o.waits = true ∧ s.readyQueue = [] ∧
      (s.lastReady.plain = true ∨ s.lastReady = .cancelled ∧ o.destroying = true) := by
  cases o <;> grind -linarith [Owner.waits, Owner.destroying]

theorem OwnerOk.of_awaiting {o : Owner} (h : OwnerOk s o) (hl : s.lastReady = .awaiting) :
    o.waits = true := by
  cases o <;> grind -linarith [Owner.waits]

theorem Owner.armed_wake {o : Owner} (h : o.armed = true) : o.wake.armed = true := by
  cases o <;> simp_all [Owner.wake, Owner.armed]
  case suspended k c => cases k <;> simp_all

-- ============================================================================
-- Steps of a push
-- ============================================================================

/-- A `push` takes the awaiter out of `last_ready`. -/
theorem OwnerOk.take {o : Owner} (h : OwnerOk s o) (hl : s.lastReady = .awaiting)
    (h1 : s'.lastReady = .null) (h2 : s'.readyQueue = s.readyQueue)
    (h3 : s'.continuation = s.continuation) (h4 : s'.hand ≠ none) : OwnerOk s' o := by
  cases o <;> grind -linarith

/-- A `push` adds its node to the list in `last_ready`. -/
theorem OwnerOk.append {o : Owner} (h : OwnerOk s o) {n : Node α} {l : List (Node α)}
    (hl : s.lastReady ≠ .awaiting) (hd : s.lastReady ≠ .detached)
    (h1 : s'.lastReady = .results n l) (h2 : s'.readyQueue = s.readyQueue)
    (h3 : s'.continuation = s.continuation) (h4 : s'.hand = s.hand) : OwnerOk s' o := by
  cases o <;> grind -linarith

/-- The continuation is handed over; the sink holds a result then, or the stop
    was requested. -/
theorem OwnerOk.wake {o : Owner} (h : OwnerOk s o) (ho : o.waits = true)
    (h1 : s'.lastReady = s.lastReady ∨ s'.lastReady = .null)
    (h1' : s'.lastReady.plain = true ∨ s'.lastReady = .cancelled ∧ o.destroying = true)
    (h2 : s'.hand = none) (h3 : s'.continuation = none)
    (h4 : s'.avail ∨ (∀ k c, o = .suspended k c → k = .whenReady) ∧ s'.stop = true) :
    OwnerOk s' o.wake := by
  cases o <;> grind -linarith [Owner.waits, Owner.wake, Owner.destroying]

/-- Only the `push` that is about to write the ready queue has a node in hand. -/
theorem hand_update {i : Nat} {p : Pusher α}
    (h : ∀ j v, s.tasks j = .taken v ↔ s.hand = some ⟨j, v⟩)
    (hi : ∀ v, s.tasks i ≠ .taken v) (hp : ∀ v, p ≠ .taken v) (j : Nat) (v : α) :
    Function.update s.tasks i p j = .taken v ↔ s.hand = some ⟨j, v⟩ := by
  by_cases hj : j = i
  · subst hj
    rw [Function.update_self]
    exact iff_of_false (hp v) (fun he => hi v ((h j v).mpr he))
  · rw [Function.update_of_ne hj]
    exact h j v

theorem fresh_update {n i : Nat} {p : Pusher α} (h : ∀ j, n ≤ j → s.tasks j = .absent)
    (hi : s.tasks i ≠ .absent) (j : Nat) (hj : n ≤ j) :
    Function.update s.tasks i p j = .absent := by
  have hne : j ≠ i := by
    rintro rfl
    exact hi (h j hj)
  rw [Function.update_of_ne hne]
  exact h j hj

theorem Inv.setTask (h : Inv s) {i : Nat} {p : Pusher α} (ha : s.tasks i ≠ .absent)
    (hi : ∀ v, s.tasks i ≠ .taken v) (hp : ∀ v, p ≠ .taken v) : Inv (s.setTask i p) :=
  ⟨h.assertOk, fresh_update h.fresh ha, hand_update h.hand hi hp, h.armed, h.ran, h.cancelView,
    h.owner.congr rfl rfl rfl rfl id⟩

theorem pushStep_inv {i : Nat} {sp : Bool} (h : Inv s) (hs : pushStep s i sp = some s') :
    Inv s' := by
  have hfresh : s.tasks i ≠ .absent → ∀ p j, s.nextIndex ≤ j →
      Function.update s.tasks i p j = .absent := fun hi p => fresh_update h.fresh hi
  cases hp : s.tasks i <;> simp only [pushStep, hp] at hs
  case push v =>
    cases hs
    exact h.setTask (by simp [hp]) (by simp [hp]) (by simp)
  case pushCas v head =>
    have hnt : ∀ w, s.tasks i ≠ .taken w := by simp [hp]
    have hreload : Inv (s.setTask i (.pushCas v s.lastReady.view)) := h.setTask (by simp [hp]) hnt (by simp)
    obtain ⟨h1, hf, h2, h3, h4, h5, h6⟩ := h
    cases head <;> simp only at hs
    case awaiting =>
      split at hs <;> cases hs
      · rename_i hc
        have hl : s.lastReady = .awaiting := by
          simp only [Bool.and_eq_true, decide_eq_true_eq, Head.view_eq_awaiting] at hc
          exact hc.1
        refine ⟨h1, hfresh (by simp [hp]) _, ?_, h3, h4, h5, h6.take hl rfl rfl rfl (by simp)⟩
        have hn := h6.hand_of_awaiting hl
        intro j w
        by_cases hj : j = i
        · subst hj
          simp [State.setTask]
        · simp [State.setTask, hj, h2, hn, Ne.symm hj]
      · exact hreload
    case detached =>
      cases hs
      exact ⟨h1, hfresh (by simp [hp]) _, hand_update h2 hnt (by simp), h3, h4, h5, h6.congr rfl rfl rfl rfl id⟩
    all_goals
      split at hs <;> cases hs
      · rename_i hc
        refine ⟨h1, hfresh (by simp [hp]) _, hand_update h2 hnt (by simp), h3, h4, h5,
          h6.append ?_ ?_ rfl rfl rfl rfl⟩
        all_goals
          intro hl
          simp [hl, Head.view] at hc
      · exact hreload
  case taken v =>
    obtain ⟨h1, hf, h2, h3, h4, h5, h6⟩ := h
    have hh := (h2 i v).mp hp
    obtain ⟨ho, hq, hpl⟩ := h6.of_hand (by simp [hh])
    cases hs
    refine ⟨by simp [State.assert, State.setTask, State.takeContinuation, h1, hq],
      hfresh (by simp [hp]) _, ?_,
      fun hc => Owner.armed_wake (h3 hc), h4, h5,
      h6.wake ho (.inl rfl) hpl rfl rfl (.inl (.inl (by simp)))⟩
    intro j w
    by_cases hj : j = i
    · subst hj
      simp [State.setTask, State.takeContinuation, State.assert]
    · simp [State.setTask, State.takeContinuation, State.assert, hj, h2, hh, Ne.symm hj]
  all_goals cases hs

-- ============================================================================
-- Steps of the stop callback
-- ============================================================================

/-- Where the owner of a registered stop callback is before it gets through
    `await_suspend`, unless its awaiter is destroyed. -/
theorem Owner.armed_cases {o : Owner} (ha : o.armed = true) (ho : o.through = false) :
    o = .suspend .whenReady ∨ (∃ c h, o = .suspendCas .whenReady c h) ∨ ∃ c, o = .destroy c := by
  rcases o with _ | _ | k | ⟨k, _, _⟩ | ⟨k, _⟩ | k | _ | _ | _ | _ | _ | _ | _ | _ <;>
    simp_all [Owner.armed, Owner.through] <;> cases k <;> simp_all

/-- The stop callback marks an empty head while the owner is not through
    `await_suspend`, or destroys its awaiter. -/
theorem OwnerOk.cancel {o : Owner} (h : OwnerOk s o) (ha : o.armed = true)
    (ho : o.through = false) (hl : s.lastReady = .null) (h1 : s'.lastReady = .cancelled)
    (h2 : s'.readyQueue = s.readyQueue) (h3 : s'.continuation = s.continuation)
    (h4 : s'.hand = s.hand) (h5 : s'.stop = true) : OwnerOk s' o := by
  rcases Owner.armed_cases ha ho with rfl | ⟨c, h, rfl⟩ | ⟨c, rfl⟩ <;> grind -linarith

theorem cancelStep_inv {sp : Bool} (h : Inv s) (hok : CancelOk s (.cancel sp))
    (hs : cancelStep s sp = some s') : Inv s' := by
  have hlive : s.canceller ≠ .off → s.lastReady ≠ .detached := by
    intro hc hl
    have ha := h.armed hc
    have ho := h.owner
    cases hw : s.owner <;> simp_all [Owner.armed] <;> grind -linarith
  obtain ⟨h1, hf, h2, h3, h4, h5, h6⟩ := h
  cases hp : s.canceller <;> simp only [cancelStep, hp] at hs
  case armed =>
    cases hs
    exact ⟨h1, hf, h2, fun _ => h3 (by simp [hp]), by simp, by simp,
      h6.congr rfl rfl rfl rfl fun _ => rfl⟩
  case load =>
    cases hs
    refine ⟨h1, hf, h2, fun _ => h3 (by simp [hp]), fun _ _ => h4 (by simp [hp]) (by simp [hp]), ?_,
      h6.congr rfl rfl rfl rfl id⟩
    rintro h ⟨⟩
    simpa using hlive (by simp [hp])
  case cas head =>
    have hon : s.canceller ≠ .off := by simp [hp]
    have hstop : s.stop = true := h4 hon (by simp [hp])
    have hreload : Inv { s with canceller := .cas s.lastReady.view } := by
      refine ⟨h1, hf, h2, fun _ => h3 hon, fun _ _ => hstop, ?_, h6.congr rfl rfl rfl rfl id⟩
      rintro h ⟨⟩
      simpa using hlive hon
    cases head <;> simp only at hs
    case awaiting =>
      split at hs <;> cases hs
      · rename_i hc
        have hl : s.lastReady = .awaiting := by
          simp only [Bool.and_eq_true, decide_eq_true_eq, Head.view_eq_awaiting] at hc
          exact hc.1
        have ho := h6.of_awaiting hl
        have hn := h6.hand_of_awaiting hl
        refine ⟨h1, hf, h2, fun _ => Owner.armed_wake (h3 hon), fun _ _ => hstop, by simp,
          h6.wake ho (.inr rfl) (.inl rfl) hn rfl (.inr ⟨?_, hstop⟩)⟩
        intro k c' hk
        have ha := h3 hon
        rw [hk] at ha
        cases k <;> simp_all [Owner.armed]
      · exact hreload
    case null =>
      split at hs <;> cases hs
      · rename_i hc
        simp only [Bool.and_eq_true, decide_eq_true_eq, Bool.not_eq_true', Head.view_eq_null] at hc
        exact ⟨h1, hf, h2, fun _ => h3 hon, fun _ _ => hstop, by simp,
          h6.cancel (h3 hon) (hok hp hc.1 hc.2) hc.1 rfl rfl rfl rfl hstop⟩
      · exact hreload
    case detached => exact absurd rfl (h5 _ hp)
    all_goals
      cases hs
      exact ⟨by simp [State.assert, h1], hf, h2, fun _ => h3 hon, fun _ _ => hstop, by simp,
        h6.congr rfl rfl rfl rfl id⟩
  all_goals cases hs

-- ============================================================================
-- Steps of the owner
-- ============================================================================

theorem State.assert_of {ok : Bool} (h : ok = true) : s.assert ok = s := by
  simp [State.assert, h]

/-- What `await_ready` answers to an owner that is not suspended. -/
theorem awaitReady_of_quiet (h : Quiet s) :
    ∃ r, s.awaitReady = some r ∧ (r = true ↔ s.avail) ∧ s.awaitReadyAssert = s := by
  obtain ⟨hc, -, hp⟩ := h
  obtain ⟨ha, hd, hx⟩ := Head.plain_ne hp
  by_cases hq : s.readyQueue = []
  · refine ⟨s.lastReady.view != .null, by simp [State.awaitReady, hc, hq], ?_, ?_⟩
    · cases hl : s.lastReady <;> simp_all [Head.plain, State.avail, Head.list, Head.view]
    · simp only [State.awaitReadyAssert, hq, ne_eq, not_true_eq_false, if_false]
      exact State.assert_of (by simp [ha, hd, hx])
  · exact ⟨true, by simp [State.awaitReady, hc, hq], by simp [State.avail, hq],
      by simp [State.awaitReadyAssert, hq]⟩

theorem awaitStep_inv {k : Kind} (h : Inv s) (hs : awaitStep s k = some s') : Inv s' := by
  cases ho : s.owner <;> simp only [awaitStep, ho] at hs
  case idle =>
    have hoff : s.canceller = .off := by
      by_contra hc
      simpa [ho, Owner.armed] using h.armed hc
    have hq : Quiet s := by simpa [ho, OwnerOk] using h.owner
    obtain ⟨r, hr, hav, hass⟩ := awaitReady_of_quiet hq
    split at hs
    · cases hs
      exact h
    · rw [hr, hass] at hs
      obtain ⟨h1, hf, h2, h3, h4, h5, h6⟩ := h
      cases r <;> simp only at hs <;> cases hs
      · have hnil : s.readyQueue = [] := by
          by_contra hq
          exact absurd (hav.mpr (.inl hq)) (by simp)
        refine ⟨h1, hf, h2, fun hc => absurd hoff hc, fun hc => absurd hoff hc, h5, ?_⟩
        cases k <;> grind -linarith
      · exact ⟨h1, hf, h2, fun hc => absurd hoff hc, fun hc => absurd hoff hc, h5,
          ⟨hq, .inl (hav.mp rfl)⟩⟩
  all_goals cases hs

theorem invert_eq (l q : List (Node α)) : invert l q = l.reverse ++ q := by
  induction l generalizing q with
  | nil => rfl
  | cons n rest ih => simp [invert, ih]

/-- `await_resume` takes the oldest result and leaves the others in order. -/
theorem awaitResume_spec (h : Quiet s) (ha : s.avail) :
    ∃ n rest h', s.readyQueue ++ s.lastReady.list.reverse = n :: rest ++ h'.list.reverse ∧
      h'.plain = true ∧
      s.awaitResume = { s with
        lastReady := h'
        readyQueue := rest
        delivered := s.delivered ++ [n]
        count := s.count - 1
        owner := .idle } := by
  obtain ⟨-, -, hp⟩ := h
  cases hq : s.readyQueue with
  | cons n rest =>
      exact ⟨n, rest, s.lastReady, rfl, hp, by simp [State.awaitResume, State.popReady, hq]⟩
  | nil =>
      cases hl : s.lastReady <;> simp_all [State.avail, Head.list, Head.plain]
      case results m l =>
        -- the inverted list starts with the first of the results in it
        cases hr : (m :: l).reverse with
        | nil => simp at hr
        | cons n rest =>
            refine ⟨n, rest, .null, by simpa using hr, rfl, ?_⟩
            simp [State.awaitResume, State.popReady, State.assert, invert_eq, hq, hl, hr, Head.view]

/-- A step of the owner that leaves the tasks alone and either keeps the stop
    callback or finds it removed. -/
theorem Inv.moved (h : Inv s) (ha : s'.assertFailed = false) (ht : s'.tasks = s.tasks)
    (hn : s'.nextIndex = s.nextIndex) (hh : s'.hand = s.hand)
    (hc : s'.canceller = .off ∨ s'.canceller = s.canceller ∧ s'.stop = s.stop ∧
      (s.owner.armed = true → s'.owner.armed = true))
    (ho : OwnerOk s' s'.owner) : Inv s' := by
  obtain ⟨h1, hf, h2, h3, h4, h5, h6⟩ := h
  refine ⟨ha, by rw [hn, ht]; exact hf, by rw [ht, hh]; exact h2, ?_, ?_, ?_, ho⟩
  all_goals
    rcases hc with hc | ⟨hc, hstop, harm⟩
    · simp [hc]
    · grind -linarith

theorem off_of_not_armed (h : Inv s) (ho : s.owner.armed = false) : s.canceller = .off := by
  by_contra hc
  simpa [ho] using h.armed hc

/-- What `await_suspend` remembers of `last_ready` after reading it. -/
theorem Suspending.suspendCas {k : Kind} {c : Nat} (h : Suspending s k)
    (hc : s.continuation = some c) : OwnerOk s (.suspendCas k c s.lastReady.view) := by
  refine ⟨h, hc, ?_, ?_, fun i hi => Head.list_ne_nil_of_view hi⟩
  all_goals cases hl : s.lastReady <;> simp_all [Suspending, Head.plain, Head.view]

/-- What `await_cancel()` remembers of `last_ready` after reading it. -/
theorem OwnerOk.destroyCas {c : Nat} (h : Destroying s c) :
    OwnerOk s (.destroyCas c s.lastReady.view) := by
  refine ⟨h, ?_⟩
  cases hl : s.lastReady <;> simp_all [Destroying, Head.plain, Head.view]

theorem ownerStep_inv {tok : Token} {sp : Bool} (h : Inv s) (hs : ownerStep s tok sp = some s') :
    Inv s' := by
  have hok := h.owner
  have ha := h.assertOk
  cases ho : s.owner <;> simp only [ownerStep, ho] at hs <;> rw [ho] at hok
  case token =>
    have hoff := off_of_not_armed h (by simp [ho, Owner.armed])
    cases tok <;> simp only at hs <;> cases hs
    · exact h.moved ha rfl rfl rfl (.inl hoff) (by simp only; grind -linarith)
    · exact h.moved ha rfl rfl rfl (.inl hoff) (by simp only; grind -linarith)
    · exact ⟨ha, h.fresh, h.hand, fun _ => rfl, by simp, by simp, by grind -linarith⟩
  case suspend k =>
    obtain ⟨hsus, hc⟩ := hok
    cases hs
    refine h.moved ?_ rfl rfl rfl (.inr ⟨rfl, rfl, ?_⟩) ?_
    · simp [State.assert, ha, hsus.1, hc]
    · rw [ho]
      cases k <;> simp [Owner.armed]
    · exact Suspending.suspendCas hsus rfl
  case suspendCas k c head =>
    obtain ⟨hsus, hc, hna, hnd, hnode⟩ := hok
    have harm : ∀ o : Owner, o = .suspended k c ∨ o = .resume k ∨ (∃ v, o = .suspendCas k c v) →
        s.owner.armed = true → o.armed = true := by
      rintro o (rfl | rfl | ⟨v, rfl⟩) <;> rw [ho] <;> cases k <;> simp [Owner.armed]
    have hreload : Inv { s with owner := .suspendCas k c s.lastReady.view } :=
      h.moved ha rfl rfl rfl (.inr ⟨rfl, rfl, harm _ (.inr (.inr ⟨_, rfl⟩))⟩)
        (Suspending.suspendCas hsus hc)
    cases head <;> simp only at hs
    case null =>
      split at hs <;> cases hs
      · exact h.moved ha rfl rfl rfl (.inr ⟨rfl, rfl, harm _ (.inl rfl)⟩)
          ⟨hc, hsus.1, .inl ⟨rfl, hsus.2.1⟩⟩
      · exact hreload
    case cancelled =>
      split at hs <;> cases hs
      · rename_i hx
        have hl : s.lastReady = .cancelled := by
          simp only [Bool.and_eq_true, decide_eq_true_eq, Head.view_eq_cancelled] at hx
          exact hx.1
        refine h.moved ha rfl rfl rfl (.inr ⟨rfl, rfl, harm _ (.inr (.inl rfl))⟩) ?_
        grind -linarith
      · exact hreload
    case node i =>
      cases hs
      refine h.moved (by simp [State.assert, ha]) rfl rfl rfl
        (.inr ⟨rfl, rfl, harm _ (.inr (.inl rfl))⟩) ?_
      have := hnode i rfl
      grind -linarith [State.assert]
    all_goals contradiction
  case resume k =>
    have hoff : k ≠ .whenReady → s.canceller = .off := by
      intro hk
      refine off_of_not_armed h ?_
      rw [ho]
      cases k <;> simp_all [Owner.armed]
    have hresume : k ≠ .whenReady → Inv s.awaitResume := by
      intro hk
      obtain ⟨hq, hav⟩ := hok
      obtain ⟨n, rest, h', -, hpl, he⟩ := awaitResume_spec hq (by simpa [hk] using hav)
      rw [he]
      exact h.moved ha rfl rfl rfl (.inl (hoff hk)) ⟨hq.1, hq.2.1, hpl⟩
    cases k <;> simp only at hs
    case whenReady =>
      split at hs <;> cases hs
      exact h.moved ha rfl rfl rfl (.inl rfl) (by grind -linarith)
    all_goals
      cases hs
      exact hresume (by simp)
  case removed =>
    obtain ⟨hq, hav⟩ := hok
    obtain ⟨r, hr, hiff, hass⟩ := awaitReady_of_quiet hq
    have hoff := off_of_not_armed h (by simp [ho, Owner.armed])
    rw [hr, hass] at hs
    cases hs
    exact h.moved ha rfl rfl rfl (.inl hoff) ⟨hq, hav, hiff.mp⟩
  case completed r =>
    have hoff := off_of_not_armed h (by simp [ho, Owner.armed])
    cases hs
    exact h.moved ha rfl rfl rfl (.inl hoff) hok.1
  case destroy c =>
    split at hs <;> cases hs
    exact h.moved ha rfl rfl rfl (.inl rfl) hok
  case destroyLoad c =>
    have hoff := off_of_not_armed h (by simp [ho, Owner.armed])
    cases hs
    exact h.moved ha rfl rfl rfl (.inl hoff) (OwnerOk.destroyCas (s := s) hok)
  case destroyCas c head =>
    obtain ⟨hwq, hnd, hgone, hmark⟩ := hok
    have hoff := off_of_not_armed h (by simp [ho, Owner.armed])
    cases head <;> simp only at hs
    case awaiting =>
      split at hs <;> cases hs
      · rename_i hx
        have hl : s.lastReady = .awaiting := by
          simp only [Bool.and_eq_true, decide_eq_true_eq, Head.view_eq_awaiting] at hx
          exact hx.1
        refine h.moved ha rfl rfl rfl (.inl hoff) ?_
        grind -linarith [State.takeContinuation]
      · exact h.moved ha rfl rfl rfl (.inl hoff) (OwnerOk.destroyCas (s := s) hwq)
    case cancelled =>
      split at hs <;> cases hs
      · rename_i hx
        have hl : s.lastReady = .cancelled := by
          simp only [Bool.and_eq_true, decide_eq_true_eq, Head.view_eq_cancelled] at hx
          exact hx.1
        refine h.moved ha rfl rfl rfl (.inl hoff) ?_
        grind -linarith
      · exact h.moved ha rfl rfl rfl (.inl hoff) (OwnerOk.destroyCas (s := s) hwq)
    case detached => contradiction
    all_goals
      cases hs
      refine h.moved (by simp [State.assert, ha]) rfl rfl rfl (.inl hoff) ?_
      have := hgone (by simp)
      have := hmark (by simp) (by simp)
      grind -linarith [State.assert]
  all_goals cases hs

-- ============================================================================
-- Every run
-- ============================================================================

theorem start_inv : Inv (State.start : State α) := by
  constructor <;> simp [State.start, OwnerOk, Quiet, Head.plain]

theorem step_inv {a : Act α} (h : Inv s) (hok : CancelOk s a)
    (hs : (group α).step s a = some s') : Inv s' := by
  have ho := h.owner
  have hoff : s.owner = .idle → s.canceller = .off := fun hi =>
    off_of_not_armed h (by rw [hi]; rfl)
  cases a <;> simp only [group] at hs
  case add =>
    split at hs <;> cases hs
    rename_i hi
    have hnew : s.tasks s.nextIndex = .absent := h.fresh _ (Nat.le_refl _)
    refine ⟨h.assertOk, ?_, hand_update h.hand (by simp [hnew]) (by simp), h.armed, h.ran,
      h.cancelView, h.owner.congr rfl rfl rfl rfl id⟩
    intro j hj
    have hj' : s.nextIndex + 1 ≤ j := hj
    have hne : j ≠ s.nextIndex := by omega
    simpa [State.nextTask, State.setTask, hne] using h.fresh j (by omega)
  case ready =>
    split at hs <;> cases hs
    rename_i hi
    rw [hi] at ho
    have hr : s.ready = s := by
      obtain ⟨-, -, hp⟩ := ho
      obtain ⟨-, hd, hx⟩ := Head.plain_ne hp
      unfold State.ready
      split
      · rfl
      · exact State.assert_of (by simp [hd, hx])
    exact hr.symm ▸ h
  case await k => exact awaitStep_inv h hs
  case owner tok sp => exact ownerStep_inv h hs
  case destroy =>
    split at hs
    case h_1 k c hi =>
      rw [hi] at ho
      split at hs <;> cases hs
      refine h.moved h.assertOk rfl rfl rfl (.inr ⟨rfl, rfl, fun _ => rfl⟩) ?_
      grind -linarith
    case h_2 => cases hs
  case detach =>
    split at hs <;> cases hs
    rename_i hi
    rw [hi] at ho
    obtain ⟨hc, hh, hp⟩ := ho
    refine h.moved h.assertOk rfl rfl rfl (.inl (hoff hi)) ⟨rfl, rfl, hh, ?_⟩
    simp [State.detach, hc]
  case complete i v =>
    split at hs <;> cases hs
    rename_i hr
    have hrun : s.tasks i = .running := by
      cases ht : s.tasks i <;> simp_all
    exact h.setTask (by simp [hrun]) (by simp [hrun]) (by simp)
  case push i sp => exact pushStep_inv h hs
  case cancel sp => exact cancelStep_inv h hok hs

/-- Along every run in which the stop callback meets `CancelOk`. -/
theorem reachable_inv (h : (group α).ReachableIf CancelOk s) : Inv s :=
  h.invariant (fun _ hi => hi ▸ start_inv) fun _ _ _ hi hok hs => step_inv hi hok hs

end Coroactors.TaskGroup
