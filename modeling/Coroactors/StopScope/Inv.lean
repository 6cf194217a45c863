/-
  Coroactors.StopScope.Inv

  The invariant of nested wrappers.

  `Core` is about the sources and the groups: how stops spread
  (Coroactors.StopScope.Stops), and in which stage the source of a group is.
  `TaskOk` is about one task: its token is the one inside of its coroutines, and
  every wrapper has the token outside of it and a source in the stage that its
  place asks for.  A source belongs to one coroutine, which is known by the task
  and by how many coroutines are below it (`owner`): what a wrapper does to its
  source says nothing about the sources of others (`Effect`).
-/

import Coroactors.StopScope.Stops

namespace Coroactors.StopScope

-- ============================================================================
-- Definitions
-- ============================================================================

namespace State

/-- A call of `request_stop` is in progress. -/
def busy (s : State) (q : Nat) (hand : Hand) : Prop := ∃ th, Item.request q hand ∈ s.stack th

theorem Quiet.not_busy {s : State} (h : s.Quiet) : ∀ q hand, ¬s.busy q hand := by
  rintro q hand ⟨th, hth⟩
  exact h th q hand hth

theorem visible_iff {s : State} {q : Nat} :
    s.visible q = true ↔ (s.sources q).stage.Visible := by
  unfold visible Stage.Visible
  cases (s.sources q).stage <;> simp

theorem stopRequested_iff {s : State} {token : Token} :
    s.stopRequested token = true ↔ stoppedIn s.sources token := by
  cases token with
  | none => simp [stopRequested, stoppedIn]
  | some q => simp [stopRequested, stoppedIn]

/-- What the coroutines know of a source. -/
def shape (s : State) (q : Nat) : Stage × Token × Option (Nat × Nat) × Bool × Option Phase :=
  ((s.sources q).stage, (s.sources q).outside, (s.sources q).owner, (s.sources q).armed,
    (s.groups q).map Group.phase)

end State

/-- The stage of the source of a group. -/
def Phase.stage : Phase → Stage
  | .propagate => .entering
  | .opened | .finished => .live
  | .stopping | .draining | .gone => .ended

def TokenOk (s : State) (token : Token) : Prop :=
  ∀ q, token = some q → (s.sources q).stage.Visible

structure GroupOk (s : State) (q : Nat) (G : Group) : Prop where
  stage : (s.sources q).stage = G.phase.stage
  requested : G.phase = .draining ∨ G.phase = .gone → (s.sources q).requested = true
  running : G.phase = .propagate ∨ G.phase = .gone → G.running = []
  outer : G.around.head? = some (s.sources q).outside
  older : ∀ x, some x ∈ G.around → x < q
  visible : ∀ token ∈ G.around, TokenOk s token

/-- The source of a `with_deadline` in a task, with the tokens `around` it. -/
structure Own (s : State) (owner : Nat × Nat) (outer : Token) (around : List Token) (q : Nat)
    (stage : Stage) : Prop where
  owner : (s.sources q).owner = some owner
  stage : (s.sources q).stage = stage
  outside : (s.sources q).outside = outer
  plain : s.groups q = none
  older : ∀ x, some x ∈ around → x < q

def DeadlineOk (s : State) (owner : Nat × Nat) (outer : Token) (around : List Token) :
    Deadline → Prop
  | .check _ | .closed _ | .pass => True
  | .propagate q => Own s owner outer around q .entering ∧ (s.sources q).armed = false
  | .recheck q => Own s owner outer around q .live ∧ (s.sources q).armed = false
  | .schedule q => Own s owner outer around q .live
  | .opened q saved => Own s owner outer around q .live ∧ saved = outer
  | .unhook q _ => Own s owner outer around q .live
  | .stopSelf q _ => Own s owner outer around q .ended

/-- A coroutine with `below` under it. -/
def FrameOk (s : State) (t : Nat) (root : Token) (around : List Token) (top : Bool)
    (below : List Frame) : Frame → Prop
  | .call => True
  | .withStopToken token saved => TokenOk s token ∧ saved = inside root below
  | .withDeadline outer place =>
      outer = inside root below ∧
        DeadlineOk s (t, below.length) outer (outer :: (outsides below ++ around)) place
  | .withTaskGroup q =>
      (s.sources q).owner = some (t, below.length) ∧ (s.sources q).outside = inside root below ∧
        ∃ phase, (s.groups q).map Group.phase = some phase ∧ (top = false → phase = .opened)

def FramesOk (s : State) (t : Nat) (root : Token) (around : List Token) :
    Bool → List Frame → Prop
  | _, [] => True
  | top, f :: below => FrameOk s t root around top below f ∧ FramesOk s t root around false below

structure TaskOk (s : State) (t : Nat) (k : Task) : Prop where
  token : k.token = inside k.root k.frames
  frames : FramesOk s t k.root k.around true k.frames
  root : TokenOk s k.root
  around : ∀ token ∈ k.around, TokenOk s token
  member : ∀ q, k.group = some q →
    k.root = some q ∧ ∃ G, s.groups q = some G ∧ t ∈ G.running ∧ k.around = G.around

/-- The sources and the groups. -/
structure Core (s : State) : Prop where
  stops : Stops s.sources s.busy
  fresh : ∀ q, s.nextSource ≤ q →
    s.sources q = State.initial.sources q ∧ s.groups q = none
  direct : ∀ q, (s.sources q).requested = true →
    (s.sources q).stage = .ended ∨ (s.sources q).fired = true ∨
      (s.sources q).stage = .external ∨ s.groups q ≠ none
  fired : ∀ q, (s.sources q).fired = true →
    (s.sources q).requested = true ∧ (s.sources q).armed = true
  group : ∀ q G, s.groups q = some G → GroupOk s q G
  noAssert : s.assertFailed = false

structure Inv (s : State) : Prop where
  core : Core s
  task : ∀ t k, s.tasks t = some k → TaskOk s t k
  freshTask : ∀ t, s.nextTask ≤ t → s.tasks t = none

-- ============================================================================
-- What stays
-- ============================================================================

/-- The step changes nothing that the coroutines know of the sources of others:
    `own` is the coroutine that made the step. -/
structure Effect (s s' : State) (own : Option (Nat × Nat)) : Prop where
  visible : ∀ q, (s.sources q).stage.Visible → (s'.sources q).stage.Visible
  shape : ∀ q, (s.sources q).owner ≠ none → (s.sources q).owner ≠ own → s'.shape q = s.shape q
  members : ∀ q G, s.groups q = some G →
    ∃ G', s'.groups q = some G' ∧ G'.running = G.running ∧ G'.around = G.around

variable {s s' s'' : State} {t q : Nat} {own : Option (Nat × Nat)}

theorem TokenOk.mono (hvis : ∀ q, (s.sources q).stage.Visible → (s'.sources q).stage.Visible)
    {token : Token} (h : TokenOk s token) : TokenOk s' token :=
  fun q hq => hvis q (h q hq)

theorem Own.mono {owner : Nat × Nat} {outer : Token} {around : List Token} {stage : Stage}
    (h : Own s owner outer around q stage)
    (hshape : ∀ q, (s.sources q).owner = some owner → s'.shape q = s.shape q) :
    Own s' owner outer around q stage := by
  have heq := hshape q h.owner
  simp only [State.shape, Prod.mk.injEq] at heq
  obtain ⟨hstage, hout, howner, -, hgroup⟩ := heq
  refine ⟨howner.trans h.owner, hstage.trans h.stage, hout.trans h.outside, ?_, h.older⟩
  rw [h.plain, Option.map_none] at hgroup
  exact Option.map_eq_none_iff.mp hgroup

theorem Own.armed {owner : Nat × Nat} {outer : Token} {around : List Token} {stage : Stage}
    (h : Own s owner outer around q stage)
    (hshape : ∀ q, (s.sources q).owner = some owner → s'.shape q = s.shape q) :
    (s'.sources q).armed = (s.sources q).armed := by
  have heq := hshape q h.owner
  simp only [State.shape, Prod.mk.injEq] at heq
  exact heq.2.2.2.1

theorem DeadlineOk.mono {owner : Nat × Nat} {outer : Token} {around : List Token}
    {place : Deadline} (h : DeadlineOk s owner outer around place)
    (hshape : ∀ q, (s.sources q).owner = some owner → s'.shape q = s.shape q) :
    DeadlineOk s' owner outer around place := by
  cases place with
  | check | closed | pass => trivial
  | propagate q => exact ⟨h.1.mono hshape, (h.1.armed hshape).trans h.2⟩
  | recheck q => exact ⟨h.1.mono hshape, (h.1.armed hshape).trans h.2⟩
  | schedule q => exact Own.mono h hshape
  | opened q saved => exact ⟨h.1.mono hshape, h.2⟩
  | unhook q leave => exact Own.mono h hshape
  | stopSelf q leave => exact Own.mono h hshape

theorem FramesOk.mono {root : Token} {around : List Token} {top : Bool} {frames : List Frame}
    (h : FramesOk s t root around top frames)
    (hvis : ∀ q, (s.sources q).stage.Visible → (s'.sources q).stage.Visible)
    (hshape : ∀ q d, (s.sources q).owner = some (t, d) → d < frames.length →
      s'.shape q = s.shape q) :
    FramesOk s' t root around top frames := by
  induction frames generalizing top with
  | nil => trivial
  | cons f below ih =>
      refine ⟨?_, ih h.2 fun q d hq hd => hshape q d hq (Nat.lt_succ_of_lt hd)⟩
      have hf := h.1
      have hown : ∀ q, (s.sources q).owner = some (t, below.length) → s'.shape q = s.shape q :=
        fun q hq => hshape q below.length hq (Nat.lt_succ_self _)
      cases f with
      | call => trivial
      | withStopToken token saved => exact ⟨hf.1.mono hvis, hf.2⟩
      | withDeadline outer place => exact ⟨hf.1, hf.2.mono hown⟩
      | withTaskGroup q =>
          obtain ⟨howner, hout, phase, hphase, htop⟩ := hf
          have heq := hown q howner
          simp only [State.shape, Prod.mk.injEq] at heq
          obtain ⟨-, hout', howner', -, hgroup⟩ := heq
          exact ⟨howner'.trans howner, hout'.trans hout, phase, hgroup.trans hphase, htop⟩

theorem TaskOk.mono {k : Task} (h : TaskOk s t k)
    (hvis : ∀ q, (s.sources q).stage.Visible → (s'.sources q).stage.Visible)
    (hshape : ∀ q d, (s.sources q).owner = some (t, d) → s'.shape q = s.shape q)
    (hmember : ∀ q G, s.groups q = some G → t ∈ G.running →
      ∃ G', s'.groups q = some G' ∧ t ∈ G'.running ∧ G'.around = G.around) : TaskOk s' t k := by
  refine ⟨h.token, h.frames.mono hvis fun q d hq _ => hshape q d hq, h.root.mono hvis,
    fun token ht => (h.around token ht).mono hvis, fun q hq => ?_⟩
  obtain ⟨hroot, G, hG, ht, haround⟩ := h.member q hq
  obtain ⟨G', hG', ht', haround'⟩ := hmember q G hG ht
  exact ⟨hroot, G', hG', ht', haround.trans haround'.symm⟩

/-- A task that did not make the step. -/
theorem TaskOk.effect {k : Task} (h : TaskOk s t k) (he : Effect s s' own)
    (hown : ∀ d, own ≠ some (t, d)) : TaskOk s' t k := by
  refine h.mono he.visible (fun q d hq => ?_) fun q G hG ht => ?_
  · refine he.shape q (by simp [hq]) ?_
    rw [hq]
    exact (hown d).symm
  · obtain ⟨G', hG', hr, ha⟩ := he.members q G hG
    exact ⟨G', hG', hr ▸ ht, ha⟩

/-- The coroutines below the one that made the step. -/
theorem FramesOk.effect {root : Token} {around : List Token} {top : Bool} {frames : List Frame}
    (h : FramesOk s t root around top frames) (he : Effect s s' (some (t, frames.length))) :
    FramesOk s' t root around top frames := by
  refine h.mono he.visible fun q d hq hd => he.shape q (by simp [hq]) ?_
  rw [hq]
  intro heq
  cases heq
  exact Nat.lt_irrefl _ hd

/-- The coroutines when no source changed. -/
theorem FramesOk.frame {root : Token} {around : List Token} {top : Bool} {frames : List Frame}
    (h : FramesOk s t root around top frames) (he : Effect s s' none) :
    FramesOk s' t root around top frames :=
  h.mono he.visible fun q _ hq _ => he.shape q (by simp [hq]) (by simp [hq])

theorem GroupOk.mono {G : Group} (h : GroupOk s q G) (hself : s'.sources q = s.sources q)
    (hvis : ∀ q, (s.sources q).stage.Visible → (s'.sources q).stage.Visible) :
    GroupOk s' q G :=
  ⟨by rw [hself]; exact h.stage, by rw [hself]; exact h.requested, h.running,
    by rw [hself]; exact h.outer, h.older, fun token ht => (h.visible token ht).mono hvis⟩

/-- The token that a task sees. -/
theorem FramesOk.inside_ok {root : Token} {around : List Token} {top : Bool}
    {frames : List Frame} (h : FramesOk s t root around top frames) (hroot : TokenOk s root) :
    TokenOk s (inside root frames) := by
  induction frames generalizing top with
  | nil => exact hroot
  | cons f below ih =>
      cases f with
      | call => exact ih h.2
      | withStopToken token saved => exact h.1.1
      | withDeadline outer place =>
          cases place with
          | opened q saved =>
              rintro q' hq'
              cases hq'
              rw [h.1.2.1.stage]
              exact ⟨by simp, by simp⟩
          | _ => exact ih h.2
      | withTaskGroup q => exact ih h.2

/-- The tokens outside of the wrappers of a task. -/
theorem FramesOk.outsides_ok {root : Token} {around : List Token} {top : Bool}
    {frames : List Frame} (h : FramesOk s t root around top frames) (hroot : TokenOk s root) :
    ∀ token ∈ outsides frames, TokenOk s token := by
  induction frames generalizing top with
  | nil => simp [outsides]
  | cons f below ih =>
      cases f with
      | call => exact ih h.2
      | withStopToken token saved =>
          intro token' ht
          rcases List.mem_cons.mp ht with rfl | ht
          · rw [h.1.2]
            exact h.2.inside_ok hroot
          · exact ih h.2 token' ht
      | withDeadline outer place =>
          intro token' ht
          rcases List.mem_cons.mp ht with rfl | ht
          · rw [h.1.1]
            exact h.2.inside_ok hroot
          · exact ih h.2 token' ht
      | withTaskGroup q => exact ih h.2

theorem TaskOk.token_ok {k : Task} (h : TaskOk s t k) : TokenOk s k.token := by
  rw [h.token]
  exact h.frames.inside_ok h.root

/-- All tokens around the body of a task. -/
theorem TaskOk.tokensAround_ok {k : Task} (h : TaskOk s t k) :
    ∀ token ∈ State.tokensAround k, TokenOk s token := by
  intro token ht
  rcases List.mem_append.mp ht with ht | ht
  · exact h.frames.outsides_ok h.root token ht
  · exact h.around token ht

/-- A visible source has been made. -/
theorem Core.lt_of_visible (h : Core s) (hq : (s.sources q).stage.Visible) : q < s.nextSource := by
  by_contra hlt
  rw [(h.fresh q (Nat.le_of_not_lt hlt)).1] at hq
  exact hq.1 rfl

end Coroactors.StopScope
