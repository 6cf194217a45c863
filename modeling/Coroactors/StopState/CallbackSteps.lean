/-
  Coroactors.StopState.CallbackSteps

  Every step of `stop_state` keeps the invariant of the callbacks: what is done
  with the list under the lock, and what `request_stop` does with a callback it
  took out.
-/

import Coroactors.StopState.Callbacks

namespace Coroactors.StopState

open Coroactors.Conc

variable {K : Type*} [DecidableEq K] {s s' : State K} {t : Nat} {k : K}

/-- A stage that the update did not write was there before. -/
theorem stage_of_update {f : K → Stage} {x y : Stage} {k' : K}
    (h : Function.update f k x k' = y) (hxy : x ≠ y) : k' ≠ k ∧ f k' = y := by
  by_cases hk : k' = k
  · subst hk
    exact absurd (by simpa using h) hxy
  · exact ⟨hk, by simpa [hk] using h⟩

attribute [local grind] Stage.popped Stage.inFlight Stage.kept Life.ended

-- ============================================================================
-- Under the lock
-- ============================================================================

/-- `add_callback` puts the callback into the list. -/
theorem Inv.insert (hi : Inv s) (hp : s.pc t = .held (.add k)) :
    Inv ((s.insert k).goto t (.unlock (.added k))) := by
  have hd := hi.data
  have hok := hi.pcs t
  rw [hp] at hok
  obtain ⟨⟨hl, hout, hinv⟩, hlate, hs⟩ := hok
  have hidle := hd.idle.mp hs
  have hk : k ∉ s.list := by
    rw [← hd.listed, hout]
    nofun
  obtain ⟨prev, next, hlinked, he⟩ := State.insert_spec hd.linked hk
  rw [he]
  refine hi.of_step rfl (Function.update_eq_self t s.stack).symm (.inl rfl) ?_ (fun _ _ _ h => h)
    ⟨hl, by simp [State.goto, Stage.kept]⟩ ?_ (hi.framesNodup t) ?_ ?_ ?_ ?_ ?_
  · intro u hu
    constructor <;> intros <;> simp only [State.goto, Function.update_apply] <;> grind -linarith
  · intro c hc
    have := hi.frames t c hc
    cases c with
    | add k' =>
        have hne : k' ≠ k := by
          rintro rfl
          have := this.2.2
          rw [hinv] at this
          cases this
        exact ⟨this.1, (Function.update_of_ne hne ..).trans this.2.1, this.2.2⟩
    | stop k' empty =>
        rw [Caller.Ok, hs] at this
        cases this.1
  · obtain ⟨⟩ := hd
    constructor
    case linked => exact hlinked
    all_goals
      intros
      simp only [State.goto, Function.update_apply] at *
      grind -linarith
  · have htaken : s.taken = [] := by
      rw [List.eq_nil_iff_forall_not_mem]
      intro k' hk'
      exact absurd hs (hd.popped k' ((hd.taken k').mp hk')).1
    have hno (k' : K) : s.stage k' ≠ .taken := by
      intro h
      exact absurd hs (hd.popped k' (by rw [h]; rfl)).1
    have ho := hi.order
    refine ⟨?_, ?_, fun _ => ho.ran hno⟩
    · simpa [State.goto, htaken] using ho.added
    · intro k' h
      by_cases hkk : k' = k
      · simp [State.goto, hkk] at h
      · exact absurd (by simpa [State.goto, hkk] using h) (hno k')
  all_goals
    intro h
    simp [State.goto, hs] at h

/-- `remove_callback_locked` took the callback out of the list. -/
theorem Inv.unlinked {head : Option K} {prev next : K → Option K} (hi : Inv s)
    (hfree : (s.pc t).Free) (hl : s.life k = .removing t) (hmem : k ∈ s.list)
    (hlinked : Linked head prev next (s.list.erase k)) :
    Inv ({ s with
      head := head
      prev := prev
      next := next
      list := s.list.erase k
      stage := Function.update s.stage k .unlinked }.goto t (.unlock (.removed k true))) := by
  have hd := hi.data
  have hst := (hd.listed k).mpr hmem
  have hnd := hd.linked.nodup
  refine hi.of_step rfl (Function.update_eq_self t s.stack).symm (.inl rfl) ?_ (fun _ _ _ h => h)
    ⟨hl, Function.update_self ..⟩ ?_ (hi.framesNodup t) ?_ ?_ ?_ ?_ ?_
  · intro u hu
    have := hd.busy k
    constructor <;> intros <;> simp only [State.goto, Function.update_apply] <;> grind -linarith
  · intro c hc
    have := hi.frames t c hc
    cases c with
    | add k' =>
        have hne : k' ≠ k := fun h => by simp [← h, this.2.1] at hst
        exact ⟨this.1, (Function.update_of_ne hne ..).trans this.2.1, this.2.2⟩
    | stop k' empty =>
        have hne : k' ≠ k := fun h => by simp [← h, this.2.2.1] at hst
        refine ⟨this.1, this.2.1, (Function.update_of_ne hne ..).trans this.2.2.1, fun h => ?_⟩
        simp [State.goto, this.2.2.2 h]
  · have herase (k' : K) : k' ∈ s.list.erase k ↔ k' ≠ k ∧ k' ∈ s.list := hnd.mem_erase_iff
    obtain ⟨⟩ := hd
    constructor
    case linked => exact hlinked
    all_goals
      intros
      simp only [State.goto, Function.update_apply] at *
      grind -linarith
  · have ho := hi.order
    have hne (k' : K) : Function.update s.stage k .unlinked k' = .taken ↔ s.stage k' = .taken := by
      by_cases h : k' = k
      · simp [h, hst]
      · simp [h]
    refine ⟨((s.list.erase_sublist).append_left _).trans ho.added, ?_, ?_⟩
    · exact fun k' h => ho.ranBut k' ((hne k').mp h)
    · exact fun h => ho.ran fun k' hk' => h k' ((hne k').mpr hk')
  · exact fun hs k' hk' =>
      absurd (hi.takenAt t k' hs (stage_of_update hk' (by simp)).2) (hfree k').1
  · exact fun hs k' hk' => hi.runningAt t k' hs (stage_of_update hk' (by simp)).2
  · exact fun hs k' hk' =>
      absurd (hi.returnedAt t k' hs (stage_of_update hk' (by simp)).2) (hfree k').2

/-- `request_stop` took the head of the list. -/
theorem Inv.tookHead {head : Option K} {prev next : K → Option K} {empty : Bool} (hi : Inv s)
    (hstop : s.stopper = some t) (hphase : s.phase = .scanning)
    (hrun : s.running = some t) (hhead : s.head = some k)
    (hlinked : Linked head prev next (s.list.erase k)) (hempty : empty = head.isNone) :
    Inv { s with
      pc := Function.update s.pc t (.unlock (.invoke k empty))
      head := head
      prev := prev
      next := next
      list := s.list.erase k
      flag := Function.update s.flag t false
      removed := Function.update s.removed k (some t)
      stage := Function.update s.stage k .taken
      phase := .busy k
      taken := s.taken ++ [k] } := by
  have hd := hi.data
  have hnd := hd.linked.nodup
  have hl := hd.linked.head
  rw [hhead] at hl
  have hmem : k ∈ s.list := List.mem_of_mem_head? hl.symm
  have hst := (hd.listed k).mpr hmem
  have hnil : empty = true → s.list.erase k = [] := by
    intro h
    rw [hempty, hlinked.head] at h
    simpa using h
  have hno (k' : K) : s.stage k' ≠ .taken ∧ s.stage k' ≠ .running ∧ s.stage k' ≠ .returned := by
    have := hd.busy k'
    rw [hphase] at this
    refine ⟨?_, ?_, ?_⟩ <;> intro h <;> simp [h, Stage.inFlight] at this
  refine hi.of_step rfl (Function.update_eq_self t s.stack).symm (.inl rfl) ?_ (fun _ _ _ h => h)
    ⟨hstop, rfl, Function.update_self .., hnil⟩ ?_ (hi.framesNodup t) ?_ ?_ ?_ ?_ ?_
  · intro u hu
    have hu' : s.stopper ≠ some u := by
      rw [hstop]
      exact fun h => hu (Option.some.inj h).symm
    constructor <;> intros <;> simp only [Function.update_apply] <;> grind -linarith
  · intro c hc
    have := hi.frames t c hc
    cases c with
    | add k' =>
        have hne : k' ≠ k := fun h => by simp [← h, this.2.1] at hst
        exact ⟨this.1, (Function.update_of_ne hne ..).trans this.2.1, this.2.2⟩
    | stop k' empty => exact absurd this.2.2.1 (hno k').2.1
  · have herase (k' : K) : k' ∈ s.list.erase k ↔ k' ≠ k ∧ k' ∈ s.list := hnd.mem_erase_iff
    obtain ⟨⟩ := hd
    constructor
    case linked => exact hlinked
    all_goals
      intros
      simp only [Function.update_apply] at *
      grind -linarith
  · have ho := hi.order
    have hlist : s.list = k :: s.list.erase k := by
      cases hs : s.list with
      | nil => simp [hs] at hmem
      | cons x l =>
          obtain rfl : k = x := by simpa [hs] using hl
          simp
    have hran := ho.ran fun k' => (hno k').1
    refine ⟨?_, ?_, ?_⟩
    · simpa [← hlist] using ho.added
    · intro k' h
      by_cases hk : k' = k
      · simp [hk, hran]
      · exact absurd (by simpa [hk] using h) (hno k').1
    · intro h
      exact absurd (Function.update_self ..) (h k)
  · intro _ k' h
    by_cases hk : k' = k
    · exact hk.symm
    · exact absurd (by simpa [hk] using h) (hno k').1
  · exact fun _ k' h => absurd (stage_of_update h (by simp)).2 (hno k').2.1
  · exact fun _ k' h => absurd (stage_of_update h (by simp)).2 (hno k').2.2

-- ============================================================================
-- `request_stop` and its callbacks
-- ============================================================================

/-- `request_stop` invokes the callback it took. -/
theorem Inv.invokeTaken {empty : Bool} (hi : Inv s) (ha : (After.invoke k empty).Ok s t) :
    Inv ({ s with
      ran := s.ran ++ [k]
      stage := Function.update s.stage k .running }.invoke t (.stop k empty) k) := by
  obtain ⟨hstop, hphase, hst, hempty⟩ := ha
  have hd := hi.data
  have hone (k' : K) (h : (s.stage k').inFlight = true) : k' = k := hd.inFlight_unique hphase h
  have hinv := hd.notInvoked k (.inr (.inr hst))
  have hne : k ∉ (s.stack t).map Caller.callback := by
    intro hm
    obtain ⟨c, hc, rfl⟩ := List.mem_map.mp hm
    have := hi.frames t c hc
    cases c with
    | add k =>
        have := this.2.2.symm.trans hinv
        cases this
    | stop k empty =>
        have := this.2.2.1.symm.trans hst
        cases this
  refine hi.of_step rfl rfl (.inl rfl) ?_ (fun _ _ _ h => h) trivial ?_
    (List.nodup_cons.mpr ⟨hne, hi.framesNodup t⟩) ?_ ?_ ?_ ?_ ?_
  · intro u hu
    have hu' : s.stopper ≠ some u := by
      rw [hstop]
      exact fun h => hu (Option.some.inj h).symm
    constructor <;> intros <;> simp only [State.invoke, Function.update_apply] <;> grind -linarith
  · intro c hc
    rcases List.mem_cons.mp hc with rfl | hc
    · exact ⟨hstop, hphase, Function.update_self .., hempty⟩
    · have hck : c.callback ≠ k := fun h => hne (h ▸ List.mem_map_of_mem hc)
      have := hi.frames t c hc
      cases c with
      | add k' =>
          exact ⟨this.1, (Function.update_of_ne hck ..).trans this.2.1,
            (Function.update_of_ne hck ..).trans this.2.2⟩
      | stop k' empty => exact absurd (hone k' (by rw [this.2.2.1]; rfl)) hck
  · obtain ⟨⟩ := hd
    constructor
    case linked => assumption
    all_goals
      intros
      simp only [State.invoke, Function.update_apply] at *
      grind -linarith
  · have ho := hi.order
    refine ⟨ho.added, ?_, fun _ => ho.ranBut k hst⟩
    intro k' h
    obtain ⟨hk, h'⟩ := stage_of_update h (by simp)
    exact absurd (hone k' (by rw [h']; rfl)) hk
  · intro _ k' h
    obtain ⟨hk, h'⟩ := stage_of_update h (by simp)
    exact absurd (hone k' (by rw [h']; rfl)) hk
  · intro _ k' h
    by_cases hk : k' = k
    · exact List.mem_cons.mpr (.inl hk)
    · have h' : s.stage k' = .running := (Function.update_of_ne hk ..).symm.trans h
      exact absurd (hone k' (by rw [h']; rfl)) hk
  · intro _ k' h
    obtain ⟨hk, h'⟩ := stage_of_update h (by simp)
    exact absurd (hone k' (by rw [h']; rfl)) hk

/-- The callback returns to `request_stop`. -/
theorem Inv.retCallback {empty : Bool} {rest : List (Caller K)} (hi : Inv s)
    (hst : s.stack t = .stop k empty :: rest) :
    Inv ({ s with
      stack := Function.update s.stack t rest
      stage := Function.update s.stage k .returned }.goto t (.returned k empty)) := by
  have hd := hi.data
  obtain ⟨hstop, hphase, hrun, hempty⟩ := hi.frames t (.stop k empty) (by simp [hst])
  have hone (k' : K) (h : (s.stage k').inFlight = true) : k' = k := hd.inFlight_unique hphase h
  have hnd := hi.framesNodup t
  rw [hst, List.map_cons, List.nodup_cons] at hnd
  refine hi.of_step rfl rfl (.inl rfl) ?_ (fun _ _ _ h => h)
    ⟨hstop, hphase, Function.update_self .., hempty⟩ ?_ hnd.2 ?_ ?_ ?_ ?_ ?_
  · intro u hu
    have hu' : s.stopper ≠ some u := by
      rw [hstop]
      exact fun h => hu (Option.some.inj h).symm
    constructor <;> intros <;> simp only [State.goto, Function.update_apply] <;> grind -linarith
  · intro c hc
    have hck : c.callback ≠ k := fun h => hnd.1 (List.mem_map.mpr ⟨c, hc, h⟩)
    have := hi.frames t c (by simp [hst, hc])
    cases c with
    | add k' => exact ⟨this.1, (Function.update_of_ne hck ..).trans this.2.1, this.2.2⟩
    | stop k' empty => exact absurd (hone k' (by rw [this.2.2.1]; rfl)) hck
  · obtain ⟨⟩ := hd
    constructor
    case linked => assumption
    all_goals
      intros
      simp only [State.goto, Function.update_apply] at *
      grind -linarith
  · have ho := hi.order
    have hno (k' : K) : s.stage k' ≠ .taken := by
      intro h
      have := hone k' (by rw [h]; rfl)
      rw [this, hrun] at h
      cases h
    refine ⟨ho.added, ?_, fun _ => ho.ran hno⟩
    exact fun k' h => absurd (stage_of_update h (by simp)).2 (hno k')
  · intro _ k' h
    obtain ⟨hk, h'⟩ := stage_of_update h (by simp)
    exact absurd (hone k' (by rw [h']; rfl)) hk
  · intro _ k' h
    obtain ⟨hk, h'⟩ := stage_of_update h (by simp)
    exact absurd (hone k' (by rw [h']; rfl)) hk
  · intro _ k' h
    by_cases hk : k' = k
    · exact hk.symm
    · have h' : s.stage k' = .returned := (Function.update_of_ne hk ..).symm.trans h
      exact absurd (hone k' (by rw [h']; rfl)) hk

/-- `request_stop` is about to release the semaphore of the callback. -/
theorem Inv.keep {empty : Bool} (hi : Inv s) (hp : s.pc t = .returned k empty)
    (hflag : s.flag t = false) :
    Inv ({ s with removed := Function.update s.removed k none }.goto t (.release k empty)) := by
  have hd := hi.data
  have hok := hi.pcs t
  rw [hp] at hok
  obtain ⟨hstop, hphase, hret, hempty⟩ := hok
  have hone (k' : K) (h : (s.stage k').inFlight = true) : k' = k := hd.inFlight_unique hphase h
  have hk (u : Nat) (hu : u ≠ t) :
      Keeps s ({ s with removed := Function.update s.removed k none }.goto t (.release k empty)) u := by
    have hu' : s.stopper ≠ some u := by
      rw [hstop]
      exact fun h => hu (Option.some.inj h).symm
    constructor <;> intros <;> simp only [State.goto] <;> grind -linarith
  refine hi.of_step rfl (Function.update_eq_self t s.stack).symm (.inl rfl) hk (fun _ _ _ h => h)
    ⟨hstop, hphase, hret, hempty, hflag, Function.update_self ..⟩ ?_ (hi.framesNodup t) ?_
    { hi.order with } ?_ ?_ ?_
  · intro c hc
    have := hi.frames t c hc
    cases c with
    | add k' => exact this
    | stop k' empty => exact this
  · have h1 := hd.removed
    have h2 := hd.removedNone
    refine { hd with removed := ?_, removedNone := ?_ }
    all_goals
      intros
      simp only [State.goto, Function.update_apply] at *
      grind -linarith
  · intro hs k' h
    have := hone k' (by rw [show s.stage k' = .taken from h]; rfl)
    rw [this] at h
    exact absurd (hret.symm.trans h) (by simp)
  · exact fun hs k' h => hi.runningAt t k' hs h
  · exact fun hs k' h => (hone k' (by rw [show s.stage k' = .returned from h]; rfl)).symm

/-- `request_stop` is done with the callback. -/
theorem Inv.finished {pc : Pc K} {phase : Phase K} {stops : List Bool} {done : K → Nat} (hi : Inv s)
    (hstop : s.stopper = some t) (hphase : s.phase = .busy k) (hret : s.stage k = .returned)
    (hremoved : s.flag t = true ∨ s.removed k = none)
    (hdone : ∀ k', k' ≠ k → done k' = s.done k')
    (hnext : (phase = .scanning ∧ stops = s.stops ∧ pc = .load .again) ∨
      (phase = .over ∧ stops = s.stops ++ [true] ∧ pc = .user ∧ s.list = [])) :
    Inv { s with
      pc := Function.update s.pc t pc
      stage := Function.update s.stage k .finished
      phase := phase
      stops := stops
      done := done } := by
  have hd := hi.data
  have hone (k' : K) (h : (s.stage k').inFlight = true) : k' = k := hd.inFlight_unique hphase h
  have hno (k' : K) : s.stage k' ≠ .taken ∧ s.stage k' ≠ .running := by
    refine ⟨?_, ?_⟩ <;> intro h <;> have he := hone k' (by rw [h]; rfl) <;>
      rw [he, hret] at h <;> cases h
  have hcount : true ∉ s.stops := by
    rw [hd.stops, hphase]
    nofun
  refine hi.of_step rfl (Function.update_eq_self t s.stack).symm (.inl rfl) ?_ (fun _ _ _ h => h)
    ?_ ?_ (hi.framesNodup t) ?_ ?_ ?_ ?_ ?_
  · intro u hu
    have hu' : s.stopper ≠ some u := by
      rw [hstop]
      exact fun h => hu (Option.some.inj h).symm
    constructor <;> intros <;> simp only [Function.update_apply] <;> grind -linarith
  · rcases hnext with ⟨rfl, -, rfl⟩ | ⟨-, -, rfl, -⟩
    · exact ⟨hstop, rfl, (hd.popped k (by rw [hret]; rfl)).2.trans hstop⟩
    · trivial
  · intro c hc
    have := hi.frames t c hc
    cases c with
    | add k' =>
        have hne : k' ≠ k := fun h => by simp [← h, this.2.1] at hret
        exact ⟨this.1, (Function.update_of_ne hne ..).trans this.2.1, this.2.2⟩
    | stop k' empty => exact absurd this.2.2.1 (hno k').2
  · have hle : stops.count true ≤ 1 := by
      rcases hnext with ⟨-, rfl, -⟩ | ⟨-, rfl, -, -⟩
      · exact hd.stopsLe
      · simp [List.count_append, List.count_eq_zero.mpr hcount]
    have hflag := hd.flag t k hstop hphase
    obtain ⟨⟩ := hd
    constructor
    case linked => assumption
    case stopsLe => exact hle
    all_goals
      intros
      simp only [Function.update_apply] at *
      grind -linarith
  · have ho := hi.order
    refine ⟨ho.added, ?_, fun _ => ho.ran fun k' => (hno k').1⟩
    exact fun k' h => absurd (stage_of_update h (by simp)).2 (hno k').1
  · exact fun _ k' h => absurd (stage_of_update h (by simp)).2 (hno k').1
  · exact fun _ k' h => absurd (stage_of_update h (by simp)).2 (hno k').2
  · intro _ k' h
    obtain ⟨hk, h'⟩ := stage_of_update h (by simp)
    exact absurd (hone k' (by rw [h']; rfl)) hk

/-- `remove_callback` returns on the thread that runs the callbacks. -/
theorem Inv.signalled (hi : Inv s) (hp : s.pc t = .checkRunning k) (hrun : s.running = some t) :
    Inv ({ s with flag := State.signal s.flag (s.removed k) }.retLife t k (.gone t)) := by
  have hd := hi.data
  have hok := hi.pcs t
  rw [hp] at hok
  obtain ⟨hl, hpop⟩ := hok
  have hstop := hd.running t hrun
  have hst : s.stage k = .running ∨ s.stage k = .finished := by
    have h1 := hi.takenAt t k hstop
    have h2 := hi.returnedAt t k hstop
    simp only [hp, Pc.invokes, Pc.atReturned] at h1 h2
    cases h : s.stage k <;> simp_all [Stage.popped]
  rcases hst with hst | hst
  · -- the callback removes itself, or a call below it does
    have hflag : State.signal s.flag (s.removed k) = Function.update s.flag t true := by
      rw [hd.removed k (.inr hst), hstop]
      rfl
    have hphase := (hd.busy k).mpr (by rw [hst]; rfl)
    rw [hflag]
    refine hi.of_step rfl (Function.update_eq_self t s.stack).symm (.inl rfl) ?_ (fun _ _ _ h => h)
      trivial ?_ (hi.framesNodup t) ?_ { hi.order with } ?_ ?_ ?_
    · intro u hu
      have hu' : s.stopper ≠ some u := by
        rw [hstop]
        exact fun h => hu (Option.some.inj h).symm
      constructor <;> intros <;> simp only [State.retLife, Function.update_apply] <;> grind -linarith
    · intro c hc
      have := hi.frames t c hc
      cases c with
      | add k' =>
          have hne : k' ≠ k := fun h => by simp [← h, this.1] at hl
          exact ⟨(Function.update_of_ne hne ..).trans this.1, this.2⟩
      | stop k' empty => exact this
    · obtain ⟨⟩ := hd
      constructor
      case linked => assumption
      all_goals
        intros
        simp only [State.retLife, Function.update_apply] at *
        grind -linarith
    · intro hs k' h
      have := hi.takenAt t k' hs h
      simp [hp, Pc.invokes] at this
    · exact fun hs k' h => hi.runningAt t k' hs h
    · intro hs k' h
      have := hi.returnedAt t k' hs h
      simp [hp, Pc.atReturned] at this
  · have hnone : s.removed k = none := by
      rcases hd.removedNone k hst with h | ⟨u, h⟩
      · exact h
      · rw [hl] at h
        cases h
    rw [hnone]
    exact hi.retRemoved (d := s.done) (by simp [Pc.Free, hp, Pc.invokes, Pc.atReturned]) hl
      (.inr hst) fun _ h => h

-- ============================================================================
-- Every step
-- ============================================================================

theorem Inv.loop {w : Want K} {i : Nat} (hi : Inv s) (hlock : LockInv s) (hfree : (s.pc t).Free)
    (hw : w.Ok s t) : Inv (s.loop t w s.word i) := by
  have hstopped : stopped s.word = true ↔ s.stopper ≠ none := by
    rw [hlock.stopped, Option.isSome_iff_ne_none]
  cases w with
  | add k =>
      have hearly (h : ¬ stopped s.word = true) : s.late k = false := by
        cases hl : s.late k with
        | false => rfl
        | true => exact absurd (hstopped.mpr (hi.data.late k hl).1) h
      simp only [State.loop]
      split
      · exact hi.inline hfree hw
      · rename_i h
        split
        · exact hi.refuse hfree hw (hearly h)
        · exact hi.contend hfree hw (hearly h) _
  | stop =>
      simp only [State.loop]
      split
      · rename_i h
        exact hi.retFalse hfree (hstopped.mp h)
      · exact hi.contend hfree hw trivial _
  | remove k => exact hi.contend hfree hw trivial _
  | again => exact hi.contend hfree hw trivial _

theorem Inv.takeHead (hi : Inv s) (hfree : (s.pc t).Free) (hstop : s.stopper = some t)
    (hphase : s.phase = .scanning) (hrun : s.head ≠ none → s.running = some t) :
    Inv (s.takeHead t) := by
  unfold State.takeHead
  cases hh : s.head with
  | none =>
      have hnil : s.list = [] := by
        have := hi.data.linked.head
        rw [hh] at this
        simpa using this.symm
      exact hi.quiet ⟨hstop, hphase, hnil⟩ (fun k h => absurd h (hfree k).1)
        fun k h => absurd h (hfree k).2
  | some k =>
      obtain ⟨head, prev, next, hlinked, he⟩ := State.dropHead_spec hi.data.linked hh
      simp only [he]
      exact hi.tookHead hstop hphase (hrun (by simp [hh])) hh hlinked rfl

theorem Inv.critical {w : Want K} (hi : Inv s) (hp : s.pc t = .held w) : Inv (s.critical t w) := by
  have hfree : (s.pc t).Free := by simp [Pc.Free, hp, Pc.invokes, Pc.atReturned]
  have hok := hi.pcs t
  rw [hp] at hok
  cases w with
  | add k => exact hi.insert hp
  | remove k =>
      obtain ⟨hl, hkept⟩ := hok
      rcases State.removeCallbackLocked_spec (k := k) hi.data.linked with
        ⟨hmem, head, prev, next, hlinked, he⟩ | ⟨hmem, he⟩
      · simp only [State.critical, he]
        exact hi.unlinked hfree hl hmem hlinked
      · have hpop : (s.stage k).popped = true := by
          have := (hi.data.listed k).not.mpr hmem
          cases h : s.stage k <;> simp_all [Stage.kept, Stage.popped]
        simp only [State.critical, he]
        exact hi.quiet (p := .unlock (.removed k false)) ⟨hl, hpop⟩
          (fun k h => absurd h (hfree k).1) fun k h => absurd h (hfree k).2
  | stop =>
      obtain ⟨hstop, hphase⟩ := hok
      simp only [State.critical]
      split
      · rename_i hh
        have hnil : s.list = [] := by
          have := hi.data.linked.head
          rw [Option.isNone_iff_eq_none.mp hh] at this
          simpa using this.symm
        exact hi.quiet (p := .unlock .finished) ⟨hstop, hphase, hnil⟩
          (fun k h => absurd h (hfree k).1) fun k h => absurd h (hfree k).2
      · exact (hi.setRunning hp hstop hphase).takeHead hfree hstop hphase fun _ => rfl
  | again =>
      obtain ⟨hstop, hphase, hrun⟩ := hok
      exact hi.takeHead hfree hstop hphase fun _ => hrun

theorem Inv.finish {a : After K} (hi : Inv s) (hp : s.pc t = .unlock a ∨ s.pc t = .notifyOne a) :
    Inv (s.finish t a) := by
  have hok : a.Ok s t := by
    have := hi.pcs t
    rcases hp with hp | hp <;> rw [hp] at this <;> exact this
  have hfree (h : ∀ k empty, a ≠ .invoke k empty) : (s.pc t).Free := by
    intro k
    rcases hp with hp | hp <;> rw [hp] <;> cases a <;> simp_all [Pc.invokes, Pc.atReturned]
  cases a with
  | added k => exact hi.retAdded (hfree fun _ _ h => by cases h) hok
  | removed k found =>
      have hfree' : (s.pc t).Free := hfree fun _ _ h => by cases h
      cases found with
      | true => exact hi.retRemoved (d := s.done) hfree' hok.1 (.inl hok.2) fun _ h => h
      | false =>
          exact hi.quiet (p := .checkRunning k) hok (fun k h => absurd h (hfree' k).1)
            fun k h => absurd h (hfree' k).2
  | invoke k empty => exact hi.invokeTaken hok
  | finished => exact hi.over (hfree fun _ _ h => by cases h) hok

theorem Inv.proceed {empty : Bool} {d : K → Nat} (hi : Inv s) (hstop : s.stopper = some t)
    (hphase : s.phase = .busy k) (hret : s.stage k = .returned)
    (hremoved : s.flag t = true ∨ s.removed k = none) (hempty : empty = true → s.list = [])
    (hdone : ∀ k', k' ≠ k → d k' = s.done k') :
    Inv ({ s with done := d }.proceed t k empty) := by
  unfold State.proceed
  split
  · rename_i h
    exact hi.finished hstop hphase hret hremoved hdone (.inr ⟨rfl, rfl, rfl, hempty h⟩)
  · exact hi.finished hstop hphase hret hremoved hdone (.inl ⟨rfl, rfl, rfl⟩)

theorem stepThread_inv {c : Choice} (hlock : LockInv s) (hi : Inv s)
    (hs : stepThread s t c = some s') : Inv s' := by
  have hok := hi.pcs t
  have hfree (h : ∀ k, ¬ (s.pc t).invokes k ∧ ¬ (s.pc t).atReturned k) : (s.pc t).Free := h
  cases hp : s.pc t <;> simp only [stepThread, hp] at hs <;> rw [hp] at hok <;>
    simp only [hp, Pc.invokes, Pc.atReturned] at hfree
  case user => cases hs
  case load w =>
    cases hs
    exact hi.loop hlock (hp ▸ hfree (by simp)) hok
  case lockCas w current i =>
    split at hs <;> cases hs
    · rename_i h
      have hsaw := hlock.sawFree t
      rw [hp, ← h.1, Pc.sawFree, Bool.and_eq_true] at hsaw
      rw [← h.1]
      exact hi.acquired hlock (hp ▸ hfree (by simp)) hok.1 hok.2 (by simpa using hsaw.2) hsaw.1
    · exact hi.quiet (p := .wait w s.word i) hok (by simp [hp, Pc.invokes])
        (by simp [hp, Pc.atReturned])
  case spin w i =>
    cases hs
    exact hi.loop hlock (hp ▸ hfree (by simp)) hok.1
  case setWaiting w current i =>
    split at hs <;> cases hs
    · exact hi.quiet (p := .wait w current i) hok (by simp [hp, Pc.invokes])
        (by simp [hp, Pc.atReturned])
    · exact hi.loop hlock (hp ▸ hfree (by simp)) hok.1
  case wait w current i =>
    split at hs <;> cases hs
    · exact hi.quiet (p := .blocked w current i) hok (by simp [hp, Pc.invokes])
        (by simp [hp, Pc.atReturned])
    · exact hi.quiet (p := .reload w i false) hok (by simp [hp, Pc.invokes])
        (by simp [hp, Pc.atReturned])
  case blocked w current i =>
    split at hs
    · split at hs <;> cases hs
      exact hi.quiet (p := .reload w i false) hok (by simp [hp, Pc.invokes])
        (by simp [hp, Pc.atReturned])
    · split at hs <;> cases hs
      · exact hi.word
      · exact hi.quiet (p := .reload w i true) hok (by simp [hp, Pc.invokes])
          (by simp [hp, Pc.atReturned])
  case reload w i notified =>
    cases hs
    exact hi.loop hlock (hp ▸ hfree (by simp)) hok.1
  case notifyAll =>
    cases hs
    exact hi.quiet (p := .held .stop) hok (by simp [hp, Pc.invokes]) (by simp [hp, Pc.atReturned])
  case held w =>
    cases hs
    exact hi.critical hp
  case unlock a =>
    split at hs <;> cases hs
    · refine hi.quiet (p := .notifyOne a) hok ?_ (by simp [hp, Pc.atReturned])
      rw [hp]
      cases a <;> exact fun _ h => h
    · exact (hi.word (l := s.waiters)).finish (.inl hp)
  case notifyOne a =>
    split at hs
    · split at hs <;> cases hs
      exact (hi.word (v := s.word) (h := s.holder)).finish (.inr hp)
    · split at hs <;> cases hs
      exact hi.finish (.inr hp)
  case checkRunning k =>
    split at hs <;> cases hs
    · rename_i h
      exact hi.signalled hp h
    · exact hi.quiet (p := .acquire k) hok (by simp [hp, Pc.invokes]) (by simp [hp, Pc.atReturned])
  case acquire k =>
    split at hs <;> cases hs
    rename_i h
    refine hi.retRemoved (hp ▸ hfree (by simp)) hok.1 (.inr (hi.data.done k h)) ?_
    intro k' hk'
    by_cases hkk : k' = k
    · rw [hkk]
      exact h
    · simpa [hkk] using hk'
  case returned k empty =>
    obtain ⟨hstop, hphase, hret, hempty⟩ := hok
    split at hs <;> cases hs
    · rename_i h
      exact hi.proceed (d := s.done) hstop hphase hret (.inl h) hempty fun _ _ => rfl
    · rename_i h
      exact hi.keep hp (by simpa using h)
  case release k empty =>
    obtain ⟨hstop, hphase, hret, hempty, -, hremoved⟩ := hok
    cases hs
    exact hi.proceed hstop hphase hret (.inr hremoved) hempty fun _ h => Function.update_of_ne h ..

theorem step_inv {a : Act K} (hlock : LockInv s) (hi : Inv s)
    (hs : stopState.step s a = some s') : Inv s' := by
  cases a <;> simp only [stopState] at hs
  case addSource t =>
    split at hs <;> cases hs
    exact hi.word (l := s.waiters) (h := s.holder)
  case removeSource t =>
    split at hs <;> cases hs
    exact hi.word (l := s.waiters) (h := s.holder)
  case add t k =>
    split at hs <;> cases hs
    rename_i h
    exact hi.startAdd hlock h.1 h.2
  case remove t k =>
    split at hs <;> cases hs
    rename_i h
    exact hi.startRemove h.1 h.2
  case requestStop t =>
    split at hs <;> cases hs
    rename_i h
    exact hi.quiet (p := .load .stop) trivial (by simp [h, Pc.invokes]) (by simp [h, Pc.atReturned])
  case ret t =>
    split at hs
    · rename_i h
      split at hs <;> cases hs
      · rename_i hst
        exact hi.retAdd (by simp [Pc.Free, h, Pc.invokes, Pc.atReturned]) hst
      · rename_i hst
        exact hi.retCallback hst
    · cases hs
  case step t c => exact stepThread_inv hlock hi hs

theorem reachable_inv {ok : State K → Act K → Prop} (hr : stopState.ReachableIf ok s) : Inv s :=
  hr.invariant_of (fun _ h => reachable_lockInv h) (fun _ h => h ▸ .start)
    fun _ _ _ hlock hi _ hs => step_inv hlock hi hs

end Coroactors.StopState
