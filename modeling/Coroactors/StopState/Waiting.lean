/-
  Coroactors.StopState.Waiting

  When the lock of `stop_state` (coroactors/detail/stop_token_polyfill.h) can
  leave a thread blocked in `state.wait` with nobody left to wake it.

  The three loops take the lock by a weak compare-exchange, and when it fails
  they do not go back to their checks: they fall through to `state.wait` with
  the value just read.  That value may be one on which no loop would wait: an
  unlocked word, one without `FlagWaiting`, which no `unlock` notifies, or a
  stopped word.  And an `add_callback` that was notified and finds no sources
  returns without passing the notification on.

  In the runs where neither happens, no thread is stranded.  Whenever the lock
  is free and threads are blocked, some thread still has to do something about
  it (`Obliged`): it is between `fetch_sub` and `notify_one`, or was notified,
  or is about to take the lock.
-/

import Coroactors.StopState.Lock

namespace Coroactors.StopState

open Coroactors.Conc

variable {K : Type*} {s s' : State K} {t : Nat}

-- ============================================================================
-- Stranded threads
-- ============================================================================

/-- The thread is blocked in `state.wait`, and no notification selected it. -/
def Asleep (s : State K) (t : Nat) : Prop := t ∈ s.waiters

/-- The same where a change of the word ends the wait as well. -/
def AsleepOn (s : State K) (t : Nat) : Prop :=
  t ∈ s.waiters ∧ ∃ w i, s.pc t = .blocked w s.word i

/-- The lock is free, a thread sleeps, and no thread is awake in an operation.
    A thread in `done.acquire()` does not count as awake. -/
def Stranded (asleep : Nat → Prop) (s : State K) : Prop :=
  locked s.word = false ∧ (∃ t, asleep t) ∧
    ∀ t, s.pc t = .user ∨ (∃ k, s.pc t = .acquire k) ∨ asleep t

/-- The loop of `w` waits on the value. -/
def Want.waitsOn (w : Want K) (current : Nat) : Bool :=
  w.passes current && locked current && waiting current

/-- When the compare-exchange that takes the lock fails, what it finds
    satisfies `p`. -/
def FailsOn (p : Want K → Nat → Bool) (s : State K) (a : Act K) : Prop :=
  ∀ t c w current i, a = .step t c → s.pc t = .lockCas w current i →
    s.word ≠ current ∨ c = .fail → p w s.word = true

/-- An `add_callback` that was notified does not find the lock free and no
    sources, while other threads are blocked. -/
def PassesOn (s : State K) (a : Act K) : Prop :=
  ∀ t c k i, a = .step t c → s.pc t = .reload (.add k) i true →
    stopped s.word = true ∨ locked s.word = true ∨ sourceCountIncrement ≤ s.word ∨ s.waiters = []

-- ============================================================================
-- The invariant
-- ============================================================================

/-- `lock` never gives up; the other loops do when the state is stopped. -/
def Want.stays : Want K → Nat → Bool
  | .remove _, _ | .again, _ => true
  | .add _, word | .stop, word => !stopped word

/-- The thread will take the lock or wake a thread. -/
def Obliged (s : State K) (t : Nat) : Prop :=
  match s.pc t with
  | .notifyOne _ => True
  | .blocked w _ _ => t ∉ s.waiters ∧ w.stays s.word = true
  | .reload w _ true | .lockCas w _ _ => w.stays s.word = true
  | _ => False

/-- What a thread knows about the value it read. -/
def Pc.Saw (word : Nat) : Pc K → Prop
  | .lockCas w current _ => w.passes current = true
  | .setWaiting w current _ => w.passes current = true ∧ locked current = true
  | .wait w current _ | .blocked w current _ =>
      w.passes current = true ∧ locked current = true ∧ waiting word = true
  | _ => True

/-- The loop that a blocked thread is in never gives up. -/
def Pc.blockedStays : Pc K → Prop
  | .blocked (.remove _) _ _ | .blocked .again _ _ => True
  | _ => False

structure WaitInv (s : State K) : Prop where
  saw : ∀ t, (s.pc t).Saw s.word
  waiters : ∀ t ∈ s.waiters, ∃ w current i, s.pc t = .blocked w current i
  nodup : s.waiters.Nodup
  /-- Only threads in `lock` sleep in a stopped state, once `notify_all` is done. -/
  stopped : ∀ u, s.stopper = some u → s.pc u ≠ .notifyAll → ∀ t ∈ s.waiters, (s.pc t).blockedStays
  obliged : locked s.word = false → s.waiters ≠ [] → ∃ t, Obliged s t

theorem WaitInv.not_stranded (hi : WaitInv s) : ¬ Stranded (Asleep s) s := by
  rintro ⟨hl, ⟨t, ht⟩, hall⟩
  obtain ⟨u, hu⟩ := hi.obliged hl (List.ne_nil_of_mem ht)
  rcases hall u with h | ⟨k, h⟩ | h
  · simp [Obliged, h] at hu
  · simp [Obliged, h] at hu
  · obtain ⟨w, current, i, hp⟩ := hi.waiters u h
    rw [Obliged, hp] at hu
    exact hu.1 h

-- ============================================================================
-- One step
-- ============================================================================

theorem Want.stays_congr {w : Want K} {v v' : Nat} (h : StopState.stopped v' = StopState.stopped v) :
    w.stays v' = w.stays v := by
  cases w <;> simp [Want.stays, h]

theorem Pc.Saw.mono {pc : Pc K} {v v' : Nat} (h : pc.Saw v)
    (hw : StopState.waiting v = true → StopState.waiting v' = true) : pc.Saw v' := by
  cases pc <;> simp_all [Pc.Saw]

theorem loopPc_saw (w : Want K) (current i : Nat) : (loopPc w current i).Saw current := by
  unfold loopPc
  repeat' split
  all_goals simp_all [Pc.Saw]

theorem finishPc_saw (a : After K) (v : Nat) : (finishPc a).Saw v := by
  cases a with
  | removed k found => cases found <;> trivial
  | _ => trivial

theorem proceedPc_saw (empty : Bool) (v : Nat) : (proceedPc empty : Pc K).Saw v := by
  cases empty <;> trivial

/-- Another thread stays obliged. -/
theorem Obliged.frame {u : Nat} (h : Obliged s u) (hpc : s'.pc u = s.pc u)
    (hws : u ∈ s'.waiters → u ∈ s.waiters)
    (hst : StopState.stopped s'.word = StopState.stopped s.word) : Obliged s' u := by
  have hcong (w : Want K) := Want.stays_congr (w := w) hst
  unfold Obliged at h ⊢
  rw [hpc]
  cases hp : s.pc u <;> simp only [hp] at h ⊢ <;> try exact h
  case lockCas w current i => rwa [hcong]
  case blocked w current i => exact ⟨fun hm => h.1 (hws hm), by rw [hcong, h.2]⟩
  case reload w i notified =>
    cases notified with
    | false => exact h
    | true => exact (hcong w).trans h

namespace WaitInv

theorem start : WaitInv (State.start : State K) where
  saw _ := trivial
  waiters t h := by cases h
  nodup := List.nodup_nil
  stopped u h := by cases h
  obliged _ h := absurd rfl h

/-- No thread sleeps before `FlagWaiting` is set. -/
theorem waiters_nil (hi : WaitInv s) (h : StopState.waiting s.word = false) : s.waiters = [] := by
  rw [List.eq_nil_iff_forall_not_mem]
  intro t ht
  obtain ⟨w, current, i, hp⟩ := hi.waiters t ht
  have hsaw := hi.saw t
  rw [hp] at hsaw
  have := hsaw.2.2
  rw [h] at this
  cases this

theorem not_mem (hi : WaitInv s) (h : ∀ w current i, s.pc t ≠ .blocked w current i) :
    t ∉ s.waiters := by
  intro ht
  obtain ⟨w, current, i, hp⟩ := hi.waiters t ht
  exact h w current i hp

theorem saw_update {pc : Pc K} (hi : WaitInv s) (hpc : s'.pc = Function.update s.pc t pc)
    (hw : StopState.waiting s.word = true → StopState.waiting s'.word = true)
    (hsaw : pc.Saw s'.word) (u : Nat) : (s'.pc u).Saw s'.word := by
  rw [hpc]
  by_cases h : u = t
  · subst h
    simpa using hsaw
  · simpa [h] using (hi.saw u).mono hw

/-- A thread moves and stays awake; other threads may wake up. -/
theorem step {pc : Pc K} (hi : WaitInv s) (hpc : s'.pc = Function.update s.pc t pc)
    (hst : s'.stopper = s.stopper)
    (hw : StopState.waiting s.word = true → StopState.waiting s'.word = true)
    (hws : ∀ u ∈ s'.waiters, u ∈ s.waiters ∧ u ≠ t) (hnd : s'.waiters.Nodup)
    (hall : s.pc t = .notifyAll → s'.waiters = []) (hsaw : pc.Saw s'.word)
    (hob : locked s'.word = false → s'.waiters ≠ [] → ∃ u, Obliged s' u) : WaitInv s' where
  saw := hi.saw_update hpc hw hsaw
  waiters u hu := by
    rw [hpc, Function.update_of_ne (hws u hu).2]
    exact hi.waiters u (hws u hu).1
  nodup := hnd
  stopped x hx hne u hu := by
    rw [hpc, Function.update_of_ne (hws u hu).2]
    rw [hst] at hx
    refine hi.stopped x hx ?_ u (hws u hu).1
    intro hp
    by_cases h : x = t
    · subst h
      rw [hall hp] at hu
      cases hu
    · exact hne (by rwa [hpc, Function.update_of_ne h])
  obliged := hob

/-- Only the place of one thread changes, and it is obliged if it was. -/
theorem moves {pc : Pc K} (hi : WaitInv s) (hm : Moves s s' t pc)
    (hn : t ∉ s.waiters) (hall : s.pc t ≠ .notifyAll) (hsaw : pc.Saw s.word)
    (hob : locked s.word = false → s.waiters ≠ [] → Obliged s t → Obliged s' t) : WaitInv s' := by
  refine hi.step hm.pc hm.stopper (by rw [hm.word]; exact id) ?_ (by rw [hm.waiters]; exact hi.nodup)
    (fun h => absurd h hall) (by rwa [hm.word]) ?_
  · intro u hu
    rw [hm.waiters] at hu
    exact ⟨hu, fun h => hn (h ▸ hu)⟩
  · intro hl hne
    rw [hm.word] at hl
    rw [hm.waiters] at hne
    obtain ⟨u, hu⟩ := hi.obliged hl hne
    by_cases h : u = t
    · subst h
      exact ⟨u, hob hl hne hu⟩
    · exact ⟨u, hu.frame (by rw [hm.pc, Function.update_of_ne h]) (by rw [hm.waiters]; exact id)
        (by rw [hm.word])⟩

/-- A source comes or goes. -/
theorem word {v : Nat} (hi : WaitInv s) (hst : StopState.stopped v = StopState.stopped s.word)
    (hw : StopState.waiting v = StopState.waiting s.word)
    (hl : StopState.locked v = StopState.locked s.word) : WaitInv { s with word := v } where
  saw u := (hi.saw u).mono hw.trans
  waiters := hi.waiters
  nodup := hi.nodup
  stopped := hi.stopped
  obliged hf hne := by
    obtain ⟨u, hu⟩ := hi.obliged (hl.symm.trans hf) hne
    exact ⟨u, hu.frame rfl id hst⟩

/-- A thread blocks while the lock is held. -/
theorem sleep {w : Want K} {i : Nat} (hi : WaitInv s) (hlock : LockInv s)
    (hpc : s'.pc = Function.update s.pc t (.blocked w s.word i)) (hst : s'.stopper = s.stopper)
    (hw : s'.word = s.word) (hws : s'.waiters = s.waiters ++ [t]) (hn : t ∉ s.waiters)
    (hall : s.pc t ≠ .notifyAll) (hsaw : (Pc.blocked w s.word i).Saw s.word) : WaitInv s' := by
  have hmem {u : Nat} (hu : u ∈ s'.waiters) : u ∈ s.waiters ∨ u = t := by
    rw [hws] at hu
    simpa using hu
  constructor
  case saw => exact hi.saw_update hpc (hw ▸ id) (hw ▸ hsaw)
  case waiters =>
    intro u hu
    by_cases h : u = t
    · exact ⟨w, s.word, i, by rw [hpc, h, Function.update_self]⟩
    · rw [hpc, Function.update_of_ne h]
      exact hi.waiters u ((hmem hu).resolve_right h)
  case nodup =>
    rw [hws, List.nodup_append]
    refine ⟨hi.nodup, by simp, ?_⟩
    rintro a ha b hb rfl
    exact hn (List.mem_singleton.mp hb ▸ ha)
  case stopped =>
    intro x hx hne u hu
    rw [hst] at hx
    by_cases h : u = t
    · have hs := hlock.stopped
      rw [hx] at hs
      rw [hpc, h, Function.update_self]
      cases w <;> simp_all [Pc.Saw, Want.passes, Pc.blockedStays]
    · rw [hpc, Function.update_of_ne h]
      refine hi.stopped x hx ?_ u ((hmem hu).resolve_right h)
      intro hp
      by_cases hxt : x = t
      · exact hall (hxt ▸ hp)
      · exact hne (by rwa [hpc, Function.update_of_ne hxt])
  case obliged =>
    intro hf
    rw [hw, hsaw.2.1] at hf
    cases hf

end WaitInv

-- ============================================================================
-- Every step
-- ============================================================================

/-- The steps that the code's loops account for. -/
def StepOk (s : State K) (a : Act K) : Prop := FailsOn Want.waitsOn s a ∧ PassesOn s a

/-- A thread that reloads the word after a notification and finds the lock free
    goes on to take it. -/
theorem obliged_loop {w : Want K} {i : Nat} (hl : locked s.word = false)
    (hst : w.stays s.word = true) (hpass : w.passes s.word = true)
    (hm : Moves s s' t (loopPc w s.word (i + 1))) : Obliged s' t := by
  have hpc : s'.pc t = .lockCas w s.word (i + 1) := by
    rw [hm.pc]
    simp [loopPc, hpass, hl]
  unfold Obliged
  rw [hpc, hm.word]
  exact hst

theorem passes_of_stays {w : Want K} {v : Nat} (h : w.stays v = true)
    (hs : ∀ k, w = .add k → stopped v = true ∨ sourceCountIncrement ≤ v) : w.passes v = true := by
  cases w with
  | add k =>
      have := hs k rfl
      simp_all [Want.stays, Want.passes]
  | stop => exact h
  | _ => rfl

/-- When the lock is free, a blocked thread does not give up. -/
theorem stays_of_mem {w : Want K} {current i : Nat} (hl : LockInv s) (hi : WaitInv s)
    (hf : locked s.word = false) (ht : t ∈ s.waiters) (hp : s.pc t = .blocked w current i) :
    w.stays s.word = true := by
  cases hst : stopped s.word with
  | false => cases w <;> simp [Want.stays, hst]
  | true =>
      have hs := hl.stopped
      rw [hst] at hs
      obtain ⟨x, hx⟩ := Option.isSome_iff_exists.mp hs.symm
      have hne : s.pc x ≠ .notifyAll := by
        intro h
        have := hl.locked_of_holds (t := x) (by rw [h]; rfl)
        rw [hf] at this
        cases this
      have hb := hi.stopped x hx hne t ht
      rw [hp] at hb
      cases w <;> first | exact hb.elim | rfl

theorem acquired_waitInv {w : Want K} (hl : LockInv s) (hi : WaitInv s)
    (hf : locked s.word = false) (hn : t ∉ s.waiters) : WaitInv (s.acquired t w s.word) := by
  have hne {u : Nat} (hu : u ∈ s.waiters) : u ≠ t := fun h => hn (h ▸ hu)
  have hall : s.pc t ≠ .notifyAll := by
    intro hp
    have := hl.locked_of_holds (t := t) (by rw [hp]; rfl)
    rw [hf] at this
    cases this
  cases w with
  | stop =>
      simp only [State.acquired]
      split
      · refine ⟨hi.saw_update rfl ?_ trivial, ?_, hi.nodup, ?_, ?_⟩
        · simp [State.goto]
        · intro u hu
          simpa [State.goto, Function.update_of_ne (hne hu)] using hi.waiters u hu
        · intro x hx hx'
          cases hx
          exact absurd (Function.update_self t _ s.pc) hx'
        · intro h
          simp [State.goto] at h
      · rename_i hw
        have hnil := hi.waiters_nil (by simpa using hw)
        refine ⟨hi.saw_update rfl ?_ trivial, ?_, hi.nodup, ?_, ?_⟩
        · simp [State.goto]
        · intro u hu
          simpa [State.goto, Function.update_of_ne (hne hu)] using hi.waiters u hu
        · intro x _ _ u hu
          rw [State.goto, hnil] at hu
          cases hu
        · intro h
          simp [State.goto] at h
  | _ =>
      refine hi.step rfl rfl ?_ (fun u hu => ⟨hu, hne hu⟩) hi.nodup (fun h => absurd h hall) trivial ?_
      · simp [State.acquired, State.goto]
      · intro h
        simp [State.acquired, State.goto] at h

/-- The value a thread waits on is locked. -/
def Pc.waitsLocked : Pc K → Bool
  | .setWaiting _ current _ | .wait _ current _ | .blocked _ current _ => locked current
  | _ => true

theorem loopPc_waitsLocked (w : Want K) (current i : Nat) :
    (loopPc w current i).waitsLocked = true := by
  unfold loopPc
  repeat' split
  all_goals simp_all [Pc.waitsLocked]

theorem finishPc_waitsLocked (a : After K) : (finishPc a).waitsLocked = true := by
  cases a with
  | removed k found => cases found <;> rfl
  | _ => rfl

theorem waitsLocked_update {pc : Pc K} (hi : ∀ u, (s.pc u).waitsLocked = true)
    (hpc : s'.pc = Function.update s.pc t pc) (h : pc.waitsLocked = true) (u : Nat) :
    (s'.pc u).waitsLocked = true := by
  rw [hpc]
  by_cases hu : u = t
  · subst hu
    simpa using h
  · simpa [hu] using hi u

section Step

variable [DecidableEq K]

theorem stepThread_waitInv {c : Choice} (hl : LockInv s) (hi : WaitInv s)
    (hok : StepOk s (.step t c)) (hs : stepThread s t c = some s') : WaitInv s' := by
  obtain ⟨hfail, hpass⟩ := hok
  have hsaw := hi.saw t
  cases hp : s.pc t <;> simp only [stepThread, hp] at hs <;> rw [hp] at hsaw
  case user => cases hs
  case load w =>
    cases hs
    exact hi.moves (moves_loop ..) (hi.not_mem (by simp [hp])) (by simp [hp]) (loopPc_saw ..)
      (by simp [Obliged, hp])
  case lockCas w current i =>
    split at hs <;> cases hs
    · rename_i h
      have hfree : locked s.word = false := by
        have := hl.sawFree t
        rw [hp, ← h.1, Pc.sawFree, Bool.and_eq_true] at this
        simpa using this.2
      rw [← h.1]
      exact acquired_waitInv hl hi hfree (hi.not_mem (by simp [hp]))
    · rename_i h
      have hw := hfail t c w current i rfl hp (by simpa [or_iff_not_imp_left] using h)
      simp only [Want.waitsOn, Bool.and_eq_true] at hw
      refine hi.moves (moves_goto ..) (hi.not_mem (by simp [hp])) (by simp [hp]) ⟨hw.1.1, hw.1.2, hw.2⟩ ?_
      intro hf
      rw [hw.1.2] at hf
      cases hf
  case spin w i =>
    cases hs
    exact hi.moves (moves_loop ..) (hi.not_mem (by simp [hp])) (by simp [hp]) (loopPc_saw ..)
      (by simp [Obliged, hp])
  case setWaiting w current i =>
    split at hs <;> cases hs
    · rename_i h
      have hn := hi.not_mem (t := t) (by simp [hp])
      refine hi.step rfl rfl (by simp [State.goto, h.1]) ?_ hi.nodup (by simp [hp])
        ⟨hsaw.1, hsaw.2, by simp [State.goto]⟩ ?_
      · intro u hu
        refine ⟨hu, ?_⟩
        rintro rfl
        exact hn hu
      · intro hf
        simp [State.goto, hsaw.2] at hf
    · exact hi.moves (moves_loop ..) (hi.not_mem (by simp [hp])) (by simp [hp]) (loopPc_saw ..)
        (by simp [Obliged, hp])
  case wait w current i =>
    have hn : t ∉ s.waiters := hi.not_mem (by simp [hp])
    split at hs <;> cases hs
    · rename_i h
      subst h
      exact hi.sleep hl rfl rfl rfl rfl hn (by simp [hp]) hsaw
    · exact hi.moves (moves_goto ..) hn (by simp [hp]) trivial (by simp [Obliged, hp])
  case blocked w current i =>
    split at hs
    · rename_i ht
      split at hs <;> cases hs
      have hnd := hi.nodup
      refine hi.step rfl rfl id (fun u hu => ?_) (hnd.erase t) (by simp [hp]) trivial ?_
      · refine ⟨List.mem_of_mem_erase hu, ?_⟩
        rintro rfl
        exact hnd.not_mem_erase hu
      · intro hf _
        obtain ⟨u, hu⟩ := hi.obliged hf (List.ne_nil_of_mem ht)
        have hne : u ≠ t := by
          rintro rfl
          rw [Obliged, hp] at hu
          exact hu.1 ht
        exact ⟨u, hu.frame (Function.update_of_ne hne ..) List.mem_of_mem_erase rfl⟩
    · rename_i hn
      split at hs <;> cases hs
      · rename_i h
        obtain ⟨-, rfl⟩ := h
        refine hi.sleep hl ?_ rfl rfl rfl hn (by simp [hp]) hsaw
        rw [← hp, Function.update_eq_self]
      · refine hi.moves (moves_goto ..) hn (by simp [hp]) trivial ?_
        intro _ _ ho
        rw [Obliged, hp] at ho
        simpa [Obliged, State.goto] using ho.2
  case reload w i notified =>
    cases hs
    refine hi.moves (moves_loop ..) (hi.not_mem (by simp [hp])) (by simp [hp]) (loopPc_saw ..) ?_
    intro hf hne ho
    cases notified with
    | false => simp [Obliged, hp] at ho
    | true =>
        have hst : w.stays s.word = true := by simpa [Obliged, hp] using ho
        refine obliged_loop hf hst (passes_of_stays hst ?_) (moves_loop ..)
        rintro k rfl
        rcases hpass t c k i rfl hp with h | h | h | h
        · exact .inl h
        · simp [hf] at h
        · exact .inr h
        · exact absurd h hne
  case notifyAll =>
    cases hs
    exact hi.step rfl rfl id (by simp [State.goto]) List.nodup_nil (fun _ => rfl) trivial
      fun _ h => absurd rfl h
  case held w =>
    cases hs
    obtain ⟨a, hm⟩ := moves_critical s t w
    exact hi.moves hm (hi.not_mem (by simp [hp])) (by simp [hp]) trivial (by simp [Obliged, hp])
  case unlock a =>
    have hn : t ∉ s.waiters := hi.not_mem (by simp [hp])
    have hmem (u : Nat) (hu : u ∈ s.waiters) : u ∈ s.waiters ∧ u ≠ t := ⟨hu, fun h => hn (h ▸ hu)⟩
    obtain ⟨-, hw, -⟩ := flags_unlock (hl.locked_of_holds (t := t) (by rw [hp]; rfl))
    split at hs <;> cases hs
    · refine hi.step rfl rfl (hw.trans · ) hmem hi.nodup (by simp [hp]) trivial ?_
      exact fun _ _ => ⟨t, by simp [Obliged, State.goto]⟩
    · rename_i h
      have hm := moves_finish { s with word := s.word - flagLocked, holder := none } t a
      have hnil := hi.waiters_nil (by simpa using h)
      refine hi.step hm.pc hm.stopper ?_ (by rw [hm.waiters]; exact hmem)
        (by rw [hm.waiters]; exact hi.nodup) (by simp [hp]) (finishPc_saw ..) ?_
      · rw [hm.word]
        exact hw.trans
      · intro _ hne
        rw [hm.waiters] at hne
        exact absurd hnil hne
  case notifyOne a =>
    have hn : t ∉ s.waiters := hi.not_mem (by simp [hp])
    split at hs
    · rename_i u
      split at hs <;> cases hs
      rename_i hu
      have hm := moves_finish { s with waiters := s.waiters.erase u } t a
      refine hi.step hm.pc hm.stopper (by rw [hm.word]; exact id) ?_
        (by rw [hm.waiters]; exact hi.nodup.erase u) (by simp [hp]) (finishPc_saw ..) ?_
      · intro v hv
        rw [hm.waiters] at hv
        have := List.mem_of_mem_erase hv
        exact ⟨this, fun h => hn (h ▸ this)⟩
      · intro hf _
        refine ⟨u, ?_⟩
        rw [hm.word] at hf
        obtain ⟨w, current, i, hpu⟩ := hi.waiters u hu
        have hut : u ≠ t := fun h => hn (h ▸ hu)
        have hpu' : (({ s with waiters := s.waiters.erase u } : State K).finish t a).pc u =
            .blocked w current i := by
          rw [hm.pc, Function.update_of_ne hut]
          exact hpu
        rw [Obliged, hpu', hm.waiters, hm.word]
        exact ⟨hi.nodup.not_mem_erase, stays_of_mem (s := s) hl hi hf hu hpu⟩
    · split at hs <;> cases hs
      rename_i hnil
      refine hi.moves (moves_finish ..) hn (by simp [hp]) (finishPc_saw ..) ?_
      exact fun _ hne => absurd hnil hne
  case checkRunning k =>
    split at hs <;> cases hs <;>
      exact hi.moves ⟨rfl, rfl, rfl, rfl, rfl⟩ (hi.not_mem (by simp [hp])) (by simp [hp]) trivial
        (by simp [Obliged, hp])
  case acquire k =>
    split at hs <;> cases hs
    exact hi.moves ⟨rfl, rfl, rfl, rfl, rfl⟩ (hi.not_mem (by simp [hp])) (by simp [hp]) trivial
      (by simp [Obliged, hp])
  case returned k empty =>
    split at hs <;> cases hs
    · exact hi.moves (moves_proceed ..) (hi.not_mem (by simp [hp])) (by simp [hp]) (proceedPc_saw ..)
        (by simp [Obliged, hp])
    · exact hi.moves ⟨rfl, rfl, rfl, rfl, rfl⟩ (hi.not_mem (by simp [hp])) (by simp [hp]) trivial
        (by simp [Obliged, hp])
  case release k empty =>
    cases hs
    have hm := moves_proceed { s with done := Function.update s.done k (s.done k + 1) } t k empty
    exact hi.moves ⟨hm.pc, hm.word, hm.waiters, hm.holder, hm.stopper⟩ (hi.not_mem (by simp [hp]))
      (by simp [hp]) (proceedPc_saw ..) (by simp [Obliged, hp])

theorem step_waitInv {a : Act K} (hl : LockInv s) (hi : WaitInv s) (hok : StepOk s a)
    (hs : stopState.step s a = some s') : WaitInv s' := by
  cases a <;> simp only [stopState] at hs
  case addSource t =>
    split at hs <;> cases hs
    rename_i h
    refine hi.word ?_ ?_ ?_ <;> simp
  case removeSource t =>
    split at hs <;> cases hs
    rename_i h
    obtain ⟨h1, h2, h3⟩ := flags_removeSource h.2
    exact hi.word h1 h2 h3
  case add t k =>
    split at hs <;> cases hs
    rename_i h
    exact hi.moves ⟨rfl, rfl, rfl, rfl, rfl⟩ (hi.not_mem (by simp [h.1])) (by simp [h.1]) trivial
      (by simp [Obliged, h.1])
  case remove t k =>
    split at hs <;> cases hs
    rename_i h
    exact hi.moves ⟨rfl, rfl, rfl, rfl, rfl⟩ (hi.not_mem (by simp [h.1])) (by simp [h.1]) trivial
      (by simp [Obliged, h.1])
  case requestStop t =>
    split at hs <;> cases hs
    rename_i h
    exact hi.moves (moves_goto ..) (hi.not_mem (by simp [h])) (by simp [h]) trivial
      (by simp [Obliged, h])
  case ret t =>
    split at hs
    · rename_i h
      split at hs <;> cases hs <;>
        exact hi.moves ⟨rfl, rfl, rfl, rfl, rfl⟩ (hi.not_mem (by simp [h])) (by simp [h]) trivial
          (by simp [Obliged, h])
    · cases hs
  case step t c => exact stepThread_waitInv hl hi hok hs

theorem reachable_waitInv (hr : stopState.ReachableIf StepOk s) : WaitInv s :=
  hr.invariant_of (fun _ h => reachable_lockInv h) (fun _ h => h ▸ .start)
    fun _ _ _ hl hi hok hs => step_waitInv hl hi hok hs

-- ============================================================================
-- Blocking on the word itself
-- ============================================================================

theorem stepThread_waitsLocked {c : Choice} (hi : ∀ u, (s.pc u).waitsLocked = true)
    (hok : FailsOn (fun _ => locked) s (.step t c)) (hs : stepThread s t c = some s') (u : Nat) :
    (s'.pc u).waitsLocked = true := by
  have ht := hi t
  revert u
  cases hp : s.pc t <;> simp only [stepThread, hp] at hs <;> rw [hp] at ht
  case user => cases hs
  case load w => cases hs; exact waitsLocked_update hi (moves_loop ..).pc (loopPc_waitsLocked ..)
  case spin w i => cases hs; exact waitsLocked_update hi (moves_loop ..).pc (loopPc_waitsLocked ..)
  case reload w i n =>
    cases hs
    exact waitsLocked_update hi (moves_loop ..).pc (loopPc_waitsLocked ..)
  case lockCas w current i =>
    split at hs <;> cases hs
    · cases w with
      | stop =>
          simp only [State.acquired]
          split <;> exact waitsLocked_update hi rfl rfl
      | _ => exact waitsLocked_update hi rfl rfl
    · rename_i h
      exact waitsLocked_update hi rfl
        (hok t c w current i rfl hp (by simpa [or_iff_not_imp_left] using h))
  case setWaiting w current i =>
    split at hs <;> cases hs
    · exact waitsLocked_update hi rfl ht
    · exact waitsLocked_update hi (moves_loop ..).pc (loopPc_waitsLocked ..)
  case wait w current i =>
    split at hs <;> cases hs
    · exact waitsLocked_update hi rfl ht
    · exact waitsLocked_update hi rfl rfl
  case blocked w current i =>
    split at hs
    · split at hs <;> cases hs
      exact waitsLocked_update hi rfl rfl
    · split at hs <;> cases hs
      · exact hi
      · exact waitsLocked_update hi rfl rfl
  case notifyAll => cases hs; exact waitsLocked_update hi rfl rfl
  case held w =>
    cases hs
    obtain ⟨a, hm⟩ := moves_critical s t w
    exact waitsLocked_update hi hm.pc rfl
  case unlock a =>
    split at hs <;> cases hs
    · exact waitsLocked_update hi rfl rfl
    · exact waitsLocked_update hi (moves_finish ..).pc (finishPc_waitsLocked a)
  case notifyOne a =>
    split at hs
    · split at hs <;> cases hs
      exact waitsLocked_update hi (moves_finish ..).pc (finishPc_waitsLocked a)
    · split at hs <;> cases hs
      exact waitsLocked_update hi (moves_finish ..).pc (finishPc_waitsLocked a)
  case checkRunning k => split at hs <;> cases hs <;> exact waitsLocked_update hi rfl rfl
  case acquire k =>
    split at hs <;> cases hs
    exact waitsLocked_update hi rfl rfl
  case returned k empty =>
    split at hs <;> cases hs
    · exact waitsLocked_update hi (moves_proceed ..).pc (by cases empty <;> rfl)
    · exact waitsLocked_update hi rfl rfl
  case release k empty =>
    cases hs
    exact waitsLocked_update hi (moves_proceed ..).pc (by cases empty <;> rfl)

theorem step_waitsLocked {a : Act K} (hi : ∀ u, (s.pc u).waitsLocked = true)
    (hok : FailsOn (fun _ => locked) s a) (hs : stopState.step s a = some s') :
    ∀ u, (s'.pc u).waitsLocked = true := by
  cases a <;> simp only [stopState] at hs
  case step t c => exact stepThread_waitsLocked hi hok hs
  case ret t =>
    split at hs
    · split at hs <;> cases hs <;> exact waitsLocked_update hi rfl rfl
    · cases hs
  case addSource t =>
    split at hs <;> cases hs
    exact hi
  case removeSource t =>
    split at hs <;> cases hs
    exact hi
  all_goals
    split at hs <;> cases hs
    exact waitsLocked_update hi rfl rfl

-- ============================================================================
-- Every run
-- ============================================================================

/-- In every run in which a failed compare-exchange for the lock finds a value
    its loop waits on, and no notified `add_callback` gives up while the lock is
    free, no thread is stranded.

    Where a change of the word alone ends a wait, it is enough that what the
    failed exchange finds is locked. -/
theorem not_stranded_of_runOk :
    (∀ s : State K, stopState.ReachableIf StepOk s → ¬ Stranded (Asleep s) s) ∧
    (∀ s : State K, stopState.ReachableIf (FailsOn fun _ => locked) s →
      ¬ Stranded (AsleepOn s) s) := by
  constructor
  · intro s hr
    exact (reachable_waitInv hr).not_stranded
  · rintro s hr ⟨hf, ⟨t, -, w, i, hp⟩, -⟩
    have hi : ∀ u, (s.pc u).waitsLocked = true :=
      hr.invariant (I := fun s => ∀ u, (s.pc u).waitsLocked = true) (fun _ h => h ▸ fun _ => rfl)
        fun _ _ _ hi hok hs => step_waitsLocked hi hok hs
    have := hi t
    rw [hp] at this
    exact Bool.false_ne_true (hf.symm.trans this)

end Step

/-- One thread, one source: the compare-exchange of `lock_stop` fails for no
    reason, and the thread blocks on the unlocked word it read again. -/
def spuriousStop : List (Act Unit) :=
  [.addSource 0, .requestStop 0, .step 0 .go, .step 0 .fail, .step 0 .go]

/-- The lock strands a thread: nobody else is there to wake it. -/
theorem exists_stranded : ∃ s : State Unit, stopState.Reachable s ∧
    Stranded (Asleep s) s ∧ Stranded (AsleepOn s) s := by
  let s : State Unit :=
    { State.start with
      word := 8
      waiters := [0]
      pc := Function.update (Function.update (Function.update (Function.update (fun _ => .user)
        0 (.load .stop)) 0 (.lockCas .stop 8 0)) 0 (.wait .stop 8 0)) 0 (.blocked .stop 8 0) }
  have hrun : stopState.run State.start spuriousStop = some s := rfl
  have hfree : locked s.word = false := by simp [s, locked, flagLocked]
  have hon : AsleepOn s 0 := ⟨List.mem_singleton_self 0, .stop, 0, rfl⟩
  have hpc (t : Nat) : s.pc t = .user ∨ t = 0 := by
    by_cases ht : t = 0
    · exact .inr ht
    · exact .inl (by simp [s, ht])
  refine ⟨s, System.reachable_of_run (.init rfl) hrun, ?_, ?_⟩
  · refine ⟨hfree, ⟨0, hon.1⟩, fun t => ?_⟩
    rcases hpc t with ht | rfl
    · exact .inl ht
    · exact .inr (.inr hon.1)
  · refine ⟨hfree, ⟨0, hon⟩, fun t => ?_⟩
    rcases hpc t with ht | rfl
    · exact .inl ht
    · exact .inr (.inr hon)

end Coroactors.StopState
