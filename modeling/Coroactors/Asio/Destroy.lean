/-
  Coroactors.Asio.Destroy

  A coroutine that awaits an asio operation is destroyed while it is suspended
  (coroactors/detail/asio_awaitable.h): the destructor of `asio_awaiter_t` calls
  `unset_continuation`, which takes the handle out of the word and leaves the
  markers, and destroys the stop callback.

  The destructor of the stop callback waits for a cancellation that runs in
  another thread.  A coroutine may also be destroyed by the thread that runs the
  cancellation, from what `emit_cancellation` calls; then nothing is waited for,
  and the cancellation goes on after that.

  The reference count of `asio_continuation` is left out: whether it is used
  after it was freed, by a cancellation that goes on when the coroutine and the
  handler are gone, is not covered here.

  The source asks that the handler does not run concurrently.  The thread of a
  cancellation may go on, but it must not be the one that has to resume the
  coroutine: after a handler that ran under the cancel mark it is.
-/

import Coroactors.Asio.Resume

namespace Coroactors.Asio.Destroy

open Coroactors.Conc

-- ============================================================================
-- Model
-- ============================================================================

/-- Where the destructor of the awaiter is. -/
inductive Destroyer where
  /-- Not called. -/
  | none
  /-- `unset_continuation`: before its load. -/
  | load
  /-- In the loop of `unset_continuation`, with the last observed value. -/
  | cas (addr : Ptr)
  /-- Before the destructor of the stop callback. -/
  | unset
  /-- Returned. -/
  | gone
deriving DecidableEq, Repr

/-- In `unset_continuation`. -/
def Destroyer.clearing : Destroyer → Bool
  | .load | .cas _ => true
  | _ => false

/-- After `unset_continuation`. -/
def Destroyer.cleared : Destroyer → Bool
  | .unset | .gone => true
  | _ => false

structure State (R : Type*) where
  base : Asio.State R
  destroyer : Destroyer
  /-- The destructor is called by the thread of the cancellation. -/
  same : Bool

inductive Act (R : Type*) where
  /-- A step of the awaiter, the handler or the stop callback. -/
  | base (a : Asio.Act R)
  /-- The coroutine is destroyed. -/
  | destroy (same : Bool)
  /-- The next step of the destructor. -/
  | step (spurious : Bool)

section Model

variable {R : Type*}

/-- The loop head of `unset_continuation` with the observed value `addr`. -/
def State.unsetLoop (s : State R) (addr : Ptr) : State R :=
  if addr = withMarker null (getMarker addr) then { s with destroyer := .unset }
  else { s with destroyer := .cas addr }

/-- Whether the party may step: a coroutine that is destroyed does nothing, and a
    thread that destroys it inside a cancellation does nothing else meanwhile. -/
def State.allows (s : State R) : Asio.Act R → Bool
  | .awaiter .. => s.destroyer = .none
  | .handler .. => true
  | .canceller _ => s.destroyer = .none || s.destroyer = .gone || !s.same

def stepDestroyer (s : State R) (spurious : Bool) : Option (State R) :=
  match s.destroyer with
  | .load => some (s.unsetLoop s.base.continuation)
  | .cas addr =>
      if s.base.continuation = addr && !spurious then
        some { s with
          base := { s.base with continuation := withMarker null (getMarker addr) }
          destroyer := .unset }
      else some (s.unsetLoop s.base.continuation)
  | .unset =>
      if s.same || s.base.canceller = .idle || s.base.canceller = .done then
        some { s with base := { s.base with registered := false }, destroyer := .gone }
      else none
  | .none | .gone => none

/-- The await of one asio operation by a coroutine that may be destroyed. -/
def awaitDestroy (c : Handle) : System (State R) (Act R) where
  init s := s = ⟨Asio.State.start, .none, false⟩
  step s
    | .base a =>
        if s.allows a then ((await c).step s.base a).map fun b => { s with base := b } else none
    | .destroy same =>
        if s.destroyer = .none ∧ s.base.awaiter = .suspended ∧ s.base.resumes = [] ∧
            (same = true → s.base.canceller = .emit) then
          some { s with destroyer := .load, same }
        else none
    | .step spurious => stepDestroyer s spurious

end Model

/-- While the handle is taken out of the word the handler does nothing, and
    neither does a cancellation in another thread that finds the handler done. -/
def Careful {R : Type*} (s : State R) : Act R → Prop
  | .base (.handler ..) => s.destroyer.clearing = false
  | .base (.canceller _) => s.destroyer.clearing = true → s.base.handler ≠ .done
  | _ => True

-- ============================================================================
-- The word
-- ============================================================================

/-- The word has the address `a` and, with `y`, the result marker. -/
structure WordInv {R : Type*} (s : Asio.State R) (a : Ptr) (y : Bool) : Prop where
  aligned : getMarker a = null
  word : s.continuation = tag a s.canceller.marked y
  result : y = true → s.handler = .done
  /-- Only `end_cancellation` leaves a handle with a result, and takes it. -/
  taken : y = true → s.canceller.marked = false → a ≠ null → ∃ target, s.canceller = .take target
  take : ∀ target, s.canceller = .take target →
    ∃ b, getMarker b = null ∧ b ≠ null ∧ target = tag b false true ∧ y = true ∧ (a = b ∨ a = null)
  seen : ∀ addr, s.canceller = .finishCas addr →
    ∃ b z, getMarker b = null ∧ addr = tag b true z
  asserts : s.assertFailed = true → s.awaiter = .continued

section Word

variable {R : Type*} {s s' : Asio.State R} {a : Ptr} {y : Bool} {c : Handle}

theorem wordInv_start : WordInv (Asio.State.start : Asio.State R) null false where
  aligned := getMarker_zero
  word := (tag_false null).symm
  result h := by cases h
  taken h := by cases h
  take target h := by cases h
  seen addr h := by cases h
  asserts h := by cases h

/-- Without a result `end_cancellation` takes nothing. -/
theorem WordInv.not_take (h : WordInv s a y) (hd : s.handler ≠ .done) (target : Ptr) :
    s.canceller ≠ .take target := by
  intro ht
  obtain ⟨b, -, -, -, hy, -⟩ := h.take target ht
  exact hd (h.result hy)

theorem WordInv.asserts_ok (h : WordInv s a y) (hne : s.awaiter ≠ .continued) :
    s.assertFailed = false := by
  by_contra hf
  exact hne (h.asserts (by simpa using hf))

/-- A step of a party that leaves the word and the stop callback alone. -/
theorem WordInv.keep (h : WordInv s a y) (hword : s'.continuation = s.continuation)
    (hhandler : s.handler = .done → s'.handler = .done) (hcanceller : s'.canceller = s.canceller)
    (hasserts : s'.assertFailed = true → s'.awaiter = .continued) : WordInv s' a y where
  aligned := h.aligned
  word := by rw [hword, hcanceller, h.word]
  result hy := hhandler (h.result hy)
  taken hy hm ha := by
    rw [hcanceller] at hm ⊢
    exact h.taken hy hm ha
  take target ht := h.take target (hcanceller ▸ ht)
  seen addr ha := h.seen addr (hcanceller ▸ ha)
  asserts := hasserts

/-- The handle is installed in a word that had none. -/
theorem WordInv.install (h : WordInv s a y) (hy : y = false)
    (hword : s'.continuation = tag c.address s.canceller.marked false)
    (hcanceller : s'.canceller = s.canceller)
    (hasserts : s'.assertFailed = true → s'.awaiter = .continued) :
    WordInv s' c.address false where
  aligned := c.aligned
  word := by rw [hword, hcanceller]
  result hy := by cases hy
  taken hy := by cases hy
  take target ht := by
    obtain ⟨-, -, -, -, hy', -⟩ := h.take target (hcanceller ▸ ht)
    rw [hy] at hy'
    cases hy'
  seen addr ha := h.seen addr (hcanceller ▸ ha)
  asserts := hasserts

theorem WordInv.awaiterStep {token : Token} {spurious : Bool} (h : WordInv s a y)
    (hs : awaiterStep c s token spurious = some s') : ∃ a, WordInv s' a y := by
  have hok (hne : s.awaiter ≠ .continued) {w : Awaiter} :
      s.assertFailed = true → w = .continued := fun hf => by
    rw [h.asserts_ok hne] at hf
    cases hf
  cases hp : s.awaiter with
  | initiated | emitted =>
      simp only [Asio.awaiterStep, hp] at hs
      split at hs <;> cases hs <;>
        exact ⟨a, h.keep rfl (fun hd => hd) rfl (hok (by simp [hp]))⟩
  | token =>
      simp only [Asio.awaiterStep, hp] at hs
      cases token <;> cases hs <;>
        exact ⟨a, h.keep rfl (fun hd => hd) rfl (hok (by simp [hp]))⟩
  | setFast =>
      have hassert : s.assert (getMarker c.address == null) = s := by
        simp [Asio.State.assert, c.aligned]
      simp only [Asio.awaiterStep, hp, hassert] at hs
      split at hs
      · next hnull =>
          cases hs
          obtain ⟨-, hm, hy⟩ := (tag_eq_zero h.aligned).mp (h.word.symm.trans hnull)
          rw [hy]
          refine ⟨c.address, h.install hy ?_ rfl (hok (by simp [hp]))⟩
          rw [hm, tag_false]
      · split at hs <;> cases hs
        · exact ⟨a, h.keep rfl (fun hd => hd) rfl (hok (by simp [hp]))⟩
        · exact ⟨a, h.keep rfl (fun hd => hd) rfl fun _ => rfl⟩
  | setRetry =>
      simp only [Asio.awaiterStep, hp] at hs
      split at hs
      · next hcancel =>
          split at hs <;> cases hs
          · exact ⟨a, h.keep rfl (fun hd => hd) rfl h.asserts⟩
          · obtain ⟨-, hm, hy⟩ := (tag_eq_cancel h.aligned).mp (h.word.symm.trans hcancel)
            rw [hy]
            refine ⟨c.address, h.install hy ?_ rfl (hok (by simp [hp]))⟩
            rw [hm, withMarker_address]
      · cases hs
        exact ⟨a, h.keep rfl (fun hd => hd) rfl fun _ => rfl⟩
  | ready | suspended | continued =>
      simp only [Asio.awaiterStep, hp] at hs
      cases hs

/-- The handler resumes a coroutine only if the word has its handle. -/
theorem WordInv.handlerStep {value : R} {spurious : Bool} (h : WordInv s a y)
    (hs : handlerStep s value spurious = some s') :
    (∃ a' y', WordInv s' a' y' ∧ (a = null → a' = null)) ∧ s'.awaiter = s.awaiter ∧
      s'.canceller = s.canceller ∧ s'.registered = s.registered ∧
      (a = null → s'.resumes = s.resumes) := by
  have hnext (hhandler : s.handler ≠ .done) (x : Option R) (p : Handler) :
      WordInv { s with result := x, handler := p } a y :=
    h.keep rfl (fun hd => absurd hd hhandler) rfl h.asserts
  cases hp : s.handler with
  | pending | stored =>
      simp only [Asio.handlerStep, hp] at hs
      cases hs
      exact ⟨⟨a, y, hnext (by simp [hp]) _ _, id⟩, rfl, rfl, rfl, fun _ => rfl⟩
  | finish addr =>
      simp only [Asio.handlerStep, hp] at hs
      split at hs
      · next hcas =>
          have hword : s.continuation = addr := by
            simp only [Bool.and_eq_true, decide_eq_true_eq] at hcas
            exact hcas.1
          have hy : y = false := by
            by_contra hy
            have := h.result (by simpa using hy)
            rw [hp] at this
            cases this
          have haddr : addr = tag a s.canceller.marked false := by rw [← hword, h.word, hy]
          have hmark : getMarker addr = mark s.canceller.marked false := by
            rw [haddr, getMarker_tag h.aligned]
          -- The address stays in the word only under the cancel mark
          obtain ⟨b, hb, hbnull, htaken, htarget⟩ : ∃ b, getMarker b = null ∧
              (a = null → b = null) ∧ (s.canceller.marked = false → b = null) ∧
              (if getMarker addr &&& MarkerCancel != null then withMarker addr MarkerResult
                else withMarker null MarkerResult) = tag b s.canceller.marked true := by
            rw [hmark, mark_and_cancel]
            cases hm : s.canceller.marked with
            | true =>
                refine ⟨a, h.aligned, id, (fun hf => by cases hf), ?_⟩
                rw [haddr, hm, if_pos rfl, withMarker_result]
            | false =>
                refine ⟨null, getMarker_zero, fun _ => rfl, fun _ => rfl, ?_⟩
                rw [if_neg (by simp), withMarker_null]
          rw [htarget] at hs
          have hbase : WordInv { s with
              continuation := tag b s.canceller.marked true, handler := .done } b true :=
            { aligned := hb
              word := rfl
              result := fun _ => rfl
              taken := fun _ hm hne => absurd (htaken hm) hne
              take := fun target ht => absurd ht (h.not_take (by simp [hp]) target)
              seen := h.seen
              asserts := h.asserts }
          split at hs
          · next hresume =>
              cases hs
              refine ⟨⟨b, true, ?_, hbnull⟩, rfl, rfl, rfl, fun ha => ?_⟩
              · exact hbase.keep rfl (fun hd => hd) rfl hbase.asserts
              · -- Without an address and a marker the word is null
                have hnot : addr ≠ null := by
                  simp only [Bool.and_eq_true, bne_iff_ne] at hresume
                  exact hresume.2
                have hm : mark s.canceller.marked false = null := by
                  simp only [Bool.and_eq_true, decide_eq_true_eq] at hresume
                  exact hmark ▸ hresume.1
                rw [haddr, ha, ((mark_eq_zero _ _).mp hm).1] at hnot
                exact absurd (tag_false null) hnot
          · cases hs
            exact ⟨⟨b, true, hbase, hbnull⟩, rfl, rfl, rfl, fun _ => rfl⟩
      · cases hs
        refine ⟨⟨a, y, ?_, id⟩, rfl, rfl, rfl, fun _ => rfl⟩
        exact h.keep rfl (fun hd => by rw [hp] at hd; cases hd) rfl h.asserts
  | done =>
      simp only [Asio.handlerStep, hp] at hs
      cases hs

/-- The stop callback goes on without changing the word. -/
theorem WordInv.cancel {k : Canceller} (h : WordInv s a y) (hm : k.marked = s.canceller.marked)
    (htaken : y = true → k.marked = false → a = null) (htake : ∀ target, k ≠ .take target)
    (hseen : ∀ addr, k = .finishCas addr → addr = s.continuation ∧ k.marked = true) :
    WordInv { s with canceller := k } a y where
  aligned := h.aligned
  word := by
    show s.continuation = tag a k.marked y
    rw [hm, h.word]
  result := h.result
  taken hy hk hne := absurd (htaken hy hk) hne
  take target ht := absurd ht (htake target)
  seen addr ha := by
    obtain ⟨rfl, hk⟩ := hseen addr ha
    refine ⟨a, y, h.aligned, ?_⟩
    rw [h.word, ← hm, hk]
  asserts := h.asserts

/-- The head of the loop of `begin_cancellation`: there is no marker but that of
    a result, and then no handle. -/
theorem WordInv.beginLoop (h : WordInv s a y) (hm : s.canceller.marked = false)
    (hno : ∀ target, s.canceller ≠ .take target) : WordInv (s.beginLoop s.continuation) a y := by
  have hnull : y = true → a = null := by
    intro hy
    by_contra ha
    obtain ⟨target, ht⟩ := h.taken hy hm ha
    exact hno target ht
  unfold Asio.State.beginLoop
  split
  · exact h.cancel (by rw [hm]; rfl) (fun hy _ => hnull hy) (by simp) (by simp)
  · next hne =>
      have hy : y = false := by
        by_contra hy
        have hy' : y = true := by simpa using hy
        refine hne ?_
        rw [h.word, hm, hnull hy', hy', tag_zero_result]
      have hassert : s.assert (getMarker s.continuation == null) = s := by
        rw [h.word, getMarker_tag h.aligned, hm, hy]
        simp [Asio.State.assert, (mark_eq_zero false false).mpr ⟨rfl, rfl⟩]
      rw [hassert]
      exact h.cancel (by rw [hm]; rfl) (fun hy _ => hnull hy) (by simp) (by simp)

/-- The stop callback resumes a coroutine only after the handler is done, and
    only if the word has its handle. -/
theorem WordInv.cancellerStep {spurious : Bool} (h : WordInv s a y)
    (hs : cancellerStep s spurious = some s') :
    (∃ a' y', WordInv s' a' y' ∧ (a = null → a' = null)) ∧ s'.awaiter = s.awaiter ∧
      s'.registered = s.registered ∧
      (a = null ∨ s.handler ≠ .done → s'.resumes = s.resumes) := by
  cases hp : s.canceller with
  | idle =>
      simp only [Asio.cancellerStep, hp] at hs
      split at hs <;> cases hs
      refine ⟨⟨a, y, h.cancel (by rw [hp]; rfl) (fun hy hm => ?_) (by simp) (by simp), id⟩, rfl, rfl,
        fun _ => rfl⟩
      by_contra ha
      obtain ⟨target, ht⟩ := h.taken hy (by rw [hp]; rfl) ha
      rw [hp] at ht
      cases ht
  | begin =>
      simp only [Asio.cancellerStep, hp] at hs
      cases hs
      have hloop := h.beginLoop (by rw [hp]; rfl) (by simp [hp])
      refine ⟨⟨a, y, hloop, id⟩, ?_, ?_, fun _ => ?_⟩ <;> unfold Asio.State.beginLoop <;> split <;> rfl
  | beginCas addr =>
      simp only [Asio.cancellerStep, hp] at hs
      split at hs <;> cases hs
      · next hcas =>
          have hword : s.continuation = addr := by
            simp only [Bool.and_eq_true, decide_eq_true_eq] at hcas
            exact hcas.1
          have hnew : withMarker addr MarkerCancel = tag a true y := by
            rw [← hword, h.word, withMarker_cancel]
          rw [hnew]
          refine ⟨⟨a, y, ?_, id⟩, rfl, rfl, fun _ => rfl⟩
          exact
            { aligned := h.aligned
              word := rfl
              result := h.result
              taken := fun _ hm => by cases hm
              take := fun target ht => by cases ht
              seen := fun addr ha => by cases ha
              asserts := h.asserts }
      · have hloop := h.beginLoop (by rw [hp]; rfl) (by simp [hp])
        refine ⟨⟨a, y, hloop, id⟩, ?_, ?_, fun _ => ?_⟩ <;> unfold Asio.State.beginLoop <;> split <;> rfl
  | emit =>
      simp only [Asio.cancellerStep, hp] at hs
      cases hs
      exact ⟨⟨a, y, h.cancel (by rw [hp]; rfl) (fun _ hm => by cases hm) (by simp) (by simp), id⟩,
        rfl, rfl, fun _ => rfl⟩
  | finish =>
      simp only [Asio.cancellerStep, hp] at hs
      cases hs
      refine ⟨⟨a, y, h.cancel (by rw [hp]; rfl) (fun _ hm => by cases hm) (by simp) ?_, id⟩,
        rfl, rfl, fun _ => rfl⟩
      rintro addr ha
      cases ha
      exact ⟨rfl, rfl⟩
  | finishCas addr =>
      obtain ⟨b, z, hb, haddr⟩ := h.seen addr hp
      have hassert : s.assert (getMarker addr &&& MarkerCancel != null) = s := by
        rw [haddr, getMarker_tag hb, mark_and_cancel]
        simp [Asio.State.assert]
      simp only [Asio.cancellerStep, hp, hassert] at hs
      split at hs
      · next hcas =>
          have hword : s.continuation = addr := by
            simp only [Bool.and_eq_true, decide_eq_true_eq] at hcas
            exact hcas.1
          have htag : addr = tag a true y := by rw [← hword, h.word, hp]; rfl
          have htarget : withoutMarker addr MarkerCancel = tag a false y := by
            rw [htag, withoutMarker_cancel h.aligned]
          simp only [htarget, getMarker_tag h.aligned, mark_and_result] at hs
          split at hs <;> cases hs
          · next hhandle =>
              obtain ⟨rfl, hne⟩ : y = true ∧ tag a false y ≠ MarkerResult := by
                simpa using hhandle
              have ha : a ≠ null := by
                rintro rfl
                exact hne tag_zero_result
              refine ⟨⟨a, true, ?_, id⟩, rfl, rfl, fun _ => rfl⟩
              exact
                { aligned := h.aligned
                  word := rfl
                  result := h.result
                  taken := fun _ _ _ => ⟨_, rfl⟩
                  take := fun target ht => by
                    cases ht
                    exact ⟨a, h.aligned, ha, rfl, rfl, .inl rfl⟩
                  seen := fun addr ha => by cases ha
                  asserts := h.asserts }
          · next hhandle =>
              refine ⟨⟨a, y, ?_, id⟩, rfl, rfl, fun _ => rfl⟩
              exact
                { aligned := h.aligned
                  word := rfl
                  result := h.result
                  taken := fun hy _ ha => by
                    refine absurd ?_ hhandle
                    rw [hy]
                    simpa [tag_eq_result h.aligned] using ha
                  take := fun target ht => by cases ht
                  seen := fun addr ha => by cases ha
                  asserts := h.asserts }
      · cases hs
        refine ⟨⟨a, y, h.cancel (by rw [hp]; rfl) (fun _ hm => by cases hm) (by simp) ?_, id⟩,
          rfl, rfl, fun _ => rfl⟩
        rintro addr' ha
        cases ha
        exact ⟨rfl, rfl⟩
  | take target =>
      obtain ⟨b, hb, hbne, htarget, hy, hab⟩ := h.take target hp
      have hword : s.continuation = tag a false y := by rw [h.word, hp]; rfl
      simp only [Asio.cancellerStep, hp] at hs
      split at hs <;> cases hs
      · next hcas =>
          have ha : a = b := by
            rw [hword, htarget, tag_inj h.aligned hb] at hcas
            exact hcas.1
          have hassert : getMarker (withoutMarker target MarkerResult) = null := by
            rw [htarget, withoutMarker_result hb, tag_false, hb]
          refine ⟨⟨null, false, ?_, fun _ => rfl⟩, rfl, rfl, ?_⟩
          · exact
              { aligned := getMarker_zero
                word := (tag_false null).symm
                result := fun hf => by cases hf
                taken := fun hf => by cases hf
                take := fun target ht => by cases ht
                seen := fun addr ha => by cases ha
                asserts := fun hf => h.asserts (by
                  simpa [Asio.State.assert, Asio.State.resume, hassert] using hf) }
          · rintro (hnull | hhandler)
            · exact absurd (ha.symm.trans hnull) hbne
            · exact absurd (h.result hy) hhandler
      · next hcas =>
          refine ⟨⟨a, y, ?_, id⟩, rfl, rfl, fun _ => rfl⟩
          refine h.cancel (by rw [hp]; rfl) (fun _ _ => hab.resolve_left fun ha => hcas ?_) (by simp)
            (by simp)
          rw [hword, htarget, ha, hy]
  | done =>
      simp only [Asio.cancellerStep, hp] at hs
      cases hs

end Word

-- ============================================================================
-- The destructor
-- ============================================================================

structure Inv {R : Type*} (s : State R) (a : Ptr) (y : Bool) : Prop where
  base : WordInv s.base a y
  busy : s.destroyer ≠ .none → s.base.awaiter = .suspended ∧ s.base.resumes = []
  cleared : s.destroyer.cleared = true → a = null
  gone : s.destroyer = .gone → s.base.registered = false ∧
    (s.same = true ∨ s.base.canceller = .idle ∨ s.base.canceller = .done)

section Destructor

variable {R : Type*} {s s' : State R} {a : Ptr} {y : Bool} {c : Handle}

/-- A stop callback that is not registered and not running does nothing. -/
theorem Inv.canceller_rests (h : Inv s a y) (hd : s.destroyer = .gone) (hsame : s.same = false)
    (spurious : Bool) : cancellerStep s.base spurious = none := by
  obtain ⟨hreg, hrest⟩ := h.gone hd
  rw [hsame] at hrest
  rcases hrest with hf | hp | hp
  · cases hf
  · simp [cancellerStep, hp, hreg]
  · simp [cancellerStep, hp]

theorem Inv.step_handler {b : Asio.State R} {value : R} {spurious : Bool} (h : Inv s a y)
    (hok : s.destroyer.clearing = false) (hs : handlerStep s.base value spurious = some b) :
    ∃ a y, Inv { s with base := b } a y := by
  obtain ⟨⟨a', y', hbase, hnull⟩, hawaiter, hcanceller, hreg, hres⟩ := h.base.handlerStep hs
  refine ⟨a', y', hbase, fun hd => ?_, fun hd => hnull (h.cleared hd), fun hd => ?_⟩
  · obtain ⟨hsusp, hnone⟩ := h.busy hd
    have hcleared : s.destroyer.cleared = true := by
      cases hp : s.destroyer with
      | none => exact absurd hp hd
      | load | cas => rw [hp] at hok; cases hok
      | unset | gone => rfl
    exact ⟨hawaiter.trans hsusp, (hres (h.cleared hcleared)).trans hnone⟩
  · show b.registered = false ∧ (s.same = true ∨ b.canceller = .idle ∨ b.canceller = .done)
    rw [hreg, hcanceller]
    exact h.gone hd

theorem Inv.step_canceller {b : Asio.State R} {spurious : Bool} (h : Inv s a y)
    (hok : s.destroyer.clearing = true → s.base.handler ≠ .done)
    (hs : cancellerStep s.base spurious = some b) : ∃ a y, Inv { s with base := b } a y := by
  obtain ⟨⟨a', y', hbase, hnull⟩, hawaiter, hreg, hres⟩ := h.base.cancellerStep hs
  refine ⟨a', y', hbase, fun hd => ?_, fun hd => hnull (h.cleared hd), fun hd => ?_⟩
  · obtain ⟨hsusp, hnone⟩ := h.busy hd
    have hquiet : a = null ∨ s.base.handler ≠ .done := by
      cases hp : s.destroyer with
      | none => exact absurd hp hd
      | load | cas => exact .inr (hok (by rw [hp]; rfl))
      | unset | gone => exact .inl (h.cleared (by rw [hp]; rfl))
    exact ⟨hawaiter.trans hsusp, (hres hquiet).trans hnone⟩
  · refine ⟨hreg.trans (h.gone hd).1, .inl ?_⟩
    by_contra hsame
    rw [h.canceller_rests hd (by simpa using hsame)] at hs
    cases hs

/-- The loop of `unset_continuation` ends when there is no handle. -/
theorem Inv.unsetLoop (h : Inv s a y) (hd : s.destroyer.clearing = true) :
    Inv (s.unsetLoop s.base.continuation) a y := by
  have hbusy := h.busy (by rintro hp; rw [hp] at hd; cases hd)
  unfold State.unsetLoop
  split
  · next hword =>
      refine ⟨h.base, fun _ => hbusy, fun _ => ?_, fun hp => by cases hp⟩
      have htarget : withMarker null (getMarker s.base.continuation) =
          tag null s.base.canceller.marked y := by
        rw [h.base.word, getMarker_tag h.base.aligned]
        rfl
      rw [htarget, h.base.word, tag_inj h.base.aligned getMarker_zero] at hword
      exact hword.1
  · exact ⟨h.base, fun _ => hbusy, (fun hp => by cases hp), fun hp => by cases hp⟩

/-- The handle is taken out of the word, and the markers stay. -/
theorem WordInv.unset {s : Asio.State R} (h : WordInv s a y) :
    WordInv { s with continuation := withMarker null (getMarker s.continuation) } null y where
  aligned := getMarker_zero
  word := by
    show withMarker null (getMarker s.continuation) = tag null s.canceller.marked y
    rw [h.word, getMarker_tag h.aligned]
    rfl
  result := h.result
  taken _ _ hne := absurd rfl hne
  take target ht := by
    obtain ⟨b, hb, hne, htarget, hy, -⟩ := h.take target ht
    exact ⟨b, hb, hne, htarget, hy, .inr rfl⟩
  seen := h.seen
  asserts := h.asserts

theorem Inv.step_destroyer {spurious : Bool} (h : Inv s a y)
    (hs : stepDestroyer s spurious = some s') : ∃ a y, Inv s' a y := by
  cases hp : s.destroyer with
  | load =>
      simp only [stepDestroyer, hp] at hs
      cases hs
      exact ⟨a, y, h.unsetLoop (by rw [hp]; rfl)⟩
  | cas addr =>
      simp only [stepDestroyer, hp] at hs
      split at hs <;> cases hs
      · next hcas =>
          have hword : s.base.continuation = addr := by
            simp only [Bool.and_eq_true, decide_eq_true_eq] at hcas
            exact hcas.1
          rw [← hword]
          refine ⟨null, y, h.base.unset, fun _ => h.busy (by simp [hp]), fun _ => rfl, ?_⟩
          exact fun hg => by cases hg
      · exact ⟨a, y, h.unsetLoop (by rw [hp]; rfl)⟩
  | unset =>
      simp only [stepDestroyer, hp] at hs
      split at hs <;> cases hs
      next hrest =>
        have hbase : WordInv { s.base with registered := false } a y :=
          h.base.keep rfl id rfl h.base.asserts
        refine ⟨a, y, hbase, fun _ => h.busy (by simp [hp]),
          fun _ => h.cleared (by rw [hp]; rfl), fun _ => ⟨rfl, ?_⟩⟩
        simpa [or_assoc] using hrest
  | none | gone =>
      simp only [stepDestroyer, hp] at hs
      cases hs

theorem step_inv {act : Act R} (h : Inv s a y) (hok : Careful s act)
    (hs : (awaitDestroy c).step s act = some s') : ∃ a y, Inv s' a y := by
  cases act with
  | base b =>
      obtain ⟨hallow, hs⟩ := Option.ite_none_right_eq_some.mp hs
      obtain ⟨x, hx, rfl⟩ := Option.map_eq_some_iff.mp hs
      cases b with
      | awaiter token spurious =>
          have hd : s.destroyer = .none := by simpa [State.allows] using hallow
          obtain ⟨a', hbase⟩ := h.base.awaiterStep hx
          refine ⟨a', y, hbase, fun hne => absurd hd hne, fun hc => ?_, fun hg => ?_⟩
          · have hc' : s.destroyer.cleared = true := hc
            rw [hd] at hc'
            cases hc'
          · have hg' : s.destroyer = .gone := hg
            rw [hd] at hg'
            cases hg'
      | handler value spurious => exact h.step_handler hok hx
      | canceller spurious => exact h.step_canceller hok hx
  | destroy same =>
      obtain ⟨⟨-, hsusp, hnone, -⟩, hs⟩ := Option.ite_none_right_eq_some.mp hs
      cases hs
      exact ⟨a, y, h.base, fun _ => ⟨hsusp, hnone⟩, (fun hc => by cases hc), fun hg => by cases hg⟩
  | step spurious => exact h.step_destroyer hs

theorem reachable_inv (h : (awaitDestroy c).ReachableIf Careful s) : ∃ a y, Inv s a y := by
  refine System.ReachableIf.invariant (I := fun s => ∃ a y, Inv s a y) (fun s hs => ?_)
    (fun s act s' hi hok hs => ?_) h
  · cases hs
    exact ⟨null, false, wordInv_start, fun hne => absurd rfl hne, (fun hc => by cases hc),
      fun hg => by cases hg⟩
  · obtain ⟨a, y, hi⟩ := hi
    exact step_inv hi hok hs

-- ============================================================================
-- Main result
-- ============================================================================

/-- The handler finishes under the cancel mark, and the coroutine is destroyed
    when the cancellation is about to take its handle. -/
def cancelledLate : List (Act Unit) :=
  [.base (.awaiter .armed false), .base (.awaiter .armed false), .base (.awaiter .armed false),
   .base (.canceller false), .base (.canceller false), .base (.canceller false),
   .base (.handler () false), .base (.handler () false), .base (.handler () false),
   .base (.canceller false), .base (.canceller false), .base (.canceller false),
   .destroy false, .base (.canceller false)]

/-- **Destruction.**  A coroutine whose destruction has begun is not resumed any
    more, no assertion fails, and no handle is left in the word.  When the
    destructor has returned the stop callback does nothing more, unless its
    thread is the one that called the destructor.  The handler may run before
    and after, and a cancellation at any time; but one that finds the handler
    done may resume the coroutine while it is destroyed, even if the handler
    does not run concurrently. -/
theorem destroyed_not_resumed :
    (∀ (c : Handle) (s : State R), (awaitDestroy c).ReachableIf Careful s → s.destroyer ≠ .none →
      s.base.resumes = [] ∧ s.base.assertFailed = false ∧
        (s.destroyer.cleared = true → s.base.continuation &&& ~~~MarkerMask = null) ∧
        (s.destroyer = .gone → s.same = false →
          ∀ spurious, cancellerStep s.base spurious = none)) ∧
    ∃ s : State Unit, (awaitDestroy frame16).Reachable s ∧ s.destroyer.clearing = true ∧
      s.base.handler = .done ∧ s.base.resumes = [.byCanceller frame16.address] := by
  refine ⟨fun c s hr hd => ?_, ?_⟩
  · obtain ⟨a, y, h⟩ := reachable_inv hr
    obtain ⟨hsusp, hnone⟩ := h.busy hd
    refine ⟨hnone, h.base.asserts_ok (by simp [hsusp]), fun hc => ?_, h.canceller_rests⟩
    rw [h.base.word, tag_clear h.base.aligned, h.cleared hc]
  · obtain ⟨s, hr, hp⟩ := System.exists_reachable_of_run (M := awaitDestroy frame16)
      (s := ⟨Asio.State.start, .none, false⟩) cancelledLate
      (fun s => s.destroyer.clearing && s.base.handler = .done &&
        s.base.resumes = [.byCanceller frame16.address]) rfl (by decide)
    simp only [Bool.and_eq_true, decide_eq_true_eq] at hp
    exact ⟨s, hr, hp.1.1, hp.1.2, hp.2⟩

end Destructor

end Coroactors.Asio.Destroy
