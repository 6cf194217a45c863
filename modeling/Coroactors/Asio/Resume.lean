/-
  Coroactors.Asio.Resume

  Who resumes a coroutine that awaits an asio operation.

  The word of `asio_continuation` is read through `tag`: an aligned address
  with a cancel bit and a result bit.  `Inv` says which word belongs to which
  combination of the three parties' positions; it is kept by every step whose
  compare-exchange in `set_continuation` does not run into one of the two
  values the source forgets:

    * `MarkerCancel | MarkerResult`: the handler finished under the cancel
      mark, before a continuation was installed;
    * null on a retry: the cancellation ended between the failed first
      compare-exchange and the retry.

  Both make `set_continuation` return false.  The first does so while the
  cancel mark is still set, the second without any result.
-/

import Coroactors.Asio.Continuation
import Mathlib.Tactic.Common

namespace Coroactors.Asio

open Coroactors.Conc

-- ============================================================================
-- Tagged pointers
-- ============================================================================

/-- The marker bits alone. -/
def mark (cancel result : Bool) : Ptr :=
  (if cancel then MarkerCancel else null) ||| (if result then MarkerResult else null)

/-- The address `a` with the given markers. -/
def tag (a : Ptr) (cancel result : Bool) : Ptr := a ||| mark cancel result

theorem mark_inj : ∀ {x y x' y' : Bool}, mark x y = mark x' y' → x = x' ∧ y = y' := by
  decide

theorem and_not_or_and (a m : Ptr) : (a &&& ~~~m) ||| (a &&& m) = a := by
  rw [← BitVec.and_or_distrib_left, BitVec.not_or_self, BitVec.and_allOnes]

theorem getMarker_tag {a : Ptr} (ha : getMarker a = null) (x y : Bool) :
    getMarker (tag a x y) = mark x y := by
  have hm : ∀ x y, getMarker (mark x y) = mark x y := by decide
  calc getMarker (tag a x y) = getMarker a ||| getMarker (mark x y) :=
        BitVec.and_or_distrib_right
    _ = mark x y := by simp [ha, hm, null]

/-- The address comes back by clearing the marker bits. -/
theorem tag_clear {a : Ptr} (ha : getMarker a = null) (x y : Bool) :
    tag a x y &&& ~~~MarkerMask = a := by
  have hm : ∀ x y, mark x y &&& ~~~MarkerMask = null := by decide
  calc tag a x y &&& ~~~MarkerMask = (a &&& ~~~MarkerMask) ||| (mark x y &&& ~~~MarkerMask) :=
        BitVec.and_or_distrib_right
    _ = (a &&& ~~~MarkerMask) ||| (a &&& MarkerMask) := by
        rw [hm, show a &&& MarkerMask = null from ha]
    _ = a := and_not_or_and a MarkerMask

theorem tag_inj {a b : Ptr} (ha : getMarker a = null) (hb : getMarker b = null) {x y u v : Bool} :
    tag a x y = tag b u v ↔ a = b ∧ x = u ∧ y = v := by
  constructor
  · intro h
    refine ⟨by rw [← tag_clear ha x y, h, tag_clear hb], mark_inj ?_⟩
    rw [← getMarker_tag ha, h, getMarker_tag hb]
  · rintro ⟨rfl, rfl, rfl⟩
    rfl

theorem withMarker_cancel (a : Ptr) (x y : Bool) :
    withMarker (tag a x y) MarkerCancel = tag a true y := by
  have hm : ∀ x y, mark x y ||| MarkerCancel = mark true y := by decide
  rw [withMarker, tag, BitVec.or_assoc, hm, tag]

theorem withMarker_result (a : Ptr) (x y : Bool) :
    withMarker (tag a x y) MarkerResult = tag a x true := by
  have hm : ∀ x y, mark x y ||| MarkerResult = mark x true := by decide
  rw [withMarker, tag, BitVec.or_assoc, hm, tag]

/-- An aligned address has none of the bits of the mask. -/
theorem and_not_of_aligned {a m : Ptr} (ha : getMarker a = null) (hm : m &&& MarkerMask = m) :
    a &&& ~~~m = a := by
  have hbits : a &&& m = 0 := by
    rw [← hm, BitVec.and_comm m, ← BitVec.and_assoc, show a &&& MarkerMask = 0 from ha]
    simp
  calc a &&& ~~~m = (a &&& ~~~m) ||| (a &&& m) := by simp [hbits]
    _ = a := and_not_or_and a m

theorem withoutMarker_tag {a m : Ptr} (ha : getMarker a = null) (hm : m &&& MarkerMask = m)
    (x y : Bool) : withoutMarker (tag a x y) m = a ||| (mark x y &&& ~~~m) := by
  calc withoutMarker (tag a x y) m = (a &&& ~~~m) ||| (mark x y &&& ~~~m) :=
        BitVec.and_or_distrib_right
    _ = a ||| (mark x y &&& ~~~m) := by rw [and_not_of_aligned ha hm]

theorem withoutMarker_cancel {a : Ptr} (ha : getMarker a = null) (x y : Bool) :
    withoutMarker (tag a x y) MarkerCancel = tag a false y := by
  have hm : ∀ x y, mark x y &&& ~~~MarkerCancel = mark false y := by decide
  rw [withoutMarker_tag ha (by decide), hm, tag]

theorem withoutMarker_result {a : Ptr} (ha : getMarker a = null) (x y : Bool) :
    withoutMarker (tag a x y) MarkerResult = tag a x false := by
  have hm : ∀ x y, mark x y &&& ~~~MarkerResult = mark x false := by decide
  rw [withoutMarker_tag ha (by decide), hm, tag]

@[simp] theorem getMarker_zero : getMarker null = null := by decide

theorem tag_false (a : Ptr) : tag a false false = a := by
  simp [tag, mark, null]

theorem tag_eq_zero {a : Ptr} (ha : getMarker a = null) {x y : Bool} :
    tag a x y = null ↔ a = null ∧ x = false ∧ y = false :=
  tag_inj (b := null) (u := false) (v := false) ha getMarker_zero

theorem tag_eq_cancel {a : Ptr} (ha : getMarker a = null) {x y : Bool} :
    tag a x y = MarkerCancel ↔ a = null ∧ x = true ∧ y = false :=
  tag_inj (b := null) (u := true) (v := false) ha getMarker_zero

theorem tag_eq_result {a : Ptr} (ha : getMarker a = null) {x y : Bool} :
    tag a x y = MarkerResult ↔ a = null ∧ x = false ∧ y = true :=
  tag_inj (b := null) (u := false) (v := true) ha getMarker_zero

theorem tag_eq_cancelResult {a : Ptr} (ha : getMarker a = null) {x y : Bool} :
    tag a x y = withMarker MarkerCancel MarkerResult ↔ a = null ∧ x = true ∧ y = true :=
  tag_inj (b := null) (u := true) (v := true) ha getMarker_zero

theorem tag_zero_result : tag null false true = MarkerResult := by decide

theorem withMarker_address (a : Ptr) : withMarker a MarkerCancel = tag a true false := by
  rw [← withMarker_cancel a false false, tag_false]

theorem withMarker_null : withMarker null MarkerResult = tag null false true := by
  rw [← withMarker_result null false false, tag_false]

/-- Whether a marker word has the cancel bit. -/
theorem mark_and_cancel : ∀ x y : Bool, (mark x y &&& MarkerCancel != null) = x := by decide

theorem mark_and_result : ∀ x y : Bool, (mark x y &&& MarkerResult != null) = y := by decide

theorem mark_eq_zero : ∀ x y : Bool, mark x y = null ↔ x = false ∧ y = false := by decide

-- ============================================================================
-- The invariant
-- ============================================================================

section Invariant

variable {R : Type*} {c : Handle} {s s' : State R}

/-- The stop callback is between setting and clearing the cancel mark. -/
def Canceller.marked : Canceller → Bool
  | .emit | .finish | .finishCas _ => true
  | _ => false

/-- The handler has published its result. -/
def Handler.finished : Handler → Bool
  | .done => true
  | _ => false

/-- The address part of the word while nobody has resumed the coroutine. -/
def installed (c : Handle) : Awaiter → Ptr
  | .suspended => c.address
  | _ => null

/-- The word while nobody has resumed the coroutine: it shows exactly what the
    three parties have done. -/
def State.word (c : Handle) (s : State R) : Ptr :=
  tag (installed c s.awaiter) s.canceller.marked s.handler.finished

/-- The state of an await in which at most one party resumes the coroutine. -/
structure Inv (c : Handle) (s : State R) : Prop where
  assertOk : s.assertFailed = false
  markOk : s.underCancel = false
  stored : s.handler ≠ .pending → s.result.isSome
  -- The values a party remembers between a load and its compare-exchange
  beginCas : ∀ a, s.canceller = .beginCas a → a = null ∨ a = c.address
  finishCas : ∀ a, s.canceller = .finishCas a →
    ∃ b y, (b = null ∨ b = c.address) ∧ a = tag b true y
  take : ∀ a, s.canceller = .take a → a = tag c.address false true ∧
    s.awaiter = .suspended ∧ s.handler.finished = true ∧ s.resumes = []
  continued : s.awaiter = .continued → s.resumes = [.inline]
  -- The four stages of the run
  resumes : (s.resumes = [] ∧ s.continuation = s.word c ∧
      (s.awaiter = .suspended → s.handler.finished = true →
        s.canceller.marked ∨ ∃ a, s.canceller = .take a)) ∨
    (s.resumes = [.inline] ∧ s.awaiter = .continued ∧ s.handler.finished = true ∧
      s.canceller.marked = false ∧ s.continuation = MarkerResult) ∨
    (s.resumes = [.byHandler c.address] ∧ s.awaiter = .suspended ∧ s.handler.finished = true ∧
      s.canceller.marked = false ∧ s.continuation = MarkerResult) ∨
    (s.resumes = [.byCanceller c.address] ∧ s.awaiter = .suspended ∧ s.handler.finished = true ∧
      s.canceller = .done ∧ s.continuation = null)

-- From here on the words are only read through the lemmas above
attribute [local irreducible] tag mark getMarker withMarker withoutMarker MarkerCancel
  MarkerResult null

/-- The address part of the word is aligned. -/
theorem getMarker_installed (c : Handle) (a : Awaiter) : getMarker (installed c a) = null := by
  cases a <;> simp [installed, c.aligned]

theorem installed_cases (c : Handle) (a : Awaiter) :
    installed c a = null ∨ installed c a = c.address := by
  cases a <;> simp [installed]

theorem installed_eq_null {c : Handle} {a : Awaiter} (h : a ≠ .suspended) :
    installed c a = null := by
  cases a <;> simp_all [installed]

theorem start_inv (c : Handle) : Inv c (State.start : State R) := by
  constructor <;> simp [State.start, State.word, installed, Canceller.marked,
    Handler.finished, tag_false]

-- ============================================================================
-- What the word is at each party's position
-- ============================================================================

/-- Before a continuation is installed the word is one of four markers. -/
theorem Inv.word_of_setting (h : Inv c s) (h1 : s.awaiter ≠ .suspended)
    (h2 : s.awaiter ≠ .continued) :
    s.resumes = [] ∧ s.continuation = tag null s.canceller.marked s.handler.finished := by
  rcases h.resumes with h | h | h | h
  · refine ⟨h.1, ?_⟩
    rw [h.2.1, State.word, installed_eq_null h1]
  · exact absurd h.2.1 h2
  · exact absurd h.2.1 h1
  · exact absurd h.2.1 h1

/-- Until the handler has finished nobody has resumed the coroutine. -/
theorem Inv.word_of_unfinished (h : Inv c s) (hf : s.handler.finished = false) :
    s.resumes = [] ∧ s.continuation = tag (installed c s.awaiter) s.canceller.marked false := by
  rcases h.resumes with h | h | h | h
  · refine ⟨h.1, ?_⟩
    rw [h.2.1, State.word, hf]
  all_goals simp [hf] at h

/-- While the cancel mark is set nobody has resumed the coroutine. -/
theorem Inv.word_of_marked (h : Inv c s) (hm : s.canceller.marked = true) :
    s.resumes = [] ∧ s.continuation = tag (installed c s.awaiter) true s.handler.finished := by
  rcases h.resumes with h | h | h | h
  · refine ⟨h.1, ?_⟩
    rw [h.2.1, State.word, hm]
  · simp [hm] at h
  · simp [hm] at h
  · simp [h.2.2.2.1, Canceller.marked] at hm

/-- Before the stop callback has set its mark: the result is published, or the
    word is the bare address. -/
theorem Inv.word_of_begin (h : Inv c s)
    (hc : s.canceller = .begin ∨ ∃ a, s.canceller = .beginCas a) :
    s.continuation = MarkerResult ∨
      (s.resumes = [] ∧ s.handler.finished = false ∧ s.continuation = installed c s.awaiter) := by
  have hm : s.canceller.marked = false := by
    rcases hc with hc | ⟨a, hc⟩ <;> simp [hc, Canceller.marked]
  have ht : ¬ ∃ a, s.canceller = .take a := by
    rintro ⟨a, ha⟩
    rcases hc with hc | ⟨b, hc⟩ <;> simp [hc] at ha
  rcases h.resumes with h | h | h | h
  · obtain ⟨hr, hw, hp⟩ := h
    cases hf : s.handler.finished
    · refine .inr ⟨hr, rfl, ?_⟩
      rw [hw, State.word, hm, hf, tag_false]
    · have hi : s.awaiter ≠ .suspended := by
        intro hi
        rcases hp hi hf with h | h
        · simp [hm] at h
        · exact ht h
      left
      rw [hw, State.word, installed_eq_null hi, hm, hf, tag_zero_result]
  · exact .inl h.2.2.2.2
  · exact .inl h.2.2.2.2
  · rcases hc with hc | ⟨a, hc⟩ <;> simp [hc] at h

-- ============================================================================
-- Every step that meets the condition keeps the invariant
-- ============================================================================

/-- `set_continuation` does not run into a value it has no branch for: neither
    of its compare-exchanges finds `MarkerCancel | MarkerResult`, and a retry
    does not find null. -/
def SetOk (s : State R) : Act R → Prop
  | .awaiter _ _ =>
      (s.awaiter = .setFast → s.continuation ≠ withMarker MarkerCancel MarkerResult) ∧
      (s.awaiter = .setRetry →
        s.continuation ≠ null ∧ s.continuation ≠ withMarker MarkerCancel MarkerResult)
  | _ => True

theorem assert_true (s : State R) : s.assert true = s := by
  simp [State.assert]

/-- The awaiter moves on before it is suspended, or installs its continuation. -/
theorem Inv.await (h : Inv c s) (h1 : s.awaiter ≠ .suspended) (h2 : s.awaiter ≠ .continued)
    (a : Awaiter) (w : Ptr) (r : Bool) (ha : a ≠ .continued)
    (hw : w = tag (installed c a) s.canceller.marked s.handler.finished)
    (hf : a = .suspended → s.handler.finished = false) :
    Inv c { s with awaiter := a, continuation := w, registered := r } := by
  refine ⟨h.assertOk, h.markOk, h.stored, h.beginCas, h.finishCas, ?_, fun hc => absurd hc ha,
    .inl ⟨(h.word_of_setting h1 h2).1, hw, ?_⟩⟩
  · intro b hb
    exact absurd (h.take b hb).2.1 h1
  · intro hs hfin
    rw [hf hs] at hfin
    cases hfin

/-- `set_continuation` returns false: only the handler's mark is in the word. -/
theorem Inv.setFailed (h : Inv c s) (h1 : s.awaiter ≠ .suspended) (h2 : s.awaiter ≠ .continued)
    (hres : s.continuation = MarkerResult) : Inv c (s.setFailed s.continuation) := by
  obtain ⟨hr, hw⟩ := h.word_of_setting h1 h2
  obtain ⟨-, hm, hf⟩ := (tag_eq_result getMarker_zero).mp (hw.symm.trans hres)
  have hmark : (getMarker s.continuation &&& MarkerCancel != null) = false := by
    rw [hw, hm, getMarker_tag getMarker_zero, mark_and_cancel]
  refine ⟨?_, ?_, h.stored, h.beginCas, h.finishCas, ?_, ?_, .inr (.inl ⟨?_, rfl, hf, hm, hres⟩)⟩
  · simp [State.setFailed, State.resume, State.assert, h.assertOk, hres]
  · simp [State.setFailed, State.resume, State.assert, h.markOk, hmark]
  · intro b hb
    exact absurd (h.take b hb).2.1 h1
  · intro _
    simp [State.setFailed, State.resume, State.assert, hr]
  · simp [State.setFailed, State.resume, State.assert, hr]

/-- The word of an awaiter that is not suspended is one of the four markers. -/
theorem Inv.word_cases (h : Inv c s) (h1 : s.awaiter ≠ .suspended) (h2 : s.awaiter ≠ .continued) :
    s.continuation = null ∨ s.continuation = MarkerCancel ∨ s.continuation = MarkerResult ∨
      s.continuation = withMarker MarkerCancel MarkerResult := by
  rw [(h.word_of_setting h1 h2).2, tag_eq_zero getMarker_zero, tag_eq_cancel getMarker_zero,
    tag_eq_result getMarker_zero, tag_eq_cancelResult getMarker_zero]
  cases s.canceller.marked <;> cases s.handler.finished <;> simp

theorem awaiterStep_inv {token : Token} {sp : Bool} (h : Inv c s)
    (hok : SetOk s (.awaiter token sp)) (hs : awaiterStep c s token sp = some s') :
    Inv c s' := by
  -- A step from one place before the installation to another
  have hmove (a : Awaiter) (r : Bool) (h1 : s.awaiter ≠ .suspended) (h2 : s.awaiter ≠ .continued)
      (ha : a ≠ .suspended) (ha' : a ≠ .continued) :
      Inv c { s with awaiter := a, registered := r } :=
    h.await h1 h2 a s.continuation r ha'
      (by rw [installed_eq_null ha]; exact (h.word_of_setting h1 h2).2) fun hs => absurd hs ha
  cases hp : s.awaiter <;> simp only [awaiterStep, hp] at hs
  case initiated | token | emitted =>
    have h1 : s.awaiter ≠ .suspended := by rw [hp]; nofun
    have h2 : s.awaiter ≠ .continued := by rw [hp]; nofun
    split at hs <;> cases hs <;> exact hmove _ _ h1 h2 nofun nofun
  case setFast =>
    have h1 : s.awaiter ≠ .suspended := by rw [hp]; nofun
    have h2 : s.awaiter ≠ .continued := by rw [hp]; nofun
    rw [c.aligned, beq_self_eq_true, assert_true] at hs
    split at hs
    next hnull =>
      obtain ⟨-, hm, hf⟩ :=
        (tag_eq_zero getMarker_zero).mp ((h.word_of_setting h1 h2).2.symm.trans hnull)
      cases hs
      exact h.await h1 h2 .suspended c.address s.registered nofun
        (by rw [hm, hf, tag_false, installed]) fun _ => hf
    next hnull =>
      split at hs <;> cases hs
      · exact hmove .setRetry _ h1 h2 nofun nofun
      next hcancel =>
        refine h.setFailed h1 h2 (((h.word_cases h1 h2).resolve_left hnull).resolve_left
          hcancel |>.resolve_right (hok.1 hp))
  case setRetry =>
    have h1 : s.awaiter ≠ .suspended := by rw [hp]; nofun
    have h2 : s.awaiter ≠ .continued := by rw [hp]; nofun
    split at hs
    next hcancel =>
      split at hs <;> cases hs
      · exact h
      · obtain ⟨-, hm, hf⟩ :=
          (tag_eq_cancel getMarker_zero).mp ((h.word_of_setting h1 h2).2.symm.trans hcancel)
        exact h.await h1 h2 .suspended _ s.registered nofun
          (by rw [hm, hf, installed, withMarker_address]) fun _ => hf
    next hcancel =>
      cases hs
      refine h.setFailed h1 h2 (((h.word_cases h1 h2).resolve_left (hok.2 hp).1).resolve_left
        hcancel |>.resolve_right (hok.2 hp).2)
  case ready | suspended | continued => cases hs

theorem handlerStep_inv {v : R} {sp : Bool} (h : Inv c s)
    (hs : handlerStep s v sp = some s') : Inv c s' := by
  have hw := h.word_of_unfinished
  obtain ⟨h1, h2, h3, h4, h5, h6, h7, h8⟩ := h
  cases hp : s.handler <;> simp only [handlerStep, hp] at hs
  case pending | stored =>
    cases hs
    constructor <;> simp_all [State.word, installed, Handler.finished]
  case finish addr =>
    by_cases hc : (s.continuation = addr && !sp) = true
    · obtain ⟨hr, hword⟩ := hw (by simp [hp, Handler.finished])
      obtain ⟨rfl, rfl⟩ : s.continuation = addr ∧ sp = false := by simpa using hc
      have ha := getMarker_installed c s.awaiter
      simp only [hword, getMarker_tag ha, mark_and_cancel, mark_eq_zero,
        withMarker_result, withMarker_null, State.resume] at hs
      -- By the mark and by whether a continuation is installed
      cases hm : s.canceller.marked <;> by_cases hi : s.awaiter = .suspended
      all_goals
        simp [hm, hi, installed, tag_false, getMarker_tag, mark_and_cancel,
          c.ne_null] at hs
        cases hs
        constructor <;> simp_all [State.word, installed, Handler.finished,
          tag_zero_result]
    · simp [hc] at hs
      cases hs
      constructor <;> simp_all [State.word, installed, Handler.finished]
  case done => cases hs

theorem beginLoop_inv (h : Inv c s)
    (hc : s.canceller = .begin ∨ ∃ a, s.canceller = .beginCas a) :
    Inv c (s.beginLoop s.continuation) := by
  have hm : s.canceller.marked = false := by
    rcases hc with hc | ⟨a, hc⟩ <;> simp [hc, Canceller.marked]
  have ht : ∀ a, s.canceller ≠ .take a := by
    rcases hc with hc | ⟨a, hc⟩ <;> simp [hc]
  have hd : s.canceller ≠ .done := by
    rcases hc with hc | ⟨a, hc⟩ <;> simp [hc]
  have ha := getMarker_installed c s.awaiter
  have hw := h.word_of_begin hc
  have hi := installed_cases c s.awaiter
  obtain ⟨h1, h2, h3, h4, h5, h6, h7, h8⟩ := h
  clear hc
  unfold State.beginLoop
  by_cases hres : s.continuation = MarkerResult
  · simp only [hres, if_true]
    constructor <;> simp_all [State.word, Canceller.marked]
    grind
  · obtain ⟨hr, hf, hword⟩ := hw.resolve_left hres
    rw [if_neg hres]
    simp only [State.assert, hword, ha]
    exact ⟨by simp [h1], h2, h3, by simp [hi], by simp, by simp, h7,
      .inl ⟨hr, by simp [State.word, Canceller.marked, hf, tag_false], by simp [hf]⟩⟩

/-- The address of a handle is none of the markers. -/
theorem address_ne_result (c : Handle) : c.address ≠ MarkerResult := by
  intro h
  have := (tag_eq_result (x := false) (y := false) c.aligned).mp (by rw [tag_false, h])
  simp at this

theorem null_ne_result : null ≠ MarkerResult := by
  intro h
  have := (tag_eq_result (a := null) (x := false) (y := false) getMarker_zero).mp
    (by rw [tag_false, h])
  simp at this

theorem cancellerStep_inv {sp : Bool} (h : Inv c s)
    (hs : cancellerStep s sp = some s') : Inv c s' := by
  have hb := h.word_of_begin
  have hw := h.word_of_marked
  have ha := getMarker_installed c s.awaiter
  have hbl := beginLoop_inv h
  obtain ⟨h1, h2, h3, h4, h5, h6, h7, h8⟩ := h
  cases hp : s.canceller <;> simp only [cancellerStep, hp] at hs
  case idle =>
    split at hs <;> cases hs
    constructor <;> simp_all [State.word, Canceller.marked]
  case begin =>
    cases hs
    exact hbl (.inl hp)
  case beginCas addr =>
    by_cases hc : (s.continuation = addr && !sp) = true
    · obtain ⟨rfl, rfl⟩ : s.continuation = addr ∧ sp = false := by simpa using hc
      have hne : s.continuation ≠ MarkerResult := by
        rcases h4 _ hp with h | h <;> rw [h]
        · exact null_ne_result
        · exact address_ne_result c
      obtain ⟨hr, hf, hword⟩ := (hb (.inr ⟨_, hp⟩)).resolve_left hne
      simp only [hword, Bool.not_false, decide_true, Bool.and_self, if_true,
        Option.some.injEq] at hs
      subst hs
      exact ⟨h1, h2, h3, by simp, by simp, by simp, h7,
        .inl ⟨hr, by simp [State.word, Canceller.marked, hf, withMarker_address], by simp [hf]⟩⟩
    · simp [hc] at hs
      cases hs
      exact hbl (.inr ⟨_, hp⟩)
  case emit =>
    cases hs
    constructor <;> simp_all [State.word, Canceller.marked]
  case finish =>
    obtain ⟨hr, hword⟩ := hw (by simp [hp, Canceller.marked])
    cases hs
    refine ⟨h1, h2, h3, by simp, ?_, by simp, h7,
      .inl ⟨hr, by simp [hword, State.word, Canceller.marked], by simp [Canceller.marked]⟩⟩
    rintro a ⟨⟩
    exact ⟨_, _, installed_cases c s.awaiter, hword⟩
  case finishCas addr =>
    obtain ⟨hr, hword⟩ := hw (by simp [hp, Canceller.marked])
    obtain ⟨b, y, hb', rfl⟩ := h5 _ hp
    have hbm : getMarker b = null := by
      rcases hb' with rfl | rfl
      · exact getMarker_zero
      · exact c.aligned
    simp only [State.assert, getMarker_tag hbm, mark_and_cancel, Bool.not_true,
      Bool.or_false] at hs
    by_cases hc : (s.continuation = tag b true y && !sp) = true
    · obtain ⟨hcont, rfl⟩ : s.continuation = tag b true y ∧ sp = false := by simpa using hc
      obtain ⟨rfl, -, rfl⟩ := (tag_inj ha hbm).mp (hword.symm.trans hcont)
      simp only [hcont, decide_true, Bool.not_false, Bool.and_self, if_true,
        withoutMarker_cancel hbm, getMarker_tag hbm, mark_and_result] at hs
      by_cases ht : (s.handler.finished && tag (installed c s.awaiter) false s.handler.finished
          != MarkerResult) = true
      · -- A result under the mark: the continuation is ours to take
        rw [if_pos ht, Option.some.injEq] at hs
        subst hs
        obtain ⟨hfin, hne⟩ : s.handler.finished = true ∧
            tag (installed c s.awaiter) false s.handler.finished ≠ MarkerResult := by simpa using ht
        have hsus : s.awaiter = .suspended := by
          by_contra hsus
          exact hne (by rw [installed_eq_null hsus, hfin, tag_zero_result])
        refine ⟨h1, h2, h3, by simp, by simp, ?_, h7,
          .inl ⟨hr, by simp [State.word, Canceller.marked], by simp⟩⟩
        rintro a ⟨⟩
        exact ⟨by simp [hfin, hsus, installed], hsus, hfin, hr⟩
      · rw [if_neg ht, Option.some.injEq] at hs
        subst hs
        refine ⟨h1, h2, h3, by simp, by simp, by simp, h7,
          .inl ⟨hr, by simp [State.word, Canceller.marked], ?_⟩⟩
        intro (hsus : s.awaiter = .suspended) (hfin : s.handler.finished = true)
        exfalso
        simp [hsus, hfin, installed, tag_eq_result c.aligned, c.ne_null] at ht
    · simp only [hc, Bool.false_eq_true, if_false, Option.some.injEq] at hs
      subst hs
      refine ⟨h1, h2, h3, by simp, ?_, by simp, h7,
        .inl ⟨hr, by simp [hword, State.word, Canceller.marked], by simp [Canceller.marked]⟩⟩
      rintro a ⟨⟩
      exact ⟨_, _, installed_cases c s.awaiter, hword⟩
  case take target =>
    obtain ⟨rfl, hsus, hfin, hr⟩ := h6 _ hp
    have hword : s.continuation = tag c.address false true := by
      rcases h8 with h | h | h | h
      · rw [h.2.1, State.word, hsus, hfin, hp]
        rfl
      all_goals simp [hr] at h
    simp only [hword, if_true, withoutMarker_result c.aligned, tag_false, State.assert,
      State.resume, c.aligned, Option.some.injEq] at hs
    subst hs
    refine ⟨by simp [h1], ?_, h3, by simp, by simp, by simp, by simp [hsus],
      .inr (.inr (.inr ⟨by simp [hr], hsus, hfin, rfl, rfl⟩))⟩
    have := mark_and_cancel false false
    rw [← getMarker_tag getMarker_zero, tag_false] at this
    simpa [h2] using this
  case done => cases hs

theorem step_inv {a : Act R} (h : Inv c s) (hok : SetOk s a)
    (hs : (await c).step s a = some s') : Inv c s' := by
  cases a with
  | awaiter token sp => exact awaiterStep_inv h hok hs
  | handler v sp => exact handlerStep_inv h hs
  | canceller sp => exact cancellerStep_inv h hs

theorem reachable_inv (h : (await (R := R) c).ReachableIf SetOk s) : Inv c s :=
  h.invariant (fun s hs => by rw [show s = State.start from hs]; exact start_inv c)
    fun _ _ _ => step_inv

end Invariant

-- ============================================================================
-- Exactly one resume, and only with a result
-- ============================================================================

section Claim

variable {R : Type*}

/-- The three parties are through: `set_continuation` returned, the handler
    returned, and the stop callback was not called or returned. -/
def State.settled (s : State R) : Prop :=
  (s.awaiter = .suspended ∨ s.awaiter = .continued) ∧ s.handler = .done ∧
    (s.canceller = .idle ∨ s.canceller = .done)

/-- What the await promises in a state of its run: the coroutine is resumed at
    most once, and once when all parties are through; only with a stored
    result; never while the cancel mark is set; and no assertion has failed. -/
structure Sound (s : State R) : Prop where
  atMostOnce : s.resumes.length ≤ 1
  exactlyOnce : s.settled → s.resumes.length = 1
  withResult : s.resumes ≠ [] → s.result.isSome
  notUnderCancel : s.underCancel = false
  asserts : s.assertFailed = false

theorem Inv.sound {c : Handle} {s : State R} (h : Inv c s) : Sound s := by
  have hres : s.resumes ≠ [] → s.handler.finished = true := by
    intro hne
    rcases h.resumes with h | h | h | h
    · exact absurd h.1 hne
    all_goals exact h.2.2.1
  refine ⟨?_, ?_, ?_, h.markOk, h.assertOk⟩
  · rcases h.resumes with h | h | h | h <;> simp [h.1]
  · rintro ⟨ha, hd, hc⟩
    rcases h.resumes with h' | h' | h' | h'
    · exfalso
      rcases ha with ha | ha
      · rcases h'.2.2 ha (by simp [hd, Handler.finished]) with hm | ⟨a, hm⟩ <;>
          rcases hc with hc | hc <;> simp [hc, Canceller.marked] at hm
      · simp [h.continued ha] at h'
    all_goals simp [h'.1]
  · intro hne
    refine h.stored fun hp => ?_
    simp [hp, Handler.finished] at hres
    exact hne hres

/-- A step that breaks the condition fails the assertion of `set_continuation`. -/
theorem not_sound_of_not_setOk {c : Handle} {s s' : State R} {a : Act R}
    (hs : (await c).step s a = some s') (hok : ¬ SetOk s a) : ¬ Sound s' := by
  have hfail : ∀ (t : State R) (w : Ptr), w ≠ MarkerResult → ¬ Sound (t.setFailed w) := by
    intro t w hw hsound
    have := hsound.asserts
    simp [State.setFailed, State.resume, State.assert, hw] at this
  have hcr : withMarker MarkerCancel MarkerResult ≠ MarkerResult := by decide
  cases a with
  | handler v sp => exact absurd trivial hok
  | canceller sp => exact absurd trivial hok
  | awaiter token sp =>
      simp only [SetOk, not_and_or, not_forall, not_not] at hok
      rcases hok with ⟨hp, hw⟩ | ⟨hp, hw | hw⟩
      all_goals
        simp only [await, awaiterStep, hp, State.assert, hw] at hs
      · simp only [show withMarker MarkerCancel MarkerResult ≠ null by decide, if_false,
          show withMarker MarkerCancel MarkerResult ≠ MarkerCancel by decide,
          Option.some.injEq] at hs
        exact hs ▸ hfail _ _ hcr
      · simp only [show null ≠ MarkerCancel by decide, if_false, Option.some.injEq] at hs
        exact hs ▸ hfail _ _ null_ne_result
      · simp only [show withMarker MarkerCancel MarkerResult ≠ MarkerCancel by decide,
          if_false, Option.some.injEq] at hs
        exact hs ▸ hfail _ _ hcr

/-- As long as no compare-exchange of `set_continuation` runs into
    `MarkerCancel | MarkerResult`, or a retry into null, the await resumes
    exactly once and only with a result; and the first step that does run into
    one of them breaks this at once. -/
theorem await_sound_iff_setOk (c : Handle) :
    (∀ s : State R, (await c).ReachableIf SetOk s → Sound s) ∧
    (∀ (s s' : State R) (a : Act R), (await c).ReachableIf SetOk s →
      (await c).step s a = some s' → (Sound s' ↔ SetOk s a)) := by
  refine ⟨fun s hr => (reachable_inv hr).sound, fun s s' a hr hs => ?_⟩
  constructor
  · intro hsound
    by_contra hok
    exact not_sound_of_not_setOk hs hok hsound
  · intro hok
    exact (step_inv (reachable_inv hr) hok hs).sound

/-- A coroutine frame at address 16. -/
def frame16 : Handle := ⟨16, by decide, by decide⟩

/-- The stop callback sets its mark, `set_continuation` finds it and gets ready
    to retry, the cancellation ends, and the retry finds null. -/
def cancelledBetween : List (Act Unit) :=
  [.awaiter .armed false, .awaiter .armed false, .canceller false, .canceller false,
   .canceller false, .awaiter .armed false, .canceller false, .canceller false,
   .canceller false, .awaiter .armed false]

/-- The coroutine goes on without a result, with the assertion of
    `set_continuation` failed. -/
theorem await_not_sound :
    ¬ ∀ s : State Unit, (await frame16).Reachable s → Sound s := by
  intro h
  obtain ⟨s, hr, hp⟩ := System.exists_reachable_of_run (M := await frame16)
    (s := State.start) cancelledBetween
    (fun s => s.assertFailed && s.result.isNone && s.resumes == [.inline]) rfl (by decide)
  simp [(h s hr).asserts] at hp

end Claim

end Coroactors.Asio
