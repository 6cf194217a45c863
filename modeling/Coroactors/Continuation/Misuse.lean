/-
  Coroactors.Continuation.Misuse

  A continuation completes at most once, and every call after the first one
  throws.

  Completion is recorded in the result and in the word.  The calls that
  complete look at the result, and `destroy` looks at the word, so the two must
  not disagree.  They do after `destroy` of a continuation whose awaiter is not
  suspended yet, which leaves the result empty, and when the awaiter is
  destroyed while a call is under way; the comment in `cancel` leaves it to the
  user to rule out the second.
-/

import Coroactors.Continuation.Model

namespace Coroactors.Continuation

open Coroactors.Conc

variable {V E : Type*} {s s' : State V E}

-- ============================================================================
-- Where the parties are
-- ============================================================================

/-- Neither finished nor destroyed. -/
def Word.isOpen : Word → Bool
  | .null | .handle => true
  | .finished | .destroyed => false

def Awaiter.cancelling : Awaiter → Bool
  | .cancelSet | .cancelStore => true
  | _ => false

/-- The calls of a careful holder: no completion of a continuation that was
    destroyed before the awaiter suspended, and no race with the destruction of
    the awaiter. -/
def Careful (s : State V E) : Act V E → Prop
  | .call _ (.complete ..) =>
      ¬ (s.word = .destroyed ∧ s.result = none) ∧ ¬ (s.killed = true ∧ s.awaiter.cancelling = true)
  | .call _ .destroy => ¬ (s.killed = true ∧ s.awaiter.cancelling = true)
  | .destroyAwaiter => s.holder.isIdle = true
  | _ => True

-- ============================================================================
-- The invariant
-- ============================================================================

/-- The word, the result and the awaiter. -/
structure WordInv (s : State V E) : Prop where
  null : s.word = .null → s.awaiter = .start ∨ s.awaiter = .checked
  handle : s.word = .handle →
    s.awaiter = .suspended ∨ s.killed = true ∧ s.awaiter.cancelling = true
  early : s.awaiter = .start ∨ s.awaiter = .checked → s.word ≠ .handle ∧ s.killed = false
  finished : s.word = .finished → s.result ≠ none
  killedGone : s.killed = true → s.awaiter = .gone → s.word = .destroyed ∧ s.result ≠ none
  stored : s.awaiter = .cancelStore → s.result ≠ none
  killedPlace : s.killed = true → s.awaiter.cancelling = true ∨ s.awaiter = .gone
  threw : s.awaiter.cancelling = true → s.killed = false → s.word = .destroyed
  released : s.released = true → s.word.isOpen = false
  asserts : s.assertFailed = false

/-- The awaiter is not being destroyed. -/
def State.calm (s : State V E) : Prop := s.killed = true → s.awaiter = .gone

/-- No object has the state. -/
def State.unheld (s : State V E) : Prop := ∀ i, s.slot i ≠ .full

/-- A call that has not written anything yet. -/
def State.looking (s : State V E) : Prop :=
  s.calm ∧ s.touched = false ∧ (s.late = true → s.killed = true)

/-- The first call, and it has written something. -/
def State.acting (s : State V E) : Prop := s.calm ∧ s.touched = true ∧ s.log = []

/-- What holds while the holder is at a place. -/
def HolderOk (s : State V E) : Holder V E → Prop
  | .idle => s.log = [] → ¬ s.unheld → s.killed = true ∨ s.result = none ∧ s.word.isOpen = true
  | .setResult _ _ =>
      s.looking ∧ (s.result = none → s.word.isOpen = true) ∧
        (s.log = [] → s.late = true ∨ s.result = none)
  | .finish o _ =>
      s.acting ∧ s.result = some (.completed o) ∧ s.word.isOpen = true
  | .resuming o => s.acting ∧ s.result = some (.completed o) ∧ s.word = .finished
  | .destroyLoad true => s.looking ∧ (s.log = [] → s.late = true ∨ s.word.isOpen = true)
  | .destroyCas true addr =>
      s.looking ∧ (s.log = [] → s.late = true ∨ s.word.isOpen = true ∧ addr.isOpen = true)
  | .destroyStore true | .destroyResume true => s.acting ∧ s.word = .destroyed
  | .destroyLoad false | .destroyCas false _ => s.unheld
  | .destroyStore false | .destroyResume false => s.unheld ∧ s.word = .destroyed ∧ s.log = []
  | .undefined => True

/-- The objects and the call in progress. -/
structure CallInv (s : State V E) : Prop where
  unique : ∀ i j, s.slot i = .full → s.slot j = .full → i = j
  closed : s.log ≠ [] → s.word.isOpen = false
  holder : HolderOk s s.holder

/-- The calls that ended. -/
structure LogInv (s : State V E) : Prop where
  first : ∀ e l, s.log = e :: l → e.threw = true → e.late = true
  later : ∀ e ∈ s.log.tail, e.threw = true
  thrown : ∀ e ∈ s.log, e.threw = true → e.touched = false
  returned : ∀ e l, s.log = e :: l → e.threw = false → e.touched = true
  completed : ∀ e l, s.log = e :: l → e.threw = false → ∀ o u, e.call = .complete o u →
    s.result = some (.completed o) ∧ (s.word = .finished ∨ s.killed = true)
  destroyed : ∀ e l, s.log = e :: l → e.threw = false → e.call = .destroy → s.word = .destroyed

attribute [local grind] Word.isOpen Awaiter.cancelling

-- ============================================================================
-- The awaiter
-- ============================================================================

/-- What a step of the awaiter can do to what the holder sees. -/
structure Still (s s' : State V E) : Prop where
  alive : s.awaiter ≠ .gone
  holder : s'.holder = s.holder
  slot : s'.slot = s.slot
  log : s'.log = s.log
  late : s'.late = s.late
  touched : s'.touched = s.touched
  killed : s'.killed = s.killed
  cancelling : s'.awaiter.cancelling = true →
    s.awaiter.cancelling = true ∨ s.killed = false ∧ s.word = .destroyed
  word : s'.word.isOpen = s.word.isOpen ∨
    s.killed = true ∧ s.awaiter.cancelling = true ∧ s'.word = .destroyed
  finished : s.word = .finished → s'.word = .finished ∨ s.killed = true
  destroyed : s.word = .destroyed → s'.word = .destroyed
  result : s'.result = s.result ∨ s.result = none ∧ s.awaiter = .cancelSet

theorem awaiterStep_still (hw : WordInv s) (hs : awaiterStep s = some s') : Still s s' := by
  obtain ⟨⟩ := hw
  cases ha : s.awaiter <;> simp only [awaiterStep, ha] at hs
  case suspended | gone => cases hs
  case start =>
      split at hs <;> cases hs
      · constructor <;> grind -linarith [State.proceed]
      · constructor <;> grind -linarith
  case checked =>
      split at hs
      · cases hs
        constructor <;> grind -linarith
      · cases hs
        constructor <;> grind -linarith [State.proceed]
      · cases hs
        have hd : s.word = .destroyed := by cases hw : s.word <;> simp_all
        constructor <;> grind -linarith [State.proceed, State.assert]
  case resumed =>
      cases hs
      constructor <;> grind -linarith
  case cancelSet =>
      split at hs <;> cases hs
      · constructor <;> grind -linarith
      · constructor <;> grind -linarith
  case cancelStore =>
      cases hs
      constructor <;> grind -linarith

theorem awaiterStep_wordInv (hw : WordInv s) (hs : awaiterStep s = some s') : WordInv s' := by
  obtain ⟨⟩ := hw
  cases ha : s.awaiter <;> simp only [awaiterStep, ha] at hs
  case suspended | gone => cases hs
  case start =>
      split at hs <;> cases hs
      · constructor <;> simp only [State.proceed] <;> grind -linarith
      · constructor <;> simp only <;> grind -linarith
  case checked =>
      split at hs
      · cases hs
        constructor <;> simp only <;> grind -linarith
      · cases hs
        constructor <;> simp only [State.proceed] <;> grind -linarith
      · cases hs
        have hd : s.word = .destroyed := by cases hw : s.word <;> simp_all
        constructor <;> simp only [State.proceed, State.assert] <;> grind -linarith
  case resumed =>
      cases hs
      constructor <;> simp only <;> grind -linarith
  case cancelSet =>
      split at hs <;> cases hs
      · constructor <;> simp only <;> grind -linarith
      · constructor <;> simp only <;> grind -linarith
  case cancelStore =>
      cases hs
      constructor <;> simp only <;> grind -linarith

theorem State.unheld_congr (h : s'.slot = s.slot) : s'.unheld ↔ s.unheld := by
  rw [State.unheld, State.unheld, h]

theorem CallInv.still (hc : CallInv s) (hw : WordInv s) (h : Still s s') : CallInv s' := by
  have hkilled := hw.killedPlace
  have hgone := hw.killedGone
  have hthrew := hw.threw
  obtain ⟨h0, h1, h2, h3, h4, h5, h6, h7, h8, h9, h10, h11⟩ := h
  have hunheld := State.unheld_congr h2
  obtain ⟨hu, hcl, hh⟩ := hc
  refine ⟨by rw [h2]; exact hu, by grind -linarith, ?_⟩
  rw [h1]
  cases hp : s.holder <;> rw [hp] at hh
  case undefined => trivial
  case destroyLoad e | destroyCas e _ | destroyStore e | destroyResume e =>
      cases e <;> simp only [HolderOk, State.looking, State.acting, State.calm] at hh ⊢ <;> grind -linarith
  all_goals
    simp only [HolderOk, State.looking, State.acting, State.calm] at hh ⊢
    grind -linarith

theorem LogInv.still (hl : LogInv s) (h : Still s s') : LogInv s' := by
  obtain ⟨h0, h1, h2, h3, h4, h5, h6, h7, h8, h9, h10, h11⟩ := h
  obtain ⟨⟩ := hl
  constructor <;> simp only [h3, h6] <;> grind -linarith

-- ============================================================================
-- The holder
-- ============================================================================

/-- A call ended. -/
theorem LogInv.append (hl : LogInv s) {x : Entry V E} (hlog : s'.log = s.log ++ [x])
    (hfirst : s.log = [] → x.threw = true → x.late = true)
    (hlater : s.log ≠ [] → x.threw = true)
    (hthrown : x.threw = true → x.touched = false)
    (hreturned : x.threw = false → x.touched = true)
    (hcompleted : s.log = [] → x.threw = false → ∀ o u, x.call = .complete o u →
      s'.result = some (.completed o) ∧ (s'.word = .finished ∨ s'.killed = true))
    (hdestroyed : s.log = [] → x.threw = false → x.call = .destroy → s'.word = .destroyed)
    (hsame : s.log ≠ [] → s'.result = s.result ∧ s'.word = s.word ∧ s'.killed = s.killed) :
    LogInv s' := by
  obtain ⟨⟩ := hl
  cases h : s.log with
  | nil =>
      rw [h, List.nil_append] at hlog
      constructor <;> rw [hlog] <;> grind -linarith
  | cons y l =>
      obtain ⟨h1, h2, h3⟩ := hsame (by simp [h])
      rw [h, List.cons_append] at hlog
      constructor <;> rw [hlog] <;> grind -linarith

theorem LogInv.congr (hl : LogInv s) (hlog : s'.log = s.log)
    (hsame : s.log ≠ [] → s'.result = s.result ∧ s'.word = s.word ∧ s'.killed = s.killed) :
    LogInv s' := by
  obtain ⟨⟩ := hl
  constructor <;> rw [hlog] <;> grind -linarith

theorem holderStep_wordInv {b : Bool} (hw : WordInv s) (hc : CallInv s)
    (hs : holderStep s b = some s') : WordInv s' := by
  have hh := hc.holder
  obtain ⟨⟩ := hw
  cases hp : s.holder <;> simp only [holderStep, hp] at hs <;> rw [hp] at hh
  case idle | undefined => cases hs
  case setResult o u =>
      split at hs <;> cases hs
      · constructor <;> simp only [State.finishCall] <;> grind -linarith
      · constructor <;> simp only <;> grind -linarith
  case finish o u =>
      simp only [HolderOk, State.acting, State.calm] at hh
      split at hs
      · cases hs
        constructor <;> simp only [State.finishCall] <;> grind -linarith
      · split at hs <;> cases hs
        · constructor <;> simp only <;> grind -linarith
        · constructor <;> simp only [State.finishCall] <;> grind -linarith
      · grind -linarith
      · grind -linarith
  case resuming o =>
      simp only [HolderOk, State.acting, State.calm] at hh
      split at hs <;> cases hs
      · constructor <;> simp only [State.finishCall, State.proceed] <;> grind -linarith
      · constructor <;> simp only <;> grind -linarith
  case destroyLoad e =>
      cases hs
      constructor <;> simp only <;> grind -linarith
  case destroyCas e addr =>
      split at hs
      · cases hs
        unfold State.finishDestroy
        split <;> constructor <;> simp only [State.finishCall] <;> grind -linarith
      · split at hs
        · split at hs <;> cases hs
          · constructor <;> simp only <;> grind -linarith
          · unfold State.finishDestroy
            split <;> constructor <;> simp only [State.finishCall] <;> grind -linarith
        · cases hs
          constructor <;> simp only <;> grind -linarith
  case destroyStore e =>
      cases hs
      cases e <;> simp only [HolderOk, State.acting, State.calm] at hh <;> constructor <;> simp only <;> grind -linarith
  case destroyResume e =>
      split at hs <;> cases hs
      · unfold State.finishDestroy
        cases e <;> simp only [HolderOk, State.acting, State.calm] at hh <;> constructor <;>
          simp only [State.finishCall, State.proceed, if_true] <;> grind -linarith
      · constructor <;> simp only <;> grind -linarith

theorem holderStep_callInv {b : Bool} (hw : WordInv s) (hc : CallInv s)
    (hs : holderStep s b = some s') : CallInv s' := by
  have hfinished := hw.finished
  have hgone := hw.killedGone
  have hplace := hw.killedPlace
  clear hw
  obtain ⟨hu, hcl, hh⟩ := hc
  cases hp : s.holder <;> simp only [holderStep, hp] at hs <;> rw [hp] at hh
  case idle | undefined => cases hs
  case setResult o u =>
      simp only [HolderOk, State.looking, State.calm] at hh
      split at hs <;> cases hs
      · refine ⟨hu, ?_, ?_⟩
        · simp only [State.finishCall]
          grind -linarith
        · simp [State.finishCall, HolderOk]
      · refine ⟨hu, ?_, ?_⟩
        · simp only
          grind -linarith
        · simp only [HolderOk, State.acting, State.calm]
          grind -linarith
  case finish o u =>
      simp only [HolderOk, State.acting, State.calm] at hh
      split at hs
      · cases hs
        refine ⟨hu, ?_, ?_⟩
        · simp only [State.finishCall]
          grind -linarith
        · simp [State.finishCall, HolderOk]
      · split at hs <;> cases hs
        · refine ⟨hu, ?_, ?_⟩
          · simp only
            grind -linarith
          · simp only [HolderOk, State.acting, State.calm]
            grind -linarith
        · refine ⟨hu, ?_, ?_⟩
          · simp only [State.finishCall]
            grind -linarith
          · simp [State.finishCall, HolderOk]
      · grind -linarith
      · grind -linarith
  case resuming o =>
      simp only [HolderOk, State.acting, State.calm] at hh
      split at hs <;> cases hs
      · refine ⟨hu, ?_, ?_⟩
        · simp only [State.finishCall, State.proceed]
          grind -linarith
        · simp [State.finishCall, HolderOk]
      · exact ⟨hu, hcl, trivial⟩
  case destroyLoad e =>
      cases hs
      refine ⟨hu, hcl, ?_⟩
      cases e <;> simp only [HolderOk, State.looking, State.calm, State.unheld] at hh ⊢
      · exact hh
      · grind -linarith
  case destroyCas e addr =>
      split at hs
      · cases hs
        unfold State.finishDestroy
        cases e <;> simp only [HolderOk, State.looking, State.calm] at hh
        · refine ⟨hu, hcl, ?_⟩
          simp only [Bool.false_eq_true, if_false, HolderOk]
          exact fun _ h => absurd hh h
        · refine ⟨hu, ?_, ?_⟩
          · simp only [State.finishCall, if_true]
            grind -linarith
          · simp [State.finishCall, HolderOk]
      · split at hs
        · split at hs <;> cases hs
          · refine ⟨hu, ?_, ?_⟩
            · simp only
              grind -linarith
            · cases e <;>
                simp only [HolderOk, State.looking, State.acting, State.calm, State.unheld] at hh ⊢ <;>
                grind -linarith
          · unfold State.finishDestroy
            cases e <;> simp only [HolderOk, State.looking, State.calm] at hh
            · refine ⟨hu, ?_, ?_⟩
              · simp only [Bool.false_eq_true, if_false]
                grind -linarith
              · simp only [Bool.false_eq_true, if_false, HolderOk]
                exact fun _ h => absurd hh h
            · refine ⟨hu, ?_, ?_⟩
              · simp only [State.finishCall, if_true]
                grind -linarith
              · simp [State.finishCall, HolderOk]
        · cases hs
          refine ⟨hu, hcl, ?_⟩
          cases e <;> simp only [HolderOk, State.looking, State.calm, State.unheld] at hh ⊢
          · exact hh
          · grind -linarith
  case destroyStore e =>
      cases hs
      refine ⟨hu, hcl, ?_⟩
      cases e <;> simp only [HolderOk, State.acting, State.calm, State.unheld] at hh ⊢ <;>
        exact hh
  case destroyResume e =>
      split at hs <;> cases hs
      · unfold State.finishDestroy
        cases e <;> simp only [HolderOk, State.acting, State.calm] at hh
        · refine ⟨hu, ?_, ?_⟩
          · simp only [State.proceed, Bool.false_eq_true, if_false]
            exact hcl
          · simp only [Bool.false_eq_true, if_false, HolderOk]
            exact fun _ h => absurd hh.1 h
        · refine ⟨hu, ?_, ?_⟩
          · simp only [State.finishCall, State.proceed, if_true]
            grind -linarith
          · simp [State.finishCall, HolderOk]
      · exact ⟨hu, hcl, trivial⟩

theorem holderStep_logInv {b : Bool} (hc : CallInv s) (hl : LogInv s)
    (hs : holderStep s b = some s') : LogInv s' := by
  obtain ⟨-, hcl, hh⟩ := hc
  cases hp : s.holder <;> simp only [holderStep, hp] at hs <;> rw [hp] at hh
  case idle | undefined => cases hs
  case setResult o u =>
      simp only [HolderOk, State.looking] at hh
      split at hs <;> cases hs
      · exact hl.append rfl (by grind -linarith) (fun _ => rfl) (fun _ => hh.1.2.1) (by simp) (by simp)
          (by simp) fun _ => ⟨rfl, rfl, rfl⟩
      · exact hl.congr rfl (by grind -linarith)
  case finish o u =>
      obtain ⟨⟨-, -, hnil⟩, hres, hopen⟩ := hh
      split at hs
      · cases hs
        exact hl.append rfl (by simp) (by simp [hnil]) (by simp) (fun _ => rfl)
          (by simp_all [State.finishCall]) (by simp) (by simp [hnil])
      · split at hs <;> cases hs
        · exact hl.congr rfl (by simp [hnil])
        · exact hl.append rfl (by simp) (by simp [hnil]) (by simp) (fun _ => rfl)
            (by simp_all [State.finishCall]) (by simp) (by simp [hnil])
      · next hw => simp [hw, Word.isOpen] at hopen
      · next hw => simp [hw, Word.isOpen] at hopen
  case resuming o =>
      obtain ⟨⟨-, ht, hnil⟩, hres, hword⟩ := hh
      split at hs <;> cases hs
      · exact hl.append rfl (by simp) (by simp [hnil]) (by simp) (fun _ => ht)
          (by simp_all [State.finishCall, State.proceed]) (by simp) (by simp [hnil])
      · exact hl.congr rfl fun _ => ⟨rfl, rfl, rfl⟩
  case destroyLoad e =>
      cases hs
      exact hl.congr rfl fun _ => ⟨rfl, rfl, rfl⟩
  case destroyCas e addr =>
      split at hs
      · next haddr =>
        cases hs
        unfold State.finishDestroy
        cases e <;> simp only [HolderOk, State.looking] at hh
        · exact hl.congr rfl fun _ => ⟨rfl, rfl, rfl⟩
        · exact hl.append rfl (by grind -linarith) (fun _ => rfl) (fun _ => hh.1.2.1) (by simp) (by simp)
            (by simp) fun _ => ⟨rfl, rfl, rfl⟩
      · next haddr =>
        split at hs
        · next hcas =>
          have hopen : s.word.isOpen = true := by
            obtain ⟨rfl, -⟩ := hcas
            cases hw : s.word <;> simp_all [Word.isOpen]
          have hnil : s.log = [] := by
            by_contra hne
            rw [hcl hne] at hopen
            cases hopen
          split at hs <;> cases hs
          · exact hl.congr rfl (by simp [hnil])
          · unfold State.finishDestroy
            cases e
            · exact hl.congr rfl (by simp [hnil])
            · exact hl.append rfl (by simp) (by simp [hnil]) (by simp) (fun _ => rfl) (by simp)
                (by simp [State.finishCall]) (by simp [hnil])
        · cases hs
          exact hl.congr rfl fun _ => ⟨rfl, rfl, rfl⟩
  case destroyStore e =>
      have hnil : s.log = [] := by cases e <;> simp_all [HolderOk, State.acting]
      cases hs
      exact hl.congr rfl (by simp [hnil])
  case destroyResume e =>
      split at hs <;> cases hs
      · unfold State.finishDestroy
        cases e
        · exact hl.congr rfl fun _ => ⟨rfl, rfl, rfl⟩
        · obtain ⟨⟨-, ht, hnil⟩, hword⟩ := hh
          exact hl.append rfl (by simp) (by simp [hnil]) (by simp) (fun _ => ht) (by simp)
            (by simp [State.finishCall, State.proceed, hword]) (by simp [hnil])
      · exact hl.congr rfl fun _ => ⟨rfl, rfl, rfl⟩

-- ============================================================================
-- Runs
-- ============================================================================

structure Inv (s : State V E) : Prop where
  word : WordInv s
  call : CallInv s
  log : LogInv s

theorem Holder.eq_idle {h : Holder V E} (hi : h.isIdle = true) : h = .idle := by
  cases h <;> first | rfl | cases hi

/-- The state moves between objects. -/
theorem Inv.moveSlots (hi : Inv s) {slot : Nat → Slot} {h : Holder V E}
    (hidle : s.holder.isIdle = true)
    (hunique : ∀ i j, slot i = .full → slot j = .full → i = j)
    (hh : h = .idle ∧ ((∃ i, slot i = .full) → ∃ i, s.slot i = .full) ∨
      h = .destroyLoad false ∧ ∀ i, slot i ≠ .full) :
    Inv { s with slot := slot, holder := h } := by
  obtain ⟨⟨⟩, ⟨_, hcl, hok⟩, hl⟩ := hi
  refine ⟨by constructor <;> assumption, ⟨hunique, hcl, ?_⟩, hl.congr rfl fun _ => ⟨rfl, rfl, rfl⟩⟩
  rw [Holder.eq_idle hidle] at hok
  rcases hh with ⟨rfl, hfull⟩ | ⟨rfl, hnone⟩
  · intro hnil hheld
    refine hok hnil fun hun => hheld ?_
    intro i hfi
    obtain ⟨j, hj⟩ := hfull ⟨i, hfi⟩
    exact hun j hj
  · exact hnone

/-- A call begins on an object that has the state. -/
theorem Inv.beginCall (hi : Inv s) {i : Nat} {c : Call V E} (hidle : s.holder.isIdle = true)
    (hfull : s.slot i = .full) (hok : Careful s (.call i c)) : Inv (beginCall s c) := by
  obtain ⟨hw, ⟨hu, hcl, hh⟩, hl⟩ := hi
  have hheld : ¬ s.unheld := fun h => h i hfull
  have hplace := hw.killedPlace
  have hfinished := hw.finished
  rw [Holder.eq_idle hidle] at hh
  simp only [HolderOk] at hh
  obtain ⟨⟩ := hw
  refine ⟨by constructor <;> assumption, ⟨hu, hcl, ?_⟩, hl.congr rfl fun _ => ⟨rfl, rfl, rfl⟩⟩
  cases c with
  | complete o u =>
      simp only [Careful] at hok
      have hopen : s.result = none → s.word.isOpen = true := by
        intro hres
        cases hword : s.word <;> simp_all [Word.isOpen]
      simp only [Continuation.beginCall, HolderOk, State.looking, State.calm]
      grind -linarith
  | destroy =>
      simp only [Careful] at hok
      simp only [Continuation.beginCall, HolderOk, State.looking, State.calm]
      grind -linarith

theorem step_inv {a : Act V E} (hi : Inv s) (hok : Careful s a)
    (hs : withContinuation.step s a = some s') : Inv s' := by
  have hu := hi.call.unique
  cases a with
  | construct i =>
      simp only [withContinuation] at hs
      split at hs <;> cases hs
      next hc =>
        have hmove : Inv { s with slot := Function.update s.slot i .empty, holder := s.holder } :=
          hi.moveSlots hc.1 (by simp only [Function.update_apply]; grind -linarith)
            (.inl ⟨Holder.eq_idle hc.1, by simp only [Function.update_apply]; grind -linarith⟩)
        exact hmove
  | move i j =>
      simp only [withContinuation] at hs
      split at hs <;> cases hs
      next hc =>
        exact hi.moveSlots hc.1 (h := s.holder) (by simp only [Function.update_apply]; grind -linarith)
          (.inl ⟨Holder.eq_idle hc.1, by simp only [Function.update_apply]; grind -linarith⟩)
  | assign i j =>
      simp only [withContinuation] at hs
      split at hs
      · next hc =>
        split at hs <;> cases hs
        · exact hi
        · refine hi.moveSlots hc.1 (by simp only [Function.update_apply]; grind -linarith) ?_
          split
          · refine .inr ⟨rfl, ?_⟩
            simp only [Function.update_apply]
            grind -linarith
          · refine .inl ⟨rfl, ?_⟩
            simp only [Function.update_apply]
            grind -linarith
      · cases hs
  | drop i =>
      simp only [withContinuation] at hs
      split at hs <;> cases hs
      next hc =>
        refine hi.moveSlots hc.1 (by simp only [Function.update_apply]; grind -linarith) ?_
        split
        · refine .inr ⟨rfl, ?_⟩
          simp only [Function.update_apply]
          grind -linarith
        · refine .inl ⟨rfl, ?_⟩
          simp only [Function.update_apply]
          grind -linarith
  | call i c =>
      simp only [withContinuation] at hs
      split at hs <;> cases hs
      next hc => exact hi.beginCall hc.1 hc.2 hok
  | holder b =>
      exact ⟨holderStep_wordInv hi.word hi.call hs, holderStep_callInv hi.word hi.call hs,
        holderStep_logInv hi.call hi.log hs⟩
  | resumeReleased =>
      simp only [withContinuation] at hs
      split at hs <;> cases hs
      next hc =>
        obtain ⟨⟨⟩, ⟨_, hcl, hh⟩, hl⟩ := hi
        rw [Holder.eq_idle hc.1] at hh
        refine ⟨by constructor <;> simp only [State.proceed] <;> grind -linarith, ⟨hu, hcl, ?_⟩,
          hl.congr rfl fun _ => ⟨rfl, rfl, rfl⟩⟩
        simp only [State.proceed, Holder.eq_idle hc.1]
        exact hh
  | awaiter =>
      have hstill := awaiterStep_still hi.word hs
      exact ⟨awaiterStep_wordInv hi.word hs, hi.call.still hi.word hstill, hi.log.still hstill⟩
  | destroyAwaiter =>
      simp only [withContinuation] at hs
      split at hs <;> cases hs
      next hc =>
        obtain ⟨⟨⟩, ⟨_, hcl, hh⟩, hl⟩ := hi
        have hidle := Holder.eq_idle (show s.holder.isIdle = true from hok)
        refine ⟨by constructor <;> simp only <;> grind -linarith, ⟨hu, hcl, ?_⟩, ?_⟩
        · simp only [hidle]
          exact fun _ _ => .inl rfl
        · obtain ⟨⟩ := hl
          constructor <;> grind -linarith

theorem inv_start : Inv (State.start : State V E) := by
  refine ⟨by constructor <;> simp [State.start, Awaiter.cancelling], ⟨?_, by simp [State.start], ?_⟩,
    by constructor <;> simp [State.start]⟩
  · intro i j
    simp only [State.start]
    grind -linarith
  · exact fun _ _ => .inr ⟨rfl, rfl⟩

theorem reachable_inv (hr : withContinuation.ReachableIf Careful s) : Inv s := by
  refine hr.invariant ?_ fun _ _ _ hi hok hs => step_inv hi hok hs
  rintro _ rfl
  exact inv_start

/-- The step in which a call throws. -/
theorem holderStep_threw {b : Bool} {e : Entry V E} (hs : holderStep s b = some s')
    (hlog : s'.log = s.log ++ [e]) (ht : e.threw = true) :
    s'.result = s.result ∧ s'.word = s.word ∧ s'.proceeds = s.proceeds := by
  have hself : ∀ {l : List (Entry V E)}, l ≠ l ++ [e] := by simp
  have hlast : ∀ {x : Entry V E}, s.log ++ [x] = s.log ++ [e] → x.threw = true := by
    intro x hx
    simp only [List.append_cancel_left_eq, List.cons.injEq, and_true] at hx
    rw [hx]
    exact ht
  cases hp : s.holder <;> simp only [holderStep, hp] at hs
  case idle | undefined => cases hs
  case setResult o u =>
      split at hs <;> cases hs
      · exact ⟨rfl, rfl, rfl⟩
      · exact absurd hlog hself
  case finish o u =>
      split at hs
      · cases hs
        cases hlast hlog
      · split at hs <;> cases hs
        · exact absurd hlog hself
        · cases hlast hlog
      · cases hs
        exact absurd hlog hself
      · cases hs
        exact absurd hlog hself
  case resuming o =>
      split at hs <;> cases hs
      · cases hlast hlog
      · exact absurd hlog hself
  case destroyLoad x =>
      cases hs
      exact absurd hlog hself
  case destroyCas x addr =>
      split at hs
      · cases hs
        unfold State.finishDestroy
        split <;> exact ⟨rfl, rfl, rfl⟩
      · split at hs
        · split at hs <;> cases hs
          · exact absurd hlog hself
          · cases x
            · exact absurd hlog hself
            · cases hlast hlog
        · cases hs
          exact absurd hlog hself
  case destroyStore x =>
      cases hs
      exact absurd hlog hself
  case destroyResume x =>
      split at hs <;> cases hs
      · cases x
        · exact absurd hlog hself
        · cases hlast hlog
      · exact absurd hlog hself

/-- In every run of a careful holder, the first call takes effect unless the
    awaiter was destroyed before it, every later call throws, a call that throws
    has changed nothing, and no assertion fails. -/
theorem misuse_reported_of_careful :
    (∀ s : State V E, withContinuation.ReachableIf Careful s →
      (∀ e l, s.log = e :: l →
        (e.threw = true → e.late = true) ∧
        (e.threw = false →
          (∀ o u, e.call = .complete o u → s.result = some (.completed o) ∧
            (s.word = .finished ∨ s.killed = true)) ∧
          (e.call = .destroy → s.word = .destroyed)) ∧
        ∀ e' ∈ l, e'.threw = true) ∧
      (∀ e ∈ s.log, e.threw = true → e.touched = false) ∧
      s.assertFailed = false) ∧
    (∀ (s s' : State V E) (b : Bool) (e : Entry V E),
      withContinuation.step s (.holder b) = some s' → s'.log = s.log ++ [e] → e.threw = true →
        s'.result = s.result ∧ s'.word = s.word ∧ s'.proceeds = s.proceeds) := by
  refine ⟨fun s hr => ?_, fun s s' b e hs hlog ht => ?_⟩
  · obtain ⟨hw, hc, hl⟩ := reachable_inv hr
    refine ⟨fun e l he => ⟨hl.first e l he, fun hr => ⟨hl.completed e l he hr, hl.destroyed e l he hr⟩,
      fun e' he' => hl.later e' ?_⟩, hl.thrown, hw.asserts⟩
    rw [he]
    exact he'
  · exact holderStep_threw hs hlog ht

/-- `destroy()` before the awaiter suspends, and then `resume()`. -/
def destroyThenResume : List (Act Unit Unit) :=
  [.call 0 .destroy, .holder false, .holder false, .call 0 (.resume ()), .holder false, .holder false]

/-- The second call does not throw, and the assertion of `finish` fails. -/
theorem misuse_not_reported :
    ¬ ∀ s : State Unit Unit, withContinuation.Reachable s → s.assertFailed = false := by
  intro h
  obtain ⟨s, hr, hp⟩ := System.exists_reachable_of_run (M := withContinuation)
    (s := State.start) destroyThenResume (fun s => s.assertFailed) rfl (by decide)
  rw [h s hr] at hp
  cases hp

end Coroactors.Continuation
