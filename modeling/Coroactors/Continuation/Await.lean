/-
  Coroactors.Continuation.Await

  `with_continuation` neither loses nor duplicates a resume.

  The producer either completes the continuation once, or it only destroys it,
  by a call, by an assignment or at the end of an object's life.  Whoever turns
  the word from null or the handle into a marker decides how the coroutine
  proceeds: if it found the handle it resumes it, and otherwise the awaiter
  finds the marker.
-/

import Coroactors.Continuation.Misuse

namespace Coroactors.Continuation

open Coroactors.Conc

variable {V E : Type*} {s s' : State V E}

-- ============================================================================
-- The producer
-- ============================================================================

/-- A producer that completes the continuation once or only destroys it, and
    leaves the awaiter alone. -/
def Proper (s : State V E) : Act V E → Prop
  | .call _ (.complete ..) => s.calls = []
  | .call _ .destroy => ∀ c ∈ s.calls, c = .destroy
  | .destroyAwaiter => False
  | _ => True

/-- What the coroutine is to observe, by the calls of the producer. -/
def expected (calls : List (Call V E)) : Outcome V E :=
  match calls with
  | .complete o _ :: _ => .completed o
  | _ => .notResumed

/-- The holder is about to resume the coroutine. -/
def Holder.resumes : Holder V E → Bool
  | .resuming _ | .destroyStore _ | .destroyResume _ => true
  | _ => false

/-- The producer has nothing left to do. -/
def State.producerDone (s : State V E) : Prop :=
  s.unheld ∧ s.holder = .idle ∧ s.released = false

-- ============================================================================
-- The invariant
-- ============================================================================

/-- What holds while the awaiter is at a place. -/
def AwaiterOk (s : State V E) : Awaiter → Prop
  | .start | .checked =>
      s.proceeds = [] ∧ s.observed = [] ∧ s.released = false ∧ s.holder.resumes = false
  | .suspended =>
      s.proceeds = [] ∧ s.observed = [] ∧
        (s.word = .handle ∧ s.released = false ∧ s.holder.resumes = false ∨
          s.word = .finished ∧ s.released = !s.holder.resumes ∨
          s.word = .destroyed ∧ s.released = false ∧ s.holder.resumes = true)
  | .resumed =>
      s.proceeds.length = 1 ∧ s.observed = [] ∧ s.result = some (expected s.calls) ∧
        s.released = false ∧ s.holder.resumes = false
  | .cancelSet | .cancelStore =>
      s.proceeds.length = 1 ∧ s.observed = [some .notResumed] ∧ expected s.calls = .notResumed ∧
        s.released = false ∧ s.holder.resumes = false
  | .gone =>
      s.proceeds.length = 1 ∧ s.observed = [some (expected s.calls)] ∧
        s.released = false ∧ s.holder.resumes = false

/-- What holds while the producer is at a place. -/
def ProducerOk (s : State V E) : Holder V E → Prop
  | .idle => s.unheld → s.word.isOpen = false
  | .setResult o u => ¬ s.unheld ∧ s.calls = [.complete o u] ∧ s.result = none
  | .finish o u => ¬ s.unheld ∧ s.calls = [.complete o u]
  | .resuming o => ¬ s.unheld ∧ s.calls = [.complete o .resume]
  | .destroyLoad e => e = true → ¬ s.unheld ∧ s.calls ≠ []
  | .destroyCas e addr =>
      (e = true → ¬ s.unheld ∧ s.calls ≠ []) ∧ (addr.isOpen = false → s.word.isOpen = false)
  | .destroyStore e => (e = true → ¬ s.unheld ∧ s.calls ≠ []) ∧ s.word = .destroyed
  | .destroyResume e =>
      (e = true → ¬ s.unheld ∧ s.calls ≠ []) ∧ s.word = .destroyed ∧ s.result = some .notResumed
  | .undefined => False

structure AwaitInv (s : State V E) : Prop where
  killed : s.killed = false
  log : s.calls = [] → s.log = []
  calls : (∃ o u, s.calls = [.complete o u]) ∨ ∀ c ∈ s.calls, c = .destroy
  /-- A completion is under way, or done. -/
  complete : ∀ o u, s.calls = [.complete o u] →
    s.holder = .setResult o u ∨ s.holder = .finish o u ∨ s.word = .finished
  finished : s.word = .finished → s.result = some (expected s.calls)
  destroyed : s.word = .destroyed → expected s.calls = .notResumed
  awaiter : AwaiterOk s s.awaiter
  producer : ProducerOk s s.holder

attribute [local grind] Word.isOpen Holder.resumes

-- ============================================================================
-- Steps
-- ============================================================================

/-- What matters to the producer in a step of the awaiter. -/
theorem ProducerOk.congr {h : Holder V E} (hp : ProducerOk s h) (hslot : s'.slot = s.slot)
    (hcalls : s'.calls = s.calls)
    (hres : s'.result = s.result ∨ s.result = none ∧ s.word = .destroyed)
    (hword : s'.word.isOpen = s.word.isOpen) (hd : s.word = .destroyed → s'.word = .destroyed)
    (hopen : s.result = none → (∃ o u, h = .setResult o u) → s.word.isOpen = true) :
    ProducerOk s' h := by
  have hun := State.unheld_congr hslot
  cases h <;> simp only [ProducerOk, hun, hcalls, hword] at hp ⊢ <;> grind -linarith

theorem awaiterStep_awaitInv (hi : Inv s) (ha : AwaitInv s) (hs : awaiterStep s = some s') :
    AwaitInv s' := by
  have hstill := awaiterStep_still hi.word hs
  have hopen : s.result = none → (∃ o u, s.holder = .setResult o u) → s.word.isOpen = true := by
    rintro hres ⟨o, u, hh⟩
    have := hi.call.holder
    rw [hh] at this
    exact this.2.1 hres
  obtain ⟨hk, hlog, hcalls, hcomp, hfin, hdes, hok, hprod⟩ := ha
  have hkilled := hi.word.threw
  have hearly := hi.word.early
  cases hp : s.awaiter <;> simp only [awaiterStep, hp] at hs <;>
    simp only [hp, AwaiterOk] at hok
  case suspended | gone => cases hs
  case start =>
      split at hs <;> cases hs
      · refine ⟨hk, hlog, hcalls, hcomp, hfin, hdes, ?_, ?_⟩
        · simp only [State.proceed, AwaiterOk]
          grind -linarith
        · exact hprod.congr rfl rfl (.inl rfl) rfl id hopen
      · refine ⟨hk, hlog, hcalls, hcomp, hfin, hdes, hok, ?_⟩
        exact hprod.congr rfl rfl (.inl rfl) rfl id hopen
  case checked =>
      split at hs
      · next hnull =>
        cases hs
        refine ⟨hk, hlog, hcalls, by grind -linarith, by grind -linarith, by grind -linarith, ?_, ?_⟩
        · simp only [AwaiterOk]
          grind -linarith
        · exact hprod.congr rfl rfl (.inl rfl) (by rw [hnull]; rfl) (by rw [hnull]; simp) hopen
      · cases hs
        refine ⟨hk, hlog, hcalls, hcomp, hfin, hdes, ?_, ?_⟩
        · simp only [State.proceed, AwaiterOk]
          grind -linarith
        · exact hprod.congr rfl rfl (.inl rfl) rfl id hopen
      · cases hs
        have hd : s.word = .destroyed := by cases hw : s.word <;> simp_all
        refine ⟨hk, hlog, hcalls, hcomp, hfin, hdes, ?_, ?_⟩
        · simp only [State.proceed, State.assert, AwaiterOk]
          grind -linarith
        · exact hprod.congr rfl rfl (.inl rfl) rfl id hopen
  case resumed =>
      cases hs
      refine ⟨hk, hlog, hcalls, hcomp, hfin, hdes, ?_, ?_⟩
      · simp only [AwaiterOk]
        grind -linarith
      · exact hprod.congr rfl rfl (.inl rfl) rfl id hopen
  case cancelSet =>
      have hd := hkilled (by rw [hp]; rfl) hk
      split at hs <;> cases hs
      · next hnone =>
        refine ⟨hk, hlog, hcalls, hcomp, by grind -linarith, hdes, hok, ?_⟩
        exact hprod.congr rfl rfl (.inr ⟨hnone, hd⟩) rfl id hopen
      · refine ⟨hk, hlog, hcalls, hcomp, hfin, hdes, hok, ?_⟩
        exact hprod.congr rfl rfl (.inl rfl) rfl id hopen
  case cancelStore =>
      have hd := hkilled (by rw [hp]; rfl) hk
      cases hs
      refine ⟨hk, hlog, hcalls, by grind -linarith, by grind -linarith, by grind -linarith, ?_, ?_⟩
      · simp only [AwaiterOk]
        grind -linarith
      · exact hprod.congr rfl rfl (.inl rfl) (by rw [hd]) (fun _ => rfl) hopen

/-- A step of the producer that does not resume the coroutine. -/
theorem AwaiterOk.congr {a : Awaiter} (hok : AwaiterOk s a)
    (hproceeds : s'.proceeds = s.proceeds) (hobserved : s'.observed = s.observed)
    (hcalls : expected s'.calls = expected s.calls)
    (hresult : s'.result = s.result ∨ a ≠ .resumed)
    (hword : s'.word = s.word ∧ s'.released = s.released ∧ s'.holder.resumes = s.holder.resumes ∨
      (a = .suspended → s.word = .handle ∧ (s'.word = .finished ∧ s'.released = !s'.holder.resumes ∨
        s'.word = .destroyed ∧ s'.released = false ∧ s'.holder.resumes = true)) ∧
      (a ≠ .suspended → s'.released = s.released ∧ s'.holder.resumes = s.holder.resumes)) :
    AwaiterOk s' a := by
  cases a <;> simp only [AwaiterOk, hproceeds, hobserved, hcalls] at hok ⊢ <;> grind -linarith

/-- The coroutine is resumed. -/
theorem AwaiterOk.resume (hok : AwaiterOk s .suspended) (hr : s.result = some (expected s.calls))
    (h : s'.proceeds = s.proceeds ++ [.resumed] ∧ s'.observed = s.observed ∧
      s'.calls = s.calls ∧ s'.result = s.result ∧ s'.released = false ∧
      s'.holder.resumes = false) : AwaiterOk s' .resumed := by
  obtain ⟨h1, h2, h3, h4, h5, h6⟩ := h
  simp only [AwaiterOk] at hok ⊢
  simp [h1, h2, h3, h4, h5, h6, hok.1, hok.2.1, hr]

theorem holderStep_awaitInv {b : Bool} (hi : Inv s) (ha : AwaitInv s)
    (hs : holderStep s b = some s') : AwaitInv s' := by
  have hh := hi.call.holder
  have hnull := hi.word.null
  have hhandle := hi.word.handle
  obtain ⟨hk, hlog, hcalls, hcomp, hfin, hdes, hok, hprod⟩ := ha
  cases hp : s.holder <;> simp only [holderStep, hp] at hs <;>
    simp only [hp, ProducerOk] at hprod <;> rw [hp] at hh
  case idle => cases hs
  case setResult o u =>
      obtain ⟨hheld, hc, hnone⟩ := hprod
      split at hs <;> cases hs
      · grind -linarith
      · refine ⟨hk, hlog, hcalls, by grind -linarith, by grind -linarith, hdes, ?_, ⟨hheld, hc⟩⟩
        refine hok.congr rfl rfl rfl (.inr ?_) (.inl ⟨rfl, rfl, by simp [hp, Holder.resumes]⟩)
        intro hres
        simp only [hres, AwaiterOk] at hok
        grind -linarith
  case finish o u =>
      obtain ⟨hheld, hc⟩ := hprod
      obtain ⟨-, hres, hopen⟩ := hh
      have hexp : expected s.calls = .completed o := by rw [hc]; rfl
      split at hs
      · next hw =>
        cases hs
        refine ⟨hk, by simp [State.finishCall, hc], hcalls, fun _ _ _ => .inr (.inr rfl),
          fun _ => by simp only [State.finishCall, hres, hexp], by simp [State.finishCall], ?_,
          fun h => absurd h hheld⟩
        refine hok.congr rfl rfl rfl (.inl rfl) (.inr ⟨?_, ?_⟩)
        · intro hsus
          rcases hnull hw with h | h <;> rw [h] at hsus <;> cases hsus
        · simp [State.finishCall, hp, Holder.resumes]
      · next hw =>
        have hsus := (hhandle hw).resolve_right (by simp [hk])
        split at hs <;> cases hs
        · refine ⟨hk, hlog, hcalls, fun _ _ _ => .inr (.inr rfl),
            fun _ => by simp only [hres, hexp], by simp, ?_, ⟨hheld, hc⟩⟩
          refine hok.congr rfl rfl rfl (.inl rfl) (.inr ⟨fun _ => ⟨hw, .inl ⟨rfl, ?_⟩⟩, ?_⟩)
          · simp only [hsus, AwaiterOk] at hok
            simp only [Holder.resumes]
            grind -linarith
          · exact fun h => absurd hsus h
        · refine ⟨hk, by simp [State.finishCall, hc], hcalls, fun _ _ _ => .inr (.inr rfl),
            fun _ => by simp only [State.finishCall, hres, hexp], by simp [State.finishCall], ?_,
            fun h => absurd h hheld⟩
          refine hok.congr rfl rfl rfl (.inl rfl) (.inr ⟨fun _ => ⟨hw, .inl ⟨rfl, rfl⟩⟩, ?_⟩)
          exact fun h => absurd hsus h
      · next hw => simp [hw, Word.isOpen] at hopen
      · next hw => simp [hw, Word.isOpen] at hopen
  case resuming o =>
      obtain ⟨hheld, hc⟩ := hprod
      obtain ⟨-, hres, hw⟩ := hh
      have hexp : expected s.calls = .completed o := by rw [hc]; rfl
      split at hs
      · next hsus =>
        cases hs
        rw [hsus] at hok
        refine ⟨hk, by simp [State.finishCall, State.proceed, hc], hcalls,
          fun _ _ _ => .inr (.inr hw), hfin, hdes, ?_, fun h => absurd h hheld⟩
        refine hok.resume (by rw [hres, hexp]) ⟨rfl, rfl, rfl, rfl, ?_, rfl⟩
        simp only [AwaiterOk, hp, Holder.resumes] at hok
        simp only [State.finishCall, State.proceed]
        grind -linarith
      · next hsus =>
        cases ha : s.awaiter <;> simp_all [AwaiterOk, Holder.resumes]
  case destroyLoad e =>
      cases hs
      refine ⟨hk, hlog, hcalls, by grind -linarith, hfin, hdes, ?_, ⟨hprod, id⟩⟩
      exact hok.congr rfl rfl rfl (.inl rfl) (.inl ⟨rfl, rfl, by simp [hp, Holder.resumes]⟩)
  case destroyCas e addr =>
      obtain ⟨hheld, haddr⟩ := hprod
      have hres : s.holder.resumes = false := by rw [hp]; rfl
      have hcomp' : ∀ o u, s.calls = [.complete o u] → s.word = .finished := by
        intro o u hc
        simpa [hp] using hcomp o u hc
      split at hs
      · next hcl =>
        cases hs
        have hword : s.word.isOpen = false := haddr (by rcases hcl with rfl | rfl <;> rfl)
        unfold State.finishDestroy
        split
        · next he =>
          refine ⟨hk, fun h => absurd h (hheld he).2, hcalls, fun o u hc => .inr (.inr (hcomp' o u hc)),
            hfin, hdes, ?_, fun _ => hword⟩
          exact hok.congr rfl rfl rfl (.inl rfl) (.inl ⟨rfl, rfl, hres.symm⟩)
        · refine ⟨hk, hlog, hcalls, fun o u hc => .inr (.inr (hcomp' o u hc)), hfin, hdes, ?_,
            fun _ => hword⟩
          exact hok.congr rfl rfl rfl (.inl rfl) (.inl ⟨rfl, rfl, hres.symm⟩)
      · next hcl =>
        split at hs
        · next hcas =>
          -- The continuation was not completed, as the word would be finished
          have hopen : s.word ≠ .finished := fun h => hcl (.inl (hcas.1 ▸ h))
          have hexp : expected s.calls = .notResumed := by
            rcases hcalls with ⟨o, u, hc⟩ | hc
            · exact absurd (hcomp' o u hc) hopen
            · cases h : s.calls with
              | nil => rfl
              | cons c l => rw [hc c (by rw [h]; exact List.mem_cons_self)]; rfl
          have hnot : ∀ o u, s.calls ≠ [.complete o u] := fun o u hc => hopen (hcomp' o u hc)
          split at hs
          · next hadd =>
            cases hs
            have hw : s.word = .handle := hcas.1.trans hadd
            have hsus := (hhandle hw).resolve_right (by simp [hk])
            refine ⟨hk, hlog, hcalls, fun o u hc => absurd hc (hnot o u), by simp, fun _ => hexp, ?_,
              ⟨hheld, rfl⟩⟩
            refine hok.congr rfl rfl rfl (.inl rfl)
              (.inr ⟨fun _ => ⟨hw, .inr ⟨rfl, ?_, rfl⟩⟩, fun h => absurd hsus h⟩)
            simp only [hsus, AwaiterOk] at hok
            simp only
            grind -linarith
          · next hadd =>
            cases hs
            have hw : s.word = .null := by
              have := hcas.1
              cases hv : s.word <;> simp_all
            have hsus : s.awaiter ≠ .suspended := by
              intro h
              rcases hnull hw with h' | h' <;> rw [h'] at h <;> cases h
            unfold State.finishDestroy
            split
            · next he =>
              refine ⟨hk, fun h => absurd h (hheld he).2, hcalls, fun o u hc => absurd hc (hnot o u),
                by simp [State.finishCall], fun _ => hexp, ?_, fun _ => rfl⟩
              exact hok.congr rfl rfl rfl (.inl rfl)
                (.inr ⟨fun h => absurd h hsus, fun _ => ⟨rfl, hres.symm⟩⟩)
            · refine ⟨hk, hlog, hcalls, fun o u hc => absurd hc (hnot o u), by simp, fun _ => hexp, ?_,
                fun _ => rfl⟩
              exact hok.congr rfl rfl rfl (.inl rfl)
                (.inr ⟨fun h => absurd h hsus, fun _ => ⟨rfl, hres.symm⟩⟩)
        · cases hs
          refine ⟨hk, hlog, hcalls, fun o u hc => .inr (.inr (hcomp' o u hc)), hfin, hdes, ?_,
            ⟨hheld, id⟩⟩
          exact hok.congr rfl rfl rfl (.inl rfl) (.inl ⟨rfl, rfl, hres.symm⟩)
  case destroyStore e =>
      obtain ⟨hheld, hw⟩ := hprod
      cases hs
      have hsus : s.awaiter = .suspended := by
        cases ha : s.awaiter <;> simp_all [AwaiterOk, Holder.resumes]
      refine ⟨hk, hlog, hcalls, by grind -linarith, by simp [hw], hdes, ?_, ⟨hheld, hw, rfl⟩⟩
      refine hok.congr rfl rfl rfl (.inr (by rw [hsus]; simp)) (.inl ⟨rfl, rfl, ?_⟩)
      rw [hp]
      rfl
  case destroyResume e =>
      obtain ⟨hheld, hw, hres⟩ := hprod
      have hexp := hdes hw
      split at hs
      · next hsus =>
        cases hs
        rw [hsus] at hok
        have hrel : s.released = false := by
          simp only [AwaiterOk, hp, Holder.resumes] at hok
          grind -linarith
        have hclosed : s.word.isOpen = false := by rw [hw]; rfl
        unfold State.finishDestroy
        split
        · next he =>
          refine ⟨hk, fun h => absurd h (hheld he).2, hcalls, by grind -linarith [State.finishCall, State.proceed],
            hfin, hdes, ?_, fun _ => hclosed⟩
          exact hok.resume (by rw [hres, hexp]) ⟨rfl, rfl, rfl, rfl, hrel, rfl⟩
        · refine ⟨hk, hlog, hcalls, by grind -linarith [State.proceed], hfin, hdes, ?_, fun _ => hclosed⟩
          exact hok.resume (by rw [hres, hexp]) ⟨rfl, rfl, rfl, rfl, hrel, rfl⟩
      · next hsus =>
        cases ha : s.awaiter <;> simp_all [AwaiterOk, Holder.resumes]

/-- The state moves between objects. -/
theorem AwaitInv.moveSlots (ha : AwaitInv s) {slot : Nat → Slot} {h : Holder V E}
    (hidle : s.holder.isIdle = true)
    (hh : h = .idle ∧ (∀ i, s.slot i = .full → ∃ j, slot j = .full) ∨ h = .destroyLoad false) :
    AwaitInv { s with slot := slot, holder := h } := by
  obtain ⟨hk, hlog, hcalls, hcomp, hfin, hdes, hok, hprod⟩ := ha
  have heq := Holder.eq_idle hidle
  rw [heq] at hprod
  have hcomp' : ∀ o u, s.calls = [.complete o u] → s.word = .finished := by
    intro o u hc
    simpa [heq] using hcomp o u hc
  refine ⟨hk, hlog, hcalls, fun o u hc => .inr (.inr (hcomp' o u hc)), hfin, hdes, ?_, ?_⟩
  · refine hok.congr rfl rfl rfl (.inl rfl) (.inl ⟨rfl, rfl, ?_⟩)
    rcases hh with ⟨rfl, -⟩ | rfl
    · rw [heq]
    · rw [heq]
      rfl
  · rcases hh with ⟨rfl, hfull⟩ | rfl
    · intro hun
      refine hprod fun i hi => ?_
      obtain ⟨j, hj⟩ := hfull i hi
      exact hun j hj
    · simp [ProducerOk]

theorem expected_destroy {calls : List (Call V E)} (h : ∀ c ∈ calls, c = .destroy) :
    expected calls = .notResumed := by
  cases calls with
  | nil => rfl
  | cons c l =>
      rw [h c List.mem_cons_self]
      rfl

/-- A call begins. -/
theorem AwaitInv.beginCall (ha : AwaitInv s) (hi : Inv s) {i : Nat} {c : Call V E}
    (hidle : s.holder.isIdle = true) (hfull : s.slot i = .full) (hok : Proper s (.call i c)) :
    AwaitInv (beginCall s c) := by
  obtain ⟨hk, hlog, hcalls, hcomp, hfin, hdes, haw, hprod⟩ := ha
  have heq := Holder.eq_idle hidle
  have hheld : ¬ s.unheld := fun h => h i hfull
  have hidleOk := hi.call.holder
  rw [heq] at hidleOk
  have hres : s.holder.resumes = false := by rw [heq]; rfl
  cases c with
  | complete o u =>
      have hnil : s.calls = [] := hok
      have hcs : s.calls ++ [.complete o u] = [.complete o u] := by rw [hnil]; rfl
      -- Nothing has happened yet
      obtain ⟨hnone, hopen⟩ := (hidleOk (hlog hnil) hheld).resolve_left (by simp [hk])
      have hearly : s.awaiter = .start ∨ s.awaiter = .checked ∨ s.awaiter = .suspended := by
        cases hw : s.word <;> simp only [hw, Word.isOpen, reduceCtorEq] at hopen
        case null => exact (hi.word.null hw).imp_right .inl
        case handle => exact .inr (.inr ((hi.word.handle hw).resolve_right (by simp [hk])))
      refine ⟨hk, by simp [Continuation.beginCall], .inl ⟨o, u, hcs⟩, ?_, ?_, ?_, ?_,
        ⟨hheld, hcs, hnone⟩⟩
      · intro o' u' hc
        simp only [Continuation.beginCall, hcs, List.cons.injEq, Call.complete.injEq, and_true] at hc
        obtain ⟨rfl, rfl⟩ := hc
        exact .inl rfl
      · intro hw
        rw [show s.word = .finished from hw] at hopen
        cases hopen
      · intro hw
        rw [show s.word = .destroyed from hw] at hopen
        cases hopen
      · rcases hearly with hp | hp | hp <;>
          simp only [hp, AwaiterOk, heq] at haw <;>
          simp only [Continuation.beginCall, hp, AwaiterOk] <;>
          exact haw
  | destroy =>
      have hall : ∀ c ∈ s.calls, c = .destroy := hok
      have hall' : ∀ c ∈ s.calls ++ [.destroy], c = .destroy := by
        intro c hc
        rcases List.mem_append.mp hc with hc | hc
        · exact hall c hc
        · exact List.mem_singleton.mp hc
      have hexp : expected (s.calls ++ [.destroy]) = expected s.calls := by
        rw [expected_destroy hall, expected_destroy hall']
      refine ⟨hk, by simp [Continuation.beginCall], .inr hall', ?_, ?_, ?_, ?_,
        fun _ => ⟨hheld, by simp [Continuation.beginCall]⟩⟩
      · intro o u hc
        have := hall' (.complete o u) (by rw [show s.calls ++ [.destroy] = _ from hc]; simp)
        cases this
      · intro hw
        simp only [Continuation.beginCall, hexp]
        exact hfin hw
      · intro hw
        simp only [Continuation.beginCall, hexp]
        exact hdes hw
      · exact haw.congr rfl rfl hexp (.inl rfl) (.inl ⟨rfl, rfl, hres.symm⟩)

theorem step_awaitInv {a : Act V E} (hi : Inv s) (ha : AwaitInv s) (hok : Proper s a)
    (hs : withContinuation.step s a = some s') : AwaitInv s' := by
  cases a with
  | construct i =>
      simp only [withContinuation] at hs
      split at hs <;> cases hs
      next hc =>
        refine ha.moveSlots (h := s.holder) hc.1 (.inl ⟨Holder.eq_idle hc.1, fun j hj => ⟨j, ?_⟩⟩)
        simp only [Function.update_apply]
        grind -linarith
  | move i j =>
      simp only [withContinuation] at hs
      split at hs <;> cases hs
      next hc =>
        refine ha.moveSlots (h := s.holder) hc.1
          (.inl ⟨Holder.eq_idle hc.1, fun k hk => ⟨if k = i then j else k, ?_⟩⟩)
        simp only [Function.update_apply]
        grind -linarith
  | assign i j =>
      simp only [withContinuation] at hs
      split at hs
      · next hc =>
        split at hs <;> cases hs
        · exact ha
        · refine ha.moveSlots hc.1 ?_
          split
          · exact .inr rfl
          · refine .inl ⟨rfl, fun k hk => ⟨if k = j then i else k, ?_⟩⟩
            simp only [Function.update_apply]
            grind -linarith
      · cases hs
  | drop i =>
      simp only [withContinuation] at hs
      split at hs <;> cases hs
      next hc =>
        refine ha.moveSlots hc.1 ?_
        split
        · exact .inr rfl
        · refine .inl ⟨rfl, fun k hk => ⟨k, ?_⟩⟩
          simp only [Function.update_apply]
          grind -linarith
  | call i c =>
      simp only [withContinuation] at hs
      split at hs <;> cases hs
      next hc => exact ha.beginCall hi hc.1 hc.2 hok
  | holder b => exact holderStep_awaitInv hi ha hs
  | resumeReleased =>
      simp only [withContinuation] at hs
      split at hs <;> cases hs
      next hc =>
        obtain ⟨hk, hlog, hcalls, hcomp, hfin, hdes, haw, hprod⟩ := ha
        have hres : s.holder.resumes = false := by rw [Holder.eq_idle hc.1]; rfl
        rw [hc.2.2] at haw
        have hw : s.word = .finished := by
          simp only [AwaiterOk, hc.2.1, hres] at haw
          grind -linarith
        refine ⟨hk, hlog, hcalls, hcomp, hfin, hdes, ?_, hprod.congr rfl rfl (.inl rfl) rfl id ?_⟩
        · exact haw.resume (hfin hw) ⟨rfl, rfl, rfl, rfl, rfl, hres⟩
        · rintro - ⟨o, u, hh⟩
          rw [Holder.eq_idle hc.1] at hh
          cases hh
  | awaiter => exact awaiterStep_awaitInv hi ha hs
  | destroyAwaiter => exact hok.elim

/-- A proper producer is careful. -/
theorem Proper.careful {a : Act V E} (hi : Inv s) (ha : AwaitInv s) (hok : Proper s a)
    (hs : withContinuation.step s a = some s') : Careful s a := by
  have hk := ha.killed
  cases a with
  | call i c =>
      cases c with
      | destroy => simp [Careful, hk]
      | complete o u =>
          simp only [withContinuation] at hs
          split at hs <;> cases hs
          next hc =>
            have hidle := hi.call.holder
            rw [Holder.eq_idle hc.1] at hidle
            have hfresh := hidle (ha.log hok) fun h => h i hc.2
            simp only [hk, Bool.false_eq_true, false_or] at hfresh
            refine ⟨fun h => ?_, by simp [hk]⟩
            rw [h.1] at hfresh
            cases hfresh.2
  | destroyAwaiter => exact hok.elim
  | construct | move | assign | drop | holder | resumeReleased | awaiter => trivial

theorem awaitInv_start : AwaitInv (State.start : State V E) := by
  refine ⟨rfl, fun _ => rfl, .inr (by simp [State.start]), by simp [State.start], by simp [State.start],
    by simp [State.start], ⟨rfl, rfl, rfl, rfl⟩, fun h => absurd rfl (h 0)⟩

theorem reachable_awaitInv (hr : withContinuation.ReachableIf Proper s) : Inv s ∧ AwaitInv s := by
  refine hr.invariant (I := fun s => Inv s ∧ AwaitInv s) ?_ ?_
  · rintro _ rfl
    exact ⟨inv_start, awaitInv_start⟩
  · rintro s a s' ⟨hi, ha⟩ hok hs
    exact ⟨step_inv hi (hok.careful hi ha hs) hs, step_awaitInv hi ha hok hs⟩

-- ============================================================================
-- Results
-- ============================================================================

/-- The coroutine has proceeded once and observed `o`. -/
def Delivered (s : State V E) (o : Outcome V E) : Prop :=
  s.proceeds.length = 1 ∧ s.observed = [some o]

/-- Once the producer is done, the awaiter proceeds by itself. -/
theorem AwaitInv.delivers (ha : AwaitInv s) (hd : s.producerDone) :
    ∃ n s', withContinuation.run s (List.replicate n .awaiter) = some s' ∧
      Delivered s' (expected s.calls) := by
  obtain ⟨hun, hidle, hrel⟩ := hd
  have hprod := ha.producer
  rw [hidle] at hprod
  have hclosed := hprod hun
  have hresumes : s.holder.resumes = false := by rw [hidle]; rfl
  have hok := ha.awaiter
  have hfin := ha.finished
  have hdes := ha.destroyed
  cases hp : s.awaiter <;> simp only [hp, AwaiterOk] at hok
  case start =>
      cases hw : s.word <;> simp only [hw, Word.isOpen, reduceCtorEq] at hclosed
      case finished =>
          refine ⟨2, ?_⟩
          simp [List.replicate, System.run, withContinuation, awaiterStep, hp, hw, State.proceed,
            Delivered, hok.1, hok.2.1, hfin hw]
      case destroyed =>
          refine ⟨2, ?_⟩
          simp [List.replicate, System.run, withContinuation, awaiterStep, hp, hw, State.proceed,
            State.assert, Delivered, hok.1, hok.2.1, hdes hw]
  case checked =>
      cases hw : s.word <;> simp only [hw, Word.isOpen, reduceCtorEq] at hclosed
      case finished =>
          refine ⟨2, ?_⟩
          simp [List.replicate, System.run, withContinuation, awaiterStep, hp, hw, State.proceed,
            Delivered, hok.1, hok.2.1, hfin hw]
      case destroyed =>
          refine ⟨1, ?_⟩
          simp [List.replicate, System.run, withContinuation, awaiterStep, hp, hw, State.proceed,
            State.assert, Delivered, hok.1, hok.2.1, hdes hw]
  case suspended =>
      -- Somebody would still have to resume the coroutine
      simp only [hrel, hresumes] at hok
      grind -linarith
  case resumed =>
      refine ⟨1, ?_⟩
      simp [List.replicate, System.run, withContinuation, awaiterStep, hp, Delivered, hok.1, hok.2.1,
        hok.2.2.1]
  case cancelSet | cancelStore =>
      refine ⟨0, s, rfl, hok.1, ?_⟩
      rw [hok.2.1, hok.2.2.1]
  case gone => exact ⟨0, s, rfl, hok.1, hok.2.1⟩

/-- `with_continuation` neither loses nor duplicates a resume.  In every run with
    a proper producer, the coroutine proceeds at most once, the result is stored
    when it is about to look at it, it observes what the producer completed the
    continuation with, or else the error; and when the producer is done, the
    coroutine has proceeded or its own steps make it proceed. -/
theorem withContinuation_delivers :
    (∀ s : State V E, withContinuation.ReachableIf Proper s →
      s.proceeds.length ≤ 1 ∧ s.observed.length ≤ s.proceeds.length ∧
      (s.awaiter = .resumed → s.result = some (expected s.calls)) ∧
      ∀ o ∈ s.observed, o = some (expected s.calls)) ∧
    (∀ s : State V E, withContinuation.ReachableIf Proper s → s.producerDone →
      ∃ n s', withContinuation.run s (List.replicate n .awaiter) = some s' ∧
        Delivered s' (expected s.calls)) := by
  refine ⟨fun s hr => ?_, fun s hr hd => ?_⟩
  · have hok := (reachable_awaitInv hr).2.awaiter
    refine ⟨?_, ?_, ?_, ?_⟩
    · cases hp : s.awaiter <;> simp only [hp, AwaiterOk] at hok <;> grind -linarith
    · cases hp : s.awaiter <;> simp only [hp, AwaiterOk] at hok <;> grind -linarith
    · intro hp
      simp only [hp, AwaiterOk] at hok
      exact hok.2.2.1
    · cases hp : s.awaiter <;> simp only [hp, AwaiterOk] at hok <;> grind -linarith
  · exact (reachable_awaitInv hr).2.delivers hd

end Coroactors.Continuation
