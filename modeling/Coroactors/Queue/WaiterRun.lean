/-
  Coroactors.Queue.WaiterRun

  The waiters of `blocking_queue` over whole runs.

  A step of a thread changes the place, the variables and the pending list of
  that thread only, and the pending list grows by waiters that were at `head_`
  or behind the thread.  It notifies at most one waiter.  With this and what
  each operation does to the lists, the waiters are in order in every reachable
  state.
-/

import Coroactors.Queue.WaiterSteps

namespace Coroactors.Queue

open Coroactors.Conc

variable {N T : Type*} {s s' s₁ : State N T} {t u w : Nat}

-- ============================================================================
-- What a step leaves alone
-- ============================================================================

/-- The places of `pop`, where the thread's record is in use. -/
def Pc.pops : Pc N T → Bool
  | .popLoad | .popTop _ | .popInstall | .waitHead | .popNext _ | .popCas .. | .unlockWaiting _
  | .waitItem => true
  | _ => false

/-- The next step of the thread is one of `wait()`. -/
def Pc.blocks : Pc N T → Bool
  | .waitHead | .waitItem => true
  | _ => false

/-- The waiter that the thread's next step notifies. -/
def State.notifiedBy (s : State N T) (t : Nat) : Option Nat :=
  match s.pc t with
  | .pushNotify w => some w
  | .fullNotify _ => s.pending t
  | _ => none

/-- What a step of the thread `t` does to the threads. -/
structure Effect (s s' : State N T) (t : Nat) : Prop where
  pc : ∀ u, u ≠ t → s'.pc u = s.pc u
  pops : (s'.pc t).pops = true → (s.pc t).pops = true
  records : s'.records = s.records
  clock : s'.clock = s.clock
  last : s'.last = s.last
  sem : ∀ u, s'.sem u = s.sem u + (if s.notifiedBy t = some u then 1 else 0) -
    (if u = t ∧ (s.pc t).blocks = true then 1 else 0)
  pendingList : ∀ u, u ≠ t → s'.pendingList u = s.pendingList u
  collected : ∀ w ∈ s'.pendingList t,
    w ∈ s.pendingList t ∨ w ∈ s.headList ∨ w ∈ s.behind t

/-- The threads are where they were, and the pending list of `t` is now `l`. -/
structure Keeps (s s' : State N T) (t : Nat) (l : List Nat) : Prop where
  pc : s'.pc = s.pc
  records : s'.records = s.records
  clock : s'.clock = s.clock
  last : s'.last = s.last
  sem : s'.sem = s.sem
  pendingList : s'.pendingList = Function.update s.pendingList t l

theorem keeps_self (hpc : s'.pc = s.pc) (hrec : s'.records = s.records) (hclock : s'.clock = s.clock)
    (hlast : s'.last = s.last) (hsem : s'.sem = s.sem) (hP : s'.pendingList = s.pendingList) :
    Keeps s s' t (s.pendingList t) :=
  ⟨hpc, hrec, hclock, hlast, hsem, hP.trans (Function.update_eq_self t s.pendingList).symm⟩

theorem keeps_refl (s : State N T) (t : Nat) : Keeps s s t (s.pendingList t) :=
  keeps_self rfl rfl rfl rfl rfl rfl

theorem keeps_wnext {f : Nat → Option Nat} :
    Keeps s { s with wnext := f } t (s.pendingList t) :=
  keeps_self rfl rfl rfl rfl rfl rfl

theorem keeps_assert {b : Bool} : Keeps s (s.assert b) t (s.pendingList t) :=
  keeps_self rfl rfl rfl rfl rfl rfl

theorem keeps_head {v : Link N} : Keeps s { s with head := v } t (s.pendingList t) :=
  keeps_self rfl rfl rfl rfl rfl rfl

theorem keeps_unlock {v : Link N} {o : Option Nat} :
    Keeps s { s with head := v, holder := o } t (s.pendingList t) :=
  keeps_self rfl rfl rfl rfl rfl rfl

theorem Keeps.trans {l l' : List Nat} (h : Keeps s s₁ t l) (h' : Keeps s₁ s' t l') :
    Keeps s s' t l' :=
  ⟨h'.pc.trans h.pc, h'.records.trans h.records, h'.clock.trans h.clock, h'.last.trans h.last,
    h'.sem.trans h.sem, by rw [h'.pendingList, h.pendingList, Function.update_idem]⟩

theorem keeps_linkPending {v : Option Nat} : Keeps s (s.linkPending t v) t (s.pendingList t) := by
  unfold State.linkPending
  split <;> exact keeps_self rfl rfl rfl rfl rfl rfl

theorem keeps_prepend {l : List Nat} (h : s.prepend t w l = some s') :
    Keeps s s' t (l ++ s.pendingList t) := by
  obtain ⟨last, -, rfl⟩ := Option.map_eq_some_iff.mp h
  dsimp only [State.move]
  split <;> exact ⟨rfl, rfl, rfl, rfl, rfl, rfl⟩

theorem keeps_append {l : List Nat} (h : s.append t w l = some s') :
    Keeps s s' t (s.pendingList t ++ l) := by
  obtain ⟨last, -, rfl⟩ := Option.map_eq_some_iff.mp h
  dsimp only [State.move]
  split
  · unfold State.linkPending
    split <;> exact ⟨rfl, rfl, rfl, rfl, rfl, rfl⟩
  · exact ⟨rfl, rfl, rfl, rfl, rfl, rfl⟩

theorem keeps_grab (h : s.grab t w = some s') :
    Keeps s s' t (s.headList ++ s.pendingList t) := by
  have hk := keeps_prepend h
  exact ⟨hk.pc, hk.records, hk.clock, hk.last, hk.sem, hk.pendingList⟩

/-- An exchange on `head_` that finds waiters. -/
theorem keeps_xchg {v : Link N} (h : { s with head := v }.grab t w = some s') :
    Keeps s s' t (s.headList ++ s.pendingList t) := by
  have hk := keeps_grab h
  exact ⟨hk.pc, hk.records, hk.clock, hk.last, hk.sem, hk.pendingList⟩

/-- The thread `t` goes on, to a place of `pop` only if `b`, and its pending
    list is now `l`. -/
structure Goes (s s' : State N T) (t : Nat) (l : List Nat) (b : Bool) : Prop where
  pc : ∃ p, s'.pc = Function.update s.pc t p ∧ (p.pops = true → b = true)
  records : s'.records = s.records
  clock : s'.clock = s.clock
  last : s'.last = s.last
  sem : s'.sem = s.sem
  pendingList : s'.pendingList = Function.update s.pendingList t l

theorem Keeps.goes {l : List Nat} {p : Pc N T} {b : Bool} (h : Keeps s s' t l)
    (hp : p.pops = true → b = true) : Goes s (s'.goto t p) t l b :=
  ⟨⟨p, by rw [State.goto, h.pc], hp⟩, h.records, h.clock, h.last, h.sem, h.pendingList⟩

/-- Some plain accesses, and then the thread goes on. -/
theorem Keeps.next {l : List Nat} {b : Bool} (h : Keeps s s₁ t l)
    (h' : Goes s₁ s' t (s₁.pendingList t) b) : Goes s s' t l b := by
  obtain ⟨p, hp, hb⟩ := h'.pc
  have hl : s₁.pendingList t = l := by rw [h.pendingList, Function.update_self]
  refine ⟨⟨p, by rw [hp, h.pc], hb⟩, h'.records.trans h.records, h'.clock.trans h.clock,
    h'.last.trans h.last, h'.sem.trans h.sem, ?_⟩
  rw [h'.pendingList, hl, h.pendingList, Function.update_idem]

theorem goes_take {h n : N} : Goes s (s.take t h n) t (s.pendingList t) false := by
  unfold State.take
  have hk : Keeps s { s with chain := s.chain.tail, taken := s.taken ++ [(t, s.item n)] } t
      (s.pendingList t) :=
    keeps_self rfl rfl rfl rfl rfl rfl
  refine hk.goes ?_
  split <;> rintro ⟨⟩

theorem goes_popDecide {h : N} {v : Link N} :
    Goes s (s.popDecide t h v) t (s.pendingList t) true := by
  unfold State.popDecide
  split
  · next n =>
    have hg : Goes s (s.take t h n) t (s.pendingList t) false := goes_take
    obtain ⟨p, hp, -⟩ := hg.pc
    exact { hg with pc := ⟨p, hp, fun _ => rfl⟩ }
  · split
    · exact (keeps_wnext.trans keeps_linkPending).goes fun _ => rfl
    · exact keeps_wnext.goes fun _ => rfl

theorem goes_noItem {h : N} {v : Link N} :
    Goes s (s.noItem t h v) t (s.pendingList t) false := by
  unfold State.noItem
  split
  · exact (keeps_refl s t).goes (by rintro ⟨⟩)
  · split
    · exact (keeps_refl s t).goes (by rintro ⟨⟩)
    · exact (keeps_assert.trans keeps_linkPending).goes (by rintro ⟨⟩)

theorem goes_tryDecide {h : N} {v : Link N} :
    Goes s (s.tryDecide t h v) t (s.pendingList t) false := by
  unfold State.tryDecide
  split
  · exact goes_take
  · exact goes_noItem

theorem goes_takenDecide {j : Taken N T} {v : Link N} :
    Goes s (s.takenDecide t j v) t (s.pendingList t) false := by
  unfold State.takenDecide
  split
  · exact (keeps_refl s t).goes (by rintro ⟨⟩)
  · exact (keeps_refl s t).goes (by rintro ⟨⟩)
  · exact keeps_linkPending.goes (by rintro ⟨⟩)

/-- A step that notifies no one and is not one of `wait()`. -/
theorem Goes.effect {l : List Nat} {b : Bool} (h : Goes s s' t l b)
    (hb : b = true → (s.pc t).pops = true) (hn : s.notifiedBy t = none)
    (hblocks : (s.pc t).blocks = false)
    (hl : ∀ w ∈ l, w ∈ s.pendingList t ∨ w ∈ s.headList ∨ w ∈ s.behind t) : Effect s s' t := by
  obtain ⟨p, hpc, hp⟩ := h.pc
  refine ⟨fun u hu => ?_, fun hpop => hb (hp ?_), h.records, h.clock, h.last, fun u => ?_,
    fun u hu => ?_, fun w hw => hl w ?_⟩
  · rw [hpc, Function.update_of_ne hu]
  · rwa [hpc, Function.update_self] at hpop
  · rw [h.sem, hn, hblocks]
    simp
  · rw [h.pendingList, Function.update_of_ne hu]
  · rwa [h.pendingList, Function.update_self] at hw

/-- The same, with the pending list as it was. -/
theorem Goes.here {b : Bool} (h : Goes s s' t (s.pendingList t) b)
    (hb : b = true → (s.pc t).pops = true) (hn : s.notifiedBy t = none)
    (hblocks : (s.pc t).blocks = false) : Effect s s' t :=
  h.effect hb hn hblocks fun _ => .inl

/-- `wait()` returns, and the waiters in `l` are pending. -/
theorem Goes.effect_wait {l : List Nat} {b : Bool} (h : Goes (s.takeSem t) s' t l b)
    (hb : (s.pc t).blocks = true) (hl : ∀ w ∈ l, w ∈ s.pendingList t ∨ w ∈ s.behind t) :
    Effect s s' t := by
  have hn : s.notifiedBy t = none := by
    cases hp : s.pc t <;> simp_all [Pc.blocks, State.notifiedBy]
  obtain ⟨p, hpc, -⟩ := h.pc
  refine ⟨fun u hu => ?_, fun _ => ?_, h.records, h.clock, h.last, fun u => ?_, fun u hu => ?_,
    fun w hw => ?_⟩
  · rw [hpc, Function.update_of_ne hu]
    rfl
  · cases hp : s.pc t <;> first | rfl | (rw [hp] at hb; cases hb)
  · rw [hn, hb, h.sem]
    rcases eq_or_ne u t with rfl | hu
    · simp [State.takeSem]
    · simp [State.takeSem, hu]
  · rw [h.pendingList, Function.update_of_ne hu]
    rfl
  · rw [h.pendingList, Function.update_self] at hw
    exact (hl w hw).imp_right .inr

/-- `notify()` on a waiter. -/
theorem effect_notify {p : Pc N T} (hn : s.notifiedBy t = some w) (hb : (s.pc t).blocks = false)
    (hpop : p.pops = false) (hpc : s'.pc = Function.update s.pc t p)
    (hsem : s'.sem = Function.update s.sem w (s.sem w + 1)) (hrec : s'.records = s.records)
    (hclock : s'.clock = s.clock) (hlast : s'.last = s.last)
    (hP : ∀ u, u ≠ t → s'.pendingList u = s.pendingList u)
    (hPt : ∀ x ∈ s'.pendingList t, x ∈ s.pendingList t) : Effect s s' t := by
  refine ⟨fun u hu => ?_, fun hp => ?_, hrec, hclock, hlast, fun u => ?_, hP,
    fun x hx => .inl (hPt x hx)⟩
  · rw [hpc, Function.update_of_ne hu]
  · rw [hpc, Function.update_self, hpop] at hp
    cases hp
  · rw [hn, hb, hsem]
    rcases eq_or_ne w u with rfl | hwu
    · simp
    · simp [hwu, hwu.symm]

theorem goes_ret {r : Option T} : Goes s (s.ret t r) t (s.pendingList t) false :=
  ⟨⟨.idle, rfl, by rintro ⟨⟩⟩, rfl, rfl, rfl, rfl, (Function.update_eq_self ..).symm⟩

variable [DecidableEq N]

/-- The step of a waiter that was notified. -/
theorem stepThread_wait {c : Choice} (hb : (s.pc t).blocks = true)
    (hs : stepThread s t c = some s') :
    0 < s.sem t ∧
      ((s.wnext t = none ∧ s' = (s.takeSem t).goto t .popLoad) ∨
        ∃ w s₁, s.wnext t = some w ∧
          s' = { s₁ with wnext := Function.update s₁.wnext t none }.goto t .popLoad ∧
          ((s.pc t = .waitHead ∧ (s.takeSem t).prepend t w (s.behind t) = some s₁) ∨
            (s.pc t = .waitItem ∧ (s.takeSem t).append t w (s.behind t) = some s₁))) := by
  cases hp : s.pc t <;> simp only [hp, Pc.blocks, reduceCtorEq] at hb <;>
    simp only [stepThread, hp] at hs
  case waitHead =>
      split at hs
      · next hpos =>
        refine ⟨hpos, ?_⟩
        split at hs
        · next hw =>
          cases hs
          exact .inl ⟨hw, rfl⟩
        · next w hw =>
          obtain ⟨s₁, h1, rfl⟩ := Option.map_eq_some_iff.mp hs
          exact .inr ⟨w, s₁, hw, rfl, .inl ⟨rfl, h1⟩⟩
      · cases hs
  case waitItem =>
      split at hs
      · next hpos =>
        refine ⟨hpos, ?_⟩
        split at hs
        · next hw =>
          cases hs
          exact .inl ⟨hw, rfl⟩
        · next w hw =>
          obtain ⟨s₁, h1, rfl⟩ := Option.map_eq_some_iff.mp hs
          exact .inr ⟨w, s₁, hw, rfl, .inr ⟨rfl, h1⟩⟩
      · cases hs

theorem stepThread_effect_wait {c : Choice} (hb : (s.pc t).blocks = true)
    (hs : stepThread s t c = some s') : Effect s s' t := by
  obtain ⟨-, ⟨hw, rfl⟩ | ⟨w, s₁, -, rfl, ⟨-, h⟩ | ⟨-, h⟩⟩⟩ := stepThread_wait hb hs
  · exact ((keeps_refl (s.takeSem t) t).goes fun _ => rfl).effect_wait hb fun w hw => .inl hw
  · refine (((keeps_prepend h).trans keeps_wnext).goes fun _ => rfl).effect_wait hb fun x hx => ?_
    rw [(keeps_prepend h).pendingList, Function.update_self] at hx
    exact (List.mem_append.mp hx).symm
  · refine (((keeps_append h).trans keeps_wnext).goes fun _ => rfl).effect_wait hb fun x hx => ?_
    rw [(keeps_append h).pendingList, Function.update_self] at hx
    exact List.mem_append.mp hx

theorem keeps_install {h : N} {l : List Nat} {f : Nat → Option Nat} :
    Keeps s { s.install t h w l with pending := f } t [] :=
  ⟨rfl, rfl, rfl, rfl, rfl, rfl⟩

/-- The steps of `push`. -/
theorem stepThread_effect_push {c : Choice} (hpush : (s.pc t).isPush = true)
    (hs : stepThread s t c = some s') : Effect s s' t := by
  cases hp : s.pc t <;> simp only [hp, Pc.isPush, reduceCtorEq] at hpush <;>
    simp only [stepThread, hp] at hs
  case pushXchg n =>
      cases hs
      have hk : Keeps s { s with
          tail := n
          chain := s.chain ++ [n]
          pushed := s.pushed ++ [s.item n] } t (s.pendingList t) :=
        keeps_self rfl rfl rfl rfl rfl rfl
      exact (hk.goes (b := false) (by rintro ⟨⟩)).here (by rintro ⟨⟩)
        (by rw [State.notifiedBy, hp]) (by rw [hp]; rfl)
  case pushPublish a n =>
      have hg : Goes s s' t (s.pendingList t) false := by
        split at hs <;> cases hs
        · exact Keeps.goes (keeps_self rfl rfl rfl rfl rfl rfl) (by rintro ⟨⟩)
        · exact Keeps.goes (keeps_self rfl rfl rfl rfl rfl rfl) (by rintro ⟨⟩)
      exact hg.here (by rintro ⟨⟩) (by rw [State.notifiedBy, hp]) (by rw [hp]; rfl)
  case pushNotify w =>
      cases hs
      exact effect_notify (w := w) (by rw [State.notifiedBy, hp]) (by rw [hp]; rfl) rfl rfl rfl rfl
        rfl rfl (fun _ _ => rfl) fun _ h => h

/-- The steps with the lock, before an item is taken. -/
theorem stepThread_effect_locked {c : Choice} {h : N} (hl : (s.pc t).locked = some h)
    (hj : (s.pc t).job = none) (hs : stepThread s t c = some s') : Effect s s' t := by
  have hn : s.notifiedBy t = none := by
    cases hp : s.pc t <;> simp_all [Pc.job, Pc.locked, State.notifiedBy]
  have hb : (s.pc t).blocks = false := by
    cases hp : s.pc t <;> simp_all [Pc.locked, Pc.blocks]
  cases hp : s.pc t <;>
    simp only [hp, Pc.locked, Pc.job, reduceCtorEq, Option.some.injEq] at hl hj <;>
    subst hl <;> simp only [stepThread, hp] at hs
  case popNext h =>
      cases hs
      exact goes_popDecide.here (fun _ => by rw [hp]; rfl) hn hb
  case popCas h v =>
      split at hs <;> cases hs
      · have hg : Goes s ((s.install t h t (t :: s.pendingList t)).goto t (.unlockWaiting h)) t []
            true :=
          Keeps.goes ⟨rfl, rfl, rfl, rfl, rfl, rfl⟩ fun _ => rfl
        exact hg.effect (fun _ => by rw [hp]; rfl) hn hb fun _ hw => absurd hw List.not_mem_nil
      · have hk : Keeps s (if (s.pending t).isSome = true
            then (s.assert (s.next h).isNode).linkPending t none
            else s.assert (s.next h).isNode) t (s.pendingList t) := by
          split
          · exact keeps_assert.trans keeps_linkPending
          · exact keeps_assert
        exact (hk.next (keeps_wnext.next goes_popDecide)).here (fun _ => by rw [hp]; rfl) hn hb
  case unlockWaiting h =>
      have hk : Keeps s { s with
          head := .node h
          holder := none
          pending := Function.update s.pending t none
          pendingLast := Function.update s.pendingLast t none } t (s.pendingList t) :=
        keeps_self rfl rfl rfl rfl rfl rfl
      split at hs
      · obtain ⟨s₁, h1, rfl⟩ := Option.map_eq_some_iff.mp hs
        refine ((hk.trans (keeps_grab h1)).goes (b := true) fun _ => rfl).effect
          (fun _ => by rw [hp]; rfl) hn hb fun x hx => ?_
        exact (List.mem_append.mp hx).symm.imp_right .inl
      · cases hs
        exact ((hk.trans keeps_assert).goes (b := true) fun _ => rfl).here
          (fun _ => by rw [hp]; rfl) hn hb
  case tryNext h =>
      cases hs
      exact goes_tryDecide.here (by rintro ⟨⟩) hn hb
  case noItemCas h v =>
      split at hs <;> cases hs
      · exact Goes.here (keeps_unlock.next goes_ret) (by rintro ⟨⟩) hn hb
      · exact ((keeps_refl s t).goes (b := false) (by rintro ⟨⟩)).here (by rintro ⟨⟩) hn hb
  case noItemXchg h v =>
      split at hs
      · obtain ⟨s₁, h1, rfl⟩ := Option.map_eq_some_iff.mp hs
        refine ((keeps_xchg h1).next goes_noItem).effect (by rintro ⟨⟩) hn hb fun x hx => ?_
        exact (List.mem_append.mp hx).symm.imp_right .inl
      · cases hs
        exact ((keeps_head.trans keeps_assert).goes (b := false) (by rintro ⟨⟩)).here
          (by rintro ⟨⟩) hn hb
  case noItemInstall h v =>
      split at hs
      · cases hs
      · split at hs <;> cases hs
        · exact (keeps_install.goes (b := false) (by rintro ⟨⟩)).effect (by rintro ⟨⟩) hn hb
            fun _ hw => absurd hw List.not_mem_nil
        · exact ((keeps_assert.trans keeps_linkPending).next goes_tryDecide).here (by rintro ⟨⟩)
            hn hb

/-- The steps of `unlock_taken` and the end of the call. -/
theorem stepThread_effect_taken {c : Choice} {j : Taken N T} (hj : (s.pc t).job = some j)
    (hs : stepThread s t c = some s') : Effect s s' t := by
  have hb : (s.pc t).blocks = false := by
    cases hp : s.pc t <;> simp_all [Pc.job, Pc.blocks]
  cases hp : s.pc t <;> simp only [stepThread, hp, Pc.job, reduceCtorEq, Option.some.injEq] at hs hj
  case takenCas | fullCas =>
      have hn : s.notifiedBy t = none := by rw [State.notifiedBy, hp]
      split at hs <;> cases hs
      · exact (keeps_unlock.goes (b := false) (by rintro ⟨⟩)).here (by rintro ⟨⟩) hn hb
      · exact ((keeps_refl s t).goes (b := false) (by rintro ⟨⟩)).here (by rintro ⟨⟩) hn hb
  case takenXchg | fullXchg =>
      have hn : s.notifiedBy t = none := by rw [State.notifiedBy, hp]
      split at hs
      · obtain ⟨s₁, h1, rfl⟩ := Option.map_eq_some_iff.mp hs
        refine ((keeps_xchg h1).goes (b := false) (by rintro ⟨⟩)).effect (by rintro ⟨⟩) hn hb fun x hx => ?_
        exact (List.mem_append.mp hx).symm.imp_right .inl
      · cases hs
        exact ((keeps_head.trans keeps_assert).goes (b := false) (by rintro ⟨⟩)).here
          (by rintro ⟨⟩) hn hb
  case takenLoad =>
      cases hs
      exact goes_takenDecide.here (by rintro ⟨⟩) (by rw [State.notifiedBy, hp]) hb
  case takenInstall =>
      have hn : s.notifiedBy t = none := by rw [State.notifiedBy, hp]
      split at hs
      · cases hs
      · split at hs <;> cases hs
        · exact (keeps_install.goes (b := false) (by rintro ⟨⟩)).effect (by rintro ⟨⟩) hn hb
            fun _ hw => absurd hw List.not_mem_nil
        · exact ((keeps_assert.trans keeps_linkPending).next goes_takenDecide).here (by rintro ⟨⟩)
            hn hb
  case fullNotify =>
      split at hs <;> cases hs
      next w hw =>
        refine effect_notify (w := w) (by rw [State.notifiedBy, hp, hw]) hb rfl rfl rfl rfl rfl rfl
          (fun u hu => Function.update_of_ne hu ..) fun x hx => ?_
        have hx' : x ∈ Function.update s.pendingList t [] t := hx
        rw [Function.update_self] at hx'
        cases hx'
  case free =>
      cases hs
      exact Goes.here (b := false) ⟨⟨.idle, rfl, by rintro ⟨⟩⟩, rfl, rfl, rfl, rfl,
        (Function.update_eq_self ..).symm⟩ (by rintro ⟨⟩) (by rw [State.notifiedBy, hp]) hb

theorem stepThread_effect {c : Choice} (hs : stepThread s t c = some s') : Effect s s' t := by
  cases hp : s.pc t
  case pushXchg | pushPublish | pushNotify =>
      exact stepThread_effect_push (by rw [hp]; rfl) hs
  case popNext | popCas | unlockWaiting | tryNext | noItemCas | noItemXchg | noItemInstall =>
      exact stepThread_effect_locked (by rw [hp]; rfl) (by rw [hp]; rfl) hs
  case takenCas | takenXchg | takenLoad | takenInstall | fullCas | fullXchg | fullNotify | free =>
      exact stepThread_effect_taken (by rw [hp]; rfl) hs
  case waitHead | waitItem =>
      exact stepThread_effect_wait (by rw [hp]; rfl) hs
  all_goals
    have hn : s.notifiedBy t = none := by rw [State.notifiedBy, hp]
    have hb : (s.pc t).blocks = false := by rw [hp]; rfl
    simp only [stepThread, hp] at hs
  case idle => cases hs
  case popLoad =>
      cases hs
      exact ((keeps_refl s t).goes (b := true) fun _ => rfl).here (fun _ => by rw [hp]; rfl) hn hb
  case popTop v =>
      split at hs
      · cases hs
        exact ((keeps_refl s t).goes (b := true) fun _ => rfl).here (fun _ => by rw [hp]; rfl) hn hb
      · split at hs
        · cases hs
          exact ((keeps_refl s t).goes (b := true) fun _ => rfl).here (fun _ => by rw [hp]; rfl) hn
            hb
        · split at hs
          · cases hs
            exact (keeps_unlock.goes (b := true) fun _ => rfl).here (fun _ => by rw [hp]; rfl) hn hb
          · obtain ⟨s₁, h1, rfl⟩ := Option.map_eq_some_iff.mp hs
            refine ((keeps_xchg h1).goes (b := true) fun _ => rfl).effect
              (fun _ => by rw [hp]; rfl) hn hb fun x hx => ?_
            exact (List.mem_append.mp hx).symm.imp_right .inl
          · cases hs
            exact (keeps_head.goes (b := true) fun _ => rfl).here (fun _ => by rw [hp]; rfl) hn hb
  case popInstall =>
      split at hs <;> cases hs
      · have hk : Keeps s { s.move [t] .head with head := .waiter t, headList := [t] } t
            (s.pendingList t) :=
          keeps_self rfl rfl rfl rfl rfl rfl
        exact (hk.goes (b := true) fun _ => rfl).here (fun _ => by rw [hp]; rfl) hn hb
      · exact ((keeps_refl s t).goes (b := true) fun _ => rfl).here (fun _ => by rw [hp]; rfl) hn hb
  case tryLoad =>
      split at hs <;> cases hs
      · exact ((keeps_refl s t).goes (b := false) (by rintro ⟨⟩)).here (by rintro ⟨⟩) hn hb
      · exact goes_ret.here (by rintro ⟨⟩) hn hb
  case tryCas h =>
      split at hs
      · cases hs
        exact (keeps_unlock.goes (b := false) (by rintro ⟨⟩)).here (by rintro ⟨⟩) hn hb
      · split at hs <;> cases hs
        · exact ((keeps_refl s t).goes (b := false) (by rintro ⟨⟩)).here (by rintro ⟨⟩) hn hb
        · exact goes_ret.here (by rintro ⟨⟩) hn hb

-- ============================================================================
-- The steps of one thread keep the waiters in order
-- ============================================================================

omit [DecidableEq N] in
theorem Link.decodeWaiter_of_ne {v : Link N} (h : ∀ w, v = .waiter w → False) :
    v.decodeWaiter = none := by
  cases v with
  | waiter w => exact (h w rfl).elim
  | null | node n => rfl

/-- An exchange on `head_` that finds no waiters. -/
theorem Open.dropHead (ho : Open s t) (hne : ∀ w, s.head = .waiter w → False) :
    Open (State.assert { s with head := .null } (s.head = .null)) t :=
  WaitInv.assert (WaitInv.setHead (o := s.holder) ho (Link.decodeWaiter_of_ne hne) rfl)

omit [DecidableEq N] in
theorem linkPending_pendingList {v : Option Nat} :
    (s.linkPending t v).pendingList = s.pendingList := by
  unfold State.linkPending
  split <;> rfl

/-- A waiter that was notified. -/
theorem stepThread_waitInv_wait {c : Choice} (hi : WaitInv s s.pc) (hb : (s.pc t).blocks = true)
    (hs : stepThread s t c = some s') : WaitInv s' s'.pc := by
  have hw : (s.pc t).waits = true := by
    cases hp : s.pc t <;> simp_all [Pc.blocks, Pc.waits]
  have hholds : (s.pc t).holds = true := by
    cases hp : s.pc t <;> simp_all [Pc.blocks, Pc.holds]
  have hth := hi.thread t
  have hstop : tails s.pc (.pending t) = none := (Pc.waits_spec hw).1
  obtain ⟨hpos, h⟩ := stepThread_wait hb hs
  have hbehind := (hth.notified (Nat.ne_of_gt hpos)).2.2
  rcases h with ⟨hnone, rfl⟩ | ⟨w, s₁, hsome, rfl, h⟩
  · exact hi.wake hw hholds hpos hnone
  · have hfirst : (s.listAt (.behind t)).head? = some w := hbehind.symm.trans hsome
    have hlen := hi.length_le (.behind t)
    have hm : ∀ x ∈ s.behind t, s.Listed x := fun x hx => ⟨.behind t, hx⟩
    have hmP : ∀ x ∈ s.pendingList t, s.Listed x := fun x hx => ⟨.pending t, hx⟩
    rcases h with ⟨-, h⟩ | ⟨-, h⟩
    · obtain ⟨s₂, h2, hpd, hl⟩ := prepend_lists (s := s.takeSem t) (t := t) (p := .behind t)
        hi.lists (by simp) hfirst rfl hlen rfl hstop (hth.pending hholds) (hth.last hholds)
      obtain rfl : s₁ = s₂ := Option.some_inj.mp (h.symm.trans h2)
      have hwake := hi.wakeBehind hw hpos hpd (fun x => List.mem_append) hm hl
      rwa [show s.pc = s₁.pc from hpd.core.pc.symm] at hwake
    · obtain ⟨s₂, h2, hpd, hl⟩ := append_lists (s := s.takeSem t) (t := t) (p := .behind t)
        hi.lists (by simp) hfirst rfl hlen rfl hstop (hth.pending hholds) (hth.last hholds)
      obtain rfl : s₁ = s₂ := Option.some_inj.mp (h.symm.trans h2)
      have hwake := hi.wakeBehind hw hpos hpd (fun x => List.mem_append.trans Or.comm) hmP hl
      rwa [show s.pc = s₁.pc from hpd.core.pc.symm] at hwake

/-- The steps of `push`. -/
theorem stepThread_waitInv_push {c : Choice} (hi : WaitInv s s.pc) (hc : CoreInv s)
    (hpush : (s.pc t).isPush = true) (hs : stepThread s t c = some s') : WaitInv s' s'.pc := by
  cases hp : s.pc t <;> simp only [hp, Pc.isPush, reduceCtorEq] at hpush <;>
    simp only [stepThread, hp] at hs
  case pushXchg n =>
      cases hs
      have hnil : s.pendingList t = [] := (hi.thread t).clean (by rw [hp]; rfl)
      have hg := hi.goto (t := t) (p := .pushPublish s.tail n) (by rw [hp]; rfl) rfl
        (by rintro ⟨⟩) (fun _ => hnil) (by rintro ⟨⟩)
      refine hg.congr ⟨rfl, rfl, fun _ h => h, rfl, rfl, rfl, rfl, rfl, rfl, rfl⟩ rfl
        fun m hm => hi.next m ?_
      have hne : s.chain ≠ [] := by
        intro he
        have hlast := hc.last
        rw [he] at hlast
        cases hlast
      exact (List.head?_append_of_ne_nil _ hne).symm.trans hm
  case pushPublish a n =>
      obtain ⟨hadj, -⟩ := hc.publishes t a n (by rw [hp]; rfl)
      split at hs <;> cases hs
      · next w hw =>
        have hhead : s.chain.head? = some a := by
          have hmem := hadj.mem_left
          have htail := fun h => hc.waiter a h w hw
          cases hch : s.chain with
          | nil => rw [hch] at hmem; cases hmem
          | cons x l =>
              rw [hch] at hmem htail
              rw [(List.mem_cons.mp hmem).resolve_right htail]
              rfl
        exact (hi.publish hp hhead hw rfl).landed rfl
      · next hne =>
        exact hi.publishNone hp (Link.decodeWaiter_of_ne hne) rfl
  case pushNotify w =>
      cases hs
      have hth := hi.thread t
      rw [hp] at hth
      have hlist : s.listAt (.hand t) = w :: (s.hand t).tail :=
        (List.cons_head?_tail hth.hand.symm).symm
      have hn : WaitInv { s.notify w (s.hand t).tail with
          place := fun u => if u = w then .nowhere else (s.notify w (s.hand t).tail).place u
          hand := Function.update s.hand t [] } (Function.update s.pc t .idle) := by
        refine hi.notify (p := .hand t) hlist (.inl rfl) (by rw [hp]; rfl) (by rw [hp]; rfl)
          (fun _ => by rw [hp]; rfl) rfl rfl rfl ?_ rfl rfl rfl rfl rfl rfl rfl rfl rfl
          (fun u hu => Function.update_of_ne hu ..) (Function.update_self ..) (fun _ _ => rfl)
          (hth.clean rfl)
        funext a
        cases a <;> simp [State.listAt, State.notify, State.move, Function.update_apply]
      exact hn.landed rfl

/-- The steps of a consumer that has the head locked and has not taken an item. -/
theorem stepThread_waitInv_locked {c : Choice} {h : N} (hi : WaitInv s s.pc) (hc : CoreInv s)
    (hr : ∀ u, (s.pc u).pops = true → u ∈ s.records) (hl : (s.pc t).locked = some h)
    (hj : (s.pc t).job = none) (hs : stepThread s t c = some s') : WaitInv s' s'.pc := by
  have hhead := (hc.locked t h hl).2
  have hlock : ∀ u h', s.pc u = .unlockWaiting h' → u = t := fun u h' hu =>
    (hc.locked_unique hl (show (s.pc u).locked = some h' by rw [hu]; rfl)).symm
  have htail : ∀ n, s.next h = .node n → ∀ m, s.chain.tail.head? = some m →
      (s.next m).decodeWaiter = s.nextList.head? := fun n hn => hi.next_tail hc hhead hn
  cases hp : s.pc t <;>
    simp only [hp, Pc.locked, Pc.job, reduceCtorEq, Option.some.injEq] at hl hj <;>
    subst hl <;> simp only [stepThread, hp] at hs
  case popNext h =>
      cases hs
      exact (hi.open (by rw [hp]; rfl) (by rw [hp]; rfl)).popDecide htail
  case popCas h v =>
      split at hs <;> cases hs
      · next hv =>
        exact (hi.installOwn hp hhead hv (hr t (by rw [hp]; rfl)) hlock).landed rfl
      · have hsame : SameCore s (if (s.pending t).isSome = true
            then (s.assert (s.next h).isNode).linkPending t none
            else s.assert (s.next h).isNode) := by
          split
          · exact sameCore_assert.trans sameCore_linkPending
          · exact sameCore_assert
        have ho := hi.unlinkOwn hp (b := (s.next h).isNode) rfl
        refine ho.popDecide fun n hn => WaitInv.next_tail ho (hc.congr (hsame.trans sameCore_wnext))
          ((congrArg List.head? hsame.chain).trans hhead) ((congrFun hsame.next h).trans hn)
  case unlockWaiting h =>
      split at hs
      · next w hw =>
        obtain ⟨s₁, h1, rfl⟩ := Option.map_eq_some_iff.mp hs
        obtain ⟨s₂, h2, hg⟩ := hi.unlockGrab (h := h) hp hw
        obtain rfl : s₁ = s₂ := Option.some_inj.mp (h1.symm.trans h2)
        exact hg.landed rfl
      · next hne =>
        cases hs
        exact ((hi.unlock (h := h) hp (Link.decodeWaiter_of_ne hne)).assert (b := _)).landed rfl
  case tryNext h =>
      cases hs
      exact (hi.open (by rw [hp]; rfl) (by rw [hp]; rfl)).tryDecide htail
  case noItemCas h v =>
      have ho := hi.open (t := t) (by rw [hp]; rfl) (by rw [hp]; rfl)
      have hnil : s.pendingList t = [] := (hi.thread t).clean (by rw [hp]; rfl)
      split at hs <;> cases hs
      · next hnull =>
        have hu : Open { s with head := .node h, holder := none } t :=
          WaitInv.setHead ho (by rw [hnull]; rfl) rfl
        exact (hu.goto (p := .idle) rfl (fun _ => hnil) (by rintro ⟨⟩)).same
          ⟨rfl, rfl, fun _ h => h, rfl, rfl, rfl, rfl, rfl, rfl, rfl⟩ rfl rfl rfl
      · exact ho.goto rfl (fun _ => hnil) (by rintro ⟨⟩)
  case noItemXchg h v =>
      have ho := hi.open (t := t) (by rw [hp]; rfl) (by rw [hp]; rfl)
      have hnil : s.pendingList t = [] := (hi.thread t).clean (by rw [hp]; rfl)
      split at hs
      · next w hw =>
        obtain ⟨s₁, h1, rfl⟩ := Option.map_eq_some_iff.mp hs
        obtain ⟨s₂, h2, hg, -⟩ := ho.grab hw
        obtain rfl : s₁ = s₂ := Option.some_inj.mp (h1.symm.trans h2)
        exact hg.noItem
      · next hne =>
        cases hs
        exact (ho.dropHead hne).goto rfl (fun _ => hnil) (by rintro ⟨⟩)
  case noItemInstall h v =>
      have hne : s.pendingList t ≠ [] := (hi.thread t).full (by rw [hp]; rfl)
      split at hs
      · cases hs
      · next w hw =>
        split at hs <;> cases hs
        · next hv =>
          have hI := hi.install (q := .noItemInstall h v) hp hhead (by rw [hv]; rfl) hw rfl rfl rfl
            rfl hlock
          exact hI.goto rfl (fun _ => Function.update_self ..) (by rintro ⟨⟩)
        · have ho : Open ((s.assert (s.next h).isNode).linkPending t none) t :=
            hi.assert.unlink (s := s.assert (s.next h).isNode) hp hne rfl rfl rfl rfl
          have hsame : SameCore s ((s.assert (s.next h).isNode).linkPending t none) :=
            sameCore_assert.trans sameCore_linkPending
          exact ho.tryDecide fun n hn => WaitInv.next_tail ho (hc.congr hsame)
            ((congrArg List.head? hsame.chain).trans hhead) ((congrFun hsame.next h).trans hn)

/-- The steps of `unlock_taken` and the end of the call. -/
theorem stepThread_waitInv_taken {c : Choice} {j : Taken N T} (hi : WaitInv s s.pc) (hc : CoreInv s)
    (hj : (s.pc t).job = some j) (hs : stepThread s t c = some s') : WaitInv s' s'.pc := by
  have hth := hi.thread t
  cases hp : s.pc t <;> rw [hp] at hth <;>
    simp only [stepThread, hp, Pc.job, reduceCtorEq, Option.some.injEq] at hs hj
  case takenCas k =>
      have ho := hi.open (t := t) (by rw [hp]; rfl) (by rw [hp]; rfl)
      split at hs <;> cases hs
      · next hnull =>
        have hu : Open { s with head := .node k.head, holder := none } t :=
          WaitInv.setHead ho (by rw [hnull]; rfl) rfl
        exact hu.goto rfl (fun _ => hth.clean rfl) (by rintro ⟨⟩)
      · exact ho.goto rfl (fun _ => hth.clean rfl) (by rintro ⟨⟩)
  case fullCas k =>
      have ho := hi.open (t := t) (by rw [hp]; rfl) (by rw [hp]; rfl)
      split at hs <;> cases hs
      · next hnull =>
        have hu : Open { s with head := .node k.head, holder := none } t :=
          WaitInv.setHead ho (by rw [hnull]; rfl) rfl
        exact hu.goto rfl (by rintro ⟨⟩) fun _ => hth.full rfl
      · exact ho.goto rfl (by rintro ⟨⟩) fun _ => hth.full rfl
  case takenXchg =>
      have ho := hi.open (t := t) (by rw [hp]; rfl) (by rw [hp]; rfl)
      split at hs
      · next w hw =>
        obtain ⟨s₁, h1, rfl⟩ := Option.map_eq_some_iff.mp hs
        obtain ⟨s₂, h2, hg, hne⟩ := ho.grab hw
        obtain rfl : s₁ = s₂ := Option.some_inj.mp (h1.symm.trans h2)
        exact hg.goto rfl (by rintro ⟨⟩) fun _ => hne
      · next hne =>
        cases hs
        exact (ho.dropHead hne).goto rfl (fun _ => hth.clean rfl) (by rintro ⟨⟩)
  case fullXchg =>
      have ho := hi.open (t := t) (by rw [hp]; rfl) (by rw [hp]; rfl)
      split at hs
      · next w hw =>
        obtain ⟨s₁, h1, rfl⟩ := Option.map_eq_some_iff.mp hs
        obtain ⟨s₂, h2, hg, hne⟩ := ho.grab hw
        obtain rfl : s₁ = s₂ := Option.some_inj.mp (h1.symm.trans h2)
        exact hg.goto rfl (by rintro ⟨⟩) fun _ => hne
      · next hne =>
        cases hs
        exact (ho.dropHead hne).goto rfl (by rintro ⟨⟩) fun _ => hth.full rfl
  case takenLoad =>
      cases hs
      exact (hi.open (by rw [hp]; rfl) (by rw [hp]; rfl)).takenDecide (hth.full rfl)
  case takenInstall k v =>
      have hl : (s.pc t).locked = some k.head := by rw [hp]; rfl
      split at hs
      · cases hs
      · next w hw =>
        split at hs <;> cases hs
        · next hv =>
          have hI := hi.install (q := .takenInstall k v) hp (hc.locked t k.head hl).2
            (by rw [hv]; rfl) hw rfl rfl rfl rfl fun u h' hu =>
              (hc.locked_unique hl (show (s.pc u).locked = some h' by rw [hu]; rfl)).symm
          exact hI.goto rfl (fun _ => Function.update_self ..) (by rintro ⟨⟩)
        · have ho : Open ((s.assert (s.next k.head).isNode).linkPending t none) t :=
            hi.assert.unlink (s := s.assert (s.next k.head).isNode) hp (hth.full rfl) rfl rfl rfl rfl
          refine ho.takenDecide ?_
          rw [linkPending_pendingList]
          exact hth.full rfl
  case fullNotify k =>
      split at hs <;> cases hs
      next w hw =>
        have hlist : s.listAt (.pending t) = w :: (s.pendingList t).tail :=
          (List.cons_head?_tail ((hth.pending rfl).symm.trans hw)).symm
        have hn : WaitInv { s.notify w (s.pendingList t).tail with
            place := fun u => if u = w then .nowhere else
              (s.notify w (s.pendingList t).tail).place u
            pendingList := Function.update s.pendingList t [] } (Function.update s.pc t (.free k)) := by
          refine hi.notify (p := .pending t) hlist (.inr rfl) (by rw [hp]; rfl) (by rw [hp]; rfl)
            (fun _ => by rw [hp]; rfl) rfl rfl rfl ?_ rfl rfl rfl rfl rfl rfl rfl rfl rfl
            (fun _ _ => rfl) (List.head?_eq_none_iff.mp hth.hand.symm)
            (fun u hu => Function.update_of_ne hu ..) (Function.update_self ..)
          funext a
          cases a <;> simp [State.listAt, State.notify, State.move, Function.update_apply]
        exact hn.landed rfl
  case free =>
      cases hs
      have hg := hi.goto (t := t) (p := .idle) (by rw [hp]; rfl) rfl (by rintro ⟨⟩)
        (fun _ => hth.clean rfl) (by rintro ⟨⟩)
      exact hg.same ⟨rfl, rfl, fun _ h => h, rfl, rfl, rfl, rfl, rfl, rfl, rfl⟩ rfl rfl rfl

theorem stepThread_waitInv {c : Choice} (hi : WaitInv s s.pc) (hc : CoreInv s)
    (hr : ∀ u, (s.pc u).pops = true → u ∈ s.records) (hs : stepThread s t c = some s') :
    WaitInv s' s'.pc := by
  cases hp : s.pc t
  case pushXchg | pushPublish | pushNotify =>
      exact stepThread_waitInv_push hi hc (by rw [hp]; rfl) hs
  case popNext | popCas | unlockWaiting | tryNext | noItemCas | noItemXchg | noItemInstall =>
      exact stepThread_waitInv_locked hi hc hr (by rw [hp]; rfl) (by rw [hp]; rfl) hs
  case takenCas | takenXchg | takenLoad | takenInstall | fullCas | fullXchg | fullNotify | free =>
      exact stepThread_waitInv_taken hi hc (by rw [hp]; rfl) hs
  case waitHead | waitItem =>
      exact stepThread_waitInv_wait hi (by rw [hp]; rfl) hs
  case idle =>
      rw [stepThread, hp] at hs
      cases hs
  all_goals
    have ho := hi.open (t := t) (by rw [hp]; rfl) (by rw [hp]; rfl)
    have hth := hi.thread t
    rw [hp] at hth
    simp only [stepThread, hp] at hs
  case popLoad =>
      cases hs
      exact ho.goto rfl (by rintro ⟨⟩) (by rintro ⟨⟩)
  case popTop v =>
      split at hs
      · cases hs
        exact ho.goto rfl (by rintro ⟨⟩) (by rintro ⟨⟩)
      · split at hs
        · cases hs
          exact ho.goto rfl (by rintro ⟨⟩) (by rintro ⟨⟩)
        · split at hs
          · next h hh =>
            cases hs
            have hu : Open { s with head := .null, holder := some t } t :=
              WaitInv.setHead ho (by rw [hh]; rfl) rfl
            exact hu.goto rfl (by rintro ⟨⟩) (by rintro ⟨⟩)
          · next w hw =>
            obtain ⟨s₁, h1, rfl⟩ := Option.map_eq_some_iff.mp hs
            obtain ⟨s₂, h2, hg, -⟩ := ho.grab hw
            obtain rfl : s₁ = s₂ := Option.some_inj.mp (h1.symm.trans h2)
            exact hg.goto rfl (by rintro ⟨⟩) (by rintro ⟨⟩)
          · next hnull =>
            cases hs
            have hu : Open { s with head := .null, holder := s.holder } t :=
              WaitInv.setHead ho (by rw [hnull]; rfl) rfl
            exact hu.goto rfl (by rintro ⟨⟩) (by rintro ⟨⟩)
  case popInstall =>
      split at hs <;> cases hs
      · next hnull => exact (ho.installHead hnull (hr t (by rw [hp]; rfl))).landed rfl
      · exact ho.goto rfl (by rintro ⟨⟩) (by rintro ⟨⟩)
  case tryLoad =>
      split at hs <;> cases hs
      · exact ho.goto rfl (fun _ => hth.clean rfl) (by rintro ⟨⟩)
      · exact (ho.goto (p := .idle) rfl (fun _ => hth.clean rfl) (by rintro ⟨⟩)).same
          ⟨rfl, rfl, fun _ h => h, rfl, rfl, rfl, rfl, rfl, rfl, rfl⟩ rfl rfl rfl
  case tryCas h =>
      split at hs
      · next hh =>
        cases hs
        have hu : Open { s with head := .null, holder := some t } t :=
          WaitInv.setHead ho (by rw [hh.1]; rfl) rfl
        exact hu.goto rfl (by rintro ⟨⟩) (by rintro ⟨⟩)
      · split at hs <;> cases hs
        · exact ho.goto rfl (fun _ => hth.clean rfl) (by rintro ⟨⟩)
        · exact (ho.goto (p := .idle) rfl (fun _ => hth.clean rfl) (by rintro ⟨⟩)).same
            ⟨rfl, rfl, fun _ h => h, rfl, rfl, rfl, rfl, rfl, rfl, rfl⟩ rfl rfl rfl

-- ============================================================================
-- Runs
-- ============================================================================

omit [DecidableEq N] in
/-- A call of `pop` or `try_pop` begins without pending waiters. -/
theorem WaitInv.call (hi : WaitInv s s.pc) (hp : (s.pc t).isIdle = true) {p : Pc N T} {l : List Nat}
    (hq : p.quiet = true) (hf : p.full = false) (hl : s.records ⊆ l)
    (hs : s' = { s with
      pending := Function.update s.pending t none
      pendingLast := Function.update s.pendingLast t none
      records := l }.goto t p) : WaitInv s' s'.pc := by
  have hth := hi.thread t
  rw [Pc.eq_idle hp] at hth
  have hnil : s.pendingList t = [] := hth.clean rfl
  obtain ⟨hqw, hqt, hqn, hqo⟩ := Pc.quiet_spec hq
  subst hs
  refine hi.step (t := t) ?_ (fun u hu => Function.update_of_ne hu ..) ?_ hi.head hi.next ?_
    (fun _ _ => .rfl) ?_ hl (fun h => hl (hi.records t h)) ?_
  · exact { Others.refl s t with
      pending := fun u hu => Function.update_of_ne hu ..
      pendingLast := fun u hu => Function.update_of_ne hu .. }
  · refine hi.lists.congr (fun _ => rfl) fun a ha => ?_
    rw [State.goto, tails_update]
    rcases eq_or_ne a (.pending t) with rfl | hat
    · exact absurd hnil ha
    · rw [Function.update_of_ne hat]
  · rw [show (State.goto _ t p).pc t = p from Function.update_self ..]
    refine ⟨fun _ => hnil, fun h => ?_, fun _ => ?_, fun _ hne => absurd hnil hne, ?_,
      hth.unnotified, fun h => absurd (hth.notified h).2.1 Bool.false_ne_true, fun _ => ?_⟩
    · rw [hf] at h
      cases h
    · exact (Function.update_self ..).trans (congrArg List.head? hnil).symm
    · rw [hqn]
      exact hth.hand
    · rw [hqo]
      exact hth.own rfl
  · rw [show (State.goto _ t p).pc t = p from Function.update_self .., hqw]
    refine (hi.listed t).trans ?_
    rw [Pc.eq_idle hp]
    rfl
  · intro u h hu hs hfront
    refine hfront ?_
    rintro rfl
    rw [show (State.goto _ u p).pc u = p from Function.update_self ..] at hu
    rw [hu] at hqw
    cases hqw

theorem step_waitInv {a : Act N T} (hi : WaitInv s s.pc) (hc : CoreInv s)
    (hr : ∀ u, (s.pc u).pops = true → u ∈ s.records) (hs : queue.step s a = some s') :
    WaitInv s' s'.pc := by
  cases a with
  | push t n v =>
      simp only [queue] at hs
      split at hs <;> cases hs
      next hcond =>
        obtain ⟨hp, ha⟩ := hcond
        have hg := hi.goto (t := t) (p := .pushXchg n) (by rw [Pc.eq_idle hp]; rfl) rfl
          (by rintro ⟨⟩) (fun _ => (hi.thread t).clean (by rw [Pc.eq_idle hp]; rfl))
          (by rintro ⟨⟩)
        refine hg.congr ⟨rfl, rfl, fun _ h => h, rfl, rfl, rfl, rfl, rfl, rfl, rfl⟩ rfl
          fun m hm => ?_
        refine Eq.trans ?_ (hi.next m hm)
        have hmn : m ≠ n := by
          rintro rfl
          rw [hc.alloc m (List.mem_of_mem_head? hm)] at ha
          cases ha
        exact congrArg Link.decodeWaiter (Function.update_of_ne hmn ..)
  | pop t =>
      simp only [queue] at hs
      split at hs <;> cases hs
      next hp => exact hi.call hp rfl rfl (fun _ => List.mem_insert_of_mem) rfl
  | tryPop t =>
      simp only [queue] at hs
      split at hs <;> cases hs
      next hp => exact hi.call hp rfl rfl (fun _ h => h) rfl
  | step t c =>
      obtain ⟨s₁, h1, rfl⟩ := Option.map_eq_some_iff.mp hs
      exact (stepThread_waitInv hi hc hr h1).same
        ⟨rfl, rfl, fun _ h => h, rfl, rfl, rfl, rfl, rfl, rfl, rfl⟩ rfl rfl rfl

/-- The record of a thread in `pop` is in use. -/
theorem step_records {a : Act N T} (hr : ∀ u, (s.pc u).pops = true → u ∈ s.records)
    (hs : queue.step s a = some s') (u : Nat) (hu : (s'.pc u).pops = true) : u ∈ s'.records := by
  cases a with
  | push t n v =>
      simp only [queue] at hs
      split at hs <;> cases hs
      refine hr u ?_
      rcases eq_or_ne u t with rfl | hut
      · rw [goto_pc, Function.update_self] at hu
        cases hu
      · rwa [goto_pc, Function.update_of_ne hut] at hu
  | pop t =>
      simp only [queue] at hs
      split at hs <;> cases hs
      rcases eq_or_ne u t with rfl | hut
      · exact List.mem_insert_self
      · rw [goto_pc, Function.update_of_ne hut] at hu
        exact List.mem_insert_of_mem (hr u hu)
  | tryPop t =>
      simp only [queue] at hs
      split at hs <;> cases hs
      refine hr u ?_
      rcases eq_or_ne u t with rfl | hut
      · rw [goto_pc, Function.update_self] at hu
        cases hu
      · rwa [goto_pc, Function.update_of_ne hut] at hu
  | step t c =>
      obtain ⟨s₁, h1, rfl⟩ := Option.map_eq_some_iff.mp hs
      have he := stepThread_effect h1
      have hrec : (s₁.tick t).records = s.records := he.records
      rw [hrec]
      refine hr u ?_
      rcases eq_or_ne u t with rfl | hut
      · exact he.pops hu
      · rw [← he.pc u hut]
        exact hu

/-- What holds of the threads and the waiters in every reachable state. -/
structure QueueInv (s : State N T) : Prop where
  core : CoreInv s
  waits : WaitInv s s.pc
  records : ∀ u, (s.pc u).pops = true → u ∈ s.records

omit [DecidableEq N] in
theorem waitInv_start [DecidableEq N] {stub : N} {item : N → T} :
    WaitInv (State.start stub item) (State.start stub item).pc := by
  have hempty (p : Place) : (State.start stub item).listAt p = [] := by cases p <;> rfl
  refine ⟨⟨fun p => ?_, fun p => ?_, fun p q x hx => ?_⟩, rfl, fun h _ => rfl, fun u => ?_,
    fun w => ?_, fun w => ?_, fun u h => ?_⟩
  · rw [hempty]
    exact Walk.nil
  · rw [hempty]
    exact List.nodup_nil
  · rw [hempty] at hx
    cases hx
  · exact ⟨fun _ => rfl, by rintro ⟨⟩, by rintro ⟨⟩, by rintro ⟨⟩, rfl, fun _ => rfl,
      fun h => absurd rfl h, fun _ => rfl⟩
  · refine ⟨?_, fun h => (nomatch h.1)⟩
    rintro ⟨p, hw⟩
    rw [hempty] at hw
    cases hw
  · rintro ⟨p, hw⟩
    rw [hempty] at hw
    cases hw
  · rintro ⟨⟩

theorem step_queueInv {a : Act N T} (hi : QueueInv s) (hs : queue.step s a = some s') :
    QueueInv s' :=
  ⟨step_coreInv hi.core hs, step_waitInv hi.waits hi.core hi.records hs,
    step_records hi.records hs⟩

theorem reachable_queueInv (hr : queue.Reachable s) : QueueInv s := by
  refine hr.invariant ?_ fun _ _ _ hi _ hs => step_queueInv hi hs
  rintro _ ⟨stub, item, rfl⟩
  exact ⟨coreInv_start, waitInv_start, by rintro u ⟨⟩⟩

end Coroactors.Queue
