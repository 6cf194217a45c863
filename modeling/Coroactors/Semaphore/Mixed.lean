/-
  Coroactors.Semaphore.Mixed

  When `sync_semaphore` with different counts leaves a thread asleep that could
  go on.

  `release(1)` wakes one thread, whoever that is.  If that thread asks for more
  than another blocked thread that could go on, it may go back to sleep, and the
  wakeup is lost.  That is the only way: as long as every `notify_one` wakes a
  thread that asks for no more than any blocked thread that could go on, a
  blocked thread that could go on has a notification coming, or enough awake
  threads in front of it to use up what is available.
-/

import Coroactors.Semaphore.Packed

namespace Coroactors.Semaphore.Counts

open Coroactors.Conc

variable {bits : Nat} {s s' : State} {t u : Nat} {c : Choice}

-- ============================================================================
-- Sleeping although there is enough
-- ============================================================================

/-- A thread is blocked although the units it asks for are available, no
    `release` is about to notify, and no other thread is awake in `acquire`. -/
def Stranded (s : State) : Prop :=
  (∃ t n v, s.pc t = .blocked n v ∧ n ≤ s.value / 4) ∧
    ∀ u, (s.pc u).isNotify = false ∧ (s.pc u).isFresh = false ∧ (s.pc u).isAwake = false

/-- `notify_one` does not wake a thread that asks for more than a blocked thread
    that could go on. -/
def WakesSmallest (s : State) : Act → Prop
  | .step t (.wake w) => ∀ n, s.pc t = .notify n → n ≤ 1 →
      ∀ b m k, b ∈ s.blocked → (s.pc b).count = some m → m ≤ s.value / 4 →
        (s.pc w).count = some k → k ≤ m
  | _ => True

/-- The total stays in range, and wakeups go to small requests. -/
def StepOk (bits : Nat) (s : State) (a : Act) : Prop := InRange bits s a ∧ WakesSmallest s a

-- ============================================================================
-- The invariant
-- ============================================================================

/-- The thread asks for at most `m` units. -/
def Pc.asks (p : Pc) (m : Int) : Bool := p.count.any (· ≤ m)

/-- The number of awake threads that ask for at most `m` units. -/
def State.helpers (s : State) (m : Int) : Nat := s.awake.countP fun t => (s.pc t).asks m

/-- A thread is about to wake all. -/
def State.waking (s : State) : Prop := ∃ u n, s.pc u = .notify n ∧ 1 < n

structure Enough (s : State) : Prop where
  notifying : ∀ t, t ∈ s.notifying ↔ s.pc t = .notify 1
  nodup : s.notifying.Nodup
  enough : ∀ t m, t ∈ s.blocked → (s.pc t).count = some m →
    s.value / 4 < m + s.helpers m + s.notifying.length ∨ s.waking

/-- The number of awake threads that a change of the other threads' places leaves. -/
theorem helpers_update {p : Pc} {l : List Nat} {m : Int}
    (h : t ∉ l ∨ p.count = (s.pc t).count) :
    l.countP (fun u => (Function.update s.pc t p u).asks m) = l.countP fun u => (s.pc u).asks m := by
  refine List.countP_congr fun u hu => ?_
  rw [Pc.asks, Pc.asks]
  by_cases hut : u = t
  · subst hut
    have hp : p.count = (s.pc u).count := h.resolve_left (not_not.mpr hu)
    rw [Function.update_self, hp]
  · rw [Function.update_of_ne hut]

/-- A thread that leaves the awake threads helped at most once. -/
theorem helpers_erase {m n : Int} (ht : t ∈ s.awake) (hn : (s.pc t).count = some n) :
    s.helpers m = (s.awake.erase t).countP (fun t => (s.pc t).asks m) + if n ≤ m then 1 else 0 := by
  have hperm := (List.perm_cons_erase ht).countP_eq fun t => (s.pc t).asks m
  rw [State.helpers, hperm, List.countP_cons, Pc.asks, hn]
  simp

theorem Pc.isNotify_of_isFresh {p : Pc} (h : p.isFresh = true) : p.isNotify = false := by
  cases p <;> first | rfl | cases h

theorem Pc.isNotify_of_isAwake {p : Pc} (h : p.isAwake = true) : p.isNotify = false := by
  cases p <;> first | rfl | cases h

theorem Pc.isNotify_of_isBlocked {p : Pc} (h : p.isBlocked = true) : p.isNotify = false := by
  cases p <;> first | rfl | cases h

theorem Pc.ne_notify {p : Pc} {n : Int} (h : p.isNotify = false) : p ≠ .notify n := by
  rintro rfl
  cases h

/-- A step from and to places that do not give out a notification. -/
theorem Enough.quiet (hi : Enough s) {p : Pc} (ht : s.pc t ≠ .notify 1) (hp : p ≠ .notify 1)
    (u : Nat) : u ∈ s.notifying ↔ Function.update s.pc t p u = .notify 1 := by
  rw [hi.notifying u]
  by_cases hut : u = t
  · subst hut
    simp only [Function.update_self, ht, hp]
  · rw [Function.update_of_ne hut]

/-- A thread that is not notifying makes a step: only the bound is to be shown,
    and only while nobody is about to wake all. -/
theorem Enough.change (hi : Enough s) {p : Pc} (hpc : s'.pc = Function.update s.pc t p)
    (ht : (s.pc t).isNotify = false) (hp : p.isNotify = false)
    (hn : s'.notifying = s.notifying)
    (he : ∀ b m, b ∈ s'.blocked → (s'.pc b).count = some m → ¬ s.waking →
      s'.value / 4 < m + s'.helpers m + s.notifying.length) : Enough s' := by
  refine ⟨fun u => ?_, hn ▸ hi.nodup, fun b m hb hm => ?_⟩
  · rw [hn, hpc]
    exact hi.quiet (Pc.ne_notify ht) (Pc.ne_notify hp) u
  · by_cases hw : s.waking
    · obtain ⟨u, n, hu, h1⟩ := hw
      refine .inr ⟨u, n, ?_, h1⟩
      have hut : u ≠ t := by
        rintro rfl
        exact Pc.ne_notify ht hu
      rw [hpc, Function.update_of_ne hut, hu]
    · rw [hn]
      exact .inl (he b m hb hm hw)

/-- The bound for a thread that stays blocked. -/
theorem Enough.bound (hi : Enough s) {b : Nat} {m : Int} (hb : b ∈ s.blocked)
    (hm : (s.pc b).count = some m) (hw : ¬ s.waking) :
    s.value / 4 < m + s.helpers m + s.notifying.length :=
  (hi.enough b m hb hm).resolve_right hw

theorem Enough.tally (hi : Enough s) : Enough s.tally := ⟨hi.notifying, hi.nodup, hi.enough⟩

-- ============================================================================
-- The steps keep the invariant
-- ============================================================================

/-- A thread that is not registered goes on, or takes units. -/
theorem Enough.fresh (hi : Enough s) {p : Pc} {v a : Int}
    (ht : (s.pc t).isNotify = false) (hpn : p.isNotify = false)
    (hpc : p.count = (s.pc t).count ∨ t ∉ s.awake ∧ t ∉ s.blocked) (hv : v ≤ s.value) :
    Enough ({ s with value := v, acquired := a }.goto t p) := by
  refine hi.change rfl ht hpn rfl ?_
  intro b m hb hm hw
  simp only [State.goto] at hb hm
  have hm' : (s.pc b).count = some m := by
    by_cases hbt : b = t
    · subst hbt
      rw [Function.update_self] at hm
      rcases hpc with h | ⟨-, h⟩
      · rwa [← h]
      · exact absurd hb h
    · rwa [Function.update_of_ne hbt] at hm
  have hold := hi.bound hb hm' hw
  have hhelp : ({ s with value := v, acquired := a }.goto t p).helpers m = s.helpers m :=
    helpers_update (hpc.symm.imp And.left id)
  rw [hhelp]
  simp only [State.goto]
  omega

/-- A thread registers. -/
theorem Enough.enlist (hi : Enough s) (hp : Packed bits s) {n v w : Int}
    (hfr : (s.pc t).isFresh = true) (hn : (s.pc t).count = some n) (hv : v / 4 = s.value / 4) :
    Enough ({ s with value := v }.enlist t n w) := by
  have ht := Pc.isNotify_of_isFresh hfr
  have hb : t ∉ s.blocked := by
    rw [hp.blocked t, Pc.isBlocked_of_isFresh hfr]
    simp
  refine hi.change rfl ht rfl rfl ?_
  intro b m hbm hm hw
  simp only [State.enlist, State.goto] at hbm hm
  have hbt : b ≠ t := by
    rintro rfl
    exact hb hbm
  rw [Function.update_of_ne hbt] at hm
  have hold := hi.bound hbm hm hw
  have hhelp : s.helpers m ≤ ({ s with value := v }.enlist t n w).helpers m := by
    simp only [State.helpers, State.enlist, State.goto, List.countP_cons]
    rw [helpers_update (p := .slow n w) (.inr hn.symm)]
    exact Nat.le_add_right _ _
  simp only [State.enlist, State.goto] at hhelp ⊢
  omega

/-- A registered thread leaves with its units. -/
theorem Enough.leave (hi : Enough s) (hp : Packed bits s) {n v : Int}
    (ha : (s.pc t).isAwake = true) (hn : (s.pc t).count = some n) (hv : v / 4 ≤ s.value / 4 - n) :
    Enough ({ s with value := v }.leave t n) := by
  have ht := Pc.isNotify_of_isAwake ha
  have hb : t ∉ s.blocked := by
    rw [hp.blocked t, Pc.isBlocked_of_isAwake ha]
    simp
  have hpos := (hp.count t n hn).1
  have hnot : t ∉ s.awake.erase t := fun h => (hp.awakeNodup.mem_erase_iff.mp h).1 rfl
  refine hi.change rfl ht rfl rfl ?_
  intro b m hbm hm hw
  simp only [State.leave, State.goto] at hbm hm
  have hbt : b ≠ t := by
    rintro rfl
    exact hb hbm
  rw [Function.update_of_ne hbt] at hm
  have hold := hi.bound hbm hm hw
  have hhelp := helpers_erase (s := s) (m := m) ((hp.awake t).mpr ha) hn
  have hnew : ({ s with value := v }.leave t n).helpers m =
      (s.awake.erase t).countP fun u => (s.pc u).asks m := helpers_update (.inl hnot)
  rw [hnew]
  simp only [State.leave, State.goto]
  split at hhelp <;> omega

/-- A registered thread blocks: what it asks for is not there. -/
theorem Enough.block (hi : Enough s) (hp : Packed bits s) {n : Int}
    (ha : (s.pc t).isAwake = true) (hn : (s.pc t).count = some n) (hlt : s.value < 4 * n) :
    Enough (s.block t n s.value) := by
  have ht := Pc.isNotify_of_isAwake ha
  have hnot : t ∉ s.awake.erase t := fun h => (hp.awakeNodup.mem_erase_iff.mp h).1 rfl
  refine hi.change rfl ht rfl rfl ?_
  intro b m hbm hm hw
  simp only [State.block, State.goto, List.mem_cons] at hbm hm
  have hnew : (s.block t n s.value).helpers m =
      (s.awake.erase t).countP fun u => (s.pc u).asks m := helpers_update (.inl hnot)
  rw [hnew]
  simp only [State.block, State.goto]
  by_cases hbt : b = t
  · subst hbt
    rw [Function.update_self] at hm
    cases hm
    omega
  · rw [Function.update_of_ne hbt] at hm
    have hold := hi.bound (hbm.resolve_left hbt) hm hw
    have hhelp := helpers_erase (s := s) (m := m) ((hp.awake t).mpr ha) hn
    -- a thread that asks for more does not help, one that asks for less bounds what is there
    split at hhelp <;> omega

/-- A blocked thread becomes a helper of the threads that ask for as much. -/
theorem helpers_wakeUp {w : Nat} {m : Int} :
    (s.wakeUp w).helpers m = s.helpers m + if (s.pc w).asks m then 1 else 0 := by
  simp only [State.helpers, State.wakeUp, List.countP_cons]
  rw [helpers_update (.inr (Pc.wake_count _)), Function.update_self, Pc.asks, Pc.wake_count, Pc.asks]

theorem Enough.wakeUp (hi : Enough s) (hp : Packed bits s) (hb : (s.pc t).isBlocked = true) :
    Enough (s.wakeUp t) := by
  have ht := Pc.isNotify_of_isBlocked hb
  refine hi.change rfl ht (by rw [Pc.wake_isNotify, ht]) rfl ?_
  intro b m hbm hm hw
  obtain ⟨hbt, hbm⟩ := hp.blockedNodup.mem_erase_iff.mp hbm
  simp only [State.wakeUp, Function.update_of_ne hbt] at hm
  have hold := hi.bound hbm hm hw
  have hhelp := helpers_wakeUp (s := s) (w := t) (m := m)
  simp only [State.wakeUp] at hhelp ⊢
  omega

/-- `fetch_add`: more units, and a notification if there may be a blocked thread. -/
theorem Enough.add (hi : Enough s) {n : Int} {p : Pc} {l : List Nat} (hpa : s.pc t = .add n)
    (hl : ∀ u, u ∈ l ↔ Function.update s.pc t p u = .notify 1) (hnd : l.Nodup)
    (he : s.blocked = [] ∨ n = 1 ∧ l.length = s.notifying.length + 1 ∨ ∃ n, p = .notify n ∧ 1 < n)
    (hb : t ∉ s.blocked) (ha : t ∉ s.awake) :
    Enough ({ s with
      value := s.value + 4 * n
      released := s.released + n
      notifying := l }.goto t p) := by
  refine ⟨hl, hnd, fun b m hbm hm => ?_⟩
  have hbt : b ≠ t := by
    rintro rfl
    exact hb hbm
  simp only [State.goto, Function.update_of_ne hbt] at hm
  rcases he with he | ⟨rfl, hlen⟩ | ⟨k, rfl, hk⟩
  · simp only [State.goto, he] at hbm
    cases hbm
  · rcases hi.enough b m hbm hm with h | ⟨u, k, hu, hk⟩
    · refine .inl ?_
      have hhelp : s.awake.countP (fun u => (Function.update s.pc t p u).asks m) = s.helpers m :=
        helpers_update (.inl ha)
      simp only [State.goto, State.helpers] at hhelp h ⊢
      rw [hhelp]
      omega
    · have hut : u ≠ t := by
        rintro rfl
        rw [hpa] at hu
        cases hu
      exact .inr ⟨u, k, by simp only [State.goto, Function.update_of_ne hut, hu], hk⟩
  · exact .inr ⟨t, k, by simp only [State.goto, Function.update_self], hk⟩

/-- Nobody is blocked. -/
theorem Enough.of_nobody (hnot : ∀ u, u ∈ s.notifying ↔ s.pc u = .notify 1)
    (hnd : s.notifying.Nodup) (hb : s.blocked = []) : Enough s := by
  refine ⟨hnot, hnd, fun b m hbm => ?_⟩
  rw [hb] at hbm
  cases hbm

/-- The notifications without the one that was given out. -/
theorem Enough.erase (hi : Enough s) (hp : s.pc t = .notify 1) (u : Nat) :
    u ∈ s.notifying.erase t ↔ Function.update s.pc t .idle u = .notify 1 := by
  rw [hi.nodup.mem_erase_iff, hi.notifying u]
  by_cases hut : u = t
  · subst hut
    simp
  · rw [Function.update_of_ne hut]
    exact and_iff_right hut

/-- `notify_one` wakes a thread that asks for no more than those that could go
    on. -/
theorem Enough.notifyOne (hi : Enough s) (hp : Packed bits s) {w : Nat}
    (hpt : s.pc t = .notify 1) (hw : w ∈ s.blocked)
    (hok : ∀ b m k, b ∈ s.blocked → (s.pc b).count = some m → m ≤ s.value / 4 →
      (s.pc w).count = some k → k ≤ m) :
    Enough (({ s with notifying := s.notifying.erase t }.goto t .idle).wakeUp w) := by
  have hmem : t ∈ s.notifying := (hi.notifying t).mpr hpt
  have hlen := List.length_erase_of_mem hmem
  have hpos := List.length_pos_of_mem hmem
  have hwt : w ≠ t := by
    rintro rfl
    have := (hp.blocked w).mp hw
    rw [hpt] at this
    cases this
  have hta : t ∉ s.awake := by
    rw [hp.awake t, hpt]
    simp [Pc.isAwake]
  obtain ⟨k, hk⟩ : ∃ k, (s.pc w).count = some k := by
    have := (hp.blocked w).mp hw
    revert this
    cases s.pc w <;> simp [Pc.isBlocked, Pc.count]
  have hpc : ∀ u, (({ s with notifying := s.notifying.erase t }.goto t .idle).wakeUp w).pc u =
      Function.update (Function.update s.pc t .idle) w (s.pc w).wake u := by
    intro u
    simp only [State.wakeUp, State.goto, Function.update_of_ne hwt]
  refine ⟨fun u => ?_, hi.nodup.erase t, fun b m hbm hm => ?_⟩
  · rw [hpc]
    by_cases huw : u = w
    · subst huw
      have h1 : u ∉ s.notifying.erase t := by
        intro h
        have := (hi.notifying u).mp (List.mem_of_mem_erase h)
        have hb := (hp.blocked u).mp hw
        rw [this] at hb
        cases hb
      have h2 : (s.pc u).wake ≠ .notify 1 := by
        have hb := (hp.blocked u).mp hw
        revert hb
        cases s.pc u <;> simp [Pc.isBlocked, Pc.wake]
      simp only [Function.update_self, h2, iff_false]
      exact h1
    · rw [Function.update_of_ne huw]
      exact hi.erase hpt u
  · obtain ⟨hbw, hbs⟩ := hp.blockedNodup.mem_erase_iff.mp hbm
    have hbt : b ≠ t := by
      rintro rfl
      have := (hp.blocked b).mp hbs
      rw [hpt] at this
      cases this
    rw [hpc, Function.update_of_ne hbw, Function.update_of_ne hbt] at hm
    rcases hi.enough b m hbs hm with h | ⟨u, j, hu, hj⟩
    · refine .inl ?_
      have hhelp := helpers_wakeUp (s := { s with notifying := s.notifying.erase t }.goto t .idle)
        (w := w) (m := m)
      have hsame : ({ s with notifying := s.notifying.erase t }.goto t .idle).helpers m =
          s.helpers m := helpers_update (.inl hta)
      have hasks : (({ s with notifying := s.notifying.erase t }.goto t .idle).pc w).asks m =
          decide (k ≤ m) := by
        simp only [State.goto, Function.update_of_ne hwt, Pc.asks, hk, Option.any_some]
      rw [hhelp, hsame, hasks]
      simp only [State.wakeUp, State.goto, hlen]
      by_cases hle : m ≤ s.value / 4
      · have := hok b m k hbs hm hle hk
        simp only [this, decide_true, if_true]
        omega
      · split <;> omega
    · have hut : u ≠ t := by
        rintro rfl
        rw [hpt] at hu
        cases hu
        omega
      have huw : u ≠ w := by
        rintro rfl
        have := (hp.blocked u).mp hw
        rw [hu] at this
        cases this
      exact .inr ⟨u, j, by rw [hpc, Function.update_of_ne huw, Function.update_of_ne hut, hu], hj⟩

theorem ThreadStep.enough (hp : Packed bits s) (hi : Enough s)
    (hok : WakesSmallest s (.step t c)) (h : ThreadStep s t c s') : Enough s' := by
  have hmem : ∀ {p : Pc}, s.pc t = p → p.isBlocked = false → p.isAwake = false →
      t ∉ s.blocked ∧ t ∉ s.awake := by
    rintro p rfl hb ha
    rw [hp.blocked t, hp.awake t, hb, ha]
    simp
  cases h with
  | @move p hpl hv =>
      exact hi.fresh (v := s.value) (a := s.acquired) hpl.quietBefore hpl.quiet (.inl hpl.count)
        (Int.le_refl _)
  | @add n hpt hz =>
      have hnil : s.blocked = [] := by
        have hpk : s.peak < 3 := by
          by_contra hge
          have := hp.sticky (by omega)
          omega
        have hcount := hp.counted hpk
        rw [State.registered] at hcount
        exact List.length_eq_zero_iff.mp (by omega)
      exact .of_nobody (hi.quiet (by simp [hpt]) (by simp)) hi.nodup hnil
  | @addOne n hpt hz h1 =>
      obtain ⟨hb, ha⟩ := hmem hpt rfl rfl
      have hnot : t ∉ s.notifying := by
        rw [hi.notifying t, hpt]
        simp
      subst h1
      refine hi.add hpt (fun u => ?_) (List.nodup_cons.mpr ⟨hnot, hi.nodup⟩)
        (.inr (.inl ⟨rfl, rfl⟩)) hb ha
      rw [List.mem_cons, hi.notifying u]
      by_cases hut : u = t
      · simp [hut]
      · simp [hut]
  | @addMany n hpt hz h1 =>
      obtain ⟨hb, ha⟩ := hmem hpt rfl rfl
      have hne : Pc.notify n ≠ .notify 1 := by
        rintro ⟨⟩
        omega
      exact hi.add hpt (hi.quiet (by simp [hpt]) hne) hi.nodup (.inr (.inr ⟨n, rfl, h1⟩)) hb ha
  | @notifyAll n hpt h1 =>
      have hne : Pc.notify n ≠ .notify 1 := by
        rintro ⟨⟩
        omega
      refine .of_nobody (fun u => ?_) hi.nodup rfl
      have hwake : ∀ p : Pc, p.wake = .notify 1 ↔ p = .notify 1 := by
        intro p
        cases p <;> simp [Pc.wake]
      have hquiet := hi.quiet (t := t) (p := .idle) (by rwa [hpt]) (by simp) u
      simp only [State.goto, State.wakeAll]
      rw [hquiet]
      by_cases hut : u = t
      · simp [hut]
      · rw [Function.update_of_ne hut, Function.update_of_ne hut, hwake]
  | @notifyNone n hpt h1 hb =>
      subst h1
      exact .of_nobody (hi.erase hpt) (hi.nodup.erase t) hb
  | @notifyOne n w hpt h1 hc hw =>
      subst h1 hc
      exact hi.notifyOne hp hpt hw (hok 1 hpt (Int.le_refl 1))
  | @took n hfr hn hle =>
      have hpos := (hp.count t n hn).1
      obtain ⟨hb, ha⟩ := hmem rfl (Pc.isBlocked_of_isFresh hfr) (Pc.isAwake_of_isFresh hfr)
      have hle' : s.value - 4 * n ≤ s.value := by omega
      exact hi.fresh (Pc.isNotify_of_isFresh hfr) rfl (.inr ⟨ha, hb⟩) hle'
  | @enlist n hfr hn h3 => exact hi.enlist hp hfr hn (by omega)
  | enlistFull hfr hn hv h3 => exact hi.enlist (v := s.value) hp hfr hn rfl
  | @leave n ha hn hle =>
      have hbits := hp.awake_bits ha
      refine hi.leave hp ha hn ?_
      split <;> omega
  | block ha hn hlt => exact hi.block hp ha hn hlt
  | wake hb => exact hi.wakeUp hp hb

-- ============================================================================
-- Runs
-- ============================================================================

theorem step_enough {a : Act} (hp : Packed bits s) (hi : Enough s) (hok : StepOk bits s a)
    (hs : (semaphore bits).step s a = some s') : Enough s' := by
  cases a with
  | release t n | acquire t n =>
      simp only [semaphore] at hs
      split at hs <;> cases hs
      next h =>
        have hnot : t ∉ s.awake ∧ t ∉ s.blocked := by
          rw [hp.awake t, hp.blocked t, h.1]
          simp [Pc.isAwake, Pc.isBlocked]
        exact hi.fresh (v := s.value) (a := s.acquired) (h.1 ▸ rfl) rfl (.inr hnot) (Int.le_refl _)
  | step t c =>
      obtain ⟨s₁, hs₁, rfl⟩ := Option.map_eq_some_iff.mp hs
      exact ((stepThread_cases hp hok.1 hs₁).enough hp hi hok.2).tally

theorem reachable_enough (hr : (semaphore bits).ReachableIf (StepOk bits) s) :
    Packed bits s ∧ Enough s := by
  refine hr.invariant (I := fun s => Packed bits s ∧ Enough s) ?_ ?_
  · rintro _ ⟨count, h0, hf, rfl⟩
    exact ⟨packed_start h0 hf, .of_nobody (by simp [State.start]) List.nodup_nil rfl⟩
  · rintro s a s' ⟨hp, hi⟩ hok hs
    exact ⟨step_packed hp hok.1 hs, step_enough hp hi hok hs⟩

/-- In every run in which the total stays in the range of the word and every
    `notify_one` wakes a thread that asks for no more than the blocked threads
    that could go on, no thread is left asleep with enough units available. -/
theorem not_stranded_of_wakesSmallest (bits : Nat) :
    ¬ ∃ s, (semaphore bits).ReachableIf (StepOk bits) s ∧ Stranded s := by
  rintro ⟨s, hr, ⟨t, n, v, hpt, hle⟩, hquiet⟩
  obtain ⟨hp, hi⟩ := reachable_enough hr
  have hawake : s.awake = [] := by
    refine List.eq_nil_iff_forall_not_mem.mpr fun u hu => ?_
    rw [hp.awake u, (hquiet u).2.2] at hu
    cases hu
  have hnotifying : s.notifying = [] := by
    refine List.eq_nil_iff_forall_not_mem.mpr fun u hu => ?_
    exact Pc.ne_notify (hquiet u).1 ((hi.notifying u).mp hu)
  rcases hi.enough t n ((hp.blocked t).mpr (hpt ▸ rfl)) (hpt ▸ rfl) with h | ⟨u, k, hu, -⟩
  · rw [State.helpers, hawake, hnotifying] at h
    simp only [List.countP_nil, List.length_nil] at h
    omega
  · exact Pc.ne_notify (hquiet u).1 hu

/-- Two threads block, one for five units and one for a single unit; `release(1)`
    wakes the one that needs five. -/
def wrongWakeup : List Act :=
  [.acquire 1 5, .step 1 .go, .step 1 .go, .step 1 .go, .step 1 .go,
    .acquire 2 1, .step 2 .go, .step 2 .go, .step 2 .go, .step 2 .go,
    .release 0 1, .step 0 .go, .step 0 (.wake 1), .step 1 .go, .step 1 .go]

/-- The single unit stays there, and both threads sleep. -/
theorem wakeup_lost : ∃ s, (semaphore 32).Reachable s ∧ Stranded s := by
  let places : List (Nat × Pc) :=
    [(1, .fast 5), (1, .spin 5 0), (1, .register 5 0), (1, .slow 5 1), (1, .blocked 5 1),
      (2, .fast 1), (2, .spin 1 1), (2, .register 1 1), (2, .slow 1 2), (2, .blocked 1 2),
      (0, .add 1), (0, .notify 1), (0, .idle), (1, .reload 5), (1, .slow 5 6), (1, .blocked 5 6)]
  let s : State :=
    { State.start 32 0 with
      value := 6
      blocked := [1, 2]
      released := 1
      peak := 2
      pc := places.foldl (fun pc p => Function.update pc p.1 p.2) fun _ => .idle }
  have hrun : (semaphore 32).run (.start 32 0) wrongWakeup = some s := rfl
  have hinit : (semaphore 32).init (.start 32 0) := ⟨0, by decide, by unfold Fits; decide, rfl⟩
  have hpc : ∀ u, s.pc u = .idle ∨ ∃ n v, s.pc u = .blocked n v := by
    intro u
    by_cases h1 : u = 1
    · exact .inr ⟨5, 6, h1 ▸ rfl⟩
    by_cases h2 : u = 2
    · exact .inr ⟨1, 2, h2 ▸ rfl⟩
    exact .inl (by simp [s, places, Function.update_apply, h1, h2])
  refine ⟨s, System.reachable_of_run (.init hinit) hrun, ⟨2, 1, 2, rfl, by decide⟩, fun u => ?_⟩
  rcases hpc u with h | ⟨n, v, h⟩ <;> rw [h] <;> exact ⟨rfl, rfl, rfl⟩

end Coroactors.Semaphore.Counts
