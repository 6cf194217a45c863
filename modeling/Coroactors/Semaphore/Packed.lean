/-
  Coroactors.Semaphore.Packed

  The word of `sync_semaphore` conserves the count.

  As long as the total stays in the range of the word nothing wraps, so the
  comparisons on the combined value compare the available count, and every
  compare-exchange and `fetch_add` changes one field only.  The two lowest bits
  count the registered waiters exactly until there are three of them, and are
  not changed any more after that.

  `stepThread_cases` says once what a step can do, with the arithmetic of the
  word replaced by that of the numbers.
-/

import Coroactors.Semaphore.Counts

namespace Coroactors.Semaphore.Counts

open Coroactors.Conc

variable {bits : Nat} {s s' : State} {t u : Nat} {c : Choice}

-- ============================================================================
-- Threads
-- ============================================================================

/-- The value of the word that the thread saw last. -/
def Pc.seen : Pc → Option Int
  | .spin _ v | .register _ v | .slow _ v | .blocked _ v => some v
  | _ => none

/-- The count of the call. -/
def Pc.count : Pc → Option Int
  | .idle => none
  | .add n | .notify n | .fast n | .spin n _ | .register n _ | .slow n _ | .blocked n _
  | .reload n => some n

def Pc.isBlocked : Pc → Bool
  | .blocked .. => true
  | _ => false

/-- Registered and awake: the thread reads the word again before it blocks. -/
def Pc.isAwake : Pc → Bool
  | .slow .. | .reload _ => true
  | _ => false

/-- In `acquire`, and not registered. -/
def Pc.isFresh : Pc → Bool
  | .fast _ | .spin .. | .register .. => true
  | _ => false

def Pc.isNotify : Pc → Bool
  | .notify _ => true
  | _ => false

/-- In the same part of the same call, which is not a notification. -/
structure Pc.Alike (p q : Pc) : Prop where
  blocked : p.isBlocked = q.isBlocked
  awake : p.isAwake = q.isAwake
  count : p.count = q.count
  quiet : p.isNotify = false
  quietBefore : q.isNotify = false

@[simp] theorem Pc.wake_isBlocked (p : Pc) : p.wake.isBlocked = false := by
  cases p <;> rfl

@[simp] theorem Pc.wake_isAwake (p : Pc) : p.wake.isAwake = (p.isBlocked || p.isAwake) := by
  cases p <;> rfl

@[simp] theorem Pc.wake_count (p : Pc) : p.wake.count = p.count := by
  cases p <;> rfl

@[simp] theorem Pc.wake_isNotify (p : Pc) : p.wake.isNotify = p.isNotify := by
  cases p <;> rfl

theorem Pc.wake_seen {p : Pc} {v : Int} (h : p.wake.seen = some v) : p.seen = some v := by
  cases p <;> first | exact h | cases h

-- ============================================================================
-- The invariant
-- ============================================================================

structure Packed (bits : Nat) (s : State) : Prop where
  blocked : ∀ t, t ∈ s.blocked ↔ (s.pc t).isBlocked = true
  awake : ∀ t, t ∈ s.awake ↔ (s.pc t).isAwake = true
  blockedNodup : s.blocked.Nodup
  awakeNodup : s.awake.Nodup
  nonneg : 0 ≤ s.available
  fits : Fits bits s.available
  value : s.value / 4 = s.available
  /-- The waiters are counted, until there were three of them. -/
  counted : s.peak < 3 → s.value % 4 = s.registered
  sticky : 3 ≤ s.peak → s.value % 4 = 3
  peak : s.registered ≤ s.peak
  seen : ∀ t v, (s.pc t).seen = some v → v % 4 = 3 → 3 ≤ s.peak
  count : ∀ t n, (s.pc t).count = some n → 0 < n ∧ Fits bits n

-- ============================================================================
-- What a step can do
-- ============================================================================

inductive ThreadStep (s : State) (t : Nat) (c : Choice) : State → Prop
  /-- The thread goes on, and may have read the word. -/
  | move {p : Pc} : p.Alike (s.pc t) →
      (∀ v, p.seen = some v → v = s.value ∨ (s.pc t).seen = some v) → ThreadStep s t c (s.goto t p)
  /-- `fetch_add` that sees no waiter. -/
  | add {n : Int} : s.pc t = .add n → s.value % 4 = 0 →
      ThreadStep s t c ({ s with value := s.value + 4 * n, released := s.released + n }.goto t .idle)
  /-- `fetch_add` of one unit. -/
  | addOne {n : Int} : s.pc t = .add n → s.value % 4 ≠ 0 → n = 1 →
      ThreadStep s t c ({ s with
        value := s.value + 4 * n
        released := s.released + n
        notifying := t :: s.notifying }.goto t (.notify n))
  /-- `fetch_add` of more units. -/
  | addMany {n : Int} : s.pc t = .add n → s.value % 4 ≠ 0 → 1 < n →
      ThreadStep s t c
        ({ s with value := s.value + 4 * n, released := s.released + n }.goto t (.notify n))
  | notifyAll {n : Int} : s.pc t = .notify n → 1 < n → ThreadStep s t c (s.wakeAll.goto t .idle)
  | notifyNone {n : Int} : s.pc t = .notify n → n = 1 → s.blocked = [] →
      ThreadStep s t c ({ s with notifying := s.notifying.erase t }.goto t .idle)
  | notifyOne {n : Int} {w : Nat} : s.pc t = .notify n → n = 1 → c = .wake w → w ∈ s.blocked →
      ThreadStep s t c (({ s with notifying := s.notifying.erase t }.goto t .idle).wakeUp w)
  /-- A thread that is not registered gets its units. -/
  | took {n : Int} : (s.pc t).isFresh = true → (s.pc t).count = some n → 4 * n ≤ s.value →
      ThreadStep s t c ({ s with value := s.value - 4 * n }.took t n)
  | enlist {n : Int} : (s.pc t).isFresh = true → (s.pc t).count = some n → s.value % 4 ≠ 3 →
      ThreadStep s t c ({ s with value := s.value + 1 }.enlist t n (s.value + 1))
  /-- There are too many waiters to count. -/
  | enlistFull {n v : Int} : (s.pc t).isFresh = true → (s.pc t).count = some n →
      (s.pc t).seen = some v → v % 4 = 3 → ThreadStep s t c (s.enlist t n v)
  | leave {n : Int} : (s.pc t).isAwake = true → (s.pc t).count = some n → 4 * n ≤ s.value →
      ThreadStep s t c
        ({ s with value := s.value - 4 * n - if s.value % 4 = 3 then 0 else 1 }.leave t n)
  | block {n : Int} : (s.pc t).isAwake = true → (s.pc t).count = some n → s.value < 4 * n →
      ThreadStep s t c (s.block t n s.value)
  /-- `wait` returns by itself. -/
  | wake : (s.pc t).isBlocked = true → ThreadStep s t c (s.wakeUp t)

theorem wrap_eq {x : Int} (h0 : 0 ≤ x) (h : 2 * x < 2 ^ bits) : wrap bits x = x := by
  apply Int.bmod_eq_of_le_mul_two
  · push_cast
    omega
  · push_cast
    omega

theorem Packed.value_nonneg (hi : Packed bits s) : 0 ≤ s.value := by
  have := hi.nonneg
  have := hi.value
  omega

theorem Packed.value_lt (hi : Packed bits s) : 2 * s.value < 2 ^ bits := by
  have hf := hi.fits
  have := hi.value
  simp only [Fits, ValueIncrement, WaitersMask] at hf
  omega

/-- The increment of a call does not wrap. -/
theorem Packed.increment (hi : Packed bits s) {n : Int} (hn : (s.pc t).count = some n) :
    wrap bits (n * ValueIncrement) = 4 * n := by
  obtain ⟨h0, hf⟩ := hi.count t n hn
  simp only [Fits, ValueIncrement, WaitersMask] at hf ⊢
  rw [wrap_eq (by omega) (by omega)]
  omega

/-- A registered thread is counted, or there are too many of them. -/
theorem Packed.awake_bits (hi : Packed bits s) (ha : (s.pc t).isAwake = true)
    (h3 : s.value % 4 ≠ 3) : 1 ≤ s.value % 4 := by
  have hpk : s.peak < 3 := by
    by_contra hge
    exact h3 (hi.sticky (by omega))
  have hcount := hi.counted hpk
  have hpos := List.length_pos_of_mem ((hi.awake t).mpr ha)
  simp only [State.registered] at hcount
  omega

/-- A compare-exchange. -/
theorem ThreadStep.cas {v : Int} {failed : Int → Pc} {done : State → State} {x : Int}
    (hd : s.value = v → ThreadStep s t c (done { s with value := x }))
    (hf : (failed s.value).Alike (s.pc t)) (hv : (failed s.value).seen = some s.value) :
    ThreadStep s t c (s.cas t c v x done failed) := by
  unfold State.cas
  split
  · next h => exact hd h.1
  · refine .move hf ?_
    rintro w hw
    rw [hv] at hw
    exact .inl (Option.some.inj hw).symm

theorem stepThread_cases (hi : Packed bits s) (hok : InRange bits s (.step t c))
    (hs : stepThread bits s t c = some s') : ThreadStep s t c s' := by
  have h0 := hi.value_nonneg
  have hlt := hi.value_lt
  have hval := hi.value
  cases hp : s.pc t with
  | idle => simp [stepThread, hp] at hs
  | add n =>
      have hinc := hi.increment (t := t) (n := n) (hp ▸ rfl)
      have hpos := (hi.count t n (hp ▸ rfl)).1
      have hf : Fits bits (s.available + n) := hok n hp
      simp only [Fits, ValueIncrement, WaitersMask] at hf
      have hw : wrap bits (s.value + wrap bits (n * ValueIncrement)) = s.value + 4 * n := by
        rw [hinc, wrap_eq (by omega) (by omega)]
      simp only [stepThread, hp, hw, waiters] at hs
      split at hs
      · next hne =>
        split at hs <;> cases hs
        · next hn => exact .addMany hp hne hn
        · next hn => exact .addOne hp hne (by omega)
      · next hz =>
        cases hs
        exact .add hp (not_not.mp hz)
  | notify n =>
      have hpos := (hi.count t n (hp ▸ rfl)).1
      simp only [stepThread, hp] at hs
      split at hs
      · next hn =>
        cases hs
        exact .notifyAll hp hn
      · next hn =>
        split at hs <;> split at hs <;> cases hs
        · next w hw => exact .notifyOne hp (by omega) rfl hw
        · next hb => exact .notifyNone hp (by omega) hb
  | fast n =>
      have hinc := hi.increment (t := t) (n := n) (hp ▸ rfl)
      simp only [stepThread, hp, hinc] at hs
      split at hs <;> cases hs
      · next hv =>
        have htook := ThreadStep.took (s := s) (t := t) (c := c) (n := n) (hp ▸ rfl)
          (hp ▸ rfl) (by omega)
        rwa [hv, Int.sub_self] at htook
      · refine .move (hp ▸ ⟨rfl, rfl, rfl, rfl, rfl⟩) ?_
        rintro v ⟨⟩
        exact .inl rfl
  | spin n v =>
      have hinc := hi.increment (t := t) (n := n) (hp ▸ rfl)
      have hpos := (hi.count t n (hp ▸ rfl)).1
      simp only [stepThread, hp, hinc] at hs
      split at hs
      · next hle =>
        cases hs
        refine .cas ?_ (hp ▸ ⟨rfl, rfl, rfl, rfl, rfl⟩) rfl
        rintro rfl
        rw [wrap_eq (by omega) (by omega)]
        exact .took (hp ▸ rfl) (hp ▸ rfl) hle
      · split at hs <;> cases hs
        · refine .move (hp ▸ ⟨rfl, rfl, rfl, rfl, rfl⟩) ?_
          rintro v ⟨⟩
          exact .inl rfl
        · refine .move (hp ▸ ⟨rfl, rfl, rfl, rfl, rfl⟩) ?_
          rintro v ⟨⟩
          exact .inr (hp ▸ rfl)
  | register n v =>
      have hinc := hi.increment (t := t) (n := n) (hp ▸ rfl)
      obtain ⟨hpos, hf⟩ := hi.count t n (hp ▸ rfl)
      simp only [Fits, ValueIncrement, WaitersMask] at hf
      simp only [stepThread, hp, hinc] at hs
      split at hs
      · next hle =>
        cases hs
        refine .cas ?_ (hp ▸ ⟨rfl, rfl, rfl, rfl, rfl⟩) rfl
        rintro rfl
        rw [wrap_eq (by omega) (by omega)]
        exact .took (hp ▸ rfl) (hp ▸ rfl) hle
      · split at hs <;> cases hs
        · next hne =>
          refine .cas ?_ (hp ▸ ⟨rfl, rfl, rfl, rfl, rfl⟩) rfl
          rintro rfl
          rw [wrap_eq (by omega) (by omega)]
          exact .enlist (hp ▸ rfl) (hp ▸ rfl) hne
        · next hfull =>
          exact .enlistFull (hp ▸ rfl) (hp ▸ rfl) (hp ▸ rfl) (not_not.mp hfull)
  | slow n v =>
      have hinc := hi.increment (t := t) (n := n) (hp ▸ rfl)
      have hpos := (hi.count t n (hp ▸ rfl)).1
      simp only [stepThread, hp, hinc] at hs
      split at hs
      · next hle =>
        cases hs
        refine .cas ?_ (hp ▸ ⟨rfl, rfl, rfl, rfl, rfl⟩) rfl
        rintro rfl
        have hsub : wrap bits (s.value - 4 * n - decrementedWaiters s.value) =
            s.value - 4 * n - if s.value % 4 = 3 then 0 else 1 := by
          have hbits := hi.awake_bits (t := t) (hp ▸ rfl)
          by_cases h3 : s.value % 4 = 3
          · rw [decrementedWaiters, waiters, WaitersMask, if_pos h3, wrap_eq (by omega) (by omega)]
          · have := hbits h3
            rw [decrementedWaiters, waiters, WaitersMask, if_neg h3, wrap_eq (by omega) (by omega)]
        rw [hsub]
        exact .leave (hp ▸ rfl) (hp ▸ rfl) hle
      · next hlt =>
        split at hs <;> cases hs
        · next hv =>
          subst hv
          exact .block (hp ▸ rfl) (hp ▸ rfl) (by omega)
        · exact .move (hp ▸ ⟨rfl, rfl, rfl, rfl, rfl⟩)
            (by rintro v ⟨⟩)
  | blocked n v =>
      simp only [stepThread, hp] at hs
      split at hs <;> cases hs
      exact .wake (hp ▸ rfl)
  | reload n =>
      simp only [stepThread, hp] at hs
      cases hs
      refine .move (hp ▸ ⟨rfl, rfl, rfl, rfl, rfl⟩) ?_
      rintro v ⟨⟩
      exact .inl rfl

-- ============================================================================
-- The steps keep the invariant
-- ============================================================================

theorem Fits.mono {m n : Int} (h : Fits bits n) (hle : m ≤ n) : Fits bits m := by
  simp only [Fits, ValueIncrement, WaitersMask] at h ⊢
  omega

theorem Pc.isAwake_of_isBlocked {p : Pc} (h : p.isBlocked = true) : p.isAwake = false := by
  cases p <;> first | rfl | cases h

theorem Pc.isBlocked_of_isAwake {p : Pc} (h : p.isAwake = true) : p.isBlocked = false := by
  cases p <;> first | rfl | cases h

theorem Pc.isBlocked_of_isFresh {p : Pc} (h : p.isFresh = true) : p.isBlocked = false := by
  cases p <;> first | rfl | cases h

theorem Pc.isAwake_of_isFresh {p : Pc} (h : p.isFresh = true) : p.isAwake = false := by
  cases p <;> first | rfl | cases h

/-- The waiters bits are full only after three threads were registered. -/
theorem Packed.full (hi : Packed bits s) (h3 : s.value % 4 = 3) : 3 ≤ s.peak := by
  by_contra hlt
  have hcount := hi.counted (by omega)
  have hpeak := hi.peak
  omega

theorem Packed.tally (hi : Packed bits s) : s.tally = s := by
  rw [State.tally, Nat.max_eq_left hi.peak]

attribute [local grind] Pc.seen Pc.isBlocked Pc.isAwake Pc.count

/-- A thread goes on in the same part of its call. -/
theorem Packed.goto (hi : Packed bits s) {p : Pc} (hb : p.isBlocked = (s.pc t).isBlocked)
    (ha : p.isAwake = (s.pc t).isAwake) (hn : ∀ n, p.count = some n → 0 < n ∧ Fits bits n)
    (hv : ∀ v, p.seen = some v → v % 4 = 3 → 3 ≤ s.peak) : Packed bits (s.goto t p) := by
  obtain ⟨⟩ := hi
  constructor
  case blockedNodup | awakeNodup | nonneg | fits | value | counted | sticky | peak => assumption
  all_goals
    intros
    simp only [State.goto, Function.update_apply] at *
    grind -linarith

/-- Units are added or taken, and nobody registers. -/
theorem Packed.setUnits (hi : Packed bits s) {v r a : Int} (hmod : v % 4 = s.value % 4)
    (hv : v / 4 = s.initial + r - a) (h0 : 0 ≤ s.initial + r - a)
    (hf : Fits bits (s.initial + r - a)) :
    Packed bits { s with value := v, released := r, acquired := a } := by
  obtain ⟨⟩ := hi
  constructor
  case value => exact hv
  case nonneg => exact h0
  case fits => exact hf
  all_goals
    simp only [State.registered, hmod] at *
    assumption

/-- A thread registers: it is counted, or there were three. -/
theorem Packed.enlist (hi : Packed bits s) {n v w : Int} (hfr : (s.pc t).isFresh = true)
    (hn : (s.pc t).count = some n)
    (hv : v = s.value ∧ 3 ≤ s.peak ∨ v = s.value + 1 ∧ s.value % 4 ≠ 3)
    (hw : w = v ∨ 3 ≤ s.peak) : Packed bits ({ s with value := v }.enlist t n w).tally := by
  have hb := Pc.isBlocked_of_isFresh hfr
  have ha := Pc.isAwake_of_isFresh hfr
  have hnot : t ∉ s.awake := by
    rw [hi.awake t, ha]
    simp
  have hpeak : s.value % 4 ≠ 3 → s.peak < 3 := by
    intro h3
    by_contra hge
    exact h3 (hi.sticky (by omega))
  obtain ⟨⟩ := hi
  constructor
  case blockedNodup | nonneg | fits => assumption
  case awakeNodup => exact List.nodup_cons.mpr ⟨hnot, ‹_›⟩
  case counted | sticky | value | peak =>
      simp only [State.tally, State.enlist, State.goto, State.registered, State.available,
        List.length_cons] at *
      grind -linarith
  all_goals
    intros
    simp only [State.tally, State.enlist, State.goto, State.registered, Function.update_apply,
      List.mem_cons] at *
    grind -linarith

/-- A registered thread gets its units. -/
theorem Packed.leave (hi : Packed bits s) {n : Int} (ha : (s.pc t).isAwake = true)
    (hn : (s.pc t).count = some n) (hle : 4 * n ≤ s.value) :
    Packed bits ({ s with value := s.value - 4 * n - if s.value % 4 = 3 then 0 else 1 }.leave t n) := by
  have hmem : t ∈ s.awake := (hi.awake t).mpr ha
  have hlen := List.length_erase_of_mem hmem
  have hpos := List.length_pos_of_mem hmem
  have hmem' : ∀ x, x ∈ s.awake.erase t ↔ x ≠ t ∧ x ∈ s.awake := fun x =>
    hi.awakeNodup.mem_erase_iff
  have hb := Pc.isBlocked_of_isAwake ha
  have hbits := hi.awake_bits ha
  have hfull := hi.full
  have hnodup := hi.awakeNodup.erase t
  have hn0 := (hi.count t n hn).1
  have hfits : Fits bits (s.available - n) := hi.fits.mono (by omega)
  obtain ⟨⟩ := hi
  constructor
  case blockedNodup => assumption
  case awakeNodup => exact hnodup
  case fits =>
      simp only [State.leave, State.goto, State.available] at *
      rwa [← Int.sub_sub]
  case counted | sticky | value | peak | nonneg =>
      simp only [State.leave, State.goto, State.registered, State.available, hlen] at *
      grind -linarith
  all_goals
    intros
    simp only [State.leave, State.goto, Function.update_apply, hmem'] at *
    grind -linarith

/-- A registered thread blocks. -/
theorem Packed.block (hi : Packed bits s) {n : Int} (ha : (s.pc t).isAwake = true)
    (hn : (s.pc t).count = some n) : Packed bits (s.block t n s.value) := by
  have hmem : t ∈ s.awake := (hi.awake t).mpr ha
  have hlen := List.length_erase_of_mem hmem
  have hpos := List.length_pos_of_mem hmem
  have hmem' : ∀ x, x ∈ s.awake.erase t ↔ x ≠ t ∧ x ∈ s.awake := fun x =>
    hi.awakeNodup.mem_erase_iff
  have hb := Pc.isBlocked_of_isAwake ha
  have hnot : t ∉ s.blocked := by
    rw [hi.blocked t, hb]
    simp
  have hfull := hi.full
  have hnodup := hi.awakeNodup.erase t
  obtain ⟨⟩ := hi
  constructor
  case nonneg | fits | value => assumption
  case blockedNodup => exact List.nodup_cons.mpr ⟨hnot, ‹_›⟩
  case awakeNodup => exact hnodup
  case counted | sticky | peak =>
      simp only [State.block, State.goto, State.registered, hlen, List.length_cons] at *
      grind -linarith
  all_goals
    intros
    simp only [State.block, State.goto, Function.update_apply, List.mem_cons, hmem'] at *
    grind -linarith

/-- A blocked thread wakes up. -/
theorem Packed.wakeUp (hi : Packed bits s) (hmem : t ∈ s.blocked) : Packed bits (s.wakeUp t) := by
  have hb := (hi.blocked t).mp hmem
  have hlen := List.length_erase_of_mem hmem
  have hpos := List.length_pos_of_mem hmem
  have hmem' : ∀ x, x ∈ s.blocked.erase t ↔ x ≠ t ∧ x ∈ s.blocked := fun x =>
    hi.blockedNodup.mem_erase_iff
  have ha := Pc.isAwake_of_isBlocked hb
  have hnot : t ∉ s.awake := by
    rw [hi.awake t, ha]
    simp
  have hnodup := hi.blockedNodup.erase t
  have hseen := fun v => Pc.wake_seen (p := s.pc t) (v := v)
  obtain ⟨⟩ := hi
  constructor
  case nonneg | fits | value => assumption
  case blockedNodup => exact hnodup
  case awakeNodup => exact List.nodup_cons.mpr ⟨hnot, ‹_›⟩
  case counted | sticky | peak =>
      simp only [State.wakeUp, State.registered, hlen, List.length_cons] at *
      grind -linarith
  all_goals
    intros
    simp only [State.wakeUp, Function.update_apply, List.mem_cons, hmem'] at *
    grind -linarith [Pc.wake_isBlocked, Pc.wake_isAwake, Pc.wake_count]

/-- All blocked threads wake up. -/
theorem Packed.wakeAll (hi : Packed bits s) : Packed bits s.wakeAll := by
  have hdisj : s.blocked.Disjoint s.awake := by
    intro x hb ha
    rw [hi.blocked x] at hb
    rw [hi.awake x, Pc.isAwake_of_isBlocked hb] at ha
    cases ha
  have hseen := fun t v => Pc.wake_seen (p := s.pc t) (v := v)
  obtain ⟨⟩ := hi
  constructor
  case nonneg | fits | value => assumption
  case blockedNodup => exact List.nodup_nil
  case awakeNodup => exact List.nodup_append'.mpr ⟨‹_›, ‹_›, hdisj⟩
  case counted | sticky | peak =>
      simp only [State.wakeAll, State.registered, List.length_append, List.length_nil] at *
      grind -linarith
  all_goals
    intros
    simp only [State.wakeAll, List.mem_append, List.not_mem_nil] at *
    grind -linarith [Pc.wake_isBlocked, Pc.wake_isAwake, Pc.wake_count]

/-- What only some steps of `release` look at does not matter. -/
theorem Packed.setNotifying (hi : Packed bits s) {l : List Nat} :
    Packed bits { s with notifying := l } := by
  obtain ⟨⟩ := hi
  constructor <;> assumption

/-- `fetch_add`. -/
theorem Packed.add (hi : Packed bits s) {n : Int} (hp : s.pc t = .add n)
    (hf : Fits bits (s.available + n)) :
    Packed bits { s with value := s.value + 4 * n, released := s.released + n } := by
  have hval := hi.value
  have h0 := hi.nonneg
  have hpos := (hi.count t n (hp ▸ rfl)).1
  rw [State.available] at hval h0 hf
  refine hi.setUnits (by omega) (by omega) (by omega) ?_
  have heq : s.initial + (s.released + n) - s.acquired = s.initial + s.released - s.acquired + n := by
    omega
  rwa [heq]

theorem ThreadStep.packed (hi : Packed bits s) (hok : InRange bits s (.step t c))
    (h : ThreadStep s t c s') : Packed bits s'.tally := by
  cases h with
  | @move p hp hv =>
      have hi' : Packed bits (s.goto t p) := by
        refine hi.goto hp.blocked hp.awake ?_ ?_
        · intro n hn
          exact hi.count t n (hp.count ▸ hn)
        · intro v hs h3
          rcases hv v hs with rfl | hs
          · exact hi.full h3
          · exact hi.seen t v hs h3
      rwa [hi'.tally]
  | @add n hp hz =>
      have hi' := (hi.add hp (hok n hp)).goto (t := t) (p := .idle) (by simp only [hp]; rfl)
        (by simp only [hp]; rfl) (by rintro n ⟨⟩) (by rintro v ⟨⟩)
      rwa [hi'.tally]
  | @addOne n hp hz h1 =>
      have hi' := ((hi.add hp (hok n hp)).setNotifying (l := t :: s.notifying)).goto (t := t)
        (p := .notify n) (by simp only [hp]; rfl) (by simp only [hp]; rfl)
        (fun m hm => hi.count t m (hp ▸ hm)) (by rintro v ⟨⟩)
      rwa [hi'.tally]
  | @addMany n hp hz h1 =>
      have hi' := (hi.add hp (hok n hp)).goto (t := t) (p := .notify n) (by simp only [hp]; rfl)
        (by simp only [hp]; rfl) (fun m hm => hi.count t m (hp ▸ hm)) (by rintro v ⟨⟩)
      rwa [hi'.tally]
  | @notifyAll n hp h1 =>
      have hi' := hi.wakeAll.goto (t := t) (p := .idle) (by simp only [State.wakeAll, hp]; rfl)
        (by simp only [State.wakeAll, hp]; rfl) (by rintro n ⟨⟩) (by rintro v ⟨⟩)
      rwa [hi'.tally]
  | @notifyNone n hp h1 hb =>
      have hi' := (hi.setNotifying (l := s.notifying.erase t)).goto (t := t) (p := .idle)
        (by simp only [hp]; rfl) (by simp only [hp]; rfl) (by rintro n ⟨⟩) (by rintro v ⟨⟩)
      rwa [hi'.tally]
  | @notifyOne n w hp h1 hc hw =>
      have hi' := ((hi.setNotifying (l := s.notifying.erase t)).goto (t := t) (p := .idle)
        (by simp only [hp]; rfl) (by simp only [hp]; rfl) (by rintro n ⟨⟩) (by rintro v ⟨⟩)).wakeUp
          (t := w) hw
      rwa [hi'.tally]
  | @took n hfr hn hle =>
      have hval := hi.value
      have h0 := hi.value_nonneg
      have hpos := (hi.count t n hn).1
      rw [State.available] at hval
      have hfits : Fits bits (s.initial + s.released - (s.acquired + n)) :=
        hi.fits.mono (by rw [State.available]; omega)
      have hi' := (hi.setUnits (v := s.value - 4 * n) (r := s.released) (a := s.acquired + n)
        (by omega) (by omega) (by omega) hfits).goto (t := t) (p := .idle)
        (Pc.isBlocked_of_isFresh hfr).symm (Pc.isAwake_of_isFresh hfr).symm (by rintro n ⟨⟩)
        (by rintro v ⟨⟩)
      exact hi'.tally.symm ▸ hi'
  | enlist hfr hn h3 => exact hi.enlist hfr hn (.inr ⟨rfl, h3⟩) (.inl rfl)
  | enlistFull hfr hn hv h3 =>
      have hpeak := hi.seen t _ hv h3
      exact hi.enlist (v := s.value) hfr hn (.inl ⟨rfl, hpeak⟩) (.inr hpeak)
  | leave ha hn hle =>
      have hi' := hi.leave ha hn hle
      rwa [hi'.tally]
  | block ha hn hlt =>
      have hi' := hi.block ha hn
      rwa [hi'.tally]
  | wake hb =>
      have hi' := hi.wakeUp ((hi.blocked t).mpr hb)
      rwa [hi'.tally]

-- ============================================================================
-- Runs
-- ============================================================================

theorem packed_start {count : Int} (h0 : 0 ≤ count) (hf : Fits bits count) :
    Packed bits (State.start bits count) := by
  have hv : (State.start bits count).value = 4 * count := by
    simp only [Fits, ValueIncrement, WaitersMask] at hf
    simp only [State.start, ValueIncrement]
    rw [wrap_eq (by omega) (by omega)]
    omega
  have ha : (State.start bits count).available = count := by simp [State.start, State.available]
  constructor
  case nonneg => rwa [ha]
  case fits => rwa [ha]
  case value => rw [hv, ha]; omega
  case counted =>
      intro _
      rw [hv]
      simp [State.start, State.registered]
  case sticky =>
      intro h
      simp [State.start] at h
  all_goals simp [State.start, Pc.isBlocked, Pc.isAwake, Pc.seen, Pc.count, State.registered]

/-- What every step does: a call starts, or a thread goes on in its call. -/
theorem step_packed {a : Act} (hi : Packed bits s) (hok : InRange bits s a)
    (hs : (semaphore bits).step s a = some s') : Packed bits s' := by
  cases a with
  | release t n | acquire t n =>
      simp only [semaphore] at hs
      split at hs <;> cases hs
      next h =>
        obtain ⟨hp, hn⟩ := h
        refine hi.goto (by rw [hp]; rfl) (by rw [hp]; rfl) ?_ (by rintro v ⟨⟩)
        rintro m ⟨⟩
        exact ⟨hn, hok⟩
  | step t c =>
      obtain ⟨s₁, hs₁, rfl⟩ := Option.map_eq_some_iff.mp hs
      exact (stepThread_cases hi hok hs₁).packed hi hok

theorem reachable_packed (hr : (semaphore bits).ReachableIf (InRange bits) s) : Packed bits s := by
  refine hr.invariant ?_ fun _ _ _ hi hok hs => step_packed hi hok hs
  rintro _ ⟨count, h0, hf, rfl⟩
  exact packed_start h0 hf

theorem stepThread_kept (hs : stepThread bits s t c = some s') :
    s'.peak = s.peak ∧ s'.initial = s.initial := by
  cases hp : s.pc t <;> simp only [stepThread, hp, State.cas] at hs <;> grind -linarith [State.goto,
    State.wakeAll, State.wakeUp, State.took, State.enlist, State.leave, State.block]

/-- `peak` is the largest number of registered threads so far. -/
theorem step_peak {a : Act} (hi : Packed bits s) (hs : (semaphore bits).step s a = some s') :
    s'.peak = max s.peak s'.registered ∧ s'.initial = s.initial := by
  cases a with
  | release t n | acquire t n =>
      simp only [semaphore] at hs
      split at hs <;> cases hs
      exact ⟨(Nat.max_eq_left hi.peak).symm, rfl⟩
  | step t c =>
      obtain ⟨s₁, hs₁, rfl⟩ := Option.map_eq_some_iff.mp hs
      obtain ⟨hpeak, hinit⟩ := stepThread_kept hs₁
      exact ⟨by simp only [State.tally, hpeak, State.registered], hinit⟩

/-- The word of `sync_semaphore` conserves the count: in every run whose total
    stays in the range of the word, the upper bits are the units that were there
    at first and were released but not acquired, of which there are never less
    than none.  The two lowest bits are the number of threads on the slow path as
    long as there were never three of them, and three ever after.

    So a step changes the upper bits by what it releases or acquires, whatever it
    does to the waiters. -/
theorem word_conserves_count (bits : Nat) :
    (∀ s, (semaphore bits).ReachableIf (InRange bits) s →
      0 ≤ s.available ∧ s.available = s.initial + s.released - s.acquired ∧
        ∃ w : Int, 0 ≤ w ∧ w ≤ 3 ∧ s.value = 4 * s.available + w ∧
          (s.peak < 3 → w = s.registered) ∧ (3 ≤ s.peak → w = 3)) ∧
    ∀ s a s', (semaphore bits).ReachableIf (InRange bits) s → InRange bits s a →
      (semaphore bits).step s a = some s' →
      s'.peak = max s.peak s'.registered ∧
        s'.value / 4 - s.value / 4 = (s'.released - s.released) - (s'.acquired - s.acquired) ∧
        s'.initial = s.initial := by
  constructor
  · intro s hr
    have hi := reachable_packed hr
    have hval := hi.value
    exact ⟨hi.nonneg, rfl, s.value % 4, by omega, by omega, by omega, hi.counted, hi.sticky⟩
  · intro s a s' hr hok hs
    have hi := reachable_packed hr
    obtain ⟨hpeak, hinit⟩ := step_peak hi hs
    have hval := hi.value
    have hval' := (step_packed hi hok hs).value
    rw [State.available] at hval hval'
    exact ⟨hpeak, by omega, hinit⟩

end Coroactors.Semaphore.Counts
