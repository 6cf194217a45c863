/-
  Coroactors.Conc.Positions

  Threads by their positions, where a step moves one thread.

  `Holds p m pc`: the owner of the mutex `m` is the thread that is at a position
  that `p` tells.  `Counted p n pc`: `n` threads are at such positions.
  `Listed f l pc`: `l` are the things that threads are at work on, each one
  thread.  The rules say what becomes of them when a thread moves.

  Nothing here is about a particular program.
-/

import Mathlib.Data.List.Perm.Subperm
import Mathlib.Data.List.Nodup
import Mathlib.Logic.Function.Basic

namespace Coroactors.Conc

universe u v

variable {τ : Type u} {π : Type v} [DecidableEq τ] {pc : τ → π} {t : τ} {q : π} {p : π → Bool}

-- ============================================================================
-- A mutex
-- ============================================================================

/-- Who owns the mutex is at a position under it, and nobody else is. -/
def Holds (p : π → Bool) (mutex : Option τ) (pc : τ → π) : Prop :=
  ∀ t, mutex = some t ↔ p (pc t) = true

namespace Holds

variable {mutex : Option τ}

omit [DecidableEq τ] in
theorem unique {u : τ} (h : Holds p mutex pc) (ht : p (pc t) = true) (hu : p (pc u) = true) :
    t = u := by
  have hm := (h t).mpr ht
  rw [(h u).mpr hu] at hm
  exact (Option.some.inj hm).symm

/-- A thread moves with what it has. -/
theorem move (h : Holds p mutex pc) (hq : p q = p (pc t)) :
    Holds p mutex (Function.update pc t q) := by
  intro u
  by_cases hu : u = t
  · rw [hu, Function.update_self, hq]
    exact h t
  · rw [Function.update_of_ne hu]
    exact h u

theorem lock (h : Holds p none pc) (hq : p q = true) :
    Holds p (some t) (Function.update pc t q) := by
  intro u
  by_cases hu : u = t
  · rw [hu, Function.update_self]
    exact iff_of_true rfl hq
  · rw [Function.update_of_ne hu]
    refine iff_of_false (fun he => hu (Option.some.inj he).symm) fun hp => ?_
    exact absurd ((h u).mpr hp) (by simp)

theorem unlock (h : Holds p mutex pc) (ht : p (pc t) = true) (hq : p q = false) :
    Holds p none (Function.update pc t q) := by
  intro u
  by_cases hu : u = t
  · rw [hu, Function.update_self, hq]
    simp
  · rw [Function.update_of_ne hu]
    exact iff_of_false (by simp) fun hp => hu (h.unique hp ht)

end Holds

-- ============================================================================
-- A counter
-- ============================================================================

/-- `n` threads are at such a position. -/
def Counted (p : π → Bool) (n : Nat) (pc : τ → π) : Prop :=
  ∃ l : List τ, l.Nodup ∧ (∀ t, t ∈ l ↔ p (pc t) = true) ∧ l.length = n

namespace Counted

variable {n : Nat}

/-- A thread moves, and is counted as before. -/
theorem move (h : Counted p n pc) (hq : p q = p (pc t)) : Counted p n (Function.update pc t q) := by
  obtain ⟨l, hl, hmem, hn⟩ := h
  refine ⟨l, hl, fun u => ?_, hn⟩
  by_cases hu : u = t
  · rw [hu, Function.update_self, hq]
    exact hmem t
  · rw [Function.update_of_ne hu]
    exact hmem u

theorem enter (h : Counted p n pc) (ht : p (pc t) = false) (hq : p q = true) :
    Counted p (n + 1) (Function.update pc t q) := by
  obtain ⟨l, hl, hmem, hn⟩ := h
  have hout : t ∉ l := fun hm => by
    rw [hmem, ht] at hm
    cases hm
  refine ⟨t :: l, List.nodup_cons.mpr ⟨hout, hl⟩, fun u => ?_, by rw [List.length_cons, hn]⟩
  by_cases hu : u = t
  · rw [hu, Function.update_self]
    exact iff_of_true List.mem_cons_self hq
  · rw [Function.update_of_ne hu, List.mem_cons, or_iff_right hu]
    exact hmem u

theorem leave (h : Counted p n pc) (ht : p (pc t) = true) (hq : p q = false) :
    Counted p (n - 1) (Function.update pc t q) := by
  obtain ⟨l, hl, hmem, hn⟩ := h
  refine ⟨l.erase t, hl.erase t, fun u => ?_, ?_⟩
  · by_cases hu : u = t
    · rw [hu, Function.update_self, hq]
      exact iff_of_false hl.not_mem_erase (by simp)
    · rw [Function.update_of_ne hu, List.mem_erase_of_ne hu]
      exact hmem u
  · rw [List.length_erase_of_mem ((hmem t).mpr ht), hn]

omit [DecidableEq τ] in
/-- Threads that are counted are no more than the counter says. -/
theorem length_le {l : List τ} (h : Counted p n pc) (hl : l.Nodup)
    (hp : ∀ t ∈ l, p (pc t) = true) : l.length ≤ n := by
  obtain ⟨k, -, hmem, hn⟩ := h
  rw [← hn]
  exact (List.subperm_of_subset hl fun t ht => (hmem t).mpr (hp t ht)).length_le

/-- What becomes of the counter, whatever the positions are. -/
theorem update (h : Counted p n pc) (t : τ) (q : π) :
    ∃ m, Counted p m (Function.update pc t q) ∧
      m + (if p (pc t) = true then 1 else 0) = n + (if p q = true then 1 else 0) := by
  cases ht : p (pc t) <;> cases hq : p q
  · exact ⟨n, h.move (hq.trans ht.symm), rfl⟩
  · exact ⟨n + 1, h.enter ht hq, rfl⟩
  · refine ⟨n - 1, h.leave ht hq, ?_⟩
    have hle := h.length_le (List.nodup_singleton t) fun u hu => by rw [List.mem_singleton.mp hu, ht]
    simp only [List.length_singleton] at hle
    show n - 1 + 1 = n + 0
    omega
  · exact ⟨n, h.move (hq.trans ht.symm), rfl⟩

/-- The counter says how many there are besides the threads of a list. -/
theorem exists_others (h : Counted p n pc) (l : List τ) :
    ∃ k : List τ, k.Nodup ∧ (∀ t ∈ k, p (pc t) = true ∧ t ∉ l) ∧ n ≤ k.length + l.length := by
  obtain ⟨k, hk, hmem, hn⟩ := h
  refine ⟨k.filter (· ∉ l), hk.filter _, fun t ht => ?_, ?_⟩
  · rw [List.mem_filter, hmem] at ht
    exact ⟨ht.1, by simpa using ht.2⟩
  · rw [← hn, ← List.length_append]
    refine (List.subperm_of_subset hk fun t ht => List.mem_append.mpr ?_).length_le
    by_cases hl : t ∈ l
    · exact .inr hl
    · exact .inl (List.mem_filter.mpr ⟨ht, by simpa using hl⟩)

end Counted

-- ============================================================================
-- Things at work
-- ============================================================================

/-- The list has what threads are at work on, and no two threads are at work on
    the same. -/
structure Listed {α : Type*} (f : π → Option α) (l : List α) (pc : τ → π) : Prop where
  nodup : l.Nodup
  mem : ∀ x, x ∈ l ↔ ∃ t, f (pc t) = some x
  once : ∀ t u x, f (pc t) = some x → f (pc u) = some x → t = u

namespace Listed

variable {α : Type*} {f : π → Option α} {l : List α} {x : α}

/-- What the other threads are at work on after one moved. -/
theorem exists_update :
    (∃ u, f (Function.update pc t q u) = some x) ↔
      f q = some x ∨ ∃ u, u ≠ t ∧ f (pc u) = some x := by
  constructor
  · rintro ⟨u, h⟩
    by_cases hu : u = t
    · rw [hu, Function.update_self] at h
      exact .inl h
    · rw [Function.update_of_ne hu] at h
      exact .inr ⟨u, hu, h⟩
  · rintro (h | ⟨u, hu, h⟩)
    · exact ⟨t, by rwa [Function.update_self]⟩
    · exact ⟨u, by rwa [Function.update_of_ne hu]⟩

theorem move (h : Listed f l pc) (hq : f q = f (pc t)) : Listed f l (Function.update pc t q) := by
  have hsame : ∀ u, f (Function.update pc t q u) = f (pc u) := fun u => by
    by_cases hu : u = t
    · rw [hu, Function.update_self, hq]
    · rw [Function.update_of_ne hu]
  refine ⟨h.nodup, fun x => ?_, fun a b x => ?_⟩
  · simp only [hsame]
    exact h.mem x
  · rw [hsame, hsame]
    exact h.once a b x

/-- A thread takes up something new. -/
theorem add (h : Listed f l pc) (hx : x ∉ l) (ht : f (pc t) = none) (hq : f q = some x) :
    Listed f (x :: l) (Function.update pc t q) := by
  have hne : ∀ u y, f (pc u) = some y → u ≠ t := by
    rintro u y hu rfl
    rw [ht] at hu
    cases hu
  refine ⟨List.nodup_cons.mpr ⟨hx, h.nodup⟩, fun y => ?_, fun a b y ha hb => ?_⟩
  · rw [exists_update, hq, List.mem_cons, h.mem]
    constructor
    · rintro (rfl | ⟨u, hu⟩)
      · exact .inl rfl
      · exact .inr ⟨u, hne u y hu, hu⟩
    · rintro (hy | ⟨u, -, hu⟩)
      · exact .inl (Option.some.inj hy).symm
      · exact .inr ⟨u, hu⟩
  · have hnew : ∀ u, f (pc u) = some y → y ≠ x := by
      rintro u hu rfl
      exact hx ((h.mem y).mpr ⟨u, hu⟩)
    by_cases hat : a = t
    · by_cases hbt : b = t
      · rw [hat, hbt]
      · rw [hat, Function.update_self, hq] at ha
        rw [Function.update_of_ne hbt] at hb
        exact absurd (Option.some.inj ha).symm (hnew b hb)
    · rw [Function.update_of_ne hat] at ha
      by_cases hbt : b = t
      · rw [hbt, Function.update_self, hq] at hb
        exact absurd (Option.some.inj hb).symm (hnew a ha)
      · rw [Function.update_of_ne hbt] at hb
        exact h.once a b y ha hb

/-- A thread is done with its own. -/
theorem remove [DecidableEq α] (h : Listed f l pc) (ht : f (pc t) = some x) (hq : f q = none) :
    Listed f (l.erase x) (Function.update pc t q) := by
  refine ⟨h.nodup.erase x, fun y => ?_, fun a b y ha hb => ?_⟩
  · rw [exists_update, hq, h.nodup.mem_erase_iff, h.mem]
    constructor
    · rintro ⟨hy, u, hu⟩
      refine .inr ⟨u, ?_, hu⟩
      rintro rfl
      rw [ht] at hu
      exact hy (Option.some.inj hu).symm
    · rintro (hy | ⟨u, hut, hu⟩)
      · cases hy
      · refine ⟨?_, u, hu⟩
        rintro rfl
        exact hut (h.once u t y hu ht)
  · have hother : ∀ u, f (Function.update pc t q u) = some y → u ≠ t := by
      rintro u hu rfl
      rw [Function.update_self, hq] at hu
      cases hu
    rw [Function.update_of_ne (hother a ha)] at ha
    rw [Function.update_of_ne (hother b hb)] at hb
    exact h.once a b y ha hb

end Listed

end Coroactors.Conc
