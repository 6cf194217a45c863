/-
  Coroactors.Conc.DList

  Doubly linked lists: `Linked head prev next l` says that the links from
  `head` spell the list `l`, and that the links of everything else are null.

  The lemmas follow the operations on such a list: an element is added at the
  front, the first one is dropped, and one in the middle is unlinked.
-/

import Coroactors.Conc.Chain
import Mathlib.Logic.Function.Basic

namespace Coroactors.Conc

universe u

variable {α : Type u} {l : List α} {a b k p : α}

/-- The links from `head` spell `l`. -/
structure Linked (head : Option α) (prev next : α → Option α) (l : List α) : Prop where
  nodup : l.Nodup
  head : head = l.head?
  next : ∀ a b, next a = some b ↔ Adj l a b
  prev : ∀ a b, prev b = some a ↔ Adj l a b

namespace Linked

variable {head : Option α} {prev next : α → Option α}

theorem empty : Linked none (fun _ : α => none) (fun _ => none) [] where
  nodup := List.nodup_nil
  head := rfl
  next := by simp
  prev := by simp

theorem next_eq_none (h : Linked head prev next l) (hk : k ∉ l) : next k = none := by
  cases hn : next k with
  | none => rfl
  | some b => exact absurd ((h.next k b).mp hn).mem_left hk

/-- An element is in the list if it is the head or has a predecessor. -/
theorem mem_iff (h : Linked head prev next l) : k ∈ l ↔ head = some k ∨ (prev k).isSome := by
  constructor
  · intro hk
    rcases Adj.eq_head_or_exists_left hk with hh | ⟨a, ha⟩
    · exact .inl (h.head.trans hh)
    · exact .inr (by rw [(h.prev a k).mpr ha]; rfl)
  · rintro (hh | hp)
    · exact List.mem_of_mem_head? (h.head.symm.trans hh)
    · obtain ⟨a, ha⟩ := Option.isSome_iff_exists.mp hp
      exact ((h.prev a k).mp ha).mem_right

variable [DecidableEq α]

/-- Set the back link of an element, if there is one. -/
def setBack (prev : α → Option α) : Option α → Option α → α → Option α
  | some x, v => Function.update prev x v
  | none, _ => prev

/-- Add `k` in front of the list. -/
theorem pushFront (h : Linked head prev next l) (hk : k ∉ l) :
    Linked (some k) (setBack prev head (some k)) (Function.update next k head) (k :: l) where
  nodup := List.nodup_cons.mpr ⟨hk, h.nodup⟩
  head := rfl
  next a b := by
    rw [Adj.cons, ← h.next, ← h.head]
    by_cases ha : a = k
    · subst ha
      simp [h.next_eq_none hk]
    · simp [ha]
  prev a b := by
    have hhead := h.head
    rw [Adj.cons, ← h.prev, ← hhead]
    cases head with
    | none => simp [setBack]
    | some x =>
        have hx : prev x ≠ some a := fun hp => ((h.prev a x).mp hp).ne_head h.nodup hhead.symm rfl
        by_cases hb : b = x
        · subst hb
          simp [setBack, hx, eq_comm]
        · simp [setBack, hb, Ne.symm hb]

/-- Drop the first element. -/
theorem popFront (h : Linked (some k) prev next l) :
    Linked (next k) (setBack prev (next k) none) (Function.update next k none) (l.erase k) := by
  have hfirst (a : α) : ¬ Adj l a k := fun ha => ha.ne_head h.nodup h.head.symm rfl
  constructor
  case nodup => exact h.nodup.erase k
  case head =>
    cases l with
    | nil => cases h.head
    | cons x l =>
        obtain rfl : k = x := by simpa using h.head
        rw [List.erase_cons_head]
        cases hl : l.head? with
        | none =>
            obtain rfl := List.head?_eq_none_iff.mp hl
            cases hn : next k with
            | none => rfl
            | some b => exact ((h.next k b).mp hn).elim
        | some y => exact (h.next k y).mpr (Adj.cons.mpr (.inl ⟨rfl, hl⟩))
  case next =>
    intro a b
    rw [Adj.erase h.nodup]
    by_cases ha : a = k
    · subst ha
      simp [hfirst]
    · have hb (hab : Adj l a b) : b ≠ k := fun e => hfirst a (e ▸ hab)
      simp only [Function.update_of_ne ha, h.next]
      grind
  case prev =>
    intro a b
    rw [Adj.erase h.nodup, ← h.next k b]
    have hb (hab : Adj l a b) : b ≠ k := fun e => hfirst a (e ▸ hab)
    cases hn : next k with
    | none =>
        have ha (hab : Adj l a b) : a ≠ k := by
          rintro rfl
          rw [(h.next a b).mpr hab] at hn
          cases hn
        simp only [setBack, h.prev]
        grind
    | some x =>
        have hkx := (h.next k x).mp hn
        by_cases hbx : b = x
        · subst hbx
          have := fun hab : Adj l a b => hab.left_unique h.nodup hkx
          simp only [setBack, Function.update_self]
          grind
        · have ha (hab : Adj l a b) : a ≠ k := by
            rintro rfl
            exact hbx (hab.right_unique h.nodup hkx)
          simp only [setBack, Function.update_of_ne hbx, h.prev]
          grind

/-- Unlink `k`, which comes after `p`. -/
theorem unlink (h : Linked head prev next l) (hp : prev k = some p) :
    Linked head (Function.update (setBack prev (next k) (some p)) k none)
      (Function.update (Function.update next p (next k)) k none) (l.erase k) := by
  have hpk := (h.prev p k).mp hp
  have hne : p ≠ k := hpk.ne h.nodup
  have hself : ¬ Adj l k k := fun hk => hk.ne h.nodup rfl
  constructor
  case nodup => exact h.nodup.erase k
  case head =>
    rw [h.head]
    cases l with
    | nil => rfl
    | cons x l =>
        have hx : x ≠ k := (hpk.ne_head h.nodup rfl).symm
        rw [List.erase_cons_tail (by simpa using hx)]
        rfl
  case next =>
    intro a b
    rw [Adj.erase h.nodup]
    by_cases ha : a = k
    · subst ha
      simp [hself]
    · rw [Function.update_of_ne ha]
      by_cases hap : a = p
      · subst hap
        have := fun hab : Adj l a b => hab.right_unique h.nodup hpk
        simp only [Function.update_self, h.next]
        grind
      · have := fun hak : Adj l a k => hap (hak.left_unique h.nodup hpk)
        simp only [Function.update_of_ne hap, h.next]
        grind
  case prev =>
    intro a b
    rw [Adj.erase h.nodup]
    by_cases hb : b = k
    · subst hb
      simp [hself]
    · rw [Function.update_of_ne hb]
      have hak := fun hak : Adj l a k => hak.left_unique h.nodup hpk
      cases hn : next k with
      | none =>
          have hkb : ¬ Adj l k b := by
            intro hkb
            rw [(h.next k b).mpr hkb] at hn
            cases hn
          simp only [setBack, h.prev]
          grind
      | some x =>
          have hkx := (h.next k x).mp hn
          by_cases hbx : b = x
          · subst hbx
            have := fun hab : Adj l a b => hab.left_unique h.nodup hkx
            simp only [setBack, Function.update_self, Option.some.injEq]
            grind
          · have := fun hkb : Adj l k b => hbx (hkb.right_unique h.nodup hkx)
            simp only [setBack, Function.update_of_ne hbx, h.prev]
            grind

end Linked

end Coroactors.Conc
