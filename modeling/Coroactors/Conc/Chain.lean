/-
  Coroactors.Conc.Chain

  Neighbours in a list without repetitions: the list behind a linked structure
  whose links may be missing for a while.

  `Adj l a b` says that `b` comes directly after `a` in `l`.  The lemmas follow
  the operations of a linked queue: a cell is appended at the end, the first
  cell is dropped, and a cell has at most one neighbour on each side.
-/

import Mathlib.Data.List.Basic
import Mathlib.Data.List.Nodup

namespace Coroactors.Conc

universe u

variable {α : Type u} {l : List α} {a b c x y : α}

/-- `b` comes directly after `a` in the list. -/
def Adj : List α → α → α → Prop
  | x :: y :: l, a, b => (a = x ∧ b = y) ∨ Adj (y :: l) a b
  | _, _, _ => False

namespace Adj

@[simp] theorem nil : ¬ Adj [] a b := id

@[simp] theorem singleton : ¬ Adj [x] a b := id

@[simp] theorem cons_cons : Adj (x :: y :: l) a b ↔ (a = x ∧ b = y) ∨ Adj (y :: l) a b := .rfl

theorem cons : Adj (x :: l) a b ↔ (a = x ∧ l.head? = some b) ∨ Adj l a b := by
  cases l with
  | nil => simp
  | cons y l => simp [eq_comm]

theorem append_singleton : Adj (l ++ [c]) a b ↔ Adj l a b ∨ (l.getLast? = some a ∧ b = c) := by
  induction l with
  | nil => simp
  | cons x l ih =>
      cases l with
      | nil => simp [eq_comm]
      | cons y l =>
          rw [List.cons_append, List.cons_append, cons_cons, cons_cons, or_assoc,
            List.getLast?_cons_cons]
          exact or_congr_right ih

theorem mem_left (h : Adj l a b) : a ∈ l := by
  induction l with
  | nil => exact h.elim
  | cons x l ih =>
      rcases cons.mp h with ⟨rfl, -⟩ | h
      · exact List.mem_cons_self
      · exact List.mem_cons_of_mem _ (ih h)

theorem mem_right_tail (h : Adj l a b) : b ∈ l.tail := by
  induction l with
  | nil => exact h.elim
  | cons x l ih =>
      rcases cons.mp h with ⟨-, h⟩ | h
      · exact List.mem_of_mem_head? h
      · exact List.mem_of_mem_tail (ih h)

theorem mem_right (h : Adj l a b) : b ∈ l := List.mem_of_mem_tail h.mem_right_tail

/-- The first element comes after none. -/
theorem ne_head (hn : l.Nodup) (h : Adj l a b) (hx : l.head? = some x) : b ≠ x := by
  cases l with
  | nil => cases hx
  | cons y l =>
      obtain rfl : y = x := by simpa using hx
      rintro rfl
      exact (List.nodup_cons.mp hn).1 h.mem_right_tail

/-- The last element comes before none. -/
theorem ne_last (hn : l.Nodup) (h : Adj l a b) (hx : l.getLast? = some x) : a ≠ x := by
  induction l with
  | nil => cases hx
  | cons y l ih =>
      obtain ⟨hy, hn'⟩ := List.nodup_cons.mp hn
      cases l with
      | nil => exact h.elim
      | cons z l =>
          rw [List.getLast?_cons_cons] at hx
          rcases cons.mp h with ⟨rfl, -⟩ | h
          · rintro rfl
            exact hy (List.mem_of_getLast? hx)
          · exact ih hn' h hx

theorem right_unique (hn : l.Nodup) (h : Adj l a b) (h' : Adj l a c) : b = c := by
  induction l with
  | nil => exact h.elim
  | cons x l ih =>
      obtain ⟨hx, hn'⟩ := List.nodup_cons.mp hn
      rcases cons.mp h with ⟨rfl, hb⟩ | hb <;> rcases cons.mp h' with ⟨he, hc⟩ | hc
      · rw [hb] at hc
        exact Option.some.inj hc
      · exact absurd hc.mem_left hx
      · exact absurd (he ▸ hb.mem_left) hx
      · exact ih hn' hb hc

theorem left_unique (hn : l.Nodup) (h : Adj l a c) (h' : Adj l b c) : a = b := by
  induction l with
  | nil => exact h.elim
  | cons x l ih =>
      obtain ⟨-, hn'⟩ := List.nodup_cons.mp hn
      rcases cons.mp h with ⟨ha, hc⟩ | ha <;> rcases cons.mp h' with ⟨hb, hc'⟩ | hb
      · rw [ha, hb]
      · exact absurd rfl (hb.ne_head hn' hc)
      · exact absurd rfl (ha.ne_head hn' hc')
      · exact ih hn' ha hb

theorem ne (hn : l.Nodup) (h : Adj l a b) : a ≠ b := by
  induction l with
  | nil => exact h.elim
  | cons x l ih =>
      obtain ⟨hx, hn'⟩ := List.nodup_cons.mp hn
      rcases cons.mp h with ⟨rfl, hb⟩ | h
      · rintro rfl
        exact hx (List.mem_of_mem_head? hb)
      · exact ih hn' h

/-- An element that is not the last one has a neighbour. -/
theorem exists_right (h : a ∈ l) (hx : l.getLast? ≠ some a) : ∃ b, Adj l a b := by
  induction l with
  | nil => cases h
  | cons x l ih =>
      cases l with
      | nil =>
          obtain rfl := List.mem_singleton.mp h
          exact absurd rfl hx
      | cons y l =>
          rw [List.getLast?_cons_cons] at hx
          rcases List.mem_cons.mp h with rfl | h
          · exact ⟨y, .inl ⟨rfl, rfl⟩⟩
          · obtain ⟨b, hb⟩ := ih h hx
            exact ⟨b, .inr hb⟩

/-- An element that is not the first one has a neighbour before it. -/
theorem eq_head_or_exists_left (h : b ∈ l) : l.head? = some b ∨ ∃ a, Adj l a b := by
  induction l with
  | nil => cases h
  | cons x l ih =>
      rcases List.mem_cons.mp h with rfl | h
      · exact .inl rfl
      · rcases ih h with hh | ⟨a, ha⟩
        · exact .inr ⟨x, cons.mpr (.inl ⟨rfl, hh⟩)⟩
        · exact .inr ⟨a, cons.mpr (.inr ha)⟩

/-- Taking an element out joins its neighbours. -/
theorem erase [DecidableEq α] (hn : l.Nodup) :
    Adj (l.erase c) a b ↔ (Adj l a b ∧ a ≠ c ∧ b ≠ c) ∨ (Adj l a c ∧ Adj l c b) := by
  induction l with
  | nil => simp
  | cons x l ih =>
      obtain ⟨hx, hn'⟩ := List.nodup_cons.mp hn
      by_cases hc : x = c
      · subst hc
        rw [List.erase_cons_head]
        constructor
        · intro h
          have ha : a ≠ x := fun e => hx (e ▸ h.mem_left)
          have hb : b ≠ x := fun e => hx (e ▸ h.mem_right)
          exact .inl ⟨cons.mpr (.inr h), ha, hb⟩
        · rintro (⟨h, ha, -⟩ | ⟨h, -⟩)
          · exact (cons.mp h).resolve_left fun e => ha e.1
          · exact absurd rfl (h.ne_head hn rfl)
      · rw [List.erase_cons_tail (by simpa using hc), cons, ih hn', cons, cons, cons]
        have hhead : (l.erase c).head? = some b ↔
            (l.head? = some b ∧ b ≠ c) ∨ (l.head? = some c ∧ Adj l c b) := by
          cases l with
          | nil => simp
          | cons y l =>
              have hy := (List.nodup_cons.mp hn').1
              by_cases hyc : y = c
              · subst hyc
                have hc : ¬ Adj l y b := fun h => hy h.mem_left
                rw [List.erase_cons_head, cons]
                simp only [List.head?_cons, Option.some.injEq]
                grind
              · rw [List.erase_cons_tail (by simpa using hyc)]
                simp only [List.head?_cons, Option.some.injEq]
                grind
        rw [hhead]
        grind [Adj.mem_left, Adj.mem_right]

end Adj

end Coroactors.Conc
