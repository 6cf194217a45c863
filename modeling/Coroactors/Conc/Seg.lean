/-
  Coroactors.Conc.Seg

  Singly linked lists: `Seg next a l b` says that following the links from `a`
  visits the elements of `l` and arrives at `b`.  A whole list is a segment
  that arrives at null.

  The lemmas follow the operations on such lists: two lists are joined at the
  last element of the first, the walk to the last element, and writes to
  elements that are not in the list.
-/

import Mathlib.Data.List.Basic
import Mathlib.Data.List.Nodup
import Mathlib.Logic.Function.Basic

namespace Coroactors.Conc

universe u

variable {α : Type u}

/-- The links from `a` visit `l` and arrive at `b`. -/
def Seg (next : α → Option α) : Option α → List α → Option α → Prop
  | a, [], b => a = b
  | a, x :: l, b => a = some x ∧ Seg next (next x) l b

/-- Walk at most `fuel` elements, up to the last one. -/
def lastOf (next : α → Option α) : Nat → α → Option α
  | 0, _ => none
  | fuel + 1, x =>
      match next x with
      | none => some x
      | some y => lastOf next fuel y

namespace Seg

variable {next : α → Option α} {a b c : Option α} {l l' : List α} {x y : α}

@[simp] theorem nil_iff : Seg next a [] b ↔ a = b := .rfl

@[simp] theorem cons_iff : Seg next a (x :: l) b ↔ a = some x ∧ Seg next (next x) l b := .rfl

/-- Only the links of the elements count. -/
theorem congr {next' : α → Option α} (h : Seg next a l b) (hn : ∀ x ∈ l, next' x = next x) :
    Seg next' a l b := by
  induction l generalizing a with
  | nil => exact h
  | cons x l ih =>
      refine ⟨h.1, ?_⟩
      rw [hn x List.mem_cons_self]
      exact ih h.2 fun y hy => hn y (List.mem_cons_of_mem _ hy)

/-- The walk ends at the last element. -/
theorem lastOf_eq {fuel : Nat} (h : Seg next (some x) l none) (hlen : l.length ≤ fuel) :
    ∃ y, lastOf next fuel x = some y ∧ l.getLast? = some y := by
  induction l generalizing x fuel with
  | nil => cases h
  | cons z l ih =>
      obtain ⟨rfl, h⟩ : x = z ∧ Seg next (next z) l none := by simpa using h
      cases fuel with
      | zero => simp at hlen
      | succ fuel =>
          cases l with
          | nil =>
              refine ⟨x, ?_, rfl⟩
              rw [lastOf, show next x = none from h]
          | cons y l =>
              have hy := h.1
              obtain ⟨z, hz, hl⟩ := ih (hy ▸ h) (Nat.le_of_succ_le_succ hlen)
              refine ⟨z, ?_, by rw [List.getLast?_cons_cons, hl]⟩
              rw [lastOf, hy]
              exact hz

variable [DecidableEq α]

/-- A write to another element. -/
theorem update (h : Seg next a l b) (hx : x ∉ l) : Seg (Function.update next x c) a l b :=
  h.congr fun _ hy => Function.update_of_ne (ne_of_mem_of_not_mem hy hx) ..

/-- A write to the last element changes where the segment arrives. -/
theorem setLast (h : Seg next a l b) (hn : l.Nodup) (hx : l.getLast? = some x) :
    Seg (Function.update next x c) a l c := by
  induction l generalizing a with
  | nil => cases hx
  | cons y l ih =>
      obtain ⟨hy, hn'⟩ := List.nodup_cons.mp hn
      cases l with
      | nil =>
          obtain rfl : y = x := by simpa using hx
          exact ⟨h.1, Function.update_self ..⟩
      | cons z l =>
          rw [List.getLast?_cons_cons] at hx
          have hne : y ≠ x := by
            rintro rfl
            exact hy (List.mem_of_getLast? hx)
          refine ⟨h.1, ?_⟩
          rw [Function.update_of_ne hne]
          exact ih h.2 hn' hx

end Seg

end Coroactors.Conc
