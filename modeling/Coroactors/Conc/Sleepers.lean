/-
  Coroactors.Conc.Sleepers

  Threads that sleep until somebody wakes them, and the rule by which no wakeup
  is lost.

  `notifyOne` wakes one sleeper, any one of them, and does nothing when nobody
  sleeps.  An alarm is `Covered` if somebody is on the way to attend to it
  whenever it is on and somebody sleeps.  Whoever turns the alarm on while
  somebody sleeps goes on to wake one of them, and whoever is on the way passes
  that on before it leaves.

  Nothing here is about a particular program.
-/

import Mathlib.Data.List.Basic
import Mathlib.Data.List.Nodup

namespace Coroactors.Conc

universe u

variable {τ : Type u} {l l' : List τ}

/-- Wake one sleeper; without a sleeper nothing happens. -/
def notifyOne [DecidableEq τ] (asleep : List τ) : Option τ → Option (List τ)
  | some w => if w ∈ asleep then some (asleep.erase w) else none
  | none => if asleep = [] then some [] else none

theorem notifyOne_cases [DecidableEq τ] {w : Option τ} (h : notifyOne l w = some l') :
    (l = [] ∧ l' = []) ∨ ∃ x, x ∈ l ∧ l' = l.erase x := by
  cases w with
  | none =>
      simp only [notifyOne] at h
      split at h <;> cases h
      next hl => exact .inl ⟨hl, rfl⟩
  | some x =>
      simp only [notifyOne] at h
      split at h <;> cases h
      next hx => exact .inr ⟨x, hx, rfl⟩

theorem notifyOne_subset [DecidableEq τ] {w : Option τ} (h : notifyOne l w = some l') : l' ⊆ l := by
  rcases notifyOne_cases h with ⟨rfl, rfl⟩ | ⟨x, -, rfl⟩
  · exact List.Subset.refl _
  · exact List.erase_subset

theorem notifyOne_nodup [DecidableEq τ] {w : Option τ} (h : notifyOne l w = some l')
    (hl : l.Nodup) : l'.Nodup := by
  rcases notifyOne_cases h with ⟨-, rfl⟩ | ⟨x, -, rfl⟩
  · exact List.nodup_nil
  · exact hl.erase x

/-- With a sleeper, some sleeper is woken. -/
theorem exists_woken [DecidableEq τ] {w : Option τ} (h : notifyOne l w = some l') (hl : l.Nodup)
    (hne : l' ≠ []) : ∃ x, x ∈ l ∧ x ∉ l' := by
  rcases notifyOne_cases h with ⟨-, rfl⟩ | ⟨x, hx, rfl⟩
  · exact absurd rfl hne
  · exact ⟨x, hx, hl.not_mem_erase⟩

/-- While the alarm is on and somebody sleeps, somebody is on the way. -/
def Covered (alarm : Prop) (asleep : List τ) (onWay : τ → Prop) : Prop :=
  alarm → asleep ≠ [] → ∃ t, onWay t

namespace Covered

variable {alarm alarm' : Prop} {onWay onWay' : τ → Prop}

theorem off (h : ¬alarm) : Covered alarm l onWay := fun ha => absurd ha h

theorem awake (h : l = []) : Covered alarm l onWay := fun _ hl => absurd h hl

/-- Thread `t` moves: it turns the alarm on and is on the way itself, or it was
    on and `t` is not on the way only if it was not before. -/
theorem move (h : Covered alarm l onWay) (t : τ) (hl : l' ⊆ l)
    (hon : alarm' → l' ≠ [] → ¬alarm → onWay' t)
    (hothers : ∀ u, u ≠ t → onWay u → onWay' u)
    (hself : alarm' → l' ≠ [] → onWay t → ∃ u, onWay' u) : Covered alarm' l' onWay' := by
  intro ha hne
  by_cases halarm : alarm
  · have hsome : l ≠ [] := by
      rintro rfl
      exact hne (List.subset_nil.mp hl)
    obtain ⟨u, hu⟩ := h halarm hsome
    by_cases hut : u = t
    · subst hut
      exact hself ha hne hu
    · exact ⟨u, hothers u hut hu⟩
  · exact ⟨t, hon ha hne halarm⟩

end Covered

end Coroactors.Conc
