/-
  Coroactors.Conc.Custody

  Things that are in one of many places.

  `Custody f A` says that the lists `f p`, one for each place, hold the members
  of `A`, each in one list and once.  Things are added and removed at the end of
  a list, or moved from the front of one list to the end of another one; a chain
  of moves is a chain of these rules.
-/

import Mathlib.Data.List.Nodup

namespace Coroactors.Conc

variable {P α : Type*}

/-- Every member of `A` is in one list, once, and nothing else is. -/
structure Custody (f : P → List α) (A : α → Prop) : Prop where
  nodup : ∀ p, (f p).Nodup
  apart : ∀ p q a, a ∈ f p → a ∈ f q → p = q
  cover : ∀ a, A a ↔ ∃ p, a ∈ f p

namespace Custody

variable {f f' : P → List α} {A A' : α → Prop} {p q : P}

theorem empty (h : ∀ p, f p = []) : Custody f fun _ => False where
  nodup p := by simp [h p]
  apart p q a ha := by simp [h p] at ha
  cover a := by simp [h]

/-- Where a member is. -/
theorem unique {a : α} (h : Custody f A) (ha : A a) : ∃! p, a ∈ f p := by
  obtain ⟨p, hp⟩ := (h.cover a).mp ha
  exact ⟨p, hp, fun q hq => h.apart q p a hq hp⟩

/-- A new thing comes to `q`. -/
theorem add {a : α} (h : Custody f A) (hn : ¬A a) (hq : f' q = f q ++ [a])
    (ho : ∀ r, r ≠ q → f' r = f r) (hA : ∀ b, A' b ↔ A b ∨ b = a) : Custody f' A' := by
  have hnew : ∀ r, a ∉ f r := fun r hr => hn ((h.cover a).mpr ⟨r, hr⟩)
  have hmem : ∀ r b, b ∈ f' r ↔ b ∈ f r ∨ r = q ∧ b = a := by
    intro r b
    by_cases hr : r = q
    · simp [hr, hq]
    · simp [hr, ho r hr]
  refine ⟨fun r => ?_, fun r r' b hb hb' => ?_, fun b => ?_⟩
  · by_cases hr : r = q
    · rw [hr, hq, List.nodup_append]
      refine ⟨h.nodup q, List.nodup_singleton a, fun b hb c hc => ?_⟩
      rw [List.mem_singleton.mp hc]
      rintro rfl
      exact hnew q hb
    · rw [ho r hr]
      exact h.nodup r
  · rcases (hmem r b).mp hb with hb | ⟨rfl, rfl⟩ <;> rcases (hmem r' b).mp hb' with hb' | ⟨rfl, hba⟩
    · exact h.apart r r' b hb hb'
    · exact absurd (hba ▸ hb) (hnew r)
    · exact absurd hb' (hnew r')
    · rfl
  · rw [hA, h.cover]
    constructor
    · rintro (⟨r, hr⟩ | rfl)
      · exact ⟨r, (hmem r b).mpr (.inl hr)⟩
      · exact ⟨q, (hmem q b).mpr (.inr ⟨rfl, rfl⟩)⟩
    · rintro ⟨r, hr⟩
      rcases (hmem r b).mp hr with hr | ⟨-, rfl⟩
      · exact .inl ⟨r, hr⟩
      · exact .inr rfl

/-- The last thing of `q` goes away. -/
theorem remove {a : α} (h : Custody f A) (hq : f q = f' q ++ [a])
    (ho : ∀ r, r ≠ q → f' r = f r) (hA : ∀ b, A' b ↔ A b ∧ b ≠ a) : Custody f' A' := by
  have hnodup := h.nodup q
  rw [hq, List.nodup_append] at hnodup
  obtain ⟨hrest, -, hdisj⟩ := hnodup
  have ha : a ∈ f q := by
    rw [hq]
    exact List.mem_append_right _ (List.mem_singleton_self a)
  have hmem : ∀ r b, b ∈ f' r ↔ b ∈ f r ∧ b ≠ a := by
    intro r b
    by_cases hr : r = q
    · subst hr
      rw [hq, List.mem_append, List.mem_singleton]
      constructor
      · intro hb
        exact ⟨.inl hb, hdisj b hb a (List.mem_singleton_self a)⟩
      · rintro ⟨hb, hne⟩
        exact hb.resolve_right hne
    · rw [ho r hr]
      refine ⟨fun hb => ⟨hb, ?_⟩, And.left⟩
      rintro rfl
      exact hr (h.apart r q b hb ha)
  refine ⟨fun r => ?_, fun r r' b hb hb' => ?_, fun b => ?_⟩
  · by_cases hr : r = q
    · rw [hr]
      exact hrest
    · rw [ho r hr]
      exact h.nodup r
  · exact h.apart r r' b ((hmem r b).mp hb).1 ((hmem r' b).mp hb').1
  · rw [hA, h.cover]
    constructor
    · rintro ⟨⟨r, hr⟩, hne⟩
      exact ⟨r, (hmem r b).mpr ⟨hr, hne⟩⟩
    · rintro ⟨r, hr⟩
      exact ⟨⟨r, ((hmem r b).mp hr).1⟩, ((hmem r b).mp hr).2⟩

/-- The front of one list goes to the end of another one. -/
theorem move {l : List α} (h : Custody f A) (hpq : p ≠ q) (hp : f p = l ++ f' p)
    (hq : f' q = f q ++ l) (ho : ∀ r, r ≠ p → r ≠ q → f' r = f r) : Custody f' A := by
  have hnodup := h.nodup p
  rw [hp, List.nodup_append] at hnodup
  obtain ⟨hl, hrest, hdisj⟩ := hnodup
  have hfrom : ∀ b ∈ l, b ∈ f p := fun b hb => by
    rw [hp]
    exact List.mem_append_left _ hb
  have hmem : ∀ r b, b ∈ f' r ↔ (b ∈ f r ∧ b ∉ l) ∨ r = q ∧ b ∈ l := by
    intro r b
    by_cases hr : r = p
    · subst hr
      constructor
      · intro hb
        refine .inl ⟨by rw [hp]; exact List.mem_append_right _ hb, fun hbl => ?_⟩
        exact hdisj b hbl b hb rfl
      · rintro (⟨hb, hbl⟩ | ⟨rfl, -⟩)
        · rw [hp] at hb
          exact (List.mem_append.mp hb).resolve_left hbl
        · exact absurd rfl hpq
    · have hout : b ∈ f r → b ∉ l := fun hb hbl => hr (h.apart r p b hb (hfrom b hbl))
      by_cases hrq : r = q
      · subst hrq
        rw [hq, List.mem_append]
        grind
      · rw [ho r hr hrq]
        grind
  refine ⟨fun r => ?_, fun r r' b hb hb' => ?_, fun b => ?_⟩
  · by_cases hr : r = p
    · rw [hr]
      exact hrest
    · by_cases hrq : r = q
      · rw [hrq, hq, List.nodup_append]
        refine ⟨h.nodup q, hl, fun b hb c hc => ?_⟩
        rintro rfl
        exact hpq (h.apart p q b (hfrom b hc) hb)
      · rw [ho r hr hrq]
        exact h.nodup r
  · rcases (hmem r b).mp hb with ⟨hb, hbl⟩ | ⟨rfl, hbl⟩ <;>
      rcases (hmem r' b).mp hb' with ⟨hb', hbl'⟩ | ⟨rfl, hbl'⟩
    · exact h.apart r r' b hb hb'
    · exact absurd hbl' hbl
    · exact absurd hbl hbl'
    · rfl
  · rw [h.cover]
    constructor
    · rintro ⟨r, hr⟩
      by_cases hbl : b ∈ l
      · exact ⟨q, (hmem q b).mpr (.inr ⟨rfl, hbl⟩)⟩
      · exact ⟨r, (hmem r b).mpr (.inl ⟨hr, hbl⟩)⟩
    · rintro ⟨r, hr⟩
      rcases (hmem r b).mp hr with ⟨hr, -⟩ | ⟨-, hbl⟩
      · exact ⟨r, hr⟩
      · exact ⟨p, hfrom b hbl⟩

end Custody

end Coroactors.Conc
