/-
  Coroactors.Conc.Lists

  Disjoint singly linked lists over shared links: the list `L p` at every place
  `p`, and where the link of its last element goes.

  `Walk next l b` says that the links of the elements of `l` go through the
  list in order, and that the last one arrives at `b`; an empty list is walked
  whatever `b` is.  `Lists next L stop` says this of the lists of all places,
  that no list visits an element twice, and that no two lists share one.

  The rules follow the operations on such lists: a write to an element outside
  of all lists, a write to a last element, one list put behind another, an
  element put in front of a list and taken from it.
-/

import Coroactors.Conc.Seg

namespace Coroactors.Conc

open Function

universe u v

variable {α : Type u} {P : Type v}

-- ============================================================================
-- One list
-- ============================================================================

/-- The links of the elements of `l` go through `l` and arrive at `b`. -/
def Walk (next : α → Option α) (l : List α) (b : Option α) : Prop :=
  Seg next (l.head?.or b) l b

namespace Walk

variable {next next' : α → Option α} {b c : Option α} {l l' : List α} {x : α}

@[simp] theorem nil : Walk next [] b := by
  simp [Walk]

theorem cons_iff :
    Walk next (x :: l) b ↔ next x = l.head?.or b ∧ Walk next l b := by
  constructor
  · rintro ⟨-, h⟩
    have hx : next x = l.head?.or b := by
      cases l with
      | nil => exact h
      | cons y l => exact h.1
    rw [hx] at h
    exact ⟨hx, h⟩
  · rintro ⟨hx, h⟩
    refine ⟨rfl, ?_⟩
    rw [hx]
    exact h

/-- The second list begins where the first one arrives. -/
theorem append (h : Walk next l (l'.head?.or b)) (h' : Walk next l' b) :
    Walk next (l ++ l') b := by
  induction l with
  | nil => exact h'
  | cons x l ih =>
      obtain ⟨hx, h⟩ := cons_iff.mp h
      rw [List.cons_append, cons_iff, hx, List.head?_append, Option.or_assoc]
      exact ⟨rfl, ih h⟩

/-- Where an empty list arrives does not matter. -/
theorem stop (h : Walk next l b) (hb : l ≠ [] → c = b) : Walk next l c := by
  cases l with
  | nil => exact nil
  | cons x l => rwa [hb (List.cons_ne_nil x l)]

/-- The walk from the first element ends at the last one. -/
theorem lastOf_eq {fuel : Nat} (h : Walk next l none) (hx : l.head? = some x)
    (hlen : l.length ≤ fuel) : ∃ y, lastOf next fuel x = some y ∧ l.getLast? = some y := by
  refine Seg.lastOf_eq ?_ hlen
  simpa [Walk, hx] using h

variable [DecidableEq α]

theorem update (h : Walk next l b) (hx : x ∉ l) : Walk (update next x c) l b :=
  Seg.update h hx

/-- A write to the last element changes where the list arrives. -/
theorem setLast (h : Walk next l b) (hn : l.Nodup) (hx : l.getLast? = some x) :
    Walk (Function.update next x c) l c := by
  have hs := Seg.setLast (c := c) h hn hx
  cases l with
  | nil => exact nil
  | cons y l => exact hs

end Walk

-- ============================================================================
-- The lists of all places
-- ============================================================================

/-- The lists at the places are linked, and share no elements. -/
structure Lists (next : α → Option α) (L : P → List α) (stop : P → Option α) : Prop where
  walk : ∀ p, Walk next (L p) (stop p)
  nodup : ∀ p, (L p).Nodup
  apart : ∀ p q x, x ∈ L p → x ∈ L q → p = q

namespace Lists

variable {next : α → Option α} {L L' : P → List α} {stop stop' : P → Option α}
variable {p q : P} {x : α} {v : Option α} {l : List α}

/-- Where an empty list arrives does not matter. -/
theorem congr (h : Lists next L stop) (hL : ∀ p, L' p = L p)
    (hs : ∀ p, L p ≠ [] → stop' p = stop p) : Lists next L' stop' := by
  obtain rfl : L' = L := funext hL
  exact ⟨fun p => (h.walk p).stop (hs p), h.nodup, h.apart⟩

/-- `find_last` on a whole list. -/
theorem lastOf_eq {fuel : Nat} (h : Lists next L stop) (hx : (L p).head? = some x)
    (hs : stop p = none) (hlen : (L p).length ≤ fuel) :
    ∃ y, lastOf next fuel x = some y ∧ (L p).getLast? = some y :=
  Walk.lastOf_eq (hs ▸ h.walk p) hx hlen

section Update

variable [DecidableEq α]

/-- A write to an element that is in no list. -/
theorem update (h : Lists next L stop) (hx : ∀ p, x ∉ L p) :
    Lists (update next x v) L stop :=
  ⟨fun p => (h.walk p).update (hx p), h.nodup, h.apart⟩

variable [DecidableEq P]

/-- A write to the last element of a list. -/
theorem setLast (h : Lists next L stop) (hx : (L p).getLast? = some x) :
    Lists (Function.update next x v) L (Function.update stop p v) := by
  refine ⟨fun q => ?_, h.nodup, h.apart⟩
  rcases eq_or_ne q p with rfl | hq
  · rw [update_self]
    exact (h.walk q).setLast (h.nodup q) hx
  · rw [update_of_ne hq]
    refine (h.walk q).update fun hm => hq ?_
    exact h.apart q p x hm (List.mem_of_getLast? hx)

end Update

section Move

/-- The elements of two places together. -/
theorem nodup_append (h : Lists next L stop) (hpq : p ≠ q) : (L p ++ L q).Nodup := by
  refine List.nodup_append.mpr ⟨h.nodup p, h.nodup q, ?_⟩
  rintro x hx y hy rfl
  exact hpq (h.apart p q x hx hy)

variable [DecidableEq P]

/-- A list is put in front of another one, which begins where it arrives: the
    two are at the place of one of them. -/
theorem join {r : P} (h : Lists next L stop) (hpq : p ≠ q)
    (hs : L p ≠ [] → stop p = (L q).head?.or (stop q)) (hr : r = p ∨ r = q)
    (hjoin : L' r = L p ++ L q)
    (hother : ∀ a, a ≠ r → L' a = if a = p ∨ a = q then [] else L a) :
    Lists next L' (Function.update stop r (stop q)) := by
  -- what is at a place was there, or was at one of the two and is now at `r`
  have hmem : ∀ a x, x ∈ L' a → x ∈ L a ∨ a = r ∧ (x ∈ L p ∨ x ∈ L q) := by
    intro a x hx
    rcases eq_or_ne a r with rfl | ha
    · rw [hjoin] at hx
      exact .inr ⟨rfl, List.mem_append.mp hx⟩
    · rw [hother a ha] at hx
      split at hx
      · cases hx
      · exact .inl hx
  have hleft : ∀ a x, a ≠ r → x ∈ L' a → a ≠ p ∧ a ≠ q := by
    intro a x ha hx
    rw [hother a ha] at hx
    split at hx
    · cases hx
    · next hn => exact not_or.mp hn
  have hapart : ∀ a b x, a ≠ r → x ∈ L' a → x ∈ L' b → a = b := by
    intro a b x ha hxa hxb
    obtain ⟨hap, haq⟩ := hleft a x ha hxa
    have hxa' : x ∈ L a := (hmem a x hxa).resolve_right fun he => ha he.1
    rcases hmem b x hxb with hb | ⟨-, hb | hb⟩
    · exact h.apart a b x hxa' hb
    · exact absurd (h.apart a p x hxa' hb) hap
    · exact absurd (h.apart a q x hxa' hb) haq
  refine ⟨fun a => ?_, fun a => ?_, fun a b x hxa hxb => ?_⟩
  · rcases eq_or_ne a r with rfl | ha
    · rw [hjoin, update_self]
      exact ((h.walk p).stop fun hne => (hs hne).symm).append (h.walk q)
    · rw [hother a ha, update_of_ne ha]
      split
      · exact Walk.nil
      · exact h.walk a
  · rcases eq_or_ne a r with rfl | ha
    · rw [hjoin]
      exact h.nodup_append hpq
    · rw [hother a ha]
      split
      · exact List.nodup_nil
      · exact h.nodup a
  · rcases eq_or_ne a r with rfl | ha
    · rcases eq_or_ne b a with rfl | hb
      · rfl
      · exact (hapart b a x hb hxb hxa).symm
    · exact hapart a b x ha hxa hxb

/-- Joining two lists loses no element. -/
theorem exists_mem_join {r : P} (hr : r = p ∨ r = q) (hjoin : L' r = L p ++ L q)
    (hother : ∀ a, a ≠ r → L' a = if a = p ∨ a = q then [] else L a) :
    (∃ a, x ∈ L' a) ↔ ∃ a, x ∈ L a := by
  constructor
  · rintro ⟨a, ha⟩
    rcases eq_or_ne a r with rfl | har
    · rw [hjoin] at ha
      exact (List.mem_append.mp ha).elim (⟨p, ·⟩) (⟨q, ·⟩)
    · rw [hother a har] at ha
      split at ha
      · cases ha
      · exact ⟨a, ha⟩
  · rintro ⟨a, ha⟩
    by_cases hpq : a = p ∨ a = q
    · refine ⟨r, hjoin ▸ List.mem_append.mpr ?_⟩
      exact hpq.imp (fun e : a = p => e ▸ ha) (fun e : a = q => e ▸ ha)
    · refine ⟨a, ?_⟩
      rw [hother a fun har => hpq (hr.imp har.trans har.trans), if_neg hpq]
      exact ha

/-- An element that is in no list is put in front of one. -/
theorem push (h : Lists next L stop) (hx : ∀ p, x ∉ L p)
    (hn : next x = (L p).head?.or (stop p)) :
    Lists next (Function.update L p (x :: L p)) stop := by
  have hmem : ∀ a y, y ∈ Function.update L p (x :: L p) a → y ∈ L a ∨ a = p ∧ y = x := by
    intro a y hy
    rw [update_apply] at hy
    split at hy
    · next ha =>
      subst ha
      exact (List.mem_cons.mp hy).elim (fun e => .inr ⟨rfl, e⟩) .inl
    · exact .inl hy
  refine ⟨fun a => ?_, fun a => ?_, fun a b y ha hb => ?_⟩
  · rcases eq_or_ne a p with rfl | hap
    · rw [update_self]
      exact Walk.cons_iff.mpr ⟨hn, h.walk a⟩
    · rw [update_of_ne hap]
      exact h.walk a
  · rcases eq_or_ne a p with rfl | hap
    · rw [update_self]
      exact List.nodup_cons.mpr ⟨hx a, h.nodup a⟩
    · rw [update_of_ne hap]
      exact h.nodup a
  · rcases hmem a y ha with h1 | ⟨rfl, rfl⟩ <;> rcases hmem b y hb with h2 | ⟨rfl, h2⟩
    · exact h.apart a b y h1 h2
    · exact absurd (h2 ▸ h1) (hx a)
    · exact absurd h2 (hx b)
    · rfl

/-- What is in a list after an element was put in front of one. -/
theorem exists_mem_push {y : α} :
    (∃ a, y ∈ Function.update L p (x :: L p) a) ↔ y = x ∨ ∃ a, y ∈ L a := by
  constructor
  · rintro ⟨a, ha⟩
    rw [update_apply] at ha
    split at ha
    · exact (List.mem_cons.mp ha).imp_right (⟨p, ·⟩)
    · exact .inr ⟨a, ha⟩
  · rintro (rfl | ⟨a, ha⟩)
    · refine ⟨p, ?_⟩
      rw [update_self]
      exact List.mem_cons_self
    · refine ⟨a, ?_⟩
      rw [update_apply]
      split
      · next hap => exact List.mem_cons_of_mem _ (hap ▸ ha)
      · exact ha

/-- The first element is taken from a list. -/
theorem pop (h : Lists next L stop) (hp : L p = x :: l) :
    Lists next (Function.update L p l) stop ∧ next x = l.head?.or (stop p) ∧
      ∀ a, x ∉ Function.update L p l a := by
  have hsub : ∀ a, Function.update L p l a ⊆ L a := by
    intro a
    rw [update_apply]
    split
    · next ha =>
      subst ha
      exact hp ▸ List.subset_cons_self x l
    · exact fun y hy => hy
  have hlink := Walk.cons_iff.mp (hp ▸ h.walk p)
  have hnd := List.nodup_cons.mp (hp ▸ h.nodup p)
  refine ⟨⟨fun a => ?_, fun a => ?_, fun a b y ha hb => ?_⟩, hlink.1, fun a ha => ?_⟩
  · rcases eq_or_ne a p with rfl | hap
    · rw [update_self]
      exact hlink.2
    · rw [update_of_ne hap]
      exact h.walk a
  · rcases eq_or_ne a p with rfl | hap
    · rw [update_self]
      exact hnd.2
    · rw [update_of_ne hap]
      exact h.nodup a
  · exact h.apart a b y (hsub a ha) (hsub b hb)
  · obtain rfl : a = p := h.apart a p x (hsub a ha) (hp ▸ List.mem_cons_self)
    rw [update_self] at ha
    exact hnd.1 ha

end Move

end Lists

end Coroactors.Conc
