/-
  Coroactors.WorkStealing.LocalSteps

  The local queues of `WorkStealingScheduler`
  (src/benchmarks/benchmark_actor_latency.cpp) lose and duplicate no task, in
  every run in which no pass of the loop in `steal_from_local` spans `2 ^ 32`
  tasks that enter its victim.
-/

import Coroactors.WorkStealing.LocalInv

namespace Coroactors.WorkStealing.Local

open Coroactors.Conc

variable {T : Type*} {s s' : State T} {t v : Nat} {q : Pc T}

-- ============================================================================
-- A thread moves
-- ============================================================================

/-- Thread `t` makes a step: what has to be shown about the new state. -/
theorem Inv.change (h : Inv s) (hpc : s'.pc = Function.update s.pc t q)
    (hring : ∀ u, RingOk (s'.ring u)) (hg : Grows s s') (ha : ∀ u, u ≠ t → Apart s s' u)
    (hq : PcOk s' t q) (hands : q.publishes = false → s'.hands t = [])
    (hcustody : Custody s'.at fun i => i < s'.accepted.length)
    (hentered : ∀ u, s'.Genuine (s'.ring u).entered) (hheld : ∀ u, s'.Genuine (s'.hands u))
    (hreturned : s'.Genuine s'.returned) (hassert : s'.assertFailed = false) : Inv s' := by
  refine ⟨hring, fun u => ?_, fun u => ?_, hcustody, hentered, hheld, hreturned, hassert⟩
  · by_cases hut : u = t
    · rw [hpc, hut, Function.update_self]
      exact hq
    · rw [hpc, Function.update_of_ne hut]
      exact (h.pc u).frame hg (ha u hut) (hring u)
  · by_cases hut : u = t
    · rw [hpc, hut, Function.update_self]
      exact hands
    · rw [hpc, Function.update_of_ne hut, (ha u hut).hands]
      exact h.hands u

theorem Grows.refl (s : State T) : Grows s s := fun _ => ⟨Nat.le_refl _, List.prefix_rfl⟩

theorem PcOk.goto {p : Pc T} (h : PcOk s t p) (hr : RingOk (s.ring t)) : PcOk (s.goto t q) t p :=
  h.frame (Grows.refl s) ⟨rfl, rfl, rfl⟩ hr

/-- Only the position changes. -/
theorem Inv.goto (h : Inv s) (hq : PcOk s t q) (hp : (s.pc t).publishes = false) : Inv (s.goto t q) := by
  exact h.change (t := t) (q := q) rfl h.ring (Grows.refl s) (fun _ _ => ⟨rfl, rfl, rfl⟩)
    (hq.goto (h.ring t)) (fun _ => h.hands t hp) h.custody h.entered h.held h.returned h.assertOk

-- ============================================================================
-- Slots
-- ============================================================================

/-- A thread writes a slot outside its ring. -/
theorem setSlot_ring {k u : Nat} {x : T} :
    (s.setSlot t (k % 2 ^ 32) x).ring u =
      if u = t then { s.ring t with slots := Function.update (s.ring t).slots (k % 256) x }
      else s.ring u := by
  show Function.update s.ring t { s.ring t with
    slots := Function.update (s.ring t).slots (k % 2 ^ 32 &&& taskIndexMask) x } u = _
  rw [and_taskIndexMask]
  by_cases hut : u = t
  · rw [if_pos hut, hut, Function.update_self]
  · rw [if_neg hut, Function.update_of_ne hut]

theorem setSlot_counts {k u : Nat} {x : T} :
    ((s.setSlot t (k % 2 ^ 32) x).ring u).left = (s.ring u).left ∧
      ((s.setSlot t (k % 2 ^ 32) x).ring u).entered = (s.ring u).entered := by
  rw [setSlot_ring]
  by_cases hut : u = t
  · rw [if_pos hut, hut]
    exact ⟨rfl, rfl⟩
  · rw [if_neg hut]
    exact ⟨rfl, rfl⟩

theorem Inv.write {k : Nat} {x : T} (h : Inv s) (hk : (s.ring t).entered.length ≤ k)
    (hlt : k < (s.ring t).left.length + 256) (hp : (s.pc t).publishes = false)
    (hq : PcOk (s.setSlot t (k % 2 ^ 32) x) t q) :
    Inv ((s.setSlot t (k % 2 ^ 32) x).goto t q) := by
  have hat : (s.setSlot t (k % 2 ^ 32) x).at = s.at := by
    funext p
    cases p with
    | ring u => simp only [State.at, Ring.inside, setSlot_counts.1, setSlot_counts.2]
    | hands u => rfl
    | returned => rfl
  have hok : ∀ u, RingOk ((s.setSlot t (k % 2 ^ 32) x).ring u) := by
    intro u
    rw [setSlot_ring]
    by_cases hut : u = t
    · rw [if_pos hut]
      exact (h.ring t).write hk hlt
    · rw [if_neg hut]
      exact h.ring u
  refine h.change (t := t) (q := q) rfl hok (fun u => ?_) (fun u hu => ?_) (hq.goto (hok t))
    (fun _ => h.hands t hp) ?_ (fun u => ?_) h.held h.returned h.assertOk
  · show _ ≤ ((s.setSlot t (k % 2 ^ 32) x).ring u).left.length ∧
      _ <+: ((s.setSlot t (k % 2 ^ 32) x).ring u).entered
    rw [setSlot_counts.1, setSlot_counts.2]
    exact ⟨Nat.le_refl _, List.prefix_rfl⟩
  · have hring : (s.setSlot t (k % 2 ^ 32) x).ring u = s.ring u := by
      rw [setSlot_ring, if_neg hu]
    exact ⟨congrArg Ring.slots hring, congrArg Ring.entered hring, rfl⟩
  · show Custody (s.setSlot t (k % 2 ^ 32) x).at _
    rw [hat]
    exact h.custody
  · show s.Genuine ((s.setSlot t (k % 2 ^ 32) x).ring u).entered
    rw [setSlot_counts.2]
    exact h.entered u

-- ============================================================================
-- Tasks leave a ring
-- ============================================================================

section Leave

variable {n : Nat}

/-- The first `n` tasks of ring `v` left it. -/
def State.gone (s : State T) (v n : Nat) : State T :=
  s.leave v (wordOf ((s.ring v).left.length + n) (s.ring v).entered.length)
    ((s.ring v).inside.take n)

theorem gone_ring_of_ne {u : Nat} (hu : u ≠ v) : (s.gone v n).ring u = s.ring u :=
  Function.update_of_ne hu _ _

theorem gone_ring_self : (s.gone v n).ring v =
    { s.ring v with
      word := wordOf ((s.ring v).left.length + n) (s.ring v).entered.length
      left := (s.ring v).left ++ (s.ring v).inside.take n } :=
  Function.update_self ..

theorem gone_entered {u : Nat} : ((s.gone v n).ring u).entered = (s.ring u).entered := by
  by_cases hu : u = v
  · rw [hu, gone_ring_self]
  · rw [gone_ring_of_ne hu]

theorem gone_slots {u : Nat} : ((s.gone v n).ring u).slots = (s.ring u).slots := by
  by_cases hu : u = v
  · rw [hu, gone_ring_self]
  · rw [gone_ring_of_ne hu]

theorem gone_grows : Grows s (s.gone v n) := by
  intro u
  refine ⟨?_, gone_entered.symm ▸ List.prefix_rfl⟩
  by_cases hu : u = v
  · rw [hu, gone_ring_self, List.length_append]
    exact Nat.le_add_right _ _
  · exact Nat.le_of_eq (by rw [gone_ring_of_ne hu])

theorem Inv.gone_ok (h : Inv s) (hn : n ≤ (s.ring v).inside.length) (u : Nat) :
    RingOk ((s.gone v n).ring u) := by
  by_cases hu : u = v
  · rw [hu, gone_ring_self]
    exact (h.ring v).leave hn
  · rw [gone_ring_of_ne hu]
    exact h.ring u

theorem gone_inside (hn : n ≤ (s.ring v).inside.length) :
    (s.ring v).inside = (s.ring v).inside.take n ++ ((s.gone v n).ring v).inside := by
  have hlen : ((s.ring v).left ++ (s.ring v).inside.take n).length =
      (s.ring v).left.length + n := by
    rw [List.length_append, List.length_take]
    omega
  have hdrop : ((s.gone v n).ring v).inside = (s.ring v).inside.drop n := by
    rw [gone_ring_self]
    show (s.ring v).entered.drop ((s.ring v).left ++ (s.ring v).inside.take n).length = _
    rw [hlen]
    simp [Ring.inside]
  rw [hdrop, List.take_append_drop]

theorem Inv.genuine_inside (h : Inv s) : s.Genuine ((s.ring v).inside.take n) := fun e he =>
  h.entered v e (List.mem_of_mem_drop (List.mem_of_mem_take he))

/-- The tasks that left are returned. -/
theorem Inv.returns (h : Inv s) (hn : n ≤ (s.ring v).inside.length)
    (hp : (s.pc t).publishes = false) :
    Inv ({ s.gone v n with returned := s.returned ++ (s.ring v).inside.take n }.goto t .idle) := by
  refine h.change (t := t) (q := .idle) rfl (h.gone_ok hn) gone_grows
    (fun u _ => ⟨gone_slots, gone_entered, rfl⟩) trivial (fun _ => h.hands t hp) ?_
    (fun u => ?_) h.held ?_ h.assertOk
  · refine h.custody.move (p := .ring v) (q := .returned) (l := ((s.ring v).inside.take n).map Prod.fst)
      (by simp) ?_ ?_ fun r h1 h2 => ?_
    · show (s.ring v).inside.map Prod.fst = _ ++ ((s.gone v n).ring v).inside.map Prod.fst
      rw [← List.map_append, ← gone_inside hn]
    · exact List.map_append ..
    · cases r with
      | ring u =>
          have hu : u ≠ v := fun he => h1 (by rw [he])
          show ((s.gone v n).ring u).inside.map Prod.fst = _
          rw [gone_ring_of_ne hu]
          rfl
      | hands u => rfl
      | returned => exact absurd rfl h2
  · show s.Genuine ((s.gone v n).ring u).entered
    rw [gone_entered]
    exact h.entered u
  · intro e he
    rcases List.mem_append.mp he with he | he
    · exact h.returned e he
    · exact h.genuine_inside e he

/-- The tasks that left are in the hands of a thief. -/
theorem Inv.grabs {a : Attempt} {r : T} (h : Inv s) (hn : n ≤ (s.ring v).inside.length)
    (hp : (s.pc t).publishes = false)
    (hq : PcOk { s.gone v n with hands := Function.update s.hands t ((s.ring v).inside.take n) } t
      (.stealPublish a r)) :
    Inv ({ s.gone v n with
      hands := Function.update s.hands t ((s.ring v).inside.take n) }.goto t
        (.stealPublish a r)) := by
  have hempty := h.hands t hp
  refine h.change (t := t) (q := .stealPublish a r) rfl (h.gone_ok hn) gone_grows
    (fun u hu => ⟨gone_slots, gone_entered, Function.update_of_ne hu _ _⟩)
    (hq.goto (h.gone_ok hn t)) (fun hf => by cases hf) ?_ (fun u => ?_) (fun u => ?_) h.returned h.assertOk
  · refine h.custody.move (p := .ring v) (q := .hands t) (l := ((s.ring v).inside.take n).map Prod.fst)
      (by simp) ?_ ?_ fun r h1 h2 => ?_
    · show (s.ring v).inside.map Prod.fst = _ ++ ((s.gone v n).ring v).inside.map Prod.fst
      rw [← List.map_append, ← gone_inside hn]
    · simp [State.at, State.goto, hempty]
    · cases r with
      | ring u =>
          have hu : u ≠ v := fun he => h1 (by rw [he])
          show ((s.gone v n).ring u).inside.map Prod.fst = _
          rw [gone_ring_of_ne hu]
          rfl
      | hands u =>
          have hu : u ≠ t := fun he => h2 (by rw [he])
          simp [State.at, State.goto, Function.update_of_ne hu]
      | returned => rfl
  · show s.Genuine ((s.gone v n).ring u).entered
    rw [gone_entered]
    exact h.entered u
  · show s.Genuine (Function.update s.hands t ((s.ring v).inside.take n) u)
    by_cases hu : u = t
    · rw [hu, Function.update_self]
      exact h.genuine_inside
    · rw [Function.update_of_ne hu]
      exact h.held u

end Leave

-- ============================================================================
-- Tasks enter a ring
-- ============================================================================

section Enter

variable {l : List (Nat × T)}

/-- Tasks entered ring `t`. -/
def State.filled (s : State T) (t : Nat) (l : List (Nat × T)) : State T :=
  s.setRing t { s.ring t with
    word := wordOf (s.ring t).left.length ((s.ring t).entered.length + l.length)
    entered := (s.ring t).entered ++ l }

theorem filled_ring_of_ne {u : Nat} (hu : u ≠ t) : (s.filled t l).ring u = s.ring u :=
  Function.update_of_ne hu _ _

theorem filled_ring_self : (s.filled t l).ring t =
    { s.ring t with
      word := wordOf (s.ring t).left.length ((s.ring t).entered.length + l.length)
      entered := (s.ring t).entered ++ l } :=
  Function.update_self ..

theorem filled_grows : Grows s (s.filled t l) := by
  intro u
  by_cases hu : u = t
  · rw [hu, filled_ring_self]
    exact ⟨Nat.le_refl _, List.prefix_append _ _⟩
  · rw [filled_ring_of_ne hu]
    exact ⟨Nat.le_refl _, List.prefix_rfl⟩

theorem filled_apart {u : Nat} (hu : u ≠ t) : Apart s (s.filled t l) u := by
  have hring := filled_ring_of_ne (s := s) (l := l) hu
  exact ⟨congrArg Ring.slots hring, congrArg Ring.entered hring, rfl⟩

theorem Inv.filled_ok (h : Inv s)
    (hfull : (s.ring t).entered.length + l.length ≤ (s.ring t).left.length + 256)
    (hslots : ∀ j e, l[j]? = some e →
      (s.ring t).slots (((s.ring t).entered.length + j) % 256) = e.2) (u : Nat) :
    RingOk ((s.filled t l).ring u) := by
  by_cases hu : u = t
  · rw [hu, filled_ring_self]
    exact (h.ring t).enter hfull hslots
  · rw [filled_ring_of_ne hu]
    exact h.ring u

theorem Inv.filled_inside (h : Inv s) :
    ((s.filled t l).ring t).inside = (s.ring t).inside ++ l := by
  rw [filled_ring_self]
  exact List.drop_append_of_le_length (h.ring t).le

theorem Inv.filled_entered (h : Inv s) (hl : s.Genuine l) (u : Nat) :
    s.Genuine ((s.filled t l).ring u).entered := by
  by_cases hu : u = t
  · rw [hu, filled_ring_self]
    intro e he
    rcases List.mem_append.mp he with he | he
    · exact h.entered t e he
    · exact hl e he
  · rw [filled_ring_of_ne hu]
    exact h.entered u

theorem filled_at {p : Place} (hp : p ≠ .ring t) : (s.filled t l).at p = s.at p := by
  cases p with
  | ring u =>
      have hu : u ≠ t := fun he => hp (by rw [he])
      simp only [State.at, filled_ring_of_ne hu]
  | hands u => rfl
  | returned => rfl

/-- The numbers of accepted tasks stay. -/
theorem Genuine.accept {r : T} (h : s.Genuine l) (hacc : s'.accepted = s.accepted ++ [r]) :
    s'.Genuine l := by
  intro e he
  have hs := h e he
  rw [hacc, List.getElem?_append_left (List.getElem?_eq_some_iff.mp hs).1]
  exact hs

/-- `push_to_local` accepts a task. -/
theorem Inv.accepts {r : T} (h : Inv s) (hp : (s.pc t).publishes = false)
    (hfull : (s.ring t).entered.length < (s.ring t).left.length + 256)
    (hslot : (s.ring t).slots ((s.ring t).entered.length % 256) = r) :
    Inv ({ s.filled t [(s.accepted.length, r)] with
      accepted := s.accepted ++ [r] }.goto t .idle) := by
  have hslots : ∀ j (e : Nat × T), [(s.accepted.length, r)][j]? = some e →
      (s.ring t).slots (((s.ring t).entered.length + j) % 256) = e.2 := by
    intro j e he
    cases j with
    | zero =>
        rw [List.getElem?_cons_zero, Option.some.injEq] at he
        rw [← he]
        exact hslot
    | succ j => simp at he
  have hg : ∀ l, s.Genuine l →
      ({ s.filled t [(s.accepted.length, r)] with
        accepted := s.accepted ++ [r] }.goto t .idle).Genuine l := fun l hl =>
    Genuine.accept hl rfl
  refine h.change (t := t) (q := .idle) rfl (h.filled_ok hfull hslots) filled_grows
    (fun u hu => ⟨(filled_apart hu).slots, (filled_apart hu).entered, rfl⟩) trivial
    (fun _ => h.hands t hp) ?_ (fun u => ?_) (fun u => hg _ (h.held u)) (hg _ h.returned) h.assertOk
  · refine h.custody.add (a := s.accepted.length) (q := .ring t) (by simp) ?_ (fun p hp => ?_)
      (fun b => ?_)
    · show ((s.filled t [(s.accepted.length, r)]).ring t).inside.map Prod.fst = _
      rw [h.filled_inside, List.map_append]
      rfl
    · exact filled_at hp
    · show b < (s.accepted ++ [r]).length ↔ _
      rw [List.length_append, List.length_singleton]
      omega
  · intro e he
    have he' : e ∈ ((s.filled t [(s.accepted.length, r)]).ring u).entered := he
    by_cases hu : u = t
    · rw [hu, filled_ring_self] at he'
      rcases List.mem_append.mp he' with he' | he'
      · exact hg _ (h.entered t) e he'
      · rw [List.mem_singleton.mp he']
        show (s.accepted ++ [r])[s.accepted.length]? = some r
        simp
    · rw [filled_ring_of_ne hu] at he'
      exact hg _ (h.entered u) e he'

/-- The thief publishes what it has in its hands, and returns the first task. -/
theorem Inv.publishes {i : Nat} {r : T} {rest : List (Nat × T)} (h : Inv s)
    (hands : s.hands t = (i, r) :: rest)
    (hfull : (s.ring t).entered.length + rest.length ≤ (s.ring t).left.length + 256)
    (hslots : ∀ j e, rest[j]? = some e →
      (s.ring t).slots (((s.ring t).entered.length + j) % 256) = e.2) :
    Inv ({ s.filled t rest with
      hands := Function.update s.hands t []
      returned := s.returned ++ [(i, r)] }.goto t .idle) := by
  have hheld := h.held t
  rw [hands] at hheld
  refine h.change (t := t) (q := .idle) rfl (h.filled_ok hfull hslots) filled_grows
    (fun u hu => ⟨(filled_apart hu).slots, (filled_apart hu).entered, Function.update_of_ne hu _ _⟩)
    trivial (fun _ => Function.update_self ..) ?_
    (h.filled_entered fun e he => hheld e (List.mem_cons_of_mem _ he)) (fun u => ?_) ?_ h.assertOk
  · -- the first task goes to the caller, the rest to the ring
    let f : Place → List Nat := fun p =>
      if p = .hands t then rest.map Prod.fst
      else if p = .returned then (s.returned ++ [(i, r)]).map Prod.fst else s.at p
    have h1 : Custody f fun i => i < s.accepted.length := by
      refine h.custody.move (p := .hands t) (q := .returned) (l := [i]) (by simp) ?_ ?_
        fun p hp hp' => ?_
      · simp [f, State.at, hands]
      · simp [f, State.at]
      · simp [f, hp, hp']
    refine h1.move (p := .hands t) (q := .ring t) (l := rest.map Prod.fst) (by simp) ?_ ?_
      fun p hp hp' => ?_
    · simp [f, State.at, State.goto]
    · show ((s.filled t rest).ring t).inside.map Prod.fst = _
      rw [h.filled_inside, List.map_append]
      simp [f, State.at]
    · cases p with
      | ring u =>
          have hat := filled_at (s := s) (l := rest) hp'
          show (s.filled t rest).at (.ring u) = _
          rw [hat]
          simp [f]
      | hands u =>
          have hu : u ≠ t := fun he => hp (by rw [he])
          simp [f, hu, State.at, State.goto]
      | returned => simp [f, State.at, State.goto]
  · show s.Genuine (Function.update s.hands t [] u)
    by_cases hu : u = t
    · rw [hu, Function.update_self]
      intro e he
      cases he
    · rw [Function.update_of_ne hu]
      exact h.held u
  · intro e he
    rcases List.mem_append.mp he with he | he
    · exact h.returned e he
    · exact hheld e (by rw [List.mem_singleton.mp he]; exact List.mem_cons_self)

end Enter

-- ============================================================================
-- Steps of the owner
-- ============================================================================

theorem Inv.popLoop (h : Inv s) (hp : (s.pc t).publishes = false) :
    Inv (s.popLoop t (s.ring t).word) := by
  have hr := h.ring t
  have hle := hr.le
  unfold State.popLoop
  split
  · exact h.goto trivial hp
  · rename_i hne
    rw [hr.word, headOf_wordOf, tailOf_wordOf] at hne
    refine h.goto ⟨(s.ring t).left.length, hr.word, Nat.le_refl _, ?_, hr.full⟩ hp
    have hlt : (s.ring t).left.length ≠ (s.ring t).entered.length := fun he => hne (by rw [he])
    omega

/-- The owner's word can have changed by stealing only: if it is the same, the
    head is the one that was seen. -/
theorem Seen.eq_left {R : Ring T} {k w : Nat} (hs : Seen R k w) (hr : RingOk R)
    (hw : R.word = w) : R.left.length = k := by
  have h1 := wordOf_inj (hr.word.symm.trans (hw.trans hs.word))
  have h2 := hs.left
  have h3 := hs.full
  have h4 := hr.le
  omega

theorem popCas_inv {w : Nat} {r : T} (h : Inv s) (hp : s.pc t = .popCas w r)
    (hw : (s.ring t).word = w) :
    Inv ({ s.leave t (packHeadTail (add32 (headOf w) 1) (tailOf w)) (s.taking t [r]) with
      returned := s.returned ++ s.taking t [r] }.goto t .idle) := by
  have hok := h.pc t
  rw [hp] at hok
  obtain ⟨k, hs, hread⟩ := hok
  have hk := hs.eq_left (h.ring t) hw
  have hn : 1 ≤ (s.ring t).inside.length := by
    rw [inside_length]
    have := hs.some
    omega
  have htake : s.taking t [r] = (s.ring t).inside.take 1 := by
    refine zip_eq_take fun j e x he hx => ?_
    cases j with
    | zero =>
        rw [inside_getElem?] at he
        rw [List.getElem?_cons_zero, Option.some.injEq] at hx
        rw [← hx]
        exact hread hk e (by rw [← hk]; exact he)
    | succ j => simp at hx
  have hword : packHeadTail (add32 (headOf w) 1) (tailOf w) =
      wordOf ((s.ring t).left.length + 1) (s.ring t).entered.length := by
    rw [hs.word, headOf_wordOf, tailOf_wordOf, packHeadTail_add, hk]
  rw [htake, hword]
  exact h.returns hn (by rw [hp]; rfl)

theorem pushStore_inv {r : T} {tail : Nat} (h : Inv s) (hp : s.pc t = .pushStore r tail) :
    Inv ((s.setSlot t tail r).goto t (.pushAdd r tail)) := by
  have hok := h.pc t
  rw [hp] at hok
  obtain ⟨rfl, hlt⟩ := hok
  refine h.write (Nat.le_refl _) hlt (by rw [hp]; rfl) ?_
  simp only [PcOk, setSlot_counts.1, setSlot_counts.2]
  refine ⟨trivial, hlt, ?_⟩
  rw [setSlot_ring, if_pos rfl]
  exact Function.update_self ..

theorem pushAdd_inv {r : T} {tail : Nat} (h : Inv s) (hp : s.pc t = .pushAdd r tail) :
    Inv ({ s.setRing t { s.ring t with
        word := add64 (s.ring t).word
          (sub64 (packHeadTail 0 (add32 tail 1)) (packHeadTail 0 tail))
        entered := (s.ring t).entered ++ [(s.accepted.length, r)] } with
      accepted := s.accepted ++ [r] }.goto t .idle) := by
  have hok := h.pc t
  rw [hp] at hok
  obtain ⟨rfl, hlt, hslot⟩ := hok
  rw [(h.ring t).word, add64_increment]
  exact h.accepts (by rw [hp]; rfl) hlt hslot

-- ============================================================================
-- Steps of a thief
-- ============================================================================

section Steal

variable {a : Attempt} {r : T} {i : Nat}

theorem Inv.stealLoop {victim head tail : Nat} (h : Inv s) (hth : Thief s t victim head tail)
    (hp : (s.pc t).publishes = false) :
    Inv (s.stealLoop t victim head tail (s.ring victim).word) := by
  have hr := h.ring victim
  have hle := hr.le
  have hfull := hr.full
  have hn : sub32 (tailOf (s.ring victim).word) (headOf (s.ring victim).word) =
      (s.ring victim).entered.length - (s.ring victim).left.length := by
    rw [hr.word, headOf_wordOf, tailOf_wordOf]
    exact sub32_mod hle hfull
  unfold State.stealLoop
  simp only [hn]
  split
  · exact h.goto trivial hp
  · rename_i hne
    have hlt : (s.ring victim).left.length < (s.ring victim).entered.length := by omega
    refine h.goto ?_ hp
    exact ⟨hth, hr.word, Nat.le_refl _, Nat.le_refl _, hlt, hfull,
      by rw [Nat.shiftRight_eq_div_pow]⟩

/-- Where the loop that copies goes. -/
theorem copyLoop_ok (hok : AttemptOk s t a) (hi : 1 ≤ i ∧ i ≤ a.n)
    (hc : Current s a → Copied s t a r i) :
    ∃ q, s.copyLoop t a r i = s.goto t q ∧ PcOk s t q := by
  unfold State.copyLoop
  split
  · rename_i hlt
    exact ⟨_, rfl, hok, ⟨hi.1, hlt⟩, hc⟩
  · rename_i hnot
    have hin : i = a.n := by omega
    exact ⟨_, rfl, hok, hin ▸ hc⟩

/-- A slot that the thief reads, as long as the victim is as it was. -/
theorem slot_of_current {k : Nat} {e : Nat × T} (hok : AttemptOk s t a) (h : Inv s)
    (hc : Current s a) (he : (s.ring a.victim).entered[a.seenLeft + k]? = some e) :
    s.slot a.victim (add32 (headOf a.their) k) = e.2 := by
  rw [hok.their, headOf_wordOf, add32_mod]
  unfold State.slot
  rw [and_taskIndexMask]
  exact (h.ring a.victim).slots _ e (by rw [hc.1]; exact Nat.le_add_right _ _) he

theorem stealFirst_inv (h : Inv s) (hp : s.pc t = .stealFirst a) :
    Inv (s.copyLoop t a (s.slot a.victim (headOf a.their)) 1) := by
  have hok := h.pc t
  rw [hp] at hok
  have hok : AttemptOk s t a := hok
  have hn := hok.n
  have hsome := hok.some
  have hcop : Current s a → Copied s t a (s.slot a.victim (headOf a.their)) 1 := by
    refine fun hc => ⟨fun e he => ?_, fun j e hj => by omega⟩
    have hslot := slot_of_current (k := 0) hok h hc he
    rw [hok.their, headOf_wordOf, add32_mod, Nat.add_zero] at hslot
    rw [hok.their, headOf_wordOf]
    exact hslot
  obtain ⟨q, hq, hpc⟩ := copyLoop_ok hok ⟨Nat.le_refl _, by omega⟩ hcop
  rw [hq]
  exact h.goto hpc (by rw [hp]; rfl)

theorem stealRead_inv (h : Inv s) (hp : s.pc t = .stealRead a r i) :
    Inv (s.goto t (.stealWrite a r i (s.slot a.victim (add32 (headOf a.their) i)))) := by
  have hok := h.pc t
  rw [hp] at hok
  obtain ⟨hok, hi, hc⟩ := hok
  exact h.goto ⟨hok, hi, fun hcur => ⟨hc hcur, fun e he => slot_of_current hok h hcur he⟩⟩
    (by rw [hp]; rfl)

theorem stealWrite_inv {x : T} (h : Inv s) (hp : s.pc t = .stealWrite a r i x) :
    Inv ((s.setSlot t (add32 a.ourTail (i - 1)) x).copyLoop t a r (i + 1)) := by
  have hok := h.pc t
  rw [hp] at hok
  obtain ⟨hok, hi, hc⟩ := hok
  have hn := hok.n
  have hfull := hok.full
  have hempty := hok.thief.empty
  have hother := hok.thief.other
  rw [hok.thief.tail, add32_mod]
  generalize hk : (s.ring t).entered.length + (i - 1) = k
  have hvictim : (s.setSlot t (k % 2 ^ 32) x).ring a.victim = s.ring a.victim := by
    rw [setSlot_ring, if_neg hother]
  have hown : (s.setSlot t (k % 2 ^ 32) x).ring t =
      { s.ring t with slots := Function.update (s.ring t).slots (k % 256) x } := by
    rw [setSlot_ring, if_pos rfl]
  have hok' : AttemptOk (s.setSlot t (k % 2 ^ 32) x) t a := by
    refine ⟨⟨hother, ?_, ?_, ?_⟩, hok.their, ?_, ?_, hok.some, hok.full, hok.n⟩
    · rw [hown]
      exact hempty
    · rw [hown]
      exact hok.thief.head
    · rw [hown]
      exact hok.thief.tail
    · rw [hvictim]
      exact hok.left
    · rw [hvictim]
      exact hok.entered
  have hcop' : Current (s.setSlot t (k % 2 ^ 32) x) a →
      Copied (s.setSlot t (k % 2 ^ 32) x) t a r (i + 1) := by
    intro hcur
    unfold Current at hcur
    rw [hvictim] at hcur
    obtain ⟨hcop, hx⟩ := hc hcur
    refine ⟨fun e he => hcop.first e (by rw [hvictim] at he; exact he), fun j e hj he => ?_⟩
    rw [hvictim] at he
    rw [hown]
    show Function.update (s.ring t).slots (k % 256) x (((s.ring t).entered.length + j) % 256) = e.2
    by_cases hji : j + 1 = i
    · have hkj : (s.ring t).entered.length + j = k := by omega
      rw [hkj, Function.update_self]
      exact hx e (by rw [← hji, ← he]; congr 1; omega)
    · -- an earlier copy is in another slot
      have hne : ((s.ring t).entered.length + j) % 256 ≠ k % 256 := by omega
      rw [Function.update_of_ne hne]
      exact hcop.copy j e (by omega) he
  obtain ⟨q, hq, hpc⟩ := copyLoop_ok hok' ⟨by omega, by omega⟩ hcop'
  rw [hq]
  exact h.write (by omega) (by omega) (by rw [hp]; rfl) hpc

/-- A compare-exchange that succeeds finds the victim as it was. -/
theorem AttemptOk.current (hok : AttemptOk s t a) (h : Inv s)
    (hw : (s.ring a.victim).word = a.their)
    (hbrief : (s.ring a.victim).entered.length < a.seenEntered + 2 ^ 32) : Current s a := by
  have hr := h.ring a.victim
  have h1 := wordOf_inj (hr.word.symm.trans (hw.trans hok.their))
  have h2 := hok.left
  have h3 := hok.entered
  have h4 := hok.full
  have h5 := hr.le
  constructor <;> omega

/-- What the thief read are the first tasks of its victim. -/
theorem Copied.taking_eq (hcop : Copied s t a r a.n) (hok : AttemptOk s t a)
    (hc : Current s a) :
    s.taking a.victim (r :: s.copies t a) = (s.ring a.victim).inside.take a.n := by
  have hn := hok.n
  have hsome := hok.some
  have hlen : (r :: s.copies t a).length = a.n := by
    simp only [State.copies, List.length_cons, List.length_map, List.length_range]
    omega
  rw [← hlen]
  refine zip_eq_take fun j e x he hx => ?_
  rw [inside_getElem?, hc.1] at he
  cases j with
  | zero =>
      rw [List.getElem?_cons_zero, Option.some.injEq] at hx
      rw [← hx]
      exact hcop.first e he
  | succ j =>
      rw [List.getElem?_cons_succ, State.copies, List.getElem?_map] at hx
      obtain ⟨j', hj', rfl⟩ := Option.map_eq_some_iff.mp hx
      obtain ⟨hlt, hjj⟩ := List.getElem?_eq_some_iff.mp hj'
      rw [List.length_range] at hlt
      rw [List.getElem_range] at hjj
      rw [← hjj, hok.thief.tail, add32_mod, State.slot, and_taskIndexMask]
      exact hcop.copy j e (by omega) (by rw [← he]; congr 1; omega)

theorem stealCas_inv (h : Inv s) (hp : s.pc t = .stealCas a r)
    (hw : (s.ring a.victim).word = a.their)
    (hbrief : (s.ring a.victim).entered.length < a.seenEntered + 2 ^ 32) :
    let out := s.taking a.victim (r :: s.copies t a)
    let s' := s.leave a.victim (packHeadTail (add32 (headOf a.their) a.n) (tailOf a.their)) out
    (1 < a.n →
      Inv ({ s' with hands := Function.update s.hands t out }.goto t (.stealPublish a r))) ∧
    (a.n ≤ 1 → Inv ({ s' with returned := s.returned ++ out }.goto t .idle)) := by
  have hok := h.pc t
  rw [hp] at hok
  obtain ⟨hok, hcop⟩ := hok
  have hc := hok.current h hw hbrief
  have hcop := hcop hc
  have hn := hok.n
  have hsome := hok.some
  have hfull := hok.full
  have hle : a.n ≤ (s.ring a.victim).inside.length := by
    rw [inside_length, hc.1, hc.2]
    omega
  have hword : packHeadTail (add32 (headOf a.their) a.n) (tailOf a.their) =
      wordOf ((s.ring a.victim).left.length + a.n) (s.ring a.victim).entered.length := by
    rw [hok.their, headOf_wordOf, tailOf_wordOf, packHeadTail_add, hc.1, hc.2]
  have hnp : (s.pc t).publishes = false := by rw [hp]; rfl
  simp only [hcop.taking_eq hok hc, hword]
  refine ⟨fun hlt => h.grabs hle hnp ?_, fun _ => h.returns hle hnp⟩
  -- the copies are in the slots where they are going to be published
  have hring : (s.gone a.victim a.n).ring t = s.ring t := gone_ring_of_ne hok.thief.other.symm
  have hth : Thief { s.gone a.victim a.n with
      hands := Function.update s.hands t ((s.ring a.victim).inside.take a.n) } t a.victim a.ourHead
      a.ourTail := by
    refine ⟨hok.thief.other, ?_, ?_, ?_⟩
    · show ((s.gone a.victim a.n).ring t).left.length = ((s.gone a.victim a.n).ring t).entered.length
      rw [hring]
      exact hok.thief.empty
    · show _ = ((s.gone a.victim a.n).ring t).entered.length % 2 ^ 32
      rw [hring]
      exact hok.thief.head
    · show _ = ((s.gone a.victim a.n).ring t).entered.length % 2 ^ 32
      rw [hring]
      exact hok.thief.tail
  obtain ⟨e, rest, hin⟩ : ∃ e rest, (s.ring a.victim).inside = e :: rest := by
    cases hx : (s.ring a.victim).inside with
    | nil => simp [hx] at hle; omega
    | cons e rest => exact ⟨e, rest, rfl⟩
  have hget : ∀ j, (s.ring a.victim).inside[j]? = (s.ring a.victim).entered[a.seenLeft + j]? :=
    fun j => by rw [inside_getElem?, hc.1]
  have hfirst : r = e.2 := hcop.first e (by rw [← Nat.add_zero a.seenLeft, ← hget, hin]; rfl)
  refine ⟨hth, ⟨hlt, by omega⟩, e.1, rest.take (a.n - 1), ?_, ?_, fun j x hx => ?_⟩
  · show Function.update s.hands t ((s.ring a.victim).inside.take a.n) t = _
    rw [Function.update_self, hin, hfirst]
    obtain ⟨m, hm⟩ : ∃ m, a.n = m + 1 := ⟨a.n - 1, by omega⟩
    rw [hm]
    rfl
  · rw [hin, List.length_cons] at hle
    rw [List.length_take]
    omega
  · show ((s.gone a.victim a.n).ring t).slots
      ((((s.gone a.victim a.n).ring t).entered.length + j) % 256) = x.2
    rw [hring]
    have hj : j < a.n - 1 := by
      have := (List.getElem?_eq_some_iff.mp hx).1
      rw [List.length_take] at this
      omega
    rw [List.getElem?_take, if_pos hj] at hx
    refine hcop.copy j x (by omega) ?_
    rw [Nat.add_assoc, ← hget, hin, Nat.add_comm 1 j]
    exact hx

theorem stealPublish_inv (h : Inv s) (hp : s.pc t = .stealPublish a r) :
    Inv ({ s.setRing t { s.ring t with
        word := packHeadTail a.ourHead (add32 a.ourTail (a.n - 1))
        entered := (s.ring t).entered ++ (s.hands t).tail } with
      hands := Function.update s.hands t []
      returned := s.returned ++ ((s.hands t).take 1).map fun e : Nat × T => (e.1, r) }.goto t
        .idle) := by
  have hok := h.pc t
  rw [hp] at hok
  obtain ⟨hth, hn, i, rest, hands, hlen, hslots⟩ := hok
  have hempty := hth.empty
  have hword : packHeadTail a.ourHead (add32 a.ourTail (a.n - 1)) =
      wordOf (s.ring t).left.length ((s.ring t).entered.length + rest.length) := by
    rw [hth.head, hth.tail, add32_mod, hempty, hlen]
    rfl
  have hi := h.publishes hands (by omega) hslots
  rw [hands, hword]
  exact hi

end Steal

-- ============================================================================
-- Every run
-- ============================================================================

theorem start_inv (slots : Nat → Nat → T) : Inv (State.start slots) where
  ring t := ⟨by simp [State.start, wordOf, packHeadTail], Nat.le_refl _, Nat.zero_le _,
    fun k e _ he => by simp [State.start] at he, List.prefix_rfl⟩
  pc t := trivial
  hands t _ := rfl
  custody := by
    have h : Custody (State.start slots).at fun _ => False :=
      Custody.empty fun p => by cases p <;> rfl
    simpa [State.start] using h
  entered t e he := by cases he
  held t e he := by cases he
  returned e he := by cases he
  assertOk := rfl

theorem stepThread_inv (h : Inv s) (hs : stepThread s t = some s')
    (hbrief : ∀ a r, s.pc t = .stealCas a r →
      (s.ring a.victim).entered.length < a.seenEntered + 2 ^ 32) : Inv s' := by
  have hok := h.pc t
  cases hp : s.pc t <;> simp only [stepThread, hp] at hs <;> rw [hp] at hok
  case idle => cases hs
  case popLoad =>
      cases hs
      exact h.popLoop (by rw [hp]; rfl)
  case popRead w =>
      cases hs
      obtain ⟨k, hseen⟩ := hok
      refine h.goto ⟨k, hseen, fun hk e he => ?_⟩ (by rw [hp]; rfl)
      rw [hseen.word, headOf_wordOf, State.slot, and_taskIndexMask]
      exact (h.ring t).slots k e (by omega) he
  case popCas w r =>
      split at hs <;> cases hs
      · exact popCas_inv h hp ‹_›
      · exact h.popLoop (by rw [hp]; rfl)
  case pushLoad r =>
      have hr := h.ring t
      rw [hr.word, headOf_wordOf, tailOf_wordOf, sub32_mod hr.le hr.full, maxLocalTasks] at hs
      split at hs <;> cases hs
      · exact h.goto trivial (by rw [hp]; rfl)
      · exact h.goto ⟨rfl, by omega⟩ (by rw [hp]; rfl)
  case pushStore r tail =>
      cases hs
      exact pushStore_inv h hp
  case pushAdd r tail =>
      cases hs
      exact pushAdd_inv h hp
  case stealLoad victim =>
      cases hs
      obtain ⟨hv, hempty⟩ := hok
      rw [(h.ring t).word, headOf_wordOf, tailOf_wordOf, hempty]
      -- the assertion holds
      have hgoto := h.goto (t := t) (q := .stealFrom victim ((s.ring t).entered.length % 2 ^ 32)
        ((s.ring t).entered.length % 2 ^ 32)) ⟨hv, hempty, rfl, rfl⟩ (by rw [hp]; rfl)
      simpa using hgoto
  case stealFrom victim head tail =>
      cases hs
      exact h.stealLoop hok (by rw [hp]; rfl)
  case stealFirst a =>
      cases hs
      exact stealFirst_inv h hp
  case stealRead a r i =>
      cases hs
      exact stealRead_inv h hp
  case stealWrite a r i x =>
      cases hs
      exact stealWrite_inv h hp
  case stealCas a r =>
      split at hs
      · rename_i hw
        obtain ⟨h1, h2⟩ := stealCas_inv h hp hw (hbrief a r hp)
        split at hs <;> cases hs
        · exact h1 ‹_›
        · exact h2 (by omega)
      · cases hs
        exact h.stealLoop hok.1.thief (by rw [hp]; rfl)
  case stealPublish a r =>
      cases hs
      exact stealPublish_inv h hp

variable [DecidableEq T]

theorem step_inv {a : Act T} (h : Inv s) (hbrief : Brief s a)
    (hs : (rings T).step s a = some s') : Inv s' := by
  cases a with
  | pop t =>
      simp only [rings] at hs
      split at hs <;> cases hs
      rename_i hc
      exact h.goto trivial (by rw [hc]; rfl)
  | push t r =>
      simp only [rings] at hs
      split at hs <;> cases hs
      rename_i hc
      exact h.goto trivial (by rw [hc]; rfl)
  | steal t victim =>
      simp only [rings] at hs
      split at hs <;> cases hs
      rename_i hc
      obtain ⟨hidle, hv, hempty⟩ := hc
      have hr := h.ring t
      have hle := hr.le
      have hfull := hr.full
      rw [hr.word, headOf_wordOf, tailOf_wordOf] at hempty
      exact h.goto ⟨hv, by omega⟩ (by rw [hidle]; rfl)
  | step t => exact stepThread_inv h hs fun a r hp => hbrief t a r rfl hp

theorem reachable_inv (h : (rings T).ReachableIf Brief s) : Inv s := by
  refine h.invariant ?_ fun _ _ _ hi hbrief hs => step_inv hi hbrief hs
  rintro s ⟨slots, rfl⟩
  exact start_inv slots

/-- `fetch_add` leaves the head alone. -/
theorem Inv.pushAdd_head {r : T} {tail : Nat} (h : Inv s) (hp : s.pc t = .pushAdd r tail)
    (hs : (rings T).step s (.step t) = some s') (u : Nat) :
    headOf (s'.ring u).word = headOf (s.ring u).word := by
  have hok := h.pc t
  rw [hp] at hok
  obtain ⟨rfl, -, -⟩ := hok
  simp only [rings, stepThread, hp, Option.some.injEq] at hs
  subst hs
  by_cases hu : u = t
  · rw [hu]
    show headOf (Function.update s.ring t _ t).word = _
    rw [Function.update_self, (h.ring t).word, add64_increment, headOf_wordOf, headOf_wordOf]
  · show headOf (Function.update s.ring t _ u).word = _
    rw [Function.update_of_ne hu]

omit [DecidableEq T] in
/-- The slots between head and tail hold the tasks in the ring. -/
theorem RingOk.slots_inside {R : Ring T} {k : Nat} {e : Nat × T} (h : RingOk R)
    (he : R.inside[k]? = some e) :
    R.slots (add32 (headOf R.word) k &&& taskIndexMask) = e.2 := by
  rw [inside_getElem?] at he
  rw [h.word, headOf_wordOf, add32_mod, and_taskIndexMask]
  exact h.slots _ e (Nat.le_add_right _ _) he

/-- In every run whose steal attempts are brief: between head and tail there
    are at most 256 tasks, in the slots; every accepted task is in one ring,
    in the hands of one thief or returned, and once; what is returned, held or
    in a ring under a number is the task that was accepted; a push leaves the
    head alone; tasks leave a ring in the order they entered it; and the
    assertion of `steal_from_local` holds. -/
theorem rings_custody :
    (∀ s : State T, (rings T).ReachableIf Brief s → ∀ t,
      sub32 (tailOf (s.ring t).word) (headOf (s.ring t).word) = (s.ring t).inside.length ∧
      (s.ring t).inside.length ≤ 256 ∧
      ∀ k e, (s.ring t).inside[k]? = some e →
        s.slot t (add32 (headOf (s.ring t).word) k) = e.2) ∧
    (∀ s : State T, (rings T).ReachableIf Brief s →
      (∀ i, i < s.accepted.length → ∃! p, i ∈ s.at p) ∧ (∀ p, (s.at p).Nodup) ∧
      (∀ t, s.Genuine (s.ring t).inside) ∧ (∀ t, s.Genuine (s.hands t)) ∧
      s.Genuine s.returned ∧ ∀ t, s.hands t ≠ [] → ∃ a r, s.pc t = .stealPublish a r) ∧
    (∀ s s' : State T, (rings T).ReachableIf Brief s → ∀ t r tail, s.pc t = .pushAdd r tail →
      (rings T).step s (.step t) = some s' →
      ∀ u, headOf (s'.ring u).word = headOf (s.ring u).word) ∧
    (∀ s : State T, (rings T).ReachableIf Brief s →
      s.assertFailed = false ∧ ∀ t, (s.ring t).left <+: (s.ring t).entered) := by
  refine ⟨?_, ?_, ?_, ?_⟩
  · intro s hr t
    have h := (reachable_inv hr).ring t
    have hlen := inside_length (s.ring t)
    have hfull := h.full
    refine ⟨?_, by omega, fun k e he => h.slots_inside he⟩
    rw [h.word, headOf_wordOf, tailOf_wordOf, sub32_mod h.le hfull, hlen]
  · intro s hr
    have h := reachable_inv hr
    refine ⟨fun i hi => h.custody.unique hi, h.custody.nodup,
      fun t e he => h.entered t e (List.mem_of_mem_drop he), h.held, h.returned, fun t ht => ?_⟩
    cases hp : s.pc t with
    | stealPublish a r => exact ⟨a, r, rfl⟩
    | _ => exact absurd (h.hands t (by rw [hp]; rfl)) ht
  · intro s s' hr t r tail hp hs u
    exact (reachable_inv hr).pushAdd_head hp hs u
  · intro s hr
    have h := reachable_inv hr
    exact ⟨h.assertOk, fun t => (h.ring t).order⟩

/-- Thread 0 pushes five tasks, thread 1 steals three of them, publishes two and
    returns one, and both pop a task. -/
def stealThree : List (Act Nat) :=
  let push (r : Nat) : List (Act Nat) := [.push 0 r, .step 0, .step 0, .step 0]
  let pop (t : Nat) : List (Act Nat) := [.pop t, .step t, .step t, .step t]
  push 10 ++ push 11 ++ push 12 ++ push 13 ++ push 14 ++
    .steal 1 0 :: List.replicate 9 (.step 1) ++ pop 1 ++ pop 0

/-- After `stealThree` one task is left in each ring, every task is in one place,
    and the assertion holds. -/
theorem rings_custody_stealThree :
    ∃ s : State Nat, (rings Nat).ReachableIf Brief s ∧
      s.returned = [(0, 10), (1, 11), (3, 13)] ∧
      (s.ring 0).inside = [(4, 14)] ∧ (s.ring 1).inside = [(2, 12)] ∧
      (∀ t, sub32 (tailOf (s.ring t).word) (headOf (s.ring t).word) = (s.ring t).inside.length) ∧
      (∀ i, i < s.accepted.length → ∃! p, i ∈ s.at p) ∧ s.assertFailed = false := by
  let ends (s : State Nat) : Bool := s.returned = [(0, 10), (1, 11), (3, 13)] &&
    (s.ring 0).inside = [(4, 14)] && (s.ring 1).inside = [(2, 12)]
  obtain ⟨s, hr, hp⟩ : ∃ s, (rings Nat).ReachableIf Brief s ∧ ends s = true :=
    System.exists_reachableIf_of_runIf stealThree ends ⟨fun _ _ => 0, rfl⟩ (by decide)
  simp only [ends, Bool.and_eq_true, decide_eq_true_eq] at hp
  obtain ⟨hring, hplace, -, hassert⟩ := rings_custody (T := Nat)
  exact ⟨s, hr, hp.1.1, hp.1.2, hp.2, fun t => (hring s hr t).1, (hplace s hr).1, (hassert s hr).1⟩

end Coroactors.WorkStealing.Local
