/-
  Coroactors.WorkStealing.LocalInv

  What holds of the local queues of `WorkStealingScheduler`
  (src/benchmarks/benchmark_actor_latency.cpp) in every reachable state.

  The word of a ring is that of two counters which never wrap: how many tasks
  left it, and how many entered it (`RingOk.word`).  A thief knows the counters
  at its load.  Both only grow, so as long as they are what they were, nothing
  happened to the slots it reads (`Copied`); once they are not, the
  compare-exchange fails.
-/

import Coroactors.Conc.Custody
import Coroactors.WorkStealing.Local

namespace Coroactors.WorkStealing.Local

open Coroactors.Conc

-- ============================================================================
-- Head and tail
-- ============================================================================

/-- The word after `l` tasks left and `e` tasks entered. -/
def wordOf (l e : Nat) : Nat := packHeadTail (l % 2 ^ 32) (e % 2 ^ 32)

theorem packHeadTail_eq {head tail : Nat} (h : tail < 2 ^ 32) :
    packHeadTail head tail = head * 2 ^ 32 + tail := by
  rw [packHeadTail, ← Nat.shiftLeft_add_eq_or_of_lt h, Nat.shiftLeft_eq]

theorem wordOf_eq (l e : Nat) : wordOf l e = l % 2 ^ 32 * 2 ^ 32 + e % 2 ^ 32 :=
  packHeadTail_eq (Nat.mod_lt _ (by decide))

theorem headOf_eq (v : Nat) : headOf v = v / 2 ^ 32 := Nat.shiftRight_eq_div_pow v 32

theorem tailOf_eq (v : Nat) : tailOf v = v % 2 ^ 32 := rfl

@[simp] theorem headOf_wordOf (l e : Nat) : headOf (wordOf l e) = l % 2 ^ 32 := by
  rw [headOf_eq, wordOf_eq]
  omega

@[simp] theorem tailOf_wordOf (l e : Nat) : tailOf (wordOf l e) = e % 2 ^ 32 := by
  rw [tailOf_eq, wordOf_eq]
  omega

theorem wordOf_inj {l e l' e' : Nat} (h : wordOf l e = wordOf l' e') :
    l % 2 ^ 32 = l' % 2 ^ 32 ∧ e % 2 ^ 32 = e' % 2 ^ 32 := by
  rw [wordOf_eq, wordOf_eq] at h
  omega

theorem sub32_mod {l e : Nat} (hle : l ≤ e) (hfull : e ≤ l + 256) :
    sub32 (e % 2 ^ 32) (l % 2 ^ 32) = e - l := by
  unfold sub32
  omega

theorem add32_mod (l n : Nat) : add32 (l % 2 ^ 32) n = (l + n) % 2 ^ 32 := by
  unfold add32
  omega

/-- The head moves by `n`. -/
theorem packHeadTail_add (l e n : Nat) :
    packHeadTail (add32 (l % 2 ^ 32) n) (e % 2 ^ 32) = wordOf (l + n) e := by
  rw [add32_mod, wordOf]

/-- `push_to_local`: the sum with the wrapped difference moves the tail. -/
theorem add64_increment (l e : Nat) :
    add64 (wordOf l e)
      (sub64 (packHeadTail 0 (add32 (e % 2 ^ 32) 1)) (packHeadTail 0 (e % 2 ^ 32))) =
      wordOf l (e + 1) := by
  rw [add32_mod, packHeadTail_eq (Nat.mod_lt _ (by decide)),
    packHeadTail_eq (Nat.mod_lt _ (by decide)), wordOf_eq, wordOf_eq]
  unfold add64 sub64
  omega

theorem and_taskIndexMask (i : Nat) : i % 2 ^ 32 &&& taskIndexMask = i % 256 := by
  have h : i % 2 ^ 32 &&& taskIndexMask = i % 2 ^ 32 % 2 ^ 8 :=
    Nat.and_two_pow_sub_one_eq_mod (i % 2 ^ 32) 8
  omega

-- ============================================================================
-- Rings
-- ============================================================================

section Ring

variable {T : Type*} {R : Ring T}

/-- Word, slots and counters of a ring agree. -/
structure RingOk (R : Ring T) : Prop where
  word : R.word = wordOf R.left.length R.entered.length
  le : R.left.length ≤ R.entered.length
  full : R.entered.length ≤ R.left.length + 256
  slots : ∀ k e, R.left.length ≤ k → R.entered[k]? = some e → R.slots (k % 256) = e.2
  order : R.left <+: R.entered

theorem inside_length (R : Ring T) : R.inside.length = R.entered.length - R.left.length := by
  simp [Ring.inside]

theorem inside_getElem? (R : Ring T) (j : Nat) : R.inside[j]? = R.entered[R.left.length + j]? := by
  simp [Ring.inside]

/-- The first `n` tasks leave. -/
theorem RingOk.leave {n : Nat} (h : RingOk R) (hn : n ≤ R.inside.length) :
    RingOk { R with
      word := wordOf (R.left.length + n) R.entered.length
      left := R.left ++ R.inside.take n } := by
  have hlen : (R.left ++ R.inside.take n).length = R.left.length + n := by
    rw [List.length_append, List.length_take]
    omega
  rw [inside_length] at hn
  refine ⟨?_, ?_, ?_, fun k e hk he => ?_, ?_⟩
  · show wordOf _ _ = wordOf (R.left ++ R.inside.take n).length _
    rw [hlen]
  · show (R.left ++ R.inside.take n).length ≤ R.entered.length
    rw [hlen]
    have := h.le
    omega
  · show R.entered.length ≤ (R.left ++ R.inside.take n).length + 256
    rw [hlen]
    have := h.full
    omega
  · have hk' : (R.left ++ R.inside.take n).length ≤ k := hk
    exact h.slots k e (by omega) he
  · obtain ⟨rest, hrest⟩ := h.order
    have hin : R.inside = rest := by
      rw [Ring.inside, ← hrest, List.drop_left]
    refine ⟨rest.drop n, ?_⟩
    show R.left ++ R.inside.take n ++ rest.drop n = R.entered
    rw [hin, List.append_assoc, List.take_append_drop, hrest]

/-- Tasks enter at the tail, their slots already written. -/
theorem RingOk.enter {l : List (Nat × T)} (h : RingOk R)
    (hfull : R.entered.length + l.length ≤ R.left.length + 256)
    (hslots : ∀ j e, l[j]? = some e → R.slots ((R.entered.length + j) % 256) = e.2) :
    RingOk { R with
      word := wordOf R.left.length (R.entered.length + l.length)
      entered := R.entered ++ l } := by
  refine ⟨by simp, ?_, ?_, fun k e hk he => ?_, h.order.trans (List.prefix_append _ _)⟩
  · have := h.le
    simp only [List.length_append]
    omega
  · simpa using hfull
  · simp only at hk he ⊢
    by_cases hlt : k < R.entered.length
    · rw [List.getElem?_append_left hlt] at he
      exact h.slots k e hk he
    · rw [List.getElem?_append_right (by omega)] at he
      have hs := hslots _ e he
      rwa [show R.entered.length + (k - R.entered.length) = k by omega] at hs

/-- A slot outside the ring is written. -/
theorem RingOk.write {k : Nat} {x : T} (h : RingOk R) (hk : R.entered.length ≤ k)
    (hlt : k < R.left.length + 256) :
    RingOk { R with slots := Function.update R.slots (k % 256) x } := by
  refine ⟨h.word, h.le, h.full, fun i e hi he => ?_, h.order⟩
  have hie : i < R.entered.length := (List.getElem?_eq_some_iff.mp he).1
  have hi' : R.left.length ≤ i := hi
  have hne : i % 256 ≠ k % 256 := by omega
  show Function.update R.slots (k % 256) x (i % 256) = e.2
  rw [Function.update_of_ne hne]
  exact h.slots i e hi he

/-- Values that agree with the tasks in the ring. -/
theorem zip_eq_take {l : List (Nat × T)} {values : List T}
    (h : ∀ (j : Nat) (e : Nat × T) (x : T), l[j]? = some e → values[j]? = some x → x = e.2) :
    (l.map Prod.fst).zip values = l.take values.length := by
  induction l generalizing values with
  | nil => simp
  | cons e l ih =>
      cases values with
      | nil => simp
      | cons x values =>
          have hx : x = e.2 := h 0 e x rfl rfl
          have ht : (l.map Prod.fst).zip values = l.take values.length :=
            ih fun j e' x' he hx' => h (j + 1) e' x' he hx'
          simp [ht, hx]

end Ring

-- ============================================================================
-- The invariant
-- ============================================================================

section Inv

variable {T : Type*} {s s' : State T} {t u : Nat}

/-- The thread loaded the word of its ring when `h` tasks had left it. -/
structure Seen (R : Ring T) (h v : Nat) : Prop where
  word : v = wordOf h R.entered.length
  left : h ≤ R.left.length
  some : h < R.entered.length
  full : R.entered.length ≤ h + 256

/-- The thief's own ring is empty. -/
structure Thief (s : State T) (t victim ourHead ourTail : Nat) : Prop where
  other : victim ≠ t
  empty : (s.ring t).left.length = (s.ring t).entered.length
  head : ourHead = (s.ring t).entered.length % 2 ^ 32
  tail : ourTail = (s.ring t).entered.length % 2 ^ 32

/-- What the thief saw in its victim. -/
structure AttemptOk (s : State T) (t : Nat) (a : Attempt) : Prop where
  thief : Thief s t a.victim a.ourHead a.ourTail
  their : a.their = wordOf a.seenLeft a.seenEntered
  left : a.seenLeft ≤ (s.ring a.victim).left.length
  entered : a.seenEntered ≤ (s.ring a.victim).entered.length
  some : a.seenLeft < a.seenEntered
  full : a.seenEntered ≤ a.seenLeft + 256
  n : a.n = (a.seenEntered - a.seenLeft) - (a.seenEntered - a.seenLeft) / 2

/-- The victim is as the thief saw it. -/
def Current (s : State T) (a : Attempt) : Prop :=
  (s.ring a.victim).left.length = a.seenLeft ∧ (s.ring a.victim).entered.length = a.seenEntered

/-- The thief has read the first task, and copied the next ones up to `i`. -/
structure Copied (s : State T) (t : Nat) (a : Attempt) (r : T) (i : Nat) : Prop where
  first : ∀ e, (s.ring a.victim).entered[a.seenLeft]? = some e → r = e.2
  copy : ∀ j e, j + 1 < i → (s.ring a.victim).entered[a.seenLeft + 1 + j]? = some e →
    (s.ring t).slots (((s.ring t).entered.length + j) % 256) = e.2

/-- What the position of thread `t` says about the rings. -/
def PcOk (s : State T) (t : Nat) : Pc T → Prop
  | .idle | .popLoad | .pushLoad _ => True
  | .popRead v => ∃ h, Seen (s.ring t) h v
  | .popCas v r => ∃ h, Seen (s.ring t) h v ∧
      ((s.ring t).left.length = h → ∀ e, (s.ring t).entered[h]? = some e → r = e.2)
  | .pushStore _ tail => tail = (s.ring t).entered.length % 2 ^ 32 ∧
      (s.ring t).entered.length < (s.ring t).left.length + 256
  | .pushAdd r tail => tail = (s.ring t).entered.length % 2 ^ 32 ∧
      (s.ring t).entered.length < (s.ring t).left.length + 256 ∧
      (s.ring t).slots ((s.ring t).entered.length % 256) = r
  | .stealLoad victim =>
      victim ≠ t ∧ (s.ring t).left.length = (s.ring t).entered.length
  | .stealFrom victim ourHead ourTail => Thief s t victim ourHead ourTail
  | .stealFirst a => AttemptOk s t a
  | .stealRead a r i => AttemptOk s t a ∧ (1 ≤ i ∧ i < a.n) ∧ (Current s a → Copied s t a r i)
  | .stealWrite a r i x => AttemptOk s t a ∧ (1 ≤ i ∧ i < a.n) ∧
      (Current s a → Copied s t a r i ∧
        ∀ e, (s.ring a.victim).entered[a.seenLeft + i]? = some e → x = e.2)
  | .stealCas a r => AttemptOk s t a ∧ (Current s a → Copied s t a r a.n)
  | .stealPublish a r => Thief s t a.victim a.ourHead a.ourTail ∧ (1 < a.n ∧ a.n ≤ 128) ∧
      ∃ i rest, s.hands t = (i, r) :: rest ∧ rest.length = a.n - 1 ∧
        ∀ j e, rest[j]? = some e → (s.ring t).slots (((s.ring t).entered.length + j) % 256) = e.2

/-- Where a task can be. -/
inductive Place where
  | ring (t : Nat)
  | hands (t : Nat)
  | returned
deriving DecidableEq, Repr

/-- The numbers of the tasks in a place. -/
def State.at (s : State T) : Place → List Nat
  | .ring t => (s.ring t).inside.map Prod.fst
  | .hands t => (s.hands t).map Prod.fst
  | .returned => s.returned.map Prod.fst

/-- The thread has tasks in its hands. -/
def Pc.publishes : Pc T → Bool
  | .stealPublish _ _ => true
  | _ => false

/-- The task is the one that was accepted under this number. -/
def State.Genuine (s : State T) (l : List (Nat × T)) : Prop :=
  ∀ e ∈ l, s.accepted[e.1]? = some e.2

structure Inv (s : State T) : Prop where
  ring : ∀ t, RingOk (s.ring t)
  pc : ∀ t, PcOk s t (s.pc t)
  hands : ∀ t, (s.pc t).publishes = false → s.hands t = []
  custody : Custody s.at fun i => i < s.accepted.length
  entered : ∀ t, s.Genuine (s.ring t).entered
  held : ∀ t, s.Genuine (s.hands t)
  returned : s.Genuine s.returned
  assertOk : s.assertFailed = false

-- ============================================================================
-- Frame
-- ============================================================================

/-- Tasks entered and left. -/
def Grows (s s' : State T) : Prop :=
  ∀ v, (s.ring v).left.length ≤ (s'.ring v).left.length ∧
    (s.ring v).entered <+: (s'.ring v).entered

theorem Grows.getElem? {v k : Nat} {e : Nat × T} (h : Grows s s')
    (hk : k < (s.ring v).entered.length) (he : (s'.ring v).entered[k]? = some e) :
    (s.ring v).entered[k]? = some e := by
  obtain ⟨rest, hrest⟩ := (h v).2
  rwa [← hrest, List.getElem?_append_left hk] at he

/-- Nobody but the owner enters tasks or writes slots. -/
structure Apart (s s' : State T) (u : Nat) : Prop where
  slots : (s'.ring u).slots = (s.ring u).slots
  entered : (s'.ring u).entered = (s.ring u).entered
  hands : s'.hands u = s.hands u

theorem Thief.frame {victim head tail : Nat} (h : Thief s u victim head tail) (hg : Grows s s')
    (ha : Apart s s' u) (hr : RingOk (s'.ring u)) : Thief s' u victim head tail := by
  have hle := hr.le
  have hge := (hg u).1
  have hempty := h.empty
  rw [ha.entered] at hle
  refine ⟨h.other, ?_, ?_, ?_⟩
  · rw [ha.entered]
    omega
  · rw [ha.entered, h.head]
  · rw [ha.entered, h.tail]

theorem AttemptOk.frame {a : Attempt} (h : AttemptOk s u a) (hg : Grows s s')
    (ha : Apart s s' u) (hr : RingOk (s'.ring u)) : AttemptOk s' u a :=
  ⟨h.thief.frame hg ha hr, h.their, Nat.le_trans h.left (hg _).1,
    Nat.le_trans h.entered (hg _).2.length_le, h.some, h.full, h.n⟩

/-- The victim was and is as the thief saw it. -/
theorem Current.of_grows {a : Attempt} (h : AttemptOk s u a) (hg : Grows s s')
    (hc : Current s' a) : Current s a := by
  have h1 := (hg a.victim).1
  have h2 := (hg a.victim).2.length_le
  have h3 := h.left
  have h4 := h.entered
  obtain ⟨h5, h6⟩ := hc
  constructor <;> omega

theorem Copied.frame {a : Attempt} {r : T} {i : Nat} (h : Copied s u a r i)
    (hc : Current s a) (ha : AttemptOk s u a) (hi : i ≤ a.n) (hg : Grows s s')
    (hs : (s'.ring u).slots = (s.ring u).slots) (he : (s'.ring u).entered = (s.ring u).entered) :
    Copied s' u a r i := by
  have hsome := ha.some
  have hn := ha.n
  obtain ⟨-, hent⟩ := hc
  refine ⟨fun e hx => h.first e (hg.getElem? (by omega) hx), fun j e hj hx => ?_⟩
  rw [hs, he]
  exact h.copy j e hj (hg.getElem? (by omega) hx)

/-- A thread's knowledge survives the steps of the others. -/
theorem PcOk.frame {p : Pc T} (h : PcOk s u p) (hg : Grows s s') (ha : Apart s s' u)
    (hr : RingOk (s'.ring u)) : PcOk s' u p := by
  have hleft := (hg u).1
  cases p with
  | idle | popLoad | pushLoad => trivial
  | popRead v =>
      obtain ⟨k, hs⟩ := h
      exact ⟨k, by rw [ha.entered]; exact hs.word, Nat.le_trans hs.left hleft,
        by rw [ha.entered]; exact hs.some, by rw [ha.entered]; exact hs.full⟩
  | popCas v r =>
      obtain ⟨k, hs, hread⟩ := h
      refine ⟨k, ⟨by rw [ha.entered]; exact hs.word, Nat.le_trans hs.left hleft,
        by rw [ha.entered]; exact hs.some, by rw [ha.entered]; exact hs.full⟩, fun hk => ?_⟩
      rw [ha.entered]
      have hl := hs.left
      exact hread (by omega)
  | pushStore r tail =>
      obtain ⟨htail, hlt⟩ := h
      refine ⟨by rw [ha.entered]; exact htail, ?_⟩
      rw [ha.entered]
      omega
  | pushAdd r tail =>
      obtain ⟨htail, hlt, hslot⟩ := h
      refine ⟨by rw [ha.entered]; exact htail, ?_, by rw [ha.entered, ha.slots]; exact hslot⟩
      rw [ha.entered]
      omega
  | stealLoad victim =>
      obtain ⟨hv, hempty⟩ := h
      have hle := hr.le
      rw [ha.entered] at hle
      refine ⟨hv, ?_⟩
      rw [ha.entered]
      omega
  | stealFrom victim head tail => exact Thief.frame h hg ha hr
  | stealFirst a => exact AttemptOk.frame h hg ha hr
  | stealRead a r i =>
      obtain ⟨hok, hi, hc⟩ := h
      refine ⟨hok.frame hg ha hr, hi, fun hcur => ?_⟩
      have hcur' := hcur.of_grows hok hg
      exact (hc hcur').frame hcur' hok (Nat.le_of_lt hi.2) hg ha.slots ha.entered
  | stealWrite a r i x =>
      obtain ⟨hok, hi, hc⟩ := h
      refine ⟨hok.frame hg ha hr, hi, fun hcur => ?_⟩
      have hcur' := hcur.of_grows hok hg
      obtain ⟨hcop, hx⟩ := hc hcur'
      refine ⟨hcop.frame hcur' hok (Nat.le_of_lt hi.2) hg ha.slots ha.entered, fun e he => hx e ?_⟩
      have hn := hok.n
      have hent := hcur'.2
      exact hg.getElem? (by omega) he
  | stealCas a r =>
      obtain ⟨hok, hc⟩ := h
      refine ⟨hok.frame hg ha hr, fun hcur => ?_⟩
      have hcur' := hcur.of_grows hok hg
      exact (hc hcur').frame hcur' hok (Nat.le_refl _) hg ha.slots ha.entered
  | stealPublish a r =>
      obtain ⟨hth, hn, i, rest, hh, hlen, hslot⟩ := h
      refine ⟨hth.frame hg ha hr, hn, i, rest, by rw [ha.hands]; exact hh, hlen, fun j e he => ?_⟩
      rw [ha.slots, ha.entered]
      exact hslot j e he

end Inv

end Coroactors.WorkStealing.Local
