/-
  Coroactors.Queue.Stranded

  No consumer of `blocking_queue` is left asleep while an item is available.

  A `push` wakes one waiter only.  The others are behind it, or pending at
  consumers that are asleep themselves.  What is pending at a consumer was
  asleep before the consumer's last step, so from any waiter a walk to the
  consumer at which it is pending ends, and it ends at a thread that is awake
  or was notified: at the head no one waits once an item is there.
-/

import Coroactors.Queue.WaiterLists
import Mathlib.Logic.Relation

namespace Coroactors.Queue

open Coroactors.Conc

variable {N T : Type*} {s s' : State N T} {t u w : Nat}

-- ============================================================================
-- Who wakes whom
-- ============================================================================

/-- The thread is in `wait()`, and no notification is pending for it. -/
def State.Asleep (s : State N T) (t : Nat) : Prop :=
  (s.pc t).blocks = true ∧ s.sem t = 0

/-- The thread is in a call, and is running or was notified. -/
def State.Awake (s : State N T) (t : Nat) : Prop :=
  (s.pc t).isIdle = false ∧ ¬ s.Asleep t

/-- There is an item behind the head. -/
def State.ItemReady (s : State N T) : Prop :=
  ∃ h n, s.chain.head? = some h ∧ s.next h = .node n

/-- The thread `u` has the waiter `w` in a list. -/
inductive State.Leads (s : State N T) (u w : Nat) : Prop
  /-- `push` took the list and is about to notify its first waiter. -/
  | hand : w ∈ s.hand u → s.Leads u w
  /-- The list is behind the record of a thread that was notified. -/
  | behind : s.sem u ≠ 0 → w ∈ s.behind u → s.Leads u w
  /-- The list is the thread's pending list. -/
  | pending : w ∈ s.pendingList u → s.Leads u w
  /-- The thread has the head locked, and the list is at `head_`. -/
  | head : s.holder = some u → w ∈ s.headList → s.Leads u w

/-- Every call but some calls of `pop` returned, these are asleep, and the
    queue is locked or has an item. -/
def State.Stranded (s : State N T) : Prop :=
  (∀ t, (s.pc t).isIdle = true ∨ s.Asleep t) ∧ (∃ t, s.Asleep t) ∧
    ∀ h, s.head = .node h → ∃ n, s.next h = .node n

theorem Pc.blocks_waits {p : Pc N T} (h : p.blocks = true) : p.waits = true := by
  cases p <;> first | rfl | cases h

theorem Pc.awake_of_locked {p : Pc N T} {h : N} (hl : p.locked = some h) :
    p.isIdle = false ∧ p.blocks = false := by
  cases p <;> first | exact ⟨rfl, rfl⟩ | cases hl

-- ============================================================================
-- Waiters are older than the consumers that they are pending at
-- ============================================================================

theorem tick_last : (s.tick t).last = Function.update s.last t (s.clock + 1) := rfl

theorem tick_clock : (s.tick t).clock = s.clock + 1 := rfl

/-- What is pending at a thread has made its last step before the thread's. -/
structure OrderInv (s : State N T) : Prop where
  lt : ∀ t w, w ∈ s.pendingList t → s.last w < s.last t
  le : ∀ t, s.last t ≤ s.clock

section Steps

variable [DecidableEq N]

/-- A thread that makes a step is in no list, or is the next one to notify. -/
theorem WaitInv.listed_of_step {c : Choice} {p : Place} (hi : WaitInv s s.pc)
    (hs : stepThread s t c = some s') (hp : t ∈ s.listAt p) : p = .next ∨ ∃ u, p = .hand u := by
  obtain ⟨hw, h0⟩ := (hi.listed t).mp ⟨p, hp⟩
  by_cases hb : (s.pc t).blocks = true
  · exact absurd h0 (Nat.ne_of_gt (stepThread_wait hb hs).1)
  · obtain ⟨h, hpc⟩ : ∃ h, s.pc t = .unlockWaiting h := by
      cases hpc : s.pc t <;> simp_all [Pc.waits, Pc.blocks]
    rcases hi.front t h hpc h0 with hf | ⟨u, hf⟩
    · exact .inl (hi.lists.apart p .next t hp (List.mem_of_mem_head? hf))
    · exact .inr ⟨u, hi.lists.apart p (.hand u) t hp (List.mem_of_mem_head? hf)⟩

theorem stepThread_orderInv {c : Choice} (ho : OrderInv s) (hi : WaitInv s s.pc)
    (hs : stepThread s t c = some s') : OrderInv (s'.tick t) := by
  have he := stepThread_effect hs
  have hclock : s'.clock = s.clock := he.clock
  have hlast : s'.last = s.last := he.last
  have hself : (s'.tick t).last t = s.clock + 1 := by
    rw [tick_last, Function.update_self, hclock]
  have hother (u : Nat) (hu : u ≠ t) : (s'.tick t).last u = s.last u := by
    rw [tick_last, Function.update_of_ne hu, hlast]
  have hnot {p : Place} (hp : t ∈ s.listAt p) := hi.listed_of_step hs hp
  refine ⟨fun u w hw => ?_, fun u => ?_⟩
  · have hw' : w ∈ s'.pendingList u := hw
    rcases eq_or_ne u t with rfl | hu
    · -- what the thread collected in this step made its last step before
      have hwu : w ≠ u := by
        rintro rfl
        rcases he.collected w hw' with h | h | h
        · exact absurd (hnot (p := .pending w) h) (by simp)
        · exact absurd (hnot (p := .head) h) (by simp)
        · exact absurd (hnot (p := .behind w) h) (by simp)
      rw [hself, hother w hwu]
      exact Nat.lt_succ_of_le (ho.le w)
    · have hwt : w ≠ t := by
        rintro rfl
        rw [he.pendingList u hu] at hw'
        exact absurd (hnot (p := .pending u) hw') (by simp)
      rw [hother u hu, hother w hwt]
      rw [he.pendingList u hu] at hw'
      exact ho.lt u w hw'
  · have hc : (s'.tick t).clock = s.clock + 1 := by rw [tick_clock, hclock]
    rw [hc]
    rcases eq_or_ne u t with rfl | hu
    · exact Nat.le_of_eq hself
    · rw [hother u hu]
      exact Nat.le_succ_of_le (ho.le u)

theorem step_orderInv {a : Act N T} (ho : OrderInv s) (hi : WaitInv s s.pc)
    (hs : queue.step s a = some s') : OrderInv s' := by
  cases a with
  | push t n v | pop t | tryPop t =>
      simp only [queue] at hs
      split at hs <;> cases hs
      exact ⟨ho.lt, ho.le⟩
  | step t c =>
      obtain ⟨s₁, h1, rfl⟩ := Option.map_eq_some_iff.mp hs
      exact stepThread_orderInv ho hi h1

theorem reachable_orderInv (hr : queue.Reachable s) : OrderInv s := by
  refine hr.invariant_of (fun _ => reachable_queueInv) ?_
    fun s a s' hi ho _ hs => step_orderInv ho hi.waits hs
  rintro _ ⟨stub, item, rfl⟩
  exact ⟨fun t w hw => (nomatch hw), fun t => Nat.le_refl 0⟩

end Steps

-- ============================================================================
-- No consumer is stranded
-- ============================================================================

/-- While an item is available, a waiter is in a list of a thread that is awake,
    or is pending at a consumer that is asleep. -/
theorem QueueInv.leads (hi : QueueInv s) (hready : s.ItemReady) (hw : s.Asleep w) :
    ∃ u, s.Leads u w ∧ (s.Awake u ∨ s.Asleep u ∧ w ∈ s.pendingList u) := by
  obtain ⟨p, hp⟩ := (hi.waits.listed w).mpr ⟨Pc.blocks_waits hw.1, hw.2⟩
  cases p with
  | nowhere => cases hp
  | head =>
      have hnode : s.head.isNode = false := by
        have hhead := hi.waits.head
        cases hv : s.head with
        | node n =>
            rw [hv, Link.decodeWaiter] at hhead
            rw [State.listAt, List.head?_eq_none_iff.mp hhead.symm] at hp
            cases hp
        | null | waiter w => rfl
      obtain ⟨u, hu⟩ := Option.ne_none_iff_exists'.mp (hi.core.headLocked hnode)
      obtain ⟨h, hl⟩ := Option.isSome_iff_exists.mp (hi.core.holder u hu)
      obtain ⟨hidle, hblocks⟩ := Pc.awake_of_locked hl
      refine ⟨u, .head hu hp, .inl ⟨hidle, fun ha => ?_⟩⟩
      rw [ha.1] at hblocks
      cases hblocks
  | next =>
      obtain ⟨h, n, hh, hn⟩ := hready
      have hnext := hi.waits.next h hh
      rw [hn, Link.decodeWaiter] at hnext
      rw [State.listAt, List.head?_eq_none_iff.mp hnext.symm] at hp
      cases hp
  | hand u =>
      have hhand := (hi.waits.thread u).hand
      refine ⟨u, .hand hp, .inl ?_⟩
      have hne : (s.pc u).notifies ≠ none := by
        intro he
        rw [he] at hhand
        rw [State.listAt, List.head?_eq_none_iff.mp hhand.symm] at hp
        cases hp
      cases hpc : s.pc u <;> simp_all [Pc.notifies, State.Awake, State.Asleep, Pc.isIdle, Pc.blocks]
  | pending u =>
      refine ⟨u, .pending hp, ?_⟩
      by_cases hu : s.Asleep u
      · exact .inr ⟨hu, hp⟩
      · refine .inl ⟨?_, hu⟩
        cases hpc : s.pc u <;> first | rfl | skip
        have hnil := (hi.waits.thread u).clean (by rw [hpc]; rfl)
        rw [State.listAt, hnil] at hp
        cases hp
  | behind u =>
      have hsem : s.sem u ≠ 0 := by
        intro h0
        rw [State.listAt, (hi.waits.thread u).unnotified h0] at hp
        cases hp
      refine ⟨u, .behind hsem hp, .inl ⟨?_, fun ha => hsem ha.2⟩⟩
      have hwaits := ((hi.waits.thread u).notified hsem).2.1
      cases hpc : s.pc u <;> first | rfl | (rw [hpc] at hwaits; cases hwaits)

/-- While an item is available, a walk from a waiter to the consumers that it
    is pending at ends at a thread that is awake. -/
theorem QueueInv.reaches (hi : QueueInv s) (ho : OrderInv s) (hready : s.ItemReady)
    (hw : s.Asleep w) : ∃ u, s.Awake u ∧ Relation.TransGen s.Leads u w := by
  induction hk : s.clock - s.last w using Nat.strongRecOn generalizing w with
  | ind k ih =>
      obtain ⟨u, hlead, hawake | ⟨hasleep, hmem⟩⟩ := hi.leads hready hw
      · exact ⟨u, hawake, .single hlead⟩
      · have hlt := ho.lt u w hmem
        have hle := ho.le u
        obtain ⟨v, hv, htrans⟩ := ih (s.clock - s.last u) (by omega) hasleep rfl
        exact ⟨v, hv, htrans.tail hlead⟩

/-- No reachable state strands a consumer, and while an item is available every
    sleeping consumer is reached, through lists of waiters, from a thread that
    is awake or was notified. -/
theorem never_strands [DecidableEq N] {s : State N T} (hr : queue.Reachable s) :
    ¬ s.Stranded ∧
      (s.ItemReady → ∀ w, s.Asleep w → ∃ u, s.Awake u ∧ Relation.TransGen s.Leads u w) := by
  have hi := reachable_queueInv hr
  have ho := reachable_orderInv hr
  refine ⟨?_, fun hready w hw => hi.reaches ho hready hw⟩
  rintro ⟨hall, ⟨w, hw⟩, hhead⟩
  have hnone (u : Nat) : ¬ s.Awake u := by
    rintro ⟨hidle, hawake⟩
    rcases hall u with h | h
    · rw [h] at hidle
      cases hidle
    · exact hawake h
  cases hv : s.head with
  | node h =>
      obtain ⟨n, hn⟩ := hhead h hv
      obtain ⟨u, hu, -⟩ := hi.reaches ho ⟨h, n, (hi.core.headNode h hv).2, hn⟩ hw
      exact hnone u hu
  | null | waiter v =>
      obtain ⟨u, hu⟩ := Option.ne_none_iff_exists'.mp (hi.core.headLocked (by rw [hv]; rfl))
      obtain ⟨h, hl⟩ := Option.isSome_iff_exists.mp (hi.core.holder u hu)
      obtain ⟨hidle, hblocks⟩ := Pc.awake_of_locked hl
      refine hnone u ⟨hidle, fun ha => ?_⟩
      rw [ha.1] at hblocks
      cases hblocks

/-- `never_strands` in such a state. -/
theorem never_strands_waking : ∃ s : State Nat Nat, s.ItemReady ∧ s.Asleep 0 ∧ ¬ s.Stranded ∧
    ∃ u, s.Awake u ∧ Relation.TransGen s.Leads u 0 := by
  obtain ⟨s, hr, hs⟩ := exists_waking
  obtain ⟨hhead, hnext, hpc, hsem, -⟩ := of_decide_eq_true hs
  have hready : s.ItemReady := ⟨0, 1, hhead, hnext⟩
  have hasleep : s.Asleep 0 := ⟨by rw [hpc]; rfl, hsem⟩
  obtain ⟨hnot, hreach⟩ := never_strands hr
  exact ⟨s, hready, hasleep, hnot, hreach hready 0 hasleep⟩

end Coroactors.Queue
