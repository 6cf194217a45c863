/-
  Coroactors.Queue.WaiterLists

  The waiter lists of `blocking_queue` stay finite and unshared, and waits and
  notifications come in pairs.

  Every list is what the links from its root visit, each record once, until
  they arrive at null, or at the list that the last record is linked to while
  its owner tries to install it.  So `find_last` reaches the last record, after
  at most as many steps as there are records.

  A ledger next to the queue counts, for every record, the waits that began and
  returned and the calls of `notify()`.
-/

import Coroactors.Queue.WaiterRun

namespace Coroactors.Queue

open Coroactors.Conc

variable {N T : Type*} {s s' : State N T} {t u w : Nat}

-- ============================================================================
-- Lists and their roots
-- ============================================================================

/-- The first waiter at a place: what `head_`, the head's `next` pointer, the
    variables of a thread, or the record of a notified waiter point to. -/
def State.root (s : State N T) : Place → Option Nat
  | .nowhere => none
  | .head => s.head.decodeWaiter
  | .next => s.chain.head?.bind fun h => (s.next h).decodeWaiter
  | .hand t => (s.pc t).notifies
  | .pending t => if (s.pc t).holds then s.pending t else none
  | .behind t => if s.sem t = 0 then none else s.wnext t

/-- The links from the root of `p` visit `l`, and arrive at null or at the list
    that the last record is linked to for a compare-exchange. -/
def State.Rooted (s : State N T) (p : Place) (l : List Nat) : Prop :=
  s.root p = l.head? ∧ Walk s.wnext l (tails s.pc p)

theorem QueueInv.rooted (hi : QueueInv s) (p : Place) : s.Rooted p (s.listAt p) := by
  refine ⟨?_, hi.waits.lists.walk p⟩
  cases p with
  | nowhere => rfl
  | head => exact hi.waits.head
  | next =>
      cases hc : s.chain with
      | nil =>
          have hlast := hi.core.last
          rw [hc] at hlast
          cases hlast
      | cons h l =>
          rw [State.root, hc]
          exact hi.waits.next h (by rw [hc]; rfl)
  | hand t => exact (hi.waits.thread t).hand
  | pending t =>
      rw [State.root]
      split
      · next hh => exact (hi.waits.thread t).pending hh
      · next hh =>
        have hclean : (s.pc t).clean = true := by
          cases hp : s.pc t <;> simp_all [Pc.holds, Pc.clean]
        rw [State.listAt, (hi.waits.thread t).clean hclean]
        rfl
  | behind t =>
      rw [State.root]
      split
      · next h0 =>
        rw [State.listAt, (hi.waits.thread t).unnotified h0]
        rfl
      · next h0 => exact ((hi.waits.thread t).notified h0).2.2

/-- `find_last` reaches the last record of a list. -/
theorem QueueInv.findLast (hi : QueueInv s) {p : Place} (hroot : s.root p = some w)
    (htail : tails s.pc p = none) :
    ∃ last, s.findLast w = some last ∧ (s.listAt p).getLast? = some last :=
  hi.waits.lists.lastOf_eq ((hi.rooted p).1.symm.trans hroot) htail (hi.waits.length_le p)

section Steps

variable [DecidableEq N]

/-- The only steps that are not possible are those of threads that wait for a
    notification: each `find_last` returns. -/
theorem QueueInv.blocked {c : Choice} (hi : QueueInv s) (hs : stepThread s t c = none) :
    (s.pc t).isIdle = true ∨ (s.pc t).blocks = true ∧ s.sem t = 0 := by
  have hw := hi.waits
  have hth := hw.thread t
  cases hp : s.pc t <;> rw [hp] at hth <;> simp only [stepThread, hp] at hs
  case idle => exact .inl rfl
  case pushXchg | pushNotify | popLoad | popNext | tryNext | takenLoad | free => cases hs
  case pushPublish | popInstall | popCas | tryLoad | noItemCas | takenCas | fullCas =>
      split at hs <;> cases hs
  case tryCas =>
      split at hs
      · cases hs
      · split at hs <;> cases hs
  case popTop v =>
      split at hs
      · cases hs
      · split at hs
        · cases hs
        · split at hs
          · cases hs
          · next w hh =>
            obtain ⟨s₁, h1, -⟩ := (hw.open (t := t) (by rw [hp]; rfl) (by rw [hp]; rfl)).grab hh
            rw [h1] at hs
            cases hs
          · cases hs
  case noItemXchg | takenXchg | fullXchg =>
      split at hs
      · next w hh =>
        obtain ⟨s₁, h1, -⟩ := (hw.open (t := t) (by rw [hp]; rfl) (by rw [hp]; rfl)).grab hh
        rw [h1] at hs
        cases hs
      · cases hs
  case unlockWaiting h =>
      split at hs
      · next w hh =>
        obtain ⟨s₁, h1, -⟩ := hw.unlockGrab (h := h) hp hh
        rw [State.unlocked] at h1
        rw [h1] at hs
        cases hs
      · cases hs
  case noItemInstall | takenInstall =>
      split at hs
      · next hnone =>
        rw [hth.pending rfl] at hnone
        exact absurd (List.head?_eq_none_iff.mp hnone) (hth.full rfl)
      · split at hs <;> cases hs
  case fullNotify =>
      split at hs
      · next hnone =>
        rw [hth.pending rfl] at hnone
        exact absurd (List.head?_eq_none_iff.mp hnone) (hth.full rfl)
      · cases hs
  case waitHead =>
      refine .inr ⟨rfl, ?_⟩
      split at hs
      · next hpos =>
        split at hs
        · cases hs
        · next w hlink =>
          have hfirst := (hth.notified (Nat.ne_of_gt hpos)).2.2.symm.trans hlink
          obtain ⟨s₁, h1, -⟩ := prepend_lists (s := s.takeSem t) (t := t) (p := .behind t)
            hw.lists (by simp) hfirst rfl (hw.length_le (.behind t)) rfl (by rw [tails, hp]; rfl)
            (hth.pending rfl) (hth.last rfl)
          have h1' : (s.takeSem t).prepend t w (s.behind t) = some s₁ := h1
          rw [State.takeSem] at h1'
          rw [h1'] at hs
          cases hs
      · next hpos => exact Nat.eq_zero_of_not_pos hpos
  case waitItem =>
      refine .inr ⟨rfl, ?_⟩
      split at hs
      · next hpos =>
        split at hs
        · cases hs
        · next w hlink =>
          have hfirst := (hth.notified (Nat.ne_of_gt hpos)).2.2.symm.trans hlink
          obtain ⟨s₁, h1, -⟩ := append_lists (s := s.takeSem t) (t := t) (p := .behind t)
            hw.lists (by simp) hfirst rfl (hw.length_le (.behind t)) rfl (by rw [tails, hp]; rfl)
            (hth.pending rfl) (hth.last rfl)
          have h1' : (s.takeSem t).append t w (s.behind t) = some s₁ := h1
          rw [State.takeSem] at h1'
          rw [h1'] at hs
          cases hs
      · next hpos => exact Nat.eq_zero_of_not_pos hpos

end Steps

-- ============================================================================
-- Waits and notifications
-- ============================================================================

/-- For every record, how many waits began and returned, and how often it was
    notified. -/
structure Counts where
  begun : Nat → Nat
  returned : Nat → Nat
  notified : Nat → Nat

/-- The record that the action notifies. -/
def State.notifies (s : State N T) : Act N T → Option Nat
  | .step t _ => s.notifiedBy t
  | _ => none

/-- The counts after the action `a`, which leads from `s` to `s'`. -/
def Counts.after (c : Counts) (s : State N T) (a : Act N T) (s' : State N T) : Counts where
  begun w := c.begun w + if !(s.pc w).waits && (s'.pc w).waits then 1 else 0
  returned w := c.returned w + if (s.pc w).waits && !(s'.pc w).waits then 1 else 0
  notified w := c.notified w + if s.notifies a = some w then 1 else 0

/-- The queue, with a ledger next to it. -/
def ledger [DecidableEq N] : System (State N T × Counts) (Act N T) where
  init p := queue.init p.1 ∧ p.2 = ⟨fun _ => 0, fun _ => 0, fun _ => 0⟩
  step p a := (queue.step p.1 a).map fun s' => (s', p.2.after p.1 a s')

/-- Each wait that returned was notified once, and the current one at most once. -/
def Counts.Exact (c : Counts) (s : State N T) (w : Nat) : Prop :=
  c.begun w = c.returned w + (if (s.pc w).waits then 1 else 0) ∧
    c.notified w = c.returned w + s.sem w ∧ s.sem w ≤ 1 ∧
    (s.sem w = 1 → (s.pc w).waits = true)

section Ledger

variable [DecidableEq N]

/-- Every run of the queue has a ledger. -/
theorem exists_ledger (hr : queue.Reachable s) : ∃ c, ledger.Reachable (s, c) := by
  induction hr with
  | init hi => exact ⟨_, .init ⟨hi, rfl⟩⟩
  | @step s s' a _ _ hs ih =>
      obtain ⟨c, hc⟩ := ih
      have hl : ledger.step (s, c) a = some (s', c.after s a s') := by
        simp only [ledger, hs, Option.map_some]
      exact ⟨_, hc.next a hl⟩

/-- A run with a ledger is a run of the queue. -/
theorem reachable_of_ledger {p : State N T × Counts} (hr : ledger.Reachable p) :
    queue.Reachable p.1 := by
  induction hr with
  | init hi => exact .init hi.1
  | step a _ _ hs ih =>
      obtain ⟨s', hs', rfl⟩ := Option.map_eq_some_iff.mp hs
      exact ih.next a hs'

/-- A wait ends when `wait()` returns, and at no other step. -/
theorem stepThread_waits {c : Choice} (hs : stepThread s t c = some s')
    (hw : (s.pc t).waits = true) : (s'.pc t).waits = !(s.pc t).blocks := by
  cases hp : s.pc t <;> simp only [hp, Pc.waits, reduceCtorEq] at hw
  case waitHead | waitItem =>
      obtain ⟨-, ⟨-, rfl⟩ | ⟨w, s₁, -, rfl, -⟩⟩ := stepThread_wait (by rw [hp]; rfl) hs <;>
      · rw [goto_pc, Function.update_self]
        rfl
  case unlockWaiting h =>
      simp only [stepThread, hp] at hs
      split at hs
      · obtain ⟨s₁, -, rfl⟩ := Option.map_eq_some_iff.mp hs
        rw [goto_pc, Function.update_self]
        rfl
      · cases hs
        rw [goto_pc, Function.update_self]
        rfl

omit [DecidableEq N] in
/-- A notification is added to the semaphore, and taken from it when a wait ends. -/
theorem Counts.Exact.after {c : Counts} {a : Act N T} (h : c.Exact s w) (hi' : QueueInv s')
    (hsem : s'.sem w + (if (s.pc w).waits && !(s'.pc w).waits then 1 else 0) =
      s.sem w + if s.notifies a = some w then 1 else 0) : (c.after s a s').Exact s' w := by
  obtain ⟨hb, hn, -⟩ := h
  have hth := hi'.waits.thread w
  refine ⟨?_, ?_, ?_, fun h1 => (hth.notified (h1 ▸ Nat.one_ne_zero)).2.1⟩
  · simp only [Counts.after, hb]
    cases (s.pc w).waits <;> cases (s'.pc w).waits <;> rfl
  · simp only [Counts.after]
    omega
  · by_cases h0 : s'.sem w = 0
    · omega
    · exact Nat.le_of_eq (hth.notified h0).1

omit [DecidableEq N] in
/-- A call begins, of a thread that was in none. -/
theorem step_exact_call {c : Counts} {a : Act N T} {p : Pc N T} (h : c.Exact s w)
    (hi' : QueueInv s') (hidle : (s.pc t).isIdle = true) (hpc : s'.pc = Function.update s.pc t p)
    (hsem : s'.sem = s.sem) (ha : s.notifies a = none) : (c.after s a s').Exact s' w := by
  have hkeep : ((s.pc w).waits && !(s'.pc w).waits) = false := by
    rcases eq_or_ne w t with rfl | hwt
    · rw [Pc.eq_idle hidle]
      rfl
    · rw [hpc, Function.update_of_ne hwt, Bool.and_not_self]
  refine h.after hi' ?_
  rw [hkeep, hsem, ha]
  rfl

theorem step_exact {c : Counts} {a : Act N T} (hi : QueueInv s) (h : ∀ w, c.Exact s w)
    (hs : queue.step s a = some s') (w : Nat) : (c.after s a s').Exact s' w := by
  have hi' : QueueInv s' := step_queueInv hi hs
  cases a with
  | push t n v | pop t | tryPop t =>
      simp only [queue] at hs
      split at hs <;> cases hs
      next hcond =>
        first
          | exact step_exact_call (h w) hi' hcond.1 rfl rfl rfl
          | exact step_exact_call (h w) hi' hcond rfl rfl rfl
  | step t k =>
      obtain ⟨s₁, h1, rfl⟩ := Option.map_eq_some_iff.mp hs
      have he := stepThread_effect h1
      have hsem := he.sem w
      refine (h w).after hi' ?_
      rw [show (s₁.tick t).sem = s₁.sem from rfl, show (s₁.tick t).pc = s₁.pc from rfl,
        show s.notifies (.step t k) = s.notifiedBy t from rfl, hsem]
      rcases eq_or_ne w t with rfl | hwt
      · by_cases hb : (s.pc w).blocks = true
        · have hpos := (stepThread_wait hb h1).1
          have hw : (s.pc w).waits = true := by
            cases hp : s.pc w <;> simp_all [Pc.blocks, Pc.waits]
          rw [stepThread_waits h1 hw, hw, hb]
          simp only [Bool.not_true, Bool.not_false, Bool.and_self, if_true, and_self]
          omega
        · have hb' : (s.pc w).blocks = false := Bool.eq_false_iff.mpr hb
          have hkeep : ((s.pc w).waits && !(s₁.pc w).waits) = false := by
            cases hw : (s.pc w).waits with
            | false => rfl
            | true => rw [stepThread_waits h1 hw, hb']; rfl
          rw [hkeep, hb']
          simp
      · rw [he.pc w hwt, Bool.and_not_self]
        simp [hwt]

theorem reachable_exact {p : State N T × Counts} (hr : ledger.Reachable p) :
    ∀ w, p.2.Exact p.1 w := by
  refine hr.invariant_of (J := fun p => QueueInv p.1) (I := fun p => ∀ w, p.2.Exact p.1 w)
    (fun p hp => reachable_queueInv (reachable_of_ledger hp)) ?_ ?_
  · rintro ⟨_, _⟩ ⟨⟨stub, item, rfl⟩, rfl⟩ w
    exact ⟨rfl, rfl, Nat.zero_le 1, by rintro ⟨⟩⟩
  · rintro ⟨s, c⟩ a p' hi h - hs
    obtain ⟨s', hs', rfl⟩ := Option.map_eq_some_iff.mp hs
    exact step_exact hi h hs'

end Ledger

-- ============================================================================
-- Between two operations
-- ============================================================================

/-- `pop` of the thread 0 waits for an item, and `push` of the thread 1
    published one and is about to notify. -/
def wakeTrace : List (Act Nat Nat) :=
  [.pop 0, .step 0 .go, .step 0 .go, .step 0 .go, .step 0 .go, .step 0 .go, .push 1 1 7,
    .step 1 .go, .step 1 .go]

/-- An item is available, a consumer is asleep, and a `push` is about to notify it. -/
def State.waking (s : State Nat Nat) : Bool :=
  s.chain.head? = some 0 ∧ s.next 0 = .node 1 ∧ s.pc 0 = .waitItem ∧ s.sem 0 = 0 ∧
    s.pc 1 = .pushNotify 0

theorem exists_waking : ∃ s : State Nat Nat, queue.Reachable s ∧ s.waking = true :=
  System.exists_reachable_of_run wakeTrace State.waking ⟨0, fun _ => 0, rfl⟩ (by decide)

/-- The thread 2 takes the waiter 1 from `head_`, locks the head, and installs
    itself with that waiter behind it. -/
def installTrace : List (Act Nat Nat) :=
  [.pop 0, .step 0 .go, .step 0 .go, .step 0 .go, .pop 1, .step 1 .go, .step 1 .go, .step 1 .go,
    .pop 2, .step 2 .go, .step 2 .go, .step 0 .go, .step 0 .go, .step 2 .go, .step 2 .go,
    .step 2 .go, .step 2 .go]

/-- The waiter 1 is behind the waiter 2 at the head, and `pending` of the thread
    2 still points to it. -/
def State.installed (s : State Nat Nat) : Bool :=
  s.chain.head? = some 0 ∧ s.next 0 = .waiter 2 ∧ s.wnext 2 = some 1 ∧
    s.pc 2 = .unlockWaiting 0 ∧ s.pending 2 = some 1

theorem exists_installed : ∃ s : State Nat Nat, queue.Reachable s ∧ s.installed = true :=
  System.exists_reachable_of_run installTrace State.installed ⟨0, fun _ => 0, rfl⟩ (by decide)

-- ============================================================================
-- The waiter lists
-- ============================================================================

/-- In every reachable state the lists of waiters are what the links from their
    roots visit, without a record twice and without one in two lists, the last
    pending waiter is the last of its list, a record is in exactly one list
    while its thread waits and was not notified, every walk of `find_last`
    ends, and every wait is notified once. -/
theorem waiters_unshared [DecidableEq N] {s : State N T} (hr : queue.Reachable s) :
    (∀ p, s.Rooted p (s.listAt p) ∧ (s.listAt p).Nodup) ∧
      (∀ p q w, w ∈ s.listAt p → w ∈ s.listAt q → p = q) ∧
      (∀ t, (s.pc t).holds = true → s.pendingList t ≠ [] →
        s.pendingLast t = (s.pendingList t).getLast?) ∧
      (∀ t, (s.pc t).waits = true → s.sem t = 0 → ∃ p, t ∈ s.listAt p ∧
        ∀ q, t ∈ s.listAt q → q = p) ∧
      (∀ p w, s.root p = some w → tails s.pc p = none →
        ∃ last, s.findLast w = some last ∧ (s.listAt p).getLast? = some last) ∧
      (∀ t c, stepThread s t c = none →
        (s.pc t).isIdle = true ∨ (s.pc t).blocks = true ∧ s.sem t = 0) ∧
      (∃ c, ledger.Reachable (s, c)) ∧ ∀ c, ledger.Reachable (s, c) → ∀ w, c.Exact s w := by
  have hi := reachable_queueInv hr
  refine ⟨fun p => ⟨hi.rooted p, hi.waits.lists.nodup p⟩, hi.waits.lists.apart,
    fun t => (hi.waits.thread t).last, fun t hw h0 => ?_, fun p w => hi.findLast,
    fun t c => hi.blocked, exists_ledger hr, fun c hc => reachable_exact hc⟩
  obtain ⟨p, hp⟩ := (hi.waits.listed t).mpr ⟨hw, h0⟩
  exact ⟨p, hp, fun q hq => hi.waits.lists.apart q p t hq hp⟩

/-- `waiters_unshared` while a waiter is in the hands of a `push`. -/
theorem waiters_unshared_waking : ∃ s : State Nat Nat, s.waking = true ∧
    ∃ p, 0 ∈ s.listAt p ∧ ∀ q, 0 ∈ s.listAt q → q = p := by
  obtain ⟨s, hr, hs⟩ := exists_waking
  obtain ⟨-, -, hpc, hsem, -⟩ := of_decide_eq_true hs
  obtain ⟨-, -, -, hone, -⟩ := waiters_unshared hr
  exact ⟨s, hs, hone 0 (by rw [hpc]; rfl) hsem⟩

/-- The lists at `head_`, at the head's `next` pointer, in the variables of a
    consumer and behind a notified waiter. -/
def Place.named : Place → Bool
  | .nowhere | .hand _ => false
  | .head | .next | .pending _ | .behind _ => true

/-- While `push` has a list in its hands, its waiters are in none of the other
    lists.  Before `unlock_waiting` returns, the variable of the consumer still
    points to a waiter that is at the head already. -/
theorem waiters_between_operations :
    (∃ s : State Nat Nat, queue.Reachable s ∧ s.pc 0 = .waitItem ∧ s.sem 0 = 0 ∧
      ∀ p, p.named = true → 0 ∉ s.listAt p) ∧
    ∃ s : State Nat Nat, queue.Reachable s ∧ s.chain.head? = some 0 ∧ s.next 0 = .waiter 2 ∧
      s.wnext 2 = some 1 ∧ s.pending 2 = some 1 := by
  constructor
  · obtain ⟨s, hr, hs⟩ := exists_waking
    obtain ⟨-, -, hpc, hsem, hpush⟩ := of_decide_eq_true hs
    have hi := reachable_queueInv hr
    have hhand : 0 ∈ s.listAt (.hand 1) := by
      have hroot := (hi.waits.thread 1).hand
      rw [hpush] at hroot
      exact List.mem_of_mem_head? hroot.symm
    refine ⟨s, hr, hpc, hsem, fun p hp hmem => ?_⟩
    rw [hi.waits.lists.apart p (.hand 1) 0 hmem hhand] at hp
    cases hp
  · obtain ⟨s, hr, hs⟩ := exists_installed
    obtain ⟨hhead, hnext, hlink, -, hpend⟩ := of_decide_eq_true hs
    exact ⟨s, hr, hhead, hnext, hlink, hpend⟩

end Coroactors.Queue
