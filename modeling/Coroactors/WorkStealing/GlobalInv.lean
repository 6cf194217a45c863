/-
  Coroactors.WorkStealing.GlobalInv

  The owner of the global queue of `WorkStealingScheduler`
  (src/benchmarks/benchmark_actor_latency.cpp).

  The lock of the mailbox belongs to one thread between its `push` and its
  `fetch_add`, to the word after that, and to the holder of the mutex between
  its load and the end of `try_unlock`.  The counter in the word counts the
  lock, if the word has it, and one more for a holder of the mutex that has not
  made its `fetch_sub` yet (`Inv.count`).  A `push` that overtakes the
  `fetch_sub` makes it two, but only while the mutex is held.
-/

import Coroactors.Mailbox.Calls
import Coroactors.WorkStealing.Global

namespace Coroactors.WorkStealing.Global

open Coroactors.Conc

-- ============================================================================
-- Fields of the word
-- ============================================================================

theorem and_eq_mod {v m : Nat} (h : m < 32) : v &&& m = v % 32 &&& m := by
  have hlt : v &&& m < 2 ^ 5 := Nat.lt_of_le_of_lt Nat.and_le_right h
  calc v &&& m = (v &&& m) % 2 ^ 5 := (Nat.mod_eq_of_lt hlt).symm
    _ = v % 2 ^ 5 &&& m % 2 ^ 5 := Nat.and_mod_two_pow
    _ = v % 32 &&& m := by rw [Nat.mod_eq_of_lt (show m < 2 ^ 5 from h)]

theorem and_wakeup (v : Nat) : v &&& FlagWakeupMask = v % 32 :=
  Nat.and_two_pow_sub_one_eq_mod v 5

theorem and_global (v : Nat) : v &&& FlagGlobalQueueLockedMask = 8 * globalLocked v := by
  have hfield : ∀ r < 32, r &&& 24 = 8 * (r / 8 % 4) := by decide
  rw [show FlagGlobalQueueLockedMask = 24 from rfl, and_eq_mod (by decide),
    hfield _ (Nat.mod_lt _ (by decide)), globalLocked]
  omega

theorem and_local (v : Nat) : v &&& FlagLocalTasksMask = 2 * (v / 2 % 4) := by
  have hfield : ∀ r < 32, r &&& 6 = 2 * (r / 2 % 4) := by decide
  rw [show FlagLocalTasksMask = 6 from rfl, and_eq_mod (by decide),
    hfield _ (Nat.mod_lt _ (by decide))]
  omega

theorem and_shutdown (v : Nat) : v &&& FlagShutdown = v % 2 :=
  Nat.and_two_pow_sub_one_eq_mod v 1

theorem or_local_div (v : Nat) : (v ||| FlagLocalTasksMask) / 8 = v / 8 := by
  have hdiv : (v ||| 6) / 2 ^ 3 = v / 2 ^ 3 ||| 6 / 2 ^ 3 := Nat.or_div_two_pow
  rw [show FlagLocalTasksMask = 6 from rfl]
  simpa using hdiv

theorem or_local_mod (v : Nat) : (v ||| FlagLocalTasksMask) / 2 % 4 = 3 := by
  have hfield : ∀ r < 8, (r ||| 6) / 2 = 3 := by decide
  have hmod : (v ||| 6) % 2 ^ 3 = v % 2 ^ 3 ||| 6 % 2 ^ 3 := Nat.or_mod_two_pow
  have h3 := hfield (v % 8) (Nat.mod_lt _ (by decide))
  have hm : (v ||| 6) % 8 / 2 = 3 := by
    rw [show (v ||| 6) % 8 = v % 8 ||| 6 from hmod, h3]
  show (v ||| 6) / 2 % 4 = 3
  omega

theorem or_shutdown_div (v : Nat) : (v ||| FlagShutdown) / 2 = v / 2 := by
  have hdiv : (v ||| 1) / 2 ^ 1 = v / 2 ^ 1 ||| 1 / 2 ^ 1 := Nat.or_div_two_pow
  rw [show FlagShutdown = 1 from rfl]
  simpa using hdiv

-- ============================================================================
-- The invariant
-- ============================================================================

/-- The function of the mailbox that a thread is in. -/
inductive Call where
  | none
  | push
  | op (op : Mailbox.Op)
deriving DecidableEq, Repr

/-- What a position says about the word, the mutex and the mailbox. -/
structure Role where
  call : Call := .none
  /-- The thread owns the mailbox's lock. -/
  owns : Bool := false
  /-- The thread holds the mutex. -/
  holds : Bool := false
  /-- What the thread still has to subtract from the counter. -/
  unit : Nat := 0
  /-- The thread saw local tasks under the mutex. -/
  locals : Bool := false
  /-- The thread is counted as waiting. -/
  waits : Bool := false
deriving DecidableEq

section Inv

variable {N : Type*}

def Pc.role : Pc N → Role
  | .idle | .wakeLoad | .wakeOr | .globalLoad | .globalLock | .nextLocal | .nextLoad | .nextAdd
  | .nextLock => {}
  | .push => { call := .push }
  | .pushUnlock => { call := .op .tryUnlock, owns := true }
  | .pushAdd => { owns := true }
  | .globalLocked | .nextLocked | .globalRelease _ | .nextRelease _ => { holds := true }
  | .globalPop | .nextPop => { call := .op .pop, owns := true, holds := true, unit := 1 }
  | .globalUnlock _ | .nextUnlock _ =>
      { call := .op .tryUnlock, owns := true, holds := true, unit := 1 }
  | .globalSub _ | .nextSubGlobal _ => { holds := true, unit := 1 }
  | .nextStealLocked | .nextSubLocal => { holds := true, locals := true }
  | .nextSteal _ | .nextWait _ | .nextSub _ => { waits := true }

theorem Pc.holds_of_unit {p : Pc N} (h : p.role.holds = false) : p.role.unit = 0 := by
  cases p <;> first | rfl | cases h

theorem Pc.holds_of_locals {p : Pc N} (h : p.role.locals = true) : p.role.holds = true := by
  cases p <;> first | rfl | cases h

theorem Pc.unit_le (p : Pc N) : p.role.unit ≤ 1 := by
  cases p <;> simp [Pc.role]

/-- The thread is inside the mailbox as its call says. -/
def Inside : Call → Mailbox.Pc N → Prop
  | .none, q => q = .idle
  | .push, q => q.inPush = true
  | .op op, q => q.op = some op

/-- What the holder of the mutex has to subtract. -/
def State.unit (s : State N) : Nat := s.mutex.elim 0 fun t => (s.pc t).role.unit

/-- The word has the lock of the mailbox. -/
def State.stored (s : State N) : Nat := if 0 ∈ s.mailbox.owners then 1 else 0

structure Inv [DecidableEq N] (s : State N) : Prop where
  mailbox : (Mailbox.mailbox N).Reachable s.mailbox
  assertOk : s.assertFailed = false
  mutex : ∀ t, s.mutex = some t ↔ (s.pc t).role.holds = true
  inside : ∀ t, Inside (s.pc t).role.call (s.mailbox.pc (t + 1))
  outside : s.mailbox.pc 0 = .idle
  owner : ∀ t, t + 1 ∈ s.mailbox.owners ↔ (s.pc t).role.owns = true
  count : globalLocked s.word = s.stored + s.unit
  locals : ∀ t, (s.pc t).role.locals = true → s.word / 2 % 4 ≠ 0
  waits : ∀ t, t ∈ s.waiting ↔ (s.pc t).role.waits = true
  nodup : s.waiting.Nodup
  waiting : waitingThreads s.word = s.waiting.length

-- ============================================================================
-- A thread moves
-- ============================================================================

variable [DecidableEq N] {s s' : State N} {t : Nat} {q : Pc N}

theorem waitingThreads_eq (v : Nat) : waitingThreads v = v / 32 := Nat.shiftRight_eq_div_pow v 5

/-- The mutex after thread `t` moved to `q`. -/
def State.mutexAt (s : State N) (t : Nat) (q : Pc N) : Option Nat :=
  if q.role.holds then some t else if (s.pc t).role.holds then none else s.mutex

omit [DecidableEq N] in
theorem unit_move (hm : ∀ u, s.mutex = some u ↔ (s.pc u).role.holds = true)
    (hpc : s'.pc = Function.update s.pc t q) (hmutex : s'.mutex = s.mutexAt t q)
    (hfree : q.role.holds = true → (s.pc t).role.holds = false → s.mutex = none) :
    s'.unit + (s.pc t).role.unit = s.unit + q.role.unit := by
  have hzero := Pc.holds_of_unit (p := q)
  have hzero' := Pc.holds_of_unit (p := s.pc t)
  have ht := hm t
  unfold State.unit
  rw [hmutex, hpc]
  unfold State.mutexAt
  cases hq : q.role.holds with
  | true =>
      cases hp : (s.pc t).role.holds with
      | true => simp [ht.mpr hp, Nat.add_comm]
      | false => simp [hfree hq hp, hzero' hp]
  | false =>
      rw [hzero hq]
      cases hp : (s.pc t).role.holds with
      | true => simp [ht.mpr hp]
      | false =>
          have hne : s.mutex ≠ some t := fun h => by simp [ht.mp h] at hp
          rw [hzero' hp]
          cases hu : s.mutex with
          | none => rfl
          | some u =>
              have hut : u ≠ t := by
                rintro rfl
                exact hne hu
              simp [Function.update_of_ne hut]

/-- Thread `t` moves to `q`: what has to be shown about the new state. -/
theorem Inv.change (h : Inv s) (hpc : s'.pc = Function.update s.pc t q)
    (hreach : (Mailbox.mailbox N).Reachable s'.mailbox) (hassert : s'.assertFailed = false)
    (hmutex : s'.mutex = s.mutexAt t q)
    (hfree : q.role.holds = true → (s.pc t).role.holds = false → s.mutex = none)
    (hmove : ∀ u, u ≠ t + 1 → s'.mailbox.pc u = s.mailbox.pc u)
    (hin : Inside q.role.call (s'.mailbox.pc (t + 1)))
    (hother : ∀ u, u ≠ t → (u + 1 ∈ s'.mailbox.owners ↔ u + 1 ∈ s.mailbox.owners))
    (hown : t + 1 ∈ s'.mailbox.owners ↔ q.role.owns = true)
    (hcount : globalLocked s'.word + s.stored + (s.pc t).role.unit =
      globalLocked s.word + s'.stored + q.role.unit)
    (hlocal : (s.pc t).role.holds = false → s.word / 2 % 4 ≠ 0 → s'.word / 2 % 4 ≠ 0)
    (hlocals : q.role.locals = true → s'.word / 2 % 4 ≠ 0)
    (hwaits : ∀ u, u ∈ s'.waiting ↔ if u = t then q.role.waits = true else u ∈ s.waiting)
    (hnodup : s'.waiting.Nodup) (hwaiting : s'.word / 32 = s'.waiting.length) : Inv s' := by
  have hunit := unit_move h.mutex hpc hmutex hfree
  have hself : s'.pc t = q := by rw [hpc, Function.update_self]
  have hne : ∀ u, u ≠ t → s'.pc u = s.pc u := fun u hu => by rw [hpc, Function.update_of_ne hu]
  refine ⟨hreach, hassert, ?_, ?_, ?_, ?_, ?_, ?_, ?_, hnodup, ?_⟩
  · intro u
    have hu := h.mutex u
    have ht := h.mutex t
    rw [hmutex]
    unfold State.mutexAt
    by_cases hut : u = t
    · subst hut
      rw [hself]
      grind -linarith
    · rw [hne u hut]
      grind -linarith
  · intro u
    by_cases hut : u = t
    · subst hut
      rwa [hself]
    · rw [hne u hut, hmove (u + 1) (by omega)]
      exact h.inside u
  · rw [hmove 0 (by omega)]
    exact h.outside
  · intro u
    by_cases hut : u = t
    · subst hut
      rw [hself, hown]
    · rw [hne u hut, hother u hut]
      exact h.owner u
  · have hc := h.count
    omega
  · intro u hu
    by_cases hut : u = t
    · subst hut
      exact hlocals (by rwa [hself] at hu)
    · rw [hne u hut] at hu
      -- the thread with the mutex is another one
      refine hlocal ?_ (h.locals u hu)
      have hmu := (h.mutex u).mpr (Pc.holds_of_locals hu)
      cases hp : (s.pc t).role.holds with
      | false => rfl
      | true =>
          have hmt := (h.mutex t).mpr hp
          rw [hmu] at hmt
          exact absurd (Option.some.inj hmt) hut
  · intro u
    rw [hwaits u]
    by_cases hut : u = t
    · rw [if_pos hut, hut, hself]
    · rw [if_neg hut, hne u hut]
      exact h.waits u
  · rw [waitingThreads_eq, hwaiting]

theorem Inv.waiting_eq (h : Inv s) : s.word / 32 = s.waiting.length := by
  rw [← waitingThreads_eq]
  exact h.waiting

/-- The waiting threads stay the same. -/
theorem Inv.waits_move (h : Inv s) (hq : q.role.waits = (s.pc t).role.waits) (u : Nat) :
    u ∈ s.waiting ↔ if u = t then q.role.waits = true else u ∈ s.waiting := by
  by_cases hut : u = t
  · rw [if_pos hut, hq, hut]
    exact h.waits t
  · rw [if_neg hut]

/-- The thread moves to a position of the same role. -/
theorem Inv.goto (h : Inv s) (hq : q.role = (s.pc t).role) : Inv (s.goto t q) := by
  have ht := h.mutex t
  refine h.change rfl h.mailbox h.assertOk ?_ ?_ (fun _ _ => rfl) ?_ (fun _ _ => Iff.rfl) ?_ ?_
    (fun _ hl => hl) ?_ (h.waits_move (by rw [hq])) h.nodup h.waiting_eq
  · show s.mutex = s.mutexAt t q
    unfold State.mutexAt
    rw [hq]
    grind -linarith
  · intro h1 h2
    rw [hq, h2] at h1
    cases h1
  · rw [hq]
    exact h.inside t
  · rw [hq]
    exact h.owner t
  · rw [hq]
    rfl
  · intro hl
    rw [hq] at hl
    exact h.locals t hl

/-- The thread changes the word, the mutex or the waiting threads. -/
theorem Inv.word {v : Nat} {w : List Nat} (h : Inv s)
    (hcall : q.role.call = (s.pc t).role.call) (howns : q.role.owns = (s.pc t).role.owns)
    (hfree : q.role.holds = true → (s.pc t).role.holds = false → s.mutex = none)
    (hcount : globalLocked v + (s.pc t).role.unit = globalLocked s.word + q.role.unit)
    (hlocal : (s.pc t).role.holds = false → s.word / 2 % 4 ≠ 0 → v / 2 % 4 ≠ 0)
    (hlocals : q.role.locals = true → v / 2 % 4 ≠ 0)
    (hwaits : ∀ u, u ∈ w ↔ if u = t then q.role.waits = true else u ∈ s.waiting)
    (hnodup : w.Nodup) (hwaiting : v / 32 = w.length) :
    Inv ({ s with word := v, mutex := s.mutexAt t q, waiting := w }.goto t q) := by
  refine h.change rfl h.mailbox h.assertOk rfl hfree (fun _ _ => rfl) ?_ (fun _ _ => Iff.rfl) ?_
    ?_ hlocal hlocals hwaits hnodup hwaiting
  · rw [hcall]
    exact h.inside t
  · rw [howns]
    exact h.owner t
  · show globalLocked v + s.stored + _ = globalLocked s.word + s.stored + _
    omega

/-- The thread changes the mailbox. -/
theorem Inv.mail {m : Mailbox.State N} (h : Inv s) (hreach : (Mailbox.mailbox N).Reachable m)
    (hmove : ∀ u, u ≠ t + 1 → m.pc u = s.mailbox.pc u)
    (hin : Inside q.role.call (m.pc (t + 1)))
    (hother : ∀ u, u ≠ t → (u + 1 ∈ m.owners ↔ u + 1 ∈ s.mailbox.owners))
    (hown : t + 1 ∈ m.owners ↔ q.role.owns = true)
    (hcount : s.stored + (s.pc t).role.unit = (if 0 ∈ m.owners then 1 else 0) + q.role.unit)
    (hholds : q.role.holds = (s.pc t).role.holds) (hlocals : q.role.locals = (s.pc t).role.locals)
    (hwaits : q.role.waits = (s.pc t).role.waits) :
    Inv ({ s with mailbox := m }.goto t q) := by
  have ht := h.mutex t
  refine h.change rfl hreach h.assertOk ?_ ?_ hmove hin hother hown ?_ (fun _ hl => hl) ?_
    (h.waits_move hwaits) h.nodup h.waiting_eq
  · show s.mutex = s.mutexAt t q
    unfold State.mutexAt
    grind -linarith
  · intro h1 h2
    rw [hholds, h2] at h1
    cases h1
  · show globalLocked s.word + s.stored + _ = globalLocked s.word + _ + _
    have hs : ({ s with mailbox := m }.goto t q).stored = if 0 ∈ m.owners then 1 else 0 := rfl
    omega
  · intro hl
    rw [hlocals] at hl
    exact h.locals t hl

-- ============================================================================
-- The lock of the mailbox changes hands
-- ============================================================================

/-- The lock has one owner. -/
theorem Inv.owners_eq {u : Nat} (h : Inv s) (hu : u ∈ s.mailbox.owners) : s.mailbox.owners = [u] := by
  have hsingle := (Mailbox.reachable_inv h.mailbox).single
  match ho : s.mailbox.owners, hsingle, hu with
  | [v], _, hv => rw [List.mem_singleton.mp hv]

/-- The holder of the mutex takes the lock that the word has. -/
theorem Inv.take (h : Inv s) (hp : (s.pc t).role = { holds := true })
    (hq : q.role = { call := .op .pop, owns := true, holds := true, unit := 1 })
    (hw : globalLocked s.word ≠ 0) :
    Inv (((s.assert (s.word &&& FlagGlobalQueueLockedMask = FlagGlobalQueueLocked)).withdraw t).call t
      .pop q) := by
  have hmutex : s.mutex = some t := (h.mutex t).mpr (by rw [hp])
  have hcount := h.count
  have hunit : s.unit = 0 := by simp [State.unit, hmutex, hp]
  have hzero : 0 ∈ s.mailbox.owners := by
    by_contra hn
    rw [State.stored, if_neg hn, hunit] at hcount
    exact hw hcount
  have howners := h.owners_eq hzero
  have hone : globalLocked s.word = 1 := by rw [hcount, State.stored, if_pos hzero, hunit]
  have hassert : s.assert (s.word &&& FlagGlobalQueueLockedMask = FlagGlobalQueueLocked) = s := by
    rw [and_global, hone]
    simp [State.assert, FlagGlobalQueueLocked]
  have hwith : s.withdraw t = { s with mailbox := s.mailbox.ret 0 (.pass 0 (t + 1)) } := by
    rw [State.withdraw, if_pos hzero]
  have hidle : s.mailbox.pc (t + 1) = .idle := by
    have hin := h.inside t
    rwa [hp] at hin
  have hr1 : (Mailbox.mailbox N).Reachable (s.mailbox.ret 0 (.pass 0 (t + 1))) :=
    h.mailbox.next (.pass 0 (t + 1)) (by simp [Mailbox.mailbox, h.outside, hzero])
  have hpc1 : (s.mailbox.ret 0 (.pass 0 (t + 1))).pc (t + 1) = .idle := by
    simp [Mailbox.State.ret, Mailbox.State.goto, hidle]
  have hown1 : (s.mailbox.ret 0 (.pass 0 (t + 1))).owners = [t + 1] := by
    simp [Mailbox.State.ret, Mailbox.Event.owners, howners]
  rw [hassert, hwith]
  refine h.mail (hr1.next (.call (t + 1) .pop) ?_) ?_ ?_ ?_ ?_ ?_ ?_ ?_ ?_
  · simp [Mailbox.mailbox, hpc1, hown1]
  · intro u hu
    rw [Mailbox.pc_goto_of_ne hu]
    by_cases h0 : u = 0
    · rw [h0, h.outside]
      simp [Mailbox.State.ret, Mailbox.State.goto]
    · exact Function.update_of_ne h0 _ _
  · rw [hq]
    simp [Inside, Mailbox.Pc.op]
  · intro u hu
    simp [Mailbox.State.goto, hown1, howners, hu]
  · simp [Mailbox.State.goto, hown1, hq]
  · simp [Mailbox.State.goto, hown1, hp, hq, State.stored, hzero]
  all_goals rw [hp, hq]

/-- A thread that has the lock gives it to the word. -/
theorem Inv.give {m : Mailbox.State N} (h : Inv s) (hreach : (Mailbox.mailbox N).Reachable m)
    (hmove : ∀ u, u ≠ t + 1 → m.pc u = s.mailbox.pc u) (hidle : m.pc (t + 1) = .idle)
    (howners : m.owners = s.mailbox.owners)
    (hp : (s.pc t).role = { call := .op .tryUnlock, owns := true, holds := true, unit := 1 })
    (hq : q.role = { holds := true }) :
    Inv (({ s with mailbox := m }.deposit t).goto t q) := by
  have hown : t + 1 ∈ m.owners := by
    rw [howners]
    exact (h.owner t).mpr (by rw [hp])
  have hmo := h.owners_eq (howners ▸ hown)
  have hdep : { s with mailbox := m }.deposit t =
      { s with mailbox := m.ret (t + 1) (.pass (t + 1) 0) } := by
    unfold State.deposit
    rw [if_pos hown]
  have hown1 : (m.ret (t + 1) (.pass (t + 1) 0)).owners = [0] := by
    simp [Mailbox.State.ret, Mailbox.Event.owners, howners, hmo]
  rw [hdep]
  refine h.mail (hreach.next (.pass (t + 1) 0) ?_) ?_ ?_ ?_ ?_ ?_ ?_ ?_ ?_
  · simp [Mailbox.mailbox, hidle, hown]
  · intro u hu
    rw [← hmove u hu]
    exact Function.update_of_ne hu _ _
  · rw [hq]
    simp [Inside, Mailbox.State.ret, Mailbox.State.goto]
  · intro u hu
    simp [hown1, hmo, hu]
  · simp [hown1, hq]
  · simp [hown1, hp, hq, State.stored, hmo]
  all_goals rw [hp, hq]

section Steps

variable {m : Mailbox.State N} {op : Mailbox.Op}

/-- The thread goes on in the mailbox, or returns from it, with the lock as it was. -/
theorem Inv.kept (h : Inv s) (hreach : (Mailbox.mailbox N).Reachable m)
    (hmove : ∀ u, u ≠ t + 1 → m.pc u = s.mailbox.pc u) (howners : m.owners = s.mailbox.owners)
    (hin : Inside q.role.call (m.pc (t + 1)))
    (hq : q.role = { (s.pc t).role with call := q.role.call }) :
    Inv ({ s with mailbox := m }.goto t q) := by
  have hrole : q.role.owns = (s.pc t).role.owns ∧ q.role.holds = (s.pc t).role.holds ∧
      q.role.unit = (s.pc t).role.unit ∧ q.role.locals = (s.pc t).role.locals ∧
      q.role.waits = (s.pc t).role.waits := by
    rw [hq]
    exact ⟨rfl, rfl, rfl, rfl, rfl⟩
  obtain ⟨h1, h2, h3, h4, h5⟩ := hrole
  refine h.mail hreach hmove hin ?_ ?_ ?_ h2 h4 h5
  · intro u _
    rw [howners]
  · rw [howners, h1]
    exact h.owner t
  · rw [howners, h3]
    rfl

/-- The thread goes on inside the mailbox. -/
theorem Inv.stay (h : Inv s) (hreach : (Mailbox.mailbox N).Reachable m)
    (hmove : ∀ u, u ≠ t + 1 → m.pc u = s.mailbox.pc u) (howners : m.owners = s.mailbox.owners)
    (hin : Inside (s.pc t).role.call (m.pc (t + 1))) : Inv { s with mailbox := m } := by
  have hgoto : { s with mailbox := m }.goto t (s.pc t) = { s with mailbox := m } := by
    simp [State.goto, Function.update_eq_self]
  rw [← hgoto]
  exact h.kept hreach hmove howners hin rfl

/-- A thread that has the lock calls a function of the mailbox. -/
theorem Inv.calls (h : Inv s) (hreach : (Mailbox.mailbox N).Reachable m)
    (hmove : ∀ u, u ≠ t + 1 → m.pc u = s.mailbox.pc u) (hidle : m.pc (t + 1) = .idle)
    (howners : m.owners = s.mailbox.owners) (hown : (s.pc t).role.owns = true)
    (hq : q.role = { (s.pc t).role with call := .op op }) :
    Inv ({ s with mailbox := m }.call t op q) := by
  have hmem : t + 1 ∈ m.owners := by
    rw [howners]
    exact (h.owner t).mpr hown
  refine h.kept (m := m.goto (t + 1) (.load op)) (hreach.next (.call (t + 1) op) ?_) ?_ howners ?_ ?_
  · simp [Mailbox.mailbox, hidle, hmem]
  · intro u hu
    rw [Mailbox.pc_goto_of_ne hu]
    exact hmove u hu
  · rw [hq]
    simp [Inside, Mailbox.Pc.op]
  · rw [hq]

/-- A function of the mailbox returned to its owner, and unlocked it. -/
theorem Inv.unlocked (h : Inv s) (hreach : (Mailbox.mailbox N).Reachable m)
    (hmove : ∀ u, u ≠ t + 1 → m.pc u = s.mailbox.pc u) (hidle : m.pc (t + 1) = .idle)
    (howners : m.owners = s.mailbox.owners.erase (t + 1)) (hown : (s.pc t).role.owns = true)
    (hq : q.role = { (s.pc t).role with call := .none, owns := false }) :
    Inv ({ s with mailbox := m }.goto t q) := by
  have hmo := h.owners_eq ((h.owner t).mpr hown)
  rw [hmo, List.erase_cons_head] at howners
  refine h.mail hreach hmove ?_ ?_ ?_ ?_ ?_ ?_ ?_
  · rw [hq]
    exact hidle
  · intro u hu
    simp [howners, hmo, hu]
  · simp [howners, hq]
  · simp [howners, hq, State.stored, hmo]
  all_goals rw [hq]

/-- `push` returned true. -/
theorem Inv.locked (h : Inv s) (hreach : (Mailbox.mailbox N).Reachable m)
    (hmove : ∀ u, u ≠ t + 1 → m.pc u = s.mailbox.pc u) (hidle : m.pc (t + 1) = .idle)
    (howners : m.owners = (t + 1) :: s.mailbox.owners) (hp : s.pc t = .push) :
    Inv ({ s with mailbox := m }.call t .tryUnlock .pushUnlock) := by
  have hnone : s.mailbox.owners = [] := by
    have hsingle := (Mailbox.reachable_inv hreach).single
    rw [howners, List.length_cons] at hsingle
    exact List.length_eq_zero_iff.mp (by omega)
  rw [hnone] at howners
  refine h.mail (m := m.goto (t + 1) (.load .tryUnlock)) (hreach.next (.call (t + 1) .tryUnlock) ?_)
    ?_ ?_ ?_ ?_ ?_ ?_ ?_ ?_
  · simp [Mailbox.mailbox, hidle, howners]
  · intro u hu
    rw [Mailbox.pc_goto_of_ne hu]
    exact hmove u hu
  · simp [Inside, Pc.role, Mailbox.Pc.op]
  · intro u hu
    simp [Mailbox.State.goto, howners, hnone, hu]
  · simp [Mailbox.State.goto, howners, Pc.role]
  · simp [Mailbox.State.goto, howners, hnone, hp, Pc.role, State.stored]
  all_goals rw [hp]; rfl

/-- What a step inside the mailbox leaves alone. -/
theorem stepMailbox_cases (h : Inv s) (hs : s.stepMailbox t = some s') :
    ∃ m, Mailbox.stepThread s.mailbox (t + 1) = some m ∧ (Mailbox.mailbox N).Reachable m ∧
      (∀ u, u ≠ t + 1 → m.pc u = s.mailbox.pc u) ∧
      s' = if m.pc (t + 1) = .idle then { s with mailbox := m }.returned t m.log.getLast?
        else { s with mailbox := m } := by
  obtain ⟨m, hm, rfl⟩ := Option.map_eq_some_iff.mp hs
  exact ⟨m, hm, h.mailbox.next (.step (t + 1)) hm, fun u hu => Mailbox.stepThread_pc hm hu, rfl⟩

theorem push_inv (h : Inv s) (hp : s.pc t = .push) (hs : s.stepMailbox t = some s') : Inv s' := by
  obtain ⟨m, hm, hreach, hmove, rfl⟩ := stepMailbox_cases h hs
  have hin : (s.mailbox.pc (t + 1)).inPush = true := by
    have hin := h.inside t
    rwa [hp] at hin
  rcases Mailbox.stepThread_push hm hin with ⟨hin', hlog, howners⟩ | ⟨n, b, hidle, hlog, howners⟩
  · have hne : m.pc (t + 1) ≠ .idle := fun hi => by simp [hi, Mailbox.Pc.inPush] at hin'
    rw [if_neg hne]
    exact h.stay hreach hmove howners (by rw [hp]; exact hin')
  · rw [if_pos hidle, hlog, List.getLast?_concat]
    cases b with
    | true => exact h.locked hreach hmove hidle howners hp
    | false => exact h.kept hreach hmove howners hidle (by rw [hp]; rfl)

/-- How a call of `pop` or `try_unlock` goes on. -/
theorem op_cases (h : Inv s) (hcall : (s.pc t).role.call = .op op)
    (hs : s.stepMailbox t = some s') :
    Inv s' ∨ ∃ m e, (Mailbox.mailbox N).Reachable m ∧ (∀ u, u ≠ t + 1 → m.pc u = s.mailbox.pc u) ∧
      m.pc (t + 1) = .idle ∧ m.owners = e.owners s.mailbox.owners ∧ e.Returns (t + 1) op ∧
      s' = { s with mailbox := m }.returned t (some e) := by
  obtain ⟨m, hm, hreach, hmove, rfl⟩ := stepMailbox_cases h hs
  have hop : (s.mailbox.pc (t + 1)).op = some op := by
    have hin := h.inside t
    rwa [hcall] at hin
  cases Mailbox.stepThread_call hm hop with
  | inside hin hlog howners =>
      have hne : m.pc (t + 1) ≠ .idle := fun hi => by simp [hi, Mailbox.Pc.op] at hin
      rw [if_neg hne]
      exact .inl (h.stay hreach hmove howners (by rw [hcall]; exact hin))
  | returned e hidle hlog howners hret =>
      rw [if_pos hidle, hlog, List.getLast?_concat]
      exact .inr ⟨m, e, hreach, hmove, hidle, howners, hret, rfl⟩
  | crashed hc =>
      have hok := (Mailbox.reachable_inv hreach).pc (t + 1)
      rw [hc] at hok
      exact hok.elim

theorem pushUnlock_inv (h : Inv s) (hp : s.pc t = .pushUnlock) (hs : s.stepMailbox t = some s') :
    Inv s' := by
  have hcall : (s.pc t).role.call = .op .tryUnlock := by rw [hp]; rfl
  rcases op_cases h hcall hs with
    hi | ⟨m, e, hreach, hmove, hidle, howners, ⟨b, rfl⟩, rfl⟩
  · exact hi
  · simp only [State.returned, hp]
    cases b with
    | true => exact h.unlocked hreach hmove hidle howners (by rw [hp]; rfl) (by rw [hp]; rfl)
    | false => exact h.kept hreach hmove howners hidle (by rw [hp]; rfl)

theorem pop_inv (h : Inv s) (hp : s.pc t = .globalPop ∨ s.pc t = .nextPop)
    (hs : s.stepMailbox t = some s') : Inv s' := by
  have hrole : (s.pc t).role = { call := .op .pop, owns := true, holds := true, unit := 1 } := by
    rcases hp with hp | hp <;> rw [hp] <;> rfl
  have hcall : (s.pc t).role.call = .op .pop := by rw [hrole]
  rcases op_cases h hcall hs with
    hi | ⟨m, e, hreach, hmove, hidle, howners, ⟨r, rfl⟩, rfl⟩
  · exact hi
  · cases r with
    | none =>
        rcases hp with hp | hp <;> simp only [State.returned, hp] <;>
          exact h.unlocked hreach hmove hidle howners (by rw [hrole]) (by rw [hrole]; rfl)
    | some r =>
        rcases hp with hp | hp <;> simp only [State.returned, hp] <;>
          exact h.calls hreach hmove hidle howners (by rw [hrole]) (by rw [hrole]; rfl)

theorem unlock_inv {r : Mailbox.Ptr N} (h : Inv s)
    (hp : s.pc t = .globalUnlock r ∨ s.pc t = .nextUnlock r) (hs : s.stepMailbox t = some s') :
    Inv s' := by
  have hrole : (s.pc t).role =
      { call := .op .tryUnlock, owns := true, holds := true, unit := 1 } := by
    rcases hp with hp | hp <;> rw [hp] <;> rfl
  have hcall : (s.pc t).role.call = .op .tryUnlock := by rw [hrole]
  rcases op_cases h hcall hs with
    hi | ⟨m, e, hreach, hmove, hidle, howners, ⟨b, rfl⟩, rfl⟩
  · exact hi
  · cases b with
    | true =>
        rcases hp with hp | hp <;> simp only [State.returned, hp] <;>
          exact h.unlocked hreach hmove hidle howners (by rw [hrole]) (by rw [hrole]; rfl)
    | false =>
        rcases hp with hp | hp <;> simp only [State.returned, hp] <;>
          exact h.give hreach hmove hidle howners hrole rfl

-- ============================================================================
-- The word and the mutex
-- ============================================================================

/-- The flags change, and neither counter does. -/
theorem Inv.setWord {v : Nat} (h : Inv s) (hq : q.role = (s.pc t).role) (hv : v / 8 = s.word / 8)
    (hlocal : s.word / 2 % 4 ≠ 0 → v / 2 % 4 ≠ 0) : Inv ({ s with word := v }.goto t q) := by
  have hwait := h.waiting_eq
  have hmutex : s.mutexAt t q = s.mutex := by
    have ht := h.mutex t
    unfold State.mutexAt
    grind -linarith
  have hi := h.word (t := t) (q := q) (v := v) (w := s.waiting) (by rw [hq]) (by rw [hq])
    (fun h1 h2 => by rw [hq, h2] at h1; cases h1) (by rw [hq, globalLocked, globalLocked, hv])
    (fun _ => hlocal) (fun hl => hlocal (h.locals t (hq ▸ hl))) (h.waits_move (by rw [hq]))
    h.nodup (by omega)
  rwa [hmutex] at hi

/-- The mutex is unlocked. -/
theorem Inv.release (h : Inv s) (hp : (s.pc t).role = { holds := true }) (hq : q.role = {}) :
    Inv (s.unlock.goto t q) := by
  have hi := h.word (t := t) (q := q) (v := s.word) (w := s.waiting) (by rw [hp, hq])
    (by rw [hp, hq]) (fun h1 => by rw [hq] at h1; cases h1) (by rw [hp, hq]) (fun _ hl => hl)
    (fun hl => by rw [hq] at hl; cases hl) (h.waits_move (by rw [hp, hq])) h.nodup h.waiting_eq
  rwa [State.mutexAt, hp, hq] at hi

theorem lock_inv (h : Inv s) (hp : (s.pc t).role = {}) (hq : q.role = { holds := true })
    (hs : s.lock t q = some s') : Inv s' := by
  unfold State.lock at hs
  split at hs
  · rename_i hfree
    cases hs
    have hi := h.word (t := t) (q := q) (v := s.word) (w := s.waiting) (by rw [hp, hq])
      (by rw [hp, hq]) (fun _ _ => hfree) (by rw [hp, hq]) (fun _ hl => hl)
      (fun hl => by rw [hq] at hl; cases hl) (h.waits_move (by rw [hp, hq])) h.nodup h.waiting_eq
    rwa [State.mutexAt, hp, hq] at hi
  · cases hs

/-- A thread with the mutex moves on with it. -/
theorem Inv.under {v : Nat} (h : Inv s) (hp : (s.pc t).role.holds = true)
    (hcall : q.role.call = (s.pc t).role.call) (howns : q.role.owns = (s.pc t).role.owns)
    (hq : q.role.holds = true)
    (hwaits : q.role.waits = (s.pc t).role.waits)
    (hcount : globalLocked v + (s.pc t).role.unit = globalLocked s.word + q.role.unit)
    (hlocals : q.role.locals = true → v / 2 % 4 ≠ 0) (hv : v / 32 = s.word / 32) :
    Inv ({ s with word := v }.goto t q) := by
  have hwait := h.waiting_eq
  have hi := h.word (t := t) (q := q) (v := v) (w := s.waiting) hcall howns
    (fun _ h2 => by rw [hp] at h2; cases h2) hcount (fun h2 => by rw [hp] at h2; cases h2) hlocals
    (h.waits_move hwaits) h.nodup (by omega)
  rwa [State.mutexAt, if_pos hq, ← (h.mutex t).mpr hp] at hi

/-- The unit of the thread is in the counter. -/
theorem Inv.unit_le_count (h : Inv s) (hp : (s.pc t).role.unit = 1)
    (hh : (s.pc t).role.holds = true) : 1 ≤ globalLocked s.word := by
  have hunit : s.unit = 1 := by
    simp [State.unit, (h.mutex t).mpr hh, hp]
  rw [h.count]
  omega

theorem Inv.sub (h : Inv s) (hp : (s.pc t).role = { holds := true, unit := 1 })
    (hq : q.role = { holds := true }) :
    Inv ({ s with word := s.word - FlagGlobalQueueLocked }.goto t q) := by
  have hle := h.unit_le_count (t := t) (by rw [hp]) (by rw [hp])
  unfold globalLocked at hle
  refine h.under (by rw [hp]) (by rw [hp, hq]) (by rw [hp, hq]) (by rw [hq]) (by rw [hp, hq]) ?_
    (fun hl => by rw [hq] at hl; cases hl) ?_
  · rw [hp, hq, globalLocked, globalLocked, FlagGlobalQueueLocked]
    show (s.word - 8) / 8 % 4 + 1 = s.word / 8 % 4 + 0
    omega
  · rw [FlagGlobalQueueLocked]
    omega

omit [DecidableEq N] in
theorem goto_goto {p : Pc N} : (s.goto t p).goto t q = s.goto t q := by
  simp [State.goto, Function.update_idem]

omit [DecidableEq N] in
theorem recheck_goto {p : Pc N} {v : Nat} : (s.goto t p).recheck t v = s.recheck t v := by
  have hunlock : ∀ q : Pc N, (s.goto t p).unlock.goto t q = s.unlock.goto t q := by
    intro q
    exact goto_goto (s := s.unlock)
  have hassert : ∀ b (q : Pc N), ((s.goto t p).assert b).goto t q = (s.assert b).goto t q := by
    intro b q
    exact goto_goto (s := s.assert b)
  have hcall : ∀ b (q : Pc N), (((s.goto t p).assert b).withdraw t).call t .pop q =
      ((s.assert b).withdraw t).call t .pop q := by
    intro b q
    unfold State.withdraw
    split <;> simp_all [State.call, State.goto, State.assert]
  unfold State.recheck
  simp only [hunlock, hassert, hcall, goto_goto]

/-- The loop of `next_task` under the mutex. -/
theorem Inv.recheck (h : Inv s) (hp : s.pc t = .nextLocked) : Inv (s.recheck t s.word) := by
  have hrole : (s.pc t).role = { holds := true } := by rw [hp]; rfl
  unfold State.recheck
  rw [and_wakeup, and_global, and_local, and_shutdown]
  split
  · exact h.release hrole rfl
  split
  · rename_i hg
    have ht := h.take (q := .nextPop) hrole rfl (by omega)
    rwa [and_global] at ht
  split
  · rename_i hl
    have hi := h.under (t := t) (q := .nextStealLocked) (v := s.word) (by rw [hrole])
      (by rw [hrole]; rfl) (by rw [hrole]; rfl) rfl (by rw [hrole]; rfl) (by rw [hrole]; rfl)
      (fun _ => by omega) rfl
    exact hi
  split
  · exact h.release hrole rfl
  · rename_i hw hg hl hsh
    unfold globalLocked at hg
    omega

theorem Inv.look {v : Nat} (h : ∀ q : Pc N, q.role = {} → Inv (s.goto t q)) :
    Inv (s.look t v) := by
  unfold State.look
  split <;> exact h _ rfl

theorem Inv.got {r : Mailbox.Ptr N} (h : Inv s) : Inv (s.got t r) :=
  ⟨h.mailbox, h.assertOk, h.mutex, h.inside, h.outside, h.owner, h.count, h.locals, h.waits,
    h.nodup, h.waiting⟩

/-- The thread hands the lock of the mailbox to the word. -/
theorem pushAdd_inv (h : Inv s) (hp : s.pc t = .pushAdd) :
    Inv (({ s with word := s.word + FlagGlobalQueueLocked }.deposit t).goto t .idle) := by
  have hrole : (s.pc t).role = { owns := true } := by rw [hp]; rfl
  have hmem : t + 1 ∈ s.mailbox.owners := (h.owner t).mpr (by rw [hrole])
  have howners := h.owners_eq hmem
  have hidle : s.mailbox.pc (t + 1) = .idle := by
    have hin := h.inside t
    rwa [hrole] at hin
  have hstored : s.stored = 0 := by simp [State.stored, howners]
  -- the counter is at most one, and the word has room for the unit
  have hcount : globalLocked s.word ≤ 1 := by
    have hc := h.count
    have hunit : s.unit ≤ 1 := by
      unfold State.unit
      cases s.mutex with
      | none => exact Nat.zero_le 1
      | some u => exact Pc.unit_le _
    omega
  unfold globalLocked at hcount
  have hnew : ({ s with word := s.word + FlagGlobalQueueLocked }.deposit t).goto t .idle =
      { s with
        word := s.word + FlagGlobalQueueLocked
        mailbox := s.mailbox.ret (t + 1) (.pass (t + 1) 0) }.goto t .idle := by
    unfold State.deposit
    rw [if_pos hmem]
  have hown : (s.mailbox.ret (t + 1) (.pass (t + 1) 0)).owners = [0] := by
    simp [Mailbox.State.ret, Mailbox.Event.owners, howners]
  have hreach : (Mailbox.mailbox N).Reachable (s.mailbox.ret (t + 1) (.pass (t + 1) 0)) :=
    h.mailbox.next (.pass (t + 1) 0) (by simp [Mailbox.mailbox, hidle, hmem])
  have hmutex : s.mutex = s.mutexAt t .idle := by
    rw [State.mutexAt, hrole]
    rfl
  have hwait := h.waiting_eq
  rw [hnew]
  refine h.change rfl hreach h.assertOk hmutex ?_ ?_ ?_ ?_ ?_ ?_ ?_ ?_
    (h.waits_move (by rw [hrole]; rfl)) h.nodup ?_
  · intro h1
    cases h1
  · intro u hu
    exact Function.update_of_ne hu _ _
  · simp [Inside, Pc.role, State.goto, Mailbox.State.ret, Mailbox.State.goto]
  · intro u hu
    show u + 1 ∈ (s.mailbox.ret (t + 1) (.pass (t + 1) 0)).owners ↔ _
    simp [hown, howners, hu]
  · show t + 1 ∈ (s.mailbox.ret (t + 1) (.pass (t + 1) 0)).owners ↔ _
    simp [hown, Pc.role]
  · have hs : ({ s with
        word := s.word + FlagGlobalQueueLocked
        mailbox := s.mailbox.ret (t + 1) (.pass (t + 1) 0) }.goto t .idle).stored = 1 := by
      show (if 0 ∈ (s.mailbox.ret (t + 1) (.pass (t + 1) 0)).owners then 1 else 0) = 1
      rw [hown]
      rfl
    rw [hs, hstored, hrole]
    show (s.word + 8) / 8 % 4 + 0 + 0 = s.word / 8 % 4 + 1 + 0
    omega
  · intro _ hl
    show (s.word + 8) / 2 % 4 ≠ 0
    omega
  · intro hl
    cases hl
  · show (s.word + 8) / 32 = s.waiting.length
    omega

/-- The thread is counted as waiting. -/
theorem nextAdd_inv (h : Inv s) (hp : s.pc t = .nextAdd) (hq : q.role = { waits := true }) :
    Inv ({ s with word := s.word + WaitingThreadsIncrement, waiting := t :: s.waiting }.goto t
      q) := by
  have hrole : (s.pc t).role = {} := by rw [hp]; rfl
  have hwait := h.waiting_eq
  have hnot : t ∉ s.waiting := fun hm => by simpa [hrole] using (h.waits t).mp hm
  have hi := h.word (t := t) (q := q) (v := s.word + WaitingThreadsIncrement)
    (w := t :: s.waiting) (by rw [hrole, hq]) (by rw [hrole, hq])
    (fun h1 => by rw [hq] at h1; cases h1) ?_ ?_ (fun hl => by rw [hq] at hl; cases hl) ?_
    (List.nodup_cons.mpr ⟨hnot, h.nodup⟩) ?_
  · rwa [State.mutexAt, hrole, hq] at hi
  · rw [hrole, hq]
    show (s.word + 32) / 8 % 4 + 0 = s.word / 8 % 4 + 0
    omega
  · intro _ hl
    show (s.word + 32) / 2 % 4 ≠ 0
    omega
  · intro u
    by_cases hut : u = t <;> simp [hut, hq]
  · rw [List.length_cons, ← hwait]
    show (s.word + 32) / 32 = _
    omega

/-- The thread is no longer counted as waiting. -/
theorem nextSub_inv {b : Bool} (h : Inv s) (hp : s.pc t = .nextSub b) (hq : q.role = {}) :
    Inv ({ s with
      word := s.word - WaitingThreadsIncrement
      waiting := s.waiting.erase t }.goto t q) := by
  have hrole : (s.pc t).role = { waits := true } := by rw [hp]; rfl
  have hwait := h.waiting_eq
  have hmem : t ∈ s.waiting := (h.waits t).mpr (by rw [hrole])
  have hlen := List.length_erase_of_mem hmem
  have hpos := List.length_pos_of_mem hmem
  have hi := h.word (t := t) (q := q) (v := s.word - WaitingThreadsIncrement)
    (w := s.waiting.erase t) (by rw [hrole, hq]) (by rw [hrole, hq])
    (fun h1 => by rw [hq] at h1; cases h1) ?_ ?_ (fun hl => by rw [hq] at hl; cases hl) ?_
    (h.nodup.erase t) ?_
  · rwa [State.mutexAt, hrole, hq] at hi
  · rw [hrole, hq]
    show (s.word - 32) / 8 % 4 + 0 = s.word / 8 % 4 + 0
    omega
  · intro _ hl
    show (s.word - 32) / 2 % 4 ≠ 0
    omega
  · intro u
    by_cases hut : u = t
    · simp [hut, hq, h.nodup.not_mem_erase]
    · rw [if_neg hut, List.mem_erase_of_ne hut]
  · show (s.word - 32) / 32 = _
    omega

theorem nextSubLocal_inv (h : Inv s) (hp : s.pc t = .nextSubLocal) :
    Inv ({ s with word := s.word - NoLocalTasksDecrement }.goto t .nextLocked) := by
  have hrole : (s.pc t).role = { holds := true, locals := true } := by rw [hp]; rfl
  have hl := h.locals t (by rw [hrole])
  refine h.under (by rw [hrole]) (by rw [hrole]; rfl) (by rw [hrole]; rfl) rfl (by rw [hrole]; rfl)
    ?_ (fun hl => by cases hl) ?_
  · rw [hrole]
    show (s.word - 2) / 8 % 4 + 0 = s.word / 8 % 4 + 0
    omega
  · show (s.word - 2) / 32 = _
    omega

end Steps

end Inv

end Coroactors.WorkStealing.Global
