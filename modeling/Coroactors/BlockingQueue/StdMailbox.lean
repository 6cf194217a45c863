/-
  Coroactors.BlockingQueue.StdMailbox

  `TBlockingQueueWithStdMailbox` (src/benchmarks/benchmark_actor_latency.cpp): a
  blocking queue whose `push` takes the mutex only when it locked the mailbox.

  The mailbox is taken as the locked FIFO that it refines
  (Coroactors.Mailbox.Refines).  Its lock belongs to the push that locked it, and
  is then handed to the field `MailboxLocked`; whoever has the mutex and sees the
  field set pops.  A `try_pop` on the mailbox may find nothing although there are
  items, when a push is in flight.

  Only one wakeup is under way at a time: `Notified` says that some waiter was
  notified and has not got the mutex yet, and nobody else is notified until it
  has.  That waiter notifies the next one, if it leaves the mailbox locked.

  What a thread does under the mutex is one step, except that each operation on
  the mailbox is a step of its own.
-/

import Coroactors.BlockingQueue.StdMutex
import Coroactors.Conc.LockedFifo

namespace Coroactors.BlockingQueue.StdMailbox

open Coroactors.Conc

-- ============================================================================
-- Model
-- ============================================================================

inductive Pc (T : Type*) where
  | idle
  /-- `push`: in `Mailbox.push`, between its two exchanges. -/
  | publish (x : T)
  /-- `push`: with the mailbox's lock, before the mutex is locked. -/
  | pushLock (x : T)
  | push (x : T)
  /-- `pop`: before the mutex is locked. -/
  | popLock
  /-- `pop`: with the mutex, before the loop looks at `MailboxLocked`. -/
  | pop
  /-- `pop`: in `CanPop.wait`. -/
  | wait
  /-- `try_pop`: before the mutex is locked. -/
  | tryLock
  | tryPop
  /-- `shutdown`: before the mutex is locked. -/
  | shutdownLock
  | shutdown
deriving DecidableEq, Repr

structure State (T : Type*) where
  mailbox : LockedFifo T
  waiters : Nat
  notified : Bool
  mailboxLocked : Bool
  /-- `Shutdown`. -/
  stopped : Bool
  /-- The owner of `Lock`. -/
  mutex : Option Nat
  /-- The threads that sleep on `CanPop`. -/
  asleep : List Nat
  pc : Nat → Pc T
  log : List (Event T)
  /-- The items in the order in which they got their place in the mailbox. -/
  order : List T

inductive Act (T : Type*) where
  | push (t : Nat) (x : T)
  | pop (t : Nat)
  | tryPop (t : Nat)
  | shutdown (t : Nat)
  /-- The next step of a call; `k` is how a pop of the mailbox ends, and `w` whom
      a `notify_one` wakes. -/
  | step (t : Nat) (k : PopChoice T) (w : Option Nat)
  /-- A sleeper wakes up without being notified. -/
  | spurious (w : Nat)
deriving DecidableEq, Repr

section Model

variable {T : Type*}

def State.start : State T where
  mailbox := .empty
  waiters := 0
  notified := false
  mailboxLocked := false
  stopped := false
  mutex := none
  asleep := []
  pc _ := .idle
  log := []
  order := []

namespace State

def goto (s : State T) (t : Nat) (pc : Pc T) : State T :=
  { s with pc := Function.update s.pc t pc }

def lock (s : State T) (t : Nat) (pc : Pc T) : Option (State T) :=
  if s.mutex = none then some ({ s with mutex := some t }.goto t pc) else none

/-- The call unlocks the mutex and returns. -/
def ret (s : State T) (t : Nat) (e : Event T) : State T :=
  { s with mutex := none, log := s.log ++ [e] }.goto t .idle

/-- `CanPop.wait`. -/
def sleep (s : State T) (t : Nat) : State T :=
  { s with mutex := none, asleep := t :: s.asleep }.goto t .wait

/-- A single waiter is notified, if there is one and none is on its way; then
    the call unlocks the mutex and returns. -/
def notifyRet (s : State T) (w : Option Nat) (t : Nat) (e : Event T) : Option (State T) :=
  if 0 < s.waiters ∧ s.notified = false then
    (notifyOne s.asleep w).map fun l => { s with asleep := l, notified := true }.ret t e
  else some (s.ret t e)

end State

variable [DecidableEq T]

def stepThread (s : State T) (t : Nat) (k : PopChoice T) (w : Option Nat) : Option (State T) :=
  match s.pc t with
  | .idle => none
  | .publish x =>
      let p := s.mailbox.publish x
      if p.2 then some ({ s with mailbox := p.1 }.goto t (.pushLock x))
      else some ({ s with mailbox := p.1, log := s.log ++ [Event.push t x] }.goto t .idle)
  | .pushLock x => s.lock t (.push x)
  | .push x => { s with mailboxLocked := true }.notifyRet w t (.push t x)
  | .popLock => s.lock t .pop
  | .pop =>
      if s.mailboxLocked then
        match s.mailbox.pop k with
        | some (m, some x) => { s with mailbox := m }.notifyRet w t (.pop t (some x))
        | some (m, none) =>
            let s' := { s with mailbox := m, mailboxLocked := false }
            if s.stopped then some (s'.ret t (.pop t none)) else some (s'.goto t .pop)
        | none => none
      else if s.stopped then some (s.ret t (.pop t none))
      else some ({ s with waiters := s.waiters + 1 }.sleep t)
  | .wait =>
      if t ∈ s.asleep then none
      else { s with waiters := s.waiters - 1, notified := false }.lock t .pop
  | .tryLock => s.lock t .tryPop
  | .tryPop =>
      if s.mailboxLocked then
        match k with
        | .item =>
            match s.mailbox.pop .item with
            | some (m, some x) => { s with mailbox := m }.notifyRet w t (.tryPop t (some x))
            | _ => none
        | .null _ => some (s.ret t (.tryPop t none))
      else some (s.ret t (.tryPop t none))
  | .shutdownLock => s.lock t .shutdown
  | .shutdown => some ({ s with stopped := true, asleep := [] }.ret t (.shutdown t))

/-- The queue, and any number of threads.  An item is not pushed again while it
    is in the mailbox. -/
def queue (T : Type*) [DecidableEq T] : System (State T) (Act T) where
  init s := s = .start
  step s
    | .push t x =>
        if s.pc t = .idle ∧ x ∉ s.mailbox.items then
          some ({ s with mailbox := s.mailbox.prepare x, order := s.order ++ [x] }.goto t (.publish x))
        else none
    | .pop t => if s.pc t = .idle then some (s.goto t .popLock) else none
    | .tryPop t => if s.pc t = .idle then some (s.goto t .tryLock) else none
    | .shutdown t => if s.pc t = .idle then some (s.goto t .shutdownLock) else none
    | .step t k w => stepThread s t k w
    | .spurious w =>
        if w ∈ s.asleep then some { s with asleep := s.asleep.erase w } else none

end Model

-- ============================================================================
-- The invariant
-- ============================================================================

section Inv

variable {T : Type*} {s s' : State T} {t u : Nat} {q : Pc T}

def Pc.holds : Pc T → Bool
  | .push _ | .pop | .tryPop | .shutdown => true
  | _ => false

/-- The thread is counted in `Waiters`. -/
def Pc.waits : Pc T → Bool
  | .wait => true
  | _ => false

/-- The thread has the lock of the mailbox, and is going to hand it over. -/
def Pc.locking : Pc T → Bool
  | .pushLock _ | .push _ => true
  | _ => false

/-- The push that is in flight. -/
def Pc.flies : Pc T → Option T
  | .publish x => some x
  | _ => none

/-- The thread is a waiter that was woken, or is going to look at the mailbox. -/
def State.OnWay (s : State T) (t : Nat) : Prop :=
  s.pc t = .wait ∧ t ∉ s.asleep ∨ s.pc t = .pop

/-- The lock of the mailbox belongs to a push or to the field. -/
structure Owned (l : Lock T) (b : Bool) (pc : Nat → Pc T) (owner : Option Nat) : Prop where
  push : Holds Pc.locking owner pc
  field : b = true → owner = none
  lock : l = .locked ↔ b = true ∨ owner ≠ none

structure Inv (s : State T) : Prop where
  mutex : Holds Pc.holds s.mutex s.pc
  waiting : Counted Pc.waits s.waiters s.pc
  sleeps : ∀ t ∈ s.asleep, s.pc t = .wait
  nodup : s.asleep.Nodup
  stopped : s.stopped = true → s.asleep = []
  notified : s.notified = true → ∃ t, s.pc t = .wait ∧ t ∉ s.asleep
  covered : Covered (s.mailboxLocked = true) s.asleep s.OnWay
  owned : ∃ owner, Owned s.mailbox.lock s.mailboxLocked s.pc owner
  wf : s.mailbox.Wf
  flying : Listed Pc.flies s.mailbox.flying s.pc
  fifo : taken s.log ++ s.mailbox.items = s.order
  null : ∀ t, .pop t none ∈ s.log → s.stopped = true
  drained : ∀ t, s.log.getLast? = some (.pop t none) → s.mailboxLocked = false

/-- Nobody at a position other than `wait` sleeps. -/
theorem Inv.sleeps_of_ne (h : Inv s) (hp : s.pc t ≠ .wait) (w : Nat) (hw : w ∈ s.asleep) :
    Function.update s.pc t q w = .wait := by
  have hwait := h.sleeps w hw
  rw [Function.update_of_ne]
  · exact hwait
  · rintro rfl
    exact hp hwait

/-- A waiter that is awake stays one while another thread moves. -/
theorem wait_of_ne {l : List Nat} (hp : s.pc t ≠ .wait) (h : ∃ u, s.pc u = .wait ∧ u ∉ l) :
    ∃ u, Function.update s.pc t q u = .wait ∧ u ∉ l := by
  obtain ⟨u, hu, hl⟩ := h
  refine ⟨u, ?_, hl⟩
  rw [Function.update_of_ne]
  · exact hu
  · rintro rfl
    exact hp hu

-- ============================================================================
-- Outside the mutex
-- ============================================================================

theorem Owned.move {lk : Lock T} {b : Bool} {owner : Option Nat} (ho : Owned lk b s.pc owner)
    (hq : q.locking = (s.pc t).locking) : Owned lk b (Function.update s.pc t q) owner :=
  ⟨ho.push.move hq, ho.field, ho.lock⟩

/-- A thread moves outside the mutex, and changes the mailbox. -/
theorem Inv.outside {m : LockedFifo T} {log : List (Event T)} {order : List T} (h : Inv s)
    (hp : (s.pc t).holds = false) (hpw : (s.pc t).waits = false) (hq : q.holds = false)
    (hqw : q.waits = false) (howned : ∃ owner, Owned m.lock s.mailboxLocked (Function.update s.pc t q) owner)
    (hwf : m.Wf) (hfly : Listed Pc.flies m.flying (Function.update s.pc t q))
    (hfifo : taken log ++ m.items = order) (hnull : ∀ u, .pop u none ∈ log → .pop u none ∈ s.log)
    (hlast : ∀ u, log.getLast? = some (.pop u none) → s.log.getLast? = some (.pop u none)) :
    Inv ({ s with mailbox := m, log := log, order := order }.goto t q) := by
  have hwait : s.pc t ≠ .wait := fun he => by
    rw [he] at hpw
    cases hpw
  refine ⟨h.mutex.move (hq.trans hp.symm), h.waiting.move (hqw.trans hpw.symm), h.sleeps_of_ne hwait,
    h.nodup, h.stopped, fun hn => wait_of_ne hwait (h.notified hn), ?_, howned, hwf, hfly, hfifo,
    fun u hu => h.null u (hnull u hu), fun u hu => h.drained u (hlast u hu)⟩
  refine h.covered.move t (List.Subset.refl _) (fun ha _ hn => absurd ha hn) ?_ ?_
  · intro u hu hway
    have hpc : Function.update s.pc t q u = s.pc u := Function.update_of_ne hu _ _
    show Function.update s.pc t q u = .wait ∧ u ∉ s.asleep ∨ Function.update s.pc t q u = .pop
    rw [hpc]
    exact hway
  · rintro - - (⟨hself, -⟩ | hself)
    · exact absurd hself hwait
    · rw [hself] at hp
      cases hp

theorem Inv.goto (h : Inv s) (hp : s.pc t = .idle) (hq : q.holds = false) (hqw : q.waits = false)
    (hl : q.locking = false) (hf : q.flies = none) : Inv (s.goto t q) := by
  obtain ⟨owner, ho⟩ := h.owned
  exact h.outside (by rw [hp]; rfl) (by rw [hp]; rfl) hq hqw ⟨owner, ho.move (by rw [hl, hp]; rfl)⟩
    h.wf (h.flying.move (by rw [hf, hp]; rfl)) h.fifo (fun _ => id) fun _ => id

section Mailbox

variable [DecidableEq T] {x : T}

theorem prepare_inv (h : Inv s) (hp : s.pc t = .idle) (hx : x ∉ s.mailbox.items) :
    Inv ({ s with mailbox := s.mailbox.prepare x, order := s.order ++ [x] }.goto t (.publish x)) := by
  obtain ⟨owner, ho⟩ := h.owned
  refine h.outside (by rw [hp]; rfl) (by rw [hp]; rfl) rfl rfl
    ⟨owner, ho.push.move (by rw [hp]; rfl), ho.field, ?_⟩ (h.wf.prepare hx) ?_ ?_ (fun _ => id)
    fun _ => id
  · rw [← ho.lock]
    show (if s.mailbox.lock = .free then Lock.promised x else s.mailbox.lock) = .locked ↔ _
    split
    next hfree => simp [hfree]
    next => exact Iff.rfl
  · exact h.flying.add (fun hm => hx (h.wf.flying hm)) (by rw [hp]; rfl) rfl
  · show taken s.log ++ (s.mailbox.items ++ [x]) = s.order ++ [x]
    rw [← List.append_assoc, h.fifo]

theorem publish_inv (h : Inv s) (hp : s.pc t = .publish x)
    (hs : (if (s.mailbox.publish x).2 then
        some ({ s with mailbox := (s.mailbox.publish x).1 }.goto t (.pushLock x))
      else
        some ({ s with
          mailbox := (s.mailbox.publish x).1
          log := s.log ++ [Event.push t x] }.goto t .idle)) = some s') : Inv s' := by
  obtain ⟨owner, ho⟩ := h.owned
  have hfly : ∀ {q : Pc T}, q.flies = none →
      Listed Pc.flies (s.mailbox.publish x).1.flying (Function.update s.pc t q) :=
    fun hq => h.flying.remove (by rw [hp]; rfl) hq
  split at hs <;> cases hs
  next hlocked =>
    have hpromised : s.mailbox.lock = .promised x := by simpa [LockedFifo.publish] using hlocked
    -- Nobody owned the lock before
    have hfree : ¬(s.mailboxLocked = true ∨ owner ≠ none) := by
      rw [← ho.lock, hpromised]
      exact fun he => by cases he
    obtain ⟨hfield, hnone⟩ := not_or.mp hfree
    rw [not_not] at hnone
    have hpush := ho.push
    rw [hnone] at hpush
    refine h.outside (by rw [hp]; rfl) (by rw [hp]; rfl) rfl rfl
      ⟨some t, hpush.lock rfl, fun hf => absurd hf hfield, ?_⟩ h.wf.publish (hfly rfl) h.fifo
      (fun _ => id) fun _ => id
    rw [LockedFifo.publish, if_pos hpromised]
    simp
  next hnot =>
    have hkeep : (s.mailbox.publish x).1.lock = s.mailbox.lock := by
      have hne : s.mailbox.lock ≠ .promised x := by simpa [LockedFifo.publish] using hnot
      rw [LockedFifo.publish, if_neg hne]
    refine h.outside (by rw [hp]; rfl) (by rw [hp]; rfl) rfl rfl
      ⟨owner, ho.push.move (by rw [hp]; rfl), ho.field, by rw [hkeep, ho.lock]⟩ h.wf.publish
      (hfly rfl) ?_ ?_ ?_
    · show taken (s.log ++ [.push t x]) ++ s.mailbox.items = s.order
      rw [taken_concat]
      simpa [Event.taken] using h.fifo
    · intro u hu
      exact (List.mem_append.mp hu).resolve_right fun hm => by simp at hm
    · intro u hu
      rw [List.getLast?_concat] at hu
      cases hu

end Mailbox

/-- The mutex is locked; `b` and `n` are `Notified` and `Waiters`, which a waiter
    changes that is back from `wait`. -/
theorem lock_inv {n : Nat} {b : Bool} (h : Inv s)
    (hs : { s with waiters := n, notified := b }.lock t q = some s') (ht : t ∉ s.asleep)
    (hcount : Counted Pc.waits n (Function.update s.pc t q))
    (hnot : b = true → s.notified = true ∧ s.pc t ≠ .wait)
    (hway : s.OnWay t → q = .pop) (hq : q.holds = true)
    (hl : q.locking = (s.pc t).locking) (hf : q.flies = (s.pc t).flies) : Inv s' := by
  unfold State.lock at hs
  split at hs <;> cases hs
  next hm =>
    obtain ⟨owner, ho⟩ := h.owned
    have hmutex := h.mutex
    have hm' : s.mutex = none := hm
    rw [hm'] at hmutex
    have hother : ∀ u, u ≠ t → Function.update s.pc t q u = s.pc u := fun u hu =>
      Function.update_of_ne hu _ _
    refine ⟨hmutex.lock hq, hcount, fun w hw => ?_, h.nodup, h.stopped, fun hb => ?_, ?_,
      ⟨owner, ho.push.move hl, ho.field, ho.lock⟩, h.wf, h.flying.move hf, h.fifo, h.null,
      h.drained⟩
    · have hne : w ≠ t := fun he => ht (he ▸ hw)
      exact (hother w hne).trans (h.sleeps w hw)
    · obtain ⟨hn, hwait⟩ := hnot hb
      exact wait_of_ne hwait (h.notified hn)
    · refine h.covered.move t (List.Subset.refl _) (fun ha _ hn => absurd ha hn) ?_ ?_
      · rintro u hu (⟨hwait, hout⟩ | hpop)
        · exact .inl ⟨(hother u hu).trans hwait, hout⟩
        · exact .inr ((hother u hu).trans hpop)
      · rintro - - hself
        exact ⟨t, .inr ((Function.update_self ..).trans (hway hself))⟩

-- ============================================================================
-- Under the mutex
-- ============================================================================

/-- The holder of the mutex is the only thread that may look at the mailbox. -/
theorem Inv.onWay_of_holds (h : Inv s) (hp : (s.pc t).holds = true) (hu : u ≠ t)
    (hway : s.OnWay u) : s.pc u = .wait ∧ u ∉ s.asleep := by
  rcases hway with hway | hpop
  · exact hway
  · exact absurd (h.mutex.unique (by rw [hpop]; rfl) hp) hu

/-- A call returns with the fields as they are under the mutex. -/
theorem Inv.ret {m : LockedFifo T} {nf b st : Bool} {l : List Nat} {e : Event T} (h : Inv s)
    (hp : (s.pc t).holds = true) (hl : l ⊆ s.asleep) (hnodup : l.Nodup)
    (hnot : nf = true → ∃ u, s.pc u = .wait ∧ u ∉ l)
    (hcov : b = true → l ≠ [] → ∃ u, s.pc u = .wait ∧ u ∉ l)
    (hst : s.stopped = true → st = true) (hstop : st = true → l = [])
    (howned : ∃ owner, Owned m.lock b (Function.update s.pc t .idle) owner)
    (hwf : m.Wf) (hfly : m.flying = s.mailbox.flying) (hfifo : e.taken ++ m.items = s.mailbox.items)
    (hnull : ∀ u, e = .pop u none → st = true ∧ b = false) :
    Inv ({ s with
      mailbox := m, notified := nf, mailboxLocked := b, stopped := st, asleep := l }.ret t e) := by
  have hwait : s.pc t ≠ .wait := fun he => by
    rw [he] at hp
    cases hp
  have hflies : (s.pc t).flies = none := by
    cases hq : s.pc t <;> rw [hq] at hp <;> first | rfl | cases hp
  have hwaits : Pc.waits (s.pc t) = false := by
    cases hq : s.pc t <;> rw [hq] at hp <;> first | rfl | cases hp
  refine ⟨h.mutex.unlock hp rfl, h.waiting.move hwaits.symm, fun w hw => h.sleeps_of_ne hwait w (hl hw),
    hnodup, hstop, fun hb => wait_of_ne hwait (hnot hb), ?_, howned, hwf, ?_, ?_, ?_, ?_⟩
  · intro hb hne
    obtain ⟨u, hu, hout⟩ := wait_of_ne (q := .idle) hwait (hcov hb hne)
    exact ⟨u, .inl ⟨hu, hout⟩⟩
  · show Listed Pc.flies m.flying (Function.update s.pc t .idle)
    rw [hfly]
    exact h.flying.move hflies.symm
  · show taken (s.log ++ [e]) ++ m.items = s.order
    rw [taken_concat, List.append_assoc, hfifo]
    exact h.fifo
  · intro u hu
    rcases List.mem_append.mp hu with hu | hu
    · exact hst (h.null u hu)
    · exact (hnull u (List.mem_singleton.mp hu).symm).1
  · intro u hu
    have hlast : (s.log ++ [e]).getLast? = some (.pop u none) := hu
    rw [List.getLast?_concat] at hlast
    exact (hnull u (Option.some.inj hlast)).2

/-- A call notifies a waiter, if there is one and none is on its way, and returns. -/
theorem notifyRet_inv {m : LockedFifo T} {b : Bool} {w : Option Nat} {e : Event T} (h : Inv s)
    (hs : { s with mailbox := m, mailboxLocked := b }.notifyRet w t e = some s')
    (hp : (s.pc t).holds = true)
    (howned : ∃ owner, Owned m.lock b (Function.update s.pc t .idle) owner)
    (hwf : m.Wf) (hfly : m.flying = s.mailbox.flying) (hfifo : e.taken ++ m.items = s.mailbox.items)
    (hnull : ∀ u, e ≠ .pop u none) : Inv s' := by
  unfold State.notifyRet at hs
  split at hs
  next hc =>
    obtain ⟨hpos, -⟩ := hc
    obtain ⟨l, hl, rfl⟩ := Option.map_eq_some_iff.mp hs
    have hl' : notifyOne s.asleep w = some l := hl
    -- The waiter that was woken, or any waiter if nobody sleeps
    have hawake : ∃ u, s.pc u = .wait ∧ u ∉ l := by
      by_cases hnil : l = []
      · obtain ⟨k, -, hmem, hlen⟩ := h.waiting.exists_others []
        have hne : k ≠ [] := by
          rintro rfl
          have hpos' : 0 < s.waiters := hpos
          simp only [List.length_nil] at hlen
          omega
        obtain ⟨u, hu⟩ := List.exists_mem_of_ne_nil k hne
        have hwaits := (hmem u hu).1
        refine ⟨u, ?_, by simp [hnil]⟩
        cases hq : s.pc u <;> rw [hq] at hwaits <;> first | rfl | cases hwaits
      · obtain ⟨u, hu, hout⟩ := exists_woken hl' h.nodup hnil
        exact ⟨u, h.sleeps u hu, hout⟩
    refine h.ret hp (notifyOne_subset hl') (notifyOne_nodup hl' h.nodup) (fun _ => hawake)
      (fun _ _ => hawake) id (fun hstop => ?_) howned hwf hfly hfifo
      fun u he => absurd he (hnull u)
    have hsub := notifyOne_subset hl'
    rw [h.stopped hstop] at hsub
    exact List.subset_nil.mp hsub
  next hc =>
    cases hs
    refine h.ret hp (List.Subset.refl _) h.nodup h.notified (fun _ hne => ?_) id h.stopped howned
      hwf hfly hfifo fun u he => absurd he (hnull u)
    -- Somebody sleeps, so some waiter was notified before
    obtain ⟨v, hv⟩ := List.exists_mem_of_ne_nil _ hne
    have hpos : 0 < s.waiters := by
      have hle := h.waiting.length_le h.nodup fun v hv => by rw [h.sleeps v hv]; rfl
      have hlen := List.length_pos_of_mem hv
      omega
    refine h.notified ?_
    by_contra hn
    exact hc ⟨hpos, by simpa using hn⟩

-- ============================================================================
-- Every step
-- ============================================================================

/-- The thread finds nothing to pop, and falls asleep. -/
theorem Inv.sleep (h : Inv s) (hp : s.pc t = .pop) (hfield : ¬s.mailboxLocked = true)
    (hopen : ¬s.stopped = true) : Inv ({ s with waiters := s.waiters + 1 }.sleep t) := by
  obtain ⟨owner, ho⟩ := h.owned
  have hout : t ∉ s.asleep := fun ht => by
    have hwait := h.sleeps t ht
    rw [hp] at hwait
    cases hwait
  refine ⟨h.mutex.unlock (by rw [hp]; rfl) rfl, h.waiting.enter (by rw [hp]; rfl) rfl, ?_,
    List.nodup_cons.mpr ⟨hout, h.nodup⟩, fun hstop => absurd hstop hopen, ?_, .off hfield,
    ⟨owner, ho.move (by rw [hp]; rfl)⟩, h.wf, h.flying.move (by rw [hp]; rfl), h.fifo, h.null,
    h.drained⟩
  · intro w hw
    show Function.update s.pc t .wait w = .wait
    by_cases hwt : w = t
    · rw [hwt, Function.update_self]
    · rw [Function.update_of_ne hwt]
      exact h.sleeps w (List.mem_of_ne_of_mem hwt hw)
  · intro hn
    obtain ⟨u, hu, hl⟩ := h.notified hn
    have hut : u ≠ t := by
      rintro rfl
      rw [hp] at hu
      cases hu
    refine ⟨u, (Function.update_of_ne hut _ _).trans hu, fun hm => ?_⟩
    exact hl (List.mem_of_ne_of_mem hut hm)

section Steps

variable [DecidableEq T] {m : LockedFifo T} {k : PopChoice T} {w : Option Nat} {x : T}

omit [DecidableEq T] in
theorem push_inv (h : Inv s) (hp : s.pc t = .push x)
    (hs : { s with mailboxLocked := true }.notifyRet w t (.push t x) = some s') : Inv s' := by
  obtain ⟨owner, ho⟩ := h.owned
  have hown := (ho.push t).mpr (by rw [hp]; rfl)
  refine notifyRet_inv h hs (by rw [hp]; rfl)
    ⟨none, ho.push.unlock (by rw [hp]; rfl) rfl, fun _ => rfl, ?_⟩ h.wf rfl rfl (by simp)
  rw [ho.lock, hown]
  simp

omit [DecidableEq T] in
/-- What a pop of the mailbox means for its lock. -/
theorem Inv.locked (h : Inv s) (hfield : s.mailboxLocked = true) :
    s.mailbox.lock = .locked ∧ Holds Pc.locking none s.pc := by
  obtain ⟨owner, ho⟩ := h.owned
  have hpush := ho.push
  rw [ho.field hfield] at hpush
  exact ⟨ho.lock.mpr (.inl hfield), hpush⟩

/-- An item is popped, and a waiter notified for the next one. -/
theorem popItem_inv {e : Event T} (h : Inv s) (hp : (s.pc t).holds = true)
    (hpush : (s.pc t).locking = false) (hfield : s.mailboxLocked = true)
    (hpop : s.mailbox.pop k = some (m, some x))
    (hs : { s with mailbox := m }.notifyRet w t e = some s')
    (he : e = .pop t (some x) ∨ e = .tryPop t (some x)) : Inv s' := by
  obtain ⟨hlock, hnobody⟩ := h.locked hfield
  rcases LockedFifo.pop_cases hpop with ⟨r, rest, hr, hi, -, rfl⟩ | ⟨hr, -⟩
  · cases hr
    refine notifyRet_inv h hs hp ⟨none, hnobody.move hpush.symm, fun _ => rfl, ?_⟩
      (h.wf.pop hlock hpop) rfl ?_ ?_
    · exact iff_of_true hlock (.inl hfield)
    · rw [hi]
      rcases he with rfl | rfl <;> rfl
    · rcases he with rfl | rfl <;> simp
  · cases hr

/-- Nothing is popped, and the mailbox is unlocked. -/
theorem popNull_inv (h : Inv s) (hp : s.pc t = .pop) (hfield : s.mailboxLocked = true)
    (hpop : s.mailbox.pop k = some (m, none)) :
    (s.stopped = true → Inv ({ s with mailbox := m, mailboxLocked := false }.ret t (.pop t none))) ∧
      Inv ({ s with mailbox := m, mailboxLocked := false }.goto t .pop) := by
  obtain ⟨hlock, hnobody⟩ := h.locked hfield
  have hwf := h.wf.pop hlock hpop
  rcases LockedFifo.pop_cases hpop with ⟨r, rest, hr, -⟩ | ⟨-, l, hl, rfl⟩
  · cases hr
  · have howned : ∀ q : Pc T, q.locking = false → Owned l false (Function.update s.pc t q) none :=
      fun q hq => ⟨hnobody.move (by rw [hq, hp]; rfl), fun hf => absurd hf Bool.false_ne_true,
        iff_of_false hl (by simp)⟩
    refine ⟨fun hstop => ?_, ?_⟩
    · exact h.ret (by rw [hp]; rfl) (List.Subset.refl _) h.nodup h.notified
        (fun hf => by cases hf) id h.stopped ⟨none, howned _ rfl⟩ hwf rfl rfl fun _ _ => ⟨hstop, rfl⟩
    · have hpc : s.pc t ≠ .wait := by simp [hp]
      refine ⟨h.mutex.move (by rw [hp]), h.waiting.move (by rw [hp]), h.sleeps_of_ne hpc, h.nodup,
        h.stopped, fun hn => wait_of_ne hpc (h.notified hn), .off (by simp [State.goto]),
        ⟨none, howned _ rfl⟩, hwf, h.flying.move (by rw [hp]), h.fifo, h.null, fun _ _ => rfl⟩

omit [DecidableEq T] in
/-- A call returns and left everything as it was. -/
theorem Inv.unchanged {e : Event T} (h : Inv s) (hp : s.pc t = .pop ∨ s.pc t = .tryPop)
    (he : e.taken = []) (hway : s.mailboxLocked = true → s.pc t ≠ .pop)
    (hnull : ∀ u, e = .pop u none → s.stopped = true ∧ s.mailboxLocked = false) :
    Inv (s.ret t e) := by
  obtain ⟨owner, ho⟩ := h.owned
  have hholds : (s.pc t).holds = true := by rcases hp with hp | hp <;> rw [hp] <;> rfl
  refine h.ret hholds (List.Subset.refl _) h.nodup h.notified (fun hf hne => ?_) id h.stopped
    ⟨owner, ho.move (by rcases hp with hp | hp <;> rw [hp] <;> rfl)⟩ h.wf rfl (by rw [he]; rfl) hnull
  obtain ⟨u, hu⟩ := h.covered hf hne
  have hut : u ≠ t := by
    rintro rfl
    rcases hu with ⟨hwait, -⟩ | hpop
    · rcases hp with hp | hp <;> rw [hp] at hwait <;> cases hwait
    · exact hway hf hpop
  exact ⟨u, h.onWay_of_holds hholds hut hu⟩

theorem stepThread_inv (h : Inv s) (hs : stepThread s t k w = some s') : Inv s' := by
  have hout : s.pc t ≠ .wait → t ∉ s.asleep := fun hp ht => hp (h.sleeps t ht)
  cases hp : s.pc t <;> simp only [stepThread, hp] at hs <;> rw [hp] at hout
  case idle => cases hs
  case publish x => exact publish_inv h hp hs
  case pushLock | popLock | tryLock | shutdownLock =>
      refine lock_inv (n := s.waiters) (b := s.notified) h hs (hout (by simp))
        (h.waiting.move (by rw [hp]; rfl)) (fun hn => ⟨hn, by simp [hp]⟩) ?_ rfl (by rw [hp]; rfl)
        (by rw [hp]; rfl)
      rintro (⟨hwait, -⟩ | hpop)
      · simp [hp] at hwait
      · simp [hp] at hpop
  case push x => exact push_inv h hp hs
  case pop =>
      split at hs
      next hfield =>
        split at hs
        next m x hpop =>
          exact popItem_inv h (by rw [hp]; rfl) (by rw [hp]; rfl) hfield hpop hs (.inl rfl)
        next m hpop =>
          obtain ⟨hret, hloop⟩ := popNull_inv h hp hfield hpop
          split at hs <;> cases hs
          next hstop => exact hret hstop
          next => exact hloop
        next => cases hs
      next hfield =>
        split at hs <;> cases hs
        next hstop =>
          exact h.unchanged (.inl hp) rfl (fun hf => absurd hf hfield)
            fun _ _ => ⟨hstop, by simpa using hfield⟩
        next hopen => exact h.sleep hp hfield hopen
  case wait =>
      split at hs
      · cases hs
      next hawake =>
        exact lock_inv h hs hawake (h.waiting.leave (by rw [hp]; rfl) rfl) (fun hn => by cases hn)
          (fun _ => rfl) rfl (by rw [hp]; rfl) (by rw [hp]; rfl)
  case tryPop =>
      have hnull : Inv (s.ret t (.tryPop t none)) :=
        h.unchanged (.inr hp) rfl (fun _ => by simp [hp]) (by simp)
      split at hs
      next hfield =>
        split at hs
        · split at hs
          next m x hpop =>
            exact popItem_inv h (by rw [hp]; rfl) (by rw [hp]; rfl) hfield hpop hs (.inr rfl)
          next => cases hs
        · cases hs
          exact hnull
      next =>
        cases hs
        exact hnull
  case shutdown =>
      cases hs
      obtain ⟨owner, ho⟩ := h.owned
      exact h.ret (by rw [hp]; rfl) (List.nil_subset _) List.nodup_nil
        (fun hn => by
          obtain ⟨u, hu, -⟩ := h.notified hn
          exact ⟨u, hu, List.not_mem_nil⟩)
        (fun _ hne => absurd rfl hne) (fun _ => rfl) (fun _ => rfl)
        ⟨owner, ho.move (by rw [hp]; rfl)⟩ h.wf rfl rfl (by simp)

theorem step_inv {a : Act T} (h : Inv s) (hs : (queue T).step s a = some s') : Inv s' := by
  cases a with
  | step t k w => exact stepThread_inv h hs
  | push t x =>
      simp only [queue] at hs
      split at hs <;> cases hs
      next hc => exact prepare_inv h hc.1 hc.2
  | pop t | tryPop t | shutdown t =>
      simp only [queue] at hs
      split at hs <;> cases hs
      next hp => exact h.goto hp rfl rfl rfl rfl
  | spurious w =>
      simp only [queue] at hs
      split at hs <;> cases hs
      next hw =>
        have hawake : ∃ t, s.pc t = .wait ∧ t ∉ s.asleep.erase w :=
          ⟨w, h.sleeps w hw, h.nodup.not_mem_erase⟩
        refine ⟨h.mutex, h.waiting, fun v hv => h.sleeps v (List.mem_of_mem_erase hv),
          h.nodup.erase w, fun hstop => ?_, fun _ => hawake, fun _ _ => ?_, h.owned, h.wf, h.flying,
          h.fifo, h.null, h.drained⟩
        · rw [h.stopped hstop] at hw
          cases hw
        · obtain ⟨u, hu, hl⟩ := hawake
          exact ⟨u, .inl ⟨hu, hl⟩⟩

theorem reachable_inv (hr : (queue T).Reachable s) : Inv s := by
  refine hr.invariant ?_ fun _ _ _ hi _ hs => step_inv hi hs
  rintro _ rfl
  refine ⟨fun t => by simp [State.start, Pc.holds],
    ⟨[], List.nodup_nil, fun t => by simp [State.start, Pc.waits], rfl⟩, by simp [State.start],
    List.nodup_nil, fun _ => rfl, by simp [State.start], .awake rfl, ⟨none, ?_, fun _ => rfl, ?_⟩,
    .empty, ⟨List.nodup_nil, fun x => ?_, by simp [State.start, Pc.flies]⟩, rfl,
    by simp [State.start], fun _ _ => rfl⟩
  · exact fun t => by simp [State.start, Pc.locking]
  · simp [State.start, LockedFifo.empty]
  · simp [State.start, LockedFifo.empty, Pc.flies]

omit [DecidableEq T] in
/-- With nobody in a call but sleepers, and the field not set, everything is taken. -/
theorem Inv.taken_all (h : Inv s) (hrest : ∀ t, s.pc t = .idle ∨ s.pc t = .wait)
    (hfield : s.mailboxLocked = false) : taken s.log = s.order := by
  obtain ⟨owner, ho⟩ := h.owned
  have hnone : owner = none := by
    cases hown : owner with
    | none => rfl
    | some t =>
        have hlocking := (ho.push t).mp hown
        rcases hrest t with hp | hp <;> rw [hp] at hlocking <;> cases hlocking
  have hfree : s.mailbox.lock = .free := by
    cases hl : s.mailbox.lock with
    | free => rfl
    | locked =>
        rcases ho.lock.mp hl with hf | hne
        · rw [hfield] at hf
          cases hf
        · exact absurd hnone hne
    | promised x =>
        obtain ⟨t, ht⟩ := (h.flying.mem x).mp (h.wf.promised x hl)
        rcases hrest t with hp | hp <;> rw [hp] at ht <;> cases ht
  have hfifo := h.fifo
  rwa [h.wf.free hfree, List.append_nil] at hfifo

/-- In every run the items that were taken are the first of those that were
    pushed, each taken once, and the others are in the mailbox.  Whoever sees
    `MailboxLocked` under the mutex owns the mailbox, and no push does; and at
    most one push does.  While the field is set and a consumer sleeps, a waiter
    is awake or a consumer is about to look at the mailbox; hence with everybody
    at rest and a sleeper everything that was pushed is taken.  After `shutdown`
    nobody sleeps; `pop` returns nothing only after `shutdown`, and when that was
    the last call to return and no other is under way, everything is taken. -/
theorem stdMailbox_queue :
    (∀ s : State T, (queue T).Reachable s → taken s.log ++ s.mailbox.items = s.order) ∧
    (∀ s : State T, (queue T).Reachable s →
      (s.mailboxLocked = true → s.mailbox.lock = .locked ∧ ∀ t, (s.pc t).locking = false) ∧
      ∀ t, (s.pc t).locking = true → s.mailbox.lock = .locked ∧
        ∀ u, (s.pc u).locking = true → u = t) ∧
    (∀ s : State T, (queue T).Reachable s → s.asleep ≠ [] →
      s.stopped = false ∧ (s.mailboxLocked = true → ∃ t, s.OnWay t) ∧
      ((∀ t, s.pc t = .idle ∨ t ∈ s.asleep) → taken s.log = s.order)) ∧
    (∀ s : State T, (queue T).Reachable s → ∀ t,
      (.pop t none ∈ s.log → s.stopped = true) ∧
      (s.log.getLast? = some (.pop t none) → (∀ u, s.pc u = .idle) → taken s.log = s.order)) := by
  refine ⟨fun s hr => (reachable_inv hr).fifo, ?_, ?_, ?_⟩
  · intro s hr
    obtain ⟨owner, ho⟩ := (reachable_inv hr).owned
    refine ⟨fun hfield => ⟨ho.lock.mpr (.inl hfield), fun t => ?_⟩, fun t ht => ⟨?_, fun u hu => ?_⟩⟩
    · by_contra ht
      have hown := (ho.push t).mpr (by simpa using ht)
      rw [ho.field hfield] at hown
      cases hown
    · refine ho.lock.mpr (.inr ?_)
      rw [(ho.push t).mpr ht]
      exact Option.some_ne_none t
    · exact ho.push.unique hu ht
  · intro s hr hne
    have h := reachable_inv hr
    refine ⟨?_, fun hfield => h.covered hfield hne, fun hrest => ?_⟩
    · by_contra hstop
      exact hne (h.stopped (by simpa using hstop))
    · refine h.taken_all (fun t => (hrest t).imp_right (h.sleeps t)) ?_
      by_contra hfield
      obtain ⟨t, ⟨hwait, hout⟩ | hpop⟩ := h.covered (by simpa using hfield) hne
      · rcases hrest t with hp | hp
        · rw [hwait] at hp
          cases hp
        · exact hout hp
      · rcases hrest t with hp | hp
        · rw [hpop] at hp
          cases hp
        · rw [h.sleeps t hp] at hpop
          cases hpop
  · intro s hr t
    have h := reachable_inv hr
    exact ⟨h.null t, fun hlast hidle => h.taken_all (fun u => .inl (hidle u)) (h.drained t hlast)⟩

end Steps

end Inv

end Coroactors.BlockingQueue.StdMailbox
