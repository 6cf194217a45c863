/-
  Coroactors.Mailbox.Refines

  `intrusive_mailbox` (coroactors/detail/intrusive_mailbox.h) does what the
  locked FIFO queue of Coroactors.Conc.LockedFifo does.

  The items are the nodes of the list without the stub; a push is in flight
  between its two exchanges.  Most steps of the mailbox are not seen: the
  exchange on `tail_` is `prepare`, the exchange on `prev->next` is `publish`,
  the advance of `head_` is a pop of the first item, and a store of
  `MarkerUnlocked` is a pop of nothing, which frees the lock or promises it to
  the push that is in flight at the head.  `try_pop` that finds nothing, `peek`
  and `try_unlock` that returns false change nothing; `try_lock` takes the lock,
  also from the push that it was promised to.
-/

import Coroactors.Conc.LockedFifo
import Coroactors.Mailbox.Calls

namespace Coroactors.Mailbox

open Coroactors.Conc

variable {N : Type*} {s s' : State N} {t : Nat} {n : N}

-- ============================================================================
-- The abstract queue
-- ============================================================================

def Ptr.item : Ptr N → Option N
  | .stub => none
  | .node n => some n

/-- The items, oldest first. -/
def State.items (s : State N) : List N := s.chain.filterMap Ptr.item

/-- The node of a push between its two exchanges. -/
def Pc.flies : Pc N → Option N
  | .publish _ n => some n
  | _ => none

/-- The lock of an unlocked mailbox, by what comes after the head. -/
def lockOf : List (Ptr N) → Lock N
  | .node n :: _ => .promised n
  | _ => .free

def State.lock (s : State N) : Lock N :=
  if s.owners = [] then lockOf s.chain.tail else .locked

/-- The return as the abstract queue has it; to unlock is to pop nothing. -/
def Event.ret : Event N → Option (FifoRet N)
  | .push _ n b => some (.push n b)
  | .pop _ (some p) | .tryPop _ (some p) => p.item.map fun n => .pop (some n)
  | .pop _ none | .tryUnlock _ true => some (.pop none)
  | _ => none

structure Abs (s : State N) (m : LockedFifo N × List (FifoRet N)) : Prop where
  items : m.1.items = s.items
  flying : ∀ n, n ∈ m.1.flying ↔ ∃ t, (s.pc t).flies = some n
  nodup : m.1.flying.Nodup
  lock : m.1.lock = s.lock
  returned : m.2 = s.log.filterMap Event.ret

section Steps

variable [DecidableEq N] {m : LockedFifo N × List (FifoRet N)} {op : Op} {q : Pc N}

/-- The step is one of the abstract queue, or is not seen. -/
def Matched (s' : State N) (m : LockedFifo N × List (FifoRet N)) : Prop :=
  Abs s' m ∨ ∃ a m', (LockedFifo.queue N).step m a = some m' ∧ Abs s' m'

omit [DecidableEq N] in
theorem State.lock_of_owned (h : t ∈ s.owners) : s.lock = .locked :=
  if_neg (List.ne_nil_of_mem h)

omit [DecidableEq N] in
/-- What is in flight after a thread moved. -/
theorem exists_flies_update {pc : Nat → Pc N} :
    (∃ u, (Function.update pc t q u).flies = some n) ↔
      q.flies = some n ∨ ∃ u, u ≠ t ∧ (pc u).flies = some n := by
  constructor
  · rintro ⟨u, h⟩
    by_cases hu : u = t
    · rw [hu, Function.update_self] at h
      exact .inl h
    · rw [Function.update_of_ne hu] at h
      exact .inr ⟨u, hu, h⟩
  · rintro (h | ⟨u, hu, h⟩)
    · exact ⟨t, by rwa [Function.update_self]⟩
    · exact ⟨u, by rwa [Function.update_of_ne hu]⟩

omit [DecidableEq N] in
/-- A thread that has no push in flight moves, and has none afterwards. -/
theorem flies_update (hp : (s.pc t).flies = none) (hq : q.flies = none) :
    (∃ u, (Function.update s.pc t q u).flies = some n) ↔ ∃ u, (s.pc u).flies = some n := by
  rw [exists_flies_update, hq]
  constructor
  · rintro (h | ⟨u, -, h⟩)
    · cases h
    · exact ⟨u, h⟩
  · rintro ⟨u, h⟩
    refine .inr ⟨u, ?_, h⟩
    rintro rfl
    rw [hp] at h
    cases h

-- ============================================================================
-- Steps that are not seen
-- ============================================================================

omit [DecidableEq N] in
/-- Thread `t` moves from `s` to `s'`, which the abstract queue does not see. -/
theorem Abs.quiet (h : Abs s m) (hpc : s'.pc = Function.update s.pc t q)
    (hp : (s.pc t).flies = none) (hq : q.flies = none) (hi : s'.items = s.items)
    (hl : s'.lock = s.lock) (hr : s'.log.filterMap Event.ret = s.log.filterMap Event.ret) :
    Abs s' m := by
  refine ⟨by rw [hi, h.items], fun n => ?_, h.nodup, by rw [hl, h.lock], by rw [hr, h.returned]⟩
  rw [hpc, flies_update hp hq]
  exact h.flying n

omit [DecidableEq N] in
theorem Abs.goto (h : Abs s m) (hp : (s.pc t).flies = none) (hq : q.flies = none) :
    Abs (s.goto t q) m :=
  h.quiet rfl hp hq rfl rfl rfl

omit [DecidableEq N] in
/-- A call returns, and the abstract queue does not see it. -/
theorem Abs.ret {e : Event N} (h : Abs s m) (hp : (s.pc t).flies = none)
    (ho : e.owners s.owners = s.owners) (he : e.ret = none) : Abs (s.ret t e) m := by
  refine h.quiet (q := .idle) rfl hp rfl rfl ?_ ?_
  · show (if e.owners s.owners = [] then _ else _) = _
    rw [ho]
    rfl
  · show (s.log ++ [e]).filterMap Event.ret = _
    simp [he]

omit [DecidableEq N] in
theorem Abs.retNone (h : Abs s m) (hp : (s.pc t).flies = none) (hop : op.unlock = false) :
    Abs (s.retNone t op) m := by
  cases op with
  | tryPop => exact h.ret hp rfl rfl
  | peek => exact h.ret hp rfl rfl
  | pop | tryUnlock => cases hop

omit [DecidableEq N] in
theorem Abs.removeStub {w : Word N} (h : Abs s m) (hp : (s.pc t).flies = none) :
    Abs (s.removeStub t op w) m := by
  cases w with
  | ptr p => exact h.goto hp rfl
  | null | unlocked => exact h.quiet (q := .crashed) rfl hp rfl rfl rfl rfl

omit [DecidableEq N] in
theorem Abs.blocked {a : Ptr N} (h : Abs s m) (hp : (s.pc t).flies = none) :
    Abs (s.blocked t op a) m := by
  unfold State.blocked
  split
  · exact h.goto hp rfl
  next hop => exact h.retNone hp (by simpa using hop)

-- ============================================================================
-- Pushes
-- ============================================================================

omit [DecidableEq N] in
/-- A link that is missing at the head is that of a push, if no owner is about
    to link the stub. -/
theorem Inv.next_of_missing {b : Ptr N} (hi : Inv s) (hadj : Adj s.chain s.head b)
    (hn : (s.next s.head).isPtr = false) (hl : ∀ u op, s.pc u ≠ .linkStub op s.head) :
    ∃ u n, b = .node n ∧ s.pc u = .publish s.head n := by
  rcases hi.link _ _ hadj with h | ⟨-, ⟨u, n, hb, hu⟩ | ⟨-, u, op, hu⟩⟩
  · rw [h] at hn
    cases hn
  · exact ⟨u, n, hb, hu⟩
  · exact absurd hu (hl u op)

omit [DecidableEq N] in
/-- What comes after the head of an unlocked mailbox. -/
theorem Inv.tail_of_unowned (hi : Inv s) (ho : s.owners = []) :
    s.chain.tail = [] ∨ ∃ n l u, s.chain.tail = .node n :: l ∧ s.pc u = .publish s.head n := by
  obtain ⟨l, hc⟩ := hi.chain_eq
  cases l with
  | nil => exact .inl (by rw [hc]; rfl)
  | cons b l =>
      have hl : ∀ u op, s.pc u ≠ .linkStub op s.head := by
        intro u op hu
        have hok := hi.pc u
        rw [hu] at hok
        have hmem : u ∈ s.owners := hok.1
        rw [ho] at hmem
        cases hmem
      have hadj : Adj s.chain s.head b := by
        rw [hc]
        exact .inl ⟨rfl, rfl⟩
      obtain ⟨u, n, rfl, hu⟩ := hi.next_of_missing hadj (by rw [hi.locked.mp ho]; rfl) hl
      exact .inr ⟨n, l, u, by rw [hc]; rfl, hu⟩

/-- The exchange on `tail_` gives the item its place. -/
theorem Abs.xchg (h : Abs s m) (hi : Inv s) (hp : s.pc t = .pushXchg n) :
    ∃ m', (LockedFifo.queue N).step m (.prepare n) = some m' ∧
      Abs { (s.goto t (.publish s.tail n)) with
        tail := .node n
        order := s.order ++ [n]
        chain := s.chain ++ [.node n] } m' := by
  have hok := hi.pc t
  rw [hp] at hok
  obtain ⟨hout, -⟩ := hok
  have hitems : n ∉ m.1.items := by
    rw [h.items, State.items]
    intro hmem
    obtain ⟨p, hmem, hpn⟩ := List.mem_filterMap.mp hmem
    cases p with
    | stub => cases hpn
    | node k =>
        cases hpn
        exact hout hmem
  have hfly : n ∉ m.1.flying := by
    intro hmem
    obtain ⟨u, hu⟩ := (h.flying n).mp hmem
    have hoku := hi.pc u
    cases hq : s.pc u <;> rw [hq] at hu hoku <;> cases hu
    exact hout hoku.1.mem_right
  refine ⟨(m.1.prepare n, m.2), by simp [LockedFifo.queue, hitems], ?_⟩
  constructor
  case items =>
      show m.1.items ++ [n] = (s.chain ++ [Ptr.node n]).filterMap Ptr.item
      rw [List.filterMap_append, h.items]
      rfl
  case flying =>
      intro k
      have hnone : ∀ u, (s.pc u).flies = some k → u ≠ t := by
        rintro u hu rfl
        rw [hp] at hu
        cases hu
      show k ∈ n :: m.1.flying ↔ ∃ u, (Function.update s.pc t (.publish s.tail n) u).flies = some k
      rw [exists_flies_update, List.mem_cons, h.flying]
      constructor
      · rintro (rfl | ⟨u, hu⟩)
        · exact .inl rfl
        · exact .inr ⟨u, hnone u hu, hu⟩
      · rintro (hk | ⟨u, -, hu⟩)
        · exact .inl (Option.some.inj hk).symm
        · exact .inr ⟨u, hu⟩
  case nodup => exact List.nodup_cons.mpr ⟨hfly, h.nodup⟩
  case returned => exact h.returned
  case lock =>
      have htail : (s.chain ++ [Ptr.node n]).tail = s.chain.tail ++ [Ptr.node n] :=
        List.tail_append_of_ne_nil (List.ne_nil_of_mem hi.head_mem)
      show (if m.1.lock = .free then Lock.promised n else m.1.lock) =
        if s.owners = [] then _ else _
      rw [h.lock, State.lock]
      by_cases ho : s.owners = []
      · rw [if_pos ho, if_pos ho]
        show _ = lockOf (s.chain ++ [Ptr.node n]).tail
        rw [htail]
        rcases hi.tail_of_unowned ho with hnil | ⟨k, l, u, hcons, -⟩
        · rw [hnil]
          rfl
        · rw [hcons]
          rfl
      · rw [if_neg ho, if_neg ho]
        rfl

/-- The exchange on `prev->next` finishes the push. -/
theorem Abs.publish {a : Ptr N} {b : Bool} (h : Abs s m) (hi : Inv s)
    (hp : s.pc t = .publish a n) :
    ∃ m', (LockedFifo.queue N).step m (.publish n) = some m' ∧
      Abs (((s.assert b).setNext a (.ptr (.node n))).ret t (.push t n (s.next a = .unlocked))) m' := by
  have hok := hi.pc t
  rw [hp] at hok
  obtain ⟨hadj, -⟩ := hok
  have hfly : n ∈ m.1.flying := (h.flying n).mpr ⟨t, by rw [hp]; rfl⟩
  -- The lock is promised to this push exactly if it finds the marker
  have hlock : m.1.lock = .promised n ↔ s.next a = .unlocked := by
    rw [h.lock]
    constructor
    · intro hl
      have ho : s.owners = [] := by
        by_contra ho
        rw [State.lock, if_neg ho] at hl
        cases hl
      rcases hi.tail_of_unowned ho with hnil | ⟨k, l, u, hcons, hu⟩
      · rw [State.lock, if_pos ho, hnil] at hl
        cases hl
      · rw [State.lock, if_pos ho, hcons] at hl
        cases hl
        have hoku := hi.pc u
        rw [hu] at hoku
        rw [hadj.left_unique hi.nodup hoku.1]
        exact hi.locked.mp ho
    · intro hu
      obtain rfl := hi.marker a hadj.mem_left hu
      have ho := hi.locked.mpr hu
      rcases hi.tail_of_unowned ho with hnil | ⟨k, l, u, hcons, hu'⟩
      · have hmem := hadj.mem_right_tail
        rw [hnil] at hmem
        cases hmem
      · have hoku := hi.pc u
        rw [hu'] at hoku
        have hkn := hoku.1.right_unique hi.nodup hadj
        cases hkn
        rw [State.lock, if_pos ho, hcons]
        rfl
  refine ⟨((m.1.publish n).1, m.2 ++ [.push n (m.1.publish n).2]),
    by simp [LockedFifo.queue, hfly], ?_⟩
  constructor
  case items => exact h.items
  case nodup => exact h.nodup.erase _
  case returned =>
      show m.2 ++ [FifoRet.push n (decide (m.1.lock = .promised n))] =
        (s.log ++ [Event.push t n (s.next a = .unlocked)]).filterMap Event.ret
      rw [List.filterMap_append, h.returned]
      simp [Event.ret, hlock]
  case flying =>
      intro k
      show k ∈ m.1.flying.erase n ↔ ∃ u, (Function.update s.pc t .idle u).flies = some k
      rw [h.nodup.mem_erase_iff, h.flying, exists_flies_update]
      constructor
      · rintro ⟨hk, u, hu⟩
        refine .inr ⟨u, ?_, hu⟩
        rintro rfl
        rw [hp] at hu
        exact hk (Option.some.inj hu).symm
      · rintro (hk | ⟨u, hut, hu⟩)
        · cases hk
        · refine ⟨?_, u, hu⟩
          rintro rfl
          refine hut (hi.pushers.once u t k ?_ (by rw [hp]; rfl))
          cases hq : s.pc u <;> rw [hq] at hu <;> cases hu
          rfl
  case lock =>
      show (if m.1.lock = .promised n then Lock.locked else m.1.lock) =
        if (Event.push t n (s.next a = .unlocked)).owners s.owners = [] then _ else _
      by_cases hu : s.next a = .unlocked
      · rw [if_pos (hlock.mpr hu)]
        simp [Event.owners, hu]
      · rw [if_neg (mt hlock.mp hu), h.lock]
        simp only [hu, decide_false, Event.owners]
        rfl

-- ============================================================================
-- Pops
-- ============================================================================

/-- The head is advanced: the first item is popped. -/
theorem Abs.takes {p : Ptr N} {e : Event N} {nx : Ptr N → Word N} {f : N → Bool} (h : Abs s m)
    (hi : Inv s) (ht : t ∈ s.owners) (hpc : (s.pc t).flies = none) (hns : s.head ≠ .stub)
    (he : e = .pop t (some s.head) ∨ e = .tryPop t (some s.head)) :
    ∃ m', (LockedFifo.queue N).step m (.pop .item) = some m' ∧
      Abs ({ s with next := nx, head := p, chain := s.chain.tail, busy := f }.ret t e) m' := by
  obtain ⟨l, hc⟩ := hi.chain_eq
  obtain ⟨n, hn⟩ : ∃ n, s.head = .node n := by
    cases hh : s.head with
    | stub => exact absurd hh hns
    | node n => exact ⟨n, rfl⟩
  have hitems : m.1.items = n :: l.filterMap Ptr.item := by
    rw [h.items, State.items, hc, hn]
    rfl
  have hfly : n ∉ m.1.flying := by
    intro hmem
    obtain ⟨u, hu⟩ := (h.flying n).mp hmem
    refine hi.pushing_ne_head (u := u) (n := n) ?_ hn
    cases hq : s.pc u <;> rw [hq] at hu <;> cases hu
    rfl
  have hlocked : m.1.lock = .locked := h.lock.trans (State.lock_of_owned ht)
  refine ⟨({ m.1 with items := l.filterMap Ptr.item }, m.2 ++ [.pop (some n)]), ?_, ?_⟩
  · simp only [LockedFifo.queue, hlocked, LockedFifo.pop, hitems, if_neg hfly]
    rfl
  have howners : e.owners s.owners = s.owners := by rcases he with rfl | rfl <;> rfl
  have hret : e.ret = some (.pop (some n)) := by
    rcases he with rfl | rfl <;> rw [hn] <;> rfl
  constructor
  case items =>
      show l.filterMap Ptr.item = s.chain.tail.filterMap Ptr.item
      rw [hc]
      rfl
  case flying =>
      intro k
      show k ∈ m.1.flying ↔ ∃ u, (Function.update s.pc t .idle u).flies = some k
      rw [flies_update hpc rfl]
      exact h.flying k
  case nodup => exact h.nodup
  case lock =>
      show m.1.lock = if e.owners s.owners = [] then _ else _
      rw [howners, if_neg (List.ne_nil_of_mem ht), hlocked]
  case returned =>
      show m.2 ++ [_] = (s.log ++ [e]).filterMap Event.ret
      rw [List.filterMap_append, h.returned]
      simp [hret]

/-- `pop_impl` found a removable head, or made it one. -/
theorem Matched.retSome {p : Ptr N} {x : Ptr N → Word N} (h : Abs s m) (hi : Inv s)
    (ht : t ∈ s.owners) (hpc : (s.pc t).flies = none) (hns : s.head ≠ .stub) :
    Matched ({ s with next := x }.retSome t op s.head p) m := by
  have hnext : Abs { s with next := x } m := ⟨h.items, h.flying, h.nodup, h.lock, h.returned⟩
  cases op with
  | pop => exact .inr ⟨_, h.takes (f := release s.busy s.head) hi ht hpc hns (.inl rfl)⟩
  | tryPop => exact .inr ⟨_, h.takes (f := release s.busy s.head) hi ht hpc hns (.inr rfl)⟩
  | peek => exact .inl (hnext.ret hpc rfl rfl)
  | tryUnlock => exact .inl (hnext.ret hpc rfl rfl)

/-- What was found in the head's `next` decides; null is looked at again. -/
theorem Matched.finish {o : Op} {w : Word N} (h : Abs s m) (hi : Inv s) (ht : t ∈ s.owners)
    (hpc : (s.pc t).flies = none) (hns : s.head ≠ .stub) :
    Matched (s.finish t o s.head w) m := by
  cases w with
  | ptr p => exact Matched.retSome (x := s.next) h hi ht hpc hns
  | null | unlocked => exact .inl (h.quiet (q := .crashed) rfl hpc rfl rfl rfl rfl)

theorem Matched.loaded {w : Word N} (h : Abs s m) (hi : Inv s) (ht : t ∈ s.owners)
    (hpc : (s.pc t).flies = none) (hns : s.head ≠ .stub) :
    Matched (s.loaded t op s.head w) m := by
  cases w with
  | null => exact .inl (h.goto hpc rfl)
  | unlocked => exact Matched.finish (o := op) (w := .unlocked) h hi ht hpc hns
  | ptr p => exact Matched.finish (o := op) (w := .ptr p) h hi ht hpc hns

/-- `MarkerUnlocked` is stored in the head: nothing is popped, and the lock is
    free or goes to the push that is in flight behind the head. -/
theorem Matched.unlock (h : Abs s m) (hi : Inv s) (ht : t ∈ s.owners)
    (hpc : (s.pc t).flies = none) (hl : (s.pc t).linksAt = none) (hn : s.next s.head = .null)
    (hb : s.head = s.tail → s.head = .stub) (hop : op.unlock = true) :
    Matched ((s.setNext s.head .unlocked).retNone t op) m := by
  obtain ⟨e, he, howners, hret⟩ : ∃ e : Event N,
      (s.setNext s.head .unlocked).retNone t op = (s.setNext s.head .unlocked).ret t e ∧
        e.owners s.owners = s.owners.erase t ∧ e.ret = some (.pop none) := by
    cases op with
    | pop => exact ⟨_, rfl, rfl, rfl⟩
    | tryUnlock => exact ⟨_, rfl, rfl, rfl⟩
    | tryPop | peek => cases hop
  have hnobody : s.owners.erase t = [] := by
    have hsingle := hi.single
    match hs : s.owners, hsingle, ht with
    | [u], _, hu => simp [List.mem_singleton.mp hu]
  have hlocked : m.1.lock = .locked := h.lock.trans (State.lock_of_owned ht)
  -- The heir of the lock, and what the abstract queue has to check for it
  have hchoice : ∃ k, m.1.pop (.null k) = some ({ m.1 with lock := lockOf s.chain.tail }, none) := by
    obtain ⟨l, hc⟩ := hi.chain_eq
    cases l with
    | nil =>
        have htail : s.head = s.tail := by
          have hlast := hi.tail
          rw [hc] at hlast
          exact Option.some.inj hlast
        have hitems : m.1.items = [] := by
          rw [h.items, State.items, hc, hb htail]
          rfl
        refine ⟨none, ?_⟩
        simp only [LockedFifo.pop, if_pos hitems, hc]
        rfl
    | cons b l =>
        have hadj : Adj s.chain s.head b := by
          rw [hc]
          exact .inl ⟨rfl, rfl⟩
        have hnolink : ∀ u op, s.pc u ≠ .linkStub op s.head := by
          intro u op hu
          have hoku := hi.pc u
          rw [hu] at hoku
          obtain rfl := hi.owner_unique hoku.1 ht
          rw [hu] at hl
          cases hl
        obtain ⟨u, n, rfl, hu⟩ := hi.next_of_missing hadj (by rw [hn]; rfl) hnolink
        have hfly : n ∈ m.1.flying := (h.flying n).mpr ⟨u, by rw [hu]; rfl⟩
        refine ⟨some n, ?_⟩
        simp only [LockedFifo.pop, if_pos hfly, hc]
        rfl
  obtain ⟨k, hk⟩ := hchoice
  rw [he]
  refine .inr ⟨.pop (.null k), ({ m.1 with lock := lockOf s.chain.tail }, m.2 ++ [.pop none]), ?_, ?_⟩
  · simp only [LockedFifo.queue, if_pos hlocked, hk]
    rfl
  constructor
  case items => exact h.items
  case flying =>
      intro j
      show j ∈ m.1.flying ↔ ∃ u, (Function.update s.pc t .idle u).flies = some j
      rw [flies_update hpc rfl]
      exact h.flying j
  case nodup => exact h.nodup
  case lock =>
      show lockOf s.chain.tail = if e.owners s.owners = [] then _ else _
      rw [howners, if_pos hnobody]
      rfl
  case returned =>
      show m.2 ++ [_] = (s.log ++ [e]).filterMap Event.ret
      rw [List.filterMap_append, h.returned]
      simp [hret]

-- ============================================================================
-- Every step
-- ============================================================================

/-- `try_lock` found the marker: the lock is taken without a push. -/
def Locks (s s' : State N) (m : LockedFifo N × List (FifoRet N)) : Prop :=
  (∃ t, s.pc t = .tryLock) ∧ m.1.lock ≠ .locked ∧ Abs s' ({ m.1 with lock := .locked }, m.2)

theorem tryLock_matched (h : Abs s m) (hi : Inv s) (hp : s.pc t = .tryLock)
    (hu : s.next .stub = .unlocked) :
    Locks s (((s.setNext .stub .null).assert (s.head = .stub)).ret t (.tryLock t true)) m := by
  have hin : .stub ∈ s.chain := by
    by_contra hout
    simp [hi.stubOut hout] at hu
  have hh := hi.marker _ hin hu
  have ho : s.owners = [] := hi.locked.mpr (hh ▸ hu)
  refine ⟨⟨t, hp⟩, ?_, ?_⟩
  · rw [h.lock, State.lock, if_pos ho]
    rcases hi.tail_of_unowned ho with hnil | ⟨n, l, u, hcons, -⟩
    · rw [hnil]
      exact fun he => by cases he
    · rw [hcons]
      exact fun he => by cases he
  constructor
  case items => exact h.items
  case flying =>
      intro k
      show k ∈ m.1.flying ↔ ∃ u, (Function.update s.pc t .idle u).flies = some k
      rw [flies_update (by rw [hp]; rfl) rfl]
      exact h.flying k
  case nodup => exact h.nodup
  case lock =>
      show Lock.locked = if t :: s.owners = [] then _ else _
      rw [if_neg (List.cons_ne_nil _ _)]
  case returned =>
      show m.2 = (s.log ++ [Event.tryLock t true]).filterMap Event.ret
      rw [List.filterMap_append, h.returned]
      exact (List.append_nil _).symm

theorem stepThread_matched (h : Abs s m) (hi : Inv s) (hs : stepThread s t = some s') :
    Matched s' m ∨ Locks s s' m := by
  have hok := hi.pc t
  cases hp : s.pc t <;> simp only [stepThread, hp] at hs <;> rw [hp] at hok
  case idle | crashed => cases hs
  case pushStore n =>
      cases hs
      exact .inl (.inl (h.quiet (q := .pushXchg n) rfl (by rw [hp]; rfl) rfl rfl rfl rfl))
  case pushXchg n =>
      cases hs
      exact .inl (.inr ⟨_, h.xchg hi hp⟩)
  case publish a n =>
      cases hs
      exact .inl (.inr ⟨_, h.publish hi hp⟩)
  case tryLock =>
      split at hs <;> cases hs
      next hu => exact .inr (tryLock_matched h hi hp hu)
      next => exact .inl (.inl (h.ret (by rw [hp]; rfl) rfl rfl))
  all_goals
    have hf : (s.pc t).flies = none := by rw [hp]; rfl
    left
  case load op =>
      split at hs
      · split at hs <;> cases hs
        · split
          · exact .inl (h.goto hf rfl)
          next hop => exact .inl (h.retNone hf (by simpa using hop))
        · exact .inl (h.removeStub hf)
      next hh =>
        cases hs
        exact .loaded h hi hok hf hh
  case stubCas op =>
      obtain ⟨ht, hh, hop⟩ := hok
      split at hs <;> cases hs
      next hn =>
        rw [← hh] at hn ⊢
        exact .unlock h hi ht hf (by rw [hp]; rfl) hn (fun _ => hh) hop
      next => exact .inl (h.removeStub hf)
  case stubRemove op p =>
      obtain ⟨ht, hh, hn⟩ := hok
      obtain ⟨l, hc⟩ := hi.chain_eq
      cases hs
      refine .inl (h.quiet (q := .headLoad op p) rfl hf rfl ?_ ?_ rfl)
      · show s.chain.tail.filterMap Ptr.item = s.chain.filterMap Ptr.item
        rw [hc, hh]
        rfl
      · rw [State.lock_of_owned ht]
        exact if_neg (List.ne_nil_of_mem ht)
  case headLoad op a =>
      obtain ⟨ht, rfl, hns⟩ := hok
      cases hs
      exact .loaded h hi ht hf hns
  case tailLoad op a =>
      split at hs <;> cases hs
      · exact .inl (h.goto hf rfl)
      · exact .inl (h.blocked hf)
  case stubAssert op a =>
      cases hs
      exact .inl (h.quiet (q := .tailCas op a) rfl hf rfl rfl rfl rfl)
  case tailCas op a =>
      obtain ⟨ht, -, -, -⟩ := hok
      split at hs <;> cases hs
      · refine .inl (h.quiet (q := .linkStub op a) rfl hf rfl ?_ ?_ rfl)
        · show (s.chain ++ [Ptr.stub]).filterMap Ptr.item = s.chain.filterMap Ptr.item
          rw [List.filterMap_append]
          exact List.append_nil _
        · rw [State.lock_of_owned ht]
          exact if_neg (List.ne_nil_of_mem ht)
      · exact .inl (h.blocked hf)
  case linkStub op a =>
      obtain ⟨ht, rfl, hns, -⟩ := hok
      cases hs
      exact .retSome h hi ht hf hns
  case headCas op a =>
      obtain ⟨ht, rfl, hns, htail, hop⟩ := hok
      split at hs <;> cases hs
      next hn => exact .unlock h hi ht hf (by rw [hp]; rfl) hn (fun he => absurd he.symm htail) hop
      next => exact .finish h hi ht hf hns

theorem step_matched {a : Act N} (h : Abs s m) (hi : Inv s) (hs : (mailbox N).step s a = some s') :
    Matched s' m ∨ Locks s s' m := by
  cases a <;> simp only [mailbox] at hs
  case step u => exact stepThread_matched h hi hs
  case push u n =>
      split at hs <;> cases hs
      next hc =>
        exact .inl (.inl (h.quiet (q := .pushStore n) rfl (by rw [hc.1]; rfl) rfl rfl rfl rfl))
  case tryLock u =>
      split at hs <;> cases hs
      next hc => exact .inl (.inl (h.goto (by rw [hc]; rfl) rfl))
  case call u op =>
      split at hs <;> cases hs
      next hc => exact .inl (.inl (h.goto (by rw [hc.1]; rfl) rfl))
  case pass u v =>
      split at hs <;> cases hs
      next hc =>
        refine .inl (.inl (h.quiet (q := .idle) rfl (by rw [hc.1]; rfl) rfl rfl ?_ ?_))
        · rw [State.lock_of_owned hc.2]
          exact if_neg (List.cons_ne_nil _ _)
        · show (s.log ++ [Event.pass u v]).filterMap Event.ret = _
          rw [List.filterMap_append]
          exact List.append_nil _

omit [DecidableEq N] in
theorem start_abs (next : N → Word N) (owner : Option Nat) :
    Abs (State.start next owner) (⟨[], [], if owner.isSome then .locked else .free⟩, []) := by
  refine ⟨rfl, fun n => ⟨?_, ?_⟩, List.nodup_nil, ?_, rfl⟩
  · intro hn
    cases hn
  · rintro ⟨u, hu⟩
    cases hu
  · cases owner <;> rfl

/-- The mailbox refines the abstract queue whose lock can be taken without a push. -/
theorem mailbox_simulation : System.Simulation (mailbox N) (LockedFifo.lockable N) Abs where
  init := by
    rintro _ ⟨next, owner, rfl⟩
    refine ⟨_, ⟨⟨_, ?_, rfl⟩, rfl⟩, start_abs next owner⟩
    cases owner with
    | none => exact .inr rfl
    | some t => exact .inl rfl
  step s a s' m hr h hs := by
    rcases step_matched h (reachable_inv hr) hs with (h' | ⟨b, m', hm, h'⟩) | ⟨-, hfree, h'⟩
    · exact ⟨m, .refl, h'⟩
    · exact ⟨m', .step (some b) .refl trivial hm, h'⟩
    · refine ⟨_, .step none .refl trivial ?_, h'⟩
      simp only [LockedFifo.lockable, if_neg hfree]

/-- No thread calls `try_lock`. -/
def NoTryLock (_ : State N) (a : Act N) : Prop := ∀ t, a ≠ .tryLock t

/-- A step leads into `try_lock` only by its call. -/
theorem stepThread_pc_ne_tryLock (h : ∀ u, s.pc u ≠ .tryLock) (hs : stepThread s t = some s') (u : Nat) :
    s'.pc u ≠ .tryLock := by
  by_cases hu : u = t
  · subst hu
    have hmove : ∀ {op}, (s.pc u).op = some op → s'.pc u ≠ .tryLock := by
      intro op hop ht
      cases stepThread_call hs hop with
      | inside hin =>
          rw [ht] at hin
          cases hin
      | returned e hidle =>
          rw [ht] at hidle
          cases hidle
      | crashed hcrash =>
          rw [ht] at hcrash
          cases hcrash
    have hpush : (s.pc u).inPush = true → s'.pc u ≠ .tryLock := by
      intro hin ht
      rcases stepThread_push hs hin with ⟨hin', -⟩ | ⟨n, b, hidle, -⟩
      · rw [ht] at hin'
        cases hin'
      · rw [ht] at hidle
        cases hidle
    cases hp : s.pc u
    case tryLock => exact absurd hp (h u)
    case idle | crashed =>
        simp only [stepThread, hp] at hs
        cases hs
    case pushStore | pushXchg | publish => exact hpush (by rw [hp]; rfl)
    all_goals exact hmove (by rw [hp]; rfl)
  · rw [stepThread_pc hs hu]
    exact h u

theorem step_pc_ne_tryLock {a : Act N} (h : ∀ u, s.pc u ≠ .tryLock) (ha : NoTryLock s a)
    (hs : (mailbox N).step s a = some s') (u : Nat) : s'.pc u ≠ .tryLock := by
  have hgoto : ∀ {v : Nat} {q : Pc N}, q ≠ .tryLock → Function.update s.pc v q u ≠ .tryLock := by
    intro v q hq
    by_cases huv : u = v
    · rw [huv, Function.update_self]
      exact hq
    · rw [Function.update_of_ne huv]
      exact h u
  cases a <;> simp only [mailbox] at hs
  case step v => exact stepThread_pc_ne_tryLock h hs u
  case tryLock v => exact absurd rfl (ha v)
  all_goals
    split at hs <;> cases hs
    exact hgoto fun hq => by cases hq

/-- The steps of the mailbox are steps of the abstract queue, or not seen: in
    every run there is a run of the queue with the same items, the same pushes
    in flight, the same lock and the same returns, and where `try_lock` is not
    called the lock of the queue is gained by pushes alone. -/
theorem mailbox_refines :
    (∀ s : State N, (mailbox N).Reachable s → ∃ m, (LockedFifo.lockable N).Reachable m ∧ Abs s m) ∧
    (∀ s : State N, (mailbox N).ReachableIf NoTryLock s →
      ∃ m, (LockedFifo.queue N).Reachable m ∧ Abs s m) := by
  refine ⟨fun s hr => mailbox_simulation.reachable hr, fun s hr => ?_⟩
  have hboth : (∀ u, s.pc u ≠ .tryLock) ∧ ∃ m, (LockedFifo.queue N).Reachable m ∧ Abs s m := by
    refine hr.invariant_of (J := Inv) (fun s hr => reachable_inv hr.reachable) (I := fun s =>
      (∀ u, s.pc u ≠ .tryLock) ∧ ∃ m, (LockedFifo.queue N).Reachable m ∧ Abs s m) ?_ ?_
    · intro s hinit
      obtain ⟨m, hm, h⟩ := mailbox_simulation.init s hinit
      obtain ⟨next, owner, rfl⟩ := hinit
      exact ⟨fun u => by simp [State.start], m, .init hm, h⟩
    · rintro s a s' hi ⟨hno, m, hm, h⟩ ha hs
      refine ⟨step_pc_ne_tryLock hno ha hs, ?_⟩
      rcases step_matched h hi hs with (h' | ⟨b, m', hb, h'⟩) | ⟨⟨t, ht⟩, -⟩
      · exact ⟨m, hm, h'⟩
      · exact ⟨m', hm.next b hb, h'⟩
      · exact absurd ht (hno t)
  exact hboth.2

end Steps

end Coroactors.Mailbox
