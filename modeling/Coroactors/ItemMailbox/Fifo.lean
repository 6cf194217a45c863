/-
  Coroactors.ItemMailbox.Fifo

  `mailbox<T>` (coroactors/detail/mailbox.h) is a locked FIFO queue: it hands
  out every item once and in order, it has at most one owner, and an item is
  never left in it without an owner or a push that is going to be one.

  The owners are what the returned calls make of them (`Event.owners`).  The
  node that a pop is going to take is fixed as soon as it is linked to the head:
  by the push that locks the mailbox, and by the peek that finds an item.
-/

import Coroactors.Conc.LockedFifo
import Coroactors.ItemMailbox.Inv

namespace Coroactors.ItemMailbox

open Coroactors.Conc

variable {N T : Type*} {s s' : State N T} {t u : Nat} {n : N}

-- ============================================================================
-- Owners and returned calls
-- ============================================================================

/-- A step returns from no call, or from one, and the owners and the items
    handed out follow. -/
def Logged (s s' : State N T) : Prop :=
  (s'.log = s.log ∧ s'.owners = s.owners ∧ s'.popped = s.popped) ∨
    ∃ e, s'.log = s.log ++ [e] ∧ s'.owners = e.owners s.owners ∧ s'.popped = s.popped ++ e.taken

theorem Event.gained {e : Event N T} {o : List Nat} (h : t ∈ e.owners o) (hn : t ∉ o) :
    (∃ n, e = .push t n true) ∨ ∃ u, e = .pass u t := by
  cases e with
  | push u n b => cases b <;> simp_all [Event.owners]
  | pop u r => cases r <;> simp_all [Event.owners, mt List.mem_of_mem_erase]
  | peek u r => exact absurd h hn
  | tryUnlock u b => cases b <;> simp_all [Event.owners, mt List.mem_of_mem_erase]
  | pass u v =>
      rcases List.mem_cons.mp h with rfl | h
      · exact .inr ⟨u, rfl⟩
      · exact absurd (List.mem_of_mem_erase h) hn

theorem Event.givenUp {e : Event N T} {o : List Nat} (h : t ∈ o) (hn : t ∉ e.owners o) :
    e = .pop t none ∨ e = .tryUnlock t true ∨ ∃ u, e = .pass t u := by
  have herase : ∀ u, t ∉ o.erase u → u = t := by
    intro u hu
    by_contra hne
    exact hu ((List.mem_erase_of_ne (Ne.symm hne)).mpr h)
  cases e with
  | push u n b => cases b <;> simp_all [Event.owners]
  | peek u r => exact absurd h hn
  | pop u r =>
      cases r with
      | none => exact .inl (by rw [herase u hn])
      | some p => exact absurd h hn
  | tryUnlock u b =>
      cases b with
      | true => exact .inr (.inl (by rw [herase u hn]))
      | false => exact absurd h hn
  | pass u v =>
      have := herase u fun hm => hn (List.mem_cons_of_mem _ hm)
      exact .inr (.inr ⟨v, by rw [this]⟩)

section Steps

variable [DecidableEq N]

theorem Effect.logged (h : Effect s s') : Logged s s' := by
  cases h with
  | newNode | goes | xchg => exact .inl ⟨rfl, rfl, rfl⟩
  | _ => exact .inr ⟨_, rfl, rfl, rfl⟩

/-- The owners and the items handed out are those of the log. -/
theorem reachable_log (h : mailbox.Reachable s) :
    ∃ owner : Option Nat, s.owners = s.log.foldl (fun o e => e.owners o) owner.toList ∧
      s.popped = s.log.flatMap Event.taken := by
  refine h.invariant_of (I := fun s => ∃ owner : Option Nat,
    s.owners = s.log.foldl (fun o e => e.owners o) owner.toList ∧
      s.popped = s.log.flatMap Event.taken) (fun _ hr => reachable_inv hr) ?_ ?_
  · rintro s ⟨stub, item, owner, rfl⟩
    exact ⟨owner, rfl, rfl⟩
  · rintro s a s' hi ⟨owner, ho, hp⟩ - hs
    refine ⟨owner, ?_⟩
    rcases (step_effect hi hs).logged with ⟨h1, h2, h3⟩ | ⟨e, h1, h2, h3⟩
    · rw [h1, h2, h3]
      exact ⟨ho, hp⟩
    · rw [h1, h2, h3, ho, hp]
      simp

-- ============================================================================
-- The push that locks
-- ============================================================================

/-- A push waits at an unlocked head. -/
structure Waiting (s : State N T) (t : Nat) (n : N) : Prop where
  inv : Inv s
  pc : s.pc t = .publish s.head n
  marker : s.next s.head = .unlocked

omit [DecidableEq N] in
theorem Waiting.unowned (h : Waiting s t n) : s.owners = [] := h.inv.locked.mpr h.marker

omit [DecidableEq N] in
/-- The links of other threads start elsewhere. -/
theorem Waiting.ne_head {a m : N} (h : Waiting s t n) (hu : u ≠ t)
    (hp : s.pc u = .publish a m) : a ≠ s.head := by
  rintro rfl
  obtain ⟨hadj, -⟩ := h.inv.publishes t s.head n (by rw [h.pc]; rfl)
  obtain ⟨hadj', -⟩ := h.inv.publishes u s.head m (by rw [hp]; rfl)
  obtain rfl := hadj.right_unique h.inv.nodup hadj'
  exact hu (h.inv.publishesInj u t _ (by rw [hp]; rfl) (by rw [h.pc]; rfl))

/-- Nothing takes the marker away from the push. -/
theorem Waiting.step {a : Act N T} (h : Waiting s t n) (ha : a ≠ .step t)
    (hs : mailbox.step s a = some s') : Waiting s' t n := by
  have hown := h.unowned
  have hi := h.inv
  have hidle : ∀ u, s.pc u = .idle → t ≠ u := by
    rintro u hu rfl
    rw [h.pc] at hu
    cases hu
  have hinv := step_inv hi hs
  cases a with
  | push u m v =>
      simp only [mailbox] at hs
      split at hs <;> cases hs
      rename_i hc
      refine ⟨hinv, ?_, ?_⟩
      · exact (Function.update_of_ne (hidle u hc.1) ..).trans h.pc
      · refine (Function.update_of_ne ?_ ..).trans h.marker
        intro he
        have := hi.alloc _ hi.head_mem
        rw [show s.head = m from he, hc.2] at this
        cases this
  | call u op => simp [mailbox, hown] at hs
  | pass u v => simp [mailbox, hown] at hs
  | step u =>
      have hut : t ≠ u := by
        rintro rfl
        exact ha rfl
      have hno : (s.pc u).owner = true → False := by
        intro ho
        have := hi.owner u ho
        rw [hown] at this
        cases this
      have hs' : stepThread s u = some s' := hs
      cases hp : s.pc u <;> simp only [stepThread, hp] at hs'
      case load | cas => exact (hno (by rw [hp]; rfl)).elim
      case pushXchg m =>
        cases hs'
        exact ⟨hinv, (Function.update_of_ne hut ..).trans h.pc, h.marker⟩
      case publish b m =>
        cases hs'
        refine ⟨hinv, (Function.update_of_ne hut ..).trans h.pc, ?_⟩
        exact (Function.update_of_ne (Ne.symm (h.ne_head (Ne.symm hut) hp)) ..).trans h.marker
      all_goals cases hs'

/-- The push that waits at an unlocked head locks the mailbox. -/
theorem Waiting.locks (h : Waiting s t n) :
    ∃ s', mailbox.step s (.step t) = some s' ∧ s'.log = s.log ++ [.push t n true] ∧
      s'.owners = [t] := by
  have hown := h.unowned
  simp [mailbox, stepThread, h.pc, h.marker, State.ret, State.goto, Event.owners, hown]

omit [DecidableEq N] in
/-- An unlocked mailbox that holds an item has a push at its head. -/
theorem Inv.exists_waiting (hi : Inv s) (hu : s.next s.head = .unlocked)
    (hne : s.popped ≠ s.pushed) : ∃ t n, Waiting s t n := by
  obtain ⟨c, hc⟩ := List.head?_eq_some_iff.mp hi.head
  cases c with
  | nil =>
      have hitems := hi.items
      rw [hc, List.tail_cons, List.map_nil, List.append_nil] at hitems
      exact absurd hitems.symm hne
  | cons n c =>
      have hadj : Adj s.chain s.head n := by
        rw [hc]
        exact .inl ⟨rfl, rfl⟩
      rcases hi.flight s.head n hadj with h | ⟨t, ht⟩
      · rw [hu] at h
        cases h
      · refine ⟨t, n, hi, ?_, hu⟩
        cases hp : s.pc t <;> rw [hp] at ht <;> cases ht
        rfl

-- ============================================================================
-- The next pop
-- ============================================================================

/-- The item of node `n` is the first one. -/
structure First (s : State N T) (n : N) (v : T) : Prop where
  inv : Inv s
  next : s.next s.head = .node n
  item : s.item n = v

/-- A push that locks the mailbox links the first item. -/
theorem first_of_push {a n : N} (hi : Inv s) (hp : s.pc t = .publish a n)
    (hu : s.next a = .unlocked) (hs : mailbox.step s (.step t) = some s') :
    First s' n (s.item n) := by
  have hinv := step_inv hi hs
  obtain ⟨hadj, -⟩ := hi.publishes t a n (by rw [hp]; rfl)
  obtain rfl := hi.marker a hadj.mem_left hu
  simp only [mailbox, stepThread, hp] at hs
  cases hs
  exact ⟨hinv, Function.update_self .., rfl⟩

/-- The first item stays the first one until a pop returns it. -/
theorem First.step {v : T} (h : First s n v) (he : Effect s s') :
    (First s' n v ∧ ∀ u r, s'.log ≠ s.log ++ [.pop u r]) ∨
      ∃ u, s'.log = s.log ++ [.pop u (some (n, v))] := by
  have hi := h.inv
  have hinv := he.inv hi
  have hmem := (hi.link s.head n hi.head_mem h.next).mem_right
  have halloc : ∀ m, s.alloc m = false → m ∉ s.chain := by
    intro m hm hmem
    rw [hi.alloc m hmem] at hm
    cases hm
  cases he with
  | newNode hp hn =>
      have hm := halloc _ hn
      refine .inl ⟨⟨hinv, ?_, ?_⟩, fun _ _ he => by simp [State.goto] at he⟩
      · exact (Function.update_of_ne (ne_of_mem_of_not_mem hi.head_mem hm) ..).trans h.next
      · exact (Function.update_of_ne (ne_of_mem_of_not_mem hmem hm) ..).trans h.item
  | goes | xchg =>
      exact .inl ⟨⟨hinv, h.next, h.item⟩, fun _ _ he => by simp [State.goto] at he⟩
  | @publish t a m hp =>
      refine .inl ⟨⟨hinv, ?_, h.item⟩, fun _ _ he => by simp [State.ret] at he⟩
      obtain ⟨-, hnode⟩ := hi.publishes t a m (by rw [hp]; rfl)
      refine (Function.update_of_ne ?_ ..).trans h.next
      intro hah
      rw [← show s.head = a from hah, h.next] at hnode
      cases hnode
  | @takes t m hpc hn =>
      obtain rfl : n = m := by simpa [h.next] using hn
      exact .inr ⟨t, by simp [State.advance, State.ret, h.item]⟩
  | peeks | passes =>
      exact .inl ⟨⟨hinv, h.next, h.item⟩, fun _ _ he => by simp [State.ret] at he⟩
  | keeps hpc he =>
      refine .inl ⟨⟨hinv, h.next, h.item⟩, fun _ _ hl => ?_⟩
      rcases he with rfl | rfl <;> simp [State.ret] at hl
  | unlocks hpc hn he =>
      rw [h.next] at hn
      cases hn

-- ============================================================================
-- The item of a push
-- ============================================================================

/-- The node of the push that the thread is in. -/
def Pc.pushes : Pc N → Option N
  | .pushXchg n => some n
  | .publish _ n => some n
  | _ => none

/-- Thread `t` is in the push of `v`, with node `n`. -/
structure Pushing (s : State N T) (t : Nat) (n : N) (v : T) : Prop where
  inv : Inv s
  pc : (s.pc t).pushes = some n
  item : s.item n = v

omit [DecidableEq N] in
theorem Inv.alloc_of_pushes (hi : Inv s) (h : (s.pc t).pushes = some n) : s.alloc n = true := by
  cases hp : s.pc t <;> rw [hp] at h <;> cases h
  · exact (hi.fresh t n (by rw [hp]; rfl)).1
  · exact hi.alloc n (hi.publishes t _ n (by rw [hp]; rfl)).1.mem_right

/-- The node of a push keeps its item until the push returns. -/
theorem Pushing.step {v : T} (h : Pushing s t n v) (he : Effect s s') :
    Pushing s' t n v ∨ ∃ b, s'.log = s.log ++ [.push t n b] := by
  have hi := h.inv
  have hinv := he.inv hi
  have halloc := hi.alloc_of_pushes h.pc
  have hpc : ∀ u, u ≠ t → ∀ q, (Function.update s.pc u q t).pushes = some n := by
    intro u hu q
    rw [Function.update_of_ne (Ne.symm hu)]
    exact h.pc
  have hne : ∀ u, (s.pc u).pushes = none → u ≠ t := by
    rintro u hu rfl
    rw [h.pc] at hu
    cases hu
  have howner : ∀ u, (s.pc u).owner = true → u ≠ t := by
    intro u hu
    refine hne u ?_
    cases hp : s.pc u <;> rw [hp] at hu <;> first | rfl | cases hu
  cases he with
  | @newNode u m w hp hn =>
      refine .inl ⟨hinv, hpc u (hne u (by rw [hp]; rfl)) _, ?_⟩
      refine (Function.update_of_ne ?_ ..).trans h.item
      rintro rfl
      rw [halloc] at hn
      cases hn
  | @goes u p hf hp ho hpo hv =>
      refine .inl ⟨hinv, hpc u (hne u ?_) _, h.item⟩
      cases hq : s.pc u <;> simp_all [Pc.fresh, Pc.publishes, Pc.pushes]
  | @xchg u m hp =>
      refine .inl ⟨hinv, ?_, h.item⟩
      by_cases hu : u = t
      · subst hu
        have := h.pc
        rw [hp] at this
        simpa [State.goto, Pc.pushes] using this
      · exact hpc u hu _
  | @publish u a m hp =>
      by_cases hu : u = t
      · subst hu
        have := h.pc
        rw [hp] at this
        cases this
        exact .inr ⟨_, rfl⟩
      · exact .inl ⟨hinv, hpc u hu _, h.item⟩
  | takes hp _ => exact .inl ⟨hinv, hpc _ (howner _ hp) _, h.item⟩
  | peeks hp _ => exact .inl ⟨hinv, hpc _ (howner _ hp) _, h.item⟩
  | keeps hp _ => exact .inl ⟨hinv, hpc _ (howner _ hp) _, h.item⟩
  | unlocks hp _ _ => exact .inl ⟨hinv, hpc _ (howner _ hp) _, h.item⟩
  | passes hp _ => exact .inl ⟨hinv, hpc _ (hne _ (by rw [hp]; rfl)) _, h.item⟩

/-- The steps after which no call of the kind `P` returned. -/
def Without (P : Event N T → Prop) (s : State N T) (a : Act N T) : Prop :=
  ∀ s' e, mailbox.step s a = some s' → s'.log = s.log ++ [e] → ¬ P e

def Event.isPop (e : Event N T) : Prop := ∃ u r, e = .pop u r

def Event.isPush (t : Nat) (e : Event N T) : Prop := ∃ n b, e = .push t n b

/-- The next pop to return, whatever is called before, returns the item `v` of
    node `n`. -/
def NextPop (s : State N T) (n : N) (v : T) : Prop :=
  ∀ s₁ s₂ a u r, mailbox.Path (Without Event.isPop) s s₁ → mailbox.step s₁ a = some s₂ →
    s₂.log = s₁.log ++ [.pop u r] → r = some (n, v)

theorem First.nextPop {v : T} (h : First s n v) : NextPop s n v := by
  intro s₁ s₂ a u r hpath hs hlog
  have hfirst : First s₁ n v := by
    refine hpath.invariant (I := fun x => First x n v) ?_ h
    intro x b x' hx hw hs
    rcases hx.step (step_effect hx.inv hs) with ⟨hx', -⟩ | ⟨u, hlog⟩
    · exact hx'
    · exact absurd ⟨u, _, rfl⟩ (hw x' _ hs hlog)
  rcases hfirst.step (step_effect hfirst.inv hs) with ⟨-, hno⟩ | ⟨u', hlog'⟩
  · exact absurd hlog (hno u r)
  · rw [hlog'] at hlog
    simp at hlog
    exact hlog.2.symm

-- ============================================================================
-- The abstract queue
-- ============================================================================

/-- The return of a push or a pop as the abstract queue has it; to unlock is to
    pop nothing. -/
def Event.ret : Event N T → Option (FifoRet N)
  | .push _ n b => some (.push n b)
  | .pop _ r => some (.pop (r.map Prod.fst))
  | .tryUnlock _ true => some (.pop none)
  | _ => none

/-- Without an owner the lock is promised to the push of the first node, if
    there is one. -/
def State.lock (s : State N T) : Lock N :=
  if s.next s.head = .unlocked then
    match s.chain.tail with
    | [] => .free
    | n :: _ => .promised n
  else .locked

/-- The nodes behind the head are the items, and the links that are not
    published are the pushes in flight. -/
structure Abs (s : State N T) (m : LockedFifo N × List (FifoRet N)) : Prop where
  items : m.1.items = s.chain.tail
  flying : ∀ b, b ∈ m.1.flying ↔ ∃ t a, (s.pc t).publishes = some (a, b)
  nodup : m.1.flying.Nodup
  lock : m.1.lock = s.lock
  returned : m.2 = s.log.filterMap Event.ret

/-- A step that the abstract queue does not see. -/
theorem Abs.stutter {m : LockedFifo N × List (FifoRet N)} (h : Abs s m)
    (hc : s'.chain = s.chain) (hp : ∀ t, (s'.pc t).publishes = (s.pc t).publishes)
    (hl : s'.lock = s.lock) (hr : s'.log.filterMap Event.ret = s.log.filterMap Event.ret) :
    Abs s' m := by
  refine ⟨by rw [hc, h.items], fun b => ?_, h.nodup, by rw [hl, h.lock], by rw [hr, h.returned]⟩
  simp only [hp]
  exact h.flying b

theorem State.lock_eq_locked : s.lock = .locked ↔ s.next s.head ≠ .unlocked := by
  unfold State.lock
  split
  · split <;> simp_all
  · simp_all

theorem State.lock_eq_promised :
    s.lock = .promised n ↔ s.next s.head = .unlocked ∧ s.chain.tail.head? = some n := by
  unfold State.lock
  split
  · split <;> simp_all
  · simp_all

omit [DecidableEq N] in
/-- The step of a thread does not change what is in flight. -/
theorem publishes_update {q : Pc N} (hp : (s.pc t).publishes = q.publishes) (u : Nat) :
    (Function.update s.pc t q u).publishes = (s.pc u).publishes := by
  by_cases hu : u = t
  · rw [hu, Function.update_self, hp]
  · rw [Function.update_of_ne hu]

omit [DecidableEq N] in
/-- What is in flight after a thread moved. -/
theorem exists_publishes_update {q : Pc N} {b : N} :
    (∃ u a, (Function.update s.pc t q u).publishes = some (a, b)) ↔
      (∃ a, q.publishes = some (a, b)) ∨ ∃ u a, u ≠ t ∧ (s.pc u).publishes = some (a, b) := by
  constructor
  · rintro ⟨u, a, h⟩
    by_cases hu : u = t
    · rw [hu, Function.update_self] at h
      exact .inl ⟨a, h⟩
    · rw [Function.update_of_ne hu] at h
      exact .inr ⟨u, a, hu, h⟩
  · rintro (⟨a, h⟩ | ⟨u, a, hu, h⟩)
    · exact ⟨t, a, by rwa [Function.update_self]⟩
    · exact ⟨u, a, by rwa [Function.update_of_ne hu]⟩

/-- The exchange on `tail_` gives the item its place. -/
theorem Abs.xchg {m : LockedFifo N × List (FifoRet N)} (h : Abs s m) (hi : Inv s)
    (hp : s.pc t = .pushXchg n) :
    ∃ m', (LockedFifo.queue N).step m (.prepare n) = some m' ∧ Abs ({ s with
      tail := n
      chain := s.chain ++ [n]
      pushed := s.pushed ++ [s.item n] }.goto t (.publish s.tail n)) m' := by
  obtain ⟨-, hmem, -⟩ := hi.fresh t n (by rw [hp]; rfl)
  have hne : s.chain ≠ [] := List.ne_nil_of_mem hi.head_mem
  have htail : (s.chain ++ [n]).tail = s.chain.tail ++ [n] := List.tail_append_of_ne_nil hne
  have hitems : n ∉ m.1.items := by
    rw [h.items]
    exact fun hm => hmem (List.mem_of_mem_tail hm)
  have hfly : n ∉ m.1.flying := by
    intro hm
    obtain ⟨u, a, hu⟩ := (h.flying n).mp hm
    exact hmem (hi.publishes u a n hu).1.mem_right
  refine ⟨(m.1.prepare n, m.2), by simp [LockedFifo.queue, hitems], ?_⟩
  constructor
  case items => simp [LockedFifo.prepare, State.goto, htail, h.items]
  case flying =>
      intro b
      have hnone : (s.pc t).publishes = none := by rw [hp]; rfl
      have hsome : (∃ a, (Pc.publish s.tail n).publishes = some (a, b)) ↔ b = n := by
        simp [Pc.publishes, eq_comm]
      simp only [LockedFifo.prepare, List.mem_cons, h.flying, State.goto, exists_publishes_update,
        hsome]
      grind -linarith
  case nodup => exact List.nodup_cons.mpr ⟨hfly, h.nodup⟩
  case returned => exact h.returned
  case lock =>
      simp only [LockedFifo.prepare, h.lock, State.goto, State.lock, htail]
      cases s.chain.tail with
      | nil => by_cases hu : s.next s.head = .unlocked <;> simp [hu]
      | cons b l => by_cases hu : s.next s.head = .unlocked <;> simp [hu]

/-- The second exchange finishes the push. -/
theorem Abs.publish {m : LockedFifo N × List (FifoRet N)} {a : N} (h : Abs s m) (hi : Inv s)
    (hp : s.pc t = .publish a n) :
    ∃ m', (LockedFifo.queue N).step m (.publish n) = some m' ∧
      Abs ({ s with next := Function.update s.next a (.node n) }.ret t
        (.push t n (decide (s.next a = Word.unlocked)))) m' := by
  have hpub : (s.pc t).publishes = some (a, n) := by rw [hp]; rfl
  obtain ⟨hadj, hnode⟩ := hi.publishes t a n hpub
  have hfly : n ∈ m.1.flying := (h.flying n).mpr ⟨t, a, hpub⟩
  have hfirst : ∀ b, s.chain.tail.head? = some b ↔ Adj s.chain s.head b := by
    intro b
    obtain ⟨c, hc⟩ := List.head?_eq_some_iff.mp hi.head
    have hnd := hi.nodup
    rw [hc] at hnd ⊢
    rw [List.tail_cons, Adj.cons]
    refine ⟨fun hb => .inl ⟨rfl, hb⟩, ?_⟩
    rintro (⟨-, hb⟩ | hb)
    · exact hb
    · exact absurd hb.mem_left (List.nodup_cons.mp hnd).1
  -- the lock is promised to this push exactly if it finds the marker
  have hlock : m.1.lock = .promised n ↔ s.next a = .unlocked := by
    rw [h.lock, State.lock_eq_promised, hfirst]
    constructor
    · rintro ⟨hu, hb⟩
      rw [hadj.left_unique hi.nodup hb, hu]
    · intro hu
      obtain rfl := hi.marker a hadj.mem_left hu
      exact ⟨hu, hadj⟩
  refine ⟨((m.1.publish n).1, m.2 ++ [.push n (m.1.publish n).2]), ?_, ?_⟩
  · simp [LockedFifo.queue, hfly]
  constructor
  case items => exact h.items
  case nodup => exact h.nodup.erase _
  case returned => simp [State.ret, Event.ret, h.returned, LockedFifo.publish, hlock]
  case flying =>
      intro b
      simp only [LockedFifo.publish, h.nodup.mem_erase_iff, h.flying, State.ret, State.goto,
        exists_publishes_update]
      constructor
      · rintro ⟨hb, u, c, hu⟩
        refine .inr ⟨u, c, ?_, hu⟩
        rintro rfl
        rw [hpub] at hu
        cases hu
        exact hb rfl
      · rintro (⟨c, hc⟩ | ⟨u, c, hu, hc⟩)
        · cases hc
        · refine ⟨?_, u, c, hc⟩
          rintro rfl
          obtain rfl := (hi.publishes u c b hc).1.left_unique hi.nodup hadj
          exact hu (hi.publishesInj u t _ hc hpub)
  case lock =>
      by_cases hu : s.next a = .unlocked
      · obtain rfl := hi.marker a hadj.mem_left hu
        simp [LockedFifo.publish, hlock, hu, State.ret, State.goto, State.lock]
      · have hkeep : (m.1.publish n).1.lock = s.lock := by
          rw [LockedFifo.publish, if_neg (fun hl => hu (hlock.mp hl)), h.lock]
        refine hkeep.trans ?_
        by_cases hh : s.head = a
        · subst hh
          simp [State.ret, State.goto, State.lock, hu]
        · simp [State.ret, State.goto, State.lock, Function.update_of_ne hh]

/-- A pop takes the first item, whose push has finished. -/
theorem Abs.takes {m : LockedFifo N × List (FifoRet N)} (h : Abs s m) (hi : Inv s)
    (hpc : (s.pc t).owner = true) (hn : s.next s.head = .node n) :
    ∃ m', (LockedFifo.queue N).step m (.pop .item) = some m' ∧ Abs (s.advance t n) m' := by
  obtain ⟨c, hc⟩ := hi.chain_eq hn
  have hadj := hi.link s.head n hi.head_mem hn
  have hlock : m.1.lock = .locked := by
    rw [h.lock, State.lock_eq_locked]
    exact hi.next_head hpc
  have hitems : m.1.items = n :: c := by rw [h.items, hc, List.tail_cons]
  have hfly : n ∉ m.1.flying := by
    intro hm
    obtain ⟨u, a, hu⟩ := (h.flying n).mp hm
    obtain ⟨hadj', hnode⟩ := hi.publishes u a n hu
    rw [hadj'.left_unique hi.nodup hadj, hn] at hnode
    cases hnode
  have hinv := hi.advance hpc hn
  refine ⟨({ m.1 with items := c }, m.2 ++ [.pop (some n)]), ?_, ?_⟩
  · simp [LockedFifo.queue, LockedFifo.pop, hlock, hitems, hfly]
  constructor
  case items => simp [State.advance, State.ret, State.goto, hc]
  case nodup => exact h.nodup
  case returned => simp [State.advance, State.ret, Event.ret, h.returned]
  case flying =>
      intro b
      rw [h.flying]
      simp only [State.advance, State.ret, State.goto]
      simp only [publishes_update (q := .idle) (Pc.not_push_of_owner hpc).2]
  case lock =>
      refine hlock.trans (Eq.symm (State.lock_eq_locked.mpr ?_))
      intro hu
      have hown := hi.owner t hpc
      have := hinv.locked.mpr hu
      rw [show (s.advance t n).owners = s.owners from rfl] at this
      rw [this] at hown
      cases hown

/-- The owner unlocks an empty queue, or leaves the lock to the first push. -/
theorem Abs.unlocks {m : LockedFifo N × List (FifoRet N)} {e : Event N T} (h : Abs s m)
    (hi : Inv s) (hpc : (s.pc t).owner = true) (hn : s.next s.head = .null)
    (he : e.ret = some (.pop none)) :
    ∃ k m', (LockedFifo.queue N).step m (.pop (.null k)) = some m' ∧
      Abs ({ s with next := Function.update s.next s.head .unlocked }.ret t e) m' := by
  have hlock : m.1.lock = .locked := by
    rw [h.lock, State.lock_eq_locked]
    exact hi.next_head hpc
  have habs : ∀ l, l = State.lock { s with next := Function.update s.next s.head .unlocked } →
      Abs ({ s with next := Function.update s.next s.head .unlocked }.ret t e)
        ({ m.1 with lock := l }, m.2 ++ [.pop none]) := by
    rintro l rfl
    refine ⟨h.items, fun b => ?_, h.nodup, rfl, ?_⟩
    · rw [h.flying]
      simp only [State.ret, State.goto]
      simp only [publishes_update (q := .idle) (Pc.not_push_of_owner hpc).2]
    · simp [State.ret, he, h.returned]
  have hitems := h.items
  cases ht : s.chain.tail with
  | nil =>
      rw [ht] at hitems
      refine ⟨none, _, ?_, habs .free (by simp [State.lock, ht])⟩
      simp [LockedFifo.queue, LockedFifo.pop, hlock, hitems]
  | cons b l =>
      have hadj : Adj s.chain s.head b := by
        obtain ⟨c, hc⟩ := List.head?_eq_some_iff.mp hi.head
        rw [hc, List.tail_cons] at ht
        rw [hc, ht]
        exact .inl ⟨rfl, rfl⟩
      have hfly : b ∈ m.1.flying := by
        rcases hi.flight s.head b hadj with hb | ⟨u, hu⟩
        · rw [hn] at hb
          cases hb
        · exact (h.flying b).mpr ⟨u, s.head, hu⟩
      refine ⟨some b, _, ?_, habs (.promised b) (by simp [State.lock, ht])⟩
      simp [LockedFifo.queue, LockedFifo.pop, hlock, hfly]

/-- Every step of the mailbox is a step of the abstract queue, or none. -/
theorem Abs.step {m : LockedFifo N × List (FifoRet N)} (h : Abs s m) (hi : Inv s)
    (he : Effect s s') :
    Abs s' m ∨ ∃ a m', (LockedFifo.queue N).step m a = some m' ∧ Abs s' m' := by
  cases he with
  | @newNode u n v hp hn =>
      refine .inl (h.stutter rfl (publishes_update (s := s) (by rw [hp]; rfl)) ?_ rfl)
      have hne : s.head ≠ n := by
        rintro rfl
        rw [hi.alloc _ hi.head_mem] at hn
        cases hn
      simp only [State.lock, State.goto, Function.update_of_ne hne]
  | goes hf hp ho hpo hv =>
      refine .inl (h.stutter rfl (publishes_update ?_) rfl rfl)
      rw [hp, (Pc.not_push_of_owner hpo).2]
  | xchg hp =>
      obtain ⟨m', hm, ha⟩ := h.xchg hi hp
      exact .inr ⟨_, m', hm, ha⟩
  | publish hp =>
      obtain ⟨m', hm, ha⟩ := h.publish hi hp
      exact .inr ⟨_, m', hm, ha⟩
  | takes hpc hn =>
      obtain ⟨m', hm, ha⟩ := h.takes hi hpc hn
      exact .inr ⟨_, m', hm, ha⟩
  | peeks hpc hn =>
      refine .inl (h.stutter rfl (publishes_update (Pc.not_push_of_owner hpc).2) rfl ?_)
      simp [State.ret, Event.ret]
  | keeps hpc he =>
      refine .inl (h.stutter rfl (publishes_update (Pc.not_push_of_owner hpc).2) rfl ?_)
      rcases he with rfl | rfl <;> simp [State.ret, Event.ret]
  | @unlocks u e hpc hn he =>
      obtain ⟨k, m', hm, ha⟩ := h.unlocks (e := e) hi hpc hn (by rcases he with rfl | rfl <;> rfl)
      exact .inr ⟨_, m', hm, ha⟩
  | passes hp ho =>
      refine .inl (h.stutter rfl (publishes_update (congrArg Pc.publishes hp)) rfl ?_)
      simp [State.ret, Event.ret]

/-- The mailbox refines the abstract queue. -/
theorem mailbox_simulation :
    System.Simulation (mailbox (N := N) (T := T)) (LockedFifo.queue N) Abs where
  init := by
    rintro s ⟨stub, item, owner, rfl⟩
    refine ⟨(⟨[], [], (State.start stub item owner).lock⟩, []), ⟨⟨_, ?_, rfl⟩, rfl⟩, ?_⟩
    · cases owner <;> simp [State.start, State.lock]
    · exact ⟨rfl, by simp [State.start, Pc.publishes], List.nodup_nil, rfl, rfl⟩
  step := by
    intro s a s' m hr h hs
    have hi := reachable_inv hr
    rcases h.step hi (step_effect hi hs) with h' | ⟨b, m', hm, h'⟩
    · exact ⟨m, .refl, h'⟩
    · exact ⟨m', .step b .refl trivial hm, h'⟩

-- ============================================================================
-- Every run
-- ============================================================================

omit [DecidableEq N] in
theorem Inv.popped_prefix (hi : Inv s) : s.popped <+: s.pushed := by
  rw [hi.items]
  exact List.prefix_append ..

/-- A push that returned true has linked its item to the head. -/
theorem first_of_returned {v : T} (h : Pushing s t n v)
    (hs : mailbox.step s (.step t) = some s') (hlog : s'.log = s.log ++ [.push t n true]) :
    First s' n v := by
  have hi := h.inv
  have hs' : stepThread s t = some s' := hs
  cases hp : s.pc t with
  | publish a m =>
      have hpc := h.pc
      rw [hp] at hpc
      cases hpc
      simp only [stepThread, hp] at hs'
      cases hs'
      have hu : s.next a = .unlocked := by simpa [State.ret] using hlog
      exact h.item ▸ first_of_push hi hp hu hs
  | pushXchg m =>
      simp only [stepThread, hp] at hs'
      cases hs'
      simp [State.goto] at hlog
  | _ =>
      have hpc := h.pc
      rw [hp] at hpc
      cases hpc

/-- After a peek that found an item, that item is the first one. -/
theorem first_of_peek {v : T} (hi : Inv s) (he : Effect s s')
    (hlog : s'.log = s.log ++ [.peek u (some (n, v))]) : First s' n v := by
  have hinv := he.inv hi
  cases he with
  | @peeks u' m hpc hn =>
      have hl : m = n ∧ s.item m = v := by
        simp [State.ret] at hlog
        exact hlog.2
      obtain ⟨rfl, rfl⟩ := hl
      exact ⟨hinv, hn, rfl⟩
  | keeps hpc he => rcases he with rfl | rfl <;> simp [State.ret] at hlog
  | unlocks hpc hn he => rcases he with rfl | rfl <;> simp [State.ret] at hlog
  | newNode | goes | xchg => simp [State.goto] at hlog
  | takes => simp [State.advance, State.ret] at hlog
  | publish | passes => simp [State.ret] at hlog

/-- In every run of a mailbox: what it does, an abstract locked queue does; the
    popped items are a prefix of the pushed ones; there is at most one owner,
    and it comes and goes with the named returns only; an unlocked mailbox with
    an item that was not popped has a push that is going to lock it; after a
    push that returned true, and after a peek that found an item, the next pop
    returns that item. -/
theorem mailbox_lockedFifo :
    (∀ s : State N T, mailbox.Reachable s → ∃ m, (LockedFifo.queue N).Reachable m ∧ Abs s m) ∧
    (∀ s : State N T, mailbox.Reachable s → s.assertFailed = false ∧ s.popped <+: s.pushed ∧
      s.popped = s.log.flatMap Event.taken) ∧
    (∀ s : State N T, mailbox.Reachable s → s.owners.length ≤ 1 ∧
      (s.owners = [] ↔ s.next s.head = .unlocked) ∧
      ∃ owner : Option Nat, s.owners = s.log.foldl (fun o e => e.owners o) owner.toList) ∧
    (∀ (s s' : State N T) (a : Act N T) (t : Nat), mailbox.Reachable s →
      mailbox.step s a = some s' →
      (t ∈ s'.owners → t ∉ s.owners →
        (∃ n, s'.log = s.log ++ [.push t n true]) ∨ ∃ u, s'.log = s.log ++ [.pass u t]) ∧
      (t ∈ s.owners → t ∉ s'.owners →
        s'.log = s.log ++ [.pop t none] ∨ s'.log = s.log ++ [.tryUnlock t true] ∨
          ∃ u, s'.log = s.log ++ [.pass t u])) ∧
    (∀ s : State N T, mailbox.Reachable s → s.next s.head = .unlocked → s.popped ≠ s.pushed →
      ∃ t n, s.pc t = .publish s.head n ∧ ∀ s', mailbox.Path (fun _ a => a ≠ .step t) s s' →
        ∃ s'', mailbox.step s' (.step t) = some s'' ∧
          s''.log = s'.log ++ [.push t n true] ∧ s''.owners = [t]) ∧
    (∀ (s s₁ s₂ s' : State N T) (t : Nat) (n : N) (v : T), mailbox.Reachable s →
      mailbox.step s (.push t n v) = some s₁ → mailbox.Path (Without (Event.isPush t)) s₁ s₂ →
      mailbox.step s₂ (.step t) = some s' → s'.log = s₂.log ++ [.push t n true] →
      NextPop s' n v) ∧
    (∀ (s s' : State N T) (a : Act N T) (u : Nat) (n : N) (v : T), mailbox.Reachable s →
      mailbox.step s a = some s' → s'.log = s.log ++ [.peek u (some (n, v))] →
      NextPop s' n v) := by
  refine ⟨?_, ?_, ?_, ?_, ?_, ?_, ?_⟩
  · intro s hr
    exact mailbox_simulation.reachable hr
  · intro s hr
    have hi := reachable_inv hr
    obtain ⟨-, -, hp⟩ := reachable_log hr
    exact ⟨hi.ok, hi.popped_prefix, hp⟩
  · intro s hr
    have hi := reachable_inv hr
    obtain ⟨owner, ho, -⟩ := reachable_log hr
    exact ⟨hi.single, hi.locked, owner, ho⟩
  · intro s s' a t hr hs
    rcases (step_effect (reachable_inv hr) hs).logged with ⟨-, ho, -⟩ | ⟨e, hlog, ho, -⟩
    · rw [ho]
      exact ⟨fun h hn => absurd h hn, fun h hn => absurd h hn⟩
    · rw [ho, hlog]
      constructor
      · intro h hn
        rcases Event.gained h hn with ⟨n, rfl⟩ | ⟨u, rfl⟩
        · exact .inl ⟨n, rfl⟩
        · exact .inr ⟨u, rfl⟩
      · intro h hn
        rcases Event.givenUp h hn with rfl | rfl | ⟨u, rfl⟩
        · exact .inl rfl
        · exact .inr (.inl rfl)
        · exact .inr (.inr ⟨u, rfl⟩)
  · intro s hr hu hne
    obtain ⟨t, n, hw⟩ := (reachable_inv hr).exists_waiting hu hne
    refine ⟨t, n, hw.pc, fun s' hpath => ?_⟩
    have hw' : Waiting s' t n :=
      hpath.invariant (I := fun x => Waiting x t n) (fun _ _ _ hx hok hs => hx.step hok hs) hw
    exact hw'.locks
  · intro s s₁ s₂ s' t n v hr h1 hpath hs hlog
    have hi := reachable_inv hr
    have hpush : Pushing s₁ t n v := by
      have hi1 := step_inv hi h1
      simp only [mailbox] at h1
      split at h1 <;> cases h1
      exact ⟨hi1, by simp [State.goto, Pc.pushes], Function.update_self ..⟩
    have hpush2 : Pushing s₂ t n v := by
      refine hpath.invariant (I := fun x => Pushing x t n v) ?_ hpush
      intro x b x' hx hw hs
      rcases hx.step (step_effect hx.inv hs) with hx' | ⟨c, hlog⟩
      · exact hx'
      · exact absurd ⟨n, c, rfl⟩ (hw x' _ hs hlog)
    exact (first_of_returned hpush2 hs hlog).nextPop
  · intro s s' a u n v hr hs hlog
    have hi := reachable_inv hr
    exact (first_of_peek hi (step_effect hi hs) hlog).nextPop

end Steps

end Coroactors.ItemMailbox
