/-
  Coroactors.Mailbox.Inv

  The invariant of `intrusive_mailbox` and its preservation by every step.

  `chain` lists the nodes from `head_` to `tail_`.  Every two neighbours in it
  are linked, or the thread that is going to link them is on its way: a `push`
  before its `push_publish`, or the consumer that just put the stub behind the
  head.  `MarkerUnlocked` stands at the head or nowhere, and it stands there
  exactly when nobody owns the mailbox.
-/

import Coroactors.Conc.Chain
import Coroactors.Mailbox.Model
import Mathlib.Tactic.Common

namespace Coroactors.Mailbox

open Coroactors.Conc

variable {N : Type*} {s s' : State N} {t : Nat}

-- ============================================================================
-- The invariant
-- ============================================================================

def Ptr.isNode : Ptr N → Bool
  | .stub => false
  | .node _ => true

theorem Ptr.isNode_of_ne {p : Ptr N} (h : p ≠ .stub) : p.isNode = true := by
  cases p with
  | stub => exact absurd rfl h
  | node n => rfl

def Word.isPtr : Word N → Bool
  | .ptr _ => true
  | _ => false

/-- A thread is on its way to link `b` behind `a`. -/
def InFlight (s : State N) (a b : Ptr N) : Prop :=
  (∃ t n, b = .node n ∧ s.pc t = .publish a n) ∨ (b = .stub ∧ ∃ t op, s.pc t = .linkStub op a)

/-- Two neighbours are linked, or are going to be. -/
def Link (s : State N) (a b : Ptr N) : Prop :=
  s.next a = .ptr b ∨ (s.next a).isPtr = false ∧ InFlight s a b

/-- What the position of thread `t` says about the mailbox. -/
def PcOk (s : State N) (t : Nat) : Pc N → Prop
  | .idle | .tryLock => True
  | .pushStore n => .node n ∉ s.chain
  | .pushXchg n => .node n ∉ s.chain ∧ s.next (.node n) = .null
  | .publish a n => Adj s.chain a (.node n) ∧ (s.next a).isPtr = false
  | .load _ => t ∈ s.owners
  | .stubCas op => t ∈ s.owners ∧ s.head = .stub ∧ op.unlock = true
  | .stubRemove _ p => t ∈ s.owners ∧ s.head = .stub ∧ s.next .stub = .ptr p
  | .headLoad _ h | .tailLoad _ h => t ∈ s.owners ∧ s.head = h ∧ h ≠ .stub
  | .stubAssert _ h | .tailCas _ h => t ∈ s.owners ∧ s.head = h ∧ h ≠ .stub ∧ .stub ∉ s.chain
  | .linkStub _ h => t ∈ s.owners ∧ s.head = h ∧ h ≠ .stub ∧ Adj s.chain h .stub ∧ s.next h = .null
  | .headCas op h => t ∈ s.owners ∧ s.head = h ∧ h ≠ .stub ∧ s.tail ≠ h ∧ op.unlock = true
  | .crashed => False

/-- The node a thread is pushing. -/
def Pc.pushing : Pc N → Option N
  | .pushStore n | .pushXchg n | .publish _ n => some n
  | _ => none

/-- A node is pushed by one thread at a time, and is busy meanwhile. -/
structure Pushers (pc : Nat → Pc N) (busy : N → Bool) : Prop where
  busy : ∀ t n, (pc t).pushing = some n → busy n = true
  once : ∀ t u n, (pc t).pushing = some n → (pc u).pushing = some n → t = u

structure Inv (s : State N) : Prop where
  assertOk : s.assertFailed = false
  head : s.chain.head? = some s.head
  tail : s.chain.getLast? = some s.tail
  nodup : s.chain.Nodup
  link : ∀ a b, Adj s.chain a b → Link s a b
  last : (s.next s.tail).isPtr = false
  marker : ∀ a ∈ s.chain, s.next a = .unlocked → a = s.head
  locked : s.owners = [] ↔ s.next s.head = .unlocked
  single : s.owners.length ≤ 1
  stubOut : .stub ∉ s.chain → s.next .stub = .null
  stubIn : .stub ∉ s.chain.tail.tail
  blocked : s.owners = [] → s.head = s.tail → s.head = .stub
  pc : ∀ t, PcOk s t (s.pc t)
  busy : ∀ n, .node n ∈ s.chain → s.busy n = true
  pushers : Pushers s.pc s.busy
  order : s.popped ++ s.chain.filter Ptr.isNode = s.order.map .node

/-- The node behind which the thread is going to link another one. -/
def Pc.linksAt : Pc N → Option (Ptr N)
  | .publish a _ | .linkStub _ a => some a
  | _ => none

/-- A link stays if its first node and the threads on their way stay. -/
theorem Link.mono {a b : Ptr N} (h : Link s a b) (hn : s'.next a = s.next a)
    (hp : ∀ u, (s.pc u).linksAt = some a → s'.pc u = s.pc u) : Link s' a b := by
  rcases h with h | ⟨h, ⟨u, n, hb, hu⟩ | ⟨hb, u, op, hu⟩⟩
  · exact .inl (hn.trans h)
  · exact .inr ⟨hn ▸ h, .inl ⟨u, n, hb, (hp u (by rw [hu]; rfl)).trans hu⟩⟩
  · exact .inr ⟨hn ▸ h, .inr ⟨hb, u, op, (hp u (by rw [hu]; rfl)).trans hu⟩⟩

theorem Inv.head_mem (h : Inv s) : s.head ∈ s.chain := List.mem_of_mem_head? h.head

theorem Inv.tail_mem (h : Inv s) : s.tail ∈ s.chain := List.mem_of_getLast? h.tail

attribute [local grind =] Adj.append_singleton
attribute [local grind →] Adj.mem_left Adj.mem_right
attribute [local grind] PcOk Pc.pushing Pc.linksAt Word.isPtr

-- ============================================================================
-- Positions
-- ============================================================================

theorem pc_goto_of_ne {u : Nat} {q : Pc N} (hu : u ≠ t) : (s.goto t q).pc u = s.pc u := by
  simp [State.goto, hu]

@[simp] theorem pc_goto_self {q : Pc N} : (s.goto t q).pc t = q := by
  simp [State.goto]

/-- The node whose `next` the position of a thread is about. -/
def Pc.watches : Pc N → Option (Ptr N)
  | .pushXchg n => some (.node n)
  | .publish a _ => some a
  | .stubRemove _ _ => some .stub
  | .linkStub _ h => some h
  | _ => none

theorem PcOk.congr {u : Nat} {p : Pc N} (h : PcOk s u p) (h1 : s'.head = s.head)
    (h2 : s'.tail = s.tail) (h3 : s'.chain = s.chain) (h4 : u ∈ s.owners → u ∈ s'.owners)
    (h5 : ∀ a, p.watches = some a → s'.next a = s.next a) : PcOk s' u p := by
  cases p <;> simp_all [PcOk, Pc.watches]

/-- Threads watch nodes in the list, or the one they are going to add. -/
theorem Inv.watches {u : Nat} {a : Ptr N} (h : Inv s) (ha : (s.pc u).watches = some a) :
    a ∈ s.chain ∨ ∃ n, a = .node n ∧ s.pc u = .pushXchg n := by
  have hok := h.pc u
  have hhead := h.head_mem
  cases hp : s.pc u <;> rw [hp] at hok ha <;> grind -linarith [Pc.watches]

section Pushers

variable {pc : Nat → Pc N} {busy : N → Bool} {q : Pc N}

/-- A thread goes on with the node it pushes, or is done with it. -/
theorem Pushers.update (h : Pushers pc busy)
    (hq : ∀ n, q.pushing = some n → (pc t).pushing = some n) :
    Pushers (Function.update pc t q) busy := by
  have hold : ∀ u n, (Function.update pc t q u).pushing = some n → (pc u).pushing = some n := by
    intro u n hu
    by_cases hut : u = t
    · subst hut
      exact hq n (by simpa using hu)
    · rwa [Function.update_of_ne hut] at hu
  exact ⟨fun u n hu => h.busy u n (hold u n hu),
    fun u v n hu hv => h.once u v n (hold u n hu) (hold v n hv)⟩

/-- A thread starts to push a node. -/
theorem Pushers.start [DecidableEq N] {n : N} (h : Pushers pc busy) (hn : busy n = false)
    (hq : q.pushing = some n) :
    Pushers (Function.update pc t q) (Function.update busy n true) := by
  have hnew : ∀ u, (pc u).pushing ≠ some n := by
    intro u hu
    simp [h.busy u n hu] at hn
  have hold : ∀ u m, (Function.update pc t q u).pushing = some m →
      u = t ∧ m = n ∨ (pc u).pushing = some m ∧ m ≠ n := by
    intro u m hu
    by_cases hut : u = t
    · subst hut
      rw [Function.update_self, hq, Option.some.injEq] at hu
      exact .inl ⟨rfl, hu.symm⟩
    · rw [Function.update_of_ne hut] at hu
      exact .inr ⟨hu, fun hm => hnew u (hm ▸ hu)⟩
  constructor
  · intro u m hu
    rcases hold u m hu with ⟨-, rfl⟩ | ⟨hu, hm⟩
    · simp
    · rw [Function.update_of_ne hm]
      exact h.busy u m hu
  · intro u v m hu hv
    rcases hold u m hu with ⟨rfl, hm⟩ | ⟨hu, hm⟩ <;> rcases hold v m hv with ⟨rfl, hm'⟩ | ⟨hv, hm'⟩
    · rfl
    · exact absurd hm hm'
    · exact absurd hm' hm
    · exact h.once u v m hu hv

/-- A node that nobody pushes may be pushed again. -/
theorem Pushers.release [DecidableEq N] {p : Ptr N} (h : Pushers pc busy)
    (hp : ∀ t n, (pc t).pushing = some n → p ≠ .node n) : Pushers pc (release busy p) := by
  refine ⟨?_, h.once⟩
  intro u m hu
  cases p with
  | stub => exact h.busy u m hu
  | node n =>
      have hm : m ≠ n := by
        rintro rfl
        exact hp u m hu rfl
      simp [Mailbox.release, hm, h.busy u m hu]

end Pushers

-- ============================================================================
-- Steps that do not touch the list
-- ============================================================================

/-- A thread that is not about to link anything moves on. -/
theorem Inv.goto {q : Pc N} (h : Inv s) (hl : (s.pc t).linksAt = none) (hq : PcOk s t q)
    (hpush : ∀ n, q.pushing = some n → (s.pc t).pushing = some n) : Inv (s.goto t q) := by
  refine ⟨h.assertOk, h.head, h.tail, h.nodup, ?_, h.last, h.marker, h.locked, h.single,
    h.stubOut, h.stubIn, h.blocked, ?_, h.busy, h.pushers.update hpush, h.order⟩
  · intro a b hab
    refine (h.link a b hab).mono rfl fun u hu => pc_goto_of_ne ?_
    rintro rfl
    simp [hl] at hu
  · intro u
    by_cases hu : u = t
    · subst hu
      rw [pc_goto_self]
      exact hq
    · rw [pc_goto_of_ne hu]
      exact h.pc u

/-- A return that leaves the owners alone and hands out nothing. -/
theorem Inv.ret {e : Event N} (h : Inv (s.goto t .idle)) (ho : e.owners s.owners = s.owners)
    (ht : e.taken = []) : Inv (s.ret t e) := by
  have hs : s.ret t e = { (s.goto t .idle) with log := s.log ++ [e] } := by
    simp [State.ret, ho, ht, State.goto]
  rw [hs]
  exact ⟨h.assertOk, h.head, h.tail, h.nodup, h.link, h.last, h.marker, h.locked, h.single,
    h.stubOut, h.stubIn, h.blocked, h.pc, h.busy, h.pushers, h.order⟩

theorem State.assert_of {ok : Bool} (h : ok = true) : s.assert ok = s := by
  simp [State.assert, h]

-- ============================================================================
-- Steps of a push
-- ============================================================================

theorem push_inv [DecidableEq N] {n : N} (h : Inv s) (hp : s.pc t = .idle)
    (hb : s.busy n = false) :
    Inv { (s.goto t (.pushStore n)) with busy := Function.update s.busy n true } := by
  have hout : .node n ∉ s.chain := by
    intro hm
    simp [h.busy n hm] at hb
  refine ⟨h.assertOk, h.head, h.tail, h.nodup, ?_, h.last, h.marker, h.locked, h.single,
    h.stubOut, h.stubIn, h.blocked, ?_, ?_, h.pushers.start hb rfl, h.order⟩
  · intro a b hab
    refine (h.link a b hab).mono rfl fun u hu => pc_goto_of_ne ?_
    rintro rfl
    simp [hp, Pc.linksAt] at hu
  · intro u
    by_cases hu : u = t
    · subst hu
      simp only [pc_goto_self]
      exact hout
    · simp only [pc_goto_of_ne hu]
      exact h.pc u
  · intro m hm
    by_cases hmn : m = n
    · simp [hmn]
    · simpa [hmn] using h.busy m hm

theorem pushStore_inv [DecidableEq N] {n : N} (h : Inv s) (hp : s.pc t = .pushStore n) :
    Inv ((s.setNext (.node n) .null).goto t (.pushXchg n)) := by
  have hpc := h.pc t
  rw [hp] at hpc
  have hne : ∀ a ∈ s.chain, Function.update s.next (.node n) .null a = s.next a := by
    intro a ha
    rw [Function.update_of_ne]
    rintro rfl
    exact hpc ha
  have hstub : Function.update s.next (.node n) .null .stub = s.next .stub := by simp
  have m2 : ∀ u, u ≠ t → (s.goto t (.pushXchg n)).pc u = s.pc u := fun u => pc_goto_of_ne
  refine ⟨h.assertOk, h.head, h.tail, h.nodup, ?_, ?_, ?_, ?_, h.single, ?_, h.stubIn,
    h.blocked, ?_, h.busy, h.pushers.update (by simp [hp, Pc.pushing]), h.order⟩
  · intro a b hab
    refine (h.link a b hab).mono (hne a hab.mem_left) fun u hu => m2 u ?_
    rintro rfl
    simp [hp, Pc.linksAt] at hu
  · exact (congrArg Word.isPtr (hne _ h.tail_mem)).trans h.last
  · intro a ha hu
    exact h.marker a ha ((hne a ha).symm.trans hu)
  · exact h.locked.trans (by rw [← hne _ h.head_mem]; rfl)
  · intro hs
    exact hstub.trans (h.stubOut hs)
  · intro u
    by_cases hu : u = t
    · subst hu
      rw [pc_goto_self]
      exact ⟨hpc, Function.update_self ..⟩
    · rw [pc_goto_of_ne hu]
      refine (h.pc u).congr rfl rfl rfl id fun a ha => ?_
      rcases h.watches ha with hm | ⟨m, rfl, hm⟩
      · exact hne a hm
      · refine Function.update_of_ne ?_ _ _
        rintro ⟨⟩
        exact hu (h.pushers.once u t n (by rw [hm]; rfl) (by rw [hp]; rfl))

theorem pushXchg_inv {n : N} (h : Inv s) (hp : s.pc t = .pushXchg n) :
    Inv { (s.goto t (.publish s.tail n)) with
      tail := .node n
      order := s.order ++ [n]
      chain := s.chain ++ [.node n] } := by
  have hpc := h.pc t
  rw [hp] at hpc
  have htail := h.tail_mem
  have hhead := h.head_mem
  have hb := h.pushers.busy t n (by rw [hp]; rfl)
  have m1 : (s.goto t (.publish s.tail n)).pc t = .publish s.tail n := pc_goto_self
  have m2 : ∀ u, u ≠ t → (s.goto t (.publish s.tail n)).pc u = s.pc u := fun u => pc_goto_of_ne
  constructor
  case link =>
    intro a b hab
    rcases Adj.append_singleton.mp hab with hab | ⟨hl, rfl⟩
    · refine (h.link a b hab).mono rfl fun u hu => m2 u ?_
      rintro rfl
      simp [hp, Pc.linksAt] at hu
    · obtain rfl : s.tail = a := by simpa [h.tail] using hl
      exact .inr ⟨h.last, .inl ⟨t, n, rfl, m1⟩⟩
  case pc =>
    intro u
    by_cases hu : u = t
    · subst hu
      rw [m1]
      exact ⟨Adj.append_singleton.mpr (.inr ⟨h.tail, rfl⟩), h.last⟩
    · have hok := h.pc u
      have hne := fun hq => hu (h.pushers.once u t n hq (by rw [hp]; rfl))
      rw [m2 u hu]
      cases hq : s.pc u <;> rw [hq] at hok hne <;> grind -linarith [State.goto]
  case order =>
    have := h.order
    simp [State.goto, ← this, Ptr.isNode]
  case pushers => exact h.pushers.update (by simp [hp, Pc.pushing])
  all_goals grind -linarith [Inv, State.goto]

-- ============================================================================
-- Links
-- ============================================================================

theorem Inv.owner_unique {u v : Nat} (h : Inv s) (hu : u ∈ s.owners) (hv : v ∈ s.owners) :
    u = v := by
  obtain ⟨w, hw⟩ : ∃ w, s.owners = [w] := by
    have := h.single
    cases ho : s.owners with
    | nil => simp [ho] at hu
    | cons w l => simp_all
  simp only [hw, List.mem_singleton] at hu hv
  rw [hu, hv]

/-- The thread that links behind `a` is the only one that watches `a`. -/
theorem Inv.watches_ne {u : Nat} {a b : Ptr N} (h : Inv s) (hp : (s.pc t).linksAt = some a)
    (hu : u ≠ t) (hb : (s.pc u).watches = some b) : b ≠ a := by
  rintro rfl
  have hok := h.pc u
  have hpc := h.pc t
  have hown := fun hm hm' => hu (h.owner_unique (u := u) (v := t) hm hm')
  have hnot := fun n hq hq' => hu (h.pushers.once u t n hq hq')
  have huniq := fun x y => Adj.right_unique (a := b) (b := x) (c := y) h.nodup
  cases hq : s.pc u <;> rw [hq] at hok hb hnot <;> simp only [Pc.watches] at hb <;>
    cases hq' : s.pc t <;> rw [hq'] at hpc hp hnot <;> grind -linarith

/-- A thread links `b` behind `a`; it gains the lock if it finds the marker. -/
theorem Inv.linkNext [DecidableEq N] {a b : Ptr N} (h : Inv s)
    (hl : (s.pc t).linksAt = some a) (hadj : Adj s.chain a b) (hnp : (s.next a).isPtr = false)
    (h1 : s'.next = Function.update s.next a (.ptr b)) (h2 : s'.head = s.head)
    (h3 : s'.tail = s.tail) (h4 : s'.pc = Function.update s.pc t .idle) (h5 : s'.busy = s.busy)
    (h6 : s'.owners = if s.next a = .unlocked then [t] else s.owners)
    (h7 : s'.popped = s.popped) (h8 : s'.order = s.order) (h9 : s'.chain = s.chain)
    (h10 : s'.assertFailed = s.assertFailed) : Inv s' := by
  have hmem := hadj.mem_left
  have hset : s'.next a = .ptr b := by simp [h1]
  have hne : ∀ c, c ≠ a → s'.next c = s.next c := fun c hc => by simp [h1, hc]
  have hgain : s.next a = .unlocked → a = s.head ∧ s.owners = [] := by
    intro hu
    have := h.marker a hmem hu
    exact ⟨this, h.locked.mpr (this ▸ hu)⟩
  have hpc' : ∀ u, u ≠ t → s'.pc u = s.pc u := fun u hu => by simp [h4, hu]
  constructor
  case link =>
    intro c d hcd
    rw [h9] at hcd
    by_cases hc : c = a
    · subst hc
      obtain rfl := hcd.right_unique h.nodup hadj
      exact .inl hset
    · refine (h.link c d hcd).mono (hne c hc) fun u hu => hpc' u ?_
      rintro rfl
      exact hc (Option.some.inj (hu.symm.trans hl))
  case pc =>
    intro u
    by_cases hu : u = t
    · rw [hu, h4, Function.update_self]
      trivial
    · rw [hpc' u hu]
      refine (h.pc u).congr h2 h3 h9 ?_ fun b hb => hne b (h.watches_ne hl hu hb)
      intro hm
      rw [h6, if_neg]
      · exact hm
      · intro hunl
        simp [(hgain hunl).2] at hm
  case pushers => exact h5 ▸ h4 ▸ h.pushers.update (by simp [Pc.pushing])
  case order =>
    rw [h7, h8, h9]
    exact h.order
  case last =>
    rw [h3, hne _ (hadj.ne_last h.nodup h.tail).symm]
    exact h.last
  case stubOut =>
    intro hs
    rw [h9] at hs
    rw [hne _ (by rintro rfl; exact hs hmem)]
    exact h.stubOut hs
  case marker => grind -linarith [Inv]
  case locked => grind -linarith [Inv]
  case single => grind -linarith [Inv]
  case blocked => grind -linarith [Inv]
  case busy => grind -linarith [Inv]
  case assertOk => exact h10.trans h.assertOk
  case head => rw [h9, h2]; exact h.head
  case tail => rw [h9, h3]; exact h.tail
  case nodup => rw [h9]; exact h.nodup
  case stubIn => rw [h9]; exact h.stubIn

-- ============================================================================
-- The marker
-- ============================================================================

/-- The marker at the head is set or cleared, and the owners with it. -/
theorem Inv.setMark [DecidableEq N] {w : Word N} (h : Inv s) (hw : w.isPtr = false)
    (hold : (s.next s.head).isPtr = false) (hl : (s.pc t).linksAt = none)
    (honly : ∀ u, u ∈ s.owners → u = t)
    (h1 : s'.next = Function.update s.next s.head w) (h2 : s'.head = s.head)
    (h3 : s'.tail = s.tail) (h4 : s'.pc = Function.update s.pc t .idle) (h5 : s'.busy = s.busy)
    (h6 : s'.owners = [] ↔ w = .unlocked) (h6' : s'.owners.length ≤ 1)
    (h6'' : s'.owners = [] → s.head = s.tail → s.head = .stub)
    (h7 : s'.popped = s.popped) (h8 : s'.order = s.order) (h9 : s'.chain = s.chain)
    (h10 : s'.assertFailed = s.assertFailed) : Inv s' := by
  have hset : s'.next s.head = w := by simp [h1]
  have hne : ∀ c, c ≠ s.head → s'.next c = s.next c := fun c hc => by simp [h1, hc]
  have hpc' : ∀ u, u ≠ t → s'.pc u = s.pc u := fun u hu => by simp [h4, hu]
  have hpcl : ∀ u, (s.pc u).linksAt ≠ none → s'.pc u = s.pc u := by
    intro u hu
    refine hpc' u ?_
    rintro rfl
    exact hu hl
  have hptr : ∀ a, (s.next a).isPtr = false → (s'.next a).isPtr = false := by
    intro a ha
    by_cases hah : a = s.head
    · rw [hah, hset, hw]
    · rw [hne a hah, ha]
  have hhead := h.head_mem
  constructor
  case link =>
    intro a b hab
    rw [h9] at hab
    by_cases ha : a = s.head
    · subst ha
      rcases h.link _ b hab with hp | ⟨-, ⟨u, n, hb, hu⟩ | ⟨hb, u, op, hu⟩⟩
      · simp [hp, Word.isPtr] at hold
      · refine .inr ⟨hset ▸ hw, .inl ⟨u, n, hb, (hpcl u ?_).trans hu⟩⟩
        simp [hu, Pc.linksAt]
      · refine .inr ⟨hset ▸ hw, .inr ⟨hb, u, op, (hpcl u ?_).trans hu⟩⟩
        simp [hu, Pc.linksAt]
    · refine (h.link a b hab).mono (hne a ha) fun u hu => hpcl u (by simp [hu])
  case pc =>
    intro u
    by_cases hu : u = t
    · rw [hu, h4, Function.update_self]
      trivial
    · have hok := h.pc u
      have hno := fun hm => hu (honly u hm)
      rw [hpc' u hu]
      cases hq : s.pc u <;> rw [hq] at hok <;> grind -linarith
  case pushers => exact h5 ▸ h4 ▸ h.pushers.update (by simp [Pc.pushing])
  case order =>
    rw [h7, h8, h9]
    exact h.order
  case last => grind -linarith [Inv]
  case stubOut => grind -linarith [Inv]
  case marker => grind -linarith [Inv]
  case locked => grind -linarith [Inv]
  case blocked => grind -linarith [Inv]
  case busy => grind -linarith [Inv]
  case single => exact h6'
  case assertOk => exact h10.trans h.assertOk
  case head => rw [h9, h2]; exact h.head
  case tail => rw [h9, h3]; exact h.tail
  case nodup => rw [h9]; exact h.nodup
  case stubIn => rw [h9]; exact h.stubIn

-- ============================================================================
-- The ends of the list
-- ============================================================================

theorem Inv.chain_eq (h : Inv s) : ∃ l, s.chain = s.head :: l := by
  have hh := h.head
  cases hc : s.chain with
  | nil => simp [hc] at hh
  | cons a l =>
      obtain rfl : a = s.head := by simpa [hc] using hh
      exact ⟨l, rfl⟩

/-- The head is linked to what comes after it in the list. -/
theorem Inv.chain_of_ptr {p : Ptr N} (h : Inv s) (hp : s.next s.head = .ptr p) :
    ∃ l, s.chain = s.head :: p :: l := by
  obtain ⟨l, hc⟩ := h.chain_eq
  cases l with
  | nil =>
      have htail := h.tail
      have hlast := h.last
      simp only [hc, List.getLast?_singleton, Option.some.injEq] at htail
      simp [← htail, hp, Word.isPtr] at hlast
  | cons b l =>
      rcases h.link s.head b (by rw [hc]; exact .inl ⟨rfl, rfl⟩) with hb | ⟨hb, -⟩
      · rw [hp] at hb
        cases hb
        exact ⟨l, hc⟩
      · simp [hp, Word.isPtr] at hb

theorem Inv.pushing_ne_head {u : Nat} {n : N} (h : Inv s) (hu : (s.pc u).pushing = some n) :
    s.head ≠ .node n := by
  have hok := h.pc u
  have hhead := h.head_mem
  have hne := fun a => fun hadj => Adj.ne_head (a := a) (b := .node n) h.nodup hadj h.head
  cases hq : s.pc u <;> rw [hq] at hok hu <;> grind -linarith

/-- The head is dropped, being linked to `p`. -/
theorem Inv.dropHead [DecidableEq N] {p : Ptr N} {q : Pc N} (h : Inv s)
    (hp : s.next s.head = .ptr p) (hl : (s.pc t).linksAt = none) (ht : t ∈ s.owners)
    (hq : q.pushing = none) (hqok : PcOk s' t q)
    (h1 : ∀ a, a ≠ s.head → s'.next a = s.next a) (h1' : s.head = .stub → s'.next .stub = .null)
    (h2 : s'.head = p) (h3 : s'.tail = s.tail) (h4 : s'.pc = Function.update s.pc t q)
    (h5 : s'.busy = release s.busy s.head) (h6 : s'.owners = s.owners)
    (h7 : s'.popped = s.popped ++ [s.head].filter Ptr.isNode)
    (h8 : s'.order = s.order) (h9 : s'.chain = s.chain.tail)
    (h10 : s'.assertFailed = s.assertFailed) : Inv s' := by
  obtain ⟨l, hc⟩ := h.chain_of_ptr hp
  have hnd := h.nodup
  have hc' : s'.chain = p :: l := by rw [h9, hc]; rfl
  rw [hc, List.nodup_cons] at hnd
  have hadj : ∀ a b, Adj s'.chain a b → Adj s.chain a b ∧ a ≠ s.head := by
    intro a b hab
    rw [hc'] at hab
    exact ⟨by rw [hc]; exact .inr hab, by rintro rfl; exact hnd.1 hab.mem_left⟩
  have hpc' : ∀ u, u ≠ t → s'.pc u = s.pc u := fun u hu => by simp [h4, hu]
  have hmark : ∀ a ∈ s'.chain, s'.next a ≠ .unlocked := by
    intro a ha hu
    rw [hc'] at ha
    have hne : a ≠ s.head := by
      rintro rfl
      exact hnd.1 ha
    rw [h1 a hne] at hu
    exact hne (h.marker a (by rw [hc]; exact List.mem_cons_of_mem _ ha) hu)
  constructor
  case link =>
    intro a b hab
    obtain ⟨hab', ha⟩ := hadj a b hab
    refine (h.link a b hab').mono (h1 a ha) fun u hu => hpc' u ?_
    rintro rfl
    simp [hl] at hu
  case pc =>
    intro u
    by_cases hu : u = t
    · rw [hu, h4, Function.update_self]
      exact hqok
    · have hok := h.pc u
      have hno := fun hm => hu (h.owner_unique hm ht)
      rw [hpc' u hu]
      cases hq : s.pc u <;> rw [hq] at hok <;> grind -linarith [Adj.cons_cons]
  case pushers =>
    rw [h4, h5]
    refine (h.pushers.update (by simp [hq])).release ?_
    intro u n hu
    refine h.pushing_ne_head (u := u) ?_
    by_cases hut : u = t
    · simp [hut, hq] at hu
    · rwa [Function.update_of_ne hut] at hu
  case busy =>
    intro n hn
    have hne : s.head ≠ .node n := by
      rintro he
      exact hnd.1 (he ▸ hc' ▸ hn)
    have hb := h.busy n (by rw [hc]; exact List.mem_cons_of_mem _ (hc' ▸ hn))
    rw [h5]
    cases hh : s.head with
    | stub => exact hb
    | node m =>
        have hnm : n ≠ m := by
          rintro rfl
          exact hne hh
        simpa [release, hnm] using hb
  case order =>
    have := h.order
    rw [hc] at this
    rw [h7, h8, hc', List.append_assoc, ← List.filter_append]
    exact this
  case head => rw [hc', h2]; rfl
  case tail =>
    have := h.tail
    rw [hc, List.getLast?_cons_cons] at this
    rw [hc', h3, this]
  case nodup => exact hc' ▸ hnd.2
  case last =>
    rw [h3, h1 _ ?_]
    · exact h.last
    · rintro he
      have := h.last
      simp [he, hp, Word.isPtr] at this
  case marker => exact fun a ha hu => absurd hu (hmark a ha)
  case locked =>
    refine iff_of_false ?_ (hmark _ (by rw [hc', h2]; exact List.mem_cons_self))
    rw [h6]
    exact List.ne_nil_of_mem ht
  case single => rw [h6]; exact h.single
  case stubOut =>
    intro hs
    by_cases hh : s.head = .stub
    · exact h1' hh
    · rw [h1 _ (Ne.symm hh)]
      refine h.stubOut ?_
      rw [hc, List.mem_cons, not_or]
      exact ⟨Ne.symm hh, hc' ▸ hs⟩
  case stubIn =>
    have := h.stubIn
    rw [hc] at this
    rw [hc']
    exact fun hm => this (List.mem_of_mem_tail hm)
  case blocked =>
    rw [h6]
    exact fun ho => absurd ho (List.ne_nil_of_mem ht)
  case assertOk => exact h10.trans h.assertOk

/-- A head that is also the tail is the only node. -/
theorem Inv.chain_singleton (h : Inv s) (htail : s.head = s.tail) : s.chain = [s.head] := by
  obtain ⟨l, hc⟩ := h.chain_eq
  have hl := h.tail
  have hnd := h.nodup
  cases l with
  | nil => exact hc
  | cons c l =>
      rw [hc, List.getLast?_cons_cons, ← htail] at hl
      rw [hc, List.nodup_cons] at hnd
      exact absurd (List.mem_of_getLast? hl) hnd.1

/-- The consumer puts the stub behind a head that is the only node. -/
theorem Inv.appendStub {op : Op} {a : Ptr N} (h : Inv s) (hp : s.pc t = .tailCas op a)
    (htail : s.tail = a) :
    Inv { (s.goto t (.linkStub op a)) with tail := .stub, chain := s.chain ++ [.stub] } := by
  have hpc := h.pc t
  rw [hp] at hpc
  obtain ⟨ht, rfl, hns, hout⟩ := hpc
  have hnull : s.next s.head = .null := by
    have hl := htail ▸ h.last
    have hu := mt h.locked.mpr (List.ne_nil_of_mem ht)
    cases hw : s.next s.head <;> simp_all [Word.isPtr]
  have hnp : (s.next s.head).isPtr = false := by rw [hnull]; rfl
  have hc : s.chain = [s.head] := h.chain_singleton htail.symm
  have m2 : ∀ u, u ≠ t → (s.goto t (.linkStub op s.head)).pc u = s.pc u := fun u => pc_goto_of_ne
  have hadj : Adj (s.chain ++ [.stub]) s.head .stub := by
    rw [hc]
    exact .inl ⟨rfl, rfl⟩
  constructor
  case link =>
    intro b c hbc
    rcases Adj.append_singleton.mp hbc with hbc | ⟨hl, rfl⟩
    · simp [hc] at hbc
    · obtain rfl : s.head = b := by simpa [hc] using hl
      exact .inr ⟨hnp, .inr ⟨rfl, t, op, pc_goto_self⟩⟩
  case pc =>
    intro u
    by_cases hu : u = t
    · subst hu
      simp only [pc_goto_self]
      exact ⟨ht, rfl, hns, hadj, hnull⟩
    · have hok := h.pc u
      have hno := fun hm => hu (h.owner_unique hm ht)
      simp only [m2 u hu]
      cases hq : s.pc u <;> rw [hq] at hok <;> grind -linarith [State.goto]
  case order =>
    have := h.order
    simpa [State.goto, Ptr.isNode] using this
  case pushers => exact h.pushers.update (by simp [Pc.pushing])
  case last =>
    simp [State.goto, h.stubOut hout, Word.isPtr]
  all_goals grind -linarith [Inv, State.goto]

-- ============================================================================
-- `pop_impl`
-- ============================================================================

section PopImpl

variable {op : Op} {p : Ptr N}

theorem State.retSome_goto [DecidableEq N] {a : Ptr N} {q : Pc N} :
    (s.goto t q).retSome t op a p = s.retSome t op a p := by
  cases op <;> simp [State.retSome, State.ret, State.goto]

/-- `pop_impl` found a removable head. -/
theorem Inv.retSome [DecidableEq N] (h : Inv s) (hl : (s.pc t).linksAt = none) (ht : t ∈ s.owners)
    (hns : s.head ≠ .stub) (hp : s.next s.head = .ptr p) : Inv (s.retSome t op s.head p) := by
  have hidle : Inv (s.goto t .idle) := h.goto hl trivial (by simp [Pc.pushing])
  have hfilter : [s.head].filter Ptr.isNode = [s.head] := by
    cases hh : s.head <;> simp_all [Ptr.isNode]
  cases op
  case pop | tryPop =>
    refine h.dropHead (q := .idle) hp hl ht rfl trivial (fun _ _ => rfl) (fun he => absurd he hns) rfl rfl
      rfl rfl rfl ?_ rfl rfl rfl
    rw [hfilter]
    rfl
  case peek => exact hidle.ret rfl rfl
  case tryUnlock => exact hidle.ret rfl rfl

/-- `pop_impl` returns without a head and without unlocking. -/
theorem Inv.retNone (h : Inv s) (hl : (s.pc t).linksAt = none) (hop : op.unlock = false) :
    Inv (s.retNone t op) := by
  have hidle : Inv (s.goto t .idle) := h.goto hl trivial (by simp [Pc.pushing])
  cases op <;> simp only [Op.unlock] at hop
  case tryPop => exact hidle.ret rfl rfl
  case peek => exact hidle.ret rfl rfl
  all_goals cases hop

/-- `pop_impl` unlocks at the head. -/
theorem Inv.unlock [DecidableEq N] (h : Inv s) (hl : (s.pc t).linksAt = none) (ht : t ∈ s.owners)
    (hn : s.next s.head = .null) (hb : s.head = s.tail → s.head = .stub)
    (hop : op.unlock = true) : Inv ((s.setNext s.head .unlocked).retNone t op) := by
  have ho : s.owners.erase t = [] := by
    obtain ⟨u, hu⟩ : ∃ u, s.owners = [u] := by
      have := h.single
      cases ho : s.owners with
      | nil => simp [ho] at ht
      | cons w l => simp_all
    simp_all
  have honly : ∀ u, u ∈ s.owners → u = t := fun u hu => h.owner_unique hu ht
  cases op <;> simp only [Op.unlock] at hop
  case pop | tryUnlock =>
    refine h.setMark (w := .unlocked) rfl (by rw [hn]; rfl) hl honly rfl rfl rfl rfl rfl ?_ ?_ ?_
      (List.append_nil _) rfl rfl rfl
    · exact iff_of_true ho rfl
    · simp [State.retNone, State.ret, Event.owners, State.goto, State.setNext, ho]
    · exact fun _ => hb
  all_goals cases hop

theorem Inv.removeStub (h : Inv s) (hl : (s.pc t).linksAt = none) (ht : t ∈ s.owners)
    (hs : s.head = .stub) (hn : s.next .stub ≠ .null) :
    Inv (s.removeStub t op (s.next .stub)) := by
  cases hw : s.next .stub with
  | null => exact absurd hw hn
  | unlocked =>
      rw [← hs] at hw
      exact absurd (h.locked.mpr hw) (List.ne_nil_of_mem ht)
  | ptr p => exact h.goto hl ⟨ht, hs, hw⟩ (by simp [Pc.pushing])

theorem Inv.finish [DecidableEq N] (h : Inv s) (hl : (s.pc t).linksAt = none) (ht : t ∈ s.owners)
    (hns : s.head ≠ .stub) (hn : s.next s.head ≠ .null) :
    Inv (s.finish t op s.head (s.next s.head)) := by
  cases hw : s.next s.head with
  | null => exact absurd hw hn
  | unlocked => exact absurd (h.locked.mpr hw) (List.ne_nil_of_mem ht)
  | ptr p => exact h.retSome hl ht hns hw

theorem Inv.loaded [DecidableEq N] (h : Inv s) (hl : (s.pc t).linksAt = none) (ht : t ∈ s.owners)
    (hns : s.head ≠ .stub) : Inv (s.loaded t op s.head (s.next s.head)) := by
  cases hw : s.next s.head with
  | null => exact h.goto hl ⟨ht, rfl, hns⟩ (by simp [Pc.pushing])
  | unlocked => exact absurd (h.locked.mpr hw) (List.ne_nil_of_mem ht)
  | ptr p => exact h.retSome hl ht hns hw

theorem Inv.blockedHead (h : Inv s) (hl : (s.pc t).linksAt = none) (ht : t ∈ s.owners)
    (hns : s.head ≠ .stub) (htail : s.tail ≠ s.head) : Inv (s.blocked t op s.head) := by
  unfold State.blocked
  split
  · rename_i hop
    exact h.goto hl ⟨ht, rfl, hns, htail, hop⟩ (by simp [Pc.pushing])
  · rename_i hop
    exact h.retNone hl (by simpa using hop)

end PopImpl

-- ============================================================================
-- Every run
-- ============================================================================

theorem start_inv (next : N → Word N) (owner : Option Nat) : Inv (State.start next owner) := by
  constructor
  case locked => cases owner <;> simp [State.start]
  case last => cases owner <;> simp [State.start, Word.isPtr]
  case single => cases owner <;> simp [State.start]
  case pushers => constructor <;> simp [State.start, Pc.pushing]
  all_goals simp [State.start, PcOk, Ptr.isNode]

theorem stepThread_inv [DecidableEq N] (h : Inv s) (hs : stepThread s t = some s') : Inv s' := by
  have hok := h.pc t
  cases hp : s.pc t <;> simp only [stepThread, hp] at hs <;> rw [hp] at hok
  case pushStore n =>
    cases hs
    exact pushStore_inv h hp
  case pushXchg n =>
    cases hs
    exact pushXchg_inv h hp
  case publish a n =>
    obtain ⟨hadj, hnp⟩ := hok
    cases hs
    have hassert : (decide (s.next a = .null) || decide (s.next a = .unlocked)) = true := by
      cases hw : s.next a <;> simp_all [Word.isPtr]
    rw [State.assert_of hassert]
    refine h.linkNext (a := a) (by rw [hp]; rfl) hadj hnp rfl rfl rfl rfl rfl ?_ ?_ rfl rfl rfl
    · by_cases hu : s.next a = .unlocked
      · have ho : s.owners = [] := h.locked.mpr (h.marker a hadj.mem_left hu ▸ hu)
        simp [State.ret, State.goto, State.setNext, Event.owners, hu, ho]
      · simp [State.ret, State.goto, State.setNext, Event.owners, hu]
    · simp [State.ret, Event.taken, State.setNext]
  case tryLock =>
    split at hs <;> cases hs
    · rename_i hu
      have hin : .stub ∈ s.chain := by
        by_contra hout
        simp [h.stubOut hout] at hu
      have hh : .stub = s.head := h.marker _ hin hu
      have ho : s.owners = [] := h.locked.mpr (hh ▸ hu)
      rw [State.assert_of (by simpa using hh.symm)]
      refine h.setMark (w := .null) rfl ?_ (by rw [hp]; rfl) (by simp [ho]) ?_ rfl rfl rfl rfl ?_
        ?_ ?_ (List.append_nil _) rfl rfl rfl
      · rw [← hh, hu]
        rfl
      · rw [← hh]
        rfl
      all_goals simp [State.ret, State.goto, State.setNext, Event.owners, ho]
    · exact (h.goto (q := .idle) (by rw [hp]; rfl) trivial (by simp [Pc.pushing])).ret rfl rfl
  case load op =>
    have hl : (s.pc t).linksAt = none := by rw [hp]; rfl
    split at hs
    · rename_i hh
      split at hs <;> cases hs
      · split
        · rename_i hop
          exact h.goto hl ⟨hok, hh, hop⟩ (by simp [Pc.pushing])
        · rename_i hop
          exact h.retNone hl (by simpa using hop)
      · rename_i hn
        exact h.removeStub hl hok hh hn
    · rename_i hh
      cases hs
      exact h.loaded hl hok hh
  case stubCas op =>
    have hl : (s.pc t).linksAt = none := by rw [hp]; rfl
    obtain ⟨ht, hh, hop⟩ := hok
    split at hs <;> cases hs
    · rename_i hn
      rw [← hh] at hn ⊢
      exact h.unlock hl ht hn (fun _ => hh) hop
    · rename_i hn
      exact h.removeStub hl ht hh hn
  case stubRemove op p =>
    obtain ⟨ht, hh, hn⟩ := hok
    rw [← hh] at hn
    obtain ⟨l, hc⟩ := h.chain_of_ptr hn
    have hns : p ≠ .stub := by
      have := h.nodup
      rw [hc, hh, List.nodup_cons] at this
      rintro rfl
      exact this.1 List.mem_cons_self
    cases hs
    refine h.dropHead (q := .headLoad op p) hn (by rw [hp]; rfl) ht rfl ⟨ht, rfl, hns⟩ ?_ ?_ rfl
      rfl rfl ?_ rfl ?_ rfl rfl rfl
    · intro a ha
      exact Function.update_of_ne (hh ▸ ha) _ _
    · simp [State.goto, State.setNext]
    · rw [hh]
      rfl
    · rw [hh]
      exact (List.append_nil _).symm
  case headLoad op a =>
    obtain ⟨ht, rfl, hns⟩ := hok
    cases hs
    exact h.loaded (by rw [hp]; rfl) ht hns
  case tailLoad op a =>
    obtain ⟨ht, rfl, hns⟩ := hok
    have hl : (s.pc t).linksAt = none := by rw [hp]; rfl
    split at hs <;> cases hs
    · rename_i htail
      refine h.goto hl ⟨ht, rfl, hns, ?_⟩ (by simp [Pc.pushing])
      rw [h.chain_singleton htail.symm, List.mem_singleton]
      exact hns.symm
    · rename_i htail
      exact h.blockedHead hl ht hns htail
  case stubAssert op a =>
    cases hs
    rw [State.assert_of (by simpa using h.stubOut hok.2.2.2)]
    exact h.goto (by rw [hp]; rfl) hok (by simp [Pc.pushing])
  case tailCas op a =>
    have hl : (s.pc t).linksAt = none := by rw [hp]; rfl
    split at hs <;> cases hs
    · rename_i htail
      exact h.appendStub hp htail
    · rename_i htail
      obtain ⟨ht, rfl, hns, -⟩ := hok
      exact h.blockedHead hl ht hns htail
  case linkStub op a =>
    obtain ⟨ht, rfl, hns, hadj, hnull⟩ := hok
    cases hs
    have hlink : Inv ((s.setNext s.head (.ptr .stub)).goto t .idle) := by
      refine h.linkNext (a := s.head) (by rw [hp]; rfl) hadj (by rw [hnull]; rfl) rfl rfl rfl rfl
        rfl ?_ rfl rfl rfl rfl
      simp [State.goto, State.setNext, hnull]
    rw [← State.retSome_goto (q := .idle)]
    exact hlink.retSome (by rw [pc_goto_self]; rfl) ht hns (Function.update_self ..)
  case headCas op a =>
    have hl : (s.pc t).linksAt = none := by rw [hp]; rfl
    obtain ⟨ht, rfl, hns, htail, hop⟩ := hok
    split at hs <;> cases hs
    · rename_i hn
      exact h.unlock hl ht hn (fun he => absurd he.symm htail) hop
    · rename_i hn
      exact h.finish hl ht hns hn
  all_goals cases hs

/-- An idle owner passes the lock on. -/
theorem pass_inv {u v : Nat} (h : Inv s) (hp : s.pc u = .idle) (hu : u ∈ s.owners) :
    Inv (s.ret u (.pass u v)) := by
  have ho : s.owners = [u] := by
    have := h.single
    cases ho : s.owners with
    | nil => simp [ho] at hu
    | cons w l => simp_all
  have hpc : (s.goto u .idle).pc = s.pc := by
    funext w
    by_cases hw : w = u
    · rw [hw, pc_goto_self, hp]
    · exact pc_goto_of_ne hw
  have hs : s.ret u (.pass u v) = { s with
      log := s.log ++ [.pass u v]
      owners := [v] } := by
    simp only [State.ret, Event.owners, Event.taken, ho, List.erase_cons_head, hpc,
      List.append_nil]
    rfl
  rw [hs]
  refine ⟨h.assertOk, h.head, h.tail, h.nodup, h.link, h.last, h.marker, ?_, by simp, h.stubOut,
    h.stubIn, by simp, ?_, h.busy, h.pushers, h.order⟩
  · have hl := mt h.locked.mpr (List.ne_nil_of_mem hu)
    exact iff_of_false (by simp) hl
  · intro w
    have hok := h.pc w
    have hw : w ∈ s.owners → s.pc w = .idle := by
      intro hm
      obtain rfl := h.owner_unique hm hu
      exact hp
    cases hq : s.pc w <;> rw [hq] at hok <;> grind -linarith

theorem step_inv [DecidableEq N] {a : Act N} (h : Inv s)
    (hs : (mailbox N).step s a = some s') : Inv s' := by
  cases a <;> simp only [mailbox] at hs
  case push u n =>
    split at hs <;> cases hs
    rename_i hc
    exact push_inv h hc.1 hc.2
  case tryLock u =>
    split at hs <;> cases hs
    rename_i hc
    exact h.goto (by rw [hc]; rfl) trivial (by simp [Pc.pushing])
  case call u op =>
    split at hs <;> cases hs
    rename_i hc
    exact h.goto (by rw [hc.1]; rfl) hc.2 (by simp [Pc.pushing])
  case step u => exact stepThread_inv h hs
  case pass u v =>
    split at hs <;> cases hs
    rename_i hc
    exact pass_inv h hc.1 hc.2

/-- The invariant holds in every state of every run. -/
theorem reachable_inv [DecidableEq N] (h : (mailbox N).Reachable s) : Inv s := by
  refine h.invariant ?_ fun _ _ _ hi _ hs => step_inv hi hs
  rintro s ⟨next, owner, rfl⟩
  exact start_inv next owner

end Coroactors.Mailbox
