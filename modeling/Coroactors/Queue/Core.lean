/-
  Coroactors.Queue.Core

  The nodes of `blocking_queue` and its lock: one consumer at a time works on
  the head, every exchange on `tail_` appends a node, and the head is advanced
  over links that were published.

  The invariant does not look at the waiters.  A value of `head_` that is not a
  node means that the queue is locked, whatever it is, and a value of
  `head->next` that is not a node means that there is no item.
-/

import Coroactors.Queue.Model
import Coroactors.Conc.Chain

namespace Coroactors.Queue

open Coroactors.Conc

variable {N T : Type*} {s s' : State N T} {t u : Nat}

-- ============================================================================
-- What a thread has to do with the nodes
-- ============================================================================

theorem Link.isNode_of_ne {v : Link N} (h : ∀ n, v = .node n → False) : v.isNode = false := by
  cases v with
  | node n => exact (h n rfl).elim
  | null => rfl
  | waiter w => rfl

/-- The head that the thread has locked. -/
def Pc.locked : Pc N T → Option N
  | .popNext h | .popCas h _ | .unlockWaiting h | .tryNext h | .noItemCas h _ | .noItemXchg h _
  | .noItemInstall h _ => some h
  | .takenCas j | .takenXchg j | .takenLoad j | .takenInstall j _ | .fullCas j | .fullXchg j =>
      some j.head
  | _ => none

/-- The item that the thread took, and the head it left behind. -/
def Pc.job : Pc N T → Option (Taken N T)
  | .takenCas j | .takenXchg j | .takenLoad j | .takenInstall j _ | .fullCas j | .fullXchg j
  | .fullNotify j | .free j => some j
  | _ => none

def Pc.isPush : Pc N T → Bool
  | .pushXchg _ | .pushPublish .. | .pushNotify _ => true
  | _ => false

theorem Pc.eq_idle {p : Pc N T} (h : p.isIdle = true) : p = .idle := by
  cases p <;> first | rfl | cases h

/-- The node that the thread is about to append. -/
def Pc.fresh : Pc N T → Option N
  | .pushXchg n => some n
  | _ => none

/-- The link that the thread is about to publish. -/
def Pc.publishes : Pc N T → Option (N × N)
  | .pushPublish a b => some (a, b)
  | _ => none

/-- The node that only this thread knows. -/
def Pc.owns (pc : Pc N T) : Option N := pc.fresh.or (pc.job.map Taken.old)

/-- The item that the thread took and has not returned. -/
def Pc.carried (pc : Pc N T) : List T := (pc.job.map Taken.item).toList

/-- A compare-exchange on `head->next` does not expect a node. -/
def Pc.sane : Pc N T → Bool
  | .popCas _ v | .noItemCas _ v | .noItemXchg _ v | .noItemInstall _ v | .takenInstall _ v =>
      !v.isNode
  | _ => true

/-- Two places are the same as far as the nodes go. -/
structure Pc.Alike (p q : Pc N T) : Prop where
  locked : p.locked = q.locked
  job : p.job = q.job
  fresh : p.fresh = q.fresh
  publishes : p.publishes = q.publishes
  sane : p.sane = true → q.sane = true

theorem Pc.Alike.trans {p q r : Pc N T} (h : p.Alike q) (h' : q.Alike r) : p.Alike r :=
  ⟨h.locked.trans h'.locked, h.job.trans h'.job, h.fresh.trans h'.fresh,
    h.publishes.trans h'.publishes, h'.sane ∘ h.sane⟩

theorem Pc.Alike.owns {p q : Pc N T} (h : p.Alike q) : p.owns = q.owns := by
  rw [Pc.owns, Pc.owns, h.job, h.fresh]

theorem Pc.Alike.carried {p q : Pc N T} (h : p.Alike q) : p.carried = q.carried := by
  rw [Pc.carried, Pc.carried, h.job]

/-- The items that the thread took. -/
def takenBy (s : State N T) (t : Nat) : List T :=
  s.taken.filterMap fun p => if p.1 = t then some p.2 else none

/-- The items that the thread's calls returned. -/
def returnedBy (s : State N T) (t : Nat) : List T :=
  s.results.filterMap fun p => if p.1 = t then p.2 else none

theorem takenBy_append {v : T} {l : List (Nat × T)} :
    takenBy { s with taken := l ++ [(t, v)] } u =
      takenBy { s with taken := l } u ++ if t = u then [v] else [] := by
  rw [takenBy, List.filterMap_append]
  split <;> simp [takenBy, *]

-- ============================================================================
-- The invariant
-- ============================================================================

structure CoreInv (s : State N T) : Prop where
  nodup : s.chain.Nodup
  last : s.chain.getLast? = some s.tail
  headNode : ∀ n, s.head = .node n → s.holder = none ∧ s.chain.head? = some n
  headLocked : s.head.isNode = false → s.holder ≠ none
  locked : ∀ t h, (s.pc t).locked = some h → s.holder = some t ∧ s.chain.head? = some h
  holder : ∀ t, s.holder = some t → (s.pc t).locked.isSome = true
  alloc : ∀ n ∈ s.chain, s.alloc n = true
  owns : ∀ t n, (s.pc t).owns = some n → s.alloc n = true ∧ n ∉ s.chain
  ownsInj : ∀ t u n, (s.pc t).owns = some n → (s.pc u).owns = some n → t = u
  sane : ∀ t, (s.pc t).sane = true
  fresh : ∀ t n, (s.pc t).fresh = some n → s.next n = .null
  publishes : ∀ t a b, (s.pc t).publishes = some (a, b) →
    Adj s.chain a b ∧ (s.next a).isNode = false
  publishesInj : ∀ t u e, (s.pc t).publishes = some e → (s.pc u).publishes = some e → t = u
  link : ∀ a n, a ∈ s.chain → s.next a = .node n → Adj s.chain a n
  waiter : ∀ a ∈ s.chain.tail, ∀ w, s.next a ≠ .waiter w
  items : s.pushed = s.taken.map Prod.snd ++ s.chain.tail.map s.item
  carried : ∀ t, takenBy s t = returnedBy s t ++ (s.pc t).carried

/-- The states differ only in what the waiters do. -/
structure SameCore (s s' : State N T) : Prop where
  head : s'.head = s.head
  tail : s'.tail = s.tail
  next : s'.next = s.next
  item : s'.item = s.item
  alloc : s'.alloc = s.alloc
  pc : s'.pc = s.pc
  chain : s'.chain = s.chain
  holder : s'.holder = s.holder
  pushed : s'.pushed = s.pushed
  taken : s'.taken = s.taken
  results : s'.results = s.results

theorem SameCore.trans {s'' : State N T} (h : SameCore s s') (h' : SameCore s' s'') :
    SameCore s s'' :=
  ⟨h'.head.trans h.head, h'.tail.trans h.tail, h'.next.trans h.next, h'.item.trans h.item,
    h'.alloc.trans h.alloc, h'.pc.trans h.pc, h'.chain.trans h.chain, h'.holder.trans h.holder,
    h'.pushed.trans h.pushed, h'.taken.trans h.taken, h'.results.trans h.results⟩

theorem SameCore.after {s'' : State N T} (h' : SameCore s' s'') (h : SameCore s s') :
    SameCore s s'' :=
  h.trans h'

theorem SameCore.goto {p : Pc N T} (h : SameCore s s') : SameCore (s.goto t p) (s'.goto t p) :=
  ⟨h.head, h.tail, h.next, h.item, h.alloc, by rw [State.goto, State.goto, h.pc], h.chain, h.holder,
    h.pushed, h.taken, h.results⟩

theorem CoreInv.congr (hi : CoreInv s) (h : SameCore s s') : CoreInv s' := by
  have htaken (t : Nat) : takenBy s' t = takenBy s t := by rw [takenBy, takenBy, h.taken]
  have hret (t : Nat) : returnedBy s' t = returnedBy s t := by
    rw [returnedBy, returnedBy, h.results]
  obtain ⟨h1, h2, h3, h4, h5, h6, h7, h8, h9, h10, h11⟩ := h
  constructor <;> simp only [h1, h2, h3, h4, h5, h6, h7, h8, h9, h10, htaken, hret]
  case nodup => exact hi.nodup
  case last => exact hi.last
  case headNode => exact hi.headNode
  case headLocked => exact hi.headLocked
  case locked => exact hi.locked
  case holder => exact hi.holder
  case alloc => exact hi.alloc
  case owns => exact hi.owns
  case ownsInj => exact hi.ownsInj
  case sane => exact hi.sane
  case fresh => exact hi.fresh
  case publishes => exact hi.publishes
  case publishesInj => exact hi.publishesInj
  case link => exact hi.link
  case waiter => exact hi.waiter
  case items => exact hi.items
  case carried => exact hi.carried

-- ============================================================================
-- Helpers that only work on the waiters
-- ============================================================================

theorem sameCore_wnext {f : Nat → Option Nat} : SameCore s { s with wnext := f } :=
  ⟨rfl, rfl, rfl, rfl, rfl, rfl, rfl, rfl, rfl, rfl, rfl⟩

theorem sameCore_linkPending {v : Option Nat} : SameCore s (s.linkPending t v) := by
  unfold State.linkPending
  split <;> exact ⟨rfl, rfl, rfl, rfl, rfl, rfl, rfl, rfl, rfl, rfl, rfl⟩

theorem sameCore_assert {b : Bool} : SameCore s (s.assert b) :=
  ⟨rfl, rfl, rfl, rfl, rfl, rfl, rfl, rfl, rfl, rfl, rfl⟩

theorem sameCore_prepend {w : Nat} {l : List Nat} (h : s.prepend t w l = some s') :
    SameCore s s' := by
  obtain ⟨last, -, rfl⟩ := Option.map_eq_some_iff.mp h
  dsimp only [State.move]
  split <;> exact ⟨rfl, rfl, rfl, rfl, rfl, rfl, rfl, rfl, rfl, rfl, rfl⟩

theorem sameCore_append {w : Nat} {l : List Nat} (h : s.append t w l = some s') :
    SameCore s s' := by
  obtain ⟨last, -, rfl⟩ := Option.map_eq_some_iff.mp h
  dsimp only [State.move]
  split
  · unfold State.linkPending
    split <;> exact ⟨rfl, rfl, rfl, rfl, rfl, rfl, rfl, rfl, rfl, rfl, rfl⟩
  · exact ⟨rfl, rfl, rfl, rfl, rfl, rfl, rfl, rfl, rfl, rfl, rfl⟩

theorem sameCore_grab {w : Nat} (h : s.grab t w = some s') : SameCore s s' := by
  have := sameCore_prepend h
  exact ⟨this.head, this.tail, this.next, this.item, this.alloc, this.pc, this.chain, this.holder,
    this.pushed, this.taken, this.results⟩

-- ============================================================================
-- What the steps do to the nodes
-- ============================================================================

/-- At most one consumer has the head locked. -/
theorem CoreInv.locked_unique (hi : CoreInv s) {h h' : N} (ht : (s.pc t).locked = some h)
    (hu : (s.pc u).locked = some h') : t = u := by
  have hst := (hi.locked t h ht).1
  have hsu := (hi.locked u h' hu).1
  rw [hst] at hsu
  exact Option.some.inj hsu

/-- The item after the head. -/
theorem CoreInv.chain_of_link (hi : CoreInv s) {h n : N} (hh : s.chain.head? = some h)
    (hn : s.next h = .node n) : ∃ l, s.chain = h :: n :: l := by
  have hadj := hi.link h n (List.mem_of_mem_head? hh) hn
  have hnd := hi.nodup
  cases hc : s.chain with
  | nil => simp [hc] at hh
  | cons x l =>
      rw [hc] at hh hadj hnd
      obtain rfl : x = h := by simpa using hh
      rcases Adj.cons.mp hadj with ⟨-, hl⟩ | hadj
      · cases l with
        | nil => cases hl
        | cons y l =>
            obtain rfl : y = n := by simpa using hl
            exact ⟨l, rfl⟩
      · exact absurd hadj.mem_left (List.nodup_cons.mp hnd).1

attribute [local grind] Pc.owns Pc.carried

/-- A thread carries an item to another place. -/
theorem CoreInv.carried_goto (hi : CoreInv s) {p : Pc N T} (h : (s.pc t).job = p.job) (u : Nat) :
    takenBy s u = returnedBy s u ++ (Function.update s.pc t p u).carried := by
  rcases eq_or_ne u t with rfl | hu
  · rw [Function.update_self, Pc.carried, ← h]
    exact hi.carried u
  · rw [Function.update_of_ne hu]
    exact hi.carried u

theorem CoreInv.sane_goto (hi : CoreInv s) {p : Pc N T} (h : p.sane = true) (u : Nat) :
    (Function.update s.pc t p u).sane = true := by
  rcases eq_or_ne u t with rfl | hu
  · rwa [Function.update_self]
  · rw [Function.update_of_ne hu]
    exact hi.sane u

/-- A thread goes to a place that is the same as far as the nodes go. -/
theorem CoreInv.goto (hi : CoreInv s) {p : Pc N T} (h : (s.pc t).Alike p) :
    CoreInv (s.goto t p) := by
  have hpc : ∀ u, (s.pc u).Alike ((s.goto t p).pc u) := by
    intro u
    rcases eq_or_ne u t with rfl | hu
    · simpa [State.goto] using h
    · simpa [State.goto, Function.update_of_ne hu] using ⟨rfl, rfl, rfl, rfl, id⟩
  have hsane := hi.sane
  obtain ⟨⟩ := hi
  constructor
  case carried =>
      intro u
      rw [← (hpc u).carried]
      rename_i hc
      exact hc u
  case sane => exact fun u => (hpc u).sane (hsane u)
  all_goals
    try simp only [← (hpc _).locked, ← (hpc _).owns, ← (hpc _).fresh, ← (hpc _).publishes]
    assumption

/-- The head stays locked. -/
theorem CoreInv.setHead (hi : CoreInv s) {v : Link N} (h : s.head.isNode = false)
    (hv : v.isNode = false) : CoreInv { s with head := v } := by
  refine { hi with headNode := ?_, headLocked := fun _ => hi.headLocked h }
  rintro n (rfl : v = _)
  cases hv

/-- An exchange on the locked head. -/
theorem CoreInv.grab (hi : CoreInv s) {w : Nat} (h : s.head.isNode = false)
    (hs : { s with head := .null }.grab t w = some s') : CoreInv s' :=
  (hi.setHead h rfl).congr (sameCore_grab hs)

/-- The head is not a node while a thread has it locked. -/
theorem CoreInv.head_of_locked (hi : CoreInv s) {h : N} (hl : (s.pc t).locked = some h) :
    s.head.isNode = false := by
  cases hh : s.head with
  | node n => cases (hi.headNode n hh).1.symm.trans (hi.locked t h hl).1
  | null => rfl
  | waiter w => rfl

/-- `push`: the exchange on `tail_`. -/
theorem CoreInv.xchg (hi : CoreInv s) {n : N} (hp : s.pc t = .pushXchg n) :
    CoreInv ({ s with
      tail := n
      chain := s.chain ++ [n]
      pushed := s.pushed ++ [s.item n] }.goto t (.pushPublish s.tail n)) := by
  have hown : (s.pc t).owns = some n := by rw [hp]; rfl
  obtain ⟨ha, hmem⟩ := hi.owns t n hown
  have hne : s.chain ≠ [] := by
    intro e
    have := hi.last
    rw [e] at this
    cases this
  have hhead : (s.chain ++ [n]).head? = s.chain.head? := List.head?_append_of_ne_nil _ hne
  have htail : (s.chain ++ [n]).tail = s.chain.tail ++ [n] := List.tail_append_of_ne_nil hne
  have hlast : (s.chain ++ [n]).getLast? = some n := List.getLast?_concat
  have hnull := hi.fresh t n (by rw [hp]; rfl)
  have htl : s.tail ∈ s.chain := List.mem_of_getLast? hi.last
  have hnode : (s.next s.tail).isNode = false := by
    by_contra hc
    cases hv : s.next s.tail with
    | node m => exact (hi.link _ m htl hv).ne_last hi.nodup hi.last rfl
    | null => simp [hv, Link.isNode] at hc
    | waiter w => simp [hv, Link.isNode] at hc
  have hcarried := hi.carried_goto (t := t) (p := .pushPublish s.tail n) (by rw [hp]; rfl)
  have hsane := hi.sane_goto (t := t) (p := .pushPublish s.tail n) rfl
  obtain ⟨⟩ := hi
  constructor
  case carried => exact hcarried
  case sane => exact hsane
  case nodup => exact List.nodup_append.mpr ⟨‹_›, by simp, by grind -linarith⟩
  case items =>
      simp only [State.goto, htail, List.map_append]
      rename_i hitems _
      rw [hitems, List.append_assoc]
      rfl
  case last => exact hlast
  all_goals
    intros
    simp only [Function.update_apply, State.goto, hhead, htail, Adj.append_singleton,
      List.mem_append, List.mem_singleton] at *
    grind -linarith [Link.isNode, Adj.mem_right, Pc.locked, Pc.job, Pc.fresh, Pc.publishes,
      List.mem_of_mem_tail]

/-- A consumer locks the head. -/
theorem CoreInv.lock (hi : CoreInv s) {h : N} {p : Pc N T} (hh : s.head = .node h)
    (hp : (s.pc t).Alike .idle) (hl : p.locked = some h) (hj : p.job = none)
    (hf : p.fresh = none) (hpub : p.publishes = none) (hsane : p.sane = true) :
    CoreInv ({ s with head := .null, holder := some t }.goto t p) := by
  obtain ⟨h1, h2, h3, h4, -⟩ := hp
  have hcarried := hi.carried_goto (t := t) (p := p) (by rw [h2, hj]; rfl)
  have hsane := hi.sane_goto (t := t) hsane
  obtain ⟨⟩ := hi
  constructor
  case carried => exact hcarried
  case sane => exact hsane
  all_goals
    intros
    simp only [Function.update_apply, State.goto] at *
    grind -linarith [Link.isNode, Pc.locked, Pc.job, Pc.fresh, Pc.publishes]

/-- A consumer unlocks the head. -/
theorem CoreInv.unlock (hi : CoreInv s) {h : N} {p : Pc N T} (hh : (s.pc t).locked = some h)
    (hl : p.locked = none) (hj : p.job = (s.pc t).job) (hf : p.fresh = (s.pc t).fresh)
    (hpub : p.publishes = (s.pc t).publishes) (hsane : p.sane = true) :
    CoreInv ({ s with head := .node h, holder := none }.goto t p) := by
  have hcarried := hi.carried_goto hj.symm
  have hsane := hi.sane_goto (t := t) hsane
  obtain ⟨⟩ := hi
  constructor
  case carried => exact hcarried
  case sane => exact hsane
  all_goals
    intros
    simp only [Function.update_apply, State.goto] at *
    grind -linarith [Link.isNode, Pc.locked, Pc.job, Pc.fresh, Pc.publishes]

/-- The head advances over its link. -/
theorem CoreInv.take (hi : CoreInv s) {h n : N} {p : Pc N T} (hh : (s.pc t).locked = some h)
    (hn : s.next h = .node n) (hjob : (s.pc t).job = none) (hl : p.locked = some n)
    (hj : p.job = some ⟨h, n, s.item n⟩) (hf : p.fresh = none) (hpub : p.publishes = none)
    (hsane : p.sane = true) :
    CoreInv ({ s with
      chain := s.chain.tail
      taken := s.taken ++ [(t, s.item n)] }.goto t p) := by
  obtain ⟨hhold, hhd⟩ := hi.locked t h hh
  obtain ⟨l, hc⟩ := hi.chain_of_link hhd hn
  have hadj : ∀ a b, Adj s.chain a b → a = h ∨ Adj s.chain.tail a b := by
    intro a b hab
    rw [hc] at hab ⊢
    exact (Adj.cons.mp hab).imp_left And.left
  have hnodup : h ∉ s.chain.tail ∧ s.chain.tail.Nodup := by
    have := hi.nodup
    rw [hc] at this ⊢
    exact List.nodup_cons.mp this
  have hlast : s.chain.tail.getLast? = s.chain.getLast? := by rw [hc]; rfl
  have hhead : s.chain.tail.head? = some n := by rw [hc]; rfl
  have hmem : ∀ a, a ∈ s.chain ↔ a = h ∨ a ∈ s.chain.tail := by
    intro a
    rw [hc]
    exact List.mem_cons
  have htail : ∀ a ∈ s.chain.tail.tail, a ∈ s.chain.tail := fun a => List.mem_of_mem_tail
  have hnode : (s.next h).isNode = true := by rw [hn]; rfl
  have hcarried : ∀ u, takenBy { s with taken := s.taken ++ [(t, s.item n)] } u =
      returnedBy s u ++ (Function.update s.pc t p u).carried := by
    intro u
    rw [takenBy_append, hi.carried u]
    rcases eq_or_ne u t with rfl | hu
    · rw [Function.update_self, if_pos rfl, Pc.carried, Pc.carried, hjob, hj]
      simp
    · rw [Function.update_of_ne hu, if_neg hu.symm, List.append_nil]
  have hsane := hi.sane_goto (t := t) hsane
  obtain ⟨⟩ := hi
  constructor
  case carried => exact hcarried
  case sane => exact hsane
  case items =>
      rename_i hitems _
      simp only [State.goto, hitems, hc]
      simp
  all_goals
    intros
    simp only [Function.update_apply, State.goto] at *
    grind -linarith [Link.isNode, Pc.locked, Pc.job, Pc.fresh, Pc.publishes]

/-- A call returns nothing. -/
theorem CoreInv.retNone (hi : CoreInv s) (hp : (s.pc t).Alike .idle) : CoreInv (s.ret t none) := by
  have hret (u : Nat) : returnedBy (s.ret t none) u = returnedBy (s.goto t .idle) u := by
    rw [returnedBy, State.ret, List.filterMap_append]
    simp [returnedBy, State.goto]
  have hg := hi.goto hp
  refine { hg with carried := fun u => ?_ }
  rw [hret]
  exact hg.carried u

/-- What is done to the waiters before a thread goes on does not matter. -/
theorem CoreInv.congr_goto (hi : CoreInv s) {p : Pc N T} (hs : SameCore s s')
    (h : (s.pc t).Alike p) : CoreInv (s'.goto t p) := by
  refine (hi.congr hs).goto ?_
  rw [hs.pc]
  exact h

theorem CoreInv.takeNode (hi : CoreInv s) {h n : N} (hp : (s.pc t).Alike (.popNext h))
    (hn : s.next h = .node n) : CoreInv (s.take t h n) := by
  unfold State.take
  split
  · exact hi.take (p := .takenCas _) hp.locked hn hp.job rfl rfl rfl rfl rfl
  · exact hi.take (p := .takenLoad _) hp.locked hn hp.job rfl rfl rfl rfl rfl

theorem CoreInv.popDecide (hi : CoreInv s) {h : N} {v : Link N}
    (hp : (s.pc t).Alike (.popNext h)) (hv : s.next h = v) : CoreInv (s.popDecide t h v) := by
  unfold State.popDecide
  split
  · exact hi.takeNode hp hv
  · next hne =>
    have hcas := hp.trans (r := .popCas h v)
      ⟨rfl, rfl, rfl, rfl, fun _ => by rw [Pc.sane, Link.isNode_of_ne hne]; rfl⟩
    split
    · exact hi.congr_goto (sameCore_wnext.trans sameCore_linkPending) hcas
    · exact hi.congr_goto sameCore_wnext hcas

theorem CoreInv.noItem (hi : CoreInv s) {h : N} {v : Link N} (hp : (s.pc t).Alike (.popNext h))
    (hv : v.isNode = false) : CoreInv (s.noItem t h v) := by
  unfold State.noItem
  split
  · exact hi.goto (hp.trans ⟨rfl, rfl, rfl, rfl, fun _ => by rw [Pc.sane, hv]; rfl⟩)
  · split
    · exact hi.goto (hp.trans ⟨rfl, rfl, rfl, rfl, fun _ => rfl⟩)
    · exact hi.congr_goto (sameCore_assert.trans sameCore_linkPending)
        (hp.trans ⟨rfl, rfl, rfl, rfl, fun _ => by rw [Pc.sane, hv]; rfl⟩)

theorem CoreInv.tryDecide (hi : CoreInv s) {h : N} {v : Link N}
    (hp : (s.pc t).Alike (.popNext h)) (hv : s.next h = v) : CoreInv (s.tryDecide t h v) := by
  unfold State.tryDecide
  split
  · exact hi.takeNode hp hv
  · next hne => exact hi.noItem hp (Link.isNode_of_ne hne)

theorem CoreInv.takenDecide (hi : CoreInv s) {j : Taken N T} {v : Link N}
    (hp : (s.pc t).Alike (.takenCas j)) : CoreInv (s.takenDecide t j v) := by
  unfold State.takenDecide
  split
  · exact hi.goto (hp.trans ⟨rfl, rfl, rfl, rfl, fun _ => rfl⟩)
  · exact hi.goto (hp.trans ⟨rfl, rfl, rfl, rfl, fun _ => rfl⟩)
  · exact hi.congr_goto sameCore_linkPending (hp.trans ⟨rfl, rfl, rfl, rfl, fun _ => rfl⟩)

section Steps

variable [DecidableEq N]

/-- Waiters are installed at the head. -/
theorem CoreInv.install (hi : CoreInv s) {h : N} {w : Nat} (hh : s.chain.head? = some h)
    (hv : (s.next h).isNode = false) :
    CoreInv { s with next := Function.update s.next h (.waiter w) } := by
  have hmem := List.mem_of_mem_head? hh
  have htail : h ∉ s.chain.tail := by
    have hnd := hi.nodup
    cases hc : s.chain with
    | nil => simp [hc] at hh
    | cons x l =>
        rw [hc] at hh hnd
        obtain rfl : x = h := by simpa using hh
        exact (List.nodup_cons.mp hnd).1
  have hfresh := fun t (hf : (s.pc t).fresh = some h) =>
    (hi.owns t h (by rw [Pc.owns, hf]; rfl)).2 hmem
  obtain ⟨⟩ := hi
  constructor
  case carried => assumption
  all_goals
    intros
    simp only [Function.update_apply] at *
    grind -linarith [Link.isNode]

/-- `push`: a new node. -/
theorem CoreInv.newNode (hi : CoreInv s) {n : N} {v : T} (hp : s.pc t = .idle)
    (hn : s.alloc n = false) :
    CoreInv ({ s with
      next := Function.update s.next n .null
      item := Function.update s.item n v
      alloc := Function.update s.alloc n true }.goto t (.pushXchg n)) := by
  have hmem : n ∉ s.chain := by
    intro hm
    rw [hi.alloc n hm] at hn
    cases hn
  have hitems : s.chain.tail.map (Function.update s.item n v) = s.chain.tail.map s.item := by
    refine List.map_congr_left fun x hx => Function.update_of_ne ?_ ..
    rintro rfl
    exact hmem (List.mem_of_mem_tail hx)
  have hcarried := hi.carried_goto (t := t) (p := .pushXchg n) (by rw [hp]; rfl)
  have hsane := hi.sane_goto (t := t) (p := .pushXchg n) rfl
  obtain ⟨⟩ := hi
  constructor
  case carried => exact hcarried
  case sane => exact hsane
  case items =>
      simp only [State.goto, hitems]
      assumption
  all_goals
    intros
    simp only [Function.update_apply, State.goto] at *
    grind -linarith [Link.isNode, Adj.mem_left, Pc.locked, Pc.job, Pc.fresh, Pc.publishes,
      List.mem_of_mem_tail]

/-- `push`: the exchange on `prev->next`. -/
theorem CoreInv.publish (hi : CoreInv s) {a n : N} {p : Pc N T}
    (hp : s.pc t = .pushPublish a n) (h : p.Alike .idle)
    (hsane : p.sane = true) :
    CoreInv ({ s with next := Function.update s.next a (.node n) }.goto t p) := by
  have hpub := hi.publishes t a n (by rw [hp]; rfl)
  have hmem := hpub.1.mem_left
  have hfresh := fun u (hf : (s.pc u).fresh = some a) =>
    (hi.owns u a (by rw [Pc.owns, hf]; rfl)).2 hmem
  have hother : ∀ u b, (s.pc u).publishes = some (a, b) → u = t := by
    intro u b hu
    obtain rfl := (hi.publishes u a b hu).1.right_unique hi.nodup hpub.1
    exact hi.publishesInj u t _ hu (by rw [hp]; rfl)
  obtain ⟨h1, h2, h3, h4, -⟩ := h
  have hcarried := hi.carried_goto (t := t) (p := p) (by rw [hp, h2]; rfl)
  have hsane := hi.sane_goto (t := t) hsane
  obtain ⟨⟩ := hi
  constructor
  case carried => exact hcarried
  case sane => exact hsane
  all_goals
    intros
    simp only [Function.update_apply, State.goto] at *
    grind -linarith [Link.isNode, Pc.locked, Pc.job, Pc.fresh, Pc.publishes]

/-- A consumer frees the old head and returns the item. -/
theorem CoreInv.free (hi : CoreInv s) {j : Taken N T} (hp : s.pc t = .free j) :
    CoreInv ({ s with alloc := Function.update s.alloc j.old false }.ret t (some j.item)) := by
  have hown : (s.pc t).owns = some j.old := by rw [hp]; rfl
  obtain ⟨ha, hmem⟩ := hi.owns t j.old hown
  have hcarried : ∀ u, takenBy s u = returnedBy (s.ret t (some j.item)) u ++
      (Function.update s.pc t .idle u).carried := by
    intro u
    rw [returnedBy, State.ret, List.filterMap_append, hi.carried u]
    rcases eq_or_ne u t with rfl | hu
    · rw [Function.update_self, hp]
      simp [returnedBy, Pc.carried, Pc.job]
    · rw [Function.update_of_ne hu]
      simp [returnedBy, hu.symm]
  have hsane := hi.sane_goto (t := t) (p := .idle) rfl
  obtain ⟨⟩ := hi
  constructor
  case carried => exact hcarried
  case sane => exact hsane
  all_goals
    intros
    simp only [Function.update_apply, State.ret] at *
    grind -linarith [Link.isNode, Pc.locked, Pc.job, Pc.fresh, Pc.publishes]

-- ============================================================================
-- Runs
-- ============================================================================

/-- Pending waiters are installed at the locked head. -/
theorem CoreInv.installPending (hi : CoreInv s) {h : N} {w : Nat} {p : Pc N T}
    (hl : (s.pc t).locked = some h) (hv : (s.next h).isNode = false) (hp : (s.pc t).Alike p)
    (hs : SameCore { s with next := Function.update s.next h (.waiter w) } s') :
    CoreInv (s'.goto t p) :=
  (hi.install (hi.locked t h hl).2 hv).congr_goto hs hp

/-- The steps of `unlock_taken` and the end of the call. -/
theorem stepThread_coreInv_taken {c : Choice} {j : Taken N T} (hi : CoreInv s)
    (hj : (s.pc t).job = some j) (hs : stepThread s t c = some s') : CoreInv s' := by
  cases hp : s.pc t <;> simp only [stepThread, hp, Pc.job, reduceCtorEq, Option.some.injEq] at hs hj
  case takenCas =>
      have hl : (s.pc t).locked = some j.head := by rw [hp, hj]; rfl
      subst hj
      split at hs <;> cases hs
      · exact hi.unlock (p := .free _) hl rfl (hp ▸ rfl) (hp ▸ rfl) (hp ▸ rfl) rfl
      · exact hi.goto (hp ▸ ⟨rfl, rfl, rfl, rfl, fun _ => rfl⟩)
  case fullCas =>
      have hl : (s.pc t).locked = some j.head := by rw [hp, hj]; rfl
      subst hj
      split at hs <;> cases hs
      · exact hi.unlock (p := .fullNotify _) hl rfl (hp ▸ rfl) (hp ▸ rfl) (hp ▸ rfl) rfl
      · exact hi.goto (hp ▸ ⟨rfl, rfl, rfl, rfl, fun _ => rfl⟩)
  case takenXchg | fullXchg =>
      have hl : (s.pc t).locked = some j.head := by rw [hp, hj]; rfl
      have hh := hi.head_of_locked hl
      subst hj
      split at hs
      · obtain ⟨s₁, h1, rfl⟩ := Option.map_eq_some_iff.mp hs
        exact (hi.grab hh h1).goto ((sameCore_grab h1).pc ▸ (hp ▸ ⟨rfl, rfl, rfl, rfl, fun _ => rfl⟩))
      · cases hs
        exact (hi.setHead hh rfl).congr_goto sameCore_assert (hp ▸ ⟨rfl, rfl, rfl, rfl, fun _ => rfl⟩)
  case takenLoad =>
      cases hs
      exact hi.takenDecide (hp ▸ ⟨rfl, rfl, rfl, rfl, fun _ => rfl⟩)
  case takenInstall k v =>
      have hl : (s.pc t).locked = some j.head := by rw [hp, hj]; rfl
      have hv : v.isNode = false := by simpa [hp, Pc.sane] using hi.sane t
      subst hj
      split at hs
      · cases hs
      · split at hs <;> cases hs
        · next he =>
          exact hi.installPending hl (he ▸ hv) (hp ▸ ⟨rfl, rfl, rfl, rfl, fun _ => rfl⟩)
            ⟨rfl, rfl, rfl, rfl, rfl, rfl, rfl, rfl, rfl, rfl, rfl⟩
        · have hsame : SameCore s ((s.assert (s.next k.head).isNode).linkPending t none) :=
            sameCore_assert.trans sameCore_linkPending
          refine (hi.congr hsame).takenDecide ?_
          rw [hsame.pc, hp]
          exact ⟨rfl, rfl, rfl, rfl, fun _ => rfl⟩
  case fullNotify =>
      split at hs <;> cases hs
      exact hi.congr_goto ⟨rfl, rfl, rfl, rfl, rfl, rfl, rfl, rfl, rfl, rfl, rfl⟩ (hp ▸ ⟨rfl, rfl, rfl, rfl, fun _ => rfl⟩)
  case free =>
      cases hs
      exact hi.free hp

/-- The steps of `push`. -/
theorem stepThread_coreInv_push {c : Choice} (hi : CoreInv s)
    (hpush : (s.pc t).isPush = true) (hs : stepThread s t c = some s') : CoreInv s' := by
  cases hp : s.pc t <;> simp only [stepThread, hp, Pc.isPush, reduceCtorEq] at hs hpush
  case pushXchg n =>
      cases hs
      exact hi.xchg hp
  case pushPublish a n =>
      split at hs <;> cases hs
      · exact (hi.publish hp (p := .pushNotify _) ⟨rfl, rfl, rfl, rfl, fun _ => rfl⟩ rfl).congr
          ⟨rfl, rfl, rfl, rfl, rfl, rfl, rfl, rfl, rfl, rfl, rfl⟩
      · exact (hi.publish hp (p := .idle) ⟨rfl, rfl, rfl, rfl, fun _ => rfl⟩ rfl).congr
          ⟨rfl, rfl, rfl, rfl, rfl, rfl, rfl, rfl, rfl, rfl, rfl⟩
  case pushNotify w =>
      cases hs
      exact hi.congr_goto ⟨rfl, rfl, rfl, rfl, rfl, rfl, rfl, rfl, rfl, rfl, rfl⟩ (hp ▸ ⟨rfl, rfl, rfl, rfl, fun _ => rfl⟩)

/-- The steps of a consumer that has not taken an item. -/
theorem stepThread_coreInv_locked {c : Choice} {h : N} (hi : CoreInv s)
    (hl : (s.pc t).locked = some h) (hj : (s.pc t).job = none)
    (hs : stepThread s t c = some s') : CoreInv s' := by
  have hh := hi.head_of_locked hl
  cases hp : s.pc t <;>
    simp only [hp, Pc.locked, Pc.job, reduceCtorEq, Option.some.injEq] at hl hj <;>
    subst hl <;> simp only [stepThread, hp] at hs
  case popNext h =>
      cases hs
      exact hi.popDecide (by rw [hp]; exact ⟨rfl, rfl, rfl, rfl, id⟩) rfl
  case popCas h v =>
      have hv : v.isNode = false := by simpa [hp, Pc.sane] using hi.sane t
      split at hs <;> cases hs
      · next he =>
        exact hi.installPending (h := h) (hp ▸ rfl) (he ▸ hv) (hp ▸ ⟨rfl, rfl, rfl, rfl, fun _ => rfl⟩)
          ⟨rfl, rfl, rfl, rfl, rfl, rfl, rfl, rfl, rfl, rfl, rfl⟩
      · have hsame : SameCore s (if (s.pending t).isSome = true
            then (s.assert (s.next h).isNode).linkPending t none
            else s.assert (s.next h).isNode) := by
          split
          · exact sameCore_assert.trans sameCore_linkPending
          · exact sameCore_assert
        refine (hi.congr (hsame.trans sameCore_wnext)).popDecide ?_ (congrFun hsame.next h)
        simp only [hsame.pc, hp]
        exact ⟨rfl, rfl, rfl, rfl, fun _ => rfl⟩
  case unlockWaiting h =>
      have hu : CoreInv ({ s with head := .node h, holder := none }.goto t .waitItem) :=
        hi.unlock (hp ▸ rfl) rfl (hp ▸ rfl) (hp ▸ rfl) (hp ▸ rfl) rfl
      split at hs
      · obtain ⟨s₁, h1, rfl⟩ := Option.map_eq_some_iff.mp hs
        have hsame : SameCore { s with head := .node h, holder := none } s₁ :=
          (sameCore_grab h1).after ⟨rfl, rfl, rfl, rfl, rfl, rfl, rfl, rfl, rfl, rfl, rfl⟩
        exact hu.congr hsame.goto
      · cases hs
        exact hu.congr ⟨rfl, rfl, rfl, rfl, rfl, rfl, rfl, rfl, rfl, rfl, rfl⟩
  case tryNext h =>
      cases hs
      exact hi.tryDecide (by rw [hp]; exact ⟨rfl, rfl, rfl, rfl, id⟩) rfl
  case noItemCas h v =>
      have hv : v.isNode = false := by simpa [hp, Pc.sane] using hi.sane t
      split at hs <;> cases hs
      · have hu := hi.unlock (t := t) (p := .tryLoad) (h := h) (by rw [hp]; rfl) rfl (by rw [hp]; rfl)
          (by rw [hp]; rfl) (by rw [hp]; rfl) rfl
        have hat : (({ s with head := .node h, holder := none }.goto t .tryLoad).pc t).Alike .idle := by
          simp only [State.goto, Function.update_self]
          exact ⟨rfl, rfl, rfl, rfl, fun _ => rfl⟩
        exact (hu.retNone hat).congr
          ⟨rfl, rfl, rfl, rfl, rfl, (Function.update_idem ..).symm, rfl, rfl, rfl, rfl, rfl⟩
      · exact hi.goto (hp ▸ ⟨rfl, rfl, rfl, rfl, id⟩)
  case noItemXchg h v =>
      have hv : v.isNode = false := by simpa [hp, Pc.sane] using hi.sane t
      split at hs
      · obtain ⟨s₁, h1, rfl⟩ := Option.map_eq_some_iff.mp hs
        refine (hi.grab hh h1).noItem ?_ hv
        rw [(sameCore_grab h1).pc, hp]
        exact ⟨rfl, rfl, rfl, rfl, fun _ => rfl⟩
      · cases hs
        exact (hi.setHead hh rfl).congr_goto sameCore_assert (hp ▸ ⟨rfl, rfl, rfl, rfl, id⟩)
  case noItemInstall h v =>
      have hv : v.isNode = false := by simpa [hp, Pc.sane] using hi.sane t
      split at hs
      · cases hs
      · split at hs <;> cases hs
        · next he =>
          exact hi.installPending (h := h) (hp ▸ rfl) (he ▸ hv) (hp ▸ ⟨rfl, rfl, rfl, rfl, id⟩)
            ⟨rfl, rfl, rfl, rfl, rfl, rfl, rfl, rfl, rfl, rfl, rfl⟩
        · have hsame : SameCore s ((s.assert (s.next h).isNode).linkPending t none) :=
            sameCore_assert.trans sameCore_linkPending
          refine (hi.congr hsame).tryDecide ?_ (congrFun hsame.next h)
          rw [hsame.pc, hp]
          exact ⟨rfl, rfl, rfl, rfl, fun _ => rfl⟩

theorem stepThread_coreInv {c : Choice} (hi : CoreInv s) (hs : stepThread s t c = some s') :
    CoreInv s' := by
  cases hp : s.pc t
  case pushXchg | pushPublish | pushNotify =>
      exact stepThread_coreInv_push hi (by rw [hp]; rfl) hs
  case popNext | popCas | unlockWaiting | tryNext | noItemCas | noItemXchg | noItemInstall =>
      exact stepThread_coreInv_locked hi (by rw [hp]; rfl) (by rw [hp]; rfl) hs
  case takenCas | takenXchg | takenLoad | takenInstall | fullCas | fullXchg | fullNotify | free =>
      exact stepThread_coreInv_taken hi (by rw [hp]; rfl) hs
  all_goals simp only [stepThread, hp] at hs
  case idle => cases hs
  case popLoad =>
      cases hs
      exact hi.goto (hp ▸ ⟨rfl, rfl, rfl, rfl, fun _ => rfl⟩)
  case popTop v =>
      split at hs
      · cases hs
        exact hi.goto (hp ▸ ⟨rfl, rfl, rfl, rfl, fun _ => rfl⟩)
      · split at hs
        · cases hs
          exact hi.goto (hp ▸ ⟨rfl, rfl, rfl, rfl, fun _ => rfl⟩)
        · split at hs
          · next hh =>
            cases hs
            exact hi.lock hh (hp ▸ ⟨rfl, rfl, rfl, rfl, fun _ => rfl⟩) rfl rfl rfl rfl rfl
          · next hh =>
            obtain ⟨s₁, h1, rfl⟩ := Option.map_eq_some_iff.mp hs
            exact (hi.grab (by rw [hh]; rfl) h1).goto
              ((sameCore_grab h1).pc ▸ (hp ▸ ⟨rfl, rfl, rfl, rfl, fun _ => rfl⟩))
          · next hh =>
            cases hs
            exact (hi.setHead (by rw [hh]; rfl) rfl).goto (hp ▸ ⟨rfl, rfl, rfl, rfl, fun _ => rfl⟩)
  case popInstall =>
      split at hs <;> cases hs
      · next hh =>
        exact (hi.setHead (v := .waiter t) (by rw [hh]; rfl) rfl).congr_goto
          ⟨rfl, rfl, rfl, rfl, rfl, rfl, rfl, rfl, rfl, rfl, rfl⟩ (hp ▸ ⟨rfl, rfl, rfl, rfl, fun _ => rfl⟩)
      · exact hi.goto (hp ▸ ⟨rfl, rfl, rfl, rfl, fun _ => rfl⟩)
  case waitHead =>
      split at hs
      · split at hs
        · cases hs
          exact hi.congr_goto ⟨rfl, rfl, rfl, rfl, rfl, rfl, rfl, rfl, rfl, rfl, rfl⟩ (hp ▸ ⟨rfl, rfl, rfl, rfl, fun _ => rfl⟩)
        · obtain ⟨s₁, h1, rfl⟩ := Option.map_eq_some_iff.mp hs
          have hsame : SameCore s s₁ := (sameCore_prepend h1).after
            ⟨rfl, rfl, rfl, rfl, rfl, rfl, rfl, rfl, rfl, rfl, rfl⟩
          exact hi.congr_goto (hsame.trans sameCore_wnext) (hp ▸ ⟨rfl, rfl, rfl, rfl, fun _ => rfl⟩)
      · cases hs
  case waitItem =>
      split at hs
      · split at hs
        · cases hs
          exact hi.congr_goto ⟨rfl, rfl, rfl, rfl, rfl, rfl, rfl, rfl, rfl, rfl, rfl⟩ (hp ▸ ⟨rfl, rfl, rfl, rfl, fun _ => rfl⟩)
        · obtain ⟨s₁, h1, rfl⟩ := Option.map_eq_some_iff.mp hs
          have hsame : SameCore s s₁ := (sameCore_append h1).after
            ⟨rfl, rfl, rfl, rfl, rfl, rfl, rfl, rfl, rfl, rfl, rfl⟩
          exact hi.congr_goto (hsame.trans sameCore_wnext) (hp ▸ ⟨rfl, rfl, rfl, rfl, fun _ => rfl⟩)
      · cases hs
  case tryLoad =>
      split at hs <;> cases hs
      · exact hi.goto (hp ▸ ⟨rfl, rfl, rfl, rfl, fun _ => rfl⟩)
      · exact hi.retNone (hp ▸ ⟨rfl, rfl, rfl, rfl, fun _ => rfl⟩)
  case tryCas h =>
      split at hs
      · next hh =>
        cases hs
        exact hi.lock hh.1 (hp ▸ ⟨rfl, rfl, rfl, rfl, fun _ => rfl⟩) rfl rfl rfl rfl rfl
      · split at hs <;> cases hs
        · exact hi.goto (hp ▸ ⟨rfl, rfl, rfl, rfl, fun _ => rfl⟩)
        · exact hi.retNone (hp ▸ ⟨rfl, rfl, rfl, rfl, fun _ => rfl⟩)

/-- A step of the queue. -/
theorem step_coreInv {a : Act N T} (hi : CoreInv s) (hs : queue.step s a = some s') :
    CoreInv s' := by
  cases a with
  | push t n v =>
      simp only [queue] at hs
      split at hs <;> cases hs
      next hc => exact hi.newNode (Pc.eq_idle hc.1) hc.2
  | pop t =>
      simp only [queue] at hs
      split at hs <;> cases hs
      next hc =>
        exact hi.congr_goto ⟨rfl, rfl, rfl, rfl, rfl, rfl, rfl, rfl, rfl, rfl, rfl⟩
          (Pc.eq_idle hc ▸ ⟨rfl, rfl, rfl, rfl, fun _ => rfl⟩)
  | tryPop t =>
      simp only [queue] at hs
      split at hs <;> cases hs
      next hc =>
        exact hi.congr_goto ⟨rfl, rfl, rfl, rfl, rfl, rfl, rfl, rfl, rfl, rfl, rfl⟩
          (Pc.eq_idle hc ▸ ⟨rfl, rfl, rfl, rfl, fun _ => rfl⟩)
  | step t c =>
      obtain ⟨s₁, h1, rfl⟩ := Option.map_eq_some_iff.mp hs
      exact (stepThread_coreInv hi h1).congr
        ⟨rfl, rfl, rfl, rfl, rfl, rfl, rfl, rfl, rfl, rfl, rfl⟩

theorem coreInv_start {stub : N} {item : N → T} : CoreInv (State.start stub item) := by
  constructor <;> simp [State.start, Link.isNode, Pc.locked, Pc.owns, Pc.fresh, Pc.job,
    Pc.publishes, Pc.sane, Pc.carried, takenBy, returnedBy]

theorem reachable_coreInv (hr : queue.Reachable s) : CoreInv s := by
  refine hr.invariant ?_ fun _ _ _ hi _ hs => step_coreInv hi hs
  rintro _ ⟨stub, item, rfl⟩
  exact coreInv_start

end Steps

end Coroactors.Queue
