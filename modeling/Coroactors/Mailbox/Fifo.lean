/-
  Coroactors.Mailbox.Fifo

  `intrusive_mailbox` (coroactors/detail/intrusive_mailbox.h) is an
  exactly-once FIFO: in every run, the nodes handed out by `pop` and `try_pop`
  are the first of the nodes in the order of their exchange on `tail_`, and a
  consumer that pops until it gets null, with no push in flight, gets all of
  the others.

  For the second part a thread that holds the lock runs alone.  Every step it
  makes brings it closer to the end of its call or takes a node out of the
  list (`rank`), so the popping ends; and an unlocked mailbox without a push
  in flight is empty.
-/

import Coroactors.Mailbox.Inv

namespace Coroactors.Mailbox

open Coroactors.Conc

variable {N : Type*} {s s' : State N} {t : Nat}

-- ============================================================================
-- Order
-- ============================================================================

/-- The nodes of the list without the stub, oldest first. -/
def State.remaining (s : State N) : List (Ptr N) := s.chain.filter Ptr.isNode

theorem Inv.popped_prefix (h : Inv s) : s.popped <+: s.order.map .node :=
  ⟨_, h.order⟩

/-- No push is between `push_prepare` and `push_publish`. -/
def NoPublish (s : State N) : Prop := ∀ u a n, s.pc u ≠ .publish a n

/-- The head has a successor that is not linked, and the consumer is not
    linking it: a push is in flight. -/
theorem Inv.publish_of_blocked (h : Inv s) (hn : (s.next s.head).isPtr = false)
    (ht : s.head ≠ s.tail) (hl : ∀ u op, s.pc u ≠ .linkStub op s.head) :
    ∃ u n, s.pc u = .publish s.head n := by
  obtain ⟨b, hb⟩ := Adj.exists_right h.head_mem (by rw [h.tail]; simpa using ht.symm)
  rcases h.link _ _ hb with hp | ⟨-, ⟨u, n, -, hu⟩ | ⟨-, u, op, hu⟩⟩
  · simp [hp, Word.isPtr] at hn
  · exact ⟨u, n, hu⟩
  · exact absurd hu (hl u op)

/-- An unlocked mailbox whose list is not empty has a push in flight at the
    head, which finds the marker. -/
theorem Inv.publish_of_unlocked (h : Inv s) (ho : s.owners = []) (hr : s.remaining ≠ []) :
    ∃ u n, s.pc u = .publish s.head n ∧ s.next s.head = .unlocked := by
  have hu := h.locked.mp ho
  have ht : s.head ≠ s.tail := by
    intro he
    have hc := h.chain_singleton he
    simp [State.remaining, hc, h.blocked ho he, Ptr.isNode] at hr
  have hl : ∀ u op, s.pc u ≠ .linkStub op s.head := by
    intro u op hp
    have hok := h.pc u
    rw [hp] at hok
    simp [ho, PcOk] at hok
  obtain ⟨u, n, hp⟩ := h.publish_of_blocked (by rw [hu]; rfl) ht hl
  exact ⟨u, n, hp, hu⟩

/-- Without a push in flight an unlocked mailbox has handed out everything. -/
theorem Inv.popped_of_unlocked (h : Inv s) (ho : s.owners = []) (hn : NoPublish s) :
    s.popped = s.order.map .node := by
  have hr : s.remaining = [] := by
    by_contra hr
    obtain ⟨u, n, hp, -⟩ := h.publish_of_unlocked ho hr
    exact hn u _ n hp
  have horder := h.order
  rwa [show s.chain.filter Ptr.isNode = s.remaining from rfl, hr, List.append_nil] at horder

-- ============================================================================
-- A consumer that runs alone
-- ============================================================================

/-- Steps by which thread `t` calls `pop` again and again. -/
def PopsAlone (t : Nat) (_ : State N) (a : Act N) : Prop := a = .call t .pop ∨ a = .step t

/-- How far a thread is from the end of its `pop`; `none` when it is not in a
    `pop`. -/
def Pc.popRank : Pc N → Option Nat
  | .idle => some 9
  | .load .pop => some 8
  | .stubCas .pop => some 7
  | .stubRemove .pop _ => some 6
  | .headLoad .pop _ => some 5
  | .tailLoad .pop _ => some 4
  | .stubAssert .pop _ => some 3
  | .tailCas .pop _ => some 2
  | .linkStub .pop _ => some 1
  | .headCas .pop _ => some 1
  | _ => none

/-- Thread `t` owns the mailbox, is between or in calls of `pop`, and no push is in flight;
    `k` bounds the steps it still has to make. -/
structure Popping (s : State N) (t k : Nat) : Prop where
  inv : Inv s
  owner : t ∈ s.owners
  noPublish : NoPublish s
  rank : ∃ r, (s.pc t).popRank = some r ∧ k = 10 * s.remaining.length + r

theorem NoPublish.update {q : Pc N} (h : NoPublish s) (hpc : s'.pc = Function.update s.pc t q)
    (hq : ∀ a n, q ≠ .publish a n) : NoPublish s' := by
  intro u a n hu
  rw [hpc] at hu
  by_cases hut : u = t
  · rw [hut, Function.update_self] at hu
    exact hq a n hu
  · rw [Function.update_of_ne hut] at hu
    exact h u a n hu

/-- What one step of the popping thread achieves: it comes closer to the end,
    or its `pop` returns null. -/
def Progress [DecidableEq N] (s : State N) (t k : Nat) : Prop :=
  ∃ a s', PopsAlone t s a ∧ (mailbox N).step s a = some s' ∧ s'.order = s.order ∧
    ((∃ k', k' < k ∧ Popping s' t k') ∨
      s'.owners = [] ∧ NoPublish s' ∧ s'.log = s.log ++ [.pop t none])

section Progress

variable [DecidableEq N] {k r : Nat}

/-- The thread moves on inside `pop`. -/
theorem Popping.move {q : Pc N} {r' : Nat} (h : Popping s t k) (hr : (s.pc t).popRank = some r)
    (hs : (mailbox N).step s (.step t) = some s') (hpc : s'.pc = Function.update s.pc t q)
    (hq : q.popRank = some r') (hlt : r' < r) (ho : s'.owners = s.owners)
    (hrem : s'.remaining = s.remaining) (horder : s'.order = s.order) : Progress s t k := by
  obtain ⟨r₀, hr₀, rfl⟩ := h.rank
  obtain rfl : r₀ = r := by simpa [hr₀] using hr
  refine ⟨.step t, s', .inr rfl, hs, horder, .inl ⟨10 * s.remaining.length + r', by omega, ?_⟩⟩
  refine ⟨step_inv h.inv hs, ho ▸ h.owner, h.noPublish.update hpc ?_, r', ?_, by rw [hrem]⟩
  · rintro a n rfl
    cases hq
  · rw [hpc, Function.update_self, hq]

theorem Popping.goto (q : Pc N) (r' : Nat) (h : Popping s t k) (hr : (s.pc t).popRank = some r)
    (hs : (mailbox N).step s (.step t) = some (s.goto t q)) (hq : q.popRank = some r')
    (hlt : r' < r) : Progress s t k :=
  h.move hr hs rfl hq hlt rfl rfl rfl

/-- `pop` returns the head. -/
theorem Popping.pop {p : Ptr N} (h : Popping s t k)
    (hs : (mailbox N).step s (.step t) = some s')
    (hpc : s'.pc = Function.update s.pc t .idle) (ho : s'.owners = s.owners)
    (hrem : s.remaining = p :: s'.remaining) (horder : s'.order = s.order)
    (hr : (s.pc t).popRank ≠ some 0) : Progress s t k := by
  obtain ⟨r₀, hr₀, rfl⟩ := h.rank
  have hpos : r₀ ≠ 0 := by
    rintro rfl
    exact hr hr₀
  have hlen : s.remaining.length = s'.remaining.length + 1 := by rw [hrem]; rfl
  refine ⟨.step t, s', .inr rfl, hs, horder, .inl ⟨10 * s'.remaining.length + 9, by omega, ?_⟩⟩
  refine ⟨step_inv h.inv hs, ho ▸ h.owner, h.noPublish.update hpc (by simp), 9, ?_, rfl⟩
  rw [hpc, Function.update_self]
  rfl

omit [DecidableEq N] in
theorem Inv.remaining_of_ptr {p : Ptr N} (h : Inv s) (hns : s.head ≠ .stub)
    (hp : s.next s.head = .ptr p) :
    s.remaining = s.head :: s.chain.tail.filter Ptr.isNode := by
  obtain ⟨l, hc⟩ := h.chain_of_ptr hp
  rw [State.remaining, hc, List.tail_cons, List.filter_cons_of_pos (Ptr.isNode_of_ne hns)]

/-- The thread has loaded a link from the head. -/
theorem Popping.finish {p : Ptr N} (h : Popping s t k) (hns : s.head ≠ .stub)
    (hp : s.next s.head = .ptr p)
    (hs : (mailbox N).step s (.step t) = some (s.retSome t .pop s.head p))
    (hr : (s.pc t).popRank ≠ some 0) : Progress s t k :=
  h.pop hs rfl rfl (h.inv.remaining_of_ptr hns hp) rfl hr

theorem Popping.next (h : Popping s t k) : Progress s t k := by
  have hinv := h.inv
  have ht := h.owner
  have hok := hinv.pc t
  have hlock : s.next s.head ≠ .unlocked := mt hinv.locked.mpr (List.ne_nil_of_mem ht)
  obtain ⟨r, hr, hk⟩ := h.rank
  cases hp : s.pc t <;> rw [hp] at hok hr <;> try cases hr
  case idle =>
    refine ⟨.call t .pop, s.goto t (.load .pop), .inl rfl, by simp [mailbox, hp, ht], rfl,
      .inl ⟨10 * s.remaining.length + 8, by omega, ?_⟩⟩
    refine ⟨step_inv (a := .call t .pop) hinv (by simp [mailbox, hp, ht]), ht,
      h.noPublish.update rfl (by simp), 8, by simp [Pc.popRank], rfl⟩
  case load op =>
    cases op <;> cases hr
    by_cases hh : s.head = .stub
    · by_cases hn : s.next .stub = .null
      · exact h.goto (.stubCas .pop) 7 (by rw [hp]; rfl)
          (by simp [mailbox, stepThread, hp, hh, hn, Op.unlock]) rfl (by omega)
      · obtain ⟨p, hw⟩ : ∃ p, s.next .stub = .ptr p := by
          cases hw : s.next .stub <;> simp_all
        exact h.goto (.stubRemove .pop p) 6 (by rw [hp]; rfl)
          (by simp [mailbox, stepThread, hp, hh, hw, State.removeStub]) rfl (by omega)
    · cases hw : s.next s.head with
      | null =>
          exact h.goto (.tailLoad .pop s.head) 4 (by rw [hp]; rfl)
            (by simp [mailbox, stepThread, hp, hh, hw, State.loaded]) rfl (by omega)
      | unlocked => exact absurd hw hlock
      | ptr p =>
          exact h.finish hh hw (by simp [mailbox, stepThread, hp, hh, hw, State.loaded, State.finish])
            (by simp [hp, Pc.popRank])
  case stubCas op =>
    cases op <;> cases hr
    obtain ⟨-, hh, -⟩ := hok
    by_cases hn : s.next .stub = .null
    · refine ⟨.step t, (s.setNext .stub .unlocked).retNone t .pop, .inr rfl,
        by simp [mailbox, stepThread, hp, hn], rfl, .inr ⟨?_, ?_, rfl⟩⟩
      · have hs : (mailbox N).step s (.step t) = some ((s.setNext .stub .unlocked).retNone t .pop) := by
          simp [mailbox, stepThread, hp, hn]
        refine (step_inv hinv hs).locked.mpr ?_
        simp [State.retNone, State.ret, State.goto, State.setNext, hh]
      · exact h.noPublish.update rfl (by simp)
    · obtain ⟨p, hw⟩ : ∃ p, s.next .stub = .ptr p := by
        cases hw : s.next .stub <;> simp_all
      exact h.goto (.stubRemove .pop p) 6 (by rw [hp]; rfl)
        (by simp [mailbox, stepThread, hp, hw, State.removeStub]) rfl (by omega)
  case stubRemove op p =>
    cases op <;> cases hr
    obtain ⟨-, hh, hn⟩ := hok
    rw [← hh] at hn
    obtain ⟨l, hc⟩ := hinv.chain_of_ptr hn
    have hs : (mailbox N).step s (.step t) = some
        { ((s.setNext .stub .null).goto t (.headLoad .pop p)) with
          head := p
          chain := s.chain.tail } := by
      simp [mailbox, stepThread, hp]
    refine h.move (q := .headLoad .pop p) (by rw [hp]; rfl) hs rfl rfl (by omega) rfl ?_
      rfl
    simp [State.remaining, hc, hh, Ptr.isNode]
  case headLoad op a =>
    cases op <;> cases hr
    obtain ⟨-, rfl, hns⟩ := hok
    cases hw : s.next s.head with
    | null =>
        exact h.goto (.tailLoad .pop s.head) 4 (by rw [hp]; rfl)
          (by simp [mailbox, stepThread, hp, hw, State.loaded]) rfl (by omega)
    | unlocked => exact absurd hw hlock
    | ptr p =>
        exact h.finish hns hw (by simp [mailbox, stepThread, hp, hw, State.loaded, State.finish])
          (by simp [hp, Pc.popRank])
  case tailLoad op a =>
    cases op <;> cases hr
    by_cases htail : s.tail = a
    · exact h.goto (.stubAssert .pop a) 3 (by rw [hp]; rfl)
        (by simp [mailbox, stepThread, hp, htail]) rfl (by omega)
    · exact h.goto (.headCas .pop a) 1 (by rw [hp]; rfl)
        (by simp [mailbox, stepThread, hp, htail, State.blocked, Op.unlock]) rfl (by omega)
  case stubAssert op a =>
    cases op <;> cases hr
    have hs : (mailbox N).step s (.step t) = some
        ((s.assert (s.next .stub = .null)).goto t (.tailCas .pop a)) := by
      simp [mailbox, stepThread, hp]
    exact h.move (q := .tailCas .pop a) (by rw [hp]; rfl) hs rfl rfl (by omega) rfl rfl
      rfl
  case tailCas op a =>
    cases op <;> cases hr
    by_cases htail : s.tail = a
    · have hs : (mailbox N).step s (.step t) = some
          { (s.goto t (.linkStub .pop a)) with
            tail := .stub
            chain := s.chain ++ [.stub] } := by
        simp [mailbox, stepThread, hp, htail]
      refine h.move (q := .linkStub .pop a) (by rw [hp]; rfl) hs rfl rfl (by omega) rfl
        ?_ rfl
      simp [State.remaining, Ptr.isNode]
    · exact h.goto (.headCas .pop a) 1 (by rw [hp]; rfl)
        (by simp [mailbox, stepThread, hp, htail, State.blocked, Op.unlock]) rfl (by omega)
  case linkStub op a =>
    cases op <;> cases hr
    obtain ⟨-, rfl, hns, hadj, -⟩ := hok
    have hs : (mailbox N).step s (.step t) = some
        ((s.setNext s.head (.ptr .stub)).retSome t .pop s.head .stub) := by
      simp [mailbox, stepThread, hp]
    obtain ⟨l, hc⟩ := hinv.chain_eq
    refine h.pop (p := s.head) hs rfl rfl ?_ rfl (by simp [hp, Pc.popRank])
    simp [State.remaining, State.retSome, State.ret, State.goto, State.setNext, hc,
      Ptr.isNode_of_ne hns]
  case headCas op a =>
    cases op <;> cases hr
    obtain ⟨-, rfl, hns, htail, -⟩ := hok
    cases hw : s.next s.head with
    | null =>
        -- nobody but a push in flight could leave the head unlinked
        have hl : ∀ u op, s.pc u ≠ .linkStub op s.head := by
          intro u op hu
          have hoku := hinv.pc u
          rw [hu] at hoku
          obtain rfl := hinv.owner_unique hoku.1 ht
          rw [hp] at hu
          cases hu
        obtain ⟨u, n, hu⟩ := hinv.publish_of_blocked (by rw [hw]; rfl) (Ne.symm htail) hl
        exact absurd hu (h.noPublish u _ n)
    | unlocked => exact absurd hw hlock
    | ptr p =>
        exact h.finish hns hw (by simp [mailbox, stepThread, hp, hw, State.finish])
          (by simp [hp, Pc.popRank])

/-- The popping ends with a `pop` that returns null. -/
theorem Popping.ends (h : Popping s t k) :
    ∃ s' l, (mailbox N).Path (PopsAlone t) s s' ∧ s'.owners = [] ∧ NoPublish s' ∧
      s'.order = s.order ∧ s'.log = l ++ [.pop t none] := by
  induction k using Nat.strongRecOn generalizing s with
  | _ k ih =>
      obtain ⟨a, s₁, ha, hs, horder, ⟨k', hlt, h₁⟩ | ⟨ho, hn, hlog⟩⟩ := h.next
      · obtain ⟨s', l, hpath, ho, hn, horder', hlog⟩ := ih k' hlt h₁
        exact ⟨s', l, .trans (.step a .refl ha hs) hpath, ho, hn, horder'.trans horder, hlog⟩
      · exact ⟨s₁, s.log, .step a .refl ha hs, ho, hn, horder, hlog⟩

end Progress

-- ============================================================================
-- Every run
-- ============================================================================

/-- In every run the nodes handed out are the first of the nodes pushed, no
    assertion fails and no marker is followed; an unlocked mailbox with no push
    in flight has handed out every node; and an owner that pops until it gets
    null, with no push in flight, gets there and has got every node. -/
theorem mailbox_fifo [DecidableEq N] :
    (∀ s : State N, (mailbox N).Reachable s →
      s.popped <+: s.order.map .node ∧ s.assertFailed = false ∧ ∀ t, s.pc t ≠ .crashed) ∧
    (∀ s : State N, (mailbox N).Reachable s → s.owners = [] → NoPublish s →
      s.popped = s.order.map .node) ∧
    (∀ (s : State N) (t : Nat), (mailbox N).Reachable s → t ∈ s.owners → s.pc t = .idle →
      NoPublish s → ∃ s' l, (mailbox N).Path (PopsAlone t) s s' ∧
        s'.log = l ++ [.pop t none] ∧ s'.order = s.order ∧ s'.popped = s.order.map .node) := by
  refine ⟨?_, ?_, ?_⟩
  · intro s hr
    have h := reachable_inv hr
    refine ⟨h.popped_prefix, h.assertOk, fun t ht => ?_⟩
    have hok := h.pc t
    rw [ht] at hok
    exact hok
  · intro s hr ho hn
    exact (reachable_inv hr).popped_of_unlocked ho hn
  · intro s t hr ht hp hn
    have hpop : Popping s t (10 * s.remaining.length + 9) :=
      ⟨reachable_inv hr, ht, hn, 9, by rw [hp]; rfl, rfl⟩
    obtain ⟨s', l, hpath, ho, hn', horder, hlog⟩ := hpop.ends
    refine ⟨s', l, hpath, hlog, horder, ?_⟩
    rw [← horder]
    exact (reachable_inv (hpath.reachable hr)).popped_of_unlocked ho hn'

end Coroactors.Mailbox
