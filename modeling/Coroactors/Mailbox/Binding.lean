/-
  Coroactors.Mailbox.Binding

  `peek` and a `try_unlock` that refuses are binding in `intrusive_mailbox`
  (coroactors/detail/intrusive_mailbox.h).

  Both return only when the head is a node whose `next` is linked, by a push or
  by the stub that was put behind it.  Nobody but the owner changes that: a
  push links behind a node whose `next` is not linked.  So the next `pop_impl`
  finds the same head at its first load, and returns it.

  `peek` and `try_pop` never write the marker, so while the owner calls nothing
  else no push and no `try_lock` finds it.
-/

import Coroactors.Mailbox.HandOff

namespace Coroactors.Mailbox

open Coroactors.Conc

variable {N : Type*} {s s' s'' : State N} {t u : Nat} {x : Ptr N}

-- ============================================================================
-- What is binding
-- ============================================================================

/-- In `pop_impl`, after its first load. -/
def Pc.inside : Pc N → Bool
  | .stubCas _ | .stubRemove _ _ | .headLoad _ _ | .tailLoad _ _ | .stubAssert _ _ | .tailCas _ _
  | .linkStub _ _ | .headCas _ _ => true
  | _ => false

/-- The head is the node `x`, it can be removed, and no operation of the owner
    is underway that was started before that. -/
structure Bound (s : State N) (x : Ptr N) : Prop where
  inv : Inv s
  owner : s.owners ≠ []
  head : s.head = x
  node : x ≠ .stub
  next : (s.next x).isPtr = true
  outside : ∀ u, (s.pc u).inside = false

/-- A return that neither takes a node nor changes who owns the mailbox, except
    by passing it on; a `peek` that returns `x`. -/
def Event.Quiet (x : Ptr N) : Event N → Prop
  | .push _ _ locked | .tryLock _ locked => locked = false
  | .peek _ r => r = some x
  | .tryUnlock _ unlocked => unlocked = false
  | .pass _ _ => True
  | .pop _ _ | .tryPop _ _ => False

/-- `pop` or `try_pop` returns `x`. -/
def Event.Takes (x : Ptr N) (e : Event N) : Prop := ∃ u, e = .pop u (some x) ∨ e = .tryPop u (some x)

theorem PcOk.owner_of_inside (h : PcOk s u (s.pc u)) (hu : (s.pc u).inside = true) :
    u ∈ s.owners := by
  cases hp : s.pc u <;> rw [hp] at h hu <;> first | exact h.1 | cases hu

/-- The owner is the only thread in `pop_impl`. -/
theorem Inv.outside_of_owner (h : Inv s) (ht : t ∈ s.owners) (hut : u ≠ t) :
    (s.pc u).inside = false := by
  cases hin : (s.pc u).inside with
  | false => rfl
  | true => exact absurd (h.owner_unique ((h.pc u).owner_of_inside hin) ht) hut

theorem Bound.head_mem (h : Bound s x) : x ∈ s.chain := h.head ▸ h.inv.head_mem

/-- The mailbox is locked, so no marker is in the list. -/
theorem Inv.no_marker (h : Inv s) (ho : s.owners ≠ []) {a : Ptr N} (ha : a ∈ s.chain) :
    s.next a ≠ .unlocked := by
  intro hu
  have hh := h.marker a ha hu
  exact ho (h.locked.mpr (hh ▸ hu))

/-- A thread moves on outside of `pop_impl`, and leaves the head alone. -/
theorem Bound.move {q : Pc N} (h : Bound s x) (hi : Inv s') (hpc : s'.pc = Function.update s.pc t q)
    (hq : q.inside = false) (hh : s'.head = s.head) (hn : s'.next x = s.next x)
    (ho : s'.owners ≠ []) : Bound s' x := by
  refine ⟨hi, ho, hh.trans h.head, h.node, hn ▸ h.next, fun u => ?_⟩
  rw [hpc]
  by_cases hut : u = t
  · rw [hut, Function.update_self, hq]
  · rw [Function.update_of_ne hut]
    exact h.outside u

section Steps

variable [DecidableEq N]

/-- What a step can do while the head is bound: the head stays bound and what
    returns is quiet, or `pop` or `try_pop` returns the head. -/
theorem Bound.step {a : Act N} (h : Bound s x) (hs : (mailbox N).step s a = some s') :
    (Bound s' x ∧ (s'.log = s.log ∨ ∃ e, s'.log = s.log ++ [e] ∧ e.Quiet x)) ∨
      ∃ e, s'.log = s.log ++ [e] ∧ e.Takes x := by
  have hi := step_inv h.inv hs
  have hmem := h.head_mem
  cases a with
  | push u n =>
      simp only [mailbox] at hs
      split at hs <;> cases hs
      exact .inl ⟨h.move hi rfl rfl rfl rfl h.owner, .inl rfl⟩
  | tryLock u | call u op =>
      simp only [mailbox] at hs
      split at hs <;> cases hs
      exact .inl ⟨h.move hi rfl rfl rfl rfl h.owner, .inl rfl⟩
  | pass u v =>
      simp only [mailbox] at hs
      split at hs <;> cases hs
      refine .inl ⟨h.move hi rfl rfl rfl rfl ?_, .inr ⟨_, rfl, trivial⟩⟩
      simp [State.ret, Event.owners]
  | step u =>
      have hok := h.inv.pc u
      have hs' : stepThread s u = some s' := hs
      cases hp : s.pc u <;> simp only [stepThread, hp] at hs' <;> rw [hp] at hok
      case idle | crashed => cases hs'
      case pushStore n =>
          cases hs'
          have hne : x ≠ .node n := fun he => hok (he ▸ hmem)
          refine .inl ⟨h.move hi rfl rfl rfl ?_ h.owner, .inl rfl⟩
          exact Function.update_of_ne hne _ _
      case pushXchg n =>
          cases hs'
          exact .inl ⟨h.move hi rfl rfl rfl rfl h.owner, .inl rfl⟩
      case publish b n =>
          obtain ⟨hadj, hnp⟩ := hok
          cases hs'
          have hne : x ≠ b := by
            rintro rfl
            rw [h.next] at hnp
            cases hnp
          have hmark : decide (s.next b = .unlocked) = false :=
            decide_eq_false (h.inv.no_marker h.owner hadj.mem_left)
          refine .inl ⟨h.move hi rfl rfl rfl ?_ ?_, .inr ⟨_, rfl, hmark⟩⟩
          · exact Function.update_of_ne hne _ _
          · simpa [State.ret, State.setNext, State.assert, State.goto, Event.owners, hmark]
              using h.owner
      case tryLock =>
          have hmark : s.next .stub ≠ .unlocked := by
            intro hu
            by_cases hin : .stub ∈ s.chain
            · exact h.inv.no_marker h.owner hin hu
            · simp [h.inv.stubOut hin] at hu
          rw [if_neg hmark] at hs'
          cases hs'
          exact .inl ⟨h.move hi rfl rfl rfl rfl h.owner, .inr ⟨_, rfl, rfl⟩⟩
      case load op =>
          have hh := h.head
          have hnode := h.node
          obtain ⟨p, hp'⟩ : ∃ p, s.next x = .ptr p := by
            have := h.next
            cases hw : s.next x <;> rw [hw] at this <;> first | exact ⟨_, rfl⟩ | cases this
          rw [if_neg (hh ▸ hnode), hh, hp'] at hs'
          cases hs'
          cases op with
          | pop => exact .inr ⟨_, rfl, u, .inl rfl⟩
          | tryPop => exact .inr ⟨_, rfl, u, .inr rfl⟩
          | peek => exact .inl ⟨h.move hi rfl rfl rfl rfl h.owner, .inr ⟨_, rfl, rfl⟩⟩
          | tryUnlock => exact .inl ⟨h.move hi rfl rfl rfl rfl h.owner, .inr ⟨_, rfl, rfl⟩⟩
      all_goals
        have := h.outside u
        rw [hp] at this
        cases this

/-- While the head is bound, a `pop` or `try_pop` returns it at its next step. -/
theorem Bound.returns {op : Op} (h : Bound s x) (hp : s.pc t = .load op) :
    ∃ s', (mailbox N).step s (.step t) = some s' ∧
      (op = .pop → s'.log = s.log ++ [.pop t (some x)]) ∧
      (op = .tryPop → s'.log = s.log ++ [.tryPop t (some x)]) := by
  obtain ⟨p, hp'⟩ : ∃ p, s.next x = .ptr p := by
    have := h.next
    cases hw : s.next x <;> rw [hw] at this <;> first | exact ⟨_, rfl⟩ | cases this
  refine ⟨s.retSome t op x p, ?_, ?_, ?_⟩
  · simp [mailbox, stepThread, hp, h.head, h.node, hp', State.loaded, State.finish]
  · rintro rfl
    rfl
  · rintro rfl
    rfl

/-- What returned since the head was bound. -/
def Outcome (s s' : State N) (x : Ptr N) : Prop :=
  ∃ l, s'.log = s.log ++ l ∧
    ((Bound s' x ∧ ∀ e ∈ l, e.Quiet x) ∨
      ∃ l₁ e l₂, l = l₁ ++ e :: l₂ ∧ (∀ e ∈ l₁, e.Quiet x) ∧ e.Takes x)

theorem Bound.path {ok : State N → Act N → Prop} (h : Bound s x)
    (hpath : (mailbox N).Path ok s s') : Outcome s s' x := by
  induction hpath with
  | refl => exact ⟨[], by simp, .inl ⟨h, by simp⟩⟩
  | @step s₁ s₂ a _ _ hs ih =>
      obtain ⟨l, hl, ⟨hb, hq⟩ | ⟨l₁, e, l₂, rfl, hq, he⟩⟩ := ih
      · rcases hb.step hs with ⟨hb', hlog | ⟨e, hlog, he⟩⟩ | ⟨e, hlog, he⟩
        · exact ⟨l, by rw [hlog, hl], .inl ⟨hb', hq⟩⟩
        · refine ⟨l ++ [e], by rw [hlog, hl, List.append_assoc], .inl ⟨hb', ?_⟩⟩
          simpa [or_imp, forall_and] using ⟨hq, he⟩
        · exact ⟨l ++ [e], by rw [hlog, hl, List.append_assoc], .inr ⟨l, e, [], rfl, hq, he⟩⟩
      · rcases step_logged hs with ⟨hlog, -⟩ | ⟨e', hlog, -⟩
        · exact ⟨_, by rw [hlog, hl], .inr ⟨l₁, e, l₂, rfl, hq, he⟩⟩
        · refine ⟨l₁ ++ e :: (l₂ ++ [e']), by rw [hlog, hl]; simp, .inr ⟨l₁, e, l₂ ++ [e'], rfl, hq, he⟩⟩

-- ============================================================================
-- What makes the head binding
-- ============================================================================

/-- A `peek` that returns a node, or a `try_unlock` that returns false. -/
def Event.Binds (e : Event N) : Prop := (∃ u y, e = .peek u (some y)) ∨ ∃ u, e = .tryUnlock u false

/-- After the return the head is bound, and a `peek` returned it. -/
def Binding (s : State N) (e : Event N) : Prop :=
  Bound s s.head ∧ ∀ u y, e = .peek u (some y) → y = s.head

omit [DecidableEq N] in
/-- The owner is not in `pop_impl`, and the head can be removed. -/
theorem Inv.bound (h : Inv s) (ht : t ∈ s.owners) (hp : (s.pc t).inside = false)
    (hns : s.head ≠ .stub) (hn : (s.next s.head).isPtr = true) : Bound s s.head := by
  refine ⟨h, List.ne_nil_of_mem ht, rfl, hns, hn, fun u => ?_⟩
  by_cases hut : u = t
  · rw [hut, hp]
  · exact h.outside_of_owner ht hut

theorem binding_retSome {op : Op} {p : Ptr N} {e : Event N} (hi : Inv (s.retSome t op s.head p))
    (ht : t ∈ s.owners) (hns : s.head ≠ .stub) (hn : s.next s.head = .ptr p)
    (hlog : (s.retSome t op s.head p).log = s.log ++ [e]) (he : e.Binds) :
    Binding (s.retSome t op s.head p) e := by
  have hn' : (s.next s.head).isPtr = true := by rw [hn]; rfl
  cases op with
  | pop | tryPop =>
      obtain rfl : _ = e := by simpa [State.retSome, State.ret] using hlog
      obtain ⟨u, y, he⟩ | ⟨u, he⟩ := he <;> cases he
  | peek =>
      obtain rfl : _ = e := by simpa [State.retSome, State.ret] using hlog
      refine ⟨hi.bound (t := t) ht (by simp [State.retSome, State.ret, State.goto, Pc.inside]) hns hn',
        ?_⟩
      rintro u y ⟨⟩
      rfl
  | tryUnlock =>
      obtain rfl : _ = e := by simpa [State.retSome, State.ret] using hlog
      refine ⟨hi.bound (t := t) ht (by simp [State.retSome, State.ret, State.goto, Pc.inside]) hns hn',
        ?_⟩
      rintro u y ⟨⟩

omit [DecidableEq N] in
/-- `pop_impl` returns no head: that binds nothing. -/
theorem not_binds_retNone {op : Op} {e : Event N} (hlog : (s.retNone t op).log = s.log ++ [e]) :
    ¬ e.Binds := by
  cases op <;> obtain rfl : _ = e := (by simpa [State.retNone, State.ret] using hlog) <;>
    rintro (⟨u, y, he⟩ | ⟨u, he⟩) <;> cases he

theorem binding_finish {op : Op} {e : Event N} (h : Inv s) (hl : (s.pc t).linksAt = none)
    (ht : t ∈ s.owners) (hns : s.head ≠ .stub)
    (hlog : (s.finish t op s.head (s.next s.head)).log = s.log ++ [e]) (he : e.Binds) :
    Binding (s.finish t op s.head (s.next s.head)) e := by
  cases hw : s.next s.head with
  | null | unlocked =>
      rw [hw] at hlog
      simp [State.finish, State.goto, State.assert] at hlog
  | ptr p =>
      rw [hw] at hlog
      exact binding_retSome (h.retSome hl ht hns hw) ht hns hw hlog he

theorem binding_loaded {op : Op} {e : Event N} (h : Inv s) (hl : (s.pc t).linksAt = none)
    (ht : t ∈ s.owners) (hns : s.head ≠ .stub)
    (hlog : (s.loaded t op s.head (s.next s.head)).log = s.log ++ [e]) (he : e.Binds) :
    Binding (s.loaded t op s.head (s.next s.head)) e := by
  cases hw : s.next s.head with
  | null =>
      rw [hw] at hlog
      simp [State.loaded, State.goto] at hlog
  | unlocked | ptr p =>
      have hf : (s.finish t op s.head (s.next s.head)).log = s.log ++ [e] → e.Binds →
          Binding (s.finish t op s.head (s.next s.head)) e :=
        binding_finish h hl ht hns
      rw [hw] at hf hlog
      exact hf hlog he

/-- A step by which a binding call returns. -/
theorem step_binding {a : Act N} {e : Event N} (h : Inv s) (hs : (mailbox N).step s a = some s')
    (hlog : s'.log = s.log ++ [e]) (he : e.Binds) : Binding s' e := by
  have hi := step_inv h hs
  cases a with
  | push u n | tryLock u | call u op =>
      simp only [mailbox] at hs
      split at hs <;> cases hs
      simp [State.goto] at hlog
  | pass u v =>
      simp only [mailbox] at hs
      split at hs <;> cases hs
      obtain rfl : _ = e := by simpa [State.ret] using hlog
      obtain ⟨w, y, he⟩ | ⟨w, he⟩ := he <;> cases he
  | step u =>
      have hok := h.pc u
      have hs' : stepThread s u = some s' := hs
      cases hp : s.pc u <;> simp only [stepThread, hp] at hs' <;> rw [hp] at hok
      case idle | crashed => cases hs'
      case pushStore | pushXchg | stubRemove | stubAssert =>
          cases hs'
          simp [State.goto, State.setNext, State.assert] at hlog
      case publish b n =>
          cases hs'
          obtain rfl : _ = e := by simpa [State.ret, State.setNext, State.assert] using hlog
          obtain ⟨w, y, he⟩ | ⟨w, he⟩ := he <;> cases he
      case tryLock =>
          split at hs' <;> cases hs'
          all_goals
            obtain rfl : _ = e := by simpa [State.ret, State.setNext, State.assert] using hlog
            obtain ⟨w, y, he⟩ | ⟨w, he⟩ := he <;> cases he
      case load op =>
          have hl : (s.pc u).linksAt = none := by rw [hp]; rfl
          split at hs'
          · split at hs'
            · split at hs' <;> cases hs'
              · simp [State.goto] at hlog
              · exact absurd he (not_binds_retNone hlog)
            · cases hs'
              cases hw : s.next .stub <;> rw [hw] at hlog <;>
                simp [State.removeStub, State.goto, State.assert] at hlog
          · next hh =>
            cases hs'
            exact binding_loaded h hl hok hh hlog he
      case stubCas op =>
          split at hs' <;> cases hs'
          · exact absurd he (not_binds_retNone (s := s.setNext .stub .unlocked) hlog)
          · cases hw : s.next .stub <;> rw [hw] at hlog <;>
              simp [State.removeStub, State.goto, State.assert] at hlog
      case headLoad op b =>
          obtain ⟨ht, rfl, hns⟩ := hok
          cases hs'
          exact binding_loaded h (by rw [hp]; rfl) ht hns hlog he
      case tailLoad op b =>
          split at hs' <;> cases hs'
          · simp [State.goto] at hlog
          · unfold State.blocked at hlog
            split at hlog
            · simp [State.goto] at hlog
            · exact absurd he (not_binds_retNone hlog)
      case tailCas op b =>
          split at hs' <;> cases hs'
          · simp [State.goto] at hlog
          · unfold State.blocked at hlog
            split at hlog
            · simp [State.goto] at hlog
            · exact absurd he (not_binds_retNone hlog)
      case linkStub op b =>
          obtain ⟨ht, rfl, hns, -, -⟩ := hok
          cases hs'
          exact binding_retSome (s := s.setNext s.head (.ptr .stub)) hi ht hns
            (by simp [State.setNext]) hlog he
      case headCas op b =>
          obtain ⟨ht, rfl, hns, -, -⟩ := hok
          split at hs' <;> cases hs'
          · exact absurd he (not_binds_retNone (s := s.setNext s.head .unlocked) hlog)
          · exact binding_finish h (by rw [hp]; rfl) ht hns hlog he

-- ============================================================================
-- An owner that does not unlock
-- ============================================================================

/-- The operation that the thread is in. -/
def Pc.op : Pc N → Option Op
  | .load op | .stubCas op | .stubRemove op _ | .headLoad op _ | .tailLoad op _ | .stubAssert op _
  | .tailCas op _ | .linkStub op _ | .headCas op _ => some op
  | _ => none

/-- The owner calls neither `pop` nor `try_unlock`. -/
def OnlyLooks (_ : State N) (a : Act N) : Prop := ∀ u op, a = .call u op → op.unlock = false

/-- A return that neither locks nor unlocks. -/
def Event.Keeps : Event N → Prop
  | .push _ _ locked | .tryLock _ locked => locked = false
  | .pop _ r => r ≠ none
  | .tryUnlock _ unlocked => unlocked = false
  | .tryPop _ _ | .peek _ _ | .pass _ _ => True

/-- The mailbox is locked, and no operation is underway that may unlock it. -/
structure Held (s : State N) : Prop where
  inv : Inv s
  owner : s.owners ≠ []
  looks : ∀ u op, (s.pc u).op = some op → op.unlock = false

/-- What a step of an owner that does not unlock leaves behind. -/
def HeldStep (s s' : State N) : Prop :=
  Held s' ∧ (s'.log = s.log ∨ ∃ e, s'.log = s.log ++ [e] ∧ e.Keeps)

omit [DecidableEq N] in
theorem Held.move {q : Pc N} (h : Held s) (hi : Inv s') (hpc : s'.pc = Function.update s.pc t q)
    (hq : q.op = none ∨ ∃ op, q.op = some op ∧ op.unlock = false) (ho : s'.owners ≠ []) :
    Held s' := by
  refine ⟨hi, ho, fun u op hu => ?_⟩
  rw [hpc] at hu
  by_cases hut : u = t
  · rw [hut, Function.update_self] at hu
    rcases hq with hq | ⟨op', hq, hop⟩
    · rw [hq] at hu
      cases hu
    · rw [hq, Option.some.injEq] at hu
      rwa [← hu]
  · rw [Function.update_of_ne hut] at hu
    exact h.looks u op hu

variable {op : Op} {a p : Ptr N} {w : Word N}

omit [DecidableEq N] in
theorem Held.goto {q : Pc N} (h : Held s) (hi : Inv (s.goto t q))
    (hq : q.op = none ∨ ∃ op, q.op = some op ∧ op.unlock = false) : HeldStep s (s.goto t q) :=
  ⟨h.move hi rfl hq h.owner, .inl rfl⟩

theorem Held.retSome (h : Held s) (hop : op.unlock = false) (hi : Inv (s.retSome t op a p)) :
    HeldStep s (s.retSome t op a p) := by
  cases op with
  | pop | tryUnlock => cases hop
  | tryPop => exact ⟨h.move hi rfl (.inl rfl) h.owner, .inr ⟨_, rfl, trivial⟩⟩
  | peek => exact ⟨h.move hi rfl (.inl rfl) h.owner, .inr ⟨_, rfl, trivial⟩⟩

omit [DecidableEq N] in
theorem Held.retNone (h : Held s) (hop : op.unlock = false) (hi : Inv (s.retNone t op)) :
    HeldStep s (s.retNone t op) := by
  cases op with
  | pop | tryUnlock => cases hop
  | tryPop => exact ⟨h.move hi rfl (.inl rfl) h.owner, .inr ⟨_, rfl, trivial⟩⟩
  | peek => exact ⟨h.move hi rfl (.inl rfl) h.owner, .inr ⟨_, rfl, trivial⟩⟩

theorem Held.finish (h : Held s) (hop : op.unlock = false) (hi : Inv (s.finish t op a w)) :
    HeldStep s (s.finish t op a w) := by
  cases w with
  | ptr p => exact h.retSome hop hi
  | null | unlocked => exact ⟨h.move hi rfl (.inl rfl) h.owner, .inl rfl⟩

theorem Held.loaded (h : Held s) (hop : op.unlock = false) (hi : Inv (s.loaded t op a w)) :
    HeldStep s (s.loaded t op a w) := by
  cases w with
  | null => exact h.goto hi (.inr ⟨op, rfl, hop⟩)
  | unlocked => exact h.finish (a := a) (w := .unlocked) hop hi
  | ptr p => exact h.finish (a := a) (w := .ptr p) hop hi

omit [DecidableEq N] in
theorem Held.removeStub (h : Held s) (hop : op.unlock = false) (hi : Inv (s.removeStub t op w)) :
    HeldStep s (s.removeStub t op w) := by
  cases w with
  | ptr p => exact h.goto hi (.inr ⟨op, rfl, hop⟩)
  | null | unlocked => exact ⟨h.move hi rfl (.inl rfl) h.owner, .inl rfl⟩

omit [DecidableEq N] in
theorem Held.blocked (h : Held s) (hop : op.unlock = false) (hi : Inv (s.blocked t op a)) :
    HeldStep s (s.blocked t op a) := by
  rw [State.blocked, hop] at hi ⊢
  exact h.retNone hop hi

theorem Held.step {x : Act N} (h : Held s) (hx : OnlyLooks s x)
    (hs : (mailbox N).step s x = some s') : HeldStep s s' := by
  have hi := step_inv h.inv hs
  cases x with
  | push u n =>
      simp only [mailbox] at hs
      split at hs <;> cases hs
      exact ⟨h.move hi rfl (.inl rfl) h.owner, .inl rfl⟩
  | tryLock u =>
      simp only [mailbox] at hs
      split at hs <;> cases hs
      exact h.goto hi (.inl rfl)
  | call u op =>
      simp only [mailbox] at hs
      split at hs <;> cases hs
      exact h.goto hi (.inr ⟨op, rfl, hx u op rfl⟩)
  | pass u v =>
      simp only [mailbox] at hs
      split at hs <;> cases hs
      refine ⟨h.move hi rfl (.inl rfl) ?_, .inr ⟨_, rfl, trivial⟩⟩
      simp [State.ret, Event.owners]
  | step u =>
      have hok := h.inv.pc u
      have hlook := h.looks u
      have hs' : stepThread s u = some s' := hs
      cases hp : s.pc u <;> simp only [stepThread, hp] at hs' <;> rw [hp] at hok hlook
      case idle | crashed => cases hs'
      case pushStore n =>
          cases hs'
          exact ⟨h.move hi rfl (.inl rfl) h.owner, .inl rfl⟩
      case pushXchg n =>
          cases hs'
          exact ⟨h.move hi rfl (.inl rfl) h.owner, .inl rfl⟩
      case publish b n =>
          obtain ⟨hadj, -⟩ := hok
          cases hs'
          have hmark : decide (s.next b = .unlocked) = false :=
            decide_eq_false (h.inv.no_marker h.owner hadj.mem_left)
          refine ⟨h.move hi rfl (.inl rfl) ?_, .inr ⟨_, rfl, hmark⟩⟩
          simpa [State.ret, State.setNext, State.assert, State.goto, Event.owners, hmark]
            using h.owner
      case tryLock =>
          have hmark : s.next .stub ≠ .unlocked := by
            intro hu
            by_cases hin : .stub ∈ s.chain
            · exact h.inv.no_marker h.owner hin hu
            · simp [h.inv.stubOut hin] at hu
          rw [if_neg hmark] at hs'
          cases hs'
          exact ⟨h.move hi rfl (.inl rfl) h.owner, .inr ⟨_, rfl, rfl⟩⟩
      case load op =>
          have hop := hlook op rfl
          split at hs'
          · split at hs' <;> cases hs'
            · rw [hop] at hi ⊢
              exact h.retNone hop hi
            · exact h.removeStub hop hi
          · cases hs'
            exact h.loaded hop hi
      case stubCas op =>
          obtain ⟨-, -, hop⟩ := hok
          rw [hlook op rfl] at hop
          cases hop
      case headCas op b =>
          obtain ⟨-, -, -, -, hop⟩ := hok
          rw [hlook op rfl] at hop
          cases hop
      case stubRemove op b =>
          cases hs'
          exact ⟨h.move hi rfl (.inr ⟨op, rfl, hlook op rfl⟩) h.owner, .inl rfl⟩
      case headLoad op b =>
          cases hs'
          exact h.loaded (hlook op rfl) hi
      case tailLoad op b =>
          split at hs' <;> cases hs'
          · exact h.goto hi (.inr ⟨op, rfl, hlook op rfl⟩)
          · exact h.blocked (hlook op rfl) hi
      case stubAssert op b =>
          cases hs'
          exact ⟨h.move hi rfl (.inr ⟨op, rfl, hlook op rfl⟩) h.owner, .inl rfl⟩
      case tailCas op b =>
          split at hs' <;> cases hs'
          · exact ⟨h.move hi rfl (.inr ⟨op, rfl, hlook op rfl⟩) h.owner, .inl rfl⟩
          · exact h.blocked (hlook op rfl) hi
      case linkStub op b =>
          cases hs'
          have hop := hlook op rfl
          cases op with
          | pop | tryUnlock => cases hop
          | tryPop => exact ⟨h.move hi rfl (.inl rfl) h.owner, .inr ⟨_, rfl, trivial⟩⟩
          | peek => exact ⟨h.move hi rfl (.inl rfl) h.owner, .inr ⟨_, rfl, trivial⟩⟩

theorem Held.path (h : Held s) (hpath : (mailbox N).Path OnlyLooks s s') :
    Held s' ∧ ∃ l, s'.log = s.log ++ l ∧ ∀ e ∈ l, e.Keeps := by
  induction hpath with
  | refl => exact ⟨h, [], by simp, by simp⟩
  | step a _ hok hs ih =>
      obtain ⟨hh, l, hl, hk⟩ := ih
      obtain ⟨hh', hlog | ⟨e, hlog, he⟩⟩ := hh.step hok hs
      · exact ⟨hh', l, by rw [hlog, hl], hk⟩
      · refine ⟨hh', l ++ [e], by rw [hlog, hl, List.append_assoc], ?_⟩
        simpa [or_imp, forall_and] using ⟨hk, he⟩

-- ============================================================================
-- Every run
-- ============================================================================

/-- In every run: after a `peek` returned `x`, the first `pop` or `try_pop` that
    returns afterwards returns `x`, and until then nothing that returns locks or
    unlocks and every `peek` returns `x`; the same holds, for some node, after a
    `try_unlock` returned false; a `pop` or `try_pop` that the owner calls until
    then returns at its first step.

    While the owner of a locked mailbox only calls `peek` and `try_pop`, nothing
    that returns locks or unlocks it. -/
theorem peek_binding :
    (∀ (s s' s'' : State N) (a : Act N) (t : Nat) (x : Ptr N), (mailbox N).Reachable s →
      (mailbox N).step s a = some s' → s'.log = s.log ++ [.peek t (some x)] →
      (mailbox N).Path (fun _ _ => True) s' s'' → x ≠ .stub ∧ Outcome s' s'' x) ∧
    (∀ (s s' s'' : State N) (a : Act N) (t : Nat), (mailbox N).Reachable s →
      (mailbox N).step s a = some s' → s'.log = s.log ++ [.tryUnlock t false] →
      (mailbox N).Path (fun _ _ => True) s' s'' → ∃ x, x ≠ .stub ∧ Outcome s' s'' x) ∧
    (∀ (s : State N) (t : Nat) (op : Op) (x : Ptr N), Bound s x → s.pc t = .load op →
      ∃ s', (mailbox N).step s (.step t) = some s' ∧
        (op = .pop → s'.log = s.log ++ [.pop t (some x)]) ∧
        (op = .tryPop → s'.log = s.log ++ [.tryPop t (some x)])) ∧
    ∀ (s s' : State N), (mailbox N).Reachable s → s.owners ≠ [] →
      (∀ u op, (s.pc u).op = some op → op.unlock = false) →
      (mailbox N).Path OnlyLooks s s' →
      s'.owners ≠ [] ∧ ∃ l, s'.log = s.log ++ l ∧ ∀ e ∈ l, e.Keeps := by
  refine ⟨?_, ?_, ?_, ?_⟩
  · intro s s' s'' a t x hr hs hlog hpath
    obtain ⟨hb, hx⟩ := step_binding (reachable_inv hr) hs hlog (.inl ⟨t, x, rfl⟩)
    obtain rfl := hx t x rfl
    exact ⟨hb.node, hb.path hpath⟩
  · intro s s' s'' a t hr hs hlog hpath
    obtain ⟨hb, -⟩ := step_binding (reachable_inv hr) hs hlog (.inr ⟨t, rfl⟩)
    exact ⟨_, hb.node, hb.path hpath⟩
  · intro s t op x hb hp
    exact hb.returns hp
  · intro s s' hr ho hlook hpath
    obtain ⟨hh, hl⟩ := Held.path ⟨reachable_inv hr, ho, hlook⟩ hpath
    exact ⟨hh.owner, hl⟩

end Steps

end Coroactors.Mailbox
