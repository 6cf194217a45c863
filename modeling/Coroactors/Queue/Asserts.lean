/-
  Coroactors.Queue.Asserts

  The assertions of `blocking_queue`.

  The consumer that has the head locked is the only one that installs waiters
  at `head->next`, so a compare-exchange there that expects the value it last
  saw fails only after `push` published an item.  `try_unlock_no_item` does not
  keep up with this: after it has installed waiters it goes on to expect the
  value from before, so it finds its own waiters when it comes round again.
-/

import Coroactors.Queue.Core

namespace Coroactors.Queue

open Coroactors.Conc

variable {N T : Type*} {s s' : State N T} {t u : Nat}

-- ============================================================================
-- The invariant
-- ============================================================================

/-- The compare-exchange on `head->next` that the thread is about to make: the
    head and the expected value. -/
def Pc.expects : Pc N T → Option (N × Link N)
  | .popCas h v | .noItemInstall h v => some (h, v)
  | .takenInstall j v => some (j.head, v)
  | _ => none

/-- The value at `head->next` is the expected one, or an item. -/
def Current (s : State N T) (h : N) (v : Link N) : Prop :=
  s.next h = v ∨ (s.next h).isNode = true

structure AssertInv (s : State N T) : Prop where
  cas : ∀ t h v, (s.pc t).expects = some (h, v) → Current s h v
  ok : s.assertFailed = false

theorem Pc.locked_of_expects {p : Pc N T} {h : N} {v : Link N} (he : p.expects = some (h, v)) :
    p.locked = some h := by
  cases p <;> simp_all [Pc.expects, Pc.locked]

/-- A step that leaves the `next` pointers alone. -/
theorem AssertInv.move (hx : AssertInv s) {p : Pc N T} (hpc : s'.pc = Function.update s.pc t p)
    (hnext : s'.next = s.next) (hok : s'.assertFailed = s.assertFailed)
    (hp : ∀ h v, p.expects = some (h, v) → Current s h v) : AssertInv s' := by
  refine ⟨fun u h v hu => ?_, hok.trans hx.ok⟩
  rw [Current, hnext]
  rw [hpc, Function.update_apply] at hu
  split at hu
  · exact hp h v hu
  · exact hx.cas u h v hu

theorem AssertInv.congr (hx : AssertInv s) (hsame : SameCore s s')
    (hok : s'.assertFailed = s.assertFailed) : AssertInv s' := by
  refine ⟨fun u h v hu => ?_, hok.trans hx.ok⟩
  rw [hsame.pc] at hu
  rw [Current, hsame.next]
  exact hx.cas u h v hu

/-- A step that changes `next` pointers that no other consumer has locked, or
    publishes items. -/
theorem AssertInv.relink (hx : AssertInv s) {p : Pc N T} (hpc : s'.pc = Function.update s.pc t p)
    (hnext : ∀ u h, u ≠ t → (s.pc u).locked = some h →
      s'.next h = s.next h ∨ (s'.next h).isNode = true)
    (hok : s'.assertFailed = s.assertFailed) (hp : p.expects = none) : AssertInv s' := by
  refine ⟨fun u h v hu => ?_, hok.trans hx.ok⟩
  rw [hpc, Function.update_apply] at hu
  split at hu
  · rw [hp] at hu
    cases hu
  · next hne =>
    rcases hnext u h hne (Pc.locked_of_expects hu) with hn | hn
    · rw [Current, hn]
      exact hx.cas u h v hu
    · exact .inr hn

-- ============================================================================
-- Helpers record no assertion
-- ============================================================================

theorem linkPending_assertFailed {v : Option Nat} :
    (s.linkPending t v).assertFailed = s.assertFailed := by
  unfold State.linkPending
  split <;> rfl

theorem assertFailed_assert {b : Bool} (hb : b = true) :
    (s.assert b).assertFailed = s.assertFailed := by
  simp [State.assert, hb]

theorem prepend_assertFailed {w : Nat} {l : List Nat} (h : s.prepend t w l = some s') :
    s'.assertFailed = s.assertFailed := by
  obtain ⟨last, -, rfl⟩ := Option.map_eq_some_iff.mp h
  dsimp only [State.move]
  split <;> rfl

theorem append_assertFailed {w : Nat} {l : List Nat} (h : s.append t w l = some s') :
    s'.assertFailed = s.assertFailed := by
  obtain ⟨last, -, rfl⟩ := Option.map_eq_some_iff.mp h
  dsimp only [State.move]
  split
  · exact linkPending_assertFailed
  · rfl

theorem grab_assertFailed {w : Nat} (h : s.grab t w = some s') :
    s'.assertFailed = s.assertFailed := by
  have := prepend_assertFailed h
  exact this

-- ============================================================================
-- With the lock
-- ============================================================================

theorem AssertInv.takeNode (hx : AssertInv s) {h n : N} : AssertInv (s.take t h n) := by
  unfold State.take
  split
  · exact hx.move rfl rfl rfl (by rintro h v ⟨⟩)
  · exact hx.move rfl rfl rfl (by rintro h v ⟨⟩)

theorem AssertInv.popDecide (hx : AssertInv s) {h : N} {v : Link N} (hv : Current s h v) :
    AssertInv (s.popDecide t h v) := by
  have hcas : ∀ h' v', (Pc.popCas h v : Pc N T).expects = some (h', v') → Current s h' v' := by
    rintro h' v' ⟨⟩
    exact hv
  unfold State.popDecide
  split
  · exact hx.takeNode
  · split
    · exact hx.move (congrArg (Function.update · t _) sameCore_linkPending.pc)
        sameCore_linkPending.next linkPending_assertFailed hcas
    · exact hx.move rfl rfl rfl hcas

theorem AssertInv.noItem (hx : AssertInv s) {h : N} {v : Link N} (hnode : v.isNode = false)
    (hv : (s.pending t).isSome = true → Current s h v) : AssertInv (s.noItem t h v) := by
  unfold State.noItem
  split
  · exact hx.move rfl rfl rfl (by rintro h v ⟨⟩)
  · next hp =>
    have hv := hv (by simpa [Option.isSome_iff_ne_none] using hp)
    split
    · refine hx.move rfl rfl rfl ?_
      rintro h' v' ⟨⟩
      exact hv
    · refine hx.move (congrArg (Function.update · t _) (sameCore_assert.trans sameCore_linkPending).pc)
        (sameCore_assert.trans sameCore_linkPending).next
        (linkPending_assertFailed.trans (assertFailed_assert (by rw [hnode]; rfl))) ?_
      rintro h' v' ⟨⟩
      exact hv

theorem AssertInv.tryDecide (hx : AssertInv s) {h : N} {v : Link N} (hv : Current s h v) :
    AssertInv (s.tryDecide t h v) := by
  unfold State.tryDecide
  split
  · exact hx.takeNode
  · next hne => exact hx.noItem (Link.isNode_of_ne hne) fun _ => hv

theorem AssertInv.takenDecide (hx : AssertInv s) {j : Taken N T} {v : Link N}
    (hv : Current s j.head v) : AssertInv (s.takenDecide t j v) := by
  have hcas (v' : Link N) (h' : v' = v) : ∀ h v, (Pc.takenInstall j v' : Pc N T).expects = some (h, v) →
      Current s h v := by
    rintro h v ⟨⟩
    exact h' ▸ hv
  unfold State.takenDecide
  split
  · exact hx.move rfl rfl rfl (by rintro h v ⟨⟩)
  · exact hx.move rfl rfl rfl (hcas _ rfl)
  · exact hx.move (congrArg (Function.update · t _) sameCore_linkPending.pc)
      sameCore_linkPending.next linkPending_assertFailed (hcas _ rfl)

section Steps

variable [DecidableEq N]

/-- `try_unlock_no_item` does not remove waiters from `head_` when it has already
    installed others at `head->next`: the value there is the one it last saw, or
    an item. -/
def FirstBatch (s : State N T) : Act N T → Prop
  | .step t _ => ∀ h v, s.pc t = .noItemXchg h v → (∃ w, s.head = .waiter w) → Current s h v
  | _ => True

omit [DecidableEq N] in
theorem CoreInv.head_null (hi : CoreInv s) {h : N} (hl : (s.pc t).locked = some h)
    (hw : ∀ w, s.head = .waiter w → False) : s.head = .null := by
  have hh := hi.head_of_locked hl
  cases hv : s.head with
  | node n => simp [hv, Link.isNode] at hh
  | null => rfl
  | waiter w => exact (hw w hv).elim

/-- No other consumer has the locked head. -/
theorem CoreInv.install_next (hi : CoreInv s) {h : N} {v : Link N} (hl : (s.pc t).locked = some h)
    (u : Nat) (h' : N) (hu : u ≠ t) (hl' : (s.pc u).locked = some h') :
    Function.update s.next h v h' = s.next h' ∨
      (Function.update s.next h v h').isNode = true := by
  have := (hi.locked u h' hl').1.symm.trans (hi.locked t h hl).1
  exact absurd (Option.some.inj this) hu

theorem stepThread_assertInv_push {c : Choice} (hi : CoreInv s) (hx : AssertInv s)
    (hpush : (s.pc t).isPush = true) (hs : stepThread s t c = some s') : AssertInv s' := by
  cases hp : s.pc t <;> simp only [stepThread, hp, Pc.isPush, reduceCtorEq] at hs hpush
  case pushXchg n =>
      cases hs
      exact hx.move rfl rfl rfl (by rintro h v ⟨⟩)
  case pushPublish a n =>
      have hnext : ∀ h, Function.update s.next a (.node n) h = s.next h ∨
          (Function.update s.next a (.node n) h).isNode = true := by
        intro h
        rcases eq_or_ne h a with rfl | hne
        · exact .inr (by rw [Function.update_self]; rfl)
        · exact .inl (Function.update_of_ne hne ..)
      split at hs <;> cases hs
      · exact hx.relink rfl (fun u h _ _ => hnext h) rfl rfl
      · next v hv =>
        have hnull : s.next a = .null := by
          have hnode := (hi.publishes t a n (by rw [hp]; rfl)).2
          cases hv' : s.next a with
          | node m => simp [hv', Link.isNode] at hnode
          | waiter w => exact (hv w hv').elim
          | null => rfl
        exact hx.relink rfl (fun u h _ _ => hnext h) (assertFailed_assert (by simp [hnull])) rfl
  case pushNotify w =>
      cases hs
      exact hx.move rfl rfl rfl (by rintro h v ⟨⟩)

theorem stepThread_assertInv_taken {c : Choice} {j : Taken N T} (hi : CoreInv s)
    (hx : AssertInv s) (hj : (s.pc t).job = some j) (hs : stepThread s t c = some s') :
    AssertInv s' := by
  cases hp : s.pc t <;> simp only [stepThread, hp, Pc.job, reduceCtorEq, Option.some.injEq] at hs hj
  case takenCas | fullCas =>
      split at hs <;> cases hs
      · exact hx.move rfl rfl rfl (by rintro h v ⟨⟩)
      · exact hx.move rfl rfl rfl (by rintro h v ⟨⟩)
  case takenXchg | fullXchg =>
      have hl : (s.pc t).locked = some j.head := by rw [hp, hj]; rfl
      split at hs
      · obtain ⟨s₁, h1, rfl⟩ := Option.map_eq_some_iff.mp hs
        have hok := grab_assertFailed h1
        exact hx.move (congrArg (Function.update · t _) (sameCore_grab h1).pc)
          (sameCore_grab h1).next hok (by rintro h v ⟨⟩)
      · next hw =>
        cases hs
        exact hx.move rfl rfl (assertFailed_assert (by rw [hi.head_null hl hw]; rfl)) (by rintro h v ⟨⟩)
  case takenLoad k =>
      cases hs
      exact hx.takenDecide (.inl rfl)
  case takenInstall k v =>
      have hl : (s.pc t).locked = some k.head := by rw [hp]; rfl
      split at hs
      · cases hs
      · split at hs <;> cases hs
        · exact hx.relink rfl (hi.install_next hl) rfl rfl
        · next hne =>
          have hnode := (hx.cas t k.head v (by rw [hp]; rfl)).resolve_left hne
          have hsame : SameCore s ((s.assert (s.next k.head).isNode).linkPending t none) :=
            sameCore_assert.trans sameCore_linkPending
          have hok : ((s.assert _).linkPending t none).assertFailed = s.assertFailed :=
            linkPending_assertFailed.trans (assertFailed_assert hnode)
          exact (hx.congr hsame hok).takenDecide (.inl (congrFun hsame.next k.head))
  case fullNotify =>
      split at hs <;> cases hs
      exact hx.move rfl rfl rfl (by rintro h v ⟨⟩)
  case free =>
      cases hs
      exact hx.move rfl rfl rfl (by rintro h v ⟨⟩)

theorem stepThread_assertInv_locked {c : Choice} {h : N} (hi : CoreInv s) (hx : AssertInv s)
    (hl : (s.pc t).locked = some h) (hj : (s.pc t).job = none)
    (hok : FirstBatch s (.step t c)) (hs : stepThread s t c = some s') : AssertInv s' := by
  have hinst := fun v => hi.install_next (v := v) hl
  have hnull := hi.head_null hl
  cases hp : s.pc t <;>
    simp only [hp, Pc.locked, Pc.job, reduceCtorEq, Option.some.injEq] at hl hj <;>
    subst hl <;> simp only [stepThread, hp] at hs
  case popNext h =>
      cases hs
      exact hx.popDecide (.inl rfl)
  case popCas h v =>
      split at hs <;> cases hs
      · exact hx.relink rfl (hinst _) rfl rfl
      · next hne =>
        have hnode := (hx.cas t h v (by rw [hp]; rfl)).resolve_left hne
        have hsame : SameCore s (if (s.pending t).isSome = true
            then (s.assert (s.next h).isNode).linkPending t none
            else s.assert (s.next h).isNode) := by
          split
          · exact sameCore_assert.trans sameCore_linkPending
          · exact sameCore_assert
        have hok' : (if (s.pending t).isSome = true
            then (s.assert (s.next h).isNode).linkPending t none
            else s.assert (s.next h).isNode).assertFailed = s.assertFailed := by
          split
          · exact linkPending_assertFailed.trans (assertFailed_assert hnode)
          · exact assertFailed_assert hnode
        refine AssertInv.popDecide ?_ (.inl ?_)
        · exact hx.congr (hsame.trans sameCore_wnext) hok'
        · exact congrFun hsame.next h
  case unlockWaiting h =>
      split at hs
      · obtain ⟨s₁, h1, rfl⟩ := Option.map_eq_some_iff.mp hs
        have hok := grab_assertFailed h1
        exact hx.move (congrArg (Function.update · t _) (sameCore_grab h1).pc)
          (sameCore_grab h1).next hok (by rintro h v ⟨⟩)
      · next hw =>
        cases hs
        exact hx.move rfl rfl (assertFailed_assert (by rw [hnull hw]; rfl)) (by rintro h v ⟨⟩)
  case tryNext h =>
      cases hs
      exact hx.tryDecide (.inl rfl)
  case noItemCas h v =>
      split at hs <;> cases hs
      · exact hx.move rfl rfl rfl (by rintro h v ⟨⟩)
      · exact hx.move rfl rfl rfl (by rintro h v ⟨⟩)
  case noItemXchg h v =>
      have hv : v.isNode = false := by simpa [hp, Pc.sane] using hi.sane t
      split at hs
      · next w hw =>
        obtain ⟨s₁, h1, rfl⟩ := Option.map_eq_some_iff.mp hs
        have hcur := hok h v hp ⟨w, hw⟩
        have hx₁ : AssertInv s₁ := by
          have hx₀ : AssertInv { s with head := .null } := ⟨hx.cas, hx.ok⟩
          exact hx₀.congr (sameCore_grab h1) (grab_assertFailed h1)
        refine hx₁.noItem hv fun _ => ?_
        rw [Current, (sameCore_grab h1).next]
        exact hcur
      · next hw =>
        cases hs
        exact hx.move rfl rfl (assertFailed_assert (by rw [hnull hw]; rfl)) (by rintro h v ⟨⟩)
  case noItemInstall h v =>
      split at hs
      · cases hs
      · split at hs <;> cases hs
        · exact hx.relink rfl (hinst _) rfl rfl
        · next hne =>
          have hnode := (hx.cas t h v (by rw [hp]; rfl)).resolve_left hne
          have hsame : SameCore s ((s.assert (s.next h).isNode).linkPending t none) :=
            sameCore_assert.trans sameCore_linkPending
          have hok : ((s.assert _).linkPending t none).assertFailed = s.assertFailed :=
            linkPending_assertFailed.trans (assertFailed_assert hnode)
          exact (hx.congr hsame hok).tryDecide (.inl (congrFun hsame.next h))

theorem stepThread_assertInv {c : Choice} (hi : CoreInv s) (hx : AssertInv s)
    (hok : FirstBatch s (.step t c)) (hs : stepThread s t c = some s') : AssertInv s' := by
  cases hp : s.pc t
  case pushXchg | pushPublish | pushNotify =>
      exact stepThread_assertInv_push hi hx (by rw [hp]; rfl) hs
  case popNext | popCas | unlockWaiting | tryNext | noItemCas | noItemXchg | noItemInstall =>
      exact stepThread_assertInv_locked hi hx (by rw [hp]; rfl) (by rw [hp]; rfl) hok hs
  case takenCas | takenXchg | takenLoad | takenInstall | fullCas | fullXchg | fullNotify | free =>
      exact stepThread_assertInv_taken hi hx (by rw [hp]; rfl) hs
  all_goals simp only [stepThread, hp] at hs
  case idle => cases hs
  case popLoad =>
      cases hs
      exact hx.move rfl rfl rfl (by rintro h v ⟨⟩)
  case popTop v =>
      split at hs
      · cases hs
        exact hx.move rfl rfl rfl (by rintro h v ⟨⟩)
      · split at hs
        · cases hs
          exact hx.move rfl rfl rfl (by rintro h v ⟨⟩)
        · split at hs
          · cases hs
            exact hx.move rfl rfl rfl (by rintro h v ⟨⟩)
          · obtain ⟨s₁, h1, rfl⟩ := Option.map_eq_some_iff.mp hs
            have hok := grab_assertFailed h1
            exact hx.move (congrArg (Function.update · t _) (sameCore_grab h1).pc)
              (sameCore_grab h1).next hok (by rintro h v ⟨⟩)
          · cases hs
            exact hx.move rfl rfl rfl (by rintro h v ⟨⟩)
  case popInstall =>
      split at hs <;> cases hs
      · exact hx.move rfl rfl rfl (by rintro h v ⟨⟩)
      · exact hx.move rfl rfl rfl (by rintro h v ⟨⟩)
  case waitHead =>
      split at hs
      · split at hs
        · cases hs
          exact hx.move rfl rfl rfl (by rintro h v ⟨⟩)
        · obtain ⟨s₁, h1, rfl⟩ := Option.map_eq_some_iff.mp hs
          have hok := prepend_assertFailed h1
          exact hx.move (congrArg (Function.update · t _) (sameCore_prepend h1).pc)
            (sameCore_prepend h1).next hok (by rintro h v ⟨⟩)
      · cases hs
  case waitItem =>
      split at hs
      · split at hs
        · cases hs
          exact hx.move rfl rfl rfl (by rintro h v ⟨⟩)
        · obtain ⟨s₁, h1, rfl⟩ := Option.map_eq_some_iff.mp hs
          have hok := append_assertFailed h1
          exact hx.move (congrArg (Function.update · t _) (sameCore_append h1).pc)
            (sameCore_append h1).next hok (by rintro h v ⟨⟩)
      · cases hs
  case tryLoad =>
      split at hs <;> cases hs
      · exact hx.move rfl rfl rfl (by rintro h v ⟨⟩)
      · exact hx.move rfl rfl rfl (by rintro h v ⟨⟩)
  case tryCas h =>
      split at hs
      · cases hs
        exact hx.move rfl rfl rfl (by rintro h v ⟨⟩)
      · split at hs <;> cases hs
        · exact hx.move rfl rfl rfl (by rintro h v ⟨⟩)
        · exact hx.move rfl rfl rfl (by rintro h v ⟨⟩)

-- ============================================================================
-- Runs
-- ============================================================================

theorem step_assertInv {a : Act N T} (hi : CoreInv s) (hx : AssertInv s) (hok : FirstBatch s a)
    (hs : queue.step s a = some s') : AssertInv s' := by
  cases a with
  | push t n v =>
      simp only [queue] at hs
      split at hs <;> cases hs
      next hc =>
        refine hx.relink rfl (fun u h _ hl => .inl ?_) rfl rfl
        have halloc := hi.alloc h (List.mem_of_mem_head? (hi.locked u h hl).2)
        refine Function.update_of_ne ?_ ..
        rintro rfl
        rw [hc.2] at halloc
        cases halloc
  | pop t =>
      simp only [queue] at hs
      split at hs <;> cases hs
      exact hx.move rfl rfl rfl (by rintro h v ⟨⟩)
  | tryPop t =>
      simp only [queue] at hs
      split at hs <;> cases hs
      exact hx.move rfl rfl rfl (by rintro h v ⟨⟩)
  | step t c =>
      obtain ⟨s₁, h1, rfl⟩ := Option.map_eq_some_iff.mp hs
      have := stepThread_assertInv hi hx hok h1
      exact ⟨this.cas, this.ok⟩

theorem reachable_assertInv (hr : queue.ReachableIf FirstBatch s) : AssertInv s := by
  refine hr.invariant_of (fun _ hr => reachable_coreInv hr.reachable) ?_
    fun _ _ _ hi hx hok hs => step_assertInv hi hx hok hs
  rintro _ ⟨stub, item, rfl⟩
  exact ⟨by rintro t h v ⟨⟩, rfl⟩

/-- In every run that stays with the first batch, no assertion fails, every
    compare-exchange on `head->next` that fails finds an item, and when that
    happens in `try_unlock_no_item` the next iteration takes it. -/
theorem asserts_hold_of_firstBatch :
    (∀ s : State N T, queue.ReachableIf FirstBatch s →
      s.assertFailed = false ∧
      ∀ t h v, (s.pc t).expects = some (h, v) → s.next h ≠ v → (s.next h).isNode = true) ∧
    (∀ (s s' : State N T) (t : Nat) (c : Choice) (h : N) (v : Link N),
      queue.ReachableIf FirstBatch s → s.pc t = .noItemInstall h v → s.next h ≠ v →
      queue.step s (.step t c) = some s' → ∃ j, (s'.pc t).job = some j) := by
  refine ⟨fun s hr => ?_, fun s s' t c h v hr hp hne hs => ?_⟩
  · have hx := reachable_assertInv hr
    exact ⟨hx.ok, fun t h v he hne => (hx.cas t h v he).resolve_left hne⟩
  · have hx := reachable_assertInv hr
    have hnode := (hx.cas t h v (by rw [hp]; rfl)).resolve_left hne
    obtain ⟨s₁, h1, rfl⟩ := Option.map_eq_some_iff.mp hs
    simp only [stepThread, hp, if_neg hne] at h1
    split at h1
    · cases h1
    · cases h1
      cases hn : s.next h with
      | node n =>
          simp only [State.tryDecide, State.take, State.tick, State.goto, Function.update_self]
          split <;> exact ⟨_, rfl⟩
      | null => simp [hn, Link.isNode] at hnode
      | waiter w => simp [hn, Link.isNode] at hnode

end Steps

/-- `try_pop` locks an empty queue.  One consumer after the other starts to wait
    for the lock, and `try_unlock_no_item` installs the first one before the
    second one arrives. -/
def twoBatches : List (Act Nat Nat) :=
  [.tryPop 0, .step 0 .go, .step 0 .go,
    .pop 1, .step 1 .go, .step 1 .go, .step 1 .go,
    .step 0 .go, .step 0 .go, .step 0 .go, .step 0 .go,
    .pop 2, .step 2 .go, .step 2 .go, .step 2 .go,
    .step 0 .go, .step 0 .go, .step 0 .go]

/-- The compare-exchange for the second batch finds the first one. -/
theorem asserts_fail :
    ¬ ∀ s : State Nat Nat, queue.Reachable s → s.assertFailed = false := by
  intro h
  obtain ⟨s, hr, hp⟩ := System.exists_reachable_of_run (M := queue (N := Nat) (T := Nat))
    (s := State.start 0 id) twoBatches (fun s => s.assertFailed) ⟨0, id, rfl⟩ (by decide)
  rw [h s hr] at hp
  cases hp

end Coroactors.Queue
