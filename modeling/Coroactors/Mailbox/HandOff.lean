/-
  Coroactors.Mailbox.HandOff

  The lock of `intrusive_mailbox` (coroactors/detail/intrusive_mailbox.h) has
  at most one owner and is never lost.

  The owners are what the returned calls make of them (`Event.owners`): the
  lock is gained by a `push` or a `try_lock` that returns true and given up by
  a `pop` that returns null or a `try_unlock` that returns true.  If nobody
  owns a mailbox that still holds a node, a push is in flight at the head, and
  its `push_publish` is going to return true unless a `try_lock` comes first.
-/

import Coroactors.Mailbox.Fifo

namespace Coroactors.Mailbox

open Coroactors.Conc

variable {N : Type*} {s s' : State N} {t : Nat}

-- ============================================================================
-- Owners and returned calls
-- ============================================================================

/-- A step returns from no call, or from one, and the owners and the nodes
    handed out follow. -/
def Logged (s s' : State N) : Prop :=
  (s'.log = s.log ∧ s'.owners = s.owners ∧ s'.popped = s.popped) ∨
    ∃ e, s'.log = s.log ++ [e] ∧ s'.owners = e.owners s.owners ∧ s'.popped = s.popped ++ e.taken

section Logged

variable [DecidableEq N] {op : Op} {a p : Ptr N}

theorem retSome_logged : Logged s (s.retSome t op a p) := by
  cases op <;> exact .inr ⟨_, rfl, rfl, rfl⟩

omit [DecidableEq N] in
theorem retNone_logged : Logged s (s.retNone t op) := by
  cases op <;> exact .inr ⟨_, rfl, rfl, rfl⟩

theorem finish_logged {w : Word N} : Logged s (s.finish t op a w) := by
  cases w with
  | ptr p => exact retSome_logged
  | _ => exact .inl ⟨rfl, rfl, rfl⟩

theorem loaded_logged {w : Word N} : Logged s (s.loaded t op a w) := by
  cases w with
  | null => exact .inl ⟨rfl, rfl, rfl⟩
  | _ => exact finish_logged

omit [DecidableEq N] in
theorem removeStub_logged {w : Word N} : Logged s (s.removeStub t op w) := by
  cases w <;> exact .inl ⟨rfl, rfl, rfl⟩

omit [DecidableEq N] in
theorem blocked_logged : Logged s (s.blocked t op a) := by
  unfold State.blocked
  split
  · exact .inl ⟨rfl, rfl, rfl⟩
  · exact retNone_logged

theorem stepThread_logged (hs : stepThread s t = some s') : Logged s s' := by
  cases hp : s.pc t <;> simp only [stepThread, hp] at hs
  case publish =>
    cases hs
    exact .inr ⟨_, rfl, rfl, rfl⟩
  case tryLock => split at hs <;> cases hs <;> exact .inr ⟨_, rfl, rfl, rfl⟩
  case load op =>
    split at hs
    · split at hs <;> cases hs
      · split
        · exact .inl ⟨rfl, rfl, rfl⟩
        · exact retNone_logged
      · exact removeStub_logged
    · cases hs
      exact loaded_logged
  case stubCas op =>
    split at hs <;> cases hs
    · exact retNone_logged (s := s.setNext .stub .unlocked)
    · exact removeStub_logged
  case headLoad =>
    cases hs
    exact loaded_logged
  case tailLoad =>
    split at hs <;> cases hs
    · exact .inl ⟨rfl, rfl, rfl⟩
    · exact blocked_logged
  case tailCas =>
    split at hs <;> cases hs
    · exact .inl ⟨rfl, rfl, rfl⟩
    · exact blocked_logged
  case linkStub op a =>
    cases hs
    exact retSome_logged (s := s.setNext a (.ptr .stub))
  case headCas op a =>
    split at hs <;> cases hs
    · exact retNone_logged (s := s.setNext a .unlocked)
    · exact finish_logged
  all_goals
    cases hs
    try exact .inl ⟨rfl, rfl, rfl⟩

theorem step_logged {a : Act N} (hs : (mailbox N).step s a = some s') : Logged s s' := by
  cases a <;> simp only [mailbox] at hs
  case step u => exact stepThread_logged hs
  case pass u v =>
    split at hs <;> cases hs
    exact .inr ⟨_, rfl, rfl, rfl⟩
  all_goals
    split at hs <;> cases hs
    exact .inl ⟨rfl, rfl, rfl⟩

/-- The owners and the nodes handed out are those of the log. -/
theorem reachable_log (h : (mailbox N).Reachable s) :
    ∃ owner : Option Nat, s.owners = s.log.foldl (fun o e => e.owners o) owner.toList ∧
      s.popped = s.log.flatMap Event.taken := by
  refine h.invariant (I := fun s => ∃ owner : Option Nat,
    s.owners = s.log.foldl (fun o e => e.owners o) owner.toList ∧
      s.popped = s.log.flatMap Event.taken) ?_ ?_
  · rintro s ⟨next, owner, rfl⟩
    exact ⟨owner, rfl, rfl⟩
  · rintro s a s' ⟨owner, ho, hp⟩ - hs
    refine ⟨owner, ?_⟩
    rcases step_logged hs with ⟨h1, h2, h3⟩ | ⟨e, h1, h2, h3⟩
    · rw [h1, h2, h3]
      exact ⟨ho, hp⟩
    · rw [h1, h2, h3, ho, hp]
      simp

end Logged

/-- Who gains the lock by a return: a `push` or `try_lock` that returned true,
    or the thread it is passed on to. -/
theorem Event.gained {e : Event N} {o : List Nat} (h : t ∈ e.owners o) (hn : t ∉ o) :
    (∃ n, e = .push t n true) ∨ e = .tryLock t true ∨ ∃ u, e = .pass u t := by
  cases e with
  | push u n b => cases b <;> simp_all [Event.owners]
  | tryLock u b => cases b <;> simp_all [Event.owners]
  | pop u r => cases r <;> simp_all [Event.owners, mt List.mem_of_mem_erase]
  | tryUnlock u b => cases b <;> simp_all [Event.owners, mt List.mem_of_mem_erase]
  | pass u v =>
      rcases List.mem_cons.mp h with rfl | h
      · exact .inr (.inr ⟨u, rfl⟩)
      · exact absurd (List.mem_of_mem_erase h) hn
  | _ => exact absurd h hn

/-- Who gives it up: a `pop` that returned null or a `try_unlock` that returned
    true, or the thread that passes it on. -/
theorem Event.givenUp {e : Event N} {o : List Nat} (h : t ∈ o) (hn : t ∉ e.owners o) :
    e = .pop t none ∨ e = .tryUnlock t true ∨ ∃ u, e = .pass t u := by
  have herase : ∀ u, t ∉ o.erase u → u = t := by
    intro u hu
    by_contra hne
    exact hu ((List.mem_erase_of_ne (Ne.symm hne)).mpr h)
  cases e with
  | push u n b => cases b <;> simp_all [Event.owners]
  | tryLock u b => cases b <;> simp_all [Event.owners]
  | pop u r =>
      cases r with
      | none => exact .inl (by rw [herase u hn])
      | some p => exact absurd h hn
  | tryUnlock u b =>
      cases b with
      | true => exact .inr (.inl (by rw [herase u hn]))
      | false => exact absurd h hn
  | pass u v =>
      have := herase u fun hm => hn (List.mem_cons_of_mem _ hm)
      exact .inr (.inr ⟨v, by rw [this]⟩)
  | _ => exact absurd h hn

-- ============================================================================
-- The hand-off
-- ============================================================================

/-- Thread `t` has not made its `push_publish`, and no `try_lock` gains the
    lock. -/
def Undisturbed [DecidableEq N] (t : Nat) (s : State N) (a : Act N) : Prop :=
  a ≠ .step t ∧ ∀ s' u, (mailbox N).step s a = some s' → s'.log ≠ s.log ++ [.tryLock u true]

/-- A push waits at an unlocked head. -/
structure Pending (s : State N) (t : Nat) (a : Ptr N) (n : N) : Prop where
  inv : Inv s
  pc : s.pc t = .publish a n
  marker : s.next a = .unlocked

theorem Pending.head {a : Ptr N} {n : N} (h : Pending s t a n) : a = s.head ∧ s.owners = [] := by
  have hok := h.inv.pc t
  rw [h.pc] at hok
  have ha := h.inv.marker a hok.1.mem_left h.marker
  exact ⟨ha, h.inv.locked.mpr (ha ▸ h.marker)⟩

/-- While nobody owns the mailbox, a thread that makes a step pushes or tries
    to lock. -/
theorem Inv.pc_of_unowned {u : Nat} (h : Inv s) (ho : s.owners = []) :
    s.pc u = .idle ∨ s.pc u = .tryLock ∨ (∃ m, s.pc u = .pushStore m) ∨
      (∃ m, s.pc u = .pushXchg m) ∨ ∃ b m, s.pc u = .publish b m := by
  have hok := h.pc u
  cases hp : s.pc u <;> rw [hp] at hok <;> simp_all [PcOk]

/-- Nothing but a `try_lock` takes the marker away from the push. -/
theorem Pending.step [DecidableEq N] {a : Ptr N} {n : N} {x : Act N} (h : Pending s t a n)
    (hx : Undisturbed t s x) (hs : (mailbox N).step s x = some s') : Pending s' t a n := by
  obtain ⟨hne, htry⟩ := hx
  obtain ⟨-, hown⟩ := h.head
  have hinv := h.inv
  have hok := hinv.pc t
  rw [h.pc] at hok
  -- another thread moves, and leaves the marker alone
  have hmove : ∀ u q, u ≠ t → s'.pc = Function.update s.pc u q → s'.next a = s.next a →
      Pending s' t a n := by
    intro u q hu hpc hnext
    refine ⟨step_inv hinv hs, ?_, hnext.trans h.marker⟩
    rw [hpc, Function.update_of_ne (Ne.symm hu), h.pc]
  have hidle : ∀ u, s.pc u = .idle → u ≠ t := by
    rintro u hu rfl
    rw [h.pc] at hu
    cases hu
  cases x with
  | push u m =>
      simp only [mailbox] at hs
      split at hs <;> cases hs
      rename_i hc
      exact hmove u _ (hidle u hc.1) rfl rfl
  | tryLock u =>
      simp only [mailbox] at hs
      split at hs <;> cases hs
      rename_i hc
      exact hmove u _ (hidle u hc) rfl rfl
  | call u op => simp [mailbox, hown] at hs
  | pass u v => simp [mailbox, hown] at hs
  | step u =>
      have hut : u ≠ t := by
        rintro rfl
        exact hne rfl
      have hs' : stepThread s u = some s' := hs
      rcases hinv.pc_of_unowned (u := u) hown with hp | hp | ⟨m, hp⟩ | ⟨m, hp⟩ | ⟨b, m, hp⟩ <;>
        simp only [stepThread, hp] at hs'
      · cases hs'
      · split at hs' <;> cases hs'
        · exact absurd rfl (htry _ u hs)
        · exact hmove u _ hut rfl rfl
      · cases hs'
        refine hmove u _ hut rfl (Function.update_of_ne ?_ _ _)
        rintro rfl
        have hokm := hinv.pc u
        rw [hp] at hokm
        exact hokm hok.1.mem_left
      · cases hs'
        exact hmove u _ hut rfl rfl
      · cases hs'
        refine hmove u _ hut rfl (Function.update_of_ne ?_ _ _)
        refine hinv.watches_ne (u := t) (t := u) (by rw [hp]; rfl) (Ne.symm hut) ?_
        rw [h.pc]
        rfl

/-- The push that waits at an unlocked head locks the mailbox. -/
theorem Pending.locks [DecidableEq N] {a : Ptr N} {n : N} (h : Pending s t a n) :
    ∃ s', (mailbox N).step s (.step t) = some s' ∧ s'.log = s.log ++ [.push t n true] ∧
      s'.owners = [t] := by
  obtain ⟨-, hown⟩ := h.head
  simp [mailbox, stepThread, h.pc, h.marker, State.ret, State.setNext, State.assert,
    Event.owners, State.goto, hown]

-- ============================================================================
-- Every run
-- ============================================================================

/-- In every run there is at most one owner, and the owners are those that the
    returned calls make; an owner comes and goes with the named returns only;
    if nobody owns the mailbox and some node was not handed out, a push in
    flight is going to lock it unless a `try_lock` does; and no unlocked
    mailbox with all pushes finished holds a node. -/
theorem mailbox_handOff [DecidableEq N] :
    (∀ s : State N, (mailbox N).Reachable s → s.owners.length ≤ 1 ∧
      ∃ owner : Option Nat, s.owners = s.log.foldl (fun o e => e.owners o) owner.toList) ∧
    (∀ (s s' : State N) (a : Act N) (t : Nat), (mailbox N).step s a = some s' →
      (t ∈ s'.owners → t ∉ s.owners →
        (∃ n, s'.log = s.log ++ [.push t n true]) ∨ s'.log = s.log ++ [.tryLock t true] ∨
          ∃ u, s'.log = s.log ++ [.pass u t]) ∧
      (t ∈ s.owners → t ∉ s'.owners →
        s'.log = s.log ++ [.pop t none] ∨ s'.log = s.log ++ [.tryUnlock t true] ∨
          ∃ u, s'.log = s.log ++ [.pass t u])) ∧
    (∀ s : State N, (mailbox N).Reachable s → s.owners = [] → s.popped ≠ s.order.map .node →
      ∃ t a n, s.pc t = .publish a n ∧ ∀ s', (mailbox N).Path (Undisturbed t) s s' →
        ∃ s'', (mailbox N).step s' (.step t) = some s'' ∧
          s''.log = s'.log ++ [.push t n true] ∧ s''.owners = [t]) ∧
    (∀ s : State N, (mailbox N).Reachable s → s.owners = [] → NoPublish s →
      s.popped = s.order.map .node) := by
  refine ⟨?_, ?_, ?_, ?_⟩
  · intro s hr
    obtain ⟨owner, ho, -⟩ := reachable_log hr
    exact ⟨(reachable_inv hr).single, owner, ho⟩
  · intro s s' a t hs
    rcases step_logged hs with ⟨-, ho, -⟩ | ⟨e, hlog, ho, -⟩
    · rw [ho]
      exact ⟨fun h hn => absurd h hn, fun h hn => absurd h hn⟩
    · rw [ho, hlog]
      constructor
      · intro h hn
        rcases Event.gained h hn with ⟨n, rfl⟩ | rfl | ⟨u, rfl⟩
        · exact .inl ⟨n, rfl⟩
        · exact .inr (.inl rfl)
        · exact .inr (.inr ⟨u, rfl⟩)
      · intro h hn
        rcases Event.givenUp h hn with rfl | rfl | ⟨u, rfl⟩
        · exact .inl rfl
        · exact .inr (.inl rfl)
        · exact .inr (.inr ⟨u, rfl⟩)
  · intro s hr ho hne
    have h := reachable_inv hr
    have hrem : s.remaining ≠ [] := by
      intro hnil
      have horder := h.order
      rw [show s.chain.filter Ptr.isNode = s.remaining from rfl, hnil, List.append_nil] at horder
      exact hne horder
    obtain ⟨t, n, hp, hu⟩ := h.publish_of_unlocked ho hrem
    refine ⟨t, s.head, n, hp, fun s' hpath => ?_⟩
    have hpend : Pending s' t s.head n :=
      hpath.invariant (I := fun x => Pending x t s.head n) (fun _ _ _ hi hok hs => hi.step hok hs)
        ⟨h, hp, hu⟩
    exact hpend.locks
  · intro s hr ho hn
    exact (reachable_inv hr).popped_of_unlocked ho hn

end Coroactors.Mailbox
