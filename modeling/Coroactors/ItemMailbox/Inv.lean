/-
  Coroactors.ItemMailbox.Inv

  The invariant of `mailbox<T>` (coroactors/detail/mailbox.h).

  `chain` lists the nodes from `head_` to `tail_`.  Every two neighbours are
  linked, or the push that is going to link them is on its way.
  `MarkerUnlocked` stands at the head or nowhere, and it stands there exactly
  when nobody owns the mailbox.
-/

import Coroactors.Conc.Chain
import Coroactors.ItemMailbox.Model

namespace Coroactors.ItemMailbox

open Coroactors.Conc

variable {N T : Type*} {s s' : State N T} {t u : Nat}

-- ============================================================================
-- The invariant
-- ============================================================================

def Word.isNode : Word N → Bool
  | .node _ => true
  | _ => false

/-- The node that the thread is about to append. -/
def Pc.fresh : Pc N → Option N
  | .pushXchg n => some n
  | _ => none

/-- The link that the thread is about to publish. -/
def Pc.publishes : Pc N → Option (N × N)
  | .publish a b => some (a, b)
  | _ => none

/-- The thread is in a function of the owner. -/
def Pc.owner : Pc N → Bool
  | .load _ | .cas _ => true
  | _ => false

/-- The thread did not crash, and `peek` does not unlock. -/
def Pc.valid : Pc N → Bool
  | .crashed | .cas .peek => false
  | _ => true

/-- The owner is not in a push. -/
theorem Pc.not_push_of_owner {p : Pc N} (h : p.owner = true) :
    p.fresh = none ∧ p.publishes = none := by
  cases p <;> simp_all [owner, fresh, publishes]

structure Inv (s : State N T) : Prop where
  ok : s.assertFailed = false
  nodup : s.chain.Nodup
  head : s.chain.head? = some s.head
  last : s.chain.getLast? = some s.tail
  alloc : ∀ n ∈ s.chain, s.alloc n = true
  fresh : ∀ t n, (s.pc t).fresh = some n → s.alloc n = true ∧ n ∉ s.chain ∧ s.next n = .null
  freshInj : ∀ t u n, (s.pc t).fresh = some n → (s.pc u).fresh = some n → t = u
  publishes : ∀ t a b, (s.pc t).publishes = some (a, b) →
    Adj s.chain a b ∧ (s.next a).isNode = false
  publishesInj : ∀ t u e, (s.pc t).publishes = some e → (s.pc u).publishes = some e → t = u
  link : ∀ a n, a ∈ s.chain → s.next a = .node n → Adj s.chain a n
  flight : ∀ a b, Adj s.chain a b → s.next a = .node b ∨ ∃ t, (s.pc t).publishes = some (a, b)
  marker : ∀ a ∈ s.chain, s.next a = .unlocked → a = s.head
  locked : s.owners = [] ↔ s.next s.head = .unlocked
  single : s.owners.length ≤ 1
  owner : ∀ t, (s.pc t).owner = true → t ∈ s.owners
  valid : ∀ t, (s.pc t).valid = true
  items : s.pushed = s.popped ++ s.chain.tail.map s.item

theorem Inv.head_mem (hi : Inv s) : s.head ∈ s.chain := List.mem_of_mem_head? hi.head

theorem Inv.tail_mem (hi : Inv s) : s.tail ∈ s.chain := List.mem_of_getLast? hi.last

/-- The last node has no successor. -/
theorem Inv.next_tail (hi : Inv s) : (s.next s.tail).isNode = false := by
  cases hv : s.next s.tail with
  | node n => exact absurd rfl ((hi.link _ n hi.tail_mem hv).ne_last hi.nodup hi.last)
  | null => rfl
  | unlocked => rfl

/-- The first item is the second node. -/
theorem Inv.chain_eq (hi : Inv s) {n : N} (hn : s.next s.head = .node n) :
    ∃ c, s.chain = s.head :: n :: c := by
  have hadj := hi.link s.head n hi.head_mem hn
  obtain ⟨c, hc⟩ := List.head?_eq_some_iff.mp hi.head
  have hnd := hi.nodup
  rw [hc] at hadj hnd
  rcases Adj.cons.mp hadj with ⟨-, h⟩ | h
  · obtain ⟨c', rfl⟩ := List.head?_eq_some_iff.mp h
    exact ⟨c', hc⟩
  · exact absurd h.mem_left (List.nodup_cons.mp hnd).1

attribute [local grind] Pc.fresh Pc.publishes Pc.owner Pc.valid Word.isNode

/-- A thread of the owner goes on, or starts a function. -/
theorem Inv.goto (hi : Inv s) {p : Pc N} (hf : (s.pc t).fresh = p.fresh)
    (hp : (s.pc t).publishes = p.publishes) (ho : p.owner = true → t ∈ s.owners)
    (hv : p.valid = true) : Inv (s.goto t p) := by
  obtain ⟨⟩ := hi
  constructor
  case ok | nodup | head | last | alloc | link | marker | locked | single | items => assumption
  all_goals
    intros
    simp only [State.goto, Function.update_apply] at *
    grind -linarith

/-- The owner has the mailbox locked. -/
theorem Inv.next_head (hi : Inv s) (hpc : (s.pc t).owner = true) :
    s.next s.head ≠ .unlocked := by
  intro hu
  have hown := hi.owner t hpc
  rw [hi.locked.mpr hu] at hown
  cases hown

/-- A function of the owner returns and leaves the lock alone. -/
theorem Inv.keeps (hi : Inv s) {e : Event N T} (hpc : (s.pc t).owner = true)
    (ho : e.owners s.owners = s.owners) (ht : e.taken = []) : Inv (s.ret t e) := by
  have hg : Inv (s.goto t .idle) := by
    obtain ⟨hfresh, hpub⟩ := Pc.not_push_of_owner hpc
    exact hi.goto hfresh hpub (by simp [Pc.owner]) rfl
  have : s.ret t e = { s.goto t .idle with log := s.log ++ [e] } := by
    simp [State.ret, ho, ht, State.goto]
  rw [this]
  obtain ⟨⟩ := hg
  constructor <;> assumption

/-- `push`: the exchange on `tail_`. -/
theorem Inv.xchg (hi : Inv s) {n : N} (hp : s.pc t = .pushXchg n) :
    Inv ({ s with
      tail := n
      chain := s.chain ++ [n]
      pushed := s.pushed ++ [s.item n] }.goto t (.publish s.tail n)) := by
  obtain ⟨ha, hmem, hnull⟩ := hi.fresh t n (by rw [hp]; rfl)
  have hne : s.chain ≠ [] := List.ne_nil_of_mem hi.head_mem
  have hhead : (s.chain ++ [n]).head? = s.chain.head? := List.head?_append_of_ne_nil _ hne
  have htail : (s.chain ++ [n]).tail = s.chain.tail ++ [n] := List.tail_append_of_ne_nil hne
  have hnode := hi.next_tail
  have htl := hi.tail_mem
  obtain ⟨⟩ := hi
  constructor
  case nodup => exact List.nodup_append.mpr ⟨‹_›, by simp, by grind -linarith⟩
  case items =>
      simp only [State.goto, htail, List.map_append]
      rename_i hitems
      rw [hitems, List.append_assoc]
      rfl
  case last => exact List.getLast?_concat
  case ok | single | locked => assumption
  all_goals
    intros
    simp only [State.goto, Function.update_apply, hhead, Adj.append_singleton,
      List.mem_append, List.mem_singleton] at *
    grind -linarith [Adj.mem_right]

section Steps

variable [DecidableEq N]

/-- `push`: a new node. -/
theorem Inv.newNode (hi : Inv s) {n : N} {v : T} (hp : s.pc t = .idle) (hn : s.alloc n = false) :
    Inv ({ s with
      next := Function.update s.next n .null
      item := Function.update s.item n v
      alloc := Function.update s.alloc n true }.goto t (.pushXchg n)) := by
  have hmem : n ∉ s.chain := by
    intro hm
    rw [hi.alloc n hm] at hn
    cases hn
  have hhead := hi.head_mem
  have hitems : s.chain.tail.map (Function.update s.item n v) = s.chain.tail.map s.item := by
    refine List.map_congr_left fun x hx => Function.update_of_ne ?_ ..
    rintro rfl
    exact hmem (List.mem_of_mem_tail hx)
  obtain ⟨⟩ := hi
  constructor
  case items =>
      simp only [State.goto, hitems]
      assumption
  case ok | nodup | head | last | single => assumption
  all_goals
    intros
    simp only [State.goto, Function.update_apply] at *
    grind -linarith [Adj.mem_left]

/-- `push`: the link is published, and the mailbox is locked by that if it was
    unlocked. -/
theorem Inv.publish (hi : Inv s) {a n : N} (hp : s.pc t = .publish a n) :
    Inv ({ s with next := Function.update s.next a (.node n) }.ret t
      (.push t n (decide (s.next a = Word.unlocked)))) := by
  obtain ⟨hadj, hnode⟩ := hi.publishes t a n (by rw [hp]; rfl)
  have hmem := hadj.mem_left
  have hunlocked : s.next a = .unlocked → a = s.head := hi.marker a hmem
  have hright : ∀ b, Adj s.chain a b → b = n := fun b hb => hb.right_unique hi.nodup hadj
  have hitems := hi.items
  cases hv : s.next a with
  | node m =>
      rw [hv] at hnode
      cases hnode
  | null =>
      obtain ⟨⟩ := hi
      constructor
      case ok | nodup | head | last | alloc | single => assumption
      case items => simpa [State.ret, State.goto, Event.taken] using hitems
      all_goals
        intros
        simp only [State.ret, State.goto, Function.update_apply, Event.owners, reduceCtorEq,
          decide_false] at *
        grind -linarith
  | unlocked =>
      have ha := hunlocked hv
      have hown := hi.locked.mpr (ha ▸ hv)
      obtain ⟨⟩ := hi
      constructor
      case ok | nodup | head | last | alloc => assumption
      case items => simpa [State.ret, State.goto, Event.taken] using hitems
      all_goals
        intros
        simp only [State.ret, State.goto, Function.update_apply, Event.owners,
          decide_true] at *
        grind -linarith

/-- The pop takes the first item. -/
theorem Inv.advance (hi : Inv s) {n : N} (hpc : (s.pc t).owner = true)
    (hn : s.next s.head = .node n) : Inv (s.advance t n) := by
  obtain ⟨c', hc⟩ := hi.chain_eq hn
  obtain ⟨c, hc'⟩ : ∃ c, c = n :: c' := ⟨_, rfl⟩
  rw [← hc'] at hc
  have hnd := hi.nodup
  rw [hc] at hnd
  have hh : s.head ∉ c := (List.nodup_cons.mp hnd).1
  have hlast : c.getLast? = some s.tail := by
    have := hi.last
    rwa [hc, hc', List.getLast?_cons_cons, ← hc'] at this
  have hcons : ∀ a b, Adj s.chain a b ↔ (a = s.head ∧ b = n) ∨ Adj c a b := by
    intro a b
    rw [hc, Adj.cons, hc', List.head?_cons, Option.some.injEq, eq_comm (a := n)]
  have hown := hi.owner t hpc
  obtain ⟨hfresh, hpub⟩ := Pc.not_push_of_owner hpc
  obtain ⟨⟩ := hi
  constructor
  case ok => assumption
  case single => assumption
  case nodup =>
      rw [show (s.advance t n).chain = c by simp [State.advance, State.ret, State.goto, hc]]
      exact (List.nodup_cons.mp hnd).2
  case items =>
      rename_i hitems
      rw [hc, List.tail_cons, hc', List.map_cons] at hitems
      simp [State.advance, State.ret, State.goto, Event.taken, hc, hc', hitems]
  all_goals
    intros
    simp only [State.advance, State.ret, State.goto, Function.update_apply, Event.owners, hc,
      List.tail_cons] at *
    grind -linarith [Adj.mem_left, Adj.mem_right]

/-- A function of the owner unlocks. -/
theorem Inv.unlock (hi : Inv s) {e : Event N T} (hpc : (s.pc t).owner = true)
    (hn : s.next s.head = .null) (ho : e.owners s.owners = s.owners.erase t) (ht : e.taken = []) :
    Inv ({ s with next := Function.update s.next s.head .unlocked }.ret t e) := by
  have hown := hi.owner t hpc
  obtain ⟨hfresh, hpub⟩ := Pc.not_push_of_owner hpc
  obtain ⟨o, hone⟩ := List.length_eq_one_iff.mp
    (Nat.le_antisymm hi.single (List.length_pos_of_mem hown))
  obtain rfl : t = o := by simpa [hone] using hown
  have hnil : e.owners s.owners = [] := by
    rw [ho, hone]
    exact List.erase_cons_head ..
  have hhead := hi.head_mem
  have hitems := hi.items
  obtain ⟨⟩ := hi
  constructor
  case ok => assumption
  case items => simpa [State.ret, State.goto, ht] using hitems
  all_goals
    intros
    simp only [State.ret, State.goto, Function.update_apply, hnil] at *
    grind -linarith

end Steps

/-- The owner passes the mailbox on to another thread. -/
theorem Inv.pass (hi : Inv s) (hp : s.pc t = .idle) (hown : t ∈ s.owners) :
    Inv (s.ret t (.pass t u)) := by
  obtain ⟨o, hone⟩ := List.length_eq_one_iff.mp
    (Nat.le_antisymm hi.single (List.length_pos_of_mem hown))
  obtain rfl : t = o := by simpa [hone] using hown
  have howners : s.owners.erase t = [] := by
    rw [hone]
    exact List.erase_cons_head ..
  have hitems := hi.items
  obtain ⟨⟩ := hi
  constructor
  case ok | nodup | head | last | alloc | link | marker => assumption
  case items => simpa [State.ret, State.goto, Event.taken] using hitems
  all_goals
    intros
    simp only [State.ret, State.goto, Function.update_apply, Event.owners, howners] at *
    grind -linarith

-- ============================================================================
-- Steps
-- ============================================================================

section Steps

variable [DecidableEq N]

/-- What a step does to a mailbox in order. -/
inductive Effect (s : State N T) : State N T → Prop
  | newNode {t : Nat} {n : N} {v : T} (hp : s.pc t = .idle) (hn : s.alloc n = false) :
      Effect s ({ s with
        next := Function.update s.next n .null
        item := Function.update s.item n v
        alloc := Function.update s.alloc n true }.goto t (.pushXchg n))
  /-- The owner starts a function, or is about to unlock. -/
  | goes {t : Nat} {p : Pc N} (hf : (s.pc t).fresh = none) (hp : (s.pc t).publishes = none)
      (ho : t ∈ s.owners) (hpo : p.owner = true) (hv : p.valid = true) : Effect s (s.goto t p)
  | xchg {t : Nat} {n : N} (hp : s.pc t = .pushXchg n) :
      Effect s ({ s with
        tail := n
        chain := s.chain ++ [n]
        pushed := s.pushed ++ [s.item n] }.goto t (.publish s.tail n))
  | publish {t : Nat} {a n : N} (hp : s.pc t = .publish a n) :
      Effect s ({ s with next := Function.update s.next a (.node n) }.ret t
        (.push t n (decide (s.next a = Word.unlocked))))
  /-- A pop takes the first item. -/
  | takes {t : Nat} {n : N} (hpc : (s.pc t).owner = true) (hn : s.next s.head = .node n) :
      Effect s (s.advance t n)
  | peeks {t : Nat} {n : N} (hpc : (s.pc t).owner = true) (hn : s.next s.head = .node n) :
      Effect s (s.ret t (.peek t (some (n, s.item n))))
  /-- `peek` finds no item, or `try_unlock` finds one. -/
  | keeps {t : Nat} {e : Event N T} (hpc : (s.pc t).owner = true)
      (he : e = .peek t none ∨ e = .tryUnlock t false) : Effect s (s.ret t e)
  | unlocks {t : Nat} {e : Event N T} (hpc : (s.pc t).owner = true)
      (hn : s.next s.head = .null) (he : e = .pop t none ∨ e = .tryUnlock t true) :
      Effect s ({ s with next := Function.update s.next s.head .unlocked }.ret t e)
  | passes {t u : Nat} (hp : s.pc t = .idle) (ho : t ∈ s.owners) : Effect s (s.ret t (.pass t u))

theorem Effect.inv (h : Effect s s') (hi : Inv s) : Inv s' := by
  cases h with
  | newNode hp hn => exact hi.newNode hp hn
  | goes hf hp ho hpo hv =>
      obtain ⟨hf', hp'⟩ := Pc.not_push_of_owner hpo
      exact hi.goto (hf.trans hf'.symm) (hp.trans hp'.symm) (fun _ => ho) hv
  | xchg hp => exact hi.xchg hp
  | publish hp => exact hi.publish hp
  | takes hpc hn => exact hi.advance hpc hn
  | peeks hpc hn => exact hi.keeps hpc rfl rfl
  | keeps hpc he => rcases he with rfl | rfl <;> exact hi.keeps hpc rfl rfl
  | unlocks hpc hn he => rcases he with rfl | rfl <;> exact hi.unlock hpc hn rfl rfl
  | passes hp ho => exact hi.pass hp ho

/-- The owner found the first item. -/
theorem found_effect {op : Op} {n : N} (hpc : (s.pc t).owner = true)
    (hn : s.next s.head = .node n) : Effect s (s.found t op (.node n)) := by
  cases op with
  | popOptional => exact .takes hpc hn
  | popDefault => exact .takes hpc hn
  | peek => exact .peeks hpc hn
  | tryUnlock => exact .keeps hpc (.inr rfl)

theorem stepThread_effect (hi : Inv s) (hs : stepThread s t = some s') : Effect s s' := by
  cases hp : s.pc t <;> simp only [stepThread, hp] at hs
  case idle => cases hs
  case crashed => cases hs
  case pushXchg n =>
    cases hs
    exact .xchg hp
  case publish a n =>
    cases hs
    exact .publish hp
  case load op =>
    have hpc : (s.pc t).owner = true := by rw [hp]; rfl
    have hown := hi.owner t hpc
    have hu := hi.next_head hpc
    split at hs
    · cases op with
      | peek =>
          cases hs
          exact .keeps hpc (.inl rfl)
      | _ =>
          cases hs
          exact .goes (by rw [hp]; rfl) (by rw [hp]; rfl) hown rfl rfl
    · cases hs
      cases hv : s.next s.head with
      | null => exact absurd hv (by assumption)
      | unlocked => exact absurd hv hu
      | node n => exact found_effect hpc hv
  case cas op =>
    have hpc : (s.pc t).owner = true := by rw [hp]; rfl
    split at hs
    · cases hs
      rename_i hv
      cases op with
      | peek =>
          have hval := hi.valid t
          rw [hp] at hval
          cases hval
      | tryUnlock => exact .unlocks hpc hv (.inr rfl)
      | _ => exact .unlocks hpc hv (.inl rfl)
    · cases hs
      exact found_effect hpc (by assumption)
    · exact absurd (by assumption) (hi.next_head hpc)

theorem step_effect {a : Act N T} (hi : Inv s) (hs : mailbox.step s a = some s') :
    Effect s s' := by
  cases a with
  | push u n v =>
      simp only [mailbox] at hs
      split at hs <;> cases hs
      rename_i hc
      exact .newNode hc.1 hc.2
  | call u op =>
      simp only [mailbox] at hs
      split at hs <;> cases hs
      rename_i hc
      exact .goes (by rw [hc.1]; rfl) (by rw [hc.1]; rfl) hc.2 rfl rfl
  | step u => exact stepThread_effect hi hs
  | pass u v =>
      simp only [mailbox] at hs
      split at hs <;> cases hs
      rename_i hc
      exact .passes hc.1 hc.2

theorem step_inv {a : Act N T} (hi : Inv s) (hs : mailbox.step s a = some s') : Inv s' :=
  (step_effect hi hs).inv hi

theorem start_inv {stub : N} {item : N → T} {owner : Option Nat} :
    Inv (State.start stub item owner) := by
  constructor
  case locked => cases owner <;> simp [State.start]
  case single => cases owner <;> simp [State.start]
  case link => cases owner <;> simp [State.start]
  all_goals simp [State.start, Pc.fresh, Pc.publishes, Pc.owner, Pc.valid]

theorem reachable_inv (h : (mailbox (N := N) (T := T)).Reachable s) : Inv s := by
  refine h.invariant ?_ fun _ _ _ hi _ hs => step_inv hi hs
  rintro s ⟨stub, item, owner, rfl⟩
  exact start_inv

end Steps

end Coroactors.ItemMailbox
