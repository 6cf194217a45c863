/-
  Coroactors.Queue.WaiterSteps

  The steps of `blocking_queue` keep the waiters in order.

  `prepend` and `append` put a whole list before or behind the pending list,
  and so always find its last record.  A list goes from `head_` to a pending
  list, from there to the head's `next` pointer with the rest behind it, from
  there into the hands of a `push`, and what is behind a notified waiter goes
  to that waiter's pending list.
-/

import Coroactors.Queue.Waiters

namespace Coroactors.Queue

open Coroactors.Conc

variable {N T : Type*} {s s' : State N T} {t u w : Nat} {pc pc' : Nat → Pc N T}

-- ============================================================================
-- Pending lists
-- ============================================================================

/-- The pending list of `t` becomes `l`, and only links of the records in `m`
    are written to. -/
structure Pended (s s' : State N T) (t : Nat) (l m : List Nat) : Prop where
  core : SameCore s s'
  sem : s'.sem = s.sem
  records : s'.records = s.records
  headList : s'.headList = s.headList
  nextList : s'.nextList = s.nextList
  hand : s'.hand = s.hand
  behind : s'.behind = s.behind
  pending : s'.pending = Function.update s.pending t l.head?
  pendingLast : s'.pendingLast = Function.update s.pendingLast t l.getLast?
  pendingList : s'.pendingList = Function.update s.pendingList t l
  wnext : ∀ u, u ∉ m → s'.wnext u = s.wnext u

theorem Pended.listAt {l m : List Nat} (h : Pended s s' t l m) :
    s'.listAt = Function.update s.listAt (.pending t) l := by
  funext a
  cases a with
  | pending u =>
      simp only [State.listAt, h.pendingList, Function.update_apply, Place.pending.injEq]
  | nowhere => rfl
  | head => exact h.headList
  | next => exact h.nextList
  | hand u => exact congrFun h.hand u
  | behind u => exact congrFun h.behind u

section Pending

variable {L : Place → List Nat} {stop : Place → Option Nat} {p : Place}

/-- `prepend` succeeds, and joins the list to the front of the pending list. -/
theorem prepend_lists (h : Lists s.wnext L stop) (hp : p ≠ .pending t)
    (hw : (L p).head? = some w) (hstop : stop p = none) (hlen : (L p).length ≤ s.records.length)
    (hP : L (.pending t) = s.pendingList t) (hstopP : stop (.pending t) = none)
    (hpend : s.pending t = (s.pendingList t).head?)
    (hlast : s.pendingList t ≠ [] → s.pendingLast t = (s.pendingList t).getLast?) :
    ∃ s', s.prepend t w (L p) = some s' ∧ Pended s s' t (L p ++ s.pendingList t) (L p) ∧
      Lists s'.wnext (Function.update (Function.update L p []) (.pending t)
        (L p ++ s.pendingList t)) stop := by
  obtain ⟨y, hy, hyl⟩ := h.lastOf_eq hw hstop hlen
  have hother (a : Place) (ha : a ≠ .pending t) :
      Function.update (Function.update L p []) (.pending t) (L p ++ s.pendingList t) a =
        if a = p ∨ a = .pending t then [] else L a := by
    rw [Function.update_of_ne ha, Function.update_apply]
    simp [ha]
  have hat : Function.update (Function.update L p []) (.pending t) (L p ++ s.pendingList t)
      (.pending t) = L p ++ L (.pending t) := by
    rw [Function.update_self, hP]
  have hfind : s.findLast w = some y := hy
  cases hq : s.pending t with
  | none =>
      have hnil : s.pendingList t = [] := List.head?_eq_none_iff.mp (hpend.symm.trans hq)
      have hs' : s.prepend t w (L p) = some { s.move (L p) (.pending t) with
          pendingLast := Function.update s.pendingLast t (some y)
          pending := Function.update s.pending t (some w)
          pendingList := Function.update s.pendingList t (L p ++ s.pendingList t) } := by
        simp only [State.prepend, hfind, Option.map_some, State.move, hq]
      refine ⟨_, hs', ?_, ?_⟩
      · refine ⟨sameCore_prepend hs', rfl, rfl, rfl, rfl, rfl, rfl, ?_, ?_, rfl, fun _ _ => rfl⟩
        · rw [hnil, List.append_nil, hw]
        · rw [hnil, List.append_nil, hyl]
      · have hj := h.join hp (fun _ => by rw [hstop, hP, hnil, hstopP]; rfl) (.inr rfl) hat hother
        rwa [Function.update_eq_self] at hj
  | some q =>
      have hne : s.pendingList t ≠ [] := by
        intro he
        rw [hpend, he] at hq
        cases hq
      have hs' : s.prepend t w (L p) = some { s.move (L p) (.pending t) with
          wnext := Function.update s.wnext y (some q)
          pending := Function.update s.pending t (some w)
          pendingList := Function.update s.pendingList t (L p ++ s.pendingList t) } := by
        simp only [State.prepend, hfind, Option.map_some, State.move, hq]
      refine ⟨_, hs', ?_, ?_⟩
      · refine ⟨sameCore_prepend hs', rfl, rfl, rfl, rfl, rfl, rfl, ?_, ?_, rfl, fun u hu => ?_⟩
        · rw [List.head?_append, hw]
          rfl
        · rw [List.getLast?_append_of_ne_nil _ hne, ← hlast hne, Function.update_eq_self]
          rfl
        · refine Function.update_of_ne ?_ ..
          rintro rfl
          exact hu (List.mem_of_getLast? hyl)
      · have hj := (h.setLast (v := some q) hyl).join hp (fun _ => by
            rw [Function.update_self, hP, ← hpend, hq]
            rfl) (.inr rfl) hat hother
        refine hj.congr (fun _ => rfl) fun a ha => ?_
        rcases eq_or_ne a p with rfl | hap
        · rw [hother a hp, if_pos (.inl rfl)] at ha
          exact absurd rfl ha
        · rw [Function.update_of_ne hp.symm, Function.update_apply]
          split
          · next he => rw [he]
          · rw [Function.update_of_ne hap]

/-- `append` succeeds, and joins the list to the end of the pending list. -/
theorem append_lists (h : Lists s.wnext L stop) (hp : p ≠ .pending t)
    (hw : (L p).head? = some w) (hstop : stop p = none) (hlen : (L p).length ≤ s.records.length)
    (hP : L (.pending t) = s.pendingList t) (hstopP : stop (.pending t) = none)
    (hpend : s.pending t = (s.pendingList t).head?)
    (hlast : s.pendingList t ≠ [] → s.pendingLast t = (s.pendingList t).getLast?) :
    ∃ s', s.append t w (L p) = some s' ∧
      Pended s s' t (s.pendingList t ++ L p) (s.pendingList t) ∧
      Lists s'.wnext (Function.update (Function.update L p []) (.pending t)
        (s.pendingList t ++ L p)) stop := by
  obtain ⟨y, hy, hyl⟩ := h.lastOf_eq hw hstop hlen
  have hnep : L p ≠ [] := by
    intro he
    rw [he] at hw
    cases hw
  have hother (a : Place) (ha : a ≠ .pending t) :
      Function.update (Function.update L p []) (.pending t) (s.pendingList t ++ L p) a =
        if a = .pending t ∨ a = p then [] else L a := by
    rw [Function.update_of_ne ha, Function.update_apply]
    simp [ha]
  have hat : Function.update (Function.update L p []) (.pending t) (s.pendingList t ++ L p)
      (.pending t) = L (.pending t) ++ L p := by
    rw [Function.update_self, hP]
  have hstop' : Function.update stop (.pending t) (stop p) = stop := by
    rw [hstop, ← hstopP, Function.update_eq_self]
  have hfind : s.findLast w = some y := hy
  cases hq : s.pending t with
  | none =>
      have hnil : s.pendingList t = [] := List.head?_eq_none_iff.mp (hpend.symm.trans hq)
      have hs' : s.append t w (L p) = some { s.move (L p) (.pending t) with
          pending := Function.update s.pending t (some w)
          pendingLast := Function.update s.pendingLast t (some y)
          pendingList := Function.update s.pendingList t (s.pendingList t ++ L p) } := by
        simp only [State.append, hfind, Option.map_some, State.move, hq]
      refine ⟨_, hs', ?_, ?_⟩
      · refine ⟨sameCore_append hs', rfl, rfl, rfl, rfl, rfl, rfl, ?_, ?_, rfl, fun _ _ => rfl⟩
        · rw [hnil, List.nil_append, hw]
        · rw [hnil, List.nil_append, hyl]
      · have hj := h.join hp.symm (fun hne => absurd (hP.trans hnil) hne) (.inl rfl) hat hother
        rwa [hstop'] at hj
  | some q =>
      have hne : s.pendingList t ≠ [] := by
        intro he
        rw [hpend, he] at hq
        cases hq
      obtain ⟨z, hz⟩ := List.getLast?_isSome.mpr hne |> Option.isSome_iff_exists.mp
      have hhead : (s.pendingList t ++ L p).head? = s.pending t := by
        rw [List.head?_append, ← hpend, hq]
        rfl
      have hs' : s.append t w (L p) = some { s.move (L p) (.pending t) with
          wnext := Function.update s.wnext z (some w)
          pendingLast := Function.update s.pendingLast t (some y)
          pendingList := Function.update s.pendingList t (s.pendingList t ++ L p) } := by
        simp only [State.append, hfind, Option.map_some, State.move, hq, State.linkPending,
          hlast hne, hz]
      refine ⟨_, hs', ?_, ?_⟩
      · refine ⟨sameCore_append hs', rfl, rfl, rfl, rfl, rfl, rfl, ?_, ?_, rfl, fun u hu => ?_⟩
        · rw [hhead, Function.update_eq_self]
          rfl
        · rw [List.getLast?_append_of_ne_nil _ hnep, hyl]
        · refine Function.update_of_ne ?_ ..
          rintro rfl
          exact hu (List.mem_of_getLast? hz)
      · have hzl : (L (.pending t)).getLast? = some z := by rw [hP, hz]
        have hj := (h.setLast (v := some w) hzl).join hp.symm (fun _ => by
            rw [Function.update_self, hw]
            rfl) (.inl rfl) hat hother
        rw [Function.update_of_ne hp, Function.update_idem, hstop'] at hj
        exact hj

end Pending

-- ============================================================================
-- From place to place
-- ============================================================================

/-- The links of the records are as they are between two operations on lists. -/
def Pc.quiet : Pc N T → Bool
  | .pushNotify _ | .waitHead | .waitItem | .unlockWaiting _ | .popCas ..
  | .noItemInstall _ (.waiter _) | .takenInstall _ (.waiter _) => false
  | _ => true

theorem Pc.quiet_spec {p : Pc N T} (h : p.quiet = true) :
    p.waits = false ∧ p.tail = none ∧ p.notifies = none ∧ ∀ l, p.own l = none := by
  cases p
  case noItemInstall h v | takenInstall j v =>
      cases v <;> first | exact ⟨rfl, rfl, rfl, fun _ => rfl⟩ | cases h
  all_goals first | exact ⟨rfl, rfl, rfl, fun _ => rfl⟩ | cases h

theorem tails_update {p : Pc N T} :
    tails (Function.update pc t p) = Function.update (tails pc) (.pending t) p.tail := by
  funext a
  cases a with
  | pending u =>
      simp only [tails, Function.update_apply, Place.pending.injEq]
      split <;> rfl
  | nowhere | head | next | hand u | behind u => rfl

/-- The states differ only in what the nodes do. -/
structure SameWaits (s s' : State N T) : Prop where
  wnext : s'.wnext = s.wnext
  sem : s'.sem = s.sem
  records : s.records ⊆ s'.records
  pending : s'.pending = s.pending
  pendingLast : s'.pendingLast = s.pendingLast
  headList : s'.headList = s.headList
  nextList : s'.nextList = s.nextList
  hand : s'.hand = s.hand
  pendingList : s'.pendingList = s.pendingList
  behind : s'.behind = s.behind

theorem SameWaits.listAt (h : SameWaits s s') : s'.listAt = s.listAt := by
  funext a
  cases a with
  | nowhere => rfl
  | head => exact h.headList
  | next => exact h.nextList
  | hand u => exact congrFun h.hand u
  | pending u => exact congrFun h.pendingList u
  | behind u => exact congrFun h.behind u

theorem WaitInv.congr (hi : WaitInv s pc) (h : SameWaits s s')
    (hhead : s'.head.decodeWaiter = s.head.decodeWaiter)
    (hnext : ∀ n, s'.chain.head? = some n → (s'.next n).decodeWaiter = s.nextList.head?) :
    WaitInv s' pc := by
  have hL := h.listAt
  have hlisted (w : Nat) : s'.Listed w ↔ s.Listed w := by rw [State.Listed, State.Listed, hL]
  refine ⟨?_, ?_, ?_, fun u => ?_, fun w => ?_, fun w hw => ?_, fun u n hu hs => ?_⟩
  · rw [hL, h.wnext]
    exact hi.lists
  · rw [hhead, h.headList]
    exact hi.head
  · rw [h.nextList]
    exact hnext
  · obtain ⟨h1, h2, h3, h4, h5, h6, h7, h8⟩ := hi.thread u
    constructor <;>
      simp only [h.wnext, h.sem, h.pending, h.pendingLast, h.hand, h.pendingList, h.behind] <;>
      assumption
  · rw [hlisted, h.sem]
    exact hi.listed w
  · exact h.records (hi.records w ((hlisted w).mp hw))
  · rw [h.sem] at hs
    rw [State.Front, h.nextList, h.hand]
    exact hi.front u n hu hs

/-- The same, with the nodes at the head as they were. -/
theorem WaitInv.same (hi : WaitInv s pc) (h : SameWaits s s')
    (hhead : s'.head.decodeWaiter = s.head.decodeWaiter) (hchain : s'.chain = s.chain)
    (hnext : s'.next = s.next) : WaitInv s' pc := by
  refine hi.congr h hhead fun n hn => ?_
  rw [hchain] at hn
  rw [hnext]
  exact hi.next n hn

theorem WaitInv.assert (hi : WaitInv s pc) {b : Bool} : WaitInv (s.assert b) pc :=
  hi.same ⟨rfl, rfl, fun _ h => h, rfl, rfl, rfl, rfl, rfl, rfl, rfl⟩ rfl rfl rfl

/-- The head is locked or unlocked where no thread waits for it. -/
theorem WaitInv.setHead (hi : WaitInv s pc) {v : Link N} {o : Option Nat}
    (hh : s.head.decodeWaiter = none) (hv : v.decodeWaiter = none) :
    WaitInv { s with head := v, holder := o } pc :=
  hi.same ⟨rfl, rfl, fun _ h => h, rfl, rfl, rfl, rfl, rfl, rfl, rfl⟩ (hv.trans hh.symm) rfl rfl

/-- A thread goes to another place between two operations on lists. -/
theorem WaitInv.goto (hi : WaitInv s pc) {p : Pc N T} (hq : (pc t).quiet = true)
    (hp : p.quiet = true) (hholds : p.holds = true → (pc t).holds = true)
    (hclean : p.clean = true → s.pendingList t = [])
    (hfull : p.full = true → s.pendingList t ≠ []) : WaitInv s (Function.update pc t p) := by
  obtain ⟨hqw, hqt, hqn, hqo⟩ := Pc.quiet_spec hq
  obtain ⟨hpw, hpt, hpn, hpo⟩ := Pc.quiet_spec hp
  have hth := hi.thread t
  refine hi.step (Others.refl s t) (fun u hu => Function.update_of_ne hu ..) ?_ hi.head hi.next ?_
    (fun _ _ => .rfl) ?_ (fun _ h => h) (hi.records t) ?_
  · refine hi.lists.congr (fun _ => rfl) fun a _ => ?_
    rw [tails_update, hpt]
    rcases eq_or_ne a (.pending t) with rfl | ha
    · rw [Function.update_self]
      exact hqt.symm
    · rw [Function.update_of_ne ha]
  · rw [Function.update_self]
    refine ⟨hclean, hfull, fun h => hth.pending (hholds h), fun h => hth.last (hholds h), ?_,
      hth.unnotified, fun h => ?_, fun _ => ?_⟩
    · rw [hpn, ← hqn]
      exact hth.hand
    · rw [(hth.notified h).2.1] at hqw
      cases hqw
    · rw [hpo, hth.own hqw, hqo]
  · rw [hi.listed, hqw, Function.update_self, hpw]
  · intro u h hu hs hfront
    rcases eq_or_ne u t with rfl | hne
    · rw [Function.update_self] at hu
      rw [hu] at hpw
      cases hpw
    · exact hfront hne

theorem goto_pc {p : Pc N T} : (s.goto t p).pc = Function.update s.pc t p := rfl

/-- The thread is in the middle of a step. -/
abbrev Open (s : State N T) (t : Nat) : Prop := WaitInv s (Function.update s.pc t .popLoad)

/-- A step of the thread begins. -/
theorem WaitInv.open (hi : WaitInv s s.pc) (hq : (s.pc t).quiet = true)
    (hholds : (s.pc t).holds = true) : Open s t :=
  hi.goto hq rfl (fun _ => hholds) (fun h => nomatch h) (fun h => nomatch h)

/-- A step of the thread ends. -/
theorem Open.goto (hi : Open s t) {p : Pc N T} (hp : p.quiet = true)
    (hclean : p.clean = true → s.pendingList t = [])
    (hfull : p.full = true → s.pendingList t ≠ []) : WaitInv (s.goto t p) (s.goto t p).pc := by
  have hg := WaitInv.goto (t := t) hi (p := p) (by rw [Function.update_self]; rfl) hp
    (fun _ => by rw [Function.update_self]; rfl) hclean hfull
  rw [Function.update_idem] at hg
  exact hg.same ⟨rfl, rfl, fun _ h => h, rfl, rfl, rfl, rfl, rfl, rfl, rfl⟩ rfl rfl rfl

-- ============================================================================
-- Links of the own record and of the last pending one
-- ============================================================================

/-- A thread that does not wait writes to its own record. -/
theorem WaitInv.setOwn (hi : WaitInv s pc) {p q : Pc N T} {v : Option Nat} (hq : pc t = q)
    (hw : q.waits = false) (hpw : p.waits = false) (hpc : p.clean = false)
    (hpf : p.full = false) (hholds : q.holds = true) (hn : p.notifies = q.notifies)
    (hown : p.own (s.pendingList t) = v) (htail : s.pendingList t ≠ [] → p.tail = q.tail) :
    WaitInv { s with wnext := Function.update s.wnext t v } (Function.update pc t p) := by
  subst hq
  have hth := hi.thread t
  have hself : s.Listed t ↔ (Function.update pc t p t).waits = true ∧ s.sem t = 0 := by
    rw [hi.listed, hw, Function.update_self, hpw]
  refine hi.step ?_ (fun u hu => Function.update_of_ne hu ..) ?_ hi.head hi.next ?_
    (fun _ _ => .rfl) hself (fun _ h => h) (hi.records t) ?_
  · exact { Others.refl s t with wnext := fun u hu => .inl (Function.update_of_ne hu ..) }
  · refine (hi.lists.update (hi.not_listed hw)).congr (fun _ => rfl) fun a ha => ?_
    rw [tails_update]
    rcases eq_or_ne a (.pending t) with rfl | hne
    · rw [Function.update_self]
      exact htail ha
    · rw [Function.update_of_ne hne]
  · rw [Function.update_self]
    refine ⟨fun h => ?_, fun h => ?_, fun _ => hth.pending hholds, fun _ => hth.last hholds, ?_,
      hth.unnotified, fun h => ?_, fun _ => ?_⟩
    · rw [hpc] at h
      cases h
    · rw [hpf] at h
      cases h
    · rw [hn]
      exact hth.hand
    · rw [(hth.notified h).2.1] at hw
      cases hw
    · rw [hown]
      exact Function.update_self ..
  · intro u h hu hs hfront
    rcases eq_or_ne u t with rfl | hne
    · rw [Function.update_self] at hu
      rw [hu] at hpw
      cases hpw
    · exact hfront hne

/-- `pendingLast` is the last pending waiter. -/
theorem WaitInv.linkPending_eq (hi : WaitInv s pc) {v : Option Nat} (hholds : (pc t).holds = true)
    (hne : s.pendingList t ≠ []) : ∃ x, (s.pendingList t).getLast? = some x ∧
      s.linkPending t v = { s with wnext := Function.update s.wnext x v } := by
  obtain ⟨x, hx⟩ := Option.isSome_iff_exists.mp (List.getLast?_isSome.mpr hne)
  refine ⟨x, hx, ?_⟩
  rw [State.linkPending, (hi.thread t).last hholds hne, hx]

/-- A thread links its pending waiters to another list, or removes that link. -/
theorem WaitInv.link (hi : WaitInv s pc) {p q : Pc N T} (hq : pc t = q)
    (hne : s.pendingList t ≠ []) (hw : q.waits = false) (hpw : p.waits = false)
    (hpc : p.clean = false) (hholds : q.holds = true) (hn : p.notifies = q.notifies)
    (hown : p.own (s.pendingList t) = q.own (s.pendingList t)) :
    WaitInv (s.linkPending t p.tail) (Function.update pc t p) := by
  subst hq
  obtain ⟨x, hx, hlink⟩ := hi.linkPending_eq (v := p.tail) hholds hne
  have hth := hi.thread t
  have hmem : x ∈ s.listAt (.pending t) := List.mem_of_getLast? hx
  have hxt : t ≠ x := by
    rintro rfl
    exact hi.not_listed hw _ hmem
  have hself : s.Listed t ↔ (Function.update pc t p t).waits = true ∧ s.sem t = 0 := by
    rw [hi.listed, hw, Function.update_self, hpw]
  rw [hlink]
  refine hi.step ?_ (fun u hu => Function.update_of_ne hu ..) ?_ hi.head hi.next ?_
    (fun _ _ => .rfl) hself (fun _ h => h) (hi.records t) ?_
  · refine { Others.refl s t with wnext := fun u _ => ?_ }
    rcases eq_or_ne u x with rfl | hux
    · exact .inr ⟨_, hmem⟩
    · exact .inl (Function.update_of_ne hux ..)
  · have hlast : (s.listAt (.pending t)).getLast? = some x := hx
    rw [tails_update]
    exact hi.lists.setLast hlast
  · rw [Function.update_self]
    refine ⟨fun h => ?_, fun _ => hne, fun _ => hth.pending hholds, fun _ => hth.last hholds, ?_,
      hth.unnotified, fun h => ?_, fun _ => ?_⟩
    · rw [hpc] at h
      cases h
    · rw [hn]
      exact hth.hand
    · rw [(hth.notified h).2.1] at hw
      cases hw
    · rw [hown, ← hth.own hw]
      exact Function.update_of_ne hxt ..
  · intro u h hu hs hfront
    rcases eq_or_ne u t with rfl | hne'
    · rw [Function.update_self] at hu
      rw [hu] at hpw
      cases hpw
    · exact hfront hne'

-- ============================================================================
-- A list becomes pending
-- ============================================================================

/-- The list at `p` and the pending list of `t` are now both pending at `t`. -/
theorem WaitInv.collect {p : Place} {l : List Nat} (hi : WaitInv s pc) (ho : Others s s' t)
    (hpc : ∀ u, u ≠ t → pc' u = pc u)
    (hl : ∀ x, x ∈ l ↔ x ∈ s.listAt p ∨ x ∈ s.pendingList t)
    (hL : s'.listAt = Function.update (Function.update s.listAt p []) (.pending t) l)
    (hlists : Lists s'.wnext s'.listAt (tails pc'))
    (hhead : s'.head.decodeWaiter = s'.headList.head?)
    (hnext : ∀ h, s'.chain.head? = some h → (s'.next h).decodeWaiter = s'.nextList.head?)
    (ht : ThreadInv s' t (pc' t)) (hself : s.Listed t ↔ (pc' t).waits = true ∧ s'.sem t = 0)
    (hsub : s.records ⊆ s'.records) (hnextList : s'.nextList = s.nextList)
    (hhand : s'.hand = s.hand) (hun : ∀ h, pc' t ≠ .unlockWaiting h) : WaitInv s' pc' := by
  have hlisted (x : Nat) : s'.Listed x ↔ s.Listed x := by
    rw [State.Listed, hL]
    constructor
    · rintro ⟨a, ha⟩
      simp only [Function.update_apply] at ha
      split at ha
      · exact ((hl x).mp ha).elim (⟨p, ·⟩) (⟨.pending t, ·⟩)
      · split at ha
        · cases ha
        · exact ⟨a, ha⟩
    · rintro ⟨a, ha⟩
      by_cases hat : a = .pending t
      · subst hat
        refine ⟨.pending t, ?_⟩
        rw [Function.update_self, hl]
        exact .inr ha
      · by_cases hap : a = p
        · subst hap
          refine ⟨.pending t, ?_⟩
          rw [Function.update_self, hl]
          exact .inl ha
        · refine ⟨a, ?_⟩
          rwa [Function.update_of_ne hat, Function.update_of_ne hap]
  refine hi.step ho hpc hlists hhead hnext ht (fun x _ => hlisted x) ((hlisted t).trans hself) hsub
    (fun hx => hsub (hi.records t ((hlisted t).mp hx))) ?_
  intro u h hu hs hfront
  rw [State.Front, hnextList, hhand]
  exact hfront fun he => hun h (he ▸ hu)

/-- The variables of a thread that has a new pending list. -/
theorem Pended.thread {l m : List Nat} {p : Pc N T} (h : Pended s s' t l m) (hl : l ≠ [])
    (hclean : p.clean = false) (hhand : p.notifies = (s.hand t).head?)
    (hbehind : s.sem t = 0 → s.behind t = [])
    (hnotified : s.sem t ≠ 0 → s.sem t = 1 ∧ p.waits = true ∧ s'.wnext t = (s.behind t).head?)
    (hown : p.waits = false → s'.wnext t = p.own l) : ThreadInv s' t p := by
  have hP : s'.pendingList t = l := by rw [h.pendingList, Function.update_self]
  refine ⟨fun hc => ?_, fun _ => ?_, fun _ => ?_, fun _ _ => ?_, ?_, ?_, ?_, ?_⟩
  · rw [hclean] at hc
    cases hc
  · rwa [hP]
  · rw [hP, h.pending, Function.update_self]
  · rw [hP, h.pendingLast, Function.update_self]
  · rwa [h.hand]
  · rwa [h.sem, h.behind]
  · rwa [h.sem, h.behind]
  · rwa [hP]

/-- An exchange on `head_` that finds waiters. -/
theorem Open.grab (hi : Open s t) (hh : s.head = .waiter w) :
    ∃ s', { s with head := .null }.grab t w = some s' ∧ Open s' t ∧ s'.pendingList t ≠ [] := by
  have hth := hi.thread t
  rw [Function.update_self] at hth
  have hnot := hi.not_listed (t := t) (by rw [Function.update_self]; rfl)
  have hhead : s.headList.head? = some w := by rw [← hi.head, hh, Link.decodeWaiter]
  have hne : s.headList ++ s.pendingList t ≠ [] := by
    intro he
    rw [(List.append_eq_nil_iff.mp he).1] at hhead
    cases hhead
  obtain ⟨s', hs', hp, hlists⟩ := prepend_lists (s := { s with head := .null, headList := [] })
    (t := t) (p := .head) hi.lists (by simp) hhead rfl (hi.length_le .head) rfl
    (by rw [tails, Function.update_self]; rfl) (hth.pending rfl) (hth.last rfl)
  have hempty : State.listAt { s with head := .null, headList := [] } =
      Function.update s.listAt .head [] := by
    funext a
    cases a <;> simp [State.listAt]
  have hL : s'.listAt = Function.update (Function.update s.listAt .head []) (.pending t)
      (s.headList ++ s.pendingList t) := by
    rw [hp.listAt, hempty]
    rfl
  refine ⟨s', hs', ?_, ?_⟩
  · refine WaitInv.collect (p := .head) (l := s.headList ++ s.pendingList t) hi
      ⟨fun u hu => ?_, fun u _ => congrFun hp.hand u, fun u _ => congrFun hp.behind u,
        fun u hu => ?_, fun u hu => ?_, fun u _ => congrFun hp.sem u, fun u _ => ?_⟩
      (fun u hu => ?_) (fun x => List.mem_append) hL ?_ ?_ ?_ ?_ ?_ ?_ hp.nextList hp.hand ?_
    · rw [hp.pendingList, Function.update_of_ne hu]
    · rw [hp.pending, Function.update_of_ne hu]
    · rw [hp.pendingLast, Function.update_of_ne hu]
    · by_cases hm : u ∈ s.headList
      · exact .inr ⟨.head, hm⟩
      · exact .inl (hp.wnext u hm)
    · rw [hp.core.pc]
    · rw [hL, hp.core.pc]
      exact hlists
    · rw [hp.core.head, hp.headList]
      rfl
    · rw [hp.core.chain, hp.core.next, hp.nextList]
      exact hi.next
    · rw [Function.update_self]
      exact hp.thread hne rfl hth.hand hth.unnotified (fun h => (nomatch (hth.notified h).2.1))
        fun _ => (hp.wnext t (hnot .head)).trans (hth.own rfl)
    · rw [hi.listed, hp.sem, Function.update_self, Function.update_self]
    · rw [hp.records]
      exact fun _ h => h
    · intro h he
      rw [Function.update_self] at he
      cases he
  · rw [hp.pendingList, Function.update_self]
    exact hne

-- ============================================================================
-- `wait()` returns
-- ============================================================================

/-- A thread that was notified takes the notification. -/
def State.takeSem (s : State N T) (t : Nat) : State N T :=
  { s with
    sem := Function.update s.sem t (s.sem t - 1)
    behind := Function.update s.behind t [] }

theorem takeSem_listAt : (s.takeSem t).listAt = Function.update s.listAt (.behind t) [] := by
  funext a
  cases a with
  | behind u =>
      simp only [State.listAt, State.takeSem, Function.update_apply, Place.behind.injEq]
  | nowhere | head | next | hand u | pending u => rfl

/-- A thread whose record is in no list wakes up. -/
theorem WaitInv.wake (hi : WaitInv s s.pc) (hw : (s.pc t).waits = true)
    (hholds : (s.pc t).holds = true) (hsem : 0 < s.sem t) (hlink : s.wnext t = none) :
    WaitInv ((s.takeSem t).goto t .popLoad) ((s.takeSem t).goto t .popLoad).pc := by
  have hth := hi.thread t
  obtain ⟨hone, -, hbehind⟩ := hth.notified (Nat.ne_of_gt hsem)
  have hnil : s.behind t = [] := List.head?_eq_none_iff.mp (hbehind.symm.trans hlink)
  have hnot : ¬ s.Listed t := by
    rw [hi.listed, hone]
    exact fun h => absurd h.2 Nat.one_ne_zero
  have hzero : (s.takeSem t).sem t = 0 := by
    simp only [State.takeSem, Function.update_self, hone]
  have hL : (s.takeSem t).listAt = s.listAt := by
    rw [takeSem_listAt, ← hnil]
    exact Function.update_eq_self (.behind t) s.listAt
  have hlisted (x : Nat) : ((s.takeSem t).goto t .popLoad).Listed x ↔ s.Listed x := by
    rw [State.Listed, show ((s.takeSem t).goto t .popLoad).listAt = s.listAt from hL]
    rfl
  refine hi.step (t := t) ?_ (fun u hu => Function.update_of_ne hu ..) ?_ hi.head hi.next ?_
    (fun x _ => hlisted x) ?_ (fun _ h => h) (fun h => hi.records t ((hlisted t).mp h)) ?_
  · exact ⟨fun _ _ => rfl, fun _ _ => rfl, fun u hu => Function.update_of_ne hu ..,
      fun _ _ => rfl, fun _ _ => rfl, fun u hu => Function.update_of_ne hu .., fun _ _ => .inl rfl⟩
  · refine hi.lists.congr (fun a => congrFun hL a) fun a _ => ?_
    rw [show ((s.takeSem t).goto t .popLoad).pc = Function.update s.pc t .popLoad from rfl,
      tails_update]
    rcases eq_or_ne a (.pending t) with rfl | ha
    · rw [Function.update_self]
      exact (Pc.waits_spec hw).1.symm
    · rw [Function.update_of_ne ha]
  · rw [show ((s.takeSem t).goto t .popLoad).pc t = .popLoad from Function.update_self ..]
    refine ⟨by rintro ⟨⟩, by rintro ⟨⟩, fun _ => hth.pending hholds, fun _ => hth.last hholds,
      ?_, fun _ => Function.update_self .., fun h => absurd hzero h, fun _ => hlink⟩
    exact (Pc.waits_spec hw).2.symm.trans hth.hand
  · rw [hlisted, show ((s.takeSem t).goto t .popLoad).pc t = .popLoad from Function.update_self ..]
    exact ⟨fun h => absurd h hnot, fun h => nomatch h.1⟩
  · intro u h hu hs hfront
    refine hfront ?_
    rintro rfl
    rw [show ((s.takeSem u).goto u .popLoad).pc u = .popLoad from Function.update_self ..] at hu
    cases hu

/-- A thread wakes up and makes the waiters behind it pending. -/
theorem WaitInv.wakeBehind {l m : List Nat} (hi : WaitInv s s.pc) (hw : (s.pc t).waits = true)
    (hsem : 0 < s.sem t) (hp : Pended (s.takeSem t) s' t l m)
    (hl : ∀ x, x ∈ l ↔ x ∈ s.behind t ∨ x ∈ s.pendingList t) (hm : ∀ x ∈ m, s.Listed x)
    (hlists : Lists s'.wnext
      (Function.update (Function.update s.listAt (.behind t) []) (.pending t) l)
      (tails s.pc)) :
    WaitInv ({ s' with wnext := Function.update s'.wnext t none }.goto t .popLoad)
      (Function.update s.pc t .popLoad) := by
  have hth := hi.thread t
  obtain ⟨hone, -, hbehind⟩ := hth.notified (Nat.ne_of_gt hsem)
  have hnot : ¬ s.Listed t := by
    rw [hi.listed, hone]
    exact fun h => absurd h.2 Nat.one_ne_zero
  have hL : s'.listAt =
      Function.update (Function.update s.listAt (.behind t) []) (.pending t) l := by
    rw [hp.listAt, takeSem_listAt]
  have hout : ∀ a, t ∉ s'.listAt a := by
    intro a ha
    rw [hL, Function.update_apply] at ha
    split at ha
    · exact hnot (((hl t).mp ha).elim (⟨.behind t, ·⟩) (⟨.pending t, ·⟩))
    · rw [Function.update_apply] at ha
      split at ha
      · cases ha
      · exact hnot ⟨a, ha⟩
  refine WaitInv.collect (p := .behind t) (l := l) hi
    ⟨fun u hu => ?_, fun u _ => congrFun hp.hand u, fun u hu => ?_, fun u hu => ?_,
      fun u hu => ?_, fun u hu => ?_, fun u hu => ?_⟩
    (fun u hu => Function.update_of_ne hu ..) hl hL ?_ ?_ ?_ ?_ ?_ ?_ hp.nextList hp.hand ?_
  · exact (congrFun hp.pendingList u).trans (Function.update_of_ne hu ..)
  · exact (congrFun hp.behind u).trans (Function.update_of_ne hu ..)
  · exact (congrFun hp.pending u).trans (Function.update_of_ne hu ..)
  · exact (congrFun hp.pendingLast u).trans (Function.update_of_ne hu ..)
  · exact (congrFun hp.sem u).trans (Function.update_of_ne hu ..)
  · by_cases hum : u ∈ m
    · exact .inr (hm u hum)
    · exact .inl ((Function.update_of_ne hu ..).trans (hp.wnext u hum))
  · rw [← hL] at hlists
    refine (hlists.update hout).congr (fun _ => rfl) fun a _ => ?_
    rw [tails_update]
    rcases eq_or_ne a (.pending t) with rfl | ha
    · rw [Function.update_self]
      exact (Pc.waits_spec hw).1.symm
    · rw [Function.update_of_ne ha]
  · exact (congrArg Link.decodeWaiter hp.core.head).trans
      (hi.head.trans (congrArg List.head? hp.headList).symm)
  · intro h hh
    have hh' : s.chain.head? = some h := (congrArg List.head? hp.core.chain).symm.trans hh
    exact (congrArg (fun f => (f h).decodeWaiter) hp.core.next).trans
      ((hi.next h hh').trans (congrArg List.head? hp.nextList).symm)
  · rw [Function.update_self]
    have hzero : (s.takeSem t).sem t = 0 := by
      simp only [State.takeSem, Function.update_self, hone]
    have hP : s'.pendingList t = l := by rw [hp.pendingList, Function.update_self]
    refine ⟨by rintro ⟨⟩, by rintro ⟨⟩, fun _ => ?_, fun _ _ => ?_, ?_, fun _ => ?_,
      fun h => absurd ((congrFun hp.sem t).trans hzero) h, fun _ => Function.update_self ..⟩
    · exact (congrFun hp.pending t).trans ((Function.update_self ..).trans (hP ▸ rfl))
    · exact (congrFun hp.pendingLast t).trans ((Function.update_self ..).trans (hP ▸ rfl))
    · exact (Pc.waits_spec hw).2.symm.trans
        (hth.hand.trans (congrArg (fun f => (f t).head?) hp.hand).symm)
    · exact (congrFun hp.behind t).trans (Function.update_self ..)
  · rw [Function.update_self]
    exact ⟨fun h => absurd h hnot, fun h => nomatch h.1⟩
  · exact fun _ h => hp.records ▸ h
  · intro h he
    rw [Function.update_self] at he
    cases he

-- ============================================================================
-- With the lock
-- ============================================================================

/-- The plain accesses of a step are followed by going to the next place. -/
theorem WaitInv.landed {p : Pc N T} (hi : WaitInv s' (Function.update s.pc t p))
    (hpc : s'.pc = s.pc) : WaitInv (s'.goto t p) (s'.goto t p).pc := by
  have hg : (s'.goto t p).pc = Function.update s.pc t p := by rw [State.goto, hpc]
  rw [hg]
  exact hi.same ⟨rfl, rfl, fun _ h => h, rfl, rfl, rfl, rfl, rfl, rfl, rfl⟩ rfl rfl rfl

/-- The same, before the thread goes on. -/
theorem WaitInv.opened (hi : WaitInv s' (Function.update s.pc t .popLoad)) (hpc : s'.pc = s.pc) :
    Open s' t := by
  rw [Open, hpc]
  exact hi

theorem Pc.own_popCas {h : N} {v : Link N} {l : List Nat} (hl : l ≠ []) :
    (Pc.popCas h v : Pc N T).own l = l.head? := by
  rw [Pc.own, List.head?_eq_some_head hl]
  rfl

theorem Open.thread (hi : Open s t) : ThreadInv s t .popLoad := by
  have hth := WaitInv.thread hi t
  rwa [Function.update_self] at hth

theorem Open.nil_of_pending (hi : Open s t) (h : s.pending t = none) : s.pendingList t = [] :=
  List.head?_eq_none_iff.mp ((hi.thread.pending rfl).symm.trans h)

theorem Open.ne_nil_of_pending (hi : Open s t) {w : Nat} (h : s.pending t = some w) :
    s.pendingList t ≠ [] := by
  intro he
  rw [hi.thread.pending rfl, he] at h
  cases h

/-- The thread writes to its own record. -/
theorem Open.setOwn (hi : Open s t) {p : Pc N T} {v : Option Nat} (hpw : p.waits = false)
    (hpc : p.clean = false) (hpf : p.full = false) (hn : p.notifies = none)
    (hown : p.own (s.pendingList t) = v) (htail : s.pendingList t ≠ [] → p.tail = none) :
    WaitInv { s with wnext := Function.update s.wnext t v } (Function.update s.pc t p) := by
  have h := WaitInv.setOwn hi (Function.update_self ..) rfl hpw hpc hpf rfl hn hown htail
  rwa [Function.update_idem] at h

/-- The thread links its pending waiters. -/
theorem Open.link (hi : Open s t) {p : Pc N T} (hne : s.pendingList t ≠ [])
    (hpw : p.waits = false) (hpc : p.clean = false) (hn : p.notifies = none)
    (hown : p.own (s.pendingList t) = none) :
    WaitInv (s.linkPending t p.tail) (Function.update s.pc t p) := by
  have h := WaitInv.link hi (Function.update_self ..) hne rfl hpw hpc rfl hn hown
  rwa [Function.update_idem] at h

/-- There are no waiters at the next head. -/
theorem WaitInv.next_tail (hi : WaitInv s pc) (hc : CoreInv s) {h n : N}
    (hh : s.chain.head? = some h) (hn : s.next h = .node n) (m : N)
    (hm : s.chain.tail.head? = some m) : (s.next m).decodeWaiter = s.nextList.head? := by
  have hnone := hi.next h hh
  rw [hn, Link.decodeWaiter] at hnone
  rw [← hnone]
  have hnot := hc.waiter m (List.mem_of_mem_head? hm)
  cases hv : s.next m with
  | waiter w => exact absurd hv (hnot w)
  | null | node n => rfl

theorem Open.take (hi : Open s t) {h n : N}
    (hn : ∀ m, s.chain.tail.head? = some m → (s.next m).decodeWaiter = s.nextList.head?) :
    WaitInv (s.take t h n) (s.take t h n).pc := by
  have hi' : Open { s with chain := s.chain.tail, taken := s.taken ++ [(t, s.item n)] } t :=
    WaitInv.congr hi ⟨rfl, rfl, fun _ h => h, rfl, rfl, rfl, rfl, rfl, rfl, rfl⟩ rfl hn
  unfold State.take
  split
  · next hp =>
    refine hi'.goto rfl (fun _ => hi.nil_of_pending ?_) (by rintro ⟨⟩)
    simpa using hp
  · next hp =>
    obtain ⟨w, hw⟩ := Option.ne_none_iff_exists'.mp (mt Option.isNone_iff_eq_none.mpr hp)
    exact hi'.goto rfl (by rintro ⟨⟩) fun _ => hi.ne_nil_of_pending hw

theorem Open.popDecide (hi : Open s t) {h : N} {v : Link N}
    (hn : ∀ n, v = .node n → ∀ m, s.chain.tail.head? = some m →
      (s.next m).decodeWaiter = s.nextList.head?) :
    WaitInv (s.popDecide t h v) (s.popDecide t h v).pc := by
  unfold State.popDecide
  split
  · next n => exact hi.take (hn n rfl)
  · split
    · next p hp =>
      have hne := hi.ne_nil_of_pending hp
      have h1 : WaitInv { s with wnext := Function.update s.wnext t (some p) }
          (Function.update s.pc t (.popCas h .null)) := by
        refine hi.setOwn rfl rfl rfl rfl ?_ fun _ => rfl
        rw [Pc.own_popCas hne, ← hi.thread.pending rfl, hp]
      have h2 := h1.link (p := .popCas h v) (Function.update_self ..) hne rfl rfl rfl rfl rfl
        ((Pc.own_popCas hne).trans (Pc.own_popCas hne).symm)
      rw [Function.update_idem] at h2
      exact h2.landed sameCore_linkPending.pc
    · next hp =>
      have hnil := hi.nil_of_pending hp
      refine WaitInv.landed (s := s) (hi.setOwn rfl rfl rfl rfl ?_ fun hne => absurd hnil hne) rfl
      rw [Pc.own, hnil]
      rfl

theorem Open.noItem (hi : Open s t) {h : N} {v : Link N} :
    WaitInv (s.noItem t h v) (s.noItem t h v).pc := by
  unfold State.noItem
  split
  · next hp =>
    exact hi.goto rfl (fun _ => hi.nil_of_pending (Option.isNone_iff_eq_none.mp hp))
      (by rintro ⟨⟩)
  · next hp =>
    obtain ⟨w, hw⟩ := Option.ne_none_iff_exists'.mp (mt Option.isNone_iff_eq_none.mpr hp)
    have hne := hi.ne_nil_of_pending hw
    split
    · exact hi.goto rfl (by rintro ⟨⟩) fun _ => hne
    · have hi' : Open (s.assert !v.isNode) t := WaitInv.assert hi
      exact (hi'.link (p := .noItemInstall h v) hne rfl rfl rfl rfl).landed sameCore_linkPending.pc

theorem Open.tryDecide (hi : Open s t) {h : N} {v : Link N}
    (hn : ∀ n, v = .node n → ∀ m, s.chain.tail.head? = some m →
      (s.next m).decodeWaiter = s.nextList.head?) :
    WaitInv (s.tryDecide t h v) (s.tryDecide t h v).pc := by
  unfold State.tryDecide
  split
  · next n => exact hi.take (hn n rfl)
  · exact hi.noItem

theorem Open.takenDecide (hi : Open s t) (hne : s.pendingList t ≠ []) {j : Taken N T}
    {v : Link N} : WaitInv (s.takenDecide t j v) (s.takenDecide t j v).pc := by
  unfold State.takenDecide
  split
  · exact hi.goto rfl (by rintro ⟨⟩) fun _ => hne
  · exact hi.goto rfl (by rintro ⟨⟩) fun _ => hne
  · next w =>
    exact (hi.link (p := .takenInstall j (.waiter w)) hne rfl rfl rfl rfl).landed
      sameCore_linkPending.pc

-- ============================================================================
-- Waiters at the head
-- ============================================================================

/-- The compare-exchange on `head->next` failed: the link of the last pending
    waiter is removed. -/
theorem WaitInv.unlink (hi : WaitInv s s.pc) {q : Pc N T} (hq : s.pc t = q)
    (hne : s.pendingList t ≠ []) (hw : q.waits = false) (hholds : q.holds = true)
    (hn : q.notifies = none) (hown : q.own (s.pendingList t) = none) :
    Open (s.linkPending t none) t := by
  have h := hi.link (p := .popLoad) hq hne hw rfl rfl hholds hn.symm hown.symm
  exact h.opened sameCore_linkPending.pc

/-- The same, with the own record linked in front. -/
theorem WaitInv.unlinkOwn (hi : WaitInv s s.pc) {h : N} {v : Link N} {b : Bool}
    (hp : s.pc t = .popCas h v)
    (hs : s' = if (s.pending t).isSome then (s.assert b).linkPending t none else s.assert b) :
    Open { s' with wnext := Function.update s'.wnext t none } t := by
  have hth := hi.thread t
  rw [hp] at hth
  have hi' : WaitInv (s.assert b) (s.assert b).pc := hi.assert
  split at hs
  · next hsome =>
    have hne : s.pendingList t ≠ [] := by
      intro he
      rw [hth.pending rfl, he] at hsome
      cases hsome
    have h1 := hi'.link (p := .popCas h .null) hp hne rfl rfl rfl rfl rfl
      ((Pc.own_popCas hne).trans (Pc.own_popCas hne).symm)
    have h2 := h1.setOwn (p := .popLoad) (v := none) (Function.update_self ..) rfl rfl rfl rfl rfl
      rfl rfl fun _ => rfl
    rw [Function.update_idem] at h2
    subst hs
    exact h2.opened sameCore_linkPending.pc
  · next hnone =>
    have hnil : s.pendingList t = [] := by
      refine List.head?_eq_none_iff.mp ?_
      rw [← hth.pending rfl]
      exact Option.not_isSome_iff_eq_none.mp hnone
    subst hs
    exact hi'.setOwn (p := .popLoad) hp rfl rfl rfl rfl rfl rfl rfl fun hne => absurd hnil hne

/-- The pending waiters are installed at the head, in front of those there. -/
theorem WaitInv.install [DecidableEq N] (hi : WaitInv s s.pc) {q : Pc N T} {h : N} (hq : s.pc t = q)
    (hhead : s.chain.head? = some h) (htail : q.tail = (s.next h).decodeWaiter)
    (hpend : s.pending t = some w) (hw : q.waits = false) (hholds : q.holds = true)
    (hn : q.notifies = none) (hown : q.own (s.pendingList t) = none)
    (hlock : ∀ u h', s.pc u = .unlockWaiting h' → u = t) :
    Open { s.install t h w (s.pendingList t) with
      pending := Function.update s.pending t none } t := by
  subst hq
  have hth := hi.thread t
  have hfirst : (s.pendingList t).head? = some w := (hth.pending hholds).symm.trans hpend
  have hother (a : Place) (ha : a ≠ .next) :
      State.listAt { s.install t h w (s.pendingList t) with
        pending := Function.update s.pending t none } a =
        if a = .pending t ∨ a = .next then [] else s.listAt a := by
    cases a <;> simp_all [State.listAt, State.install, State.move, Function.update_apply]
  have hlists := hi.lists.join (p := Place.pending t) (q := Place.next) (by simp)
    (fun _ => htail.trans ((hi.next h hhead).trans (Option.or_none ..).symm)) (.inr rfl)
    (show State.listAt { s.install t h w (s.pendingList t) with
        pending := Function.update s.pending t none } .next =
        s.listAt (.pending t) ++ s.listAt .next from rfl) hother
  have hlisted (x : Nat) : State.Listed { s.install t h w (s.pendingList t) with
      pending := Function.update s.pending t none } x ↔ s.Listed x :=
    Lists.exists_mem_join (.inr rfl) rfl hother
  refine WaitInv.step (t := t) hi
    ⟨fun u hu => Function.update_of_ne hu .., fun _ _ => rfl, fun _ _ => rfl,
      fun u hu => Function.update_of_ne hu .., fun _ _ => rfl, fun _ _ => rfl, fun _ _ => .inl rfl⟩
    (fun u hu => Function.update_of_ne hu ..) ?_ hi.head ?_ ?_ (fun x _ => hlisted x) ?_
    (fun _ h => h) (fun h => hi.records t ((hlisted t).mp h)) ?_
  · refine hlists.congr (fun _ => rfl) fun a ha => ?_
    rw [tails_update]
    rcases eq_or_ne a (.pending t) with rfl | hat
    · rw [hother _ (by simp), if_pos (.inl rfl)] at ha
      exact absurd rfl ha
    · rw [Function.update_of_ne hat, Function.update_apply]
      split
      · next he =>
        subst he
        rfl
      · rfl
  · intro n hn
    obtain rfl : h = n := Option.some_inj.mp (hhead.symm.trans hn)
    simp only [State.install, Function.update_self, List.head?_append, hfirst]
    rfl
  · rw [Function.update_self]
    have hnil : (s.install t h w (s.pendingList t)).pendingList t = [] := Function.update_self ..
    refine ⟨by rintro ⟨⟩, by rintro ⟨⟩, fun _ => ?_, fun _ hne => absurd hnil hne,
      hn.symm.trans hth.hand, hth.unnotified, fun h0 => ?_, fun _ => (hth.own hw).trans hown⟩
    · exact (Function.update_self ..).trans (congrArg List.head? hnil).symm
    · rw [(hth.notified h0).2.1] at hw
      cases hw
  · rw [hlisted, hi.listed, hw, Function.update_self]
    exact ⟨fun h0 => (nomatch h0.1), fun h0 => (nomatch h0.1)⟩
  · intro u h' hu hs hfront
    rcases eq_or_ne u t with rfl | hne
    · rw [Function.update_self] at hu
      cases hu
    · rw [Function.update_of_ne hne] at hu
      exact absurd (hlock u h' hu) hne

/-- The thread's own record is installed at the head, with its pending waiters
    and those there behind it. -/
theorem WaitInv.installOwn [DecidableEq N] (hi : WaitInv s s.pc) {h : N} {v : Link N}
    (hp : s.pc t = .popCas h v) (hhead : s.chain.head? = some h) (hv : s.next h = v)
    (hrec : t ∈ s.records) (hlock : ∀ u h', s.pc u = .unlockWaiting h' → u = t) :
    WaitInv (s.install t h t (t :: s.pendingList t))
      (Function.update s.pc t (.unlockWaiting h)) := by
  have hth := hi.thread t
  rw [hp] at hth
  have hw : (s.pc t).waits = false := by rw [hp]; rfl
  have hfirst : v.decodeWaiter = s.nextList.head? := by rw [← hv, hi.next h hhead]
  -- first the pending waiters are joined to those at the head, then the own record is in front
  obtain ⟨L, hjoin, hother⟩ : ∃ L : Place → List Nat,
      L .next = s.listAt (.pending t) ++ s.listAt .next ∧
      ∀ a, a ≠ .next → L a = if a = .pending t ∨ a = .next then [] else s.listAt a :=
    ⟨fun a => if a = .next then s.listAt (.pending t) ++ s.listAt .next
      else if a = .pending t ∨ a = .next then [] else s.listAt a, if_pos rfl, fun _ ha => if_neg ha⟩
  have hL : (s.install t h t (t :: s.pendingList t)).listAt =
      Function.update L .next (t :: L .next) := by
    funext a
    rcases eq_or_ne a .next with rfl | ha
    · rw [Function.update_self, hjoin]
      rfl
    · rw [Function.update_of_ne ha, hother a ha]
      cases a <;> simp_all [State.listAt, State.install, State.move, Function.update_apply]
  have hmem (x : Nat) : (∃ a, x ∈ L a) ↔ s.Listed x :=
    Lists.exists_mem_join (.inr rfl) hjoin hother
  have hlisted (x : Nat) :
      (s.install t h t (t :: s.pendingList t)).Listed x ↔ x = t ∨ s.Listed x := by
    rw [State.Listed, hL, Lists.exists_mem_push, hmem]
  have htails : tails s.pc (.pending t) = s.nextList.head? := by
    rw [tails, hp]
    exact hfirst
  have hlists := hi.lists.join (p := Place.pending t) (q := Place.next) (by simp)
    (fun _ => htails.trans (Option.or_none ..).symm) (.inr rfl) hjoin hother
  have hpush := hlists.push (x := t) (p := Place.next)
    (fun a ha => hi.not_listed hw _ ((hmem t).mp ⟨a, ha⟩).choose_spec) (by
      rw [hjoin, Function.update_self, List.head?_append, hth.own rfl, Pc.own, hfirst]
      exact (Option.or_none ..).symm)
  refine hi.step (t := t) ?_ (fun u hu => Function.update_of_ne hu ..) ?_ hi.head ?_ ?_
    (fun x hx => (hlisted x).trans (or_iff_right hx)) ?_ (fun _ h => h) (fun _ => hrec) ?_
  · exact { Others.refl s t with pendingList := fun u hu => Function.update_of_ne hu .. }
  · rw [← hL] at hpush
    refine hpush.congr (fun _ => rfl) fun a ha => ?_
    rw [tails_update]
    rcases eq_or_ne a (.pending t) with rfl | hat
    · rw [hL, Function.update_of_ne (by simp), hother _ (by simp), if_pos (.inl rfl)] at ha
      exact absurd rfl ha
    · rw [Function.update_of_ne hat, Function.update_apply]
      split
      · next he =>
        subst he
        rfl
      · rfl
  · intro n hn
    obtain rfl : h = n := Option.some_inj.mp (hhead.symm.trans hn)
    simp only [State.install, Function.update_self]
    rfl
  · rw [Function.update_self]
    refine ⟨fun _ => Function.update_self .., by rintro ⟨⟩, by rintro ⟨⟩, by rintro ⟨⟩, hth.hand,
      hth.unnotified, fun h0 => (nomatch (hth.notified h0).2.1), by rintro ⟨⟩⟩
  · rw [hlisted, Function.update_self]
    refine ⟨fun _ => ⟨rfl, ?_⟩, fun _ => .inl rfl⟩
    by_contra h0
    cases (hth.notified h0).2.1
  · intro u h' hu hs hfront
    rcases eq_or_ne u t with rfl | hne
    · exact .inl rfl
    · rw [Function.update_of_ne hne] at hu
      exact absurd (hlock u h' hu) hne

-- ============================================================================
-- Waiters at `head_`
-- ============================================================================

/-- The own record is installed at `head_`. -/
theorem Open.installHead (hi : Open s t) (hh : s.head = .null) (hrec : t ∈ s.records) :
    WaitInv { s.move [t] .head with head := .waiter t, headList := [t] }
      (Function.update s.pc t .waitHead) := by
  have hth := hi.thread
  have hself : Function.update s.pc t .popLoad t = (.popLoad : Pc N T) := Function.update_self ..
  have hnil : s.headList = [] := WaitInv.nil_of_root hi (by rw [hh]; rfl)
  have hL : State.listAt { s.move [t] .head with head := .waiter t, headList := [t] } =
      Function.update s.listAt .head (t :: s.listAt .head) := by
    funext a
    cases a <;> simp [State.listAt, State.move, hnil]
  have hlisted (x : Nat) :
      State.Listed { s.move [t] .head with head := .waiter t, headList := [t] } x ↔
        x = t ∨ s.Listed x := by
    rw [State.Listed, hL, Lists.exists_mem_push]
    rfl
  have hpush := (WaitInv.lists hi).push (x := t) (p := Place.head)
    (WaitInv.not_listed hi (by rw [hself]; rfl)) (by
      rw [hth.own rfl, State.listAt, hnil]
      rfl)
  refine WaitInv.step (t := t) hi { Others.refl s t with wnext := fun _ _ => .inl rfl }
    (fun u hu => ?_) ?_ rfl hi.next ?_
    (fun x hx => (hlisted x).trans (or_iff_right hx)) ?_ (fun _ h => h) (fun _ => hrec) ?_
  · rw [Function.update_of_ne hu, Function.update_of_ne hu]
  · rw [← hL] at hpush
    refine hpush.congr (fun _ => rfl) fun a _ => ?_
    rw [tails_update, tails_update]
    rfl
  · rw [Function.update_self]
    exact ⟨by rintro ⟨⟩, by rintro ⟨⟩, fun _ => hth.pending rfl, fun _ => hth.last rfl, hth.hand,
      hth.unnotified, fun h => (nomatch (hth.notified h).2.1), by rintro ⟨⟩⟩
  · rw [hlisted, Function.update_self]
    refine ⟨fun _ => ⟨rfl, ?_⟩, fun _ => .inl rfl⟩
    by_contra h0
    cases (hth.notified h0).2.1
  · intro u h hu hs hfront
    refine hfront ?_
    rintro rfl
    rw [Function.update_self] at hu
    cases hu

/-- `unlock_waiting`, before the waiters that were at `head_` are pending. -/
def State.unlocked (s : State N T) (t : Nat) (h : N) : State N T :=
  { s with
    head := .node h
    holder := none
    pending := Function.update s.pending t none
    pendingLast := Function.update s.pendingLast t none }

/-- `unlock_waiting` finds no waiters. -/
theorem WaitInv.unlock (hi : WaitInv s s.pc) {h h' : N} (hp : s.pc t = .unlockWaiting h')
    (hh : s.head.decodeWaiter = none) :
    WaitInv (s.unlocked t h) (Function.update s.pc t .waitItem) := by
  have hth := hi.thread t
  rw [hp] at hth
  have hnil : s.pendingList t = [] := hth.clean rfl
  refine hi.step (t := t) ?_ (fun u hu => Function.update_of_ne hu ..) ?_ ?_ hi.next ?_
    (fun _ _ => .rfl) ?_ (fun _ h => h) (hi.records t) ?_
  · exact { Others.refl s t with
      pending := fun u hu => Function.update_of_ne hu ..
      pendingLast := fun u hu => Function.update_of_ne hu .. }
  · refine hi.lists.congr (fun _ => rfl) fun a ha => ?_
    rw [tails_update]
    rcases eq_or_ne a (.pending t) with rfl | hat
    · exact absurd hnil ha
    · rw [Function.update_of_ne hat]
  · exact (congrArg List.head? (hi.nil_of_root hh)).symm
  · rw [Function.update_self]
    refine ⟨by rintro ⟨⟩, by rintro ⟨⟩, fun _ => ?_, fun _ hne => absurd hnil hne, hth.hand,
      hth.unnotified, hth.notified, by rintro ⟨⟩⟩
    exact (Function.update_self ..).trans (congrArg List.head? hnil).symm
  · rw [Function.update_self]
    refine (hi.listed t).trans ?_
    rw [hp]
    rfl
  · intro u k hu hs hfront
    refine hfront ?_
    rintro rfl
    rw [Function.update_self] at hu
    cases hu

/-- `unlock_waiting` finds waiters. -/
theorem WaitInv.unlockGrab (hi : WaitInv s s.pc) {h h' : N} (hp : s.pc t = .unlockWaiting h')
    (hh : s.head = .waiter w) :
    ∃ s', (s.unlocked t h).grab t w = some s' ∧ WaitInv s' (Function.update s'.pc t .waitItem) := by
  have hth := hi.thread t
  rw [hp] at hth
  have hnil : s.pendingList t = [] := hth.clean rfl
  have hhead : s.headList.head? = some w := by rw [← hi.head, hh, Link.decodeWaiter]
  have hne : s.headList ++ s.pendingList t ≠ [] := by
    intro he
    rw [(List.append_eq_nil_iff.mp he).1] at hhead
    cases hhead
  obtain ⟨s', hs', hpd, hlists⟩ := prepend_lists (s := { s.unlocked t h with headList := [] })
    (t := t) (p := .head) hi.lists (by simp) hhead rfl (hi.length_le .head) rfl
    (by rw [tails, hp]; rfl)
    ((Function.update_self ..).trans (congrArg List.head? hnil).symm) (fun hne => absurd hnil hne)
  have hempty : State.listAt { s.unlocked t h with headList := [] } =
      Function.update s.listAt .head [] := by
    funext a
    cases a <;> simp [State.listAt, State.unlocked]
  have hL : s'.listAt = Function.update (Function.update s.listAt .head []) (.pending t)
      (s.headList ++ s.pendingList t) := by
    rw [hpd.listAt, hempty]
    rfl
  have hpc : s'.pc = s.pc := hpd.core.pc
  refine ⟨s', hs', ?_⟩
  rw [hpc]
  refine WaitInv.collect (p := .head) (l := s.headList ++ s.pendingList t) hi
    ⟨fun u hu => ?_, fun u _ => congrFun hpd.hand u, fun u _ => congrFun hpd.behind u,
      fun u hu => ?_, fun u hu => ?_, fun u _ => congrFun hpd.sem u, fun u _ => ?_⟩
    (fun u hu => Function.update_of_ne hu ..) (fun x => List.mem_append) hL ?_ ?_ ?_ ?_ ?_ ?_
    hpd.nextList hpd.hand ?_
  · exact (congrFun hpd.pendingList u).trans (Function.update_of_ne hu ..)
  · refine (congrFun hpd.pending u).trans ((Function.update_of_ne hu ..).trans ?_)
    exact Function.update_of_ne hu ..
  · refine (congrFun hpd.pendingLast u).trans ((Function.update_of_ne hu ..).trans ?_)
    exact Function.update_of_ne hu ..
  · by_cases hm : u ∈ s.headList
    · exact .inr ⟨.head, hm⟩
    · exact .inl (hpd.wnext u hm)
  · rw [hL]
    refine hlists.congr (fun _ => rfl) fun a _ => ?_
    rw [tails_update]
    rcases eq_or_ne a (.pending t) with rfl | hat
    · rw [Function.update_self, tails, hp]
      rfl
    · rw [Function.update_of_ne hat]
  · rw [hpd.core.head, hpd.headList]
    rfl
  · rw [hpd.core.chain, hpd.core.next, hpd.nextList]
    exact hi.next
  · rw [Function.update_self]
    refine hpd.thread hne rfl hth.hand hth.unnotified (fun h0 => ?_) (by rintro ⟨⟩)
    obtain ⟨hone, -, hlink⟩ := hth.notified h0
    refine ⟨hone, rfl, (hpd.wnext t fun hm => ?_).trans hlink⟩
    exact h0 ((hi.listed t).mp ⟨.head, hm⟩).2
  · rw [hi.listed, hp, Function.update_self, hpd.sem]
    rfl
  · exact fun _ h => hpd.records ▸ h
  · intro k he
    rw [Function.update_self] at he
    cases he

-- ============================================================================
-- `push` and `notify()`
-- ============================================================================

/-- `push` takes the waiters from the head. -/
theorem WaitInv.publish [DecidableEq N] (hi : WaitInv s s.pc) {a n : N}
    (hp : s.pc t = .pushPublish a n) (hhead : s.chain.head? = some a)
    (hw : s.next a = .waiter w) (hs : s' = { s.move s.nextList (.hand t) with
      next := Function.update s.next a (.node n)
      nextList := []
      hand := Function.update s.hand t s.nextList }) :
    WaitInv s' (Function.update s.pc t (.pushNotify w)) := by
  have hth := hi.thread t
  rw [hp] at hth
  have hhand : s.hand t = [] := List.head?_eq_none_iff.mp hth.hand.symm
  have hfirst : s.nextList.head? = some w := by rw [← hi.next a hhead, hw, Link.decodeWaiter]
  have hhandt : s'.hand t = s.nextList := by
    rw [hs]
    exact Function.update_self ..
  have hhandu (v : Nat) (hv : v ≠ t) : s'.hand v = s.hand v := by
    rw [hs]
    exact Function.update_of_ne hv ..
  have hjoin : s'.listAt (.hand t) = s.listAt .next ++ s.listAt (.hand t) := by
    simp only [State.listAt, hhandt, hhand, List.append_nil]
  have hother (b : Place) (hb : b ≠ .hand t) :
      s'.listAt b = if b = .next ∨ b = .hand t then [] else s.listAt b := by
    subst hs
    cases b <;> simp_all [State.listAt, State.move]
  have hlisted (x : Nat) : s'.Listed x ↔ s.Listed x :=
    Lists.exists_mem_join (.inr rfl) hjoin hother
  have hlists := hi.lists.join (p := Place.next) (q := Place.hand t) (by simp) (fun _ => by
    rw [show s.listAt (.hand t) = [] from hhand]
    rfl) (.inr rfl) hjoin hother
  have hnot : ∀ p, t ∉ s.listAt p := hi.not_listed (by rw [hp]; rfl)
  refine hi.step (t := t) ?_ (fun u hu => Function.update_of_ne hu ..) ?_ ?_ ?_ ?_
    (fun x _ => hlisted x) ?_ ?_ (fun h => absurd ((hlisted t).mp h) fun h => hnot _ h.choose_spec)
    ?_
  · subst hs
    exact { Others.refl s t with hand := fun u hu => Function.update_of_ne hu .. }
  · have hstop : s'.wnext = s.wnext := by rw [hs]; rfl
    rw [hstop]
    refine hlists.congr (fun _ => rfl) fun b _ => ?_
    rw [tails_update]
    rcases eq_or_ne b (.pending t) with rfl | hbt
    · rw [Function.update_self, Function.update_of_ne (by simp), tails, hp]
      rfl
    · rw [Function.update_of_ne hbt, Function.update_apply]
      split
      · next he =>
        subst he
        rfl
      · rfl
  · subst hs
    exact hi.head
  · subst hs
    intro m hm
    obtain rfl : a = m := Option.some_inj.mp (hhead.symm.trans hm)
    simp only [Function.update_self]
    rfl
  · rw [Function.update_self]
    subst hs
    refine ⟨fun _ => hth.clean rfl, by rintro ⟨⟩, by rintro ⟨⟩, by rintro ⟨⟩, ?_, hth.unnotified,
      fun h => (nomatch (hth.notified h).2.1), fun _ => hth.own rfl⟩
    exact hfirst.symm.trans (congrArg List.head? hhandt).symm
  · rw [hlisted, hi.listed, Function.update_self, hp]
    exact ⟨fun h => (nomatch h.1), fun h => (nomatch h.1)⟩
  · subst hs
    exact fun _ h => h
  · subst hs
    intro u h hu hsu hfront
    have hne : u ≠ t := by
      rintro rfl
      rw [Function.update_self] at hu
      cases hu
    rcases hfront hne with hf | ⟨v, hv⟩
    · exact .inr ⟨t, (congrArg List.head? hhandt).trans hf⟩
    · have hvt : v ≠ t := by
        rintro rfl
        rw [hhand] at hv
        cases hv
      exact .inr ⟨v, (congrArg List.head? (hhandu v hvt)).trans hv⟩

/-- `push` publishes an item where no thread waits. -/
theorem WaitInv.publishNone [DecidableEq N] (hi : WaitInv s s.pc) {a n : N}
    (hp : s.pc t = .pushPublish a n) (hw : (s.next a).decodeWaiter = none) {b : Bool}
    (hs : s' = State.assert { s with next := Function.update s.next a (.node n) } b) :
    WaitInv (s'.goto t .idle) (s'.goto t .idle).pc := by
  subst hs
  have hg := hi.goto (t := t) (p := .idle) (by rw [hp]; rfl) rfl (by rintro ⟨⟩)
    (fun _ => (hi.thread t).clean (by rw [hp]; rfl)) (by rintro ⟨⟩)
  refine hg.congr ⟨rfl, rfl, fun _ h => h, rfl, rfl, rfl, rfl, rfl, rfl, rfl⟩ rfl fun m hm => ?_
  refine Eq.trans ?_ (hi.next m hm)
  simp only [State.goto, State.assert, Function.update_apply]
  split
  · next hma => rw [hma, hw, Link.decodeWaiter]
  · rfl

/-- The first waiter of a list is notified: the others are behind it. -/
theorem WaitInv.notify {p : Place} {l : List Nat} {q : Pc N T} (hi : WaitInv s s.pc)
    (hp : s.listAt p = w :: l) (hpt : p = .hand t ∨ p = .pending t)
    (htw : (s.pc t).waits = false) (htt : (s.pc t).tail = none)
    (hto : ∀ l, (s.pc t).own l = none) (hq : q.quiet = true) (hqf : q.full = false)
    (hqh : q.holds = false)
    (hL : s'.listAt = Function.update (Function.update s.listAt p []) (.behind w) l)
    (hsem : s'.sem = Function.update s.sem w (s.sem w + 1))
    (hbehind : s'.behind = Function.update s.behind w l) (hwnext : s'.wnext = s.wnext)
    (hrec : s'.records = s.records) (hpend : s'.pending = s.pending)
    (hlast : s'.pendingLast = s.pendingLast) (hhead : s'.head = s.head)
    (hnext : s'.next = s.next) (hchain : s'.chain = s.chain)
    (hhand : ∀ u, u ≠ t → s'.hand u = s.hand u) (hhandt : s'.hand t = [])
    (hP : ∀ u, u ≠ t → s'.pendingList u = s.pendingList u) (hPt : s'.pendingList t = []) :
    WaitInv s' (Function.update s.pc t q) := by
  obtain ⟨hqw, hqt, hqn, hqo⟩ := Pc.quiet_spec hq
  have hwl : s.Listed w := ⟨p, hp ▸ List.mem_cons_self⟩
  obtain ⟨hww, hw0⟩ := (hi.listed w).mp hwl
  have hwt : w ≠ t := by
    rintro rfl
    rw [hww] at htw
    cases htw
  have hbw : s.listAt (.behind w) = [] := (hi.thread w).unnotified hw0
  have hpb : p ≠ .behind w := by
    rcases hpt with rfl | rfl <;> simp
  have hpn : tails s.pc p = none := by
    rcases hpt with rfl | rfl
    · rfl
    · exact htt
  obtain ⟨hpop, hlink, hout⟩ := hi.lists.pop hp
  rw [hpn, Option.or_none] at hlink
  have hjoin : s'.listAt (.behind w) =
      Function.update s.listAt p l p ++ Function.update s.listAt p l (.behind w) := by
    rw [hL, Function.update_self, Function.update_self, Function.update_of_ne hpb.symm, hbw,
      List.append_nil]
  have hother (b : Place) (hb : b ≠ .behind w) : s'.listAt b =
      if b = p ∨ b = .behind w then [] else Function.update s.listAt p l b := by
    rw [hL, Function.update_of_ne hb]
    by_cases hbp : b = p
    · rw [if_pos (.inl hbp), hbp, Function.update_self]
    · rw [if_neg (not_or.mpr ⟨hbp, hb⟩), Function.update_of_ne hbp, Function.update_of_ne hbp]
  have hlists := hpop.join hpb (fun _ => by
    rw [hpn, Function.update_of_ne hpb.symm, hbw]
    rfl) (.inr rfl) hjoin hother
  have hmem (x : Nat) : s'.Listed x ↔ ∃ b, x ∈ Function.update s.listAt p l b :=
    Lists.exists_mem_join (.inr rfl) hjoin hother
  have hlisted (x : Nat) : s'.Listed x ↔ x ≠ w ∧ s.Listed x := by
    rw [hmem]
    constructor
    · rintro ⟨b, hb⟩
      refine ⟨?_, ?_⟩
      · rintro rfl
        exact hout b hb
      · rw [Function.update_apply] at hb
        split at hb
        · exact ⟨p, hp ▸ List.mem_cons_of_mem _ hb⟩
        · exact ⟨b, hb⟩
    · rintro ⟨hxw, b, hb⟩
      refine ⟨b, ?_⟩
      rw [Function.update_apply]
      split
      · next hbp =>
        rw [hbp, hp] at hb
        exact (List.mem_cons.mp hb).resolve_left hxw
      · exact hb
  have hnextList : s'.nextList = s.nextList := by
    refine (congrFun hL .next).trans ?_
    rw [Function.update_of_ne (by simp), Function.update_of_ne (by rcases hpt with rfl | rfl <;> simp)]
    rfl
  have hsemw : s'.sem w = 1 := by rw [hsem, Function.update_self, hw0]
  have hsemu (u : Nat) (hu : u ≠ w) : s'.sem u = s.sem u := by rw [hsem, Function.update_of_ne hu]
  refine ⟨?_, ?_, ?_, fun u => ?_, fun x => ?_, fun x hx => ?_, fun u h hu hsu => ?_⟩
  · rw [hwnext]
    refine hlists.congr (fun _ => rfl) fun b hb => ?_
    rw [tails_update]
    rcases eq_or_ne b (.pending t) with rfl | hbt
    · rw [Function.update_self, Function.update_of_ne (by simp), hqt]
      exact htt.symm
    · rw [Function.update_of_ne hbt, Function.update_apply]
      split
      · next he =>
        subst he
        rfl
      · rfl
  · have hh : s'.headList = s.headList := by
      refine (congrFun hL .head).trans ?_
      rw [Function.update_of_ne (by simp), Function.update_of_ne (by rcases hpt with rfl | rfl <;> simp)]
      rfl
    rw [hhead, hh]
    exact hi.head
  · rw [hchain, hnext, hnextList]
    exact hi.next
  · rcases eq_or_ne u t with rfl | hut
    · rw [Function.update_self]
      have hth := hi.thread u
      refine ⟨fun _ => hPt, fun h => ?_, fun h => ?_, fun h => ?_, ?_, fun h0 => ?_, fun h0 => ?_,
        fun _ => ?_⟩
      · rw [hqf] at h
        cases h
      · rw [hqh] at h
        cases h
      · rw [hqh] at h
        cases h
      · rw [hqn, hhandt]
        rfl
      · rw [hbehind, Function.update_of_ne hwt.symm]
        exact hth.unnotified (hsemu u hwt.symm ▸ h0)
      · rw [hsemu u hwt.symm] at h0
        rw [(hth.notified h0).2.1] at htw
        cases htw
      · rw [hwnext, hth.own htw, hto, hqo]
    · rw [Function.update_of_ne hut]
      have hth := hi.thread u
      refine ⟨?_, ?_, ?_, ?_, ?_, fun h0 => ?_, fun h0 => ?_, ?_⟩
      · rw [hP u hut]
        exact hth.clean
      · rw [hP u hut]
        exact hth.full
      · rw [hP u hut, hpend]
        exact hth.pending
      · rw [hP u hut, hlast]
        exact hth.last
      · rw [hhand u hut]
        exact hth.hand
      · have huw : u ≠ w := by
          rintro rfl
          rw [hsemw] at h0
          cases h0
        rw [hbehind, Function.update_of_ne huw]
        exact hth.unnotified (hsemu u huw ▸ h0)
      · rcases eq_or_ne u w with rfl | huw
        · refine ⟨hsemw, hww, ?_⟩
          rw [hwnext, hbehind, Function.update_self]
          exact hlink
        · rw [hsemu u huw, hwnext, hbehind, Function.update_of_ne huw]
          exact hth.notified (hsemu u huw ▸ h0)
      · rw [hP u hut, hwnext]
        exact hth.own
  · rw [hlisted, hi.listed]
    rcases eq_or_ne x w with rfl | hxw
    · rw [hsemw]
      exact ⟨fun h => absurd rfl h.1, fun h => absurd h.2 Nat.one_ne_zero⟩
    · rw [hsemu x hxw]
      rcases eq_or_ne x t with rfl | hxt
      · rw [Function.update_self, htw, hqw]
        exact ⟨fun h => h.2, fun h => (nomatch h.1)⟩
      · rw [Function.update_of_ne hxt]
        exact and_iff_right hxw
  · rw [hrec]
    exact hi.records x ((hlisted x).mp hx).2
  · have hut : u ≠ t := by
      rintro rfl
      rw [Function.update_self] at hu
      rw [hu] at hqw
      cases hqw
    have huw : u ≠ w := by
      rintro rfl
      rw [hsemw] at hsu
      cases hsu
    rw [Function.update_of_ne hut] at hu
    rw [hsemu u huw] at hsu
    refine (hi.front u h hu hsu).imp (fun hf => hnextList ▸ hf) ?_
    rintro ⟨v, hv⟩
    refine ⟨v, ?_⟩
    rcases eq_or_ne v t with rfl | hvt
    · rcases hpt with rfl | rfl
      · rw [show s.hand v = w :: l from hp] at hv
        exact absurd (Option.some_inj.mp hv).symm huw
      · have hh : s'.hand v = s.hand v := by
          refine (congrFun hL (.hand v)).trans ?_
          rw [Function.update_of_ne (by simp), Function.update_of_ne (by simp)]
          rfl
        rwa [hh]
    · rwa [hhand v hvt]

end Coroactors.Queue
