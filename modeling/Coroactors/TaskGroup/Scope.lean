/-
  Coroactors.TaskGroup.Scope

  `with_task_group` (coroactors/with_task_group.h): a coroutine that runs a
  callback with a task group, and awaits every task before it returns what the
  callback returned.

  The callback uses the group through the same coroutine frame, one after the
  other with the drain loop, so both are the owner of the sink; the tasks push
  from other threads.  The caller's token may be stopped at any time: its
  `request_stop` sets the flag, takes the registered callback out of its list
  (after others, perhaps), and invokes it.  The destructor of the stop callback
  waits for an invocation that was taken and has not returned.
-/

import Coroactors.TaskGroup.Delivery

namespace Coroactors.TaskGroup

open Coroactors.Conc

-- ============================================================================
-- Model
-- ============================================================================

/-- Where the coroutine of `with_task_group` is. -/
inductive Place (ε : Type*) where
  /-- Before the stop callback is constructed. -/
  | start
  /-- In the callback. -/
  | body
  /-- The callback ended, with an exception perhaps; before the destructor of
      the stop callback. -/
  | unwind (e : Option ε)
  /-- Before `group.request_stop()`. -/
  | stop
  /-- In the loop that awaits the remaining results. -/
  | drain
  /-- Before the group is destroyed. -/
  | leave
  | finished
deriving DecidableEq, Repr

/-- Where the stop callback is that propagates the caller's stop. -/
inductive Propagate where
  | off
  | armed
  /-- The caller's `request_stop` took it. -/
  | taken
  /-- It has run. -/
  | invoked
  | removed
deriving DecidableEq, Repr

structure Scope (α ε β : Type*) where
  group : State α
  place : Place ε
  /-- The local variable `r`. -/
  r : Option (Except ε β)
  /-- The stop was requested on the group's source. -/
  stopped : Bool
  /-- The stop was requested on the caller's token. -/
  caller : Bool
  propagate : Propagate
  /-- The results the callback consumed, once it has ended; no step reads it. -/
  byCallback : List (Node α)
  /-- What the callback returned or threw; no step reads it. -/
  result : Option (Except ε β)

inductive ScopeAct (α ε β : Type*) where
  /-- `stop_callback propagate(current_stop_token(), ..)`. -/
  | arm
  /-- The callback uses the group. -/
  | body (a : Act α)
  /-- The callback returns or throws. -/
  | finish (o : Except ε β)
  /-- The destructor of the stop callback. -/
  | disarm
  | requestStop
  /-- The test of the loop, and the start of an await. -/
  | loop
  /-- The next step of the await in the loop. -/
  | await (spurious : Bool)
  /-- The group is destroyed, and the coroutine returns. -/
  | leave
  /-- A task finishes or makes a step of its `push`. -/
  | task (a : Act α)
  /-- The flag of the caller's token is set. -/
  | stopCaller
  /-- The caller's `request_stop` takes the stop callback from its list. -/
  | take
  /-- It invokes the stop callback. -/
  | invoke

section Model

variable {α ε β : Type*}

/-- What the callback may do with the group. -/
def Act.ofBody : Act α → Bool
  | .add | .ready | .await .next | .await .nextResult | .owner _ _ => true
  | _ => false

/-- What the tasks do. -/
def Act.ofTask : Act α → Bool
  | .complete _ _ | .push _ _ => true
  | _ => false

def Scope.start : Scope α ε β where
  group := .start
  place := .start
  r := none
  stopped := false
  caller := false
  propagate := .off
  byCallback := []
  result := none

def withTaskGroup (α ε β : Type*) : System (Scope α ε β) (ScopeAct α ε β) where
  init s := s = .start
  step s
    | .arm =>
        match s.place with
        | .start =>
            -- a callback on a stopped token is invoked at once
            if s.caller then
              some { s with place := .body, stopped := true, propagate := .invoked }
            else some { s with place := .body, propagate := .armed }
        | _ => none
    | .body a =>
        match s.place with
        | .body =>
            if a.ofBody then ((group α).step s.group a).map fun g => { s with group := g } else none
        | _ => none
    | .finish o =>
        match s.place, s.group.owner with
        | .body, .idle =>
            let s := { s with byCallback := s.group.delivered, result := some o }
            match o with
            | .ok v => some { s with place := .unwind none, r := some (.ok v) }
            | .error e => some { s with place := .unwind (some e) }
        | _, _ => none
    | .disarm =>
        match s.place with
        | .unwind e =>
            if s.propagate = .taken then none
            else
              let s := { s with place := .stop, propagate := .removed }
              match e with
              | none => some s
              | some e => some { s with r := some (.error e) }
        | _ => none
    | .requestStop =>
        match s.place with
        | .stop => some { s with place := .drain, stopped := true }
        | _ => none
    | .loop =>
        match s.place, s.group.owner with
        | .drain, .idle =>
            if s.group.count = 0 then some { s with place := .leave }
            else ((group α).step s.group (.await .nextResult)).map fun g => { s with group := g }
        | _, _ => none
    | .await spurious =>
        match s.place with
        | .drain =>
            ((group α).step s.group (.owner .unstoppable spurious)).map fun g =>
              { s with group := g }
        | _ => none
    | .leave =>
        match s.place with
        | .leave =>
            ((group α).step s.group .detach).map fun g => { s with group := g, place := .finished }
        | _ => none
    | .task a =>
        if a.ofTask then ((group α).step s.group a).map fun g => { s with group := g } else none
    | .stopCaller => some { s with caller := true }
    | .take =>
        if s.caller = true ∧ s.propagate = .armed then some { s with propagate := .taken } else none
    | .invoke =>
        if s.propagate = .taken then some { s with propagate := .invoked, stopped := true }
        else none

end Model

-- ============================================================================
-- The group
-- ============================================================================

variable {α : Type*} {g g' : State α}

theorem popReady_delivered (g : State α) : g.delivered <+: g.popReady.delivered := by
  unfold State.popReady
  split
  · exact List.prefix_rfl
  · exact List.prefix_append ..

theorem awaitResume_delivered (g : State α) : g.delivered <+: g.awaitResume.delivered := by
  unfold State.awaitResume
  split
  · exact popReady_delivered g
  · simp only
    split
    · refine List.IsPrefix.trans ?_ (popReady_delivered _)
      exact List.prefix_rfl
    · exact List.prefix_rfl

theorem ownerStep_delivered {tok : Token} {sp : Bool} (hs : ownerStep g tok sp = some g') :
    g.delivered <+: g'.delivered := by
  cases ho : g.owner <;> simp only [ownerStep, ho] at hs
  case resume k =>
    cases k <;> simp only at hs
    case whenReady =>
      split at hs <;> cases hs
      exact List.prefix_rfl
    all_goals
      cases hs
      exact awaitResume_delivered g
  case removed =>
    split at hs <;> cases hs
    · exact List.prefix_rfl
    · unfold State.awaitReadyAssert
      split <;> exact List.prefix_rfl
  case token => cases tok <;> cases hs <;> exact List.prefix_rfl
  case suspendCas k c head =>
    cases head <;> simp only at hs
    case null | cancelled => split at hs <;> cases hs <;> exact List.prefix_rfl
    all_goals
      cases hs
      exact List.prefix_rfl
  case destroyCas c head =>
    cases head <;> simp only at hs
    case awaiting | cancelled => split at hs <;> cases hs <;> exact List.prefix_rfl
    all_goals
      cases hs
      exact List.prefix_rfl
  case destroy c =>
    split at hs <;> cases hs
    exact List.prefix_rfl
  all_goals
    cases hs
    try exact List.prefix_rfl

theorem pushStep_delivered {i : Nat} {sp : Bool} (hs : pushStep g i sp = some g') :
    g'.delivered = g.delivered := by
  cases hp : g.tasks i <;> simp only [pushStep, hp] at hs
  case pushCas v head =>
    cases head <;> simp only at hs
    case detached =>
      cases hs
      rfl
    all_goals split at hs <;> cases hs <;> rfl
  all_goals
    cases hs
    try rfl

/-- Results are consumed for good. -/
theorem step_delivered {a : Act α} (ha : a.ofBody = true ∨ a.ofTask = true)
    (hs : (group α).step g a = some g') : g.delivered <+: g'.delivered := by
  cases a <;> simp only [group] at hs
  case add | complete i v =>
    split at hs <;> cases hs
    exact List.prefix_rfl
  case ready =>
    split at hs <;> cases hs
    unfold State.ready
    split <;> exact List.prefix_rfl
  case await k =>
    unfold awaitStep at hs
    split at hs
    · split at hs
      · cases hs
        exact List.prefix_rfl
      · split at hs <;> cases hs
        · exact List.prefix_rfl
        all_goals
          unfold State.awaitReadyAssert
          split <;> exact List.prefix_rfl
    · cases hs
  case owner tok sp => exact ownerStep_delivered hs
  case push i sp => rw [pushStep_delivered hs]
  case destroy | detach | cancel => rcases ha with h | h <;> cases h

/-- Every task is done, and its result was delivered. -/
structure Settled (g : State α) : Prop where
  tasks : ∀ i, i < g.nextIndex → ∃ v, g.tasks i = .done v ∧ ⟨i, v⟩ ∈ g.delivered
  absent : ∀ i, g.nextIndex ≤ i → g.tasks i = .absent
  delivered : g.delivered = g.pushed
  once : (g.delivered.map Node.index).Nodup
  length : g.delivered.length = g.nextIndex
  dropped : g.dropped = []
  late : g.late = []

/-- As many different numbers below `n` as there are, are all of them. -/
theorem mem_of_nodup_of_length {l : List Nat} {n i : Nat} (hn : l.Nodup)
    (hlt : ∀ x ∈ l, x < n) (hlen : l.length = n) (hi : i < n) : i ∈ l := by
  have hsub : l.toFinset ⊆ Finset.range n := by
    intro x hx
    exact Finset.mem_range.mpr (hlt x (List.mem_toFinset.mp hx))
  have heq : l.toFinset = Finset.range n := by
    refine Finset.eq_of_subset_of_card_le hsub ?_
    rw [List.toFinset_card_of_nodup hn, Finset.card_range, hlen]
  rw [← List.mem_toFinset, heq]
  exact Finset.mem_range.mpr hi

/-- If no task is left to be awaited, all are settled. -/
theorem settled_of_count (hr : (group α).ReachableIf NextOnly g) (ho : g.owner = .idle)
    (hc : g.count = 0) : Settled g ∧ g.waiting = [] := by
  obtain ⟨hr, -⟩ := cancelOk_of_nextOnly hr
  have hi := reachable_inv hr
  have hn := reachable_nodes hr
  have hne : g.owner ≠ .detached := by simp [ho]
  have hdrop := hn.dropped hne
  have hlate := hn.late hne
  have hcount := hn.count
  have hlen := hn.length_le hi
  have horder := hn.order
  have hnd := hn.nodup
  rw [hdrop, List.append_nil] at horder
  rw [hlate, List.append_nil] at hnd
  have hwait : g.waiting = [] := by
    rw [horder, List.length_append] at hlen
    exact List.length_eq_zero_iff.mp (by omega)
  rw [hwait, List.append_nil] at horder
  refine ⟨⟨?_, hi.fresh, horder.symm, horder ▸ hnd, by omega, hdrop, hlate⟩, hwait⟩
  intro i hilt
  have hmem : i ∈ g.pushed.map Node.index := by
    refine mem_of_nodup_of_length hnd ?_ (by rw [List.length_map, horder]; omega) hilt
    intro x hx
    obtain ⟨n, hnm, rfl⟩ := List.mem_map.mp hx
    by_contra hge
    have hf := (hn.mem n).mp (by rw [hlate, List.append_nil]; exact hnm)
    rw [hi.fresh n.index (by omega)] at hf
    cases hf
  obtain ⟨n, hnm, rfl⟩ := List.mem_map.mp hmem
  have hf := (hn.mem n).mp (by rw [hlate, List.append_nil]; exact hnm)
  refine ⟨n.value, ?_, horder ▸ hnm⟩
  have hok := hi.owner
  rw [ho] at hok
  cases ht : g.tasks n.index <;> rw [ht] at hf <;> simp [Pusher.finished] at hf
  · rename_i v
    have := (hi.hand n.index v).mp ht
    rw [hok.2.1] at this
    cases this
  · rw [hf]

/-- Settled tasks make no more steps. -/
theorem Settled.no_task {a : Act α} (h : Settled g) (ha : a.ofTask = true) :
    (group α).step g a = none := by
  have htask : ∀ i, g.tasks i = .absent ∨ ∃ v, g.tasks i = .done v := by
    intro i
    rcases Nat.lt_or_ge i g.nextIndex with hi | hi
    · obtain ⟨v, hv, -⟩ := h.tasks i hi
      exact .inr ⟨v, hv⟩
    · exact .inl (h.absent i hi)
  cases a with
  | complete i v => rcases htask i with ht | ⟨w, ht⟩ <;> simp [group, ht]
  | push i sp => rcases htask i with ht | ⟨w, ht⟩ <;> simp [group, pushStep, ht]
  | _ => cases ha

/-- Destroying the group throws nothing away. -/
theorem Settled.detach (h : Settled g) (hw : g.waiting = []) : Settled g.detach := by
  have hnil : g.readyQueue ++ g.lastReady.list.reverse = [] := by
    simp only [State.waiting, List.append_eq_nil_iff] at hw
    rw [hw.1.1, hw.2, List.append_nil]
  refine ⟨h.tasks, h.absent, h.delivered, h.once, h.length, ?_, h.late⟩
  simp only [State.detach]
  rw [hnil, h.dropped, List.append_nil]

-- ============================================================================
-- The invariant
-- ============================================================================

variable {ε β : Type*} {s s' : Scope α ε β}

/-- What is known of the callback's outcome. -/
def Place.Outcome (r result : Option (Except ε β)) : Place ε → Prop
  | .start | .body => result = none
  | .unwind none => r = result ∧ ∃ v, result = some (.ok v)
  | .unwind (some e) => result = some (.error e)
  | .stop | .drain | .leave | .finished => r = result ∧ result.isSome

/-- What is known of the group. -/
def Place.Group (g : State α) : Place ε → Prop
  | .leave => g.owner = .idle ∧ g.count = 0
  | .finished => Settled g
  | _ => True

/-- The group's stop was requested by the coroutine itself. -/
def Place.afterStop : Place ε → Bool
  | .drain | .leave | .finished => true
  | _ => false

/-- The callback has ended. -/
def Place.afterBody : Place ε → Bool
  | .start | .body => false
  | _ => true

structure ScopeInv (s : Scope α ε β) : Prop where
  reach : (group α).ReachableIf NextOnly s.group
  outcome : s.place.Outcome s.r s.result
  known : s.place.Group s.group
  afterStop : s.place.afterStop = true → s.stopped = true
  byCallback : s.place.afterBody = true → s.byCallback <+: s.group.delivered
  invoked : s.propagate = .invoked → s.stopped = true
  taken : s.propagate = .taken → s.caller = true
  body : s.place = .body → s.propagate ≠ .off ∧ s.propagate ≠ .removed

theorem Act.nextOnly {a : Act α} (ha : a.ofBody = true ∨ a.ofTask = true) : NextOnly g a := by
  cases a with
  | await k => cases k <;> simp_all [NextOnly, Act.ofBody, Act.ofTask]
  | _ => trivial

/-- A step of the group in a place where nothing is known of it. -/
theorem ScopeInv.use {a : Act α} (hi : ScopeInv s) (ha : a.ofBody = true ∨ a.ofTask = true)
    (hg : s.place.Group g') (hs : (group α).step s.group a = some g') :
    ScopeInv { s with group := g' } := by
  obtain ⟨reach, outcome, -, afterStop, byCallback, invoked, taken, body⟩ := hi
  refine ⟨.step a reach (Act.nextOnly ha) hs, outcome, hg, afterStop, ?_, invoked, taken, body⟩
  intro hp
  exact (byCallback hp).trans (step_delivered ha hs)

/-- A task makes a step only while the group is in use. -/
theorem ScopeInv.group_of_task {a : Act α} (hi : ScopeInv s) (ha : a.ofTask = true)
    (hs : (group α).step s.group a = some g') : s.place.Group g' := by
  have hk := hi.known
  cases hp : s.place <;> rw [hp] at hk <;> try trivial
  case leave =>
    rw [(settled_of_count hi.reach hk.1 hk.2).1.no_task ha] at hs
    cases hs
  case finished =>
    rw [Settled.no_task hk ha] at hs
    cases hs

theorem scope_step_inv {a : ScopeAct α ε β} (hi : ScopeInv s)
    (hs : (withTaskGroup α ε β).step s a = some s') : ScopeInv s' := by
  cases a <;> simp only [withTaskGroup] at hs
  case arm =>
    obtain ⟨reach, outcome, known, afterStop, byCallback, invoked, taken, body⟩ := hi
    split at hs
    · rename_i hp
      rw [hp] at outcome
      split at hs <;> cases hs <;>
        exact ⟨reach, outcome, trivial, by simp [Place.afterStop], by simp [Place.afterBody],
          by simp, by simp, by simp⟩
    · cases hs
  case body a =>
    split at hs
    · rename_i hp
      split at hs
      · rename_i ha
        obtain ⟨g, hg, rfl⟩ := Option.map_eq_some_iff.mp hs
        exact hi.use (.inl ha) (by rw [hp]; trivial) hg
      · cases hs
    · cases hs
  case finish o =>
    obtain ⟨reach, outcome, known, afterStop, byCallback, invoked, taken, body⟩ := hi
    split at hs
    · cases o <;> cases hs
      · exact ⟨reach, rfl, trivial, by simp [Place.afterStop], fun _ => List.prefix_rfl,
          invoked, taken, by simp⟩
      · exact ⟨reach, ⟨rfl, _, rfl⟩, trivial, by simp [Place.afterStop],
          fun _ => List.prefix_rfl, invoked, taken, by simp⟩
    · cases hs
  case disarm =>
    obtain ⟨reach, outcome, known, afterStop, byCallback, invoked, taken, body⟩ := hi
    split at hs
    · rename_i e hp
      rw [hp] at outcome byCallback
      split at hs
      · cases hs
      · cases e with
        | none =>
            cases hs
            obtain ⟨hr, v, hv⟩ := outcome
            exact ⟨reach, ⟨hr, by rw [hv]; rfl⟩, trivial, by simp [Place.afterStop], byCallback,
              by simp, by simp, by simp⟩
        | some e =>
            cases hs
            exact ⟨reach, ⟨Eq.symm outcome, by rw [show s.result = _ from outcome]; rfl⟩, trivial,
              by simp [Place.afterStop], byCallback, by simp, by simp, by simp⟩
    · cases hs
  case requestStop =>
    obtain ⟨reach, outcome, known, afterStop, byCallback, invoked, taken, body⟩ := hi
    split at hs
    · rename_i hp
      cases hs
      rw [hp] at outcome byCallback
      exact ⟨reach, outcome, trivial, fun _ => rfl, byCallback, fun _ => rfl, taken, by simp⟩
    · cases hs
  case loop =>
    split at hs
    · rename_i hp ho
      split at hs
      · rename_i hc
        cases hs
        obtain ⟨reach, outcome, known, afterStop, byCallback, invoked, taken, body⟩ := hi
        rw [hp] at outcome byCallback afterStop
        exact ⟨reach, outcome, ⟨ho, hc⟩, afterStop, byCallback, invoked, taken, by simp⟩
      · obtain ⟨g, hg, rfl⟩ := Option.map_eq_some_iff.mp hs
        exact hi.use (.inl rfl) (by rw [hp]; trivial) hg
    · cases hs
  case await sp =>
    split at hs
    · rename_i hp
      obtain ⟨g, hg, rfl⟩ := Option.map_eq_some_iff.mp hs
      exact hi.use (.inl rfl) (by rw [hp]; trivial) hg
    · cases hs
  case leave =>
    split at hs
    · rename_i hp
      obtain ⟨g, hg, rfl⟩ := Option.map_eq_some_iff.mp hs
      obtain ⟨reach, outcome, known, afterStop, byCallback, invoked, taken, body⟩ := hi
      rw [hp] at outcome byCallback afterStop known
      obtain ⟨hset, hw⟩ := settled_of_count reach known.1 known.2
      have hg' : g = s.group.detach := by
        simp only [group, known.1] at hg
        exact (Option.some.inj hg).symm
      subst hg'
      exact ⟨.step .detach reach trivial hg, outcome, hset.detach hw, afterStop, byCallback,
        invoked, taken, by simp⟩
    · cases hs
  case task a =>
    split at hs
    · rename_i ha
      obtain ⟨g, hg, rfl⟩ := Option.map_eq_some_iff.mp hs
      exact hi.use (.inr ha) (hi.group_of_task ha hg) hg
    · cases hs
  case stopCaller =>
    cases hs
    exact { hi with taken := fun _ => rfl }
  case take =>
    split at hs
    · rename_i hc
      cases hs
      exact { hi with invoked := by simp, taken := fun _ => hc.1, body := by simp }
    · cases hs
  case invoke =>
    split at hs
    · cases hs
      exact { hi with
        afterStop := fun _ => rfl
        invoked := fun _ => rfl
        taken := by simp
        body := by simp }
    · cases hs

theorem reachable_scopeInv (h : (withTaskGroup α ε β).Reachable s) : ScopeInv s := by
  refine h.invariant ?_ ?_
  · rintro s rfl
    exact ⟨.init rfl, rfl, trivial, by simp [Scope.start, Place.afterStop],
      by simp [Scope.start, Place.afterBody], by simp [Scope.start], by simp [Scope.start],
      by simp [Scope.start]⟩
  · intro s a s' hi _ hs
    exact scope_step_inv hi hs

-- ============================================================================
-- Structured concurrency
-- ============================================================================

/-- What is left of the caller's `request_stop` stops the group, whatever the
    callback does meanwhile. -/
theorem ScopeInv.propagates (hi : ScopeInv s) (hp : s.place = .body) (hc : s.caller = true) :
    s.stopped = true ∨
      (s.propagate = .armed ∨ s.propagate = .taken) ∧ ∃ as s',
        as ∈ [[ScopeAct.take, .invoke], [.invoke]] ∧
        (withTaskGroup α ε β).run s as = some s' ∧ s'.stopped = true := by
  obtain ⟨hoff, hrem⟩ := hi.body hp
  cases hs : s.propagate with
  | off => exact absurd hs hoff
  | armed =>
      refine .inr ⟨.inl rfl, [.take, .invoke], { s with propagate := .invoked, stopped := true },
        by simp, ?_, rfl⟩
      simp [System.run, withTaskGroup, hc, hs]
  | taken =>
      refine .inr ⟨.inr rfl, [.invoke], { s with propagate := .invoked, stopped := true },
        by simp, ?_, rfl⟩
      simp [System.run, withTaskGroup, hs]
  | invoked => exact .inl (hi.invoked hs)
  | removed => exact absurd hs hrem

/-- `with_task_group` finishes after every added task pushed its result and
    each result was consumed once, by the callback or by the loop that drains
    the group; the group is stopped before the loop awaits, and by the caller's
    `request_stop` while the callback runs; and the outcome is the callback's. -/
theorem withTaskGroup_structured :
    (∀ s : Scope α ε β, (withTaskGroup α ε β).Reachable s → s.place = .finished →
      Settled s.group ∧ ∃ drained, s.group.delivered = s.byCallback ++ drained) ∧
    (∀ s : Scope α ε β, (withTaskGroup α ε β).Reachable s →
      s.place = .drain ∨ s.place = .leave ∨ s.place = .finished → s.stopped = true) ∧
    (∀ s : Scope α ε β, (withTaskGroup α ε β).Reachable s → s.place = .body → s.caller = true →
      s.stopped = true ∨
        (s.propagate = .armed ∨ s.propagate = .taken) ∧ ∃ as s',
          as ∈ [[ScopeAct.take, .invoke], [.invoke]] ∧
          (withTaskGroup α ε β).run s as = some s' ∧ s'.stopped = true) ∧
    (∀ s : Scope α ε β, (withTaskGroup α ε β).Reachable s → s.place = .finished →
      ∃ o, s.result = some o ∧ s.r = some o) := by
  refine ⟨?_, ?_, ?_, ?_⟩
  · intro s h hp
    have hi := reachable_scopeInv h
    have hk := hi.known
    rw [hp] at hk
    obtain ⟨drained, hd⟩ := hi.byCallback (by rw [hp]; rfl)
    exact ⟨hk, drained, hd.symm⟩
  · intro s h hp
    refine (reachable_scopeInv h).afterStop ?_
    rcases hp with hp | hp | hp <;> rw [hp] <;> rfl
  · intro s h hp hc
    exact (reachable_scopeInv h).propagates hp hc
  · intro s h hp
    have ho := (reachable_scopeInv h).outcome
    rw [hp] at ho
    obtain ⟨hr, hsome⟩ := ho
    obtain ⟨o, ho⟩ := Option.isSome_iff_exists.mp hsome
    exact ⟨o, ho, hr.trans ho⟩

end Coroactors.TaskGroup
