/-
  Coroactors.TaskLocal.Lexical

  Task locals are lexically scoped: `get` agrees with the environments of
  Coroactors.TaskLocal.Model in every reachable state, and every `with_value`
  leaves the list of its task as it found it.
-/

import Coroactors.TaskLocal.Scoped

namespace Coroactors.TaskLocal

open Coroactors.Conc

variable {K V : Type*}

-- ============================================================================
-- Steps
-- ============================================================================

section Steps

variable {s s' : State K V} {th t : Nat} {k : Task K V} {rest : List (Frame K V)}

theorem State.current_eq (h : s.current th = some (t, k)) : s.tasks t = some k := by
  unfold State.current at h
  split at h
  · cases h
  · obtain ⟨k', hk', heq⟩ := Option.map_eq_some_iff.mp h
    cases heq
    exact hk'

theorem State.body_eq (h : s.body th = some (t, k, rest)) :
    s.tasks t = some k ∧ k.frames = .call :: rest := by
  obtain ⟨⟨t', k'⟩, hc, h⟩ := Option.bind_eq_some_iff.mp h
  simp only at h
  split at h
  · rename_i hf
    cases h
    exact ⟨State.current_eq hc, hf⟩
  · cases h

/-- A coroutine below another one stays below when more are put on top. -/
theorem under_push {f : Frame K V} {frames above below : List (Frame K V)}
    (h : frames = above ++ f :: below) (top : List (Frame K V)) :
    ∃ above', top ++ frames = above' ++ f :: below :=
  ⟨top ++ above, by rw [h, List.append_assoc]⟩

/-- And it stays when the innermost one, which is another one, ends. -/
theorem under_pop {f a : Frame K V} {frames above below : List (Frame K V)}
    (h : a :: frames = above ++ f :: below) (hne : a ≠ f) : ∃ above', frames = above' ++ f :: below := by
  cases above with
  | nil => exact absurd (List.cons.inj h).1 hne
  | cons b above => exact ⟨above, (List.cons.inj h).2⟩

variable [DecidableEq K]

theorem Inv.call (h : Inv s) (hb : s.body th = some (t, k, rest)) :
    Inv (s.setTask t { k with frames := .call :: .call :: rest }) := by
  obtain ⟨hk, hframes⟩ := State.body_eq hb
  refine h.sameBindings hk rfl rfl rfl rfl rfl rfl rfl rfl rfl rfl ?_ ?_ ?_
  · rw [hframes]
    rfl
  · intro above x key v f below hf
    rw [hframes]
    exact under_pop hf (by simp)
  · intro above g below _ hf
    rw [hframes] at hf
    exact under_push hf [.call]

theorem Inv.pushLocal (h : Inv s) (hb : s.body th = some (t, k, rest)) {addr : Nat} {key : K}
    {value : V} (haddr : s.nodes addr = none) :
    Inv (s.pushLocal t
      { k with frames := .call :: .withValue addr key value k.bindings :: .call :: rest }
      addr ⟨none, key, value⟩) := by
  obtain ⟨hk, hframes⟩ := State.body_eq hb
  have hok := h.task t k hk
  -- every list is made of nodes that are alive
  have hnew : ∀ u k₁, s.tasks u = some k₁ → ∀ b ∈ k₁.bindings, b.addr ≠ addr := by
    intro u k₁ hu b hb hba
    exact (h.task u k₁ hu).linked.alive hb (hba ▸ haddr)
  have hbindings : k.bindings = ownBindings rest ++ k.inherited := by
    rw [Task.bindings, hframes]
    rfl
  refine h.frames hk rfl rfl rfl rfl rfl rfl ⟨?_, ?_, hok.root, ?_⟩ ?_ ?_ ?_ ?_
  · rfl
  · refine ⟨?_, ?_⟩
    · simp only [State.pushLocal, Function.update_self, hok.locals, hbindings]
      rfl
    · have hlinked := hok.linked.update (some ⟨k.locals, key, value⟩) (hnew t k hk)
      rw [hbindings] at hlinked
      exact hlinked
  · intro above x key' v f below hf
    obtain ⟨above, hf⟩ := under_pop hf (by simp)
    cases above with
    | nil =>
        obtain ⟨hx, rfl⟩ := List.cons.inj hf
        cases hx
        exact hbindings
    | cons a above =>
        have hold := (List.cons.inj hf).2
        rw [← hframes] at hold
        exact hok.found above x key' v f below hold
  · intro u k₁ _ hu
    exact (h.task u k₁ hu).linked.update _ (hnew u k₁ hu)
  · intro above g below _ hf
    rw [hframes] at hf
    exact under_push hf [.call, .withValue addr key value k.bindings]
  · refine h.custody.add (a := addr) (q := t) (fun hn => hn haddr) ?_ (fun u hu => ?_) fun b => ?_
    · rw [State.held_of_task hk, State.held_of_task (Function.update_self t _ s.tasks), hframes]
      simp [ownBindings]
    · simp [State.held, State.pushLocal, Function.update_of_ne hu]
    · by_cases hba : b = addr
      · simp [hba, State.pushLocal]
      · simp [hba, State.pushLocal]
  · have hne : k.locals ≠ some addr := by
      rw [hok.locals]
      intro hhead
      obtain ⟨b, hb, hba⟩ := Option.map_eq_some_iff.mp hhead
      exact hnew t k hk b (List.mem_of_mem_head? hb) hba
    simp [State.pushLocal, h.noAssert, hne]

theorem Inv.withTaskGroup (h : Inv s) (hb : s.body th = some (t, k, rest)) :
    Inv { s.setTask t { k with frames := .call :: .withTaskGroup s.nextGroup :: .call :: rest } with
      groups := Function.update s.groups s.nextGroup
        (some ⟨k.locals, [], some t, k.env, k.bindings⟩)
      nextGroup := s.nextGroup + 1 } := by
  obtain ⟨hk, hframes⟩ := State.body_eq hb
  have hok := h.task t k hk
  have h₁ : Inv (s.setTask t
      { k with frames := .call :: .withTaskGroup s.nextGroup :: .call :: rest }) := by
    refine h.sameBindings hk rfl rfl rfl rfl rfl rfl rfl rfl rfl rfl ?_ ?_ ?_
    · rw [hframes]
      rfl
    · intro above x key v f below hf
      rw [hframes]
      obtain ⟨above, hf⟩ := under_pop hf (by simp)
      exact under_pop hf (by simp)
    · intro above g below _ hf
      rw [hframes] at hf
      exact under_push hf [.call, .withTaskGroup s.nextGroup]
  refine h₁.addGroup (G := ⟨k.locals, [], some t, k.env, k.bindings⟩) ⟨hok.locals, ?_, ?_⟩ rfl ?_
  · exact envOf_eq_lookup hok.root k.frames
  · intro hnone
    cases hnone
  · intro w hw
    cases hw
    refine ⟨_, [.call], .call :: rest, Function.update_self t _ s.tasks, rfl, ?_⟩
    simp only [Task.bindings, hframes]

/-- The last coroutine of a task ends. -/
theorem Inv.finishTask (h : Inv s) (hk : s.tasks t = some k) (hframes : k.frames = [.call]) :
    Inv (s.endTask th t k) := by
  have h₁ : Inv { s with
      tasks := Function.update s.tasks t none
      stack := Function.update s.stack th (s.stack th).tail } := by
    refine h.endTask hk (by rw [hframes]; rfl) (fun above g below hf => ?_) _
    rw [hframes] at hf
    obtain ⟨above', hf'⟩ := under_pop hf (by simp)
    simp at hf'
  unfold State.endTask
  cases hgroup : k.group with
  | none => exact h₁
  | some g =>
      simp only
      cases hG : s.groups g with
      | none =>
          have hsame : Function.update s.groups g none = s.groups :=
            Function.update_eq_self_iff.mpr hG.symm
          rw [Option.map_none, hsame]
          exact h₁
      | some G =>
          refine h₁.setRunning hG (G.running.erase t) (fun w m hw hm => ?_) fun u k₁ hu hm => ?_
          · exact h.younger g G w m hG hw (List.mem_of_mem_erase hm)
          · exact (List.mem_erase_of_ne (eq_some_of_erase hu).1).mpr hm

/-- A body returns to the coroutine that awaits it. -/
theorem Inv.finishCall (h : Inv s) (hk : s.tasks t = some k) (hframes : k.frames = .call :: rest) :
    Inv (s.setTask t { k with frames := rest }) := by
  refine h.sameBindings hk rfl rfl rfl rfl rfl rfl rfl rfl rfl rfl ?_ ?_ ?_
  · rw [hframes]
    rfl
  · intro above x key v f below hf
    rw [hframes]
    exact under_push hf [.call]
  · intro above g below _ hf
    rw [hframes] at hf
    exact under_pop hf (by simp)

/-- The node of the innermost coroutine. -/
theorem Inv.top_node (h : Inv s) (hk : s.tasks t = some k) {x : Nat} {key : K} {v : V}
    {f : List (Binding K V)} (hframes : k.frames = .withValue x key v f :: rest) :
    k.locals = some x ∧ f = ownBindings rest ++ k.inherited ∧
      s.nodes x = some ⟨headPtr f, key, v⟩ := by
  have hok := h.task t k hk
  have hf := hok.found [] x key v f rest hframes
  have hbindings : k.bindings = ⟨x, key, v⟩ :: f := by
    rw [Task.bindings, hframes, hf]
    rfl
  refine ⟨by rw [hok.locals, hbindings]; rfl, hf, ?_⟩
  have hlinked := hok.linked
  rw [hbindings] at hlinked
  exact hlinked.1

theorem Inv.popLocal (h : Inv s) (hk : s.tasks t = some k) {x : Nat} {key : K} {v : V}
    {f : List (Binding K V)} (hframes : k.frames = .withValue x key v f :: rest) :
    Inv (s.popLocal t { k with frames := rest } x ⟨headPtr f, key, v⟩) := by
  have hok := h.task t k hk
  obtain ⟨hlocals, hf, hx⟩ := h.top_node hk hframes
  obtain ⟨hself, hothers⟩ := h.top_apart hk hframes
  have hbindings : k.bindings = ⟨x, key, v⟩ :: (ownBindings rest ++ k.inherited) := by
    rw [Task.bindings, hframes]
    rfl
  refine h.frames hk rfl rfl rfl rfl rfl rfl ⟨?_, ?_, hok.root, ?_⟩ ?_ ?_ ?_ ?_
  · rw [hf]
    rfl
  · have hlinked := hok.linked
    rw [hbindings] at hlinked
    exact hlinked.2.update none hself
  · intro above y key' v' f' below hy
    obtain ⟨above', hy'⟩ := under_push hy [.withValue x key v f]
    refine hok.found above' y key' v' f' below ?_
    rw [hframes]
    exact hy'
  · intro u k₁ hut hu
    exact (h.task u k₁ hu).linked.update none (hothers u k₁ hut hu)
  · intro above g below _ hg
    rw [hframes] at hg
    exact under_pop hg (by simp)
  · refine h.custody.remove (a := x) (q := t) ?_ (fun u hu => ?_) fun b => ?_
    · rw [State.held_of_task hk, State.held_of_task (Function.update_self t _ s.tasks), hframes]
      simp [ownBindings]
    · simp [State.held, State.popLocal, Function.update_of_ne hu]
    · by_cases hbx : b = x
      · simp [hbx, State.popLocal]
      · simp [hbx, State.popLocal]
  · simp [State.popLocal, h.noAssert, hlocals]

/-- The scope of a group ends after its tasks. -/
theorem Inv.finishGroup (h : Inv s) (hk : s.tasks t = some k) {g : Nat} {G : Group K V}
    (hframes : k.frames = .withTaskGroup g :: rest) (hG : s.groups g = some G)
    (hrunning : G.running = []) :
    Inv { s.setTask t { k with frames := rest } with
      groups := Function.update s.groups g none } := by
  have h₁ := h.dropGroup hG (.inl hrunning)
  refine h₁.sameBindings (t := t) hk rfl rfl rfl rfl rfl rfl rfl rfl rfl rfl ?_ ?_ ?_
  · rw [hframes]
    rfl
  · intro above x key v f below hf
    rw [hframes]
    exact under_push hf [.withTaskGroup g]
  · intro above g' below hg' hf
    rw [hframes] at hf
    refine under_pop hf ?_
    rintro heq
    cases heq
    exact hg' (Function.update_self g _ s.groups)

theorem Inv.finish (h : Inv s) (hk : s.tasks t = some k) (hs : s.finish th t k = some s') :
    Inv s' := by
  unfold State.finish at hs
  split at hs
  · cases hs
  · rename_i hframes
    cases hs
    exact h.finishTask hk hframes
  · rename_i hframes
    cases hs
    exact h.finishCall hk hframes
  · rename_i x key v f rest hframes
    rw [(h.top_node hk hframes).2.2] at hs
    cases hs
    exact h.popLocal hk hframes
  · rename_i g rest hframes
    split at hs
    · cases hs
    · rename_i G hG
      split at hs
      · rename_i hrunning
        cases hs
        exact h.finishGroup hk hframes hG hrunning
      · cases hs

/-- A task leaves its thread or comes back. -/
theorem Inv.setActive (h : Inv s) (hk : s.tasks t = some k) (active : Bool)
    (stack : Nat → List Nat) :
    Inv { s.setTask t { k with active := active } with stack := stack } :=
  h.sameBindings hk rfl rfl rfl rfl rfl rfl rfl rfl rfl rfl rfl
    (fun above _ _ _ _ _ hf => ⟨above, hf⟩) fun above _ _ _ hf => ⟨above, hf⟩

theorem Inv.addTask (h : Inv s) {g : Nat} {G : Group K V} (hG : s.groups g = some G) :
    Inv (s.addTask th g G) := by
  have hGok := h.group g G hG
  have hlinked : Linked s.nodes G.bindings := by
    cases hw : G.scope with
    | none =>
        rw [hGok.plain hw]
        trivial
    | some w =>
        obtain ⟨W, above, below, hW, hframes, hbindings⟩ := h.scope g G w hG hw
        have hlist := (h.task w W hW).linked
        rw [Task.bindings, hframes, ownBindings_append, List.append_assoc] at hlist
        rw [hbindings]
        exact hlist.of_append
  have h₁ := h.setRunning hG (s.nextTask :: G.running) (fun w m hw hm => ?_)
    fun u k₁ _ hu => List.mem_cons_of_mem _ hu
  · refine h₁.start th ⟨hGok.locals, hlinked, hGok.env, ?_⟩ rfl (.inr ?_)
    · intro above x key v f below hf
      obtain ⟨above', hf'⟩ := under_pop hf (by simp)
      simp at hf'
    · exact ⟨g, _, rfl, Function.update_self g _ s.groups, List.mem_cons_self, rfl⟩
  · rcases List.mem_cons.mp hm with rfl | hm
    · obtain ⟨W, above, below, hW, -, -⟩ := h.scope g G w hG hw
      by_contra hlt
      simp [h.freshTask w (Nat.le_of_not_lt hlt)] at hW
    · exact h.younger g G w m hG hw hm

theorem Inv.detach (h : Inv s) :
    Inv (s.start th ⟨none, [.call], true, none, emptyEnv, []⟩) := by
  refine h.start th ⟨rfl, trivial, fun _ => rfl, ?_⟩ rfl (.inl rfl)
  intro above x key v f below hf
  obtain ⟨above', hf'⟩ := under_pop hf (by simp)
  simp at hf'

theorem Inv.step (h : Inv s) (a : Act K V) (hs : step s a = some s') : Inv s' := by
  cases a with
  | detach th =>
      simp only [TaskLocal.step, Option.ite_none_right_eq_some, Option.some.injEq] at hs
      exact hs.2 ▸ h.detach
  | call th =>
      obtain ⟨⟨t, k, rest⟩, hb, hs⟩ := Option.bind_eq_some_iff.mp hs
      cases hs
      exact h.call hb
  | withValue th addr key value =>
      obtain ⟨⟨t, k, rest⟩, hb, hs⟩ := Option.bind_eq_some_iff.mp hs
      simp only at hs
      split at hs
      · cases hs
      · rename_i haddr
        cases hs
        exact h.pushLocal hb (by simpa using haddr)
  | withTaskGroup th =>
      obtain ⟨⟨t, k, rest⟩, hb, hs⟩ := Option.bind_eq_some_iff.mp hs
      cases hs
      exact h.withTaskGroup hb
  | taskGroup =>
      cases hs
      refine h.addGroup ⟨rfl, fun _ => rfl, fun _ => rfl⟩ rfl fun w hw => ?_
      cases hw
  | dropGroup g =>
      obtain ⟨G, hG, hs⟩ := Option.bind_eq_some_iff.mp hs
      simp only at hs
      split at hs
      · cases hs
      · rename_i hscope
        cases hs
        exact h.dropGroup hG (.inr ((h.group g G hG).plain (by simpa using hscope)))
  | add th g =>
      obtain ⟨G, hG, hs⟩ := Option.bind_eq_some_iff.mp hs
      simp only [Option.ite_none_right_eq_some, Option.some.injEq] at hs
      exact hs.2 ▸ h.addTask hG
  | finish th =>
      obtain ⟨⟨t, k⟩, hc, hs⟩ := Option.bind_eq_some_iff.mp hs
      exact h.finish (State.current_eq hc) hs
  | suspend th =>
      obtain ⟨⟨t, k⟩, hc, hs⟩ := Option.bind_eq_some_iff.mp hs
      cases hs
      exact h.setActive (State.current_eq hc) false _
  | resume th t =>
      obtain ⟨k, hk, hs⟩ := Option.bind_eq_some_iff.mp hs
      simp only at hs
      split at hs
      · cases hs
      · cases hs
        exact h.setActive hk true _

theorem Inv.initial (h : s.Initial) : Inv s := by
  obtain ⟨hnodes, htasks, hgroups, -, hassert⟩ := h
  refine ⟨?_, ?_, ?_, ?_, ?_, ?_, fun t _ => htasks t, fun g _ => hgroups g, hassert⟩
  · simp [htasks]
  · simp [hgroups]
  · simp [hgroups]
  · simp [hgroups]
  · simp [htasks]
  · have hheld : ∀ t, s.held t = [] := fun t => by simp [State.held, htasks]
    simpa [hnodes] using Custody.empty hheld

theorem inv_of_reachable (h : system.Reachable s) : Inv s :=
  h.invariant (fun _ => Inv.initial) fun _ a _ hi _ hs => hi.step a hs

end Steps

-- ============================================================================
-- Scoping
-- ============================================================================

section Results

variable [DecidableEq K] {s : State K V}

/-- `get` returns what the reference says, after as many steps of its loop as
    there are bindings. -/
theorem Inv.get_eq (h : Inv s) (th : Nat) (key : K) (defaultValue : V) :
    ∃ n, ∀ fuel, n ≤ fuel →
      s.get th key defaultValue fuel = some (s.expected th key defaultValue) := by
  cases hc : s.current th with
  | none =>
      refine ⟨0, fun fuel _ => ?_⟩
      simp [State.get, State.findTaskLocal, State.expected, hc]
  | some c =>
      obtain ⟨t, k⟩ := c
      have hok := h.task t k (State.current_eq hc)
      refine ⟨k.bindings.length + 1, fun fuel hfuel => ?_⟩
      have hfind := hok.linked.findLocal_eq key hfuel
      have henv : k.env key = lookup key k.bindings := envOf_eq_lookup hok.root k.frames key
      simp [State.get, State.findTaskLocal, State.expected, hc, hok.locals, hfind, henv]

/-- The end of a `with_value`. -/
theorem Inv.finish_withValue (h : Inv s) {th t x : Nat} {k : Task K V} {key : K} {v : V}
    {f : List (Binding K V)} {rest : List (Frame K V)} (hc : s.current th = some (t, k))
    (hframes : k.frames = .withValue x key v f :: rest) :
    ∃ s' k', system.step s (.finish th) = some s' ∧ s'.tasks t = some k' ∧ k'.frames = rest ∧
      k'.locals = headPtr f ∧ Linked s'.nodes f := by
  have hk := State.current_eq hc
  obtain ⟨-, hf, hx⟩ := h.top_node hk hframes
  have hstep : system.step s (.finish th) =
      some (s.popLocal t { k with frames := rest } x ⟨headPtr f, key, v⟩) := by
    simp [system, TaskLocal.step, hc, State.finish, hframes, hx]
  have hlinked := ((h.popLocal hk hframes).task t _ (Function.update_self t _ s.tasks)).linked
  refine ⟨_, _, hstep, Function.update_self t _ s.tasks, rfl, rfl, ?_⟩
  rw [hf]
  exact hlinked

/-- Task locals are lexically scoped.  In every reachable state no assertion
    has failed, `get` returns on every thread what the environment of the
    current task says, the list of every task consists of its bindings, and the
    end of a `with_value` leaves the list that it found. -/
theorem taskLocal_lexical :
    (∀ s : State K V, system.Reachable s → s.assertFailed = false) ∧
    (∀ s : State K V, system.Reachable s → ∀ th key defaultValue, ∃ n, ∀ fuel, n ≤ fuel →
      s.get th key defaultValue fuel = some (s.expected th key defaultValue)) ∧
    (∀ s : State K V, system.Reachable s → ∀ t k, s.tasks t = some k →
      k.locals = headPtr k.bindings ∧ Linked s.nodes k.bindings) ∧
    (∀ s : State K V, system.Reachable s → ∀ th t k x key v found rest,
      s.current th = some (t, k) → k.frames = .withValue x key v found :: rest →
      ∃ s' k', system.step s (.finish th) = some s' ∧ s'.tasks t = some k' ∧ k'.frames = rest ∧
        k'.locals = headPtr found ∧ Linked s'.nodes found) := by
  refine ⟨fun s hs => (inv_of_reachable hs).noAssert, fun s hs => (inv_of_reachable hs).get_eq,
    fun s hs t k hk => ?_, fun s hs th t k x key v found rest hc hf => ?_⟩
  · have hok := (inv_of_reachable hs).task t k hk
    exact ⟨hok.locals, hok.linked⟩
  · exact (inv_of_reachable hs).finish_withValue hc hf

-- a task added under `with_value(52)` sees the 51 around `with_task_group`
example : let s : State Nat Nat :=
    ⟨fun _ => none, fun _ => none, fun _ => none, fun _ => [], 0, 0, false⟩
    (system.run s [.detach 0, .withValue 0 7 1 51, .withTaskGroup 0, .withValue 0 8 1 52,
      .add 0 0]).bind (·.get 0 1 0 9) = some 51 := by
  rfl

end Results

end Coroactors.TaskLocal
