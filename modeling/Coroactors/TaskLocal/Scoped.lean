/-
  Coroactors.TaskLocal.Scoped

  The invariant of the lists of bindings.

  `Linked` says that a chain of nodes in memory is a list of bindings.  The
  invariant `Inv` says that `locals` of every task points to its bindings: those
  of its own coroutines, above those it inherited.  A pop changes a node that
  other lists could contain.  They do not, because what a task inherits lies
  below a coroutine of `with_task_group` that has not ended (`mem_inherited`),
  and a popped node lies above all of them.

  The second half says what has to be shown when one task or one group changes.
-/

import Coroactors.TaskLocal.Model
import Coroactors.Conc.Custody

namespace Coroactors.TaskLocal

open Coroactors.Conc

variable {K V : Type*}

/-- What a map holds after one entry was set. -/
theorem eq_some_of_update {α : Type*} {f : Nat → Option α} {a b : Nat} {v w : α}
    (h : Function.update f a (some v) b = some w) : b = a ∧ w = v ∨ b ≠ a ∧ f b = some w := by
  by_cases hb : b = a
  · rw [hb, Function.update_self] at h
    exact .inl ⟨hb, (Option.some.inj h).symm⟩
  · rw [Function.update_of_ne hb] at h
    exact .inr ⟨hb, h⟩

/-- What it holds after one was erased. -/
theorem eq_some_of_erase {α : Type*} {f : Nat → Option α} {a b : Nat} {w : α}
    (h : Function.update f a none b = some w) : b ≠ a ∧ f b = some w := by
  by_cases hb : b = a
  · simp [hb] at h
  · exact ⟨hb, by rwa [Function.update_of_ne hb] at h⟩

-- ============================================================================
-- Lists of nodes
-- ============================================================================

/-- A pointer to the first node of a list. -/
def headPtr (l : List (Binding K V)) : Option Nat := l.head?.map Binding.addr

/-- The nodes of a list are in memory, each with a pointer to the next one. -/
def Linked (nodes : Nat → Option (Node K V)) : List (Binding K V) → Prop
  | [] => True
  | b :: l => nodes b.addr = some ⟨headPtr l, b.key, b.value⟩ ∧ Linked nodes l

def lookup [DecidableEq K] (key : K) : List (Binding K V) → Option V
  | [] => none
  | b :: l => if key = b.key then some b.value else lookup key l

variable {nodes : Nat → Option (Node K V)} {l l' : List (Binding K V)}

theorem Linked.of_append (h : Linked nodes (l ++ l')) : Linked nodes l' := by
  induction l with
  | nil => exact h
  | cons b l ih => exact ih h.2

theorem Linked.alive (h : Linked nodes l) {b : Binding K V} (hb : b ∈ l) :
    nodes b.addr ≠ none := by
  induction l with
  | nil => cases hb
  | cons c l ih =>
      rcases List.mem_cons.mp hb with rfl | hb
      · simp [h.1]
      · exact ih h.2 hb

/-- A node outside of the list may change. -/
theorem Linked.update (h : Linked nodes l) {x : Nat} (n : Option (Node K V))
    (hx : ∀ b ∈ l, b.addr ≠ x) : Linked (Function.update nodes x n) l := by
  induction l with
  | nil => trivial
  | cons b l ih =>
      refine ⟨?_, ih h.2 fun c hc => hx c (List.mem_cons_of_mem b hc)⟩
      rw [Function.update_of_ne (hx b List.mem_cons_self)]
      exact h.1

/-- `find_local` in a list of nodes. -/
theorem Linked.findLocal_eq [DecidableEq K] (h : Linked nodes l) (key : K) {fuel : Nat}
    (hf : l.length < fuel) : findLocal nodes key fuel (headPtr l) = some (lookup key l) := by
  induction l generalizing fuel with
  | nil =>
      obtain ⟨fuel, rfl⟩ := Nat.exists_eq_succ_of_ne_zero (Nat.ne_of_gt hf)
      rfl
  | cons b l ih =>
      obtain ⟨fuel, rfl⟩ := Nat.exists_eq_succ_of_ne_zero (Nat.ne_of_gt (Nat.zero_lt_of_lt hf))
      have hrest := ih h.2 (Nat.lt_of_succ_lt_succ hf)
      simp only [headPtr, List.head?_cons, Option.map_some, findLocal, h.1, lookup]
      by_cases hk : key = b.key
      · simp [hk]
      · rw [if_neg (Ne.symm hk), if_neg hk]
        exact hrest

/-- The environment of a task is what its bindings say. -/
theorem envOf_eq_lookup [DecidableEq K] {root : K → Option V}
    (h : ∀ key, root key = lookup key l) (frames : List (Frame K V)) (key : K) :
    envOf root frames key = lookup key (ownBindings frames ++ l) := by
  induction frames with
  | nil => exact h key
  | cons f frames ih =>
      cases f with
      | call => exact ih
      | withValue x k v f =>
          simp only [envOf, ownBindings, List.cons_append, lookup]
          split
          · rfl
          · exact ih
      | withTaskGroup g => exact ih

theorem ownBindings_append (above below : List (Frame K V)) :
    ownBindings (above ++ below) = ownBindings above ++ ownBindings below := by
  induction above with
  | nil => rfl
  | cons f above ih => cases f <;> simp [ownBindings, ih]

-- ============================================================================
-- The invariant
-- ============================================================================

/-- The list of a task. -/
structure Task.Ok [DecidableEq K] (nodes : Nat → Option (Node K V)) (k : Task K V) : Prop where
  locals : k.locals = headPtr k.bindings
  linked : Linked nodes k.bindings
  root : ∀ key, k.root key = lookup key k.inherited
  found : ∀ above x key v f below, k.frames = above ++ .withValue x key v f :: below →
    f = ownBindings below ++ k.inherited

/-- What the tasks of a group inherit. -/
structure Group.Ok [DecidableEq K] (G : Group K V) : Prop where
  locals : G.inheritedLocals = headPtr G.bindings
  env : ∀ key, G.env key = lookup key G.bindings
  plain : G.scope = none → G.bindings = []

/-- The coroutine of `with_task_group` has not ended, and the bindings of the
    group are those below it. -/
def Scoped (s : State K V) (g : Nat) (G : Group K V) (w : Nat) : Prop :=
  ∃ W above below, s.tasks w = some W ∧ W.frames = above ++ .withTaskGroup g :: below ∧
    G.bindings = ownBindings below ++ W.inherited

/-- The task inherited from its group, which waits for it. -/
def Member (s : State K V) (t : Nat) (k : Task K V) : Prop :=
  ∃ g G, k.group = some g ∧ s.groups g = some G ∧ t ∈ G.running ∧ k.inherited = G.bindings

/-- The addresses of the nodes in the coroutines of a task, the newest last. -/
def State.held (s : State K V) (t : Nat) : List Nat :=
  match s.tasks t with
  | none => []
  | some k => ((ownBindings k.frames).map Binding.addr).reverse

theorem State.held_of_task {s : State K V} {t : Nat} {k : Task K V} (hk : s.tasks t = some k) :
    s.held t = ((ownBindings k.frames).map Binding.addr).reverse := by
  simp [State.held, hk]

theorem State.mem_held {s : State K V} {t : Nat} {k : Task K V} (hk : s.tasks t = some k)
    {b : Binding K V} (hb : b ∈ ownBindings k.frames) : b.addr ∈ s.held t := by
  rw [State.held_of_task hk, List.mem_reverse]
  exact List.mem_map_of_mem hb

structure Inv [DecidableEq K] (s : State K V) : Prop where
  task : ∀ t k, s.tasks t = some k → k.Ok s.nodes
  group : ∀ g G, s.groups g = some G → G.Ok
  scope : ∀ g G w, s.groups g = some G → G.scope = some w → Scoped s g G w
  younger : ∀ g G w m, s.groups g = some G → G.scope = some w → m ∈ G.running → w < m
  member : ∀ t k, s.tasks t = some k → k.inherited = [] ∨ Member s t k
  custody : Custody s.held fun x => s.nodes x ≠ none
  freshTask : ∀ t, s.nextTask ≤ t → s.tasks t = none
  freshGroup : ∀ g, s.nextGroup ≤ g → s.groups g = none
  noAssert : s.assertFailed = false

section Facts

variable [DecidableEq K] {s : State K V} {t : Nat} {k : Task K V}

/-- What a task inherits is below a `with_task_group` of some task. -/
theorem Inv.mem_inherited (h : Inv s) (hk : s.tasks t = some k) {b : Binding K V}
    (hb : b ∈ k.inherited) :
    ∃ w W above g below, s.tasks w = some W ∧ W.frames = above ++ .withTaskGroup g :: below ∧
      b ∈ ownBindings below := by
  -- a group is older than its tasks
  induction t using Nat.strongRecOn generalizing k with
  | _ t ih =>
      rcases h.member t k hk with hnone | ⟨g, G, -, hG, ht, hinh⟩
      · rw [hnone] at hb
        cases hb
      · rw [hinh] at hb
        cases hw : G.scope with
        | none =>
            rw [(h.group g G hG).plain hw] at hb
            cases hb
        | some w =>
            obtain ⟨W, above, below, hW, hframes, hbindings⟩ := h.scope g G w hG hw
            rw [hbindings] at hb
            rcases List.mem_append.mp hb with hb | hb
            · exact ⟨w, W, above, g, below, hW, hframes, hb⟩
            · exact ih w (h.younger g G w t hG hw ht) hW hb

/-- No list contains the node of the innermost coroutine, apart from its own
    list at the front. -/
theorem Inv.top_apart (h : Inv s) (hk : s.tasks t = some k) {x : Nat} {key : K} {v : V}
    {f : List (Binding K V)} {rest : List (Frame K V)} (hf : k.frames = .withValue x key v f :: rest) :
    (∀ b ∈ ownBindings rest ++ k.inherited, b.addr ≠ x) ∧
      ∀ u k', u ≠ t → s.tasks u = some k' → ∀ b ∈ k'.bindings, b.addr ≠ x := by
  have hx : x ∈ s.held t :=
    State.mem_held (b := ⟨x, key, v⟩) hk (by rw [hf]; exact List.mem_cons_self)
  have hrest : ∀ b ∈ ownBindings rest, b.addr ≠ x := by
    intro b hb hbx
    have hnodup := h.custody.nodup t
    rw [State.held_of_task hk, List.nodup_reverse, hf] at hnodup
    exact (List.nodup_cons.mp hnodup).1 (List.mem_map.mpr ⟨b, hb, hbx⟩)
  have hinherited : ∀ u k', s.tasks u = some k' → ∀ b ∈ k'.inherited, b.addr ≠ x := by
    intro u k' hk' b hb hbx
    obtain ⟨w, W, above, g, below, hW, hframes, hbelow⟩ := h.mem_inherited hk' hb
    have hbW : b ∈ ownBindings W.frames := by
      rw [hframes, ownBindings_append]
      exact List.mem_append_right _ hbelow
    by_cases hwt : w = t
    · subst hwt
      obtain rfl : W = k := Option.some.inj (hW.symm.trans hk)
      rw [hf] at hframes
      cases above with
      | nil => simp at hframes
      | cons a above =>
          rw [List.cons_append, List.cons.injEq] at hframes
          refine hrest b ?_ hbx
          rw [hframes.2, ownBindings_append]
          exact List.mem_append_right _ hbelow
    · exact hwt (h.custody.apart w t x (hbx ▸ State.mem_held hW hbW) hx)
  refine ⟨fun b hb => ?_, fun u k' hut hk' b hb hbx => ?_⟩
  · rcases List.mem_append.mp hb with hb | hb
    · exact hrest b hb
    · exact hinherited t k hk b hb
  · rcases List.mem_append.mp hb with hb | hb
    · exact hut (h.custody.apart u t x (hbx ▸ State.mem_held hk' hb) hx)
    · exact hinherited u k' hk' b hb hbx

end Facts

-- ============================================================================
-- What changes
-- ============================================================================

section Changes

variable [DecidableEq K] {s s' : State K V} {t g : Nat} {k k' : Task K V} {G : Group K V}

/-- The coroutines and the list of one task change, and with them the memory. -/
theorem Inv.frames (h : Inv s) (hk : s.tasks t = some k)
    (htasks : s'.tasks = Function.update s.tasks t (some k')) (hgroups : s'.groups = s.groups)
    (hnextTask : s'.nextTask = s.nextTask) (hnextGroup : s'.nextGroup = s.nextGroup)
    (hinherited : k'.inherited = k.inherited) (hgroup : k'.group = k.group)
    (hok : k'.Ok s'.nodes)
    (hothers : ∀ u k₁, u ≠ t → s.tasks u = some k₁ → Linked s'.nodes k₁.bindings)
    (hscope : ∀ above g below, s.groups g ≠ none →
      k.frames = above ++ .withTaskGroup g :: below →
      ∃ above', k'.frames = above' ++ .withTaskGroup g :: below)
    (hcustody : Custody s'.held fun x => s'.nodes x ≠ none)
    (hassert : s'.assertFailed = false) : Inv s' := by
  have hold : ∀ u k₁, s'.tasks u = some k₁ → u = t ∧ k₁ = k' ∨ u ≠ t ∧ s.tasks u = some k₁ :=
    fun u k₁ hu => eq_some_of_update (by rw [← htasks]; exact hu)
  refine ⟨fun u k₁ hu => ?_, fun g G hG => h.group g G (hgroups ▸ hG), fun g G w hG hw => ?_,
    fun g G w m hG => h.younger g G w m (hgroups ▸ hG), fun u k₁ hu => ?_, hcustody,
    fun u hu => ?_, fun g hg => ?_, hassert⟩
  · rcases hold u k₁ hu with ⟨-, rfl⟩ | ⟨hut, hu⟩
    · exact hok
    · have hk₁ := h.task u k₁ hu
      exact ⟨hk₁.locals, hothers u k₁ hut hu, hk₁.root, hk₁.found⟩
  · obtain ⟨W, above, below, hW, hframes, hbindings⟩ := h.scope g G w (hgroups ▸ hG) hw
    by_cases hwt : w = t
    · subst hwt
      obtain rfl : W = k := Option.some.inj (hW.symm.trans hk)
      have hne : s.groups g ≠ none := by
        rw [← hgroups, hG]
        simp
      obtain ⟨above', hframes'⟩ := hscope above g below hne hframes
      refine ⟨k', above', below, ?_, hframes', by rw [hbindings, hinherited]⟩
      rw [htasks, Function.update_self]
    · refine ⟨W, above, below, ?_, hframes, hbindings⟩
      rw [htasks, Function.update_of_ne hwt]
      exact hW
  · have hmember : ∀ k₂, s.tasks u = some k₂ → k₁.inherited = k₂.inherited →
        k₁.group = k₂.group → k₁.inherited = [] ∨ Member s' u k₁ := by
      intro k₂ hk₂ hi hg
      rw [Member, hi, hg, hgroups]
      exact h.member u k₂ hk₂
    rcases hold u k₁ hu with ⟨rfl, rfl⟩ | ⟨-, hu⟩
    · exact hmember k hk hinherited hgroup
    · exact hmember k₁ hu rfl rfl
  · rw [hnextTask] at hu
    have hnone := h.freshTask u hu
    have hut : u ≠ t := by
      rintro rfl
      simp [hnone] at hk
    rw [htasks, Function.update_of_ne hut]
    exact hnone
  · rw [hgroups]
    exact h.freshGroup g (hnextGroup ▸ hg)

/-- Coroutines without bindings come and go. -/
theorem Inv.sameBindings (h : Inv s) (hk : s.tasks t = some k)
    (htasks : s'.tasks = Function.update s.tasks t (some k')) (hgroups : s'.groups = s.groups)
    (hnodes : s'.nodes = s.nodes) (hnextTask : s'.nextTask = s.nextTask)
    (hnextGroup : s'.nextGroup = s.nextGroup) (hassert : s'.assertFailed = s.assertFailed)
    (hlocals : k'.locals = k.locals) (hroot : k'.root = k.root)
    (hinherited : k'.inherited = k.inherited) (hgroup : k'.group = k.group)
    (hown : ownBindings k'.frames = ownBindings k.frames)
    (hfound : ∀ above x key v f below, k'.frames = above ++ .withValue x key v f :: below →
      ∃ above', k.frames = above' ++ .withValue x key v f :: below)
    (hscope : ∀ above g below, s.groups g ≠ none →
      k.frames = above ++ .withTaskGroup g :: below →
      ∃ above', k'.frames = above' ++ .withTaskGroup g :: below) : Inv s' := by
  have hok := h.task t k hk
  have hbindings : k'.bindings = k.bindings := by
    rw [Task.bindings, Task.bindings, hown, hinherited]
  have hheld : s'.held = s.held := by
    funext u
    by_cases hut : u = t
    · subst hut
      rw [State.held_of_task hk, State.held_of_task (k := k'), hown]
      rw [htasks, Function.update_self]
    · rw [State.held, State.held, htasks, Function.update_of_ne hut]
  refine h.frames hk htasks hgroups hnextTask hnextGroup hinherited hgroup ?_ ?_ hscope ?_
    (hassert ▸ h.noAssert)
  · rw [hnodes]
    refine ⟨by rw [hlocals, hbindings]; exact hok.locals, by rw [hbindings]; exact hok.linked,
      by rw [hroot, hinherited]; exact hok.root, fun above x key v f below hf => ?_⟩
    obtain ⟨above', hf'⟩ := hfound above x key v f below hf
    rw [hinherited]
    exact hok.found above' x key v f below hf'
  · intro u k₁ _ hu
    rw [hnodes]
    exact (h.task u k₁ hu).linked
  · rw [hheld, hnodes]
    exact h.custody

/-- A new group, without tasks. -/
theorem Inv.addGroup (h : Inv s) (hG : G.Ok) (hrunning : G.running = [])
    (hscope : ∀ w, G.scope = some w → Scoped s s.nextGroup G w) :
    Inv { s with
      groups := Function.update s.groups s.nextGroup (some G)
      nextGroup := s.nextGroup + 1 } := by
  refine ⟨h.task, fun g G' hg => ?_, fun g G' w hg hw => ?_, fun g G' w m hg hw hm => ?_,
    fun u k₁ hu => ?_, h.custody, h.freshTask, fun g hg => ?_, h.noAssert⟩
  · rcases eq_some_of_update hg with ⟨-, rfl⟩ | ⟨-, hg⟩
    · exact hG
    · exact h.group g G' hg
  · rcases eq_some_of_update hg with ⟨rfl, rfl⟩ | ⟨-, hg⟩
    · exact hscope w hw
    · exact h.scope g G' w hg hw
  · rcases eq_some_of_update hg with ⟨-, rfl⟩ | ⟨-, hg⟩
    · simp [hrunning] at hm
    · exact h.younger g G' w m hg hw hm
  · refine (h.member u k₁ hu).imp_right ?_
    rintro ⟨g, G', hgroup, hG', hm⟩
    refine ⟨g, G', hgroup, ?_, hm⟩
    have hne : g ≠ s.nextGroup := by
      rintro rfl
      simp [h.freshGroup s.nextGroup (Nat.le_refl _)] at hG'
    exact (Function.update_of_ne hne _ _).trans hG'
  · have hne : g ≠ s.nextGroup := Nat.ne_of_gt hg
    exact (Function.update_of_ne hne _ _).trans (h.freshGroup g (Nat.le_of_lt hg))

/-- A group ends, and no task has inherited anything from it. -/
theorem Inv.dropGroup (h : Inv s) (hG : s.groups g = some G)
    (hnone : G.running = [] ∨ G.bindings = []) :
    Inv { s with groups := Function.update s.groups g none } := by
  refine ⟨h.task, fun g' G' hg' => h.group g' G' (eq_some_of_erase hg').2,
    fun g' G' w hg' => h.scope g' G' w (eq_some_of_erase hg').2,
    fun g' G' w m hg' => h.younger g' G' w m (eq_some_of_erase hg').2, fun u k₁ hu => ?_, h.custody,
    h.freshTask, fun g' hg' => ?_, h.noAssert⟩
  · rcases h.member u k₁ hu with hempty | ⟨g', G', hgroup, hG', hm, hinherited⟩
    · exact .inl hempty
    · by_cases hgg : g' = g
      · subst hgg
        obtain rfl : G' = G := Option.some.inj (hG'.symm.trans hG)
        rcases hnone with hnone | hnone
        · simp [hnone] at hm
        · exact .inl (hinherited.trans hnone)
      · exact .inr ⟨g', G', hgroup, (Function.update_of_ne hgg _ _).trans hG', hm, hinherited⟩
  · by_cases hgg : g' = g
    · simp [hgg]
    · exact (Function.update_of_ne hgg _ _).trans (h.freshGroup g' hg')

/-- The tasks that a group waits for change; those that are left stay. -/
theorem Inv.setRunning (h : Inv s) (hG : s.groups g = some G) (running : List Nat)
    (hyounger : ∀ w m, G.scope = some w → m ∈ running → w < m)
    (hmember : ∀ u k₁, s.tasks u = some k₁ → u ∈ G.running → u ∈ running) :
    Inv { s with groups := Function.update s.groups g (some { G with running := running }) } := by
  have hGok := h.group g G hG
  refine ⟨h.task, fun g' G' hg' => ?_, fun g' G' w hg' hw => ?_, fun g' G' w m hg' hw hm => ?_,
    fun u k₁ hu => ?_, h.custody, h.freshTask, fun g' hg' => ?_, h.noAssert⟩
  · rcases eq_some_of_update hg' with ⟨-, rfl⟩ | ⟨-, hg'⟩
    · exact ⟨hGok.locals, hGok.env, hGok.plain⟩
    · exact h.group g' G' hg'
  · rcases eq_some_of_update hg' with ⟨rfl, rfl⟩ | ⟨-, hg'⟩
    · exact h.scope g' G w hG hw
    · exact h.scope g' G' w hg' hw
  · rcases eq_some_of_update hg' with ⟨rfl, rfl⟩ | ⟨-, hg'⟩
    · exact hyounger w m hw hm
    · exact h.younger g' G' w m hg' hw hm
  · refine (h.member u k₁ hu).imp_right ?_
    rintro ⟨g', G', hgroup, hG', hm, hinherited⟩
    by_cases hgg : g' = g
    · subst hgg
      obtain rfl : G' = G := Option.some.inj (hG'.symm.trans hG)
      exact ⟨g', _, hgroup, Function.update_self _ _ _, hmember u k₁ hu hm, hinherited⟩
    · exact ⟨g', G', hgroup, (Function.update_of_ne hgg _ _).trans hG', hm, hinherited⟩
  · have hgg : g' ≠ g := by
      rintro rfl
      simp [h.freshGroup g' hg'] at hG
    exact (Function.update_of_ne hgg _ _).trans (h.freshGroup g' hg')

/-- A task starts. -/
theorem Inv.start (h : Inv s) (th : Nat) (hok : k.Ok s.nodes) (hown : ownBindings k.frames = [])
    (hmember : k.inherited = [] ∨ Member s s.nextTask k) : Inv (s.start th k) := by
  have hnone := h.freshTask s.nextTask (Nat.le_refl _)
  have hheld : (s.start th k).held = s.held := by
    funext u
    by_cases hut : u = s.nextTask
    · rw [State.held, State.held, hut, hnone]
      simp [State.start, hown]
    · simp [State.held, State.start, Function.update_of_ne hut]
  refine ⟨fun u k₁ hu => ?_, h.group, fun g G w hG hw => ?_, h.younger, fun u k₁ hu => ?_, ?_,
    fun u hu => ?_, h.freshGroup, h.noAssert⟩
  · rcases eq_some_of_update hu with ⟨-, rfl⟩ | ⟨-, hu⟩
    · exact hok
    · exact h.task u k₁ hu
  · obtain ⟨W, above, below, hW, hframes, hbindings⟩ := h.scope g G w hG hw
    have hne : w ≠ s.nextTask := by
      rintro rfl
      simp [hnone] at hW
    exact ⟨W, above, below, (Function.update_of_ne hne _ _).trans hW, hframes, hbindings⟩
  · rcases eq_some_of_update hu with ⟨rfl, rfl⟩ | ⟨-, hu⟩
    · exact hmember
    · exact h.member u k₁ hu
  · rw [hheld]
    exact h.custody
  · have hne : u ≠ s.nextTask := Nat.ne_of_gt hu
    exact (Function.update_of_ne hne _ _).trans (h.freshTask u (Nat.le_of_lt hu))

/-- A task without bindings ends. -/
theorem Inv.endTask (h : Inv s) (hk : s.tasks t = some k) (hown : ownBindings k.frames = [])
    (hscope : ∀ above g below, k.frames ≠ above ++ .withTaskGroup g :: below)
    (stack : Nat → List Nat) :
    Inv { s with tasks := Function.update s.tasks t none, stack := stack } := by
  have hheld : State.held { s with tasks := Function.update s.tasks t none, stack := stack } =
      s.held := by
    funext u
    by_cases hut : u = t
    · subst hut
      rw [State.held_of_task hk, hown]
      simp [State.held]
    · simp [State.held, Function.update_of_ne hut]
  refine ⟨fun u k₁ hu => h.task u k₁ (eq_some_of_erase hu).2, h.group, fun g G w hG hw => ?_, h.younger,
    fun u k₁ hu => h.member u k₁ (eq_some_of_erase hu).2, ?_, fun u hu => ?_, h.freshGroup, h.noAssert⟩
  · obtain ⟨W, above, below, hW, hframes, hbindings⟩ := h.scope g G w hG hw
    have hne : w ≠ t := by
      rintro rfl
      obtain rfl : W = k := Option.some.inj (hW.symm.trans hk)
      exact hscope above g below hframes
    exact ⟨W, above, below, (Function.update_of_ne hne _ _).trans hW, hframes, hbindings⟩
  · rw [hheld]
    exact h.custody
  · by_cases hut : u = t
    · simp [hut]
    · exact (Function.update_of_ne hut _ _).trans (h.freshTask u hu)

end Changes

end Coroactors.TaskLocal
