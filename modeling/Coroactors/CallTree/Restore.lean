/-
  Coroactors.CallTree.Restore

  Awaiting an async coroutine restores the task (Coroactors.CallTree.Model).

  The invariant goes down the coroutines of a task: what the innermost one
  would restore if it ended now is what its awaiter expects, and with that the
  awaiter in turn restores what its own awaiter expects.
-/

import Coroactors.CallTree.Model

namespace Coroactors.CallTree

open Coroactors.Conc

variable {T C L β : Type*}

-- ============================================================================
-- What a coroutine restores
-- ============================================================================

/-- The token after the coroutine, if it is `token` now. -/
def Kind.endToken (token : T) : Kind T L → T
  | .opened (.token saved) | .waiting (.token saved) => saved
  | _ => token

/-- The locals after the coroutine. -/
def Kind.endLocals (locals : List L) : Kind T L → List L
  | .opened (.binding _ next) | .waiting (.binding _ next) => next
  | _ => locals

/-- The binding of a wrapper is the last one. -/
def Kind.Bound (locals : List L) : Kind T L → Prop
  | .opened (.binding b next) | .waiting (.binding b next) => locals = b :: next
  | _ => True

/-- What the coroutine restores if it ends now. -/
def Frame.ends (f : Frame T C L) (env : Env T C L) : Env T C L :=
  ⟨f.kind.endToken env.token, f.getCallerContext env, f.kind.endLocals env.locals⟩

/-- Every coroutine restores what its awaiter expects; the outermost one, and
    only that, has a task of its own. -/
def Chain (env : Env T C L) : List (Frame T C L) → Prop
  | [] => True
  | f :: rest =>
      f.ends env = f.expected ∧ f.kind.Bound env.locals ∧ (f.inherited = true ↔ rest ≠ []) ∧
        Chain f.expected rest

variable {f : Frame T C L} {env env' : Env T C L} {rest : List (Frame T C L)}

@[simp] theorem kind_preserve : (f.preserveCallerContext env).kind = f.kind := by
  unfold Frame.preserveCallerContext
  split
  · split <;> rfl
  · rfl

@[simp] theorem inherited_preserve : (f.preserveCallerContext env).inherited = f.inherited := by
  unfold Frame.preserveCallerContext
  split
  · split <;> rfl
  · rfl

@[simp] theorem expected_preserve : (f.preserveCallerContext env).expected = f.expected := by
  unfold Frame.preserveCallerContext
  split
  · split <;> rfl
  · rfl

/-- A coroutine that saved its caller's context returns to it, whatever the
    context of the task is. -/
@[simp] theorem getCallerContext_preserve :
    (f.preserveCallerContext env).getCallerContext env' = f.getCallerContext env := by
  cases hi : f.inherited
  · simp [Frame.preserveCallerContext, Frame.getCallerContext, hi]
  · cases hc : f.callerContext <;>
      simp [Frame.preserveCallerContext, Frame.getCallerContext, hi, hc]

/-- A coroutine returns to the context it returned to before, if the task is in
    that context. -/
theorem getCallerContext_idem (h : env'.context = f.getCallerContext env) :
    f.getCallerContext env' = f.getCallerContext env := by
  cases hi : f.inherited
  · simp [Frame.getCallerContext, hi]
  · cases hc : f.callerContext <;> simp [Frame.getCallerContext, hi, hc] at h ⊢
    exact h

/-- A coroutine that saved its caller's context may change the context. -/
theorem ends_preserve {c : Option C} :
    (f.preserveCallerContext env).ends { env with context := c } = f.ends env := by
  simp [Frame.ends]

/-- The body of a coroutine may change the context once it saved the caller's. -/
theorem Chain.switch {c : Option C} (h : Chain env (f :: rest)) :
    Chain { env with context := c } (f.preserveCallerContext env :: rest) := by
  obtain ⟨h1, h2, h3, h4⟩ := h
  exact ⟨by rw [ends_preserve, expected_preserve, h1], by simpa using h2, by simpa using h3,
    by simpa using h4⟩

/-- Without a change of the context it may save it or not. -/
theorem Chain.preserve (h : Chain env (f :: rest)) :
    Chain env (f.preserveCallerContext env :: rest) :=
  h.switch (c := env.context)

-- ============================================================================
-- Steps of a task
-- ============================================================================

section Task

variable {k k' : Task T C L β}

theorem Chain.switchTo [DecidableEq C] {c : Option C} {answer : Bool}
    (h : Chain k.env (f :: rest)) :
    Chain (k.switchTo f rest c answer).env (k.switchTo f rest c answer).frames := by
  unfold Task.switchTo
  simp only
  split
  · exact h.preserve
  · split
    · exact h.switch
    · exact h.switch

/-- The awaiter expects its environment, with the context it asked for. -/
theorem Chain.call {how : Bind C} {child : Option (Wrapper T L)} (h : Chain k.env (f :: rest))
    (hb : how = .plain ∨ f.kind = .body) :
    Chain (k.call f rest how child).env (k.call f rest how child).frames := by
  have hfresh : ∀ (c : Option (Option C)) (e : Env T C L),
      (⟨.ofChild child, true, c, e⟩ : Frame T C L).ends k.env =
        ⟨k.env.token, c.getD k.env.context, k.env.locals⟩ := by
    intro c e
    cases child <;> cases c <;> rfl
  have hbound : (Kind.ofChild child).Bound k.env.locals := by cases child <;> trivial
  cases how with
  | plain => exact ⟨hfresh _ _, hbound, by simp, h⟩
  | context c =>
      have hs := h.switch (c := c)
      exact ⟨hfresh _ _, hbound, by simp, hs⟩
  | caller =>
      refine ⟨hfresh _ _, hbound, by simp, ?_⟩
      obtain ⟨h1, h2, h3, h4⟩ := h
      refine ⟨?_, h2, h3, h4⟩
      have hk : f.kind = .body := hb.resolve_left (by simp)
      rw [← h1]
      simp only [Frame.ends, hk, Kind.endToken, Kind.endLocals, Bind.expected]
      rw [getCallerContext_idem rfl]

theorem Chain.install {w : Wrapper T L} (h : Chain k.env (f :: rest)) (hw : f.kind = .fresh w) :
    Chain (k.install f rest w).env (k.install f rest w).frames := by
  obtain ⟨h1, -, h3, h4⟩ := h
  simp only [Frame.ends, hw, Kind.endToken, Kind.endLocals] at h1
  cases w with
  | withStopToken token => exact ⟨h1, trivial, h3, h4⟩
  | withDeadline token =>
      cases token with
      | none => exact ⟨h1, trivial, h3, h4⟩
      | some token => exact ⟨h1, trivial, h3, h4⟩
  | withValue b => exact ⟨h1, rfl, h3, h4⟩

/-- An awaited coroutine that ends leaves the task as its awaiter expects it. -/
theorem env_finalSuspend {answer : Bool} (hi : f.inherited = true) :
    (k.finalSuspend f rest answer).env = { k.env with context := f.getCallerContext k.env } := by
  cases hc : f.callerContext <;>
    simp [Task.finalSuspend, hi, hc, Task.move, Frame.getCallerContext]

theorem frames_finalSuspend {answer : Bool} : (k.finalSuspend f rest answer).frames = rest := by
  unfold Task.finalSuspend
  simp only
  split
  · split <;> rfl
  · rfl

/-- The guard of a wrapper undoes what it did. -/
theorem env_undo [DecidableEq L] {g : Guard T L} (hw : f.kind = .waiting g) :
    (k.undo g).env = ⟨f.kind.endToken k.env.token, k.env.context, f.kind.endLocals k.env.locals⟩ := by
  rw [hw]
  cases g <;> rfl

theorem assert_undo [DecidableEq L] {g : Guard T L} (hw : f.kind = .waiting g)
    (hb : f.kind.Bound k.env.locals) : (k.undo g).assertFailed = k.assertFailed := by
  rw [hw] at hb
  cases g with
  | token saved => rfl
  | nothing => rfl
  | binding b next =>
      have hb : k.env.locals = b :: next := hb
      simp [Task.undo, hb]

/-- A wrapper restores the same before and after its `co_await`. -/
theorem Chain.wrap {g : Guard T L} (h : Chain env (f :: rest)) (hw : f.kind = .opened g) :
    Chain env ({ f with kind := .waiting g } :: rest) := by
  obtain ⟨h1, h2, h3, h4⟩ := h
  rw [hw] at h2
  simp only [Frame.ends, hw] at h1
  cases g <;> exact ⟨h1, h2, h3, h4⟩

/-- The end of a coroutine restores what it promised. -/
theorem env_finish {outcome : β} {answer : Bool} (hi : f.inherited = true) (hb : f.kind = .body) :
    ({ k with result := some outcome }.finalSuspend f rest answer).env = f.ends k.env := by
  rw [env_finalSuspend hi]
  simp [Frame.ends, hb, Kind.endToken, Kind.endLocals]

theorem env_unwrap [DecidableEq L] {g : Guard T L} {answer : Bool} (hi : f.inherited = true)
    (hw : f.kind = .waiting g) : ((k.undo g).finalSuspend f rest answer).env = f.ends k.env := by
  rw [env_finalSuspend hi, env_undo hw]
  cases hc : f.callerContext <;> simp [Frame.ends, Frame.getCallerContext, hi, hc]

/-- The awaiter of a coroutine that ended finds what it expects. -/
theorem Chain.pop (h : Chain k.env (f :: rest)) (hr : k'.frames = rest)
    (he : f.inherited = true → k'.env = f.ends k.env) : Chain k'.env k'.frames := by
  obtain ⟨h1, -, h3, h4⟩ := h
  rw [hr]
  cases rest with
  | nil => trivial
  | cons g base =>
      rw [he (h3.mpr (by simp)), h1]
      exact h4

theorem assert_finalSuspend {answer : Bool} :
    (k.finalSuspend f rest answer).assertFailed = k.assertFailed := by
  unfold Task.finalSuspend Task.move
  simp only
  repeat' split
  all_goals rfl

variable [DecidableEq C] [DecidableEq L]

/-- What the innermost coroutine `f` can do. -/
inductive TaskStep (k : Task T C L β) (f : Frame T C L) (rest : List (Frame T C L)) :
    Task T C L β → Prop
  | switch (c : Option C) (answer : Bool) : TaskStep k f rest (k.switchTo f rest c answer)
  | install {w : Wrapper T L} (hw : f.kind = .fresh w) : TaskStep k f rest (k.install f rest w)
  | call {how : Bind C} {child : Option (Wrapper T L)} (hb : f.kind = .body) :
      TaskStep k f rest (k.call f rest how child)
  | wrap {g : Guard T L} {child : Option (Wrapper T L)} (hw : f.kind = .opened g) :
      TaskStep k f rest (k.call { f with kind := .waiting g } rest .plain child)
  | finish {outcome : β} {answer : Bool} (hb : f.kind = .body) :
      TaskStep k f rest ({ k with result := some outcome }.finalSuspend f rest answer)
  | unwrap {g : Guard T L} {answer : Bool} (hw : f.kind = .waiting g) :
      TaskStep k f rest ((k.undo g).finalSuspend f rest answer)

theorem step_cases {a : Act T C L β} (hs : k.step a = some k') :
    ∃ f rest, k.frames = f :: rest ∧ TaskStep k f rest k' := by
  unfold Task.step at hs
  split at hs
  · cases hs
  · rename_i f rest hf
    refine ⟨f, rest, hf, ?_⟩
    split at hs <;> cases hs
    · exact .switch ..
    · exact .switch ..
    · exact .install (by assumption)
    · exact .call (by assumption)
    · exact .wrap (by assumption)
    · exact .finish (by assumption)
    · exact .unwrap (by assumption)

/-- The coroutines after a step: the innermost one goes on, awaits another, or
    has ended. -/
theorem TaskStep.frames (h : TaskStep k f rest k') :
    (∃ pre f', k'.frames = pre ++ f' :: rest ∧ f'.expected = f.expected) ∨
      k'.frames = rest ∧ (f.inherited = true → k'.env = f.ends k.env) := by
  cases h with
  | switch c answer =>
      refine .inl ⟨[], f.preserveCallerContext k.env, ?_, expected_preserve⟩
      unfold Task.switchTo Task.move
      simp only
      repeat' split
      all_goals rfl
  | @install w hw =>
      cases w with
      | withDeadline token => cases token <;> exact .inl ⟨[], _, rfl, rfl⟩
      | _ => exact .inl ⟨[], _, rfl, rfl⟩
  | @call how child hb =>
      cases how with
      | context c => exact .inl ⟨[_], _, rfl, expected_preserve⟩
      | _ => exact .inl ⟨[_], _, rfl, rfl⟩
  | wrap hw => exact .inl ⟨[_], _, rfl, rfl⟩
  | finish hb => exact .inr ⟨frames_finalSuspend, fun hi => env_finish hi hb⟩
  | unwrap hw => exact .inr ⟨frames_finalSuspend, fun hi => env_unwrap hi hw⟩

theorem TaskStep.chain (h : TaskStep k f rest k') (hc : Chain k.env (f :: rest)) :
    Chain k'.env k'.frames := by
  cases h with
  | switch c answer => exact hc.switchTo
  | install hw => exact hc.install hw
  | call hb => exact hc.call (.inr hb)
  | wrap hw => exact (hc.wrap hw).call (.inl rfl)
  | finish hb => exact hc.pop frames_finalSuspend fun hi => env_finish hi hb
  | unwrap hw => exact hc.pop frames_finalSuspend fun hi => env_unwrap hi hw

/-- No assertion of `pop_local` fails. -/
theorem TaskStep.assert (h : TaskStep k f rest k') (hc : Chain k.env (f :: rest)) :
    k'.assertFailed = k.assertFailed := by
  cases h with
  | switch c answer =>
      unfold Task.switchTo Task.move
      simp only
      repeat' split
      all_goals rfl
  | @install w hw =>
      cases w with
      | withDeadline token => cases token <;> rfl
      | _ => rfl
  | @call how child hb => cases how <;> rfl
  | wrap hw => rfl
  | finish hb => exact assert_finalSuspend
  | unwrap hw => exact assert_finalSuspend.trans (assert_undo hw hc.2.1)

end Task

-- ============================================================================
-- Every run
-- ============================================================================

section Runs

variable [DecidableEq C] [DecidableEq L] [Inhabited T] {s s' : State T C L β}

/-- Every task on a stack runs, and is on one stack once. -/
structure Inv (s : State T C L β) : Prop where
  chain : ∀ i, Chain (s.tasks i).env (s.tasks i).frames
  assert : ∀ i, (s.tasks i).assertFailed = false
  running : ∀ t, ∀ i ∈ s.stack t, (s.tasks i).status = .running
  once : ∀ t, (s.stack t).Nodup
  unique : ∀ t u i, i ∈ s.stack t → i ∈ s.stack u → t = u

omit [DecidableEq C] [DecidableEq L] [Inhabited T] in
/-- A task that is on no stack enters one, and runs. -/
theorem Inv.enter {t i : Nat} {k : Task T C L β} (hi : Inv s)
    (hst : (s.tasks i).status ≠ .running) (hk : Chain k.env k.frames)
    (ha : k.assertFailed = false) (hr : k.status = .running) :
    Inv ⟨Function.update s.tasks i k, Function.update s.stack t (i :: s.stack t)⟩ := by
  have hnot : ∀ u, i ∉ s.stack u := fun u hu => hst (hi.running u i hu)
  have hmem : ∀ u j, j ∈ Function.update s.stack t (i :: s.stack t) u ↔
      j ∈ s.stack u ∨ (u = t ∧ j = i) := by
    intro u j
    by_cases hu : u = t
    · subst hu
      simp [or_comm]
    · simp [hu]
  constructor
  case chain =>
    intro j
    by_cases hj : j = i
    · subst hj
      simpa using hk
    · simpa [hj] using hi.chain j
  case assert =>
    intro j
    by_cases hj : j = i
    · subst hj
      simpa using ha
    · simpa [hj] using hi.assert j
  case running =>
    intro u j hj
    rcases (hmem u j).mp hj with hold | ⟨-, rfl⟩
    · have hne : j ≠ i := by
        rintro rfl
        exact hnot u hold
      simpa [hne] using hi.running u j hold
    · simpa using hr
  case once =>
    intro u
    by_cases hu : u = t
    · subst hu
      simpa using ⟨hnot u, hi.once u⟩
    · simpa [hu] using hi.once u
  case unique =>
    intro u v j hu hv
    rcases (hmem u j).mp hu with h1 | ⟨rfl, rfl⟩ <;> rcases (hmem v j).mp hv with h2 | ⟨rfl, hj⟩
    · exact hi.unique u v j h1 h2
    · exact absurd (hj ▸ h1) (hnot u)
    · exact absurd h2 (hnot v)
    · rfl

omit [Inhabited T] in
/-- The task on top of a stack makes a step, and leaves the thread or not. -/
theorem Inv.act {t i : Nat} {below : List Nat} {k : Task T C L β} {a : Act T C L β} (hi : Inv s)
    (hst : s.stack t = i :: below) (hs : (s.tasks i).step a = some k) :
    Inv ⟨Function.update s.tasks i k,
      if k.status = .running then s.stack else Function.update s.stack t below⟩ := by
  obtain ⟨f, rest, hf, hstep⟩ := step_cases hs
  have hc := hi.chain i
  rw [hf] at hc
  have hnd := hi.once t
  rw [hst] at hnd
  have hsub : ∀ u j, j ∈ (if k.status = .running then s.stack
      else Function.update s.stack t below) u → j ∈ s.stack u ∧ (j = i → k.status = .running) := by
    intro u j hj
    split at hj
    · rename_i hr
      exact ⟨hj, fun _ => hr⟩
    · by_cases hu : u = t
      · subst hu
        have hj : j ∈ below := by simpa using hj
        refine ⟨by rw [hst]; exact List.mem_cons_of_mem _ hj, ?_⟩
        rintro rfl
        exact absurd hj (List.nodup_cons.mp hnd).1
      · have hj : j ∈ s.stack u := by simpa [hu] using hj
        refine ⟨hj, ?_⟩
        rintro rfl
        exact absurd (hi.unique u t j hj (by rw [hst]; exact List.mem_cons_self)) hu
  constructor
  case chain =>
    intro j
    by_cases hj : j = i
    · subst hj
      simpa using hstep.chain hc
    · simpa [hj] using hi.chain j
  case assert =>
    intro j
    by_cases hj : j = i
    · subst hj
      simpa [hstep.assert hc] using hi.assert j
    · simpa [hj] using hi.assert j
  case running =>
    intro u j hj
    obtain ⟨hmem, hrun⟩ := hsub u j hj
    by_cases hji : j = i
    · subst hji
      simpa using hrun rfl
    · simpa [hji] using hi.running u j hmem
  case once =>
    intro u
    simp only
    split
    · exact hi.once u
    · by_cases hu : u = t
      · subst hu
        simpa using (List.nodup_cons.mp hnd).2
      · simpa [hu] using hi.once u
  case unique =>
    intro u v j hu hv
    exact hi.unique u v j (hsub u j hu).1 (hsub v j hv).1

theorem step_inv {a : Label T C L β} (hi : Inv s) (hs : callTree.step s a = some s') : Inv s' := by
  cases a <;> simp only [callTree] at hs
  case start t i token locals =>
    split at hs <;> cases hs
    rename_i ha
    exact hi.enter (by simp [ha]) ⟨rfl, trivial, by simp, trivial⟩ rfl rfl
  case act t a =>
    split at hs
    · rename_i i below hst
      obtain ⟨k, hk, rfl⟩ := Option.map_eq_some_iff.mp hs
      exact hi.act hst hk
    · cases hs
  case run t i =>
    split at hs <;> cases hs
    rename_i ha
    exact hi.enter (by simp [ha]) (hi.chain i) (hi.assert i) rfl

theorem reachable_inv (h : callTree.Reachable s) : Inv s := by
  refine h.invariant ?_ fun s a s' hi _ hs => step_inv hi hs
  rintro s rfl
  exact ⟨fun i => trivial, fun i => rfl, by simp, by simp, by simp⟩

/-- The task has not resumed the coroutine with `n` coroutines around it. -/
def Awaits (i n : Nat) (s : State T C L β) (_ : Label T C L β) : Prop :=
  ¬ ((s.tasks i).status = .running ∧ (s.tasks i).frames.length = n)

/-- The awaited coroutine has not ended, and its awaiter expects `e`; or it has
    ended, and the task is as expected. -/
def Tracks (n : Nat) (e : Env T C L) (k : Task T C L β) : Prop :=
  (∃ pre g base, k.frames = pre ++ g :: base ∧ base.length = n ∧ g.expected = e) ∨
    k.frames.length = n ∧ k.env = e

omit [DecidableEq C] [DecidableEq L] [Inhabited T] in
theorem Tracks.status {n : Nat} {e : Env T C L} {k : Task T C L β} {st : Status}
    (h : Tracks n e k) : Tracks n e { k with status := st } := h

omit [Inhabited T] in
theorem Tracks.step {n : Nat} {e : Env T C L} {k k' : Task T C L β} {a : Act T C L β}
    (h : Tracks n e k) (hn : 0 < n) (hc : Chain k.env k.frames)
    (hne : k.frames.length ≠ n) (hs : k.step a = some k') : Tracks n e k' := by
  obtain ⟨f, rest, hf, hstep⟩ := step_cases hs
  obtain ⟨pre, g, base, hfr, hb, hg⟩ | ⟨hl, -⟩ := h
  · obtain ⟨pre', f', hfr', hf'⟩ | ⟨hfr', henv⟩ := hstep.frames
    · -- the innermost coroutine is still there, perhaps below another one
      refine .inl ?_
      cases pre with
      | nil =>
          obtain ⟨rfl, rfl⟩ := List.cons.inj (hf.symm.trans hfr)
          exact ⟨pre', f', rest, hfr', hb, hf'.trans hg⟩
      | cons f₀ pre =>
          obtain ⟨rfl, rfl⟩ := List.cons.inj (hf.symm.trans hfr)
          exact ⟨pre' ++ f' :: pre, g, base, by simp [hfr'], hb, hg⟩
    · cases pre with
      | nil =>
          -- it is the awaited one, and has ended
          obtain ⟨rfl, rfl⟩ := List.cons.inj (hf.symm.trans hfr)
          rw [hf] at hc
          obtain ⟨h1, -, h3, -⟩ := hc
          refine .inr ⟨by rw [hfr', hb], ?_⟩
          rw [henv (h3.mpr ?_), h1, hg]
          rintro rfl
          exact absurd hb (Nat.ne_of_lt hn)
      | cons f₀ pre =>
          obtain ⟨rfl, rfl⟩ := List.cons.inj (hf.symm.trans hfr)
          exact .inl ⟨pre, g, base, hfr', hb, hg⟩
  · exact absurd hl hne

omit [Inhabited T] in
theorem TaskStep.status {k k' : Task T C L β} {f : Frame T C L} {rest : List (Frame T C L)}
    (h : TaskStep k f rest k') : k'.status = k.status ∨ k'.status ≠ .absent := by
  have hmove : ∀ {k : Task T C L β} {c : Option C} {answer : Bool},
      (k.move c answer).status ≠ .absent := by
    intro k c answer
    cases answer <;> simp [Task.move]
  have hfinal : ∀ {k : Task T C L β} {answer : Bool},
      (k.finalSuspend f rest answer).status = k.status ∨
        (k.finalSuspend f rest answer).status ≠ .absent := by
    intro k answer
    unfold Task.finalSuspend
    simp only
    split
    · split
      · exact .inr hmove
      · exact .inl rfl
    · exact .inr (by simp)
  cases h with
  | switch c answer =>
      unfold Task.switchTo
      simp only
      split
      · exact .inl rfl
      · split
        · exact .inl rfl
        · exact .inr hmove
  | @install w hw =>
      cases w with
      | withDeadline token => cases token <;> exact .inl rfl
      | _ => exact .inl rfl
  | @call how child hb => cases how <;> exact .inl rfl
  | wrap hw => exact .inl rfl
  | finish hb => exact hfinal
  | @unwrap g answer hw =>
      have hu : (k.undo g).status = k.status := by cases g <;> rfl
      rw [← hu]
      exact hfinal

theorem step_tracks {i n : Nat} {e : Env T C L} {a : Label T C L β} (hi : Inv s) (hn : 0 < n)
    (h : Tracks n e (s.tasks i)) (hst : (s.tasks i).status ≠ .absent) (hok : Awaits i n s a)
    (hs : callTree.step s a = some s') :
    Tracks n e (s'.tasks i) ∧ (s'.tasks i).status ≠ .absent := by
  cases a <;> simp only [callTree] at hs
  case start t j token locals =>
    split at hs <;> cases hs
    rename_i ha
    have hj : i ≠ j := by
      rintro rfl
      exact hst ha
    simpa [hj] using ⟨h, hst⟩
  case act t a =>
    split at hs
    · rename_i j below hstack
      obtain ⟨k, hk, rfl⟩ := Option.map_eq_some_iff.mp hs
      by_cases hj : i = j
      · subst hj
        have hrun := hi.running t i (by rw [hstack]; exact List.mem_cons_self)
        have htr := h.step hn (hi.chain i) (fun hl => hok ⟨hrun, hl⟩) hk
        obtain ⟨f, rest, -, hstep⟩ := step_cases hk
        refine ⟨by simpa using htr, ?_⟩
        rcases hstep.status with hs | hs
        · simp [hs, hrun]
        · simpa using hs
      · simpa [hj] using ⟨h, hst⟩
    · cases hs
  case run t j =>
    split at hs <;> cases hs
    by_cases hj : i = j
    · subst hj
      simpa using h.status
    · simpa [hj] using ⟨h, hst⟩

/-- Until its awaiter resumes, the awaited coroutine and what is expected of it
    stay, and then the task is as expected. -/
theorem path_tracks {i n : Nat} {e : Env T C L} (hr : callTree.Reachable s) (hn : 0 < n)
    (h : Tracks n e (s.tasks i)) (hst : (s.tasks i).status ≠ .absent)
    (hp : callTree.Path (Awaits i n) s s') : Inv s' ∧ Tracks n e (s'.tasks i) := by
  have hinv := hp.invariant (I := fun s => Inv s ∧ Tracks n e (s.tasks i) ∧
    (s.tasks i).status ≠ .absent) ?_ ⟨reachable_inv hr, h, hst⟩
  · exact ⟨hinv.1, hinv.2.1⟩
  · rintro s a s' ⟨hi, ht, hne⟩ hok hs
    exact ⟨step_inv hi hs, step_tracks hi hn ht hne hok hs⟩

omit [Inhabited T] in
/-- The start of an await. -/
theorem step_call {k k' : Task T C L β} {f : Frame T C L} {rest : List (Frame T C L)}
    {how : Bind C} {child : Option (Wrapper T L)} (hf : k.frames = f :: rest)
    (hs : k.step (.call how child) = some k') :
    Tracks (rest.length + 1) (how.expected f k.env) k' ∧ k'.status = k.status := by
  have hcall : ∀ f' : Frame T C L, how.expected f' k.env = how.expected f k.env →
      Tracks (rest.length + 1) (how.expected f k.env) (k.call f' rest how child) ∧
        (k.call f' rest how child).status = k.status := by
    intro f' he
    rw [← he]
    cases how <;> exact ⟨.inl ⟨[], _, _, rfl, rfl, rfl⟩, rfl⟩
  simp only [Task.step, hf] at hs
  cases hk : f.kind with
  | body =>
      simp only [hk, Option.some.injEq] at hs
      exact hs ▸ hcall f rfl
  | opened g =>
      cases how with
      | plain =>
          simp only [hk, Option.some.injEq] at hs
          exact hs ▸ hcall _ rfl
      | _ => simp [hk] at hs
  | _ => simp [hk] at hs

/-- A coroutine awaits another one, plainly or bound to a context.  When it
    resumes, the task has the token and the locals that it had at the await, and
    the context it had, the one it was bound to, or that of the awaiter's own
    caller; and while the other one executes, this is the context of its caller.
    No assertion of a wrapper fails. -/
theorem await_restores_task :
    (∀ (s s₁ s₂ : State T C L β) (t i : Nat) (below : List Nat) (how : Bind C)
      (child : Option (Wrapper T L)) (f : Frame T C L) (rest : List (Frame T C L)),
      callTree.Reachable s → s.stack t = i :: below → (s.tasks i).frames = f :: rest →
      callTree.step s (.act t (.call how child)) = some s₁ →
      callTree.Path (Awaits i (rest.length + 1)) s₁ s₂ → (s₂.tasks i).status = .running →
      ((s₂.tasks i).frames.length = rest.length + 1 →
        (s₂.tasks i).env.token = (s.tasks i).env.token ∧
        (s₂.tasks i).env.locals = (s.tasks i).env.locals ∧
        (s₂.tasks i).env.context = (how.expected f (s.tasks i).env).context) ∧
      (∀ g base, (s₂.tasks i).frames = g :: base → base.length = rest.length + 1 →
        g.getCallerContext (s₂.tasks i).env = (how.expected f (s.tasks i).env).context)) ∧
    (∀ s : State T C L β, callTree.Reachable s → ∀ i, (s.tasks i).assertFailed = false) := by
  refine ⟨?_, fun s hr i => (reachable_inv hr).assert i⟩
  intro s s₁ s₂ t i below how child f rest hr hstack hf hs hp hrun
  have hr₁ : callTree.Reachable s₁ := hr.next _ hs
  have hrun₀ := (reachable_inv hr).running t i (by rw [hstack]; exact List.mem_cons_self)
  simp only [callTree, hstack] at hs
  obtain ⟨k, hk, rfl⟩ := Option.map_eq_some_iff.mp hs
  obtain ⟨htr, hst⟩ := step_call hf hk
  obtain ⟨hi₂, ht⟩ := path_tracks (i := i) hr₁ (Nat.succ_pos _) (by simpa using htr)
    (by simp [hst, hrun₀]) hp
  obtain ⟨pre, g, base, hfr, hb, hg⟩ | ⟨hl, he⟩ := ht
  · refine ⟨fun hl => ?_, fun g' base' hfr' hb' => ?_⟩
    · simp [hfr, hb] at hl
      omega
    · -- the awaited coroutine is the innermost one
      have hpre : pre = [] := by
        have := congrArg List.length (hfr.symm.trans hfr')
        simp [hb, hb'] at this
        exact this
      subst hpre
      obtain ⟨rfl, -⟩ := List.cons.inj (hfr.symm.trans hfr')
      have hc := hi₂.chain i
      rw [hfr'] at hc
      rw [← hg, ← hc.1]
      rfl
  · refine ⟨fun _ => ?_, fun g base hfr hb => ?_⟩
    · rw [he]
      cases how <;> exact ⟨rfl, rfl, rfl⟩
    · simp [hfr, hb] at hl

end Runs

end Coroactors.CallTree
