/-
  Coroactors.TaskGroup.Move

  Moving a `task_group` (coroactors/task_group.h).

  A group holds its sink and its stop source by pointers, and the record of the
  locals that its tasks inherit.  The move constructor takes the first two, and
  leaves the new object's `inherited_locals_` as it is initialised.

  A program is a list of operations: those of the owner, completions of tasks,
  what the tasks see of their tokens and locals, moves to a new object, and the
  destruction of an object that was moved from.  Every operation runs as a
  whole, and every operation but the last two observes something.  The same
  program without the moves is the reference.
-/

import Coroactors.TaskGroup.Sink
import Mathlib.Data.List.Induction

namespace Coroactors.TaskGroup.Move

universe u v

variable {α : Type u} {R : Type v}

-- ============================================================================
-- The sink
-- ============================================================================

/-- `next` or `next_result`. -/
inductive Await where
  | next
  | nextResult
deriving DecidableEq, Repr

structure Sink (α : Type u) where
  lastReady : Head α
  readyQueue : List (Node α)
  /-- The await whose coroutine is suspended. -/
  continuation : Option Await
  count : Nat
  nextIndex : Nat

def Sink.new : Sink α := ⟨.null, [], none, 0, 0⟩

/-- `push`, and the continuation it returns. -/
def Sink.push (k : Sink α) (n : Node α) : Sink α × Option Await :=
  match k.lastReady with
  | .awaiting =>
      ({ k with lastReady := .null, readyQueue := n :: k.readyQueue, continuation := none },
        k.continuation)
  | .detached => (k, none)
  | h => ({ k with lastReady := .results n h.list }, none)

def Sink.ready (k : Sink α) : Bool :=
  !k.readyQueue.isEmpty ||
    match k.lastReady with
    | .null | .awaiting => false
    | _ => true

/-- `await_ready` of the awaiters. -/
def Sink.awaitReady (k : Sink α) : Except String Bool :=
  if k.count = 0 then .error "task group has no tasks to await"
  else if k.continuation.isSome then
    .error "task group cannot be awaited by multiple coroutines"
  else .ok (!k.readyQueue.isEmpty || k.lastReady.view != .null)

/-- `await_suspend`. -/
def Sink.awaitSuspend (k : Sink α) (a : Await) : Sink α × Bool :=
  match k.lastReady with
  | .null => ({ k with lastReady := .awaiting, continuation := some a }, true)
  | .cancelled => ({ k with lastReady := .null, continuation := none }, false)
  | _ => ({ k with continuation := none }, false)

/-- `await_resume`. -/
def Sink.awaitResume (k : Sink α) : Sink α × Option (Node α) :=
  let k' := if k.readyQueue.isEmpty then
    { k with lastReady := .null, readyQueue := k.lastReady.list.reverse } else k
  ({ k' with readyQueue := k'.readyQueue.tail, count := k.count - 1 }, k'.readyQueue.head?)

/-- `detach`. -/
def Sink.detach (k : Sink α) : Sink α :=
  { k with
    lastReady := .detached
    readyQueue := []
    continuation := if k.lastReady.view = .awaiting then none else k.continuation }

-- ============================================================================
-- Groups and tasks
-- ============================================================================

/-- The members of a `task_group`; `R` are the records of locals. -/
structure Group (R : Type v) where
  sink : Option Nat
  /-- The state of the stop source. -/
  source : Option Nat
  inheritedLocals : Option R

/-- A task of a group: its place in the sink, its token and its locals. -/
structure Task (R : Type v) where
  index : Nat
  sink : Nat
  token : Option Nat
  locals : Option R
  running : Bool

structure World (α : Type u) (R : Type v) where
  sinks : Nat → Sink α
  /-- Whether a stop state was stopped. -/
  stopped : Nat → Bool
  group : Group R
  /-- Objects that were moved from. -/
  moved : List (Group R)
  tasks : List (Task R)

/-- A new group, with a sink and a stop state of its own. -/
def World.start : World α R where
  sinks _ := .new
  stopped _ := false
  group := ⟨some 0, some 0, none⟩
  moved := []
  tasks := []

inductive Op (α : Type u) (R : Type v) where
  | setInheritedLocals (record : Option R)
  | add
  /-- The task with this index finishes. -/
  | complete (index : Nat) (value : α)
  | await (a : Await)
  | requestStop
  | getStopToken
  | count
  | ready
  /-- The task with this index looks at its token and its locals. -/
  | look (index : Nat)
  /-- A new group is constructed from the group, and used from then on. -/
  | move
  /-- An object that was moved from is destroyed. -/
  | destroyMoved

/-- What an operation observes. -/
inductive Obs (α : Type u) (R : Type v) where
  | nothing
  | added (index : Nat) (token : Option Nat) (locals : Option R)
  /-- The coroutine is suspended. -/
  | suspended
  | value (v : α)
  | node (n : Node α)
  | error (message : String)
  /-- A failed assertion. -/
  | failed
  | token (token : Option Nat) (stopped : Bool)
  | count (n : Nat)
  | ready (b : Bool)
  | seen (stopped : Bool) (locals : Option R)
deriving DecidableEq

/-- The result of an await. -/
def Await.result (a : Await) (n : Option (Node α)) : Obs α R :=
  match n, a with
  | none, _ => .failed
  | some n, .next => .value n.value
  | some n, .nextResult => .node n

namespace World

def setSink (w : World α R) (k : Nat) (x : Sink α) : World α R :=
  { w with sinks := Function.update w.sinks k x }

/-- `request_stop` on a source, which may have no state. -/
def stop (w : World α R) : Option Nat → World α R
  | some k => { w with stopped := Function.update w.stopped k true }
  | none => w

/-- `stop_requested` of a token, which may have no state. -/
def stopRequested (w : World α R) (token : Option Nat) : Bool := token.any w.stopped

/-- The coroutine of an await is resumed. -/
def resume (w : World α R) (k : Nat) (a : Await) : World α R × Obs α R :=
  let (x, n) := (w.sinks k).awaitResume
  (w.setSink k x, a.result n)

/-- `add`. -/
def add (w : World α R) : World α R × Obs α R :=
  match w.group.sink with
  | none => (w, .failed)
  | some k =>
      let x := w.sinks k
      let i := x.nextIndex
      let w := w.setSink k { x with count := x.count + 1, nextIndex := i + 1 }
      ({ w with tasks := w.tasks ++ [⟨i, k, w.group.source, w.group.inheritedLocals, true⟩] },
        .added i w.group.source w.group.inheritedLocals)

/-- `final_suspend` of a task: the result is pushed, and the continuation runs. -/
def complete (w : World α R) (index : Nat) (value : α) : World α R × Obs α R :=
  match w.tasks.find? fun t => t.index = index && t.running with
  | none => (w, .nothing)
  | some t =>
      let (x, c) := (w.sinks t.sink).push ⟨index, value⟩
      let w := { w.setSink t.sink x with
        tasks := w.tasks.map fun u => if u.index = index then { u with running := false } else u }
      match c with
      | none => (w, .nothing)
      | some a => w.resume t.sink a

/-- `co_await group.next()` or `co_await group.next_result()`. -/
def await (w : World α R) (a : Await) : World α R × Obs α R :=
  match w.group.sink with
  | none => (w, .failed)
  | some k =>
      match (w.sinks k).awaitReady with
      | .error e => (w, .error e)
      | .ok true => w.resume k a
      | .ok false =>
          match (w.sinks k).awaitSuspend a with
          | (x, true) => (w.setSink k x, .suspended)
          | (x, false) => (w.setSink k x).resume k a

/-- The move constructor. -/
def move (w : World α R) : World α R :=
  { w with
    group := ⟨w.group.sink, w.group.source, none⟩
    moved := ⟨none, none, w.group.inheritedLocals⟩ :: w.moved }

/-- The destructors of a group and of its stop source. -/
def destroy (w : World α R) (g : Group R) : World α R :=
  let w := match g.sink with
    | some k => w.setSink k (w.sinks k).detach
    | none => w
  w.stop g.source

/-- An operation, and what it observes. -/
def step (w : World α R) : Op α R → World α R × Option (Obs α R)
  | .setInheritedLocals r =>
      ({ w with group := { w.group with inheritedLocals := r } }, some .nothing)
  | .add => w.add.map id some
  | .complete i v => (w.complete i v).map id some
  | .await a => (w.await a).map id some
  | .requestStop => (w.stop w.group.source, some .nothing)
  | .getStopToken =>
      (w, some (.token w.group.source (w.stopRequested w.group.source)))
  | .count => (w, some (w.group.sink.elim .failed fun k => .count (w.sinks k).count))
  | .ready => (w, some (w.group.sink.elim .failed fun k => .ready (w.sinks k).ready))
  | .look i =>
      (w, some ((w.tasks.find? (·.index = i)).elim .nothing fun t =>
        .seen (w.stopRequested t.token) t.locals))
  | .move => (w.move, none)
  | .destroyMoved =>
      match w.moved with
      | [] => (w, none)
      | g :: gs => ({ w with moved := gs }.destroy g, none)

end World

/-- Run a program from a new group, and collect what it observes. -/
def run (ops : List (Op α R)) : World α R × List (Obs α R) :=
  ops.foldl (fun p op => ((p.1.step op).1, p.2 ++ (p.1.step op).2.toList)) (.start, [])

/-- The program without its moves. -/
def Op.stays : Op α R → Bool
  | .move | .destroyMoved => false
  | _ => true

def withoutMoves (ops : List (Op α R)) : List (Op α R) := ops.filter Op.stays

-- ============================================================================
-- The locals of the group
-- ============================================================================

/-- The record of the last `set_inherited_locals`, null before the first. -/
def lastSet (ops : List (Op α R)) : Option R :=
  ops.foldl (fun r op => match op with | .setInheritedLocals r' => r' | _ => r) none

/-- The group was moved after the last `set_inherited_locals`. -/
def movedSince (ops : List (Op α R)) : Bool :=
  ops.foldl (fun b op => match op with | .setInheritedLocals _ => false | .move => true | _ => b)
    false

/-- Whenever a task is added after a move, and the locals were not set again in
    between, there are no locals to inherit. -/
def LocalsKept (ops : List (Op α R)) : Prop :=
  ∀ pre post, ops = pre ++ .add :: post → movedSince pre = true → lastSet pre = none

theorem localsKept_nil : LocalsKept ([] : List (Op α R)) := by
  intro pre post h
  simp at h

theorem localsKept_append {ops : List (Op α R)} {op : Op α R} :
    LocalsKept (ops ++ [op]) ↔
      LocalsKept ops ∧ (op = .add → movedSince ops = true → lastSet ops = none) := by
  constructor
  · intro h
    refine ⟨fun pre post hops => h pre (post ++ [op]) (by simp [hops]), ?_⟩
    rintro rfl
    exact h ops [] rfl
  · rintro ⟨h, hadd⟩ pre post hops
    rcases List.eq_nil_or_concat post with rfl | ⟨post', o, rfl⟩
    · obtain ⟨rfl, rfl⟩ : ops = pre ∧ op = .add := by simpa using hops
      exact hadd rfl
    · refine h pre post' ?_
      have hops' : ops ++ [op] = (pre ++ .add :: post') ++ [o] := by simpa using hops
      exact (List.append_inj' hops' rfl).1

-- ============================================================================
-- The same group without moves
-- ============================================================================

namespace World

/-- The same world, had the group not been moved. -/
def unmoved (w : World α R) (r : Option R) : World α R :=
  { w with group := { w.group with inheritedLocals := r }, moved := [] }

variable {w : World α R} {r : Option R}

@[simp] theorem unmoved_sinks : (w.unmoved r).sinks = w.sinks := rfl
@[simp] theorem unmoved_tasks : (w.unmoved r).tasks = w.tasks := rfl
@[simp] theorem unmoved_sink : (w.unmoved r).group.sink = w.group.sink := rfl
@[simp] theorem unmoved_source : (w.unmoved r).group.source = w.group.source := rfl

theorem complete_unmoved {i : Nat} {v : α} :
    (w.unmoved r).complete i v = ((w.complete i v).1.unmoved r, (w.complete i v).2) := by
  cases h : w.tasks.find? (fun t => t.index = i && t.running) with
  | none => simp only [complete, unmoved_tasks, h]
  | some t =>
      cases hc : ((w.sinks t.sink).push ⟨i, v⟩).2 with
      | none =>
          simp only [complete, unmoved_tasks, unmoved_sinks, h, hc]
          rfl
      | some a =>
          simp only [complete, unmoved_tasks, unmoved_sinks, h, hc]
          rfl

theorem await_unmoved {a : Await} :
    (w.unmoved r).await a = ((w.await a).1.unmoved r, (w.await a).2) := by
  cases hk : w.group.sink with
  | none => simp only [await, unmoved_sink, hk]
  | some k =>
      cases hr : (w.sinks k).awaitReady with
      | error e => simp only [await, unmoved_sink, unmoved_sinks, hk, hr]
      | ok b =>
          cases b with
          | true =>
              simp only [await, unmoved_sink, unmoved_sinks, hk, hr]
              rfl
          | false =>
              cases hs : (w.sinks k).awaitSuspend a with
              | mk x b =>
                  cases b <;> simp only [await, unmoved_sink, unmoved_sinks, hk, hr, hs] <;> rfl

/-- An operation that does not use the group's locals does the same. -/
theorem step_unmoved {op : Op α R} (hs : op.stays = true) (hset : ∀ r, op ≠ .setInheritedLocals r)
    (hadd : op = .add → w.group.inheritedLocals = r) :
    (w.unmoved r).step op = ((w.step op).1.unmoved r, (w.step op).2) := by
  cases op with
  | setInheritedLocals r' => exact absurd rfl (hset r')
  | add =>
      cases hk : w.group.sink with
      | none => simp only [step, add, unmoved_sink, hk, Prod.map]; rfl
      | some k =>
          obtain rfl := hadd rfl
          simp only [step, add, unmoved_sink, unmoved_sinks, hk, Prod.map]
          rfl
  | complete i v => simp only [step, complete_unmoved, Prod.map]; rfl
  | await a => simp only [step, await_unmoved, Prod.map]; rfl
  | requestStop =>
      simp only [step, unmoved_source]
      cases w.group.source <;> rfl
  | getStopToken | count | ready | look i => rfl
  | move | destroyMoved => cases hs

/-- An object that was moved from has nothing to stop or to detach. -/
theorem destroy_moved {g : Group R} (hs : g.sink = none) (hg : g.source = none) :
    w.destroy g = w := by
  rw [destroy, hs, hg]
  rfl

end World

-- ============================================================================
-- Programs
-- ============================================================================

theorem run_append (ops : List (Op α R)) (op : Op α R) :
    run (ops ++ [op]) = (((run ops).1.step op).1, (run ops).2 ++ ((run ops).1.step op).2.toList) := by
  rw [run, List.foldl_append]
  rfl

theorem lastSet_append (ops : List (Op α R)) (op : Op α R) :
    lastSet (ops ++ [op]) = match op with | .setInheritedLocals r => r | _ => lastSet ops := by
  rw [lastSet, List.foldl_append]
  rfl

theorem movedSince_append (ops : List (Op α R)) (op : Op α R) :
    movedSince (ops ++ [op]) =
      match op with | .setInheritedLocals _ => false | .move => true | _ => movedSince ops := by
  rw [movedSince, List.foldl_append]
  rfl

theorem withoutMoves_append (ops : List (Op α R)) (op : Op α R) :
    withoutMoves (ops ++ [op]) = withoutMoves ops ++ if op.stays then [op] else [] := by
  rw [withoutMoves, List.filter_append, withoutMoves]
  cases h : op.stays <;> simp [h]

/-- The objects that were moved from are empty, and the group has the locals that
    were set after the last move. -/
structure Moved (ops : List (Op α R)) (w : World α R) : Prop where
  sink : ∃ k, w.group.sink = some k
  empty : ∀ g ∈ w.moved, g.sink = none ∧ g.source = none
  locals : w.group.inheritedLocals = if movedSince ops then none else lastSet ops

theorem World.step_group {w : World α R} {op : Op α R} (hs : op.stays = true)
    (hset : ∀ r, op ≠ .setInheritedLocals r) :
    (w.step op).1.group = w.group ∧ (w.step op).1.moved = w.moved := by
  cases op with
  | setInheritedLocals r => exact absurd rfl (hset r)
  | add =>
      simp only [step, add]
      split <;> exact ⟨rfl, rfl⟩
  | complete i v =>
      simp only [step, complete]
      split
      · exact ⟨rfl, rfl⟩
      · split <;> exact ⟨rfl, rfl⟩
  | await a =>
      simp only [step, await]
      split
      · exact ⟨rfl, rfl⟩
      · split
        · exact ⟨rfl, rfl⟩
        · exact ⟨rfl, rfl⟩
        · split <;> exact ⟨rfl, rfl⟩
  | requestStop =>
      simp only [step, stop]
      split <;> exact ⟨rfl, rfl⟩
  | getStopToken | count | ready | look i => exact ⟨rfl, rfl⟩
  | move | destroyMoved => cases hs

/-- An operation that is not about the locals of the group. -/
theorem lastSet_of_ne (ops : List (Op α R)) {op : Op α R} (hs : op.stays = true)
    (hset : ∀ r, op ≠ .setInheritedLocals r) :
    lastSet (ops ++ [op]) = lastSet ops ∧ movedSince (ops ++ [op]) = movedSince ops := by
  rw [lastSet_append, movedSince_append]
  cases op with
  | setInheritedLocals r => exact absurd rfl (hset r)
  | move | destroyMoved => cases hs
  | add | complete | await | requestStop | getStopToken | count | ready | look => exact ⟨rfl, rfl⟩

theorem Moved.step {ops : List (Op α R)} {w : World α R} (h : Moved ops w) (op : Op α R) :
    Moved (ops ++ [op]) (w.step op).1 := by
  obtain ⟨hsink, hempty, hlocals⟩ := h
  by_cases hset : ∃ r, op = .setInheritedLocals r
  · obtain ⟨r, rfl⟩ := hset
    exact ⟨hsink, hempty, by rw [lastSet_append, movedSince_append]; rfl⟩
  · cases hs : op.stays with
    | true =>
        have hne : ∀ r, op ≠ .setInheritedLocals r := fun r hr => hset ⟨r, hr⟩
        obtain ⟨hg, hm⟩ := w.step_group hs hne
        obtain ⟨hl, hv⟩ := lastSet_of_ne ops hs hne
        exact ⟨hg ▸ hsink, hm ▸ hempty, by rw [hg, hl, hv, hlocals]⟩
    | false =>
        cases op with
        | move =>
            refine ⟨hsink, fun g hg => ?_, by rw [lastSet_append, movedSince_append]; rfl⟩
            rcases List.mem_cons.mp hg with rfl | hg
            · exact ⟨rfl, rfl⟩
            · exact hempty g hg
        | destroyMoved =>
            have hkeep : lastSet (ops ++ [Op.destroyMoved]) = lastSet ops ∧
                movedSince (ops ++ [Op.destroyMoved]) = movedSince ops := by
              rw [lastSet_append, movedSince_append]
              exact ⟨rfl, rfl⟩
            rw [World.step]
            split
            · exact ⟨hsink, hempty, by rw [hkeep.1, hkeep.2, hlocals]⟩
            · next g gs hg =>
              obtain ⟨h1, h2⟩ := hempty g (hg ▸ List.mem_cons_self)
              rw [World.destroy_moved h1 h2]
              refine ⟨hsink, fun g' hg' => hempty g' (hg ▸ List.mem_cons_of_mem g hg'), ?_⟩
              rw [hkeep.1, hkeep.2]
              exact hlocals
        | _ => cases hs

theorem moved_run (ops : List (Op α R)) : Moved ops (run ops).1 := by
  induction ops using List.reverseRecOn with
  | nil => exact ⟨⟨0, rfl⟩, List.forall_mem_nil _, rfl⟩
  | append_singleton ops op ih =>
      rw [run_append]
      exact ih.step op

/-- Every operation but a move observes something. -/
theorem World.step_obs {w : World α R} {op : Op α R} :
    (w.step op).2.isSome = op.stays := by
  cases op <;> simp only [step, Op.stays, Prod.map] <;> first | rfl | (split <;> rfl)

/-- The runs with and without the moves agree. -/
structure Agree (ops : List (Op α R)) : Prop where
  world : (run (withoutMoves ops)).1 = (run ops).1.unmoved (lastSet ops)
  obs : (run (withoutMoves ops)).2 = (run ops).2

/-- A move, or the destruction of an object that was moved from. -/
theorem Agree.move {ops : List (Op α R)} {op : Op α R} (h : Agree ops) (hs : op.stays = false) :
    Agree (ops ++ [op]) := by
  have hrun : run (withoutMoves (ops ++ [op])) = run (withoutMoves ops) := by
    rw [withoutMoves_append, hs]
    simp
  have hobs : ((run ops).1.step op).2 = none := by
    have hsome : ((run ops).1.step op).2.isSome = op.stays := World.step_obs
    rw [hs] at hsome
    simpa using hsome
  have hw : ((run ops).1.step op).1.unmoved (lastSet (ops ++ [op])) =
      (run ops).1.unmoved (lastSet ops) := by
    rw [lastSet_append]
    cases op with
    | move => rfl
    | destroyMoved =>
        rw [World.step]
        split
        · rfl
        · next g gs hg =>
          obtain ⟨h1, h2⟩ := (moved_run ops).empty g (hg ▸ List.mem_cons_self)
          rw [World.destroy_moved h1 h2]
          rfl
    | _ => cases hs
  refine ⟨?_, ?_⟩
  · rw [hrun, run_append, hw, h.world]
  · rw [hrun, run_append, hobs, h.obs]
    simp

/-- The group's locals are set again. -/
theorem Agree.set {ops : List (Op α R)} {r : Option R} (h : Agree ops) :
    Agree (ops ++ [.setInheritedLocals r]) := by
  have hmoves : withoutMoves (ops ++ [Op.setInheritedLocals r]) =
      withoutMoves ops ++ [.setInheritedLocals r] := by
    rw [withoutMoves_append]
    rfl
  refine ⟨?_, ?_⟩
  · rw [hmoves, run_append, run_append, lastSet_append, h.world]
    rfl
  · rw [hmoves, run_append, run_append, h.obs]
    rfl

/-- Any other operation, where the locals that `add` uses were not lost. -/
theorem Agree.step {ops : List (Op α R)} {op : Op α R} (h : Agree ops) (hs : op.stays = true)
    (hset : ∀ r, op ≠ .setInheritedLocals r)
    (hadd : op = .add → movedSince ops = true → lastSet ops = none) : Agree (ops ++ [op]) := by
  have hmoves : withoutMoves (ops ++ [op]) = withoutMoves ops ++ [op] := by
    rw [withoutMoves_append, hs]
    rfl
  have hlocals : op = .add → (run ops).1.group.inheritedLocals = lastSet ops := by
    intro ha
    rw [(moved_run ops).locals]
    split
    · next hm => exact (hadd ha hm).symm
    · rfl
  have hstep := World.step_unmoved (w := (run ops).1) hs hset hlocals
  refine ⟨?_, ?_⟩
  · rw [hmoves, run_append, run_append, (lastSet_of_ne _ hs hset).1, h.world, hstep]
  · rw [hmoves, run_append, run_append, h.world, hstep, h.obs]

theorem agree_of_localsKept {ops : List (Op α R)} (h : LocalsKept ops) : Agree ops := by
  induction ops using List.reverseRecOn with
  | nil => exact ⟨rfl, rfl⟩
  | append_singleton ops op ih =>
      obtain ⟨hkept, hadd⟩ := localsKept_append.mp h
      have hagree := ih hkept
      by_cases hset : ∃ r, op = .setInheritedLocals r
      · obtain ⟨r, rfl⟩ := hset
        exact hagree.set
      · cases hs : op.stays with
        | false => exact hagree.move hs
        | true => exact hagree.step hs (fun r hr => hset ⟨r, hr⟩) hadd

/-- A task that is added after the locals were lost sees other locals. -/
theorem Agree.add_ne {ops : List (Op α R)} (h : Agree ops) (hm : movedSince ops = true)
    (hne : lastSet ops ≠ none) :
    ((run (withoutMoves ops)).1.step .add).2 ≠ ((run ops).1.step .add).2 := by
  obtain ⟨⟨k, hk⟩, -, hlocals⟩ := moved_run ops
  rw [hm, if_pos rfl] at hlocals
  have hk' : (run (withoutMoves ops)).1.group.sink = some k := by rw [h.world]; exact hk
  simp only [World.step, World.add, hk, hk', Prod.map, World.setSink]
  rw [hlocals, h.world]
  intro heq
  injection Option.some.inj heq with _ _ hlast
  exact hne hlast

/-- What the runs observe is the same only if no locals are lost. -/
theorem localsKept_of_obs {ops : List (Op α R)}
    (h : (run (withoutMoves ops)).2 = (run ops).2) : LocalsKept ops := by
  induction ops using List.reverseRecOn with
  | nil => exact localsKept_nil
  | append_singleton ops op ih =>
      rw [withoutMoves_append] at h
      cases hs : op.stays with
      | false =>
          have hobs : ((run ops).1.step op).2 = none := by
            have hsome : ((run ops).1.step op).2.isSome = op.stays := World.step_obs
            rw [hs] at hsome
            simpa using hsome
          have hsame : (run (withoutMoves ops)).2 = (run ops).2 := by
            simpa [hs, run_append, hobs] using h
          refine localsKept_append.mpr ⟨ih hsame, ?_⟩
          rintro rfl
          cases hs
      | true =>
          obtain ⟨o, ho⟩ := Option.isSome_iff_exists.mp ((run ops).1.step_obs.trans hs)
          obtain ⟨o', ho'⟩ := Option.isSome_iff_exists.mp
            ((run (withoutMoves ops)).1.step_obs.trans hs)
          rw [hs, if_pos rfl, run_append, run_append, ho, ho'] at h
          obtain ⟨hsame, hlast⟩ := List.append_inj' h rfl
          have hkept := ih hsame
          refine localsKept_append.mpr ⟨hkept, ?_⟩
          rintro rfl hm
          by_contra hne
          refine (agree_of_localsKept hkept).add_ne hm hne ?_
          rw [ho, ho', List.cons.inj hlast |>.1]

/-- Moving a group is transparent for exactly the programs that lose no locals:
    whenever a task is added after a move, and the locals were not set again in
    between, they are null.

    In every program, the destruction of an object that was moved from changes
    nothing. -/
theorem move_transparent_iff (ops : List (Op α R)) :
    ((run (withoutMoves ops)).2 = (run ops).2 ↔ LocalsKept ops) ∧
      ∀ g ∈ (run ops).1.moved, (run ops).1.destroy g = (run ops).1 := by
  refine ⟨⟨localsKept_of_obs, fun h => (agree_of_localsKept h).obs⟩, fun g hg => ?_⟩
  obtain ⟨hsink, hsource⟩ := (moved_run ops).empty g hg
  exact World.destroy_moved hsink hsource

/-- A task that is added to a moved group does not inherit the locals. -/
theorem move_loses_locals :
    ¬ ∀ ops : List (Op Nat Nat), (run (withoutMoves ops)).2 = (run ops).2 := by
  intro h
  have := h [.setInheritedLocals (some 7), .move, .add]
  revert this
  decide

end Coroactors.TaskGroup.Move
