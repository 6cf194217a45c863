/-
  Coroactors.StopState.Sources

  `stop_source` (coroactors/detail/stop_token_polyfill.h): the handles that are
  counted in the word of a `stop_state`.

  There are any number of states and of handles.  An operation on handles first
  moves pointers, which no other thread may look at, and then makes its calls
  of `add_source` and `remove_source`, one atomic step each.  An assignment has
  both, first the one and then the other.  The reference counts that keep a
  state in memory are not part of this model.

  Sources are counted late and discounted late: the number in the word, with
  the additions still to be made, is the number of handles with the removals
  still to be made.
-/

import Coroactors.StopState.CallbackSteps
import Mathlib.Data.List.Perm.Subperm

namespace Coroactors.StopState

open Coroactors.Conc

-- ============================================================================
-- Model
-- ============================================================================

/-- The number of sources in the word. -/
def sourceCount (w : Nat) : Nat := w / sourceCountIncrement

/-- `stop_state::stop_possible`, for the value it loads. -/
def stopPossible (w : Nat) : Bool := stopped w || decide (sourceCountIncrement ≤ w)

section Model

variable {Q H K : Type*}

structure Sources (Q H K : Type*) where
  stop : Q → State K
  /-- The states that were made. -/
  made : Q → Bool
  /-- The handles that exist. -/
  live : List H
  ptr : H → Option Q
  /-- The calls of `add_source` still to be made: by whom, and for which handle. -/
  adds : List (Nat × H × Q)
  /-- The calls of `remove_source` still to be made. -/
  removes : List (Nat × H × Q)

inductive SourceAct (Q H K : Type*) where
  /-- `stop_source()`, with a new state. -/
  | make (t : Nat) (h : H) (q : Q)
  /-- `stop_source(nostopstate)`. -/
  | makeNull (t : Nat) (h : H)
  /-- `stop_source(const stop_source&)`. -/
  | copy (t : Nat) (h g : H)
  /-- `stop_source(stop_source&&)`. -/
  | move (t : Nat) (h g : H)
  | destroy (t : Nat) (h : H)
  | copyAssign (t : Nat) (h g : H)
  | moveAssign (t : Nat) (h g : H)
  | swap (t : Nat) (h g : H)
  /-- The next `add_source` or `remove_source` of the thread's operation. -/
  | count (t : Nat)
  /-- A step of the operations on one state. -/
  | state (q : Q) (a : Act K)
deriving DecidableEq, Repr

/-- The steps of a state that are not made through a handle, and their thread. -/
def Act.thread : Act K → Option Nat
  | .addSource _ | .removeSource _ => none
  | .add t _ | .remove t _ | .requestStop t | .ret t | .step t _ => some t

namespace Sources

def start : Sources Q H K where
  stop _ := .start
  made _ := false
  live := []
  ptr _ := none
  adds := []
  removes := []

/-- The thread is in an operation on handles. -/
def working (s : Sources Q H K) (t : Nat) : Bool :=
  (s.adds ++ s.removes).any fun e => e.1 = t

variable [DecidableEq H]

/-- An operation in progress is about the handle. -/
def busy (s : Sources Q H K) (h : H) : Bool :=
  (s.adds ++ s.removes).any fun e => e.2.1 = h

/-- The thread may use the handle. -/
def usable (s : Sources Q H K) (h : H) : Bool := decide (h ∈ s.live) && !s.busy h

/-- The handle comes into being, without a state. -/
def create (s : Sources Q H K) (h : H) : Sources Q H K := { s with live := h :: s.live }

/-- The handle, which has no state, gets one; `add_source` is still to be called. -/
def share (s : Sources Q H K) (t : Nat) (h : H) : Option Q → Sources Q H K
  | none => s
  | some q =>
      { s with ptr := Function.update s.ptr h (some q), adds := (t, h, q) :: s.adds }

/-- The handle loses its state; `remove_source` is still to be called. -/
def take (s : Sources Q H K) (t : Nat) (h : H) : Sources Q H K :=
  match s.ptr h with
  | none => s
  | some q =>
      { s with ptr := Function.update s.ptr h none, removes := (t, h, q) :: s.removes }

/-- The handle `h`, which has no state, gets the one of `g`. -/
def grab (s : Sources Q H K) (h g : H) : Sources Q H K :=
  { s with ptr := Function.update (Function.update s.ptr h (s.ptr g)) g none }

end Sources

variable [DecidableEq Q] [DecidableEq H] [DecidableEq K]

/-- The states with their sources, callbacks and tokens, and any number of
    threads. -/
def sources : System (Sources Q H K) (SourceAct Q H K) where
  init s := s = .start
  step s
    | .make t h q =>
        if s.working t = false ∧ h ∉ s.live ∧ s.busy h = false ∧ s.made q = false then
          some ({ s with made := Function.update s.made q true }.create h |>.share t h (some q))
        else none
    | .makeNull t h =>
        if s.working t = false ∧ h ∉ s.live ∧ s.busy h = false then some (s.create h) else none
    | .copy t h g =>
        if s.working t = false ∧ h ∉ s.live ∧ s.busy h = false ∧ s.usable g then
          some ((s.create h).share t h (s.ptr g))
        else none
    | .move t h g =>
        if s.working t = false ∧ h ∉ s.live ∧ s.busy h = false ∧ s.usable g then
          some ((s.create h).grab h g)
        else none
    | .destroy t h =>
        if s.working t = false ∧ s.usable h then
          let s := s.take t h
          some { s with live := s.live.erase h }
        else none
    | .copyAssign t h g =>
        if s.working t = false ∧ s.usable h ∧ s.usable g then
          if h = g then some s else some ((s.take t h).share t h (s.ptr g))
        else none
    | .moveAssign t h g =>
        if s.working t = false ∧ s.usable h ∧ s.usable g then
          if h = g then some s else some ((s.take t h).grab h g)
        else none
    | .swap t h g =>
        if s.working t = false ∧ s.usable h ∧ s.usable g then
          some { s with
            ptr := Function.update (Function.update s.ptr h (s.ptr g)) g (s.ptr h) }
        else none
    | .count t =>
        match s.adds.find? fun e => e.1 = t with
        | some e =>
            (stopState.step (s.stop e.2.2) (.addSource t)).map fun x =>
              { s with stop := Function.update s.stop e.2.2 x, adds := s.adds.erase e }
        | none =>
            match s.removes.find? fun e => e.1 = t with
            | some e =>
                (stopState.step (s.stop e.2.2) (.removeSource t)).map fun x =>
                  { s with stop := Function.update s.stop e.2.2 x, removes := s.removes.erase e }
            | none => none
    | .state q a =>
        if s.made q = true ∧ a.thread.any fun t => !s.working t then
          (stopState.step (s.stop q) a).map fun x =>
            { s with stop := Function.update s.stop q x }
        else none

end Model

-- ============================================================================
-- The word
-- ============================================================================

theorem div_eight_or (w v : Nat) (hv : v < 8) : (w ||| v) / 8 = w / 8 := by
  have h : ∀ n : Nat, n / 8 = n >>> 3 := fun n => (Nat.shiftRight_eq_div_pow n 3).symm
  rw [h, h, Nat.shiftRight_or_distrib, ← h v, Nat.div_eq_of_lt hv, Nat.or_zero]

/-- The word is made of the number of sources and the three flags. -/
theorem word_eq (w : Nat) :
    w = 8 * sourceCount w + 4 * (locked w).toNat + 2 * (waiting w).toNat + (stopped w).toNat := by
  rw [locked_eq_mod, waiting_eq_mod, stopped_eq_mod, sourceCount, sourceCountIncrement]
  have hbit (n : Nat) : (decide (n % 2 = 1)).toNat = n % 2 := by
    rcases Nat.mod_two_eq_zero_or_one n with h | h <;> simp [h]
  rw [hbit, hbit, hbit]
  omega

theorem stopPossible_iff (w : Nat) :
    stopPossible w = true ↔ stopped w = true ∨ 0 < sourceCount w := by
  have h : decide (sourceCountIncrement ≤ w) = true ↔ 0 < sourceCount w := by
    rw [decide_eq_true_eq]
    unfold sourceCount sourceCountIncrement
    omega
  rw [stopPossible, Bool.or_eq_true, h]

/-- What the steps of a state do to its word: the sources stay, and the flags
    `FlagWaiting` and `FlagStopped` are never cleared. -/
structure SameCount (w w' : Nat) : Prop where
  count : sourceCount w' = sourceCount w
  waiting : waiting w = true → waiting w' = true
  stopped : stopped w = true → stopped w' = true

theorem SameCount.refl (w : Nat) : SameCount w w := ⟨rfl, id, id⟩

theorem SameCount.or {v : Nat} (w : Nat) (hv : v < 8) : SameCount w (w ||| v) where
  count := div_eight_or w v hv
  waiting h := by rw [waiting_or, h, Bool.true_or]
  stopped h := by rw [stopped_or, h, Bool.true_or]

theorem SameCount.unlock {w : Nat} (h : locked w = true) : SameCount w (w - flagLocked) where
  count := by
    rw [locked_eq_mod, decide_eq_true_eq] at h
    simp only [sourceCount, sourceCountIncrement, flagLocked]
    omega
  waiting hw := by rw [(flags_unlock h).2.1, hw]
  stopped hs := by rw [(flags_unlock h).1, hs]

section Word

variable {K : Type*} [DecidableEq K] {s s' : State K} {t : Nat}

omit [DecidableEq K] in
theorem acquired_sameCount {w : Want K} : SameCount s.word (s.acquired t w s.word).word := by
  cases w with
  | stop =>
      have h := SameCount.or s.word (v := flagLocked ||| flagStopped) (by decide)
      simp only [State.acquired, Nat.or_assoc]
      split <;> exact h
  | _ => exact .or s.word (by decide)

theorem stepThread_sameCount {c : Choice} (hi : LockInv s) (hs : stepThread s t c = some s') :
    SameCount s.word s'.word := by
  have hmoves : ∀ {s' : State K} {pc : Pc K}, Moves s s' t pc → SameCount s.word s'.word :=
    fun hm => hm.word ▸ .refl _
  cases hp : s.pc t <;> simp only [stepThread, hp] at hs
  case user => cases hs
  case load w =>
    cases hs
    exact hmoves (moves_loop ..)
  case lockCas w current i =>
    split at hs <;> cases hs
    · rename_i h
      rw [← h.1]
      exact acquired_sameCount
    · exact .refl _
  case spin w i =>
    cases hs
    exact hmoves (moves_loop ..)
  case setWaiting w current i =>
    split at hs <;> cases hs
    · rename_i h
      rw [← h.1]
      exact .or s.word (by decide)
    · exact hmoves (moves_loop ..)
  case wait w current i =>
    split at hs <;> cases hs <;> exact .refl _
  case blocked w current i =>
    split at hs
    · split at hs <;> cases hs
      exact .refl _
    · split at hs <;> cases hs <;> exact .refl _
  case reload w i notified =>
    cases hs
    exact hmoves (moves_loop ..)
  case notifyAll =>
    cases hs
    exact .refl _
  case held w =>
    cases hs
    obtain ⟨a, hm⟩ := moves_critical s t w
    exact hmoves hm
  case unlock a =>
    have hl := hi.locked_of_holds (t := t) (by rw [hp]; rfl)
    split at hs <;> cases hs
    · exact .unlock hl
    · have hm := moves_finish { s with word := s.word - flagLocked, holder := none } t a
      rw [hm.word]
      exact .unlock hl
  case notifyOne a =>
    split at hs
    · split at hs <;> cases hs
      rename_i u h
      have hm := moves_finish { s with waiters := s.waiters.erase u } t a
      rw [hm.word]
      exact .refl _
    · split at hs <;> cases hs
      exact hmoves (moves_finish ..)
  case checkRunning k => split at hs <;> cases hs <;> exact .refl _
  case acquire k =>
    split at hs <;> cases hs
    exact .refl _
  case returned k empty =>
    split at hs <;> cases hs
    · exact hmoves (moves_proceed ..)
    · exact .refl _
  case release k empty =>
    cases hs
    have hm := moves_proceed { s with done := Function.update s.done k (s.done k + 1) } t k empty
    rw [hm.word]
    exact .refl _

theorem step_sameCount {a : Act K} (ht : a.thread ≠ none) (hi : LockInv s)
    (hs : stopState.step s a = some s') : SameCount s.word s'.word := by
  cases a with
  | addSource t => exact absurd rfl ht
  | removeSource t => exact absurd rfl ht
  | step t c => exact stepThread_sameCount hi hs
  | ret t =>
      simp only [stopState] at hs
      split at hs
      · split at hs <;> cases hs <;> exact .refl _
      · cases hs
  | _ =>
      simp only [stopState] at hs
      split at hs <;> cases hs
      exact .refl _

end Word

-- ============================================================================
-- Counting handles
-- ============================================================================

section Count

variable {Q H : Type*} [DecidableEq Q] [DecidableEq H]

/-- How many of the handles point to `q`, when the pointer of one is changed. -/
theorem countP_update {l : List H} {h : H} (f : H → Option Q) (v : Option Q) (q : Q)
    (hn : l.Nodup) (hm : h ∈ l) :
    l.countP (fun x => Function.update f h v x = some q) + (if f h = some q then 1 else 0) =
      l.countP (fun x => f x = some q) + (if v = some q then 1 else 0) := by
  induction l with
  | nil => cases hm
  | cons x l ih =>
      obtain ⟨hx, hn'⟩ := List.nodup_cons.mp hn
      rw [List.countP_cons, List.countP_cons]
      rcases List.mem_cons.mp hm with rfl | hm
      · have hcongr : l.countP (fun y => Function.update f h v y = some q) =
            l.countP (fun y => f y = some q) := by
          refine List.countP_congr fun y hy => ?_
          rw [Function.update_of_ne (by rintro rfl; exact hx hy)]
        rw [hcongr, Function.update_self]
        simp only [decide_eq_true_eq]
        omega
      · have hne : x ≠ h := by
          rintro rfl
          exact hx hm
        have := ih hn' hm
        rw [Function.update_of_ne hne]
        omega

end Count

variable {Q H K : Type*} {s s' : Sources Q H K} {t : Nat} {h g : H}

theorem not_mem_adds_of_not_busy [DecidableEq H] (hb : s.busy h = false) :
    h ∉ s.adds.map fun e => e.2.1 := by
  intro hm
  obtain ⟨e, he, rfl⟩ := List.mem_map.mp hm
  simp only [Sources.busy, List.any_eq_false, List.mem_append, decide_eq_true_eq] at hb
  exact hb e (.inl he) rfl

theorem ptr_take [DecidableEq H] (s : Sources Q H K) (t : Nat) (h : H) : (s.take t h).ptr h = none := by
  cases hp : s.ptr h <;> simp [Sources.take, hp]

theorem adds_take [DecidableEq H] (s : Sources Q H K) (t : Nat) (h : H) : (s.take t h).adds = s.adds := by
  cases hp : s.ptr h <;> simp [Sources.take, hp]

theorem live_take [DecidableEq H] (s : Sources Q H K) (t : Nat) (h : H) : (s.take t h).live = s.live := by
  cases hp : s.ptr h <;> simp [Sources.take, hp]

theorem stop_take [DecidableEq H] (s : Sources Q H K) (t : Nat) (h : H) :
    (s.take t h).stop = s.stop := by
  cases hp : s.ptr h <;> simp [Sources.take, hp]

theorem stop_share [DecidableEq H] (s : Sources Q H K) (t : Nat) (h : H) (v : Option Q) :
    (s.share t h v).stop = s.stop := by
  cases v <;> rfl

section Handles

variable [DecidableEq Q]

namespace Sources

/-- The handles to `q`. -/
def refs (s : Sources Q H K) (q : Q) : Nat := s.live.countP fun h => s.ptr h = some q

def pendingAdds (s : Sources Q H K) (q : Q) : Nat := s.adds.countP fun e => e.2.2 = q

def pendingRemoves (s : Sources Q H K) (q : Q) : Nat := s.removes.countP fun e => e.2.2 = q

end Sources

/-- Handles, and the operations on them that are in progress. -/
structure HandleInv (s : Sources Q H K) : Prop where
  nodup : s.live.Nodup
  dead : ∀ h, h ∉ s.live → s.ptr h = none
  adds : ∀ e ∈ s.adds, e.2.1 ∈ s.live ∧ s.ptr e.2.1 = some e.2.2
  addsNodup : (s.adds.map fun e => e.2.1).Nodup

/-- The sources in the word, with the additions to be made, are the handles and
    the removals to be made. -/
def Counted (s : Sources Q H K) : Prop :=
  ∀ q, sourceCount (s.stop q).word + s.pendingAdds q = s.refs q + s.pendingRemoves q

/-- The operations on handles leave the states alone. -/
structure HandleStep (s s' : Sources Q H K) : Prop where
  inv : HandleInv s'
  stop : s'.stop = s.stop
  counted : Counted s → Counted s'

theorem HandleStep.trans {s₁ : Sources Q H K} (h : HandleStep s s₁) (h' : HandleStep s₁ s') :
    HandleStep s s' :=
  ⟨h'.inv, h'.stop.trans h.stop, fun hc => h'.counted (h.counted hc)⟩

theorem HandleInv.create (hi : HandleInv s) (hh : h ∉ s.live) : HandleStep s (s.create h) where
  inv := by
    refine ⟨List.nodup_cons.mpr ⟨hh, hi.nodup⟩, ?_, ?_, hi.addsNodup⟩
    · intro x hx
      exact hi.dead x fun hm => hx (List.mem_cons_of_mem _ hm)
    · intro e he
      exact ⟨List.mem_cons_of_mem _ (hi.adds e he).1, (hi.adds e he).2⟩
  stop := rfl
  counted hc q := by
    have hrefs : (s.create h).refs q = s.refs q :=
      List.countP_cons_of_neg (by simp [Sources.create, hi.dead h hh])
    rw [hrefs]
    exact hc q

variable [DecidableEq H]

theorem HandleInv.share {v : Option Q} (hi : HandleInv s) (hm : h ∈ s.live)
    (hb : h ∉ s.adds.map fun e => e.2.1) (hp : s.ptr h = none) :
    HandleStep s (s.share t h v) := by
  cases v with
  | none => exact ⟨hi, rfl, id⟩
  | some p =>
      constructor
      case inv =>
        refine ⟨hi.nodup, ?_, ?_, List.nodup_cons.mpr ⟨hb, hi.addsNodup⟩⟩
        · intro x hx
          exact (Function.update_of_ne (by rintro rfl; exact hx hm) ..).trans (hi.dead x hx)
        · intro e he
          rcases List.mem_cons.mp he with rfl | he
          · exact ⟨hm, Function.update_self ..⟩
          · obtain ⟨h1, h2⟩ := hi.adds e he
            refine ⟨h1, (Function.update_of_ne ?_ ..).trans h2⟩
            intro heq
            exact hb (List.mem_map.mpr ⟨e, he, heq⟩)
      case stop => rfl
      case counted =>
        intro hc q
        have := hc q
        have hrefs := countP_update s.ptr (some p) q hi.nodup hm
        simp only [hp, Sources.refs, Sources.pendingAdds, Sources.pendingRemoves, Sources.share,
          List.countP_cons, Option.some.injEq, decide_eq_true_eq] at *
        grind -linarith

theorem HandleInv.take (hi : HandleInv s) (hm : h ∈ s.live)
    (hb : h ∉ s.adds.map fun e => e.2.1) : HandleStep s (s.take t h) := by
  cases hp : s.ptr h with
  | none =>
      have : s.take t h = s := by simp [Sources.take, hp]
      rw [this]
      exact ⟨hi, rfl, id⟩
  | some p =>
      have htake : s.take t h = { s with
          ptr := Function.update s.ptr h none
          removes := (t, h, p) :: s.removes } := by simp [Sources.take, hp]
      rw [htake]
      constructor
      case inv =>
        refine ⟨hi.nodup, ?_, ?_, hi.addsNodup⟩
        · intro x hx
          exact (Function.update_of_ne (by rintro rfl; exact hx hm) ..).trans (hi.dead x hx)
        · intro e he
          obtain ⟨h1, h2⟩ := hi.adds e he
          refine ⟨h1, (Function.update_of_ne ?_ ..).trans h2⟩
          intro heq
          exact hb (List.mem_map.mpr ⟨e, he, heq⟩)
      case stop => rfl
      case counted =>
        intro hc q
        have := hc q
        have hrefs := countP_update s.ptr none q hi.nodup hm
        simp only [hp, Sources.refs, Sources.pendingAdds, Sources.pendingRemoves,
          List.countP_cons, Option.some.injEq, decide_eq_true_eq] at *
        grind -linarith

/-- The pointers of two handles are exchanged. -/
theorem HandleInv.exchange (hi : HandleInv s) (hh : h ∈ s.live) (hg : g ∈ s.live)
    (hbh : h ∉ s.adds.map fun e => e.2.1) (hbg : g ∉ s.adds.map fun e => e.2.1) :
    HandleStep s { s with
      ptr := Function.update (Function.update s.ptr h (s.ptr g)) g (s.ptr h) } := by
  constructor
  case inv =>
    refine ⟨hi.nodup, ?_, ?_, hi.addsNodup⟩
    · intro x hx
      have hxg : x ≠ g := by rintro rfl; exact hx hg
      have hxh : x ≠ h := by rintro rfl; exact hx hh
      simp [hxg, hxh, hi.dead x hx]
    · intro e he
      obtain ⟨h1, h2⟩ := hi.adds e he
      have hxg : e.2.1 ≠ g := fun heq => hbg (List.mem_map.mpr ⟨e, he, heq⟩)
      have hxh : e.2.1 ≠ h := fun heq => hbh (List.mem_map.mpr ⟨e, he, heq⟩)
      exact ⟨h1, by simp [hxg, hxh, h2]⟩
  case stop => rfl
  case counted =>
    intro hc q
    have := hc q
    have h1 := countP_update s.ptr (s.ptr g) q hi.nodup hh
    have h2 := countP_update (Function.update s.ptr h (s.ptr g)) (s.ptr h) q hi.nodup hg
    have hself : Function.update s.ptr h (s.ptr g) g = s.ptr g := by
      by_cases heq : g = h
      · subst heq
        simp
      · exact Function.update_of_ne heq ..
    rw [hself] at h2
    simp only [Sources.refs, Sources.pendingAdds, Sources.pendingRemoves] at *
    omega

/-- `grab` is an exchange with a handle that has no state. -/
theorem HandleInv.grab (hi : HandleInv s) (hh : h ∈ s.live) (hg : g ∈ s.live)
    (hbh : h ∉ s.adds.map fun e => e.2.1) (hbg : g ∉ s.adds.map fun e => e.2.1)
    (hp : s.ptr h = none) : HandleStep s (s.grab h g) := by
  have := hi.exchange hh hg hbh hbg
  rwa [hp] at this

/-- A handle without a state goes away. -/
theorem HandleInv.erase (hi : HandleInv s) (hb : h ∉ s.adds.map fun e => e.2.1)
    (hp : s.ptr h = none) : HandleStep s { s with live := s.live.erase h } where
  inv := by
    refine ⟨hi.nodup.erase h, ?_, ?_, hi.addsNodup⟩
    · intro x hx
      by_cases hxh : x = h
      · rw [hxh]
        exact hp
      · exact hi.dead x fun hm => hx ((List.mem_erase_of_ne hxh).mpr hm)
    · intro e he
      obtain ⟨h1, h2⟩ := hi.adds e he
      refine ⟨(List.mem_erase_of_ne fun heq => hb ?_).mpr h1, h2⟩
      exact List.mem_map.mpr ⟨e, he, heq⟩
  stop := rfl
  counted hc q := by
    have hrefs : (s.live.erase h).countP (fun x => s.ptr x = some q) = s.refs q := by
      by_cases hm : h ∈ s.live
      · have := (List.perm_cons_erase hm).countP_eq fun x => decide (s.ptr x = some q)
        rw [List.countP_cons_of_neg (by simp [hp])] at this
        exact this.symm
      · rw [List.erase_of_not_mem hm]
        rfl
    have := hc q
    rw [← hrefs] at this
    exact this

omit [DecidableEq H] in
/-- Every source to be added has its handle. -/
theorem HandleInv.pendingAdds_le (hi : HandleInv s) (q : Q) : s.pendingAdds q ≤ s.refs q := by
  have hnd : ((s.adds.filter fun e => e.2.2 = q).map fun e => e.2.1).Nodup :=
    hi.addsNodup.sublist (List.filter_sublist.map _)
  have hsub : ((s.adds.filter fun e => e.2.2 = q).map fun e => e.2.1) ⊆
      s.live.filter fun h => s.ptr h = some q := by
    intro x hx
    obtain ⟨e, he, rfl⟩ := List.mem_map.mp hx
    obtain ⟨he, hq⟩ := List.mem_filter.mp he
    obtain ⟨h1, h2⟩ := hi.adds e he
    refine List.mem_filter.mpr ⟨h1, ?_⟩
    simpa [h2] using hq
  have hle := (List.subperm_of_subset hnd hsub).length_le
  rwa [List.length_map, ← List.countP_eq_length_filter, ← List.countP_eq_length_filter] at hle

omit [DecidableEq H] in
/-- A source to be removed is in the word. -/
theorem HandleInv.le_word (hi : HandleInv s) (hc : Counted s) {e : Nat × H × Q}
    (he : e ∈ s.removes) : sourceCountIncrement ≤ (s.stop e.2.2).word := by
  have hle := hi.pendingAdds_le e.2.2
  have hcount := hc e.2.2
  have hpos : 0 < s.pendingRemoves e.2.2 :=
    List.countP_pos_iff.mpr ⟨e, he, by simp⟩
  unfold sourceCount sourceCountIncrement at *
  omega

/-- What is left to be done after one call. -/
theorem countP_erase_add {l : List (Nat × H × Q)} {e : Nat × H × Q} (he : e ∈ l) (q : Q) :
    (l.erase e).countP (fun x => x.2.2 = q) + (if e.2.2 = q then 1 else 0) =
      l.countP fun x => x.2.2 = q := by
  rw [(List.perm_cons_erase he).countP_eq, List.countP_cons]
  simp only [decide_eq_true_eq]

end Handles

-- ============================================================================
-- Every step
-- ============================================================================

structure SourcesInv [DecidableEq Q] [DecidableEq K] (s : Sources Q H K) : Prop where
  handles : HandleInv s
  counted : Counted s
  states : ∀ q, stopState.Reachable (s.stop q)

theorem usable_iff [DecidableEq H] : s.usable h = true ↔ h ∈ s.live ∧ s.busy h = false := by
  simp [Sources.usable]

section Steps

variable [DecidableEq Q] [DecidableEq K]

theorem HandleStep.sourcesInv (h : HandleStep s s') (hi : SourcesInv s) : SourcesInv s' :=
  ⟨h.inv, h.counted hi.counted, fun q => h.stop ▸ hi.states q⟩

variable [DecidableEq H]

/-- `add_source` and `remove_source`. -/
theorem SourcesInv.count (hi : SourcesInv s) (hs : sources.step s (.count t) = some s') :
    SourcesInv s' := by
  have hh := hi.handles
  simp only [sources] at hs
  split at hs
  · rename_i e he
    have hmem := List.mem_of_find?_eq_some he
    obtain ⟨x, hx, rfl⟩ := Option.map_eq_some_iff.mp hs
    refine ⟨⟨hh.nodup, hh.dead, ?_, ?_⟩, ?_, ?_⟩
    · exact fun e' he' => hh.adds e' (List.mem_of_mem_erase he')
    · exact hh.addsNodup.sublist (List.erase_sublist.map _)
    · intro q
      have hcount := hi.counted q
      have herase := countP_erase_add hmem q
      have hword : x.word = (s.stop e.2.2).word + sourceCountIncrement := by
        simp only [stopState] at hx
        split at hx <;> cases hx
        rfl
      simp only [Sources.refs, Sources.pendingAdds, Sources.pendingRemoves] at *
      by_cases hq : q = e.2.2
      · subst hq
        rw [Function.update_self, hword]
        unfold sourceCount sourceCountIncrement at *
        simp only [if_true] at herase
        omega
      · rw [Function.update_of_ne hq]
        rw [if_neg (Ne.symm hq)] at herase
        omega
    · intro q
      by_cases hq : q = e.2.2
      · subst hq
        simpa using (hi.states _).next _ hx
      · simpa [hq] using hi.states q
  · split at hs
    · rename_i e he
      have hmem := List.mem_of_find?_eq_some he
      obtain ⟨x, hx, rfl⟩ := Option.map_eq_some_iff.mp hs
      refine ⟨⟨hh.nodup, hh.dead, hh.adds, hh.addsNodup⟩, ?_, ?_⟩
      · intro q
        have hcount := hi.counted q
        have herase := countP_erase_add hmem q
        have hle := hh.le_word hi.counted hmem
        have hword : x.word = (s.stop e.2.2).word - sourceCountIncrement := by
          simp only [stopState] at hx
          split at hx <;> cases hx
          rfl
        simp only [Sources.refs, Sources.pendingAdds, Sources.pendingRemoves] at *
        by_cases hq : q = e.2.2
        · subst hq
          rw [Function.update_self, hword]
          unfold sourceCount sourceCountIncrement at *
          simp only [if_true] at herase
          omega
        · rw [Function.update_of_ne hq]
          rw [if_neg (Ne.symm hq)] at herase
          omega
      · intro q
        by_cases hq : q = e.2.2
        · subst hq
          simpa using (hi.states _).next _ hx
        · simpa [hq] using hi.states q
    · cases hs

theorem step_sourcesInv {a : SourceAct Q H K} (hi : SourcesInv s)
    (hs : sources.step s a = some s') : SourcesInv s' := by
  have hh := hi.handles
  cases a with
  | make t h q =>
      simp only [sources] at hs
      split at hs <;> cases hs
      rename_i hc
      have h0 : HandleStep s { s with made := Function.update s.made q true } :=
        ⟨⟨hh.nodup, hh.dead, hh.adds, hh.addsNodup⟩, rfl, id⟩
      have h1 := h0.inv.create hc.2.1
      have h2 := h1.inv.share (h := h) (t := t) (v := some q) List.mem_cons_self
        (not_mem_adds_of_not_busy hc.2.2.1) (hh.dead h hc.2.1)
      exact ((h0.trans h1).trans h2).sourcesInv hi
  | makeNull t h =>
      simp only [sources] at hs
      split at hs <;> cases hs
      rename_i hc
      exact (hh.create hc.2.1).sourcesInv hi
  | copy t h g =>
      simp only [sources] at hs
      split at hs <;> cases hs
      rename_i hc
      have h1 := hh.create hc.2.1
      have h2 := h1.inv.share (h := h) (t := t) (v := s.ptr g) List.mem_cons_self
        (not_mem_adds_of_not_busy hc.2.2.1) (hh.dead h hc.2.1)
      exact (h1.trans h2).sourcesInv hi
  | move t h g =>
      simp only [sources] at hs
      split at hs <;> cases hs
      rename_i hc
      obtain ⟨hm, hb⟩ := usable_iff.mp hc.2.2.2
      have h1 := hh.create hc.2.1
      have h2 := h1.inv.grab (h := h) (g := g) List.mem_cons_self (List.mem_cons_of_mem _ hm)
        (not_mem_adds_of_not_busy hc.2.2.1) (not_mem_adds_of_not_busy hb) (hh.dead h hc.2.1)
      exact (h1.trans h2).sourcesInv hi
  | destroy t h =>
      simp only [sources] at hs
      split at hs <;> cases hs
      rename_i hc
      obtain ⟨hm, hb⟩ := usable_iff.mp hc.2
      have hb := not_mem_adds_of_not_busy hb
      have h1 := hh.take (t := t) hm hb
      have h2 := h1.inv.erase (h := h) (by rwa [adds_take]) (ptr_take s t h)
      exact (h1.trans h2).sourcesInv hi
  | copyAssign t h g =>
      simp only [sources] at hs
      split at hs
      · rename_i hc
        split at hs <;> cases hs
        · exact hi
        · obtain ⟨hm, hb⟩ := usable_iff.mp hc.2.1
          have hb := not_mem_adds_of_not_busy hb
          have h1 := hh.take (t := t) hm hb
          have h2 := h1.inv.share (h := h) (t := t) (v := s.ptr g) (by rwa [live_take])
            (by rwa [adds_take]) (ptr_take s t h)
          exact (h1.trans h2).sourcesInv hi
      · cases hs
  | moveAssign t h g =>
      simp only [sources] at hs
      split at hs
      · rename_i hc
        split at hs <;> cases hs
        · exact hi
        · obtain ⟨hm, hb⟩ := usable_iff.mp hc.2.1
          obtain ⟨hmg, hbg⟩ := usable_iff.mp hc.2.2
          have hb := not_mem_adds_of_not_busy hb
          have hbg := not_mem_adds_of_not_busy hbg
          have h1 := hh.take (t := t) hm hb
          have h2 := h1.inv.grab (h := h) (g := g) (by rwa [live_take]) (by rwa [live_take])
            (by rwa [adds_take]) (by rwa [adds_take]) (ptr_take s t h)
          exact (h1.trans h2).sourcesInv hi
      · cases hs
  | swap t h g =>
      simp only [sources] at hs
      split at hs <;> cases hs
      rename_i hc
      obtain ⟨hm, hb⟩ := usable_iff.mp hc.2.1
      obtain ⟨hmg, hbg⟩ := usable_iff.mp hc.2.2
      exact (hh.exchange hm hmg (not_mem_adds_of_not_busy hb)
        (not_mem_adds_of_not_busy hbg)).sourcesInv hi
  | count t => exact hi.count hs
  | state q a =>
      simp only [sources] at hs
      split at hs
      · rename_i hc
        obtain ⟨x, hx, rfl⟩ := Option.map_eq_some_iff.mp hs
        have hword := step_sameCount (a := a) (by rintro he; simp [he] at hc)
          (reachable_lockInv (hi.states q)) hx
        refine ⟨⟨hh.nodup, hh.dead, hh.adds, hh.addsNodup⟩, fun p => ?_, fun p => ?_⟩
        · have hcount := hi.counted p
          simp only [Sources.refs, Sources.pendingAdds, Sources.pendingRemoves] at *
          by_cases hp : p = q
          · subst hp
            rw [Function.update_self, hword.count]
            exact hcount
          · rw [Function.update_of_ne hp]
            exact hcount
        · by_cases hp : p = q
          · subst hp
            simpa using (hi.states p).next _ hx
          · simpa [hp] using hi.states p
      · cases hs

theorem reachable_sourcesInv (h : sources.Reachable s) : SourcesInv s := by
  refine h.invariant ?_ fun _ _ _ hi _ hs => step_sourcesInv hi hs
  rintro s rfl
  refine ⟨⟨List.nodup_nil, fun _ _ => rfl, by simp [Sources.start], List.nodup_nil⟩, ?_, ?_⟩
  · intro q
    simp [Sources.start, Sources.pendingAdds, Sources.refs, Sources.pendingRemoves, State.start,
      sourceCount]
  · exact fun q => .init rfl

/-- Where a step leaves the states: as they are, or one of them makes a step. -/
theorem step_stop {a : SourceAct Q H K} (hs : sources.step s a = some s') :
    s'.stop = s.stop ∨ ∃ q b x, stopState.step (s.stop q) b = some x ∧
      s'.stop = Function.update s.stop q x := by
  cases a with
  | count t =>
      simp only [sources] at hs
      split at hs
      · obtain ⟨x, hx, rfl⟩ := Option.map_eq_some_iff.mp hs
        exact .inr ⟨_, _, x, hx, rfl⟩
      · split at hs
        · obtain ⟨x, hx, rfl⟩ := Option.map_eq_some_iff.mp hs
          exact .inr ⟨_, _, x, hx, rfl⟩
        · cases hs
  | state q b =>
      simp only [sources] at hs
      split at hs
      · obtain ⟨x, hx, rfl⟩ := Option.map_eq_some_iff.mp hs
        exact .inr ⟨q, b, x, hx, rfl⟩
      · cases hs
  | _ =>
      simp only [sources] at hs
      repeat' split at hs
      all_goals cases hs
      all_goals
        left
        simp only [stop_share, stop_take, Sources.create, Sources.grab]

/-- A step of a state clears neither `FlagWaiting` nor `FlagStopped`. -/
theorem step_flags {x x' : State K} {b : Act K} (hi : LockInv x)
    (hs : stopState.step x b = some x') :
    (waiting x.word = true → waiting x'.word = true) ∧
      (stopped x.word = true → stopped x'.word = true) := by
  cases hb : b.thread with
  | some t =>
      have h := step_sameCount (by simp [hb]) hi hs
      exact ⟨h.waiting, h.stopped⟩
  | none =>
      cases b with
      | addSource t =>
          simp only [stopState] at hs
          split at hs <;> cases hs
          simp
      | removeSource t =>
          simp only [stopState] at hs
          split at hs <;> cases hs
          rename_i hc
          obtain ⟨h1, h2, -⟩ := flags_removeSource hc.2
          exact ⟨fun h => h2.trans h, fun h => h1.trans h⟩
      | _ => cases hb

-- ============================================================================
-- Every run
-- ============================================================================

/-- The callbacks whose `add_callback` inserted them and that were neither
    removed nor taken by `request_stop`. -/
def Remains (x : State K) (k : K) : Prop := k ∈ x.added ∧ x.stage k ≠ .unlinked ∧ k ∉ x.taken

omit [DecidableEq K] in
theorem Inv.mem_list_iff {x : State K} {k : K} (hi : Inv x) : k ∈ x.list ↔ Remains x k := by
  have hd := hi.data
  rw [Remains, ← hd.listed k, hd.added k, hd.taken k]
  cases x.stage k <;> simp [Stage.popped]

/-- In every run, for every state: the word is made of its number of sources and
    three flags; the sources are the handles unless an operation on handles is in
    progress, and below 2^28 of them, those that such an operation is about to
    remove among them, the word is below 2^31; the lock flag says whether a
    thread is in the lock, and there is one such thread; while the lock is free
    the list is linked both ways and has just the callbacks that remain;
    `stop_possible` is true if the state is stopped or has sources; what an
    operation is about to remove was counted; and the other two flags are never
    cleared. -/
theorem word_and_list_wellFormed :
    (∀ (s : Sources Q H K) (q : Q), sources.Reachable s →
      (s.stop q).word = 8 * sourceCount (s.stop q).word + 4 * (locked (s.stop q).word).toNat +
        2 * (waiting (s.stop q).word).toNat + (stopped (s.stop q).word).toNat ∧
      (s.adds = [] → s.removes = [] → sourceCount (s.stop q).word = s.refs q) ∧
      (s.refs q + s.pendingRemoves q < 2 ^ 28 → (s.stop q).word < 2 ^ 31) ∧
      (locked (s.stop q).word = true ↔ ∃ t, ((s.stop q).pc t).holds = true) ∧
      (∀ t u, ((s.stop q).pc t).holds = true → ((s.stop q).pc u).holds = true → t = u) ∧
      (locked (s.stop q).word = false → ∃ l : List K,
        Linked (s.stop q).head (s.stop q).prev (s.stop q).next l ∧
        (∀ k, (s.stop q).head = some k → (s.stop q).prev k = none) ∧
        (∀ j k, (s.stop q).next j = some k → (s.stop q).prev k = some j) ∧
        ∀ k, k ∈ l ↔ Remains (s.stop q) k) ∧
      (stopPossible (s.stop q).word = true ↔
        stopped (s.stop q).word = true ∨ 0 < sourceCount (s.stop q).word) ∧
      (∀ e ∈ s.removes, sourceCountIncrement ≤ (s.stop e.2.2).word)) ∧
    (∀ (s s' : Sources Q H K) (a : SourceAct Q H K) (q : Q), sources.Reachable s →
      sources.step s a = some s' →
      (waiting (s.stop q).word = true → waiting (s'.stop q).word = true) ∧
      (stopped (s.stop q).word = true → stopped (s'.stop q).word = true)) := by
  refine ⟨?_, ?_⟩
  · intro s q hr
    have hi := reachable_sourcesInv hr
    have hlock := reachable_lockInv (hi.states q)
    have hinv := reachable_inv (hi.states q)
    have hcount := hi.counted q
    have hword := word_eq (s.stop q).word
    refine ⟨hword, ?_, ?_, ?_, fun t u => hlock.unique, ?_, stopPossible_iff _,
      fun e he => hi.handles.le_word hi.counted he⟩
    · intro h1 h2
      simpa [Sources.pendingAdds, Sources.pendingRemoves, h1, h2] using hcount
    · intro hlt
      have h1 := Bool.toNat_le (locked (s.stop q).word)
      have h2 := Bool.toNat_le (waiting (s.stop q).word)
      have h3 := Bool.toNat_le (stopped (s.stop q).word)
      omega
    · rw [hlock.locked, Option.isSome_iff_exists]
      simp only [hlock.holds]
    · intro _
      have hl := hinv.data.linked
      refine ⟨(s.stop q).list, hl, ?_, fun j k h => (hl.prev j k).mpr ((hl.next j k).mp h),
        fun k => hinv.mem_list_iff⟩
      intro k hk
      cases hp : (s.stop q).prev k with
      | none => rfl
      | some j =>
          have hadj := (hl.prev j k).mp hp
          exact absurd rfl (hadj.ne_head hl.nodup (hl.head.symm.trans hk))
  · intro s s' a q hr hs
    have hi := reachable_sourcesInv hr
    rcases step_stop hs with he | ⟨p, b, x, hx, he⟩
    · rw [he]
      exact ⟨id, id⟩
    · rw [he]
      by_cases hq : q = p
      · subst hq
        rw [Function.update_self]
        exact step_flags (reachable_lockInv (hi.states q)) hx
      · rw [Function.update_of_ne hq]
        exact ⟨id, id⟩

end Steps

end Coroactors.StopState
