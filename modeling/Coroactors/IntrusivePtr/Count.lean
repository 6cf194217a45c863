/-
  Coroactors.IntrusivePtr.Count

  The counter of an object (coroactors/intrusive_ptr.h) is the number of
  references to it: those of pointers that are counted, those of threads that are
  about to release one, and those that `detach` gave away.  Hence an object is
  deleted once, when the last of them goes, and nothing uses it afterwards.

  The proof follows each reference.  A step may take one in hand and put it
  somewhere else, and `ObjOk` says how many are in hand; no step ends with one.
-/

import Coroactors.IntrusivePtr.Model

namespace Coroactors.IntrusivePtr

open Coroactors.Conc

variable {P O : Type*} [DecidableEq P] [DecidableEq O]

-- ============================================================================
-- The references to an object
-- ============================================================================

/-- The pointer has a reference that is counted. -/
def Slot.counts (o : O) (v : Slot O) : Bool := v.ptr = some o && !v.owed

/-- The thread is going to release a reference. -/
def Pc.releases (o : O) : Pc P O → Bool
  | .add _ _ _ prev => prev = some o
  | .release _ _ x => x = o
  | _ => false

def Pc.adds (o : O) : Pc P O → Bool
  | .add _ _ x _ => x = o
  | _ => false

def Pc.deletes (o : O) : Pc P O → Bool
  | .delete _ _ x => x = o
  | _ => false

/-- The counter of an object and its references, `hand` of them in hand. -/
structure ObjOk (s : State P O) (o : O) (hand n k d : Nat) : Prop where
  held : Counted (Slot.counts o) n s.slot
  releasing : Counted (Pc.releases o) k s.pc
  deleting : Counted (Pc.deletes o) d s.pc
  count : s.refcount o = n + k + s.raw o + hand
  once : s.deleted o + d ≤ 1
  gone : s.deleted o + d = 1 → s.refcount o = 0 ∧ ∀ p, (s.slot p).ptr ≠ some o
  kept : s.created o = true → s.deleted o + d = 0 → s.refcount o = 0 → ∃ t, (s.pc t).adds o = true
  before : s.created o = false →
    s.refcount o = 0 ∧ s.deleted o + d = 0 ∧ ∀ p, (s.slot p).ptr ≠ some o

section Object

variable {s s' : State P O} {o : O} {hand n k d : Nat} {t : Nat} {p : P} {q : Pc P O}

omit [DecidableEq P] in
/-- An object with a pointer to it, or with a reference, is there. -/
theorem ObjOk.there (h : ObjOk s o hand n k d)
    (hp : (∃ p, (s.slot p).ptr = some o) ∨ s.refcount o ≠ 0) :
    s.created o = true ∧ s.deleted o + d = 0 := by
  refine ⟨?_, ?_⟩
  · by_contra hc
    obtain ⟨hzero, -, hnone⟩ := h.before (by simpa using hc)
    rcases hp with ⟨p, hp⟩ | hp
    · exact hnone p hp
    · exact hp hzero
  · by_contra hd
    have honce := h.once
    obtain ⟨hzero, hnone⟩ := h.gone (by omega)
    rcases hp with ⟨p, hp⟩ | hp
    · exact hnone p hp
    · exact hp hzero

/-- A pointer is changed: its old reference is taken in hand, and the new one
    comes from there. -/
theorem ObjOk.setSlot {v : Slot O} (h : ObjOk s o hand n k d)
    (hnew : v.ptr = some o → s.created o = true ∧ s.deleted o + d = 0)
    {j : Nat} (hhand : j + (if v.counts o = true then 1 else 0) =
      hand + (if (s.slot p).counts o = true then 1 else 0)) :
    ∃ m, ObjOk (s.setSlot p v) o j m k d := by
  obtain ⟨m, hm, hcount⟩ := h.held.update p v
  have hold := h.count
  have hnone : (∀ r, (s.slot r).ptr ≠ some o) → v.ptr ≠ some o →
      ∀ r, (Function.update s.slot p v r).ptr ≠ some o := by
    intro hs hv r
    by_cases hr : r = p
    · rw [hr, Function.update_self]
      exact hv
    · rw [Function.update_of_ne hr]
      exact hs r
  refine ⟨m, hm, h.releasing, h.deleting, ?_, h.once, fun hd => ?_, h.kept, fun hc => ?_⟩
  · show s.refcount o = m + k + s.raw o + j
    omega
  · have hd' : s.deleted o + d = 1 := hd
    obtain ⟨hzero, hs⟩ := h.gone hd'
    refine ⟨hzero, hnone hs fun hv => ?_⟩
    have hz := (hnew hv).2
    omega
  · have hc' : s.created o = false := hc
    obtain ⟨hzero, hd, hs⟩ := h.before hc'
    refine ⟨hzero, hd, hnone hs fun hv => ?_⟩
    rw [(hnew hv).1] at hc'
    cases hc'

omit [DecidableEq P] in
/-- A thread moves: a reference that it is going to release comes from the hand. -/
theorem ObjOk.move (s' : State P O) (h : ObjOk s o hand n k d) (hpc : s'.pc = Function.update s.pc t q)
    (hslot : s'.slot = s.slot) (hraw : s'.raw o = s.raw o) (href : s'.refcount o = s.refcount o)
    (hdel : s'.deleted o = s.deleted o) (hcre : s'.created o = s.created o)
    (hd : q.deletes o = (s.pc t).deletes o)
    (ha : (s.pc t).adds o = true → q.adds o = true) {j : Nat}
    (hhand : j + (if q.releases o = true then 1 else 0) =
      hand + (if (s.pc t).releases o = true then 1 else 0)) :
    ∃ m, ObjOk s' o j n m d := by
  obtain ⟨m, hm, hcount⟩ := h.releasing.update t q
  have hold := h.count
  refine ⟨m, ?_⟩
  refine ⟨by rw [hslot]; exact h.held, by rw [hpc]; exact hm, by rw [hpc]; exact h.deleting.move hd,
    ?_, by rw [hdel]; exact h.once, ?_, ?_, ?_⟩
  · rw [href, hraw]
    omega
  · rw [hdel, href, hslot]
    exact h.gone
  · rw [hcre, hdel, href, hpc]
    intro h1 h2 h3
    obtain ⟨u, hu⟩ := h.kept h1 h2 h3
    by_cases hut : u = t
    · exact ⟨t, by rw [Function.update_self]; exact ha (hut ▸ hu)⟩
    · exact ⟨u, by rwa [Function.update_of_ne hut]⟩
  · rw [hcre, href, hdel, hslot]
    exact h.before

omit [DecidableEq P] in
/-- A reference that was given away is taken back in hand, or the other way round. -/
theorem ObjOk.setRaw {f : O → Nat} (h : ObjOk s o hand n k d) {j : Nat}
    (hhand : j + f o = hand + s.raw o) : ObjOk { s with raw := f } o j n k d := by
  have hold := h.count
  refine ⟨h.held, h.releasing, h.deleting, ?_, h.once, h.gone, h.kept, h.before⟩
  show s.refcount o = n + k + f o + j
  omega

end Object

-- ============================================================================
-- The invariant
-- ============================================================================

/-- Where a reference comes from that is going to be counted: a pointer that
    stays as it is meanwhile, the reference that the thread releases next, or a
    new object that no other pointer has. -/
def Source (s : State P O) (p : P) (src : Option P) (o : O) (prev : Option O) : Prop :=
  (∃ r, src = some r ∧ s.slot r = ⟨some o, false⟩) ∨ prev = some o ∨
    (s.refcount o = 0 ∧ ∀ r, (s.slot r).ptr = some o → r = p)

/-- The state with some references in hand. -/
structure Inv (s : State P O) (hand : List O) : Prop where
  locks : Locks s
  obj : ∀ o, ∃ n k d, ObjOk s o (hand.count o) n k d
  adds : ∀ t p src o prev, s.pc t = .add p src o prev →
    s.slot p = ⟨some o, true⟩ ∧ Source s p src o prev
  owed : ∀ p, (s.slot p).owed = true → ∃ t src o prev, s.pc t = .add p src o prev
  ok : s.misused = false

section Inv

variable {s s' : State P O} {o : O} {hand hand' : List O} {t u : Nat} {p r : P} {src : Option P}
  {prev : Option O}

/-- What nobody changes is counted. -/
theorem Inv.counted (h : Inv s hand) (hw : s.writer r = none) : (s.slot r).owed = false := by
  by_contra ho
  obtain ⟨t, src, o, prev, ht⟩ := h.owed r (by simpa using ho)
  have hno := h.locks.not_writer (t := t) hw
  rw [ht] at hno
  simp [Pc.writes] at hno

theorem Inv.there (h : Inv s hand) (hr : (s.slot r).ptr = some o) : s.created o = true ∧
    s.deleted o = 0 ∧ ∀ t, (s.pc t).deletes o = false := by
  obtain ⟨n, k, d, hobj⟩ := h.obj o
  obtain ⟨hc, hd⟩ := hobj.there (.inl ⟨r, hr⟩)
  refine ⟨hc, by omega, fun t => ?_⟩
  by_contra hdel
  have hle := hobj.deleting.length_le (List.nodup_singleton t) fun u hu => by
    rw [List.mem_singleton.mp hu]
    simpa using hdel
  simp only [List.length_singleton] at hle
  omega

/-- A thread that is about to count a reference keeps what it relies on while
    other pointers change. -/
theorem Inv.adds_frame (h : Inv s hand) (hu : s.pc u = .add p src o prev)
    (hp : s'.slot p = s.slot p) (hsrc : ∀ r, src = some r → s'.slot r = s.slot r)
    (hnew : s.refcount o = 0 → (∀ r, (s.slot r).ptr = some o → r = p) →
      s'.refcount o = 0 ∧ ∀ r, (s'.slot r).ptr = some o → r = p) :
    s'.slot p = ⟨some o, true⟩ ∧ Source s' p src o prev := by
  obtain ⟨hslot, hsource⟩ := h.adds u p src o prev hu
  refine ⟨hp.trans hslot, ?_⟩
  rcases hsource with ⟨r, hr, hs⟩ | hprev | ⟨hzero, honly⟩
  · exact .inl ⟨r, hr, (hsrc r hr).trans hs⟩
  · exact .inr (.inl hprev)
  · exact .inr (.inr (hnew hzero honly))

/-- A pointer that nobody uses is changed: its old reference is taken in hand, and
    the new one comes from there. -/
theorem Inv.setSlot {x : Option O} (h : Inv s hand) (hfree : s.free p = true)
    (hnew : ∀ o, x = some o → s.refcount o ≠ 0)
    (hhand : ∀ o, hand'.count o + x.toList.count o = hand.count o + (s.slot p).ptr.toList.count o) :
    Inv (s.setSlot p ⟨x, false⟩) hand' := by
  obtain ⟨hwriter, hreaders⟩ : s.writer p = none ∧ s.readers p = 0 := by
    simpa [State.free] using hfree
  have hcounted := h.counted hwriter
  have hindicator : ∀ (v : Slot O) (o : O), v.owed = false →
      (if v.counts o = true then 1 else 0) = v.ptr.toList.count o := by
    rintro ⟨ptr, owed⟩ o rfl
    cases ptr with
    | none => rfl
    | some y => by_cases hy : y = o <;> simp [Slot.counts, hy]
  refine ⟨⟨h.locks.writer, h.locks.readers, h.locks.apart⟩, fun o => ?_, ?_, ?_, h.ok⟩
  · obtain ⟨n, k, d, hobj⟩ := h.obj o
    have hthere : x = some o → s.created o = true ∧ s.deleted o + d = 0 := fun hx =>
      hobj.there (.inr (hnew o hx))
    obtain ⟨m, hm⟩ := hobj.setSlot (p := p) (v := ⟨x, false⟩) hthere (j := hand'.count o) (by
      rw [hindicator _ o rfl, hindicator _ o hcounted]
      exact hhand o)
    exact ⟨m, k, d, hm⟩
  · intro u p' src' o prev' hu
    have hother : ∀ r, r ≠ p → (s.setSlot p ⟨x, false⟩).slot r = s.slot r := fun r hr =>
      Function.update_of_ne hr _ _
    have hp' : p' ≠ p := by
      rintro rfl
      have hno := h.locks.not_writer (t := u) hwriter
      rw [show s.pc u = .add p' src' o prev' from hu] at hno
      simp [Pc.writes] at hno
    refine h.adds_frame hu (hother p' hp') (fun r hr => hother r ?_) fun hzero honly =>
      ⟨hzero, fun r hr => ?_⟩
    · rintro rfl
      have hno := h.locks.not_reader (t := u) hreaders
      rw [show s.pc u = .add p' src' o prev' from hu] at hno
      simp [Pc.reads, hr] at hno
    · by_cases hrp : r = p
      · subst hrp
        have hx : x = some o := by
          have hr' : (Function.update s.slot r ⟨x, false⟩ r).ptr = some o := hr
          rwa [Function.update_self] at hr'
        exact absurd hzero (hnew o hx)
      · rw [hother r hrp] at hr
        exact honly r hr
  · intro r hr
    by_cases hrp : r = p
    · subst hrp
      have hr' : (Function.update s.slot r ⟨x, false⟩ r).owed = true := hr
      rw [Function.update_self] at hr'
      cases hr'
    · have hr' : (Function.update s.slot p ⟨x, false⟩ r).owed = true := hr
      rw [Function.update_of_ne hrp] at hr'
      exact h.owed r hr'

/-- A pointer is cleared, and its reference taken in hand. -/
theorem Inv.clear (h : Inv s []) (hfree : s.free p = true) :
    Inv (s.setSlot p ⟨none, false⟩) (s.slot p).ptr.toList :=
  h.setSlot hfree (fun o ho => by cases ho) fun o => by simp

/-- The counter of an object with a reference in hand is not zero. -/
theorem Inv.refcount_of_hand (h : Inv s hand) (ho : o ∈ hand) : s.refcount o ≠ 0 := by
  obtain ⟨n, k, d, hobj⟩ := h.obj o
  have hpos := List.count_pos_iff.mpr ho
  have hcount := hobj.count
  omega

/-- The counter of an object that a counted pointer has is not zero. -/
theorem Inv.refcount_of_slot (h : Inv s hand) (hr : s.slot r = ⟨some o, false⟩) :
    s.refcount o ≠ 0 := by
  obtain ⟨n, k, d, hobj⟩ := h.obj o
  have hle := hobj.held.length_le (List.nodup_singleton r) fun x hx => by
    rw [List.mem_singleton.mp hx, hr]
    simp [Slot.counts]
  have hcount := hobj.count
  simp only [List.length_singleton] at hle
  omega

/-- A reference is taken from, or given to, a caller of `detach`. -/
theorem Inv.setRaw {f : O → Nat} (h : Inv s hand)
    (hhand : ∀ o, hand'.count o + f o = hand.count o + s.raw o) : Inv { s with raw := f } hand' := by
  refine ⟨⟨h.locks.writer, h.locks.readers, h.locks.apart⟩, fun o => ?_, ?_, h.owed, h.ok⟩
  · obtain ⟨n, k, d, hobj⟩ := h.obj o
    exact ⟨n, k, d, hobj.setRaw (hhand o)⟩
  · exact fun u p src o prev hu => h.adds u p src o prev hu

-- ============================================================================
-- A function begins
-- ============================================================================

variable {v : Slot O} {q : Pc P O}

/-- What a function does to the references of one object when it begins. -/
theorem ObjOk.enter {n k d i j : Nat} (s' : State P O) (h : ObjOk s o i n k d) (hidle : s.pc t = .idle)
    (hslot : s'.slot = Function.update s.slot p v) (hpc : s'.pc = Function.update s.pc t q)
    (hraw : s'.raw o = s.raw o) (href : s'.refcount o = s.refcount o)
    (hdel : s'.deleted o = s.deleted o) (hcre : s'.created o = s.created o)
    (hd : q.deletes o = false)
    (hnew : v.ptr = some o → s.created o = true ∧ s.deleted o + d = 0)
    (hhand : j + (if v.counts o = true then 1 else 0) + (if q.releases o = true then 1 else 0) =
      i + (if (s.slot p).counts o = true then 1 else 0)) :
    ∃ n k, ObjOk s' o j n k d := by
  obtain ⟨m, hm⟩ := h.setSlot (p := p) hnew
    (j := j + (if q.releases o = true then 1 else 0)) (by omega)
  have hpc' : (s.setSlot p v).pc t = .idle := hidle
  obtain ⟨l, hl⟩ := hm.move s' (j := j) hpc hslot hraw href hdel hcre (by rw [hd, hpc']; rfl)
    (fun ha => by rw [hpc'] at ha; cases ha) (by rw [hpc']; rfl)
  exact ⟨m, l, hl⟩

theorem counts_eq (hv : v.owed = false) (o : O) :
    (if v.counts o = true then 1 else 0) = v.ptr.toList.count o := by
  obtain ⟨ptr, owed⟩ := v
  subst hv
  cases ptr with
  | none => rfl
  | some y => by_cases hy : y = o <;> simp [Slot.counts, hy]

omit [DecidableEq P] in
theorem releases_after (o : O) : (if (Pc.after p src prev).releases o = true then 1 else 0) =
    prev.toList.count o := by
  cases prev with
  | none => rfl
  | some y => by_cases hy : y = o <;> simp [Pc.after, Pc.releases, hy]

/-- The function changes pointer `p` and goes to `q`. -/
theorem Inv.enter {c : O → Bool} (h : Inv s hand) (hidle : s.pc t = .idle) (hfree : s.free p = true)
    (hsrc : ∀ r, src = some r → r ≠ p ∧ s.writer r = none)
    (hqw : ∀ r, q.writes r = decide (p = r)) (hqr : ∀ r, q.reads r = decide (src = some r))
    (hobj : ∀ o, ∃ n k d, ObjOk (({ s with created := c }.setSlot p v).enter t p src q) o (hand'.count o) n k d)
    (hadd : ∀ p' src' o prev, q = .add p' src' o prev → p' = p ∧ v = ⟨some o, true⟩ ∧
      Source (({ s with created := c }.setSlot p v).enter t p src q) p src' o prev)
    (howed : v.owed = true → ∃ o prev, q = .add p src o prev)
    (hfresh : ∀ o, v.ptr = some o → s.refcount o = 0 → ∀ u, (s.pc u).adds o = false) :
    Inv (({ s with created := c }.setSlot p v).enter t p src q) hand' := by
  obtain ⟨hwriter, hreaders⟩ : s.writer p = none ∧ s.readers p = 0 := by
    simpa [State.free] using hfree
  have hlocks : Locks ({ s with created := c }.setSlot p v) := ⟨h.locks.writer, h.locks.readers, h.locks.apart⟩
  have hother : ∀ u, u ≠ t → Function.update s.pc t q u = s.pc u := fun u hu =>
    Function.update_of_ne hu _ _
  have hslots : ∀ r, r ≠ p → (({ s with created := c }.setSlot p v).enter t p src q).slot r = s.slot r := fun r hr =>
    Function.update_of_ne hr _ _
  have hself : (({ s with created := c }.setSlot p v).enter t p src q).slot p = v := Function.update_self ..
  refine ⟨hlocks.enter hidle hfree hsrc hqw hqr, hobj, ?_, ?_, h.ok⟩
  · intro u p' src' o prev' hu
    have hu' : Function.update s.pc t q u = .add p' src' o prev' := hu
    by_cases hut : u = t
    · subst hut
      rw [Function.update_self] at hu'
      obtain ⟨rfl, hv, hsource⟩ := hadd _ _ _ _ hu'
      exact ⟨hself.trans hv, hsource⟩
    · rw [hother u hut] at hu'
      have hp' : p' ≠ p := by
        rintro rfl
        have hno := h.locks.not_writer (t := u) hwriter
        rw [hu'] at hno
        simp [Pc.writes] at hno
      refine h.adds_frame hu' (hslots p' hp') (fun r hr => hslots r ?_) fun hzero honly =>
        ⟨hzero, fun r hr => ?_⟩
      · rintro rfl
        have hno := h.locks.not_reader (t := u) hreaders
        rw [hu'] at hno
        simp [Pc.reads, hr] at hno
      · by_cases hrp : r = p
        · rw [hrp, hself] at hr
          have hno := hfresh o hr hzero u
          rw [hu'] at hno
          simp [Pc.adds] at hno
        · rw [hslots r hrp] at hr
          exact honly r hr
  · intro r hr
    by_cases hrp : r = p
    · subst hrp
      rw [hself] at hr
      obtain ⟨o, prev', hq⟩ := howed hr
      exact ⟨t, src, o, prev', (Function.update_self ..).trans hq⟩
    · rw [hslots r hrp] at hr
      obtain ⟨u, src', o, prev', hu⟩ := h.owed r hr
      have hut : u ≠ t := by
        rintro rfl
        rw [hidle] at hu
        cases hu
      exact ⟨u, src', o, prev', (hother u hut).trans hu⟩

/-- The pointer takes the reference that is in hand. -/
theorem Inv.assign {x : Option O} (h : Inv s x.toList) (hidle : s.pc t = .idle)
    (hfree : s.free p = true) : Inv (s.assign t p x) [] := by
  obtain ⟨hwriter, -⟩ : s.writer p = none ∧ s.readers p = 0 := by
    simpa [State.free] using hfree
  have hcounted := h.counted hwriter
  have hx : ∀ o, x = some o → s.refcount o ≠ 0 := fun o ho =>
    h.refcount_of_hand (by rw [ho]; exact List.mem_singleton_self o)
  have hafter : ∀ (y : Option O) p' src' o prev', Pc.after p none y ≠ .add p' src' o prev' := by
    intro y p' src' o prev'
    cases y <;> exact fun he => by cases he
  refine h.enter (c := s.created) hidle hfree (fun r hr => by cases hr) ?_ ?_ ?_ ?_
    (fun hv => by cases hv) ?_
  · intro r
    cases (s.slot p).ptr <;> rfl
  · intro r
    cases (s.slot p).ptr <;> rfl
  · intro o
    obtain ⟨n, k, d, hobj⟩ := h.obj o
    let s₁ := (s.setSlot p ⟨x, false⟩).enter t p none (.after p none (s.slot p).ptr)
    obtain ⟨n', k', hobj'⟩ := hobj.enter s₁ (p := p) (v := ⟨x, false⟩)
      (q := .after p none (s.slot p).ptr) (j := 0)
      hidle rfl rfl rfl rfl rfl rfl (by cases (s.slot p).ptr <;> rfl)
      (fun hxo => hobj.there (.inr (hx o hxo))) (by
        rw [counts_eq rfl, counts_eq hcounted, releases_after, Nat.zero_add])
    exact ⟨n', k', d, hobj'⟩
  · exact fun p' src' o prev' he => absurd he (hafter _ p' src' o prev')
  · exact fun o ho hzero => absurd hzero (hx o ho)

omit [DecidableEq P] in
theorem releases_add (o x : O) : (if (Pc.add p src o prev).releases x = true then 1 else 0) =
    prev.toList.count x := by
  cases prev with
  | none => rfl
  | some y => by_cases hy : y = x <;> simp [Pc.releases, hy]

/-- The pointer takes an object that another pointer has, or itself. -/
theorem copy_inv (h : Inv s []) (hidle : s.pc t = .idle) (hfree : s.free p = true)
    (hr : r = p ∨ s.writer r = none) (ho : (s.slot r).ptr = some o) :
    Inv (s.assignAdd t p (if r = p then none else some r) o) [] := by
  obtain ⟨hwriter, -⟩ : s.writer p = none ∧ s.readers p = 0 := by
    simpa [State.free] using hfree
  have hslot : s.slot r = ⟨some o, false⟩ := by
    have howed : (s.slot r).owed = false := by
      rcases hr with rfl | hr
      · exact h.counted hwriter
      · exact h.counted hr
    rw [← ho, ← howed]
  have hzero := h.refcount_of_slot hslot
  refine h.enter (c := s.created) hidle hfree ?_ (fun x => rfl) (fun x => rfl) ?_ ?_
    (fun _ => ⟨o, _, rfl⟩) ?_
  · intro x hx
    split at hx
    · cases hx
    next hrp =>
      cases hx
      exact ⟨hrp, hr.resolve_left hrp⟩
  · intro x
    obtain ⟨n, k, d, hobj⟩ := h.obj x
    let s₁ := s.assignAdd t p (if r = p then none else some r) o
    obtain ⟨n', k', hobj'⟩ := hobj.enter s₁ (p := p) (v := ⟨some o, true⟩)
      (q := .add p (if r = p then none else some r) o (s.slot p).ptr) (j := 0)
      hidle rfl rfl rfl rfl rfl rfl rfl
      (fun hxo => hobj.there (.inl ⟨r, ho.trans hxo⟩)) (by
        rw [counts_eq (h.counted hwriter), releases_add]
        simp [Slot.counts])
    exact ⟨n', k', d, hobj'⟩
  · rintro p' src' x prev' he
    cases he
    refine ⟨rfl, rfl, ?_⟩
    by_cases hrp : r = p
    · subst hrp
      exact .inr (.inl ho)
    · refine .inl ⟨r, if_neg hrp, ?_⟩
      exact (Function.update_of_ne hrp _ _).trans hslot
  · rintro x hx hx0
    cases hx
    exact absurd hx0 hzero

/-- The pointer takes a new object. -/
theorem construct_inv (h : Inv s []) (hidle : s.pc t = .idle) (hfree : s.free p = true)
    (ho : s.created o = false) :
    Inv ({ s with created := Function.update s.created o true }.assignAdd t p none o) [] := by
  obtain ⟨hwriter, -⟩ : s.writer p = none ∧ s.readers p = 0 := by
    simpa [State.free] using hfree
  obtain ⟨n, k, d, hobj⟩ := h.obj o
  obtain ⟨hzero, hd, hnone⟩ := hobj.before ho
  refine h.enter (c := Function.update s.created o true) hidle hfree (fun r hr => by cases hr)
    (fun x => rfl) (fun x => rfl) ?_ ?_ (fun _ => ⟨o, _, rfl⟩) ?_
  · intro x
    by_cases hx : x = o
    · subst hx
      have hprev : (s.slot p).ptr ≠ some x := hnone p
      refine ⟨n, k, d, hobj.held.move ?_, hobj.releasing.move ?_, hobj.deleting.move ?_, hobj.count,
        hobj.once, ?_, fun _ _ _ => ⟨t, ?_⟩, ?_⟩
      · simp [Slot.counts, hprev]
      · rw [hidle]
        simpa [Pc.releases] using hprev
      · rw [hidle]
        rfl
      · intro hone
        have hone' : s.deleted x + d = 1 := hone
        omega
      · show (Function.update s.pc t _ t).adds x = true
        rw [Function.update_self]
        simp [Pc.adds]
      · intro hc
        have hc' : Function.update s.created x true x = false := hc
        rw [Function.update_self] at hc'
        cases hc'
    · obtain ⟨n, k, d, hobj⟩ := h.obj x
      let s₁ := { s with created := Function.update s.created o true }.assignAdd t p none o
      obtain ⟨n', k', hobj'⟩ := hobj.enter s₁ (p := p) (v := ⟨some o, true⟩)
        (q := .add p none o (s.slot p).ptr) (j := 0)
        hidle rfl rfl rfl rfl rfl (Function.update_of_ne hx _ _) rfl
        (fun hxo => absurd (Option.some.inj hxo).symm hx) (by
          rw [counts_eq (h.counted hwriter), releases_add]
          simp [Slot.counts])
      exact ⟨n', k', d, hobj'⟩
  · rintro p' src' x prev' he
    cases he
    refine ⟨rfl, rfl, .inr (.inr ⟨hzero, fun r hr => ?_⟩)⟩
    by_contra hrp
    have hr' : (Function.update s.slot p ⟨some o, true⟩ r).ptr = some o := hr
    rw [Function.update_of_ne hrp] at hr'
    exact hnone r hr'
  · rintro x hx - u
    cases hx
    by_contra hadds
    cases hu : s.pc u <;> rw [hu] at hadds <;> simp [Pc.adds] at hadds
    next p' src' y prev' =>
      have hslot := (h.adds u p' src' y prev' hu).1
      exact hnone p' (by rw [hslot, hadds])

-- ============================================================================
-- The steps of a function
-- ============================================================================

/-- Another thread that adds to the same counter would be changing the same
    pointer, if it relies on being the only one. -/
theorem Inv.adds_other (h : Inv s hand) (ht : s.pc t = .add p src o prev) (hut : u ≠ t)
    {p' : P} {src' : Option P} {prev' : Option O} (hu : s.pc u = .add p' src' o prev') :
    ¬∀ r, (s.slot r).ptr = some o → r = p' := by
  intro honly
  have hslot := (h.adds t p src o prev ht).1
  obtain rfl := honly p (by rw [hslot])
  refine hut ((h.locks.writer p).unique ?_ ?_)
  · rw [hu]
    simp [Pc.writes]
  · rw [ht]
    simp [Pc.writes]

/-- `add_ref`. -/
theorem add_inv (h : Inv s []) (hp : s.pc t = .add p src o prev)
    (hs : stepThread s t = some s') : Inv s' [] := by
  simp only [stepThread, hp] at hs
  cases hs
  obtain ⟨hslot, -⟩ := h.adds t p src o prev hp
  obtain ⟨hcreated, hdeleted, -⟩ := h.there (r := p) (by rw [hslot])
  have halive : s.alive o = true := by simp [State.alive, hcreated, hdeleted]
  have hother : ∀ u, u ≠ t → Function.update s.pc t (.after p src prev) u = s.pc u := fun u hu =>
    Function.update_of_ne hu _ _
  have hafter : ∀ x, (Pc.after p src prev).deletes x = false := fun x => by cases prev <;> rfl
  have hslots : ∀ r, r ≠ p →
      Function.update s.slot p ⟨(s.slot p).ptr, false⟩ r = s.slot r := fun r hr =>
    Function.update_of_ne hr _ _
  have hptr : ∀ r, (Function.update s.slot p ⟨(s.slot p).ptr, false⟩ r).ptr = (s.slot r).ptr := by
    intro r
    by_cases hr : r = p
    · rw [hr, Function.update_self]
    · rw [hslots r hr]
  refine ⟨h.locks.move (t := t) (q := .after p src prev) rfl rfl rfl ?_ ?_, fun x => ?_, ?_, ?_, ?_⟩
  · intro r
    rw [hp]
    cases prev <;> rfl
  · intro r
    rw [hp]
    cases prev <;> rfl
  · obtain ⟨n, k, d, hobj⟩ := h.obj x
    obtain ⟨m, hm, hcount⟩ := hobj.held.update p ⟨(s.slot p).ptr, false⟩
    obtain ⟨l, hl, hlcount⟩ := hobj.releasing.update t (.after p src prev)
    rw [hp, releases_after, releases_add] at hlcount
    have hold : s.refcount x = n + k + s.raw x + 0 := hobj.count
    refine ⟨m, l, d, hm, hl, hobj.deleting.move (by rw [hafter, hp]; rfl), ?_, hobj.once, ?_, ?_, ?_⟩
    · show Function.update s.refcount o (s.refcount o + 1) x = m + l + s.raw x + 0
      by_cases hx : x = o
      · subst hx
        rw [Function.update_self]
        simp only [Slot.counts, hslot, decide_true, Bool.not_true, Bool.and_false, Bool.not_false,
          Bool.and_self, Bool.false_eq_true, if_true, if_false] at hcount
        omega
      · rw [Function.update_of_ne hx]
        have hne : ¬o = x := fun he => hx he.symm
        simp only [Slot.counts, hslot, Option.some.injEq, hne, decide_false, Bool.false_and,
          Bool.false_eq_true, if_false] at hcount
        omega
    · intro hone
      have hone' : s.deleted x + d = 1 := hone
      obtain ⟨hzero, hnone⟩ := hobj.gone hone'
      have hx : x ≠ o := by
        rintro rfl
        exact hnone p (by rw [hslot])
      refine ⟨(Function.update_of_ne hx _ _).trans hzero, fun r hr => hnone r ?_⟩
      rwa [← hptr r]
    · intro hc hd hz
      by_cases hx : x = o
      · subst hx
        have hz' : Function.update s.refcount x (s.refcount x + 1) x = 0 := hz
        rw [Function.update_self] at hz'
        cases hz'
      · have hz' : Function.update s.refcount o (s.refcount o + 1) x = 0 := hz
        rw [Function.update_of_ne hx] at hz'
        obtain ⟨u, hu⟩ := hobj.kept hc hd hz'
        have hut : u ≠ t := by
          rintro rfl
          rw [hp] at hu
          simp only [Pc.adds, decide_eq_true_eq] at hu
          exact hx hu.symm
        exact ⟨u, by rw [← hu]; exact congrArg _ (hother u hut)⟩
    · intro hc
      have hc' : s.created x = false := hc
      obtain ⟨hzero, hd, hnone⟩ := hobj.before hc'
      have hx : x ≠ o := by
        rintro rfl
        rw [hcreated] at hc'
        cases hc'
      refine ⟨(Function.update_of_ne hx _ _).trans hzero, hd, fun r hr => hnone r ?_⟩
      rwa [← hptr r]
  · intro u p' src' x prev' hu
    have hut : u ≠ t := by
      rintro rfl
      have hu' : Function.update s.pc u (.after p src prev) u = .add p' src' x prev' := hu
      rw [Function.update_self] at hu'
      cases prev <;> cases hu'
    have hu' : s.pc u = .add p' src' x prev' := (hother u hut).symm.trans hu
    have hp' : p' ≠ p := by
      rintro rfl
      refine hut ((h.locks.writer p').unique ?_ ?_)
      · rw [hu']
        simp [Pc.writes]
      · rw [hp]
        simp [Pc.writes]
    obtain ⟨hslot', hsource⟩ := h.adds u p' src' x prev' hu'
    refine ⟨(hslots p' hp').trans hslot', ?_⟩
    rcases hsource with ⟨r, hr, hs⟩ | hprev | ⟨hzero, honly⟩
    · have hrp : r ≠ p := by
        rintro rfl
        rw [hslot] at hs
        cases hs
      exact .inl ⟨r, hr, (hslots r hrp).trans hs⟩
    · exact .inr (.inl hprev)
    · have hx : x ≠ o := by
        rintro rfl
        exact h.adds_other hp hut hu' honly
      exact .inr (.inr ⟨(Function.update_of_ne hx _ _).trans hzero, fun r hr => honly r (by
        rwa [← hptr r])⟩)
  · intro r hr
    have hrp : r ≠ p := by
      rintro rfl
      have hr' : (Function.update s.slot r ⟨(s.slot r).ptr, false⟩ r).owed = true := hr
      rw [Function.update_self] at hr'
      cases hr'
    have hr' : (s.slot r).owed = true := by
      rw [← hslots r hrp]
      exact hr
    obtain ⟨u, src', x, prev', hu⟩ := h.owed r hr'
    have hut : u ≠ t := by
      rintro rfl
      rw [hp] at hu
      cases hu
      exact hrp rfl
    exact ⟨u, src', x, prev', (hother u hut).trans hu⟩
  · show (s.misused || !s.alive o) = false
    rw [h.ok, halive]
    rfl

/-- A thread that is not about to count a reference goes on, and no pointer
    changes. -/
theorem Inv.goes (h : Inv s []) (hlocks : Locks s') (hpc : s'.pc = Function.update s.pc t q)
    (hslot : s'.slot = s.slot) (hq : ∀ o, q.adds o = false) (hp : ∀ o, (s.pc t).adds o = false)
    (href : ∀ x, s.refcount x = 0 → s'.refcount x = 0)
    (hobj : ∀ x, ∃ n k d, ObjOk s' x 0 n k d) (hok : s'.misused = false) : Inv s' [] := by
  refine ⟨hlocks, hobj, fun u p' src' x prev' hu => ?_, fun r hr => ?_, hok⟩
  · have hut : u ≠ t := by
      rintro rfl
      have hno := hq x
      rw [hpc, Function.update_self] at hu
      rw [hu] at hno
      simp [Pc.adds] at hno
    rw [hpc, Function.update_of_ne hut] at hu
    refine h.adds_frame hu (by rw [hslot]) (fun r _ => by rw [hslot]) fun hzero honly =>
      ⟨href x hzero, ?_⟩
    rw [hslot]
    exact honly
  · rw [hslot] at hr
    obtain ⟨u, src', x, prev', hu⟩ := h.owed r hr
    have hut : u ≠ t := by
      rintro rfl
      have hno := hp x
      rw [hu] at hno
      simp [Pc.adds] at hno
    exact ⟨u, src', x, prev', by rw [hpc, Function.update_of_ne hut]; exact hu⟩

/-- The last reference to an object is about to be released: no pointer has it. -/
theorem Inv.last (h : Inv s []) (hp : s.pc t = .release p src o) (hone : s.refcount o = 1)
    (r : P) : (s.slot r).ptr ≠ some o := by
  intro hr
  obtain ⟨n, k, d, hobj⟩ := h.obj o
  have hk : ∀ l : List Nat, l.Nodup → (∀ u ∈ l, (s.pc u).releases o = true) → l.length ≤ k :=
    fun l hl hmem => hobj.releasing.length_le hl hmem
  have hself := hk [t] (List.nodup_singleton t) fun u hu => by
    rw [List.mem_singleton.mp hu, hp]
    simp [Pc.releases]
  have hcount : s.refcount o = n + k + s.raw o + 0 := hobj.count
  simp only [List.length_singleton] at hself
  have hcounted : ∀ x, s.slot x = ⟨some o, false⟩ → False := by
    intro x hx
    have hle := hobj.held.length_le (List.nodup_singleton x) fun y hy => by
      rw [List.mem_singleton.mp hy, hx]
      simp [Slot.counts]
    simp only [List.length_singleton] at hle
    omega
  -- A pointer that has it is about to be counted, by a thread with another reference
  cases howed : (s.slot r).owed with
  | false => exact hcounted r (by rw [← hr, ← howed])
  | true =>
      obtain ⟨u, src', x, prev', hu⟩ := h.owed r howed
      obtain ⟨hslot, hsource⟩ := h.adds u r src' x prev' hu
      have hx : x = o := by
        rw [hslot] at hr
        exact Option.some.inj hr
      subst hx
      rcases hsource with ⟨y, -, hy⟩ | hprev | ⟨hzero, -⟩
      · exact hcounted y hy
      · have hut : u ≠ t := by
          rintro rfl
          rw [hp] at hu
          cases hu
        have htwo := hk [u, t] (by simp [hut]) fun v hv => by
          rcases List.mem_cons.mp hv with rfl | hv
          · rw [hu]
            simp [Pc.releases, hprev]
          · rw [List.mem_singleton.mp hv, hp]
            simp [Pc.releases]
        simp only [List.length_cons, List.length_nil] at htwo
        omega
      · omega

/-- `intrusive_ptr_release`: the counter goes down, and at zero the object is
    going to be deleted. -/
theorem release_inv (h : Inv s []) (hp : s.pc t = .release p src o)
    (hs : stepThread s t = some s') : Inv s' [] := by
  have hlast := h.last hp
  simp only [stepThread, hp] at hs
  cases hs
  obtain ⟨n, k, d, hobj⟩ := h.obj o
  have hself := hobj.releasing.length_le (List.nodup_singleton t) fun u hu => by
    rw [List.mem_singleton.mp hu, hp]
    simp [Pc.releases]
  simp only [List.length_singleton] at hself
  have hcount : s.refcount o = n + k + s.raw o + 0 := hobj.count
  obtain ⟨hcreated, hdeleted⟩ := hobj.there (.inr (by omega))
  have halive : s.alive o = true := by
    have hzero : s.deleted o = 0 := by omega
    simp [State.alive, hcreated, hzero]
  have hrel : ∀ x, (if s.refcount o = 1 then Pc.delete p src o else .done p src).releases x = false :=
    fun x => by split <;> rfl
  refine h.goes (h.locks.move rfl rfl rfl ?_ ?_) rfl rfl (fun x => by split <;> rfl)
    (fun x => by rw [hp]; rfl) ?_ (fun x => ?_) ?_
  · intro r
    rw [hp]
    split <;> rfl
  · intro r
    rw [hp]
    split <;> rfl
  · intro x hx
    show Function.update s.refcount o (s.refcount o - 1) x = 0
    by_cases hxo : x = o
    · rw [hxo, Function.update_self]
      rw [hxo] at hx
      omega
    · rw [Function.update_of_ne hxo]
      exact hx
  · by_cases hxo : x = o
    · subst hxo
      obtain ⟨l, hl, hlcount⟩ := hobj.releasing.update t
        (if s.refcount x = 1 then .delete p src x else .done p src)
      obtain ⟨e, he, hecount⟩ := hobj.deleting.update t
        (if s.refcount x = 1 then .delete p src x else .done p src)
      rw [hp, hrel] at hlcount
      rw [hp] at hecount
      simp only [Pc.releases, decide_true, if_true, Bool.false_eq_true, if_false] at hlcount
      have hnew : Function.update s.refcount x (s.refcount x - 1) x = s.refcount x - 1 :=
        Function.update_self ..
      have hgone : (s.refcount x = 1 ∧ e = d + 1) ∨ (s.refcount x ≠ 1 ∧ e = d) := by
        by_cases hone : s.refcount x = 1
        · rw [if_pos hone] at hecount
          simp only [Pc.deletes, decide_true, if_true, Bool.false_eq_true, if_false] at hecount
          exact .inl ⟨hone, by omega⟩
        · rw [if_neg hone] at hecount
          simp only [Pc.deletes, Bool.false_eq_true, if_false] at hecount
          exact .inr ⟨hone, by omega⟩
      refine ⟨n, l, e, hobj.held, hl, he, ?_, ?_, ?_, ?_, ?_⟩
      · show Function.update s.refcount x (s.refcount x - 1) x = n + l + s.raw x + 0
        omega
      · show s.deleted x + e ≤ 1
        omega
      · intro hone
        have hone' : s.deleted x + e = 1 := hone
        refine ⟨?_, hlast (by omega)⟩
        show Function.update s.refcount x (s.refcount x - 1) x = 0
        omega
      · intro _ hd hz
        have hd' : s.deleted x + e = 0 := hd
        have hz' : Function.update s.refcount x (s.refcount x - 1) x = 0 := hz
        omega
      · intro hc
        have hc' : s.created x = false := hc
        rw [hcreated] at hc'
        cases hc'
    · obtain ⟨n', k', d', hobj'⟩ := h.obj x
      have href : Function.update s.refcount o (s.refcount o - 1) x = s.refcount x :=
        Function.update_of_ne hxo _ _
      have hne : ¬o = x := fun he => hxo he.symm
      let s₁ : State P O := { s with
        refcount := Function.update s.refcount o (s.refcount o - 1)
        pc := Function.update s.pc t (if s.refcount o = 1 then .delete p src o else .done p src)
        misused := s.misused || !s.alive o || s.refcount o = 0 }
      obtain ⟨m, hm⟩ := hobj'.move s₁ (t := t) (j := 0)
        (q := if s.refcount o = 1 then .delete p src o else .done p src)
        rfl rfl rfl href rfl rfl (by rw [hp]; split <;> simp [Pc.deletes, hne])
        (fun ha => by rw [hp] at ha; cases ha) (by
          rw [hrel, hp]
          simp [Pc.releases, hne])
      exact ⟨n', m, d', hm⟩
  · show (s.misused || !s.alive o || decide (s.refcount o = 0)) = false
    have hpos : s.refcount o ≠ 0 := by omega
    rw [h.ok, halive, decide_eq_false hpos]
    rfl

/-- `delete`. -/
theorem delete_inv (h : Inv s []) (hp : s.pc t = .delete p src o)
    (hs : stepThread s t = some s') : Inv s' [] := by
  simp only [stepThread, hp] at hs
  cases hs
  refine h.goes (h.locks.move (q := .done p src) rfl rfl rfl ?_ ?_) rfl rfl (fun x => rfl)
    (fun x => by rw [hp]; rfl) (fun x hx => hx) (fun x => ?_) h.ok
  · exact fun r => by rw [hp]; rfl
  · exact fun r => by rw [hp]; rfl
  · obtain ⟨n, k, d, hobj⟩ := h.obj x
    by_cases hxo : x = o
    · subst hxo
      have hself := hobj.deleting.length_le (List.nodup_singleton t) fun u hu => by
        rw [List.mem_singleton.mp hu, hp]
        simp [Pc.deletes]
      simp only [List.length_singleton] at hself
      have hnew : Function.update s.deleted x (s.deleted x + 1) x = s.deleted x + 1 :=
        Function.update_self ..
      have honce := hobj.once
      refine ⟨n, k, d - 1, hobj.held, hobj.releasing.move (by rw [hp]; rfl),
        hobj.deleting.leave (by rw [hp]; simp [Pc.deletes]) rfl, hobj.count, ?_, fun _ => ?_, ?_, ?_⟩
      · show Function.update s.deleted x (s.deleted x + 1) x + (d - 1) ≤ 1
        omega
      · exact hobj.gone (by omega)
      · intro _ hd
        have hd' : Function.update s.deleted x (s.deleted x + 1) x + (d - 1) = 0 := hd
        omega
      · intro hc
        obtain ⟨-, hd, -⟩ := hobj.before hc
        omega
    · have hne : ¬o = x := fun he => hxo he.symm
      let s₁ : State P O := { s with
        deleted := Function.update s.deleted o (s.deleted o + 1)
        pc := Function.update s.pc t (.done p src) }
      obtain ⟨m, hm⟩ := hobj.move s₁ (t := t) (j := 0) (q := .done p src)
        rfl rfl rfl rfl (Function.update_of_ne hxo _ _) rfl (by rw [hp]; simp [Pc.deletes, hne])
        (fun ha => by rw [hp] at ha; cases ha) (by rw [hp]; rfl)
      exact ⟨n, m, d, hm⟩

theorem done_inv (h : Inv s []) (hp : s.pc t = .done p src) : Inv (s.leave t p src) [] := by
  refine h.goes (h.locks.leave hp) rfl rfl (fun x => rfl) (fun x => by rw [hp]; rfl)
    (fun x hx => hx) (fun x => ?_) h.ok
  obtain ⟨n, k, d, hobj⟩ := h.obj x
  obtain ⟨m, hm⟩ := hobj.move (s.leave t p src) (t := t) (j := 0) (q := .idle)
    rfl rfl rfl rfl rfl rfl (by rw [hp]; rfl) (fun ha => by rw [hp] at ha; cases ha)
    (by rw [hp]; rfl)
  exact ⟨n, m, d, hm⟩

-- ============================================================================
-- Every step
-- ============================================================================

/-- Two pointers exchange what they have. -/
theorem swap_inv (h : Inv s []) (hp : s.free p = true) (hr : s.free r = true) :
    Inv ((s.setSlot p (s.slot r)).setSlot r (s.slot p)) [] := by
  have howed : ∀ {x : P}, s.free x = true → s.slot x = ⟨(s.slot x).ptr, false⟩ := by
    intro x hx
    obtain ⟨hwriter, -⟩ : s.writer x = none ∧ s.readers x = 0 := by
      simpa [State.free] using hx
    rw [← h.counted hwriter]
  by_cases hrp : r = p
  · subst hrp
    have hsame : ((s.setSlot r (s.slot r)).setSlot r (s.slot r)) = s := by
      simp [State.setSlot, Function.update_eq_self]
    rw [hsame]
    exact h
  · -- The reference of `p` is taken in hand and given to `r`, whose own then goes to `p`
    have h1 := h.clear hp
    have hslot1 : (s.setSlot p ⟨none, false⟩).slot r = s.slot r := Function.update_of_ne hrp _ _
    have h2 : Inv ((s.setSlot p ⟨none, false⟩).setSlot r ⟨(s.slot p).ptr, false⟩)
        (s.slot r).ptr.toList := h1.setSlot hr
      (fun o ho => h1.refcount_of_hand (by rw [ho]; exact List.mem_singleton_self o))
      (fun o => by rw [hslot1, Nat.add_comm])
    have hslot2 : ((s.setSlot p ⟨none, false⟩).setSlot r ⟨(s.slot p).ptr, false⟩).slot p =
        ⟨none, false⟩ := by
      have hpr : p ≠ r := fun he => hrp he.symm
      exact (Function.update_of_ne hpr _ _).trans (Function.update_self ..)
    have h3 : Inv (((s.setSlot p ⟨none, false⟩).setSlot r ⟨(s.slot p).ptr, false⟩).setSlot p
        ⟨(s.slot r).ptr, false⟩) [] := h2.setSlot hp
      (fun o ho => h2.refcount_of_hand (by rw [ho]; exact List.mem_singleton_self o))
      (fun o => by rw [hslot2]; simp)
    have hfinal : ((s.setSlot p ⟨none, false⟩).setSlot r ⟨(s.slot p).ptr, false⟩).setSlot p
        ⟨(s.slot r).ptr, false⟩ = (s.setSlot p (s.slot r)).setSlot r (s.slot p) := by
      rw [← howed hp, ← howed hr]
      simp only [State.setSlot]
      rw [Function.update_comm (fun he : p = r => hrp he.symm), Function.update_idem]
      rw [Function.update_comm hrp]
    rwa [hfinal] at h3

theorem stepThread_inv (h : Inv s []) (hs : stepThread s t = some s') : Inv s' [] := by
  cases hp : s.pc t with
  | idle =>
      simp only [stepThread, hp] at hs
      cases hs
  | add p src o prev => exact add_inv h hp hs
  | release p src o => exact release_inv h hp hs
  | delete p src o => exact delete_inv h hp hs
  | done p src =>
      simp only [stepThread, hp] at hs
      cases hs
      exact done_inv h hp

theorem step_inv {a : Act P O} (h : Inv s []) (hs : (pointers P O).step s a = some s') :
    Inv s' [] := by
  cases a with
  | step t => exact stepThread_inv h hs
  | construct t p o =>
      simp only [pointers] at hs
      split at hs <;> cases hs
      next hc => exact construct_inv h hc.1 hc.2.1 hc.2.2
  | copy t p r =>
      simp only [pointers] at hs
      split at hs
      next hc =>
        split at hs <;> cases hs
        next o ho => exact copy_inv h hc.1 hc.2.1 hc.2.2 ho
        next => exact Inv.assign (x := none) h hc.1 hc.2.1
      next => cases hs
  | move t p r =>
      simp only [pointers] at hs
      split at hs
      next hc =>
        split at hs <;> cases hs
        · exact h
        · exact (h.clear hc.2.2).assign hc.1 hc.2.1
      next => cases hs
  | reset t p =>
      simp only [pointers] at hs
      split at hs <;> cases hs
      next hc => exact Inv.assign (x := none) h hc.1 hc.2
  | adopt t p o =>
      simp only [pointers] at hs
      split at hs <;> cases hs
      next hc =>
        have hraw : Inv { s with raw := Function.update s.raw o (s.raw o - 1) } [o] := by
          refine h.setRaw fun x => ?_
          by_cases hx : x = o
          · subst hx
            rw [Function.update_self]
            simp only [List.count_singleton_self, List.count_nil]
            omega
          · have hne : ¬o = x := fun he => hx he.symm
            rw [Function.update_of_ne hx]
            simp [hne]
        exact Inv.assign (x := some o) hraw hc.1 hc.2.1
  | detach t p =>
      simp only [pointers] at hs
      split at hs
      next hc =>
        split at hs <;> cases hs
        next o ho =>
          have hclear := h.clear hc.2
          rw [ho] at hclear
          refine hclear.setRaw fun x => ?_
          show _ + Function.update s.raw o (s.raw o + 1) x = _ + s.raw x
          by_cases hx : x = o
          · subst hx
            rw [Function.update_self]
            simp only [Option.toList_some, List.count_singleton_self, List.count_nil]
            omega
          · have hne : ¬o = x := fun he => hx he.symm
            rw [Function.update_of_ne hx]
            simp [hne]
        next => exact h
      next => cases hs
  | swap t p r =>
      simp only [pointers] at hs
      split at hs <;> cases hs
      next hc => exact swap_inv h hc.2.1 hc.2.2

theorem reachable_inv (hr : (pointers P O).Reachable s) : Inv s [] := by
  refine hr.invariant ?_ fun _ _ _ hi _ hs => step_inv hi hs
  rintro _ rfl
  refine ⟨.start, fun o => ⟨0, 0, 0, ?_⟩, by simp [State.start], by simp [State.start], rfl⟩
  refine ⟨⟨[], List.nodup_nil, by simp [State.start, Slot.counts], rfl⟩,
    ⟨[], List.nodup_nil, by simp [State.start, Pc.releases], rfl⟩,
    ⟨[], List.nodup_nil, by simp [State.start, Pc.deletes], rfl⟩, rfl, Nat.zero_le 1, ?_, ?_, ?_⟩
  · exact fun h => by cases h
  · exact fun h => by cases h
  · exact fun _ => ⟨rfl, rfl, fun p => by simp [State.start]⟩

/-- In every run no counter of a deleted object is used, none goes below zero, and
    an object is deleted at most once, when no pointer has it and no reference to
    it is outside the pointers.  A thread that is about to count or to release a
    reference finds the object neither deleted nor about to be.  With no function
    under way, a counter is the number of pointers to the object and of the
    references that `detach` gave away, and it is zero exactly for the objects
    that were deleted.  (These are fewer than 2^64, so that no counter wraps.) -/
theorem refcount_counts :
    (∀ s : State P O, (pointers P O).Reachable s → s.misused = false ∧ ∀ o, s.deleted o ≤ 1 ∧
      (s.deleted o = 1 → s.raw o = 0 ∧ ∀ p, (s.slot p).ptr ≠ some o)) ∧
    (∀ s : State P O, (pointers P O).Reachable s → ∀ t o,
      (s.pc t).adds o = true ∨ (s.pc t).releases o = true →
        s.deleted o = 0 ∧ ∀ u, (s.pc u).deletes o = false) ∧
    (∀ s : State P O, (pointers P O).Reachable s → (∀ t, s.pc t = .idle) → ∀ o,
      (∃ n, Counted (fun v : Slot O => v.ptr = some o) n s.slot ∧ s.refcount o = n + s.raw o) ∧
      (s.created o = true → (s.deleted o = 1 ↔ s.refcount o = 0))) := by
  refine ⟨fun s hr => ⟨(reachable_inv hr).ok, fun o => ?_⟩, fun s hr t o ht => ?_,
    fun s hr hidle o => ?_⟩
  · obtain ⟨n, k, d, hobj⟩ := (reachable_inv hr).obj o
    have honce := hobj.once
    refine ⟨by omega, fun hone => ?_⟩
    obtain ⟨hzero, hnone⟩ := hobj.gone (by omega)
    have hcount := hobj.count
    exact ⟨by omega, hnone⟩
  · have h := reachable_inv hr
    obtain ⟨n, k, d, hobj⟩ := h.obj o
    have hthere : s.created o = true ∧ s.deleted o + d = 0 := by
      rcases ht with ht | ht
      · cases hp : s.pc t <;> rw [hp] at ht <;> simp only [Pc.adds, Bool.false_eq_true] at ht
        next p src x prev =>
          have hslot := (h.adds t p src x prev hp).1
          exact hobj.there (.inl ⟨p, by rw [hslot, of_decide_eq_true ht]⟩)
      · have hle := hobj.releasing.length_le (List.nodup_singleton t) fun u hu => by
          rw [List.mem_singleton.mp hu]
          exact ht
        have hcount := hobj.count
        simp only [List.length_singleton] at hle
        exact hobj.there (.inr (by omega))
    refine ⟨by omega, fun u => ?_⟩
    by_contra hdel
    have hle := hobj.deleting.length_le (List.nodup_singleton u) fun v hv => by
      rw [List.mem_singleton.mp hv]
      simpa using hdel
    simp only [List.length_singleton] at hle
    omega
  · have h := reachable_inv hr
    obtain ⟨n, k, d, hobj⟩ := h.obj o
    have hnobody : ∀ {f : Pc P O → Bool} {m : Nat}, f .idle = false → Counted f m s.pc → m = 0 := by
      rintro f m hf ⟨l, -, hmem, hlen⟩
      have hnil : l = [] := List.eq_nil_iff_forall_not_mem.mpr fun t ht => by
        have hft := (hmem t).mp ht
        rw [hidle t, hf] at hft
        cases hft
      rw [← hlen, hnil, List.length_nil]
    have hk : k = 0 := hnobody rfl hobj.releasing
    have hd : d = 0 := hnobody rfl hobj.deleting
    have hcount : s.refcount o = n + k + s.raw o + 0 := hobj.count
    refine ⟨⟨n, ?_, by omega⟩, fun hc => ⟨fun hone => (hobj.gone (by omega)).1, fun hzero => ?_⟩⟩
    · obtain ⟨l, hl, hmem, hlen⟩ := hobj.held
      refine ⟨l, hl, fun p => (hmem p).trans ?_, hlen⟩
      have howed : (s.slot p).owed = false := by
        by_contra howed
        obtain ⟨t, src, x, prev, ht⟩ := h.owed p (by simpa using howed)
        rw [hidle t] at ht
        cases ht
      simp [Slot.counts, howed]
    · by_contra hone
      have honce := hobj.once
      obtain ⟨t, ht⟩ := hobj.kept hc (by omega) hzero
      rw [hidle t] at ht
      cases ht

end Inv

end Coroactors.IntrusivePtr
