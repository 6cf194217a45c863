/-
  Coroactors.StopScope.Stops

  How stops spread from a token to the sources inside.

  `Stops` relates the sources to the calls of `request_stop` in progress.  A
  source whose `propagate` exists is in the list of the token outside, or was
  taken from it by a call in progress, or is stopped (`hooked`); and a stopped
  source was requested or has a stopped token outside (`cause`).  When nothing
  is in progress these two make the law of a wrapper (`Stops.law`).
-/

import Coroactors.StopScope.Model

namespace Coroactors.StopScope

/-- The state of the token is stopped. -/
def stoppedIn (src : Nat → Source) (token : Token) : Prop :=
  ∃ p, token = some p ∧ (src p).stopped = true

/-- A source whose token the user may have. -/
def Stage.Visible (stage : Stage) : Prop := stage ≠ .absent ∧ stage ≠ .entering

structure Stops (src : Nat → Source) (busy : Nat → Hand → Prop) : Prop where
  /-- A stopped state with callbacks is being stopped. -/
  scan : ∀ q, (src q).stopped = true → (src q).callbacks ≠ [] → ∃ hand, busy q hand
  item : ∀ q hand, busy q hand → (src q).stopped = true
  listed : ∀ p c, c ∈ (src p).callbacks → (src c).outside = some p ∧ (src c).stage = .live
  taken : ∀ p c, busy p (.taken c) → (src c).outside = some p
  hooked : ∀ q p, (src q).stage = .live → (src q).outside = some p →
    q ∈ (src p).callbacks ∨ busy p (.taken q) ∨ (src q).stopped = true
  cause : ∀ q, (src q).stopped = true → (src q).requested = true ∨ stoppedIn src (src q).outside
  requested : ∀ q, (src q).requested = true → (src q).stopped = true
  outside : ∀ q p, (src q).outside = some p → p < q ∧ (src p).stage.Visible

namespace Stops

variable {src src' : Nat → Source} {busy busy' : Nat → Hand → Prop} {p q : Nat}

/-- When nothing is in progress, a source with its `propagate` is stopped if it
    was requested or if the token outside is stopped, and only then. -/
theorem law (h : Stops src busy) (hquiet : ∀ q hand, ¬busy q hand) (hlive : (src q).stage = .live) :
    (src q).stopped = true ↔ (src q).requested = true ∨ stoppedIn src (src q).outside := by
  refine ⟨h.cause q, ?_⟩
  rintro (hreq | ⟨p, hp, hstopped⟩)
  · exact h.requested q hreq
  · rcases h.hooked q p hlive hp with hlisted | htaken | hq
    · obtain ⟨hand, hbusy⟩ := h.scan p hstopped (List.ne_nil_of_mem hlisted)
      exact absurd hbusy (hquiet p hand)
    · exact absurd htaken (hquiet p _)
    · exact hq

-- ============================================================================
-- Changes of the sources
-- ============================================================================

/-- The data that `Stops` is about. -/
structure Same (x y : Source) : Prop where
  stage : x.stage = y.stage
  stopped : x.stopped = y.stopped
  callbacks : x.callbacks = y.callbacks
  outside : x.outside = y.outside
  requested : x.requested = y.requested

theorem Same.refl (x : Source) : Same x x := ⟨rfl, rfl, rfl, rfl, rfl⟩

/-- Other data may change. -/
theorem congr (h : Stops src busy) (hsame : ∀ q, Same (src' q) (src q)) : Stops src' busy := by
  have hin : ∀ token, stoppedIn src token → stoppedIn src' token := by
    rintro token ⟨p, rfl, hp⟩
    exact ⟨p, rfl, (hsame p).stopped.trans hp⟩
  constructor
  · intro q hs hc
    exact h.scan q ((hsame q).stopped ▸ hs) ((hsame q).callbacks ▸ hc)
  · intro q hand hb
    exact (hsame q).stopped.trans (h.item q hand hb)
  · intro p c hc
    rw [(hsame c).outside, (hsame c).stage]
    exact h.listed p c ((hsame p).callbacks ▸ hc)
  · intro p c hb
    exact (hsame c).outside.trans (h.taken p c hb)
  · intro q p hl ho
    rw [(hsame p).callbacks, (hsame q).stopped]
    exact h.hooked q p ((hsame q).stage ▸ hl) ((hsame q).outside ▸ ho)
  · intro q hs
    rw [(hsame q).requested, (hsame q).outside]
    exact (h.cause q ((hsame q).stopped ▸ hs)).imp_right (hin _)
  · intro q hr
    exact (hsame q).stopped.trans (h.requested q ((hsame q).requested ▸ hr))
  · intro q p ho
    rw [(hsame p).stage]
    exact h.outside q p ((hsame q).outside ▸ ho)

/-- The calls in progress change, and no list is left behind. -/
theorem setBusy (h : Stops src busy) (hitem : ∀ q hand, busy' q hand → (src q).stopped = true)
    (hscan : ∀ q hand, busy q hand → (src q).callbacks ≠ [] → ∃ hand', busy' q hand')
    (htaken : ∀ p c, busy' p (.taken c) → (src c).outside = some p)
    (hkeep : ∀ p c, busy p (.taken c) → busy' p (.taken c) ∨ (src c).stopped = true) :
    Stops src busy' := by
  refine ⟨fun q hs hc => ?_, hitem, h.listed, htaken, fun q p hl ho => ?_, h.cause, h.requested,
    h.outside⟩
  · obtain ⟨hand, hb⟩ := h.scan q hs hc
    exact hscan q hand hb hc
  · rcases h.hooked q p hl ho with hc | hb | hs
    · exact .inl hc
    · exact .inr (hkeep p q hb)
    · exact .inr (.inr hs)

/-- A source may only become visible, and only by its own `propagate`. -/
def StageStep (old new : Stage) : Prop := new = old ∨ old = .entering ∧ new = .live

theorem StageStep.visible {old new : Stage} (h : StageStep old new) (hv : old.Visible) :
    new.Visible := by
  rcases h with rfl | ⟨rfl, rfl⟩
  · exact hv
  · exact absurd rfl hv.2

theorem StageStep.live {old new : Stage} (h : StageStep old new) (hl : old = .live) :
    new = .live := by
  rcases h with rfl | ⟨rfl, rfl⟩
  · exact hl
  · rfl

/-- `request_stop` sets the flag. -/
theorem request (h : Stops src busy) {x : Source} (hstage : StageStep (src q).stage x.stage)
    (hstopped : x.stopped = true) (hcallbacks : x.callbacks = (src q).callbacks)
    (houtside : x.outside = (src q).outside)
    (hcause : x.requested = true ∨ stoppedIn src (src q).outside)
    (hbusy : ∀ q' hand, busy' q' hand ↔
      busy q' hand ∨ (src q).stopped = false ∧ q' = q ∧ hand = .idle) :
    Stops (Function.update src q x) busy' := by
  have hself : Function.update src q x q = x := Function.update_self q x src
  have hother : ∀ r, r ≠ q → Function.update src q x r = src r :=
    fun r hr => Function.update_of_ne hr x src
  have hmono : ∀ r, (src r).stopped = true → (Function.update src q x r).stopped = true := by
    intro r hr
    by_cases hrq : r = q
    · rw [hrq, hself]
      exact hstopped
    · rw [hother r hrq]
      exact hr
  have hout : ∀ r, (Function.update src q x r).outside = (src r).outside := by
    intro r
    by_cases hrq : r = q
    · rw [hrq, hself, houtside]
    · rw [hother r hrq]
  have hlist : ∀ r, (Function.update src q x r).callbacks = (src r).callbacks := by
    intro r
    by_cases hrq : r = q
    · rw [hrq, hself, hcallbacks]
    · rw [hother r hrq]
  have hst : ∀ r, StageStep (src r).stage (Function.update src q x r).stage := by
    intro r
    by_cases hrq : r = q
    · rw [hrq, hself]
      exact hstage
    · rw [hother r hrq]
      exact .inl rfl
  have hin : ∀ token, stoppedIn src token → stoppedIn (Function.update src q x) token := by
    rintro token ⟨p, rfl, hp⟩
    exact ⟨p, rfl, hmono p hp⟩
  constructor
  · intro r hr hc
    rw [hlist] at hc
    by_cases hold : (src r).stopped = true
    · obtain ⟨hand, hb⟩ := h.scan r hold hc
      exact ⟨hand, (hbusy r hand).mpr (.inl hb)⟩
    · have hrq : r = q := by
        by_contra hrq
        rw [hother r hrq] at hr
        exact hold hr
      subst hrq
      exact ⟨.idle, (hbusy r .idle).mpr (.inr ⟨by simpa using hold, rfl, rfl⟩)⟩
  · intro r hand hb
    rcases (hbusy r hand).mp hb with hb | ⟨-, rfl, -⟩
    · exact hmono r (h.item r hand hb)
    · rw [hself]
      exact hstopped
  · intro p c hc
    rw [hlist] at hc
    rw [hout]
    exact ⟨(h.listed p c hc).1, (hst c).live (h.listed p c hc).2⟩
  · intro p c hb
    rw [hout]
    rcases (hbusy p _).mp hb with hb | ⟨-, -, hidle⟩
    · exact h.taken p c hb
    · cases hidle
  · intro r p hl ho
    by_cases hrq : r = q
    · rw [hrq, hself]
      exact .inr (.inr hstopped)
    · rw [hother r hrq] at hl ho ⊢
      rw [hlist, hbusy]
      rcases h.hooked r p hl ho with hc | hb | hs
      · exact .inl hc
      · exact .inr (.inl (.inl hb))
      · exact .inr (.inr hs)
  · intro r hr
    by_cases hrq : r = q
    · subst hrq
      rw [hself, houtside]
      exact hcause.imp_right (hin _)
    · rw [hother r hrq] at hr ⊢
      exact (h.cause r hr).imp_right (hin _)
  · intro r hr
    by_cases hrq : r = q
    · rw [hrq, hself]
      exact hstopped
    · rw [hother r hrq] at hr ⊢
      exact h.requested r hr
  · intro r p ho
    rw [hout] at ho
    exact ⟨(h.outside r p ho).1, (hst p).visible (h.outside r p ho).2⟩

/-- No flag changes, but stages, lists and the calls in progress do. -/
theorem reshape (h : Stops src busy) (hstopped : ∀ r, (src' r).stopped = (src r).stopped)
    (houtside : ∀ r, (src' r).outside = (src r).outside)
    (hrequested : ∀ r, (src' r).requested = (src r).requested)
    (hvisible : ∀ r, (src r).stage.Visible → (src' r).stage.Visible)
    (hscan : ∀ r, (src r).stopped = true → (src' r).callbacks ≠ [] → ∃ hand, busy' r hand)
    (hitem : ∀ r hand, busy' r hand → (src r).stopped = true)
    (hlisted : ∀ p c, c ∈ (src' p).callbacks → (src c).outside = some p ∧ (src' c).stage = .live)
    (htaken : ∀ p c, busy' p (.taken c) → (src c).outside = some p)
    (hhooked : ∀ r p, (src' r).stage = .live → (src r).outside = some p →
      r ∈ (src' p).callbacks ∨ busy' p (.taken r) ∨ (src r).stopped = true) :
    Stops src' busy' := by
  have hin : ∀ token, stoppedIn src token → stoppedIn src' token := by
    rintro token ⟨p, rfl, hp⟩
    exact ⟨p, rfl, (hstopped p).trans hp⟩
  constructor
  · intro r hr
    exact hscan r (hstopped r ▸ hr)
  · intro r hand hb
    exact (hstopped r).trans (hitem r hand hb)
  · intro p c hc
    rw [houtside]
    exact hlisted p c hc
  · intro p c hb
    rw [houtside]
    exact htaken p c hb
  · intro r p hl ho
    rw [hstopped]
    exact hhooked r p hl (houtside r ▸ ho)
  · intro r hr
    rw [hrequested, houtside]
    exact (h.cause r (hstopped r ▸ hr)).imp_right (hin _)
  · intro r hr
    exact (hstopped r).trans (h.requested r (hrequested r ▸ hr))
  · intro r p ho
    have hp := h.outside r p (houtside r ▸ ho)
    exact ⟨hp.1, hvisible p hp.2⟩

/-- `propagate` without a token outside. -/
theorem hookNone (h : Stops src busy) (hout : (src q).outside = none) :
    Stops (Function.update src q { src q with stage := .live }) busy := by
  have hfield : ∀ r, Function.update src q { src q with stage := .live } r =
      { src r with stage := if r = q then .live else (src r).stage } := by
    intro r
    by_cases hrq : r = q
    · simp [hrq]
    · simp [hrq]
  refine h.reshape ?_ ?_ ?_ ?_ ?_ h.item ?_ h.taken ?_
  · simp [hfield]
  · simp [hfield]
  · simp [hfield]
  · intro r hr
    rw [hfield]
    by_cases hrq : r = q
    · simp [hrq, Stage.Visible]
    · simpa [hrq] using hr
  · intro r hs hc
    rw [hfield] at hc
    exact h.scan r hs hc
  · intro p c hc
    rw [hfield] at hc ⊢
    obtain ⟨ho, hl⟩ := h.listed p c hc
    by_cases hcq : c = q
    · simp [hcq, hout] at ho
    · exact ⟨ho, by simpa [hcq] using hl⟩
  · intro r p hl ho
    rw [hfield] at hl ⊢
    by_cases hrq : r = q
    · simp [hrq, hout] at ho
    · exact h.hooked r p (by simpa [hrq] using hl) ho

/-- `propagate` enters the list of the token outside. -/
theorem hookSome (h : Stops src busy) (hentering : (src q).stage = .entering)
    (hout : (src q).outside = some p) (hstopped : (src p).stopped = false) {src₁ : Nat → Source}
    (hsrc₁ : src₁ = Function.update src p { src p with callbacks := q :: (src p).callbacks }) :
    Stops (Function.update src₁ q { src₁ q with stage := .live }) busy := by
  have hpq : p ≠ q := Nat.ne_of_lt (h.outside q p hout).1
  have hfield : ∀ r, Function.update src₁ q { src₁ q with stage := .live } r =
      { src r with
        stage := if r = q then .live else (src r).stage
        callbacks := if r = p then q :: (src r).callbacks else (src r).callbacks } := by
    intro r
    subst hsrc₁
    by_cases hrq : r = q
    · subst hrq
      simp [Ne.symm hpq]
    · rw [Function.update_of_ne hrq]
      by_cases hrp : r = p
      · subst hrp
        simp [hrq]
      · simp [hrq, hrp]
  refine h.reshape ?_ ?_ ?_ ?_ ?_ h.item ?_ h.taken ?_
  · simp [hfield]
  · simp [hfield]
  · simp [hfield]
  · intro r hr
    rw [hfield]
    by_cases hrq : r = q
    · simp [hrq, Stage.Visible]
    · simpa [hrq] using hr
  · intro r hs hc
    rw [hfield] at hc
    have hrp : r ≠ p := by
      rintro rfl
      simp [hstopped] at hs
    exact h.scan r hs (by simpa [hrp] using hc)
  · intro p' c hc
    rw [hfield] at hc ⊢
    by_cases hcq : c = q
    · subst hcq
      by_cases hpp : p' = p
      · subst hpp
        exact ⟨hout, by simp⟩
      · have hl := (h.listed p' c (by simpa [hpp] using hc)).2
        simp [hentering] at hl
    · have hold : c ∈ (src p').callbacks := by
        by_cases hpp : p' = p
        · simpa [hpp, hcq] using hc
        · simpa [hpp] using hc
      exact ⟨(h.listed p' c hold).1, by simpa [hcq] using (h.listed p' c hold).2⟩
  · intro r p' hl ho
    rw [hfield] at hl ⊢
    by_cases hrq : r = q
    · subst hrq
      obtain rfl : p = p' := Option.some.inj (hout.symm.trans ho)
      exact .inl (by simp)
    · rcases h.hooked r p' (by simpa [hrq] using hl) ho with hc | hb
      · refine .inl ?_
        by_cases hpp : p' = p
        · simp [hpp, List.mem_cons_of_mem _ (hpp ▸ hc)]
        · simpa [hpp] using hc
      · exact .inr hb

/-- The destructor of `propagate`: nothing refers to the source afterwards. -/
theorem unhook (h : Stops src busy) (hlive : (src q).stage = .live)
    (hstage : ∀ r, (src' r).stage = if r = q then .ended else (src r).stage)
    (hstopped : ∀ r, (src' r).stopped = (src r).stopped)
    (houtside : ∀ r, (src' r).outside = (src r).outside)
    (hrequested : ∀ r, (src' r).requested = (src r).requested)
    (hcallbacks : ∀ r c, c ∈ (src' r).callbacks ↔ c ∈ (src r).callbacks ∧ c ≠ q) :
    Stops src' busy := by
  refine h.reshape hstopped houtside hrequested ?_ ?_ h.item ?_ h.taken ?_
  · intro r hr
    rw [hstage]
    by_cases hrq : r = q
    · simp [hrq, Stage.Visible]
    · simpa [hrq] using hr
  · intro r hs hc
    obtain ⟨c, hc⟩ := List.exists_mem_of_ne_nil _ hc
    exact h.scan r hs (List.ne_nil_of_mem ((hcallbacks r c).mp hc).1)
  · intro p c hc
    obtain ⟨hc, hcq⟩ := (hcallbacks p c).mp hc
    rw [hstage, if_neg hcq]
    exact h.listed p c hc
  · intro r p hl ho
    have hrq : r ≠ q := by
      rintro rfl
      simp [hstage] at hl
    rw [hstage, if_neg hrq] at hl
    rw [hcallbacks]
    exact (h.hooked r p hl ho).imp_left fun hc => ⟨hc, hrq⟩

/-- `request_stop` takes a callback from its list. -/
theorem take (h : Stops src busy) {c : Nat} {cs : List Nat} (hlist : (src q).callbacks = c :: cs)
    (hq : (src q).stopped = true) (hnew : busy' q (.taken c))
    (hbusy : ∀ r hand, busy' r hand → busy r hand ∨ r = q ∧ hand = .taken c)
    (hkeep : ∀ r hand, busy r hand → busy' r hand ∨ r = q ∧ hand = .idle) :
    Stops (Function.update src q { src q with callbacks := cs }) busy' := by
  have hfield : ∀ r, Function.update src q { src q with callbacks := cs } r =
      { src r with callbacks := if r = q then cs else (src r).callbacks } := by
    intro r
    by_cases hrq : r = q
    · simp [hrq]
    · simp [hrq]
  have hmem : ∀ r d, d ∈ (if r = q then cs else (src r).callbacks) → d ∈ (src r).callbacks := by
    intro r d hd
    by_cases hrq : r = q
    · rw [hrq, hlist]
      exact List.mem_cons_of_mem c (by simpa [hrq] using hd)
    · simpa [hrq] using hd
  have hc : c ∈ (src q).callbacks := by
    rw [hlist]
    exact List.mem_cons_self
  refine h.reshape ?_ ?_ ?_ ?_ ?_ ?_ ?_ ?_ ?_
  · simp [hfield]
  · simp [hfield]
  · simp [hfield]
  · intro r hr
    rw [hfield]
    exact hr
  · intro r hs hr
    by_cases hrq : r = q
    · subst hrq
      exact ⟨_, hnew⟩
    · rw [hfield] at hr
      obtain ⟨hand, hb⟩ := h.scan r hs (by simpa [hrq] using hr)
      exact ⟨hand, (hkeep r hand hb).resolve_right fun he => hrq he.1⟩
  · intro r hand hb
    rcases hbusy r hand hb with hb | ⟨rfl, -⟩
    · exact h.item r hand hb
    · exact hq
  · intro p d hd
    rw [hfield] at hd ⊢
    exact h.listed p d (hmem p d hd)
  · intro p d hb
    rcases hbusy p _ hb with hb | ⟨rfl, hd⟩
    · exact h.taken p d hb
    · cases hd
      exact (h.listed p c hc).1
  · intro r p hl ho
    rw [hfield] at hl ⊢
    rcases h.hooked r p hl ho with hr | hb | hs
    · by_cases hpq : p = q
      · subst hpq
        rw [hlist] at hr
        rcases List.mem_cons.mp hr with rfl | hr
        · exact .inr (.inl hnew)
        · exact .inl (by simpa using hr)
      · exact .inl (by simpa [hpq] using hr)
    · refine .inr (.inl ((hkeep p _ hb).resolve_right ?_))
      rintro ⟨-, hidle⟩
      cases hidle
    · exact .inr (.inr hs)

/-- A new source. -/
theorem new (h : Stops src busy) {x : Source} (hfresh : (src q).stage = .absent)
    (hstopped : (src q).stopped = false) (hnone : (src q).outside = none)
    (hx : x.stopped = false) (hcallbacks : x.callbacks = []) (hrequested : x.requested = false)
    (hstage : x.stage ≠ .live)
    (hout : ∀ p, x.outside = some p → p < q ∧ (src p).stage.Visible) :
    Stops (Function.update src q x) busy := by
  have hself : Function.update src q x q = x := Function.update_self q x src
  have hother : ∀ r, r ≠ q → Function.update src q x r = src r :=
    fun r hr => Function.update_of_ne hr x src
  have hvis : ∀ p, (src p).stage.Visible → p ≠ q := by
    rintro p hp rfl
    exact hp.1 hfresh
  constructor
  · intro r hs hc
    by_cases hrq : r = q
    · rw [hrq, hself, hx] at hs
      cases hs
    · rw [hother r hrq] at hs hc
      exact h.scan r hs hc
  · intro r hand hb
    have hs := h.item r hand hb
    by_cases hrq : r = q
    · rw [hrq, hstopped] at hs
      cases hs
    · rw [hother r hrq]
      exact hs
  · intro p c hc
    by_cases hpq : p = q
    · rw [hpq, hself, hcallbacks] at hc
      cases hc
    · rw [hother p hpq] at hc
      obtain ⟨ho, hl⟩ := h.listed p c hc
      have hcq : c ≠ q := by
        rintro rfl
        simp [hfresh] at hl
      rw [hother c hcq]
      exact ⟨ho, hl⟩
  · intro p c hb
    have ho := h.taken p c hb
    by_cases hcq : c = q
    · rw [hcq, hnone] at ho
      cases ho
    · rw [hother c hcq]
      exact ho
  · intro r p hl ho
    by_cases hrq : r = q
    · rw [hrq, hself] at hl
      exact absurd hl hstage
    · rw [hother r hrq] at hl ho ⊢
      have hpq := hvis p (h.outside r p ho).2
      rw [hother p hpq]
      exact h.hooked r p hl ho
  · intro r hs
    by_cases hrq : r = q
    · rw [hrq, hself, hx] at hs
      cases hs
    · rw [hother r hrq] at hs ⊢
      rcases h.cause r hs with hr | ⟨p, hp, hps⟩
      · exact .inl hr
      · refine .inr ⟨p, hp, ?_⟩
        rw [hother p (hvis p (h.outside r p hp).2)]
        exact hps
  · intro r hr
    by_cases hrq : r = q
    · rw [hrq, hself, hrequested] at hr
      cases hr
    · rw [hother r hrq] at hr ⊢
      exact h.requested r hr
  · intro r p ho
    by_cases hrq : r = q
    · rw [hrq, hself] at ho
      rw [hother p (hvis p (hout p ho).2), hrq]
      exact hout p ho
    · rw [hother r hrq] at ho
      rw [hother p (hvis p (h.outside r p ho).2)]
      exact h.outside r p ho

end Stops

end Coroactors.StopScope
