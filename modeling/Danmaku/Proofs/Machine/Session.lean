import Danmaku.Machine.Run
import Danmaku.Proofs.Machine.Control

/-!
# Sessions

A session is what a host does with one thread: it makes the thread, claims slots for the root, and
lets it run step by step, tick after tick, with an entity of its choice; it may set the thread back,
and use it for another root.
`Catalog.Session` holds of the configurations between two steps of a session. A tick stays in the
session, unless a step of the session faults (`Catalog.SessionWith.outcome`).

In a session the slots of the open calls lie one below the other, down to those of the root
(`Catalog.SessionWith.layered`).
-/

namespace Danmaku

/-- The routine in which a thread is, `root` being that of the root. -/
def Catalog.innermost? (K : Catalog) (root : Routine) (t : Thread) : Option Routine :=
  match t.frames with
  | [] => some root
  | f :: _ => K.function? f.function

theorem Program.running_of_innermost {K : Catalog} {root r : Routine} {t : Thread}
    (h : K.innermost? root t = some r) (looping : Bool) :
    (⟨K, root.code, looping⟩ : Program).running t = .ok r.code := by
  rw [Catalog.innermost?] at h
  rw [running]
  cases hframes : t.frames with
  | nil =>
    rw [hframes] at h
    rw [Option.some.inj h]
  | cons f frames =>
    simp only [hframes] at h
    simp only [h]

/-- The configurations between the steps of a session of a routine, for which so many slots have
been claimed. Of each step that is taken in the session of a routine, and in some routine, `obeys`
is granted. -/
inductive Catalog.SessionWith (K : Catalog) (obeys : Routine → Routine → Thread → Thread → Prop) :
    Routine → Nat → Config → Prop
  /-- The thread is new. -/
  | start {limits : Limits} {t : Thread} {r : Routine} {n : Nat} {entity : Entity}
      {shots : Array Shot} (claim : (Thread.ofLimits limits).reserve n = .ok t) :
      SessionWith K obeys r n ⟨t, entity, shots⟩
  /-- The thread is new, and has the arguments of an updater. -/
  | startUpdater {limits : Limits} {arguments : List Word} {t t' : Thread} {r : Routine} {n : Nat}
      {entity : Entity} {shots : Array Shot} (make : Thread.forUpdater limits arguments = .ok t)
      (claim : t.reserve n = .ok t') : SessionWith K obeys r n ⟨t', entity, shots⟩
  /-- The thread goes back to its start. -/
  | reset {r : Routine} {n : Nat} {c : Config} (h : SessionWith K obeys r n c) :
      SessionWith K obeys r n { c with thread := c.thread.reset }
  /-- At its start the thread may be used for another routine. -/
  | switch {r r' : Routine} {n n' : Nat} {c : Config} {t : Thread} (h : SessionWith K obeys r n c)
      (ip : c.thread.ip = 0) (frames : c.thread.frames = []) (empty : c.thread.stack.size = 0)
      (claim : c.thread.reserve n' = .ok t) : SessionWith K obeys r' n' { c with thread := t }
  /-- The thread takes a step. -/
  | step {r : Routine} {n : Nat} {c c' : Config} {looping : Bool} {flow : Flow}
      (h : SessionWith K obeys r n c)
      (step : (⟨K, r.code, looping⟩ : Program).step c = .ok flow c')
      (obeyed : ∀ r', K.innermost? r c.thread = some r' → obeys r r' c.thread c'.thread) :
      SessionWith K obeys r n c'
  /-- The host lets the thread go on or wait, and lends it an entity. -/
  | host {r : Routine} {n : Nat} {c : Config} (h : SessionWith K obeys r n c) (mode : Mode)
      (entity : Entity) (shots : Array Shot) :
      SessionWith K obeys r n ⟨{ c.thread with mode }, entity, shots⟩

/-- The configurations of a session of which nothing is granted. -/
abbrev Catalog.Session (K : Catalog) : Routine → Nat → Config → Prop :=
  K.SessionWith fun _ _ _ _ => True

/-! ## Layers -/

/-- Where the slots of the next call end, if there are `size` slots. -/
def Frame.topOf (size : Nat) : List Frame → Nat
  | [] => size
  | f :: _ => f.base

theorem Thread.top_eq (t : Thread) : t.top = Frame.topOf t.slots.size t.frames := by
  rw [top]
  cases t.frames <;> rfl

/-- The slots of open calls lie one below the other, and not below `floor`. -/
inductive Frame.Nested (K : Catalog) (floor size : Nat) : List Frame → Prop
  | nil (le : floor ≤ size) : Nested K floor size []
  | cons {f : Frame} {frames : List Frame} {callee : Routine} (rest : Nested K floor size frames)
      (callee_eq : K.function? f.function = some callee) (extent : f.extent = callee.variableCount)
      (below : f.base + f.extent ≤ topOf size frames) (above : floor ≤ f.base) :
      Nested K floor size (f :: frames)

namespace Frame.Nested

variable {K : Catalog} {floor size : Nat} {frames : List Frame}

theorem floor_le_top (h : Nested K floor size frames) : floor ≤ topOf size frames := by
  cases h with
  | nil le => exact le
  | cons _ _ _ _ above => exact above

theorem top_le_size (h : Nested K floor size frames) : topOf size frames ≤ size := by
  induction h with
  | nil => exact Nat.le_refl _
  | cons _ _ _ below _ ih => exact (Nat.le_add_right _ _).trans (below.trans ih)

end Frame.Nested

/-- The slots of a thread are divided between the root, which has so many at least, and the
calls. -/
structure Thread.Layered (K : Catalog) (n : Nat) (t : Thread) : Prop where
  claimed : n ≤ t.rootExtent
  nested : Frame.Nested K t.rootExtent t.slots.size t.frames

namespace Thread.Layered

variable {K : Catalog} {p : Program} {n n' : Nat} {t t' : Thread}

/-- Claiming slots for a thread without calls. -/
theorem of_reserve (hframes : t.frames = []) (hle : t.rootExtent ≤ t.slots.size)
    (h : t.reserve n = .ok t') : Layered K n t' := by
  rw [reserve] at h
  split at h
  · cases h
  · obtain rfl := Except.ok.inj h
    refine ⟨Nat.le_max_right _ _, ?_⟩
    simp only [hframes]
    exact .nil (Nat.max_le.2 ⟨hle, by omega⟩)

theorem extent_le_size (h : t.Layered K n) : t.rootExtent ≤ t.slots.size :=
  h.nested.floor_le_top.trans h.nested.top_le_size

/-- Slots that are claimed need not be claimed again. -/
theorem reserve_eq (h : t.Layered K n) (hle : n' ≤ n) : t.reserve n' = .ok t := by
  have hsize := h.extent_le_size
  have hclaimed := h.claimed
  rw [reserve, if_neg (by omega), Nat.max_eq_left (by omega)]

theorem leave {f : Frame} {frames : List Frame} {kept : Nat} (h : t.Layered K n)
    (hframes : t.frames = f :: frames) (hreturns : t.Returns t' f frames kept) :
    t'.Layered K n := by
  have hnested := h.nested
  rw [hframes] at hnested
  cases hnested with
  | cons rest _ _ _ _ =>
    refine ⟨hreturns.extent ▸ h.claimed, ?_⟩
    rw [hreturns.frames, hreturns.slots, hreturns.extent]
    exact rest

theorem stop (h : t.Layered K n) (hends : t.Ends t') : t'.Layered K n := by
  refine ⟨hends.extent ▸ h.claimed, ?_⟩
  rw [hends.frames, hends.slots, hends.extent]
  exact .nil h.extent_le_size

/-- **A step keeps the layers.** -/
theorem step (h : t.Layered p.catalog n) (hs : p.StepTo t t') : t'.Layered p.catalog n := by
  cases hs with
  | moves running decode not_call not_ret moves =>
    have hstays := moves.stays
    refine ⟨h.claimed.trans hstays.extent, ?_⟩
    rw [hstays.frames, hstays.slots]
    cases hf : t.frames with
    | nil =>
      have hle := hstays.extent_le
      rw [Nat.max_eq_right h.extent_le_size] at hle
      exact .nil hle
    | cons f fs =>
      have hextent := hstays.extent_of_frames (by simp [hf])
      rw [hextent, show t.rootExtent = _ from rfl, ← hf]
      exact h.nested
  | enters running decode callee_eq room floor operands eq =>
    subst eq
    rw [Thread.top_eq] at room floor
    refine ⟨h.claimed, ?_⟩
    simp only [enter, Thread.top_eq, size_fill]
    exact .cons h.nested callee_eq rfl (by simp only; omega) floor
  | returns running decode frames_eq operands returns => exact h.leave frames_eq returns
  | falls running ended frames_eq returns => exact h.leave frames_eq returns
  | stops decode frames_eq operands ends empty => exact h.stop ends
  | ends ended frames_eq ends same => exact h.stop ends

/-- The innermost body has slots for all its variables. They belong to the root, or are above the
slots of the next call. -/
theorem innermost {root r : Routine} (h : t.Layered K root.variableCount)
    (hr : K.innermost? root t = some r) :
    r.variableCount ≤ t.window.2 ∧ t.window.1 + r.variableCount ≤ t.slots.size ∧
      ∀ i < r.variableCount, t.window.1 + i < t.rootExtent ∨ t.top ≤ t.window.1 + i := by
  obtain ⟨hclaimed, hnested⟩ := h
  have hle := hnested.floor_le_top.trans hnested.top_le_size
  have htop := hnested.top_le_size
  rw [Catalog.innermost?] at hr
  split at hr
  · next hframes =>
    obtain rfl := Option.some.inj hr
    rw [Thread.window, Thread.top, hframes]
    simp only [Nat.zero_add]
    exact ⟨by omega, by omega, fun i hi => .inl (by omega)⟩
  · next f frames hframes =>
    rw [hframes] at hnested htop
    cases hnested with
    | cons rest callee_eq extent below above =>
      obtain rfl := Option.some.inj (callee_eq.symm.trans hr)
      have hrest := rest.top_le_size
      rw [Thread.window, Thread.top, hframes]
      simp only
      exact ⟨extent.ge, by omega, fun i _ => .inr (Nat.le_add_right _ _)⟩

end Thread.Layered

namespace Catalog.SessionWith

variable {K : Catalog} {obeys : Routine → Routine → Thread → Thread → Prop} {r : Routine} {n : Nat}
  {c c' : Config}

/-- A new thread, nothing being claimed. -/
theorem fresh (limits : Limits) (entity : Entity) (hn : n = 0) :
    K.SessionWith obeys r n ⟨.ofLimits limits, entity, #[]⟩ := by
  subst hn
  exact .start (by rw [Thread.reserve, if_neg (Nat.not_lt_zero _), Nat.max_zero])

/-- **In a session the slots are divided between the root and the open calls.** -/
theorem layered (h : K.SessionWith obeys r n c) : c.thread.Layered K n := by
  induction h with
  | start claim => exact .of_reserve rfl (Nat.zero_le _) claim
  | startUpdater make claim =>
    rw [Thread.forUpdater] at make
    split at make
    · cases make
    · next hle =>
      obtain rfl := Except.ok.inj make
      refine .of_reserve rfl ?_ claim
      rw [Thread.size_fill]
      exact Nat.not_lt.1 hle
  | reset _ ih => exact ⟨ih.claimed, .nil ih.extent_le_size⟩
  | switch _ _ frames _ claim ih => exact .of_reserve frames ih.extent_le_size claim
  | step _ hstep _ ih => exact ih.step (Program.stepTo_of_step hstep)
  | host _ mode entity shots ih => exact ⟨ih.claimed, ih.nested⟩

/-! ## Ticks -/

variable {looping : Bool} {patience fuel spent : Nat} {result : TickResult}

/-- Whatever step of a routine is taken in a session, is granted. -/
def Grants (K : Catalog) (obeys : Routine → Routine → Thread → Thread → Prop) (r : Routine)
    (n : Nat) (looping : Bool) : Prop :=
  ∀ c c' flow r', K.SessionWith obeys r n c →
    (⟨K, r.code, looping⟩ : Program).step c = .ok flow c' →
    K.innermost? r c.thread = some r' → obeys r r' c.thread c'.thread

theorem grants_true (K : Catalog) (r : Routine) (n : Nat) (looping : Bool) :
    Grants K (fun _ _ _ _ => True) r n looping := fun _ _ _ _ _ _ _ => trivial

/-- What comes of a tick that is taken in a session. Either it stays in the session, and the only
fault is that its budget was used up; or a step of the session faulted. -/
def Outcome (K : Catalog) (obeys : Routine → Routine → Thread → Thread → Prop) (r : Routine)
    (n : Nat) (looping : Bool) (result : TickResult) (c' : Config) : Prop :=
  (K.SessionWith obeys r n c' ∧
      ∀ fault, result = .error fault → ∃ budget, fault = .budgetExceeded budget) ∨
    ∃ c₀ fault, K.SessionWith obeys r n c₀ ∧
      (⟨K, r.code, looping⟩ : Program).step c₀ = .error fault c' ∧ result = .error fault

theorem outcome_run (h : K.SessionWith obeys r n c) (hgrants : Grants K obeys r n looping)
    (hrun : (⟨K, r.code, looping⟩ : Program).run fuel spent c = some (result, c')) :
    Outcome K obeys r n looping result c' := by
  induction fuel generalizing spent c with
  | zero => cases hrun
  | succ fuel ih =>
    simp only [Program.run] at hrun
    split at hrun
    · next budget _ =>
      obtain ⟨rfl, rfl⟩ := Prod.mk.inj (Option.some.inj hrun)
      exact .inl ⟨h, fun fault hf => ⟨budget, (Except.error.inj hf).symm⟩⟩
    · split at hrun
      · next fault _ hstep =>
        obtain ⟨rfl, rfl⟩ := Prod.mk.inj (Option.some.inj hrun)
        exact .inr ⟨c, fault, h, hstep, rfl⟩
      · next status _ hstep =>
        obtain ⟨rfl, rfl⟩ := Prod.mk.inj (Option.some.inj hrun)
        exact .inl ⟨h.step hstep fun r' => hgrants _ _ _ r' h hstep, fun fault hf => nomatch hf⟩
      · next hstep => exact ih (h.step hstep fun r' => hgrants _ _ _ r' h hstep) hrun

theorem outcome_tick (h : K.SessionWith obeys r n c) (hgrants : Grants K obeys r n looping)
    (htick : (⟨K, r.code, looping⟩ : Program).tick patience c = some (result, c')) :
    Outcome K obeys r n looping result c' := by
  simp only [Program.tick] at htick
  split at htick
  · obtain ⟨rfl, rfl⟩ := Prod.mk.inj (Option.some.inj htick)
    exact .inl ⟨h, fun fault hf => nomatch hf⟩
  · obtain ⟨rfl, rfl⟩ := Prod.mk.inj (Option.some.inj htick)
    exact .inl ⟨h.host _ _ _, fun fault hf => nomatch hf⟩
  · exact (h.host .ready c.entity c.shots).outcome_run hgrants htick
  · exact (h.host .ready c.entity c.shots).outcome_run hgrants htick

/-- **A tick stays in the session, unless a step of the session faults.** The slots of the routine
are claimed already, so the tick does not claim them again. -/
theorem outcome {kind : RoutineKind} {index : Nat} (h : K.SessionWith obeys r r.variableCount c)
    (hgrants : Grants K obeys r r.variableCount looping)
    (hr : (K.routines kind).at? index = some r)
    (htick : K.tick kind index looping patience c = some (result, c')) :
    Outcome K obeys r r.variableCount looping result c' := by
  simp only [Catalog.tick, hr, h.layered.reserve_eq (Nat.le_refl _)] at htick
  exact h.outcome_tick hgrants htick

end Catalog.SessionWith

end Danmaku
