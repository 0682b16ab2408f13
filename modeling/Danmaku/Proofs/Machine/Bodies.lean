import Danmaku.Proofs.Machine.Session

/-!
# Open bodies

In a thread there is a body for the root and one for each open call; all but the innermost wait
until they go on after a call. What is said of each of these bodies by itself (`Catalog.Bodies`)
holds in a whole session if the instructions of a body keep it, a call hands it on, and a return
gives it back (`Catalog.Discipline.session`).
-/

namespace Danmaku

/-- How many operands there were before the innermost call. -/
def Frame.operandsBelow : List Frame → Nat
  | [] => 0
  | f :: _ => f.stackBase

/-- The function that was called last, if a call is open. -/
def Frame.innermost? : List Frame → Option Nat
  | [] => none
  | f :: _ => some f.function

/-- Every open body is as `Q` says: of the function that it belongs to, unless it is the root, of
its routine, how many operands there were before it was entered, the address at which it goes on,
and how many operands there are then. -/
def Catalog.Bodies (K : Catalog) (Q : Option Nat → Routine → Nat → Nat → Nat → Prop)
    (root : Routine) : (address size : Nat) → List Frame → Prop
  | address, size, [] => Q none root 0 address size
  | address, size, f :: frames =>
    (∃ r, K.function? f.function = some r ∧ Q (some f.function) r f.stackBase address size) ∧
      Bodies K Q root f.returnTo (f.stackBase + 1) frames

/-- Bodies keep `Q` by themselves. -/
structure Catalog.Discipline (K : Catalog) (obeys : Routine → Thread → Thread → Prop)
    (Q : Option Nat → Routine → Nat → Nat → Nat → Prop) : Prop where
  /-- An instruction that stays in the body keeps it. -/
  moves : ∀ {p : Program} {r : Routine} {base : Nat} {t t' : Thread} {i : Instr} {next : Nat},
    p.catalog = K → Q (Frame.innermost? t.frames) r base t.ip t.stack.size →
    Instr.decode r.code.words t.ip = .ok (i, next) → (∀ f, i ≠ .call f) → i ≠ .ret →
    i.Moves p r.code.size { t with ip := next } t' → obeys r t t' →
    Q (Frame.innermost? t.frames) r base t'.ip t'.stack.size
  /-- After a call the body goes on, and the callee starts. -/
  call : ∀ {who : Option Nat} {r callee : Routine} {base address size f next : Nat},
    Q who r base address size → Instr.decode r.code.words address = .ok (.call f, next) →
    K.function? f = some callee → callee.parameterCount ≤ size →
    Q who r base next (size - callee.parameterCount + 1) ∧
      Q (some f) callee (size - callee.parameterCount) 0 (size - callee.parameterCount)
  /-- A body that is left, with `kept` operands, leaves as many as there were. -/
  back : ∀ {who who' : Option Nat} {r r' : Routine} {base base' address address' size kept : Nat},
    Q who r base address size →
    ((∃ next, Instr.decode r.code.words address = .ok (.ret, next) ∧ size = kept + 1) ∨
      r.code.size ≤ address ∧ size = kept) →
    Q who' r' base' address' (base + 1) → Q who' r' base' address' (min kept base + 1)
  /-- The root starts again after its end. -/
  stop : ∀ {r : Routine} {address size : Nat}, Q none r 0 address size → r.code.size ≤ address →
    Q none r 0 0 size

theorem Thread.reserve_inv {t t' : Thread} {n : Nat} (h : t.reserve n = .ok t') :
    t'.ip = t.ip ∧ t'.stack = t.stack ∧ t'.frames = t.frames := by
  rw [reserve] at h
  split at h
  · cases h
  · obtain rfl := Except.ok.inj h
    exact ⟨rfl, rfl, rfl⟩

theorem Thread.size_enter {t : Thread} {function : Nat} {callee : Routine}
    (h : callee.parameterCount ≤ t.stack.size) :
    (t.enter function callee).stack.size = t.stack.size - callee.parameterCount := by
  simp only [enter, Stack.size, Array.size_shrink] at h ⊢
  omega

namespace Catalog

variable {K : Catalog} {obeys : Routine → Thread → Thread → Prop}
  {Q : Option Nat → Routine → Nat → Nat → Nat → Prop} {root : Routine} {looping : Bool}
  {t t' : Thread} {address address' size size' : Nat} {frames : List Frame}

theorem Bodies.innermost (h : K.Bodies Q root address size t.frames) :
    ∃ r, K.innermost? root t = some r ∧
      Q (Frame.innermost? t.frames) r (Frame.operandsBelow t.frames) address size := by
  rw [innermost?]
  cases hframes : t.frames with
  | nil =>
    rw [hframes] at h
    exact ⟨root, rfl, h⟩
  | cons f frames =>
    rw [hframes] at h
    exact h.1

theorem Bodies.set (h : K.Bodies Q root address size t.frames) {r : Routine}
    (hr : K.innermost? root t = some r)
    (hQ : Q (Frame.innermost? t.frames) r (Frame.operandsBelow t.frames) address' size') :
    K.Bodies Q root address' size' t.frames := by
  rw [innermost?] at hr
  cases hframes : t.frames with
  | nil =>
    rw [hframes] at hr hQ
    obtain rfl := Option.some.inj hr
    exact hQ
  | cons f frames =>
    rw [hframes] at h hr hQ
    exact ⟨⟨r, hr, hQ⟩, h.2⟩

/-- Only the innermost body has changed. -/
theorem Bodies.congr (h : K.Bodies Q root address size frames)
    (hQ : ∀ who r base, Q who r base address size → Q who r base address' size') :
    K.Bodies Q root address' size' frames := by
  cases frames with
  | nil => exact hQ _ _ _ h
  | cons f frames =>
    obtain ⟨⟨r, hr, hq⟩, hrest⟩ := h
    exact ⟨⟨r, hr, hQ _ _ _ hq⟩, hrest⟩

/-- What a step does to the bodies of a thread whose innermost body has the routine `r`. -/
inductive BodyStep (K : Catalog) (Q : Option Nat → Routine → Nat → Nat → Nat → Prop) (r : Routine)
    (t t' : Thread) : Prop
  /-- It stays in the body. -/
  | stays (frames : t'.frames = t.frames)
      (body : Q (Frame.innermost? t.frames) r (Frame.operandsBelow t.frames) t'.ip t'.stack.size)
  /-- It enters another, and the body will go on. -/
  | enters {f : Frame} {callee : Routine} (frames : t'.frames = f :: t.frames)
      (routine : K.function? f.function = some callee)
      (body : Q (some f.function) callee f.stackBase t'.ip t'.stack.size)
      (caller : Q (Frame.innermost? t.frames) r (Frame.operandsBelow t.frames) f.returnTo
        (f.stackBase + 1))
  /-- It leaves the body for that of the caller, where there is one more operand. -/
  | leaves {f : Frame} (frames : t.frames = f :: t'.frames) (ip : t'.ip = f.returnTo)
      (operands : ∀ who r' base address, Q who r' base address (f.stackBase + 1) →
        Q who r' base address t'.stack.size)
  /-- It comes to the end of the root. -/
  | stops (frames_eq : t.frames = []) (frames : t'.frames = []) (ip : t'.ip = 0)
      (body : Q none r 0 0 t'.stack.size)

namespace Discipline

/-- **What a step does to the innermost body**, of which the discipline tells. -/
theorem bodyStep (hD : K.Discipline obeys Q) {p : Program} {r : Routine} (hp : p.catalog = K)
    (hrun : p.running t = .ok r.code)
    (hQ : Q (Frame.innermost? t.frames) r (Frame.operandsBelow t.frames) t.ip t.stack.size)
    (hroot : t.frames = [] → Q none r 0 0 0) (hs : p.StepTo t t') (hobeys : obeys r t t') :
    BodyStep K Q r t t' := by
  subst hp
  cases hs with
  | moves running decode not_call not_ret moves =>
    obtain rfl := Except.ok.inj (hrun.symm.trans running)
    exact .stays moves.stays.frames (hD.moves rfl hQ decode not_call not_ret moves hobeys)
  | @enters _ _ next _ running decode callee_eq room floor operands eq =>
    obtain rfl := Except.ok.inj (hrun.symm.trans running)
    obtain ⟨hcaller, hcallee⟩ := hD.call hQ decode callee_eq operands
    subst eq
    refine .enters rfl callee_eq ?_ hcaller
    rwa [Thread.size_enter (t := { t with ip := next }) operands]
  | returns running decode frames_eq operands returns =>
    obtain rfl := Except.ok.inj (hrun.symm.trans running)
    rw [frames_eq] at hQ
    refine .leaves (returns.frames.symm ▸ frames_eq) returns.ip fun who r' base address => ?_
    rw [returns.operands]
    exact hD.back hQ (.inl ⟨_, decode, operands⟩)
  | falls running ended frames_eq returns =>
    obtain rfl := Except.ok.inj (hrun.symm.trans running)
    rw [frames_eq] at hQ
    refine .leaves (returns.frames.symm ▸ frames_eq) returns.ip fun who r' base address => ?_
    rw [returns.operands]
    exact hD.back hQ (.inr ⟨ended, rfl⟩)
  | stops decode frames_eq operands ends empty =>
    exact .stops frames_eq ends.frames ends.ip (empty ▸ hroot frames_eq)
  | ends ended frames_eq ends same =>
    rw [Program.running, frames_eq] at hrun
    rw [frames_eq] at hQ
    refine .stops frames_eq ends.frames ends.ip (same ▸ hD.stop hQ ?_)
    rwa [← Except.ok.inj hrun]

/-- **A step keeps what holds of all open bodies.** -/
theorem step (hD : K.Discipline obeys Q) (hroot : Q none root 0 0 0)
    (h : K.Bodies Q root t.ip t.stack.size t.frames)
    (hs : (⟨K, root.code, looping⟩ : Program).StepTo t t')
    (hobeys : ∀ r, K.innermost? root t = some r → obeys r t t') :
    K.Bodies Q root t'.ip t'.stack.size t'.frames := by
  obtain ⟨r, hr, hQ⟩ := h.innermost
  have of_root (hframes : t.frames = []) : r = root := by
    rw [innermost?, hframes] at hr
    exact (Option.some.inj hr).symm
  cases hD.bodyStep rfl (Program.running_of_innermost hr looping) hQ
    (fun hframes => (of_root hframes).symm ▸ hroot) hs (hobeys r hr) with
  | stays frames body =>
    rw [frames]
    exact h.set hr body
  | enters frames routine body caller =>
    rw [frames]
    exact ⟨⟨_, routine, body⟩, h.set hr caller⟩
  | leaves frames ip operands =>
    rw [frames] at h
    rw [ip]
    exact h.2.congr fun who r' base => operands who r' base _
  | stops frames_eq frames ip body =>
    rw [frames, ip]
    exact of_root frames_eq ▸ body

/-- **What holds of a body by itself holds of all open bodies in a session.** -/
theorem session {obeys : Routine → Routine → Thread → Thread → Prop}
    (hD : K.Discipline (obeys root) Q) {n : Nat} {c : Config}
    (h : K.SessionWith obeys root n c) (hroot : Q none root 0 0 0) :
    K.Bodies Q root c.thread.ip c.thread.stack.size c.thread.frames := by
  induction h with
  | start claim =>
    obtain ⟨hip, hstack, hframes⟩ := Thread.reserve_inv claim
    rw [hip, hstack, hframes]
    exact hroot
  | startUpdater make claim =>
    obtain ⟨hip, hstack, hframes⟩ := Thread.reserve_inv claim
    rw [Thread.forUpdater] at make
    split at make
    · cases make
    · obtain rfl := Except.ok.inj make
      rw [hip, hstack, hframes]
      exact hroot
  | reset _ => exact hroot
  | switch _ ip frames empty claim =>
    obtain ⟨hip, hstack, hframes⟩ := Thread.reserve_inv claim
    simp only [hip, hstack, hframes, ip, frames, empty]
    exact hroot
  | step _ hstep hobeys ih =>
    exact hD.step hroot (ih hD hroot) (Program.stepTo_of_step hstep) hobeys
  | host _ mode entity shots ih => exact ih hD hroot

end Discipline

end Catalog

end Danmaku
