import Danmaku.Proofs.Machine.Trace

/-!
# Tick after tick

A host runs a script by one tick after another, until the script does not wait any more
(`Program.ticks`). Without a budget these ticks take the very steps of a recording. So what comes of
the ticks from some point of a recording comes of the ticks from its start
(`Program.Plays.comesTo`), and a recording that is played to its end ends as the ticks do, in the
same configuration, as soon as the host is patient enough (`Program.Plays.ticks`).
-/

namespace Danmaku.Program

/-- Tick after tick until the script does not wait any more, at most so many. -/
def ticks (p : Program) (patience : Nat) : Nat → Config → Option (TickResult × Config)
  | 0, _ => none
  | n + 1, c =>
    match p.tick patience c with
    | some (.ok .suspended, c) => p.ticks patience n c
    | result => result

variable {p : Program} {names : List String} {patience n fuel spent : Nat} {c c' : Config}
  {flow : Flow} {f : Fault}

/-- Tick after tick comes to a result, if the host is patient enough. -/
def ComesTo (p : Program) (c : Config) (result : TickResult × Config) : Prop :=
  ∃ F N, ∀ patience n, F ≤ patience → N ≤ n → p.ticks patience n c = some result

/-- The ticks after one that came to `result`. -/
def continued (p : Program) (patience n : Nat) :
    Option (TickResult × Config) → Option (TickResult × Config)
  | some (.ok .suspended, c) => p.ticks patience n c
  | result => result

/-! ## Runs without a budget -/

theorem run_next (hbudget : c.thread.limits.budget = none) (h : p.step c = .ok .next c') :
    ∃ spent', p.run (fuel + 1) spent c = p.run fuel spent' c' := by
  rw [run, h, Limits.exhausted?, hbudget, ite_self]
  exact ⟨_, rfl⟩

theorem run_stop {status : Status} (hbudget : c.thread.limits.budget = none)
    (h : p.step c = .ok (.stop status) c') :
    p.run (fuel + 1) spent c = some (.ok status, c') := by
  rw [run, h, Limits.exhausted?, hbudget, ite_self]

theorem run_fault (hbudget : c.thread.limits.budget = none) (h : p.step c = .error f c') :
    p.run (fuel + 1) spent c = some (.error f, c') := by
  rw [run, h, Limits.exhausted?, hbudget, ite_self]

/-- Only a wait suspends. -/
theorem step_suspended (h : p.step c = .ok (.stop .suspended) c') :
    ∃ k, c'.thread.mode = .waiting k := by
  cases (h ▸ p.outcome c : p.Outcome c.thread (.ok (.stop .suspended) c')) with
  | waits quiet eq => exact ⟨_, by rw [eq]⟩

/-- The ticks that a thread waits lead to where it goes on. -/
theorem ticks_waiting (hbudget : c.thread.limits.budget = none) {k : Nat}
    (hmode : c.thread.mode = .waiting k) :
    p.ticks patience (n + max k 1) c = p.continued patience n
      (p.run patience 0 { c with thread := { c.thread with mode := .ready } }) := by
  have hresume (c : Config) (hb : c.thread.limits.budget = none) :
      p.resume patience c =
        p.run patience 0 { c with thread := { c.thread with mode := .ready } } := by
    rw [resume, fuel, hb]
  induction k generalizing c with
  | zero =>
    rw [show n + max 0 1 = n + 1 by omega, ticks, tick, hmode]
    simp only [hresume c hbudget]
    rfl
  | succ k ih =>
    cases k with
    | zero =>
      rw [show n + max (0 + 1) 1 = n + 1 by omega, ticks, tick, hmode]
      simp only [hresume c hbudget]
      rfl
    | succ k =>
      rw [show n + max (k + 1 + 1) 1 = n + max (k + 1) 1 + 1 by omega, ticks, tick, hmode]
      exact ih hbudget rfl

/-- With enough steps left for the tick, and enough ticks to come, the rest of the tick and the
ticks after it come to a result. -/
def Settles (p : Program) (c : Config) (result : TickResult × Config) : Prop :=
  ∃ F N, ∀ patience fuel n spent, F ≤ patience → F ≤ fuel → N ≤ n →
    p.continued patience n (p.run fuel spent c) = some result

variable {final : TickResult × Config}

/-- A tick of a thread that does not wait. -/
theorem tick_ready (hbudget : c.thread.limits.budget = none) (hmode : c.thread.mode = .ready) :
    p.tick patience c = p.run patience 0 c := by
  have hready : { c with thread := { c.thread with mode := .ready } } = c := by rw [← hmode]
  simp only [tick, hmode, resume, Program.fuel, hbudget, hready]

theorem ticks_ready (hbudget : c.thread.limits.budget = none) (hmode : c.thread.mode = .ready) :
    p.ticks patience (n + 1) c = p.continued patience n (p.run patience 0 c) := by
  rw [ticks, tick_ready hbudget hmode]
  rfl

/-- A thread that does not wait may be at the beginning of a tick or within it. -/
theorem settles_iff_comesTo (hbudget : c.thread.limits.budget = none)
    (hmode : c.thread.mode = .ready) : p.Settles c final ↔ p.ComesTo c final := by
  constructor
  · rintro ⟨F, N, hsettles⟩
    refine ⟨F, N + 1, fun patience n hp hn => ?_⟩
    obtain ⟨n, rfl⟩ := Nat.exists_eq_add_of_le' (Nat.le_trans (Nat.le_add_left 1 N) hn)
    rw [ticks_ready hbudget hmode]
    exact hsettles patience patience n 0 hp hp (by omega)
  · rintro ⟨F, N, hcomes⟩
    refine ⟨F, N, fun patience fuel n spent hp hfuel hn => ?_⟩
    have hfirst := hcomes F (N + 1) (Nat.le_refl F) (Nat.le_succ N)
    have hticks := hcomes patience (n + 1) hp (Nat.le_succ_of_le hn)
    rw [ticks_ready hbudget hmode] at hfirst hticks
    cases hrun : p.run F 0 c with
    | none =>
      rw [hrun] at hfirst
      cases hfirst
    | some result =>
      rw [(run_spent p fuel spent hbudget).1, run_of_le hfuel hrun]
      rwa [run_of_le hp hrun] at hticks

/-! ## Recordings -/

/-- How a run of a recording ends, as the host is told. -/
def told (result : Except Fault Unit) : TickResult := result.map fun _ => .completed

/-- A step that is the last of a recording is the last of the ticks. -/
theorem settles_of_over {r r' : Recording} {result : Except Fault Unit}
    (hover : p.advance names r = .over result r')
    (hbudget : r.config.thread.limits.budget = none) :
    p.Settles r.config (told result, r'.config) := by
  refine ⟨1, 0, fun patience fuel n spent _ hfuel _ => ?_⟩
  obtain ⟨fuel, rfl⟩ := Nat.exists_eq_add_of_le' hfuel
  rw [advance] at hover
  split at hover
  · next hs =>
    obtain ⟨rfl, rfl⟩ := Progress.over.inj hover
    rw [run_fault hbudget hs]
    rfl
  · cases hover
  · cases hover
  · next hs =>
    obtain ⟨rfl, rfl⟩ := Progress.over.inj hover
    rw [run_stop hbudget hs]
    rfl

/-- **What comes of some point of a recording comes of its start.** -/
theorem Plays.settles {r r' : Recording} {steps : Nat} (h : p.Plays names steps r r')
    (hbudget : r.config.thread.limits.budget = none) (hfinal : p.Settles r'.config final) :
    p.Settles r.config final := by
  induction h with
  | refl r => exact hfinal
  | step first rest ih =>
    rw [advance] at first
    split at first
    · cases first
    · next c hs =>
      obtain rfl := Progress.on.inj first
      have hlimits := (stepTo_of_step hs).limits
      obtain ⟨F, N, hrest⟩ := ih (by rw [hlimits, hbudget]) hfinal
      refine ⟨F + 1, N, fun patience fuel n spent hp hfuel hn => ?_⟩
      obtain ⟨fuel, rfl⟩ := Nat.exists_eq_add_of_le' (Nat.le_trans (Nat.le_add_left 1 F) hfuel)
      obtain ⟨spent', hrun⟩ := run_next hbudget hs
      rw [hrun]
      exact hrest patience fuel n spent' (by omega) (by omega) hn
    · next c hs =>
      obtain rfl := Progress.on.inj first
      have hlimits := (stepTo_of_step hs).limits
      obtain ⟨k, hk⟩ := step_suspended hs
      obtain ⟨F, N, hrest⟩ := ih (by rw [hlimits, hbudget]) hfinal
      refine ⟨F + 1, N + max k 1, fun patience fuel n spent hp hfuel hn => ?_⟩
      obtain ⟨fuel, rfl⟩ := Nat.exists_eq_add_of_le' (Nat.le_trans (Nat.le_add_left 1 F) hfuel)
      obtain ⟨n', rfl⟩ := Nat.exists_eq_add_of_le' (Nat.le_trans (Nat.le_add_left _ N) hn)
      rw [run_stop hbudget hs]
      change p.ticks patience (n' + max k 1) c = _
      rw [ticks_waiting (by rw [hlimits, hbudget]) hk]
      exact hrest patience patience n' 0 (by omega) (by omega) (by omega)
    · cases first

/-- Along a recording the limits stay, and a thread that does not wait is taken up again whenever it
does. -/
theorem Plays.kept {r r' : Recording} {steps : Nat} (h : p.Plays names steps r r') :
    r'.config.thread.limits = r.config.thread.limits ∧
      (r.config.thread.mode = .ready → r'.config.thread.mode = .ready) := by
  induction h with
  | refl r => exact ⟨rfl, id⟩
  | step first rest ih =>
    rw [advance] at first
    split at first
    · cases first
    · next c hs =>
      obtain rfl := Progress.on.inj first
      have hmode := (hs ▸ p.outcome _ : p.Outcome _ (.ok .next c)).mode_eq
      exact ⟨ih.1.trans (stepTo_of_step hs).limits, fun hready => ih.2 (hmode.trans hready)⟩
    · next c hs =>
      obtain rfl := Progress.on.inj first
      exact ⟨ih.1.trans (stepTo_of_step hs).limits, fun _ => ih.2 rfl⟩
    · cases first

/-- What comes of the ticks from some point of a recording comes of the ticks from its start. -/
theorem Plays.comesTo {r r' : Recording} {steps : Nat} (h : p.Plays names steps r r')
    (hbudget : r.config.thread.limits.budget = none) (hmode : r.config.thread.mode = .ready)
    (hfinal : p.ComesTo r'.config final) : p.ComesTo r.config final := by
  obtain ⟨hlimits, hready⟩ := h.kept
  rw [← settles_iff_comesTo (hlimits ▸ hbudget) (hready hmode)] at hfinal
  exact (settles_iff_comesTo hbudget hmode).1 (h.settles hbudget hfinal)

/-- **A recording that is played to its end ends as tick after tick does.** -/
theorem Plays.ticks {r r₁ r₂ : Recording} {steps : Nat} {result : Except Fault Unit}
    (h : p.Plays names steps r r₁) (hover : p.advance names r₁ = .over result r₂)
    (hbudget : r.config.thread.limits.budget = none) (hmode : r.config.thread.mode = .ready) :
    p.ComesTo r.config (told result, r₂.config) := by
  have hend := settles_of_over hover (h.kept.1 ▸ hbudget)
  exact (settles_iff_comesTo hbudget hmode).1 (h.settles hbudget hend)

end Danmaku.Program
