import Danmaku.Proofs.Machine.Ticks
import Danmaku.Proofs.Refinement.Stmt

/-!
# Bodies refined

A compiled body runs as its statements mean (`Decl.meets_body`). At the root this is the whole
script: it has the effects of the statements, in their order, and comes to the end to which they
come (`Decl.compile_refines`). `Program.Performs` says what that is in terms of steps and of ticks.
-/

namespace Danmaku

variable {p : Program} {names : List String} {excuse : Fault → Prop} {A : Activation}
  {c : Catalog} {apply : String → List Word → Eval Word} {n : Nat} {allowed : String → Prop}
  {s s' : ScopeStack} {ops : List Word} {w : World} {d : Decl} {r : Routine}

/-- **The code of a body does what its statements mean.** It comes to its end, or is about to return
a value. -/
theorem Decl.meets_body (hA : A.Hosts p names excuse c apply n allowed) (hc : c.Small)
    (hd : d.compile c s = (.ok r, s')) (hr : r.Small) (hcode : A.code = r.code)
    (hnames : A.names = r.numbers) (hcalls : ∀ f ∈ d.calls, allowed f)
    (hroom : A.capacity < ops.length + d.height → excuse (.stackOverflow A.capacity))
    {start : Recording} (hstart : A.Holds 0 ops w start) :
    Meets p names excuse (Stmt.execAll p.catalog apply n d.body) w start n
      (A.Goes r.code.size 0 0 false ops) := by
  have hstand := Decl.compile_allStand hA.made hc hd hr
  have hsize := Decl.size_code hA.made hd
  obtain ⟨header, r₀, hheader, herror, hscopes, -, -, rfl⟩ := Decl.compile_inv hd
  simp only [Decl.instrs, hheader, Fragment.sizeOf_instrs] at hstand hsize
  have hbody := @Stmt.meetsAll p names excuse A c apply n allowed hA d.body false 0 0 hcalls
    (fun h => absurd h Bool.false_ne_true) 0 (header :: s) ops w start herror
    (by rw [hscopes, hnames]; exact List.prefix_refl _) (by rwa [hcode])
    (by simp only [hcode, hsize, Nat.zero_add, Nat.le_refl]) hroom hstart
  rwa [Nat.zero_add, ← hsize] at hbody

/-! ## The root -/

/-- The world of the innermost body: its variables have the values of their slots. -/
def World.ofConfig (names : List String) (c : Config) : World where
  values name := c.thread.slots.getD (c.thread.window.1 + names.idxOf name) 0
  entity := c.entity
  log := []

/-- A recording shows what a world has: the variables of the innermost body, the entity and the
log. -/
structure Recording.Shows (r : Recording) (names : List String) (w : World) : Prop where
  values : ∀ (i : Nat) (name : String), names[i]? = some name →
    r.config.thread.slots[r.config.thread.window.1 + i]? = some (w.values name)
  entity : r.config.entity = w.entity
  log : r.log = w.log

theorem Recording.shows_ofConfig {c : Config} (hnodup : names.Nodup)
    (hslots : c.thread.window.1 + names.length ≤ c.thread.slots.size) :
    Recording.Shows ⟨c, []⟩ names (World.ofConfig names c) where
  values i name hi := by
    obtain ⟨hlt, rfl⟩ := List.getElem?_eq_some_iff.1 hi
    have hsize : c.thread.window.1 + i < c.thread.slots.size := by omega
    simp only [World.ofConfig, hnodup.idxOf_getElem i hlt, Array.getD_eq_getD_getElem?,
      Array.getElem?_eq_getElem hsize, Option.getD_some]
  entity := rfl
  log := rfl

/-- A thread that is at the start of the root, with no operands, and does not wait. -/
structure Thread.AtStart (t : Thread) : Prop where
  ip : t.ip = 0
  frames : t.frames = []
  empty : t.stack.values = #[]
  mode : t.mode = .ready

theorem Thread.size_slots_ofLimits (l : Limits) : (Thread.ofLimits l).slots.size = l.slots :=
  Array.size_replicate

namespace Program

/-- The run from a configuration comes to an end, taking the steps of a recording. So do the ticks
from there, if the host waits long enough. -/
def Finishes (p : Program) (names : List String) (start : Config) (result : Except Fault Unit)
    (final : Recording) : Prop :=
  (∃ steps r, p.Plays names steps ⟨start, []⟩ r ∧ p.advance names r = .over result final) ∧
    ∃ F N, ∀ patience n, F ≤ patience → N ≤ n →
      p.ticks patience n start = some (told result, final.config)

/-- The run from a configuration does what a body does on a world. Where that is not known, the
body having been followed with some patience only, the run takes at least that many steps, and among
what it does is what is known. -/
def Performs (p : Program) (names : List String) (patience : Nat) (start : Config) :
    EStateM.Result Halt World Completion → Prop
  | .ok completion w => ∃ final, p.Finishes names start (.ok ()) final ∧
      final.Shows names w ∧
      match completion with
      | .next => final.config.thread.lastReturn = start.thread.lastReturn
      | .ret v => final.config.thread.lastReturn = some v
      | .leave | .again => False
  | .error (.fault fault) w => ∃ final, p.Finishes names start (.error fault) final ∧
      final.log = w.log ∧ final.config.entity = w.entity
  | .error .patience w => ∃ steps r, patience ≤ steps ∧ p.Plays names steps ⟨start, []⟩ r ∧
      r.log = w.log

/-- What ends a recording ends the ticks. -/
theorem Plays.finishes {start : Config} {steps : Nat} {r' final : Recording}
    {result : Except Fault Unit} (hstart : start.thread.AtStart)
    (hbudget : start.thread.limits.budget = none) (h : p.Plays names steps ⟨start, []⟩ r')
    (hover : p.advance names r' = .over result final) : p.Finishes names start result final :=
  ⟨⟨steps, r', h, hover⟩, h.ticks hover hbudget hstart.mode⟩

end Program

/-- The root under way, from a configuration on. -/
def Activation.ofRoot (r : Routine) (start : Config) : Activation where
  code := r.code
  names := r.numbers
  frames := []
  base := 0
  capacity := start.thread.stack.capacity
  claimed? := none
  slots := start.thread.slots
  keeps _ := False
  lastReturn := start.thread.lastReturn

section Root

variable {start : Config} {final : Recording}

theorem Activation.ofRoot_proper (hcode : p.code = r.code) (hnodup : r.numbers.Nodup)
    (hslots : r.variableCount ≤ start.thread.slots.size) :
    (ofRoot r start).Proper p r.numbers where
  running t ht := by
    rw [Program.running, show t.frames = [] from ht]
    exact congrArg Except.ok hcode
  namesOf t ht := by
    rw [Program.namesOf, show t.frames = [] from ht]
    rfl
  slot t ht hsize i hi := by
    have hlt : i < t.slots.size := hsize ▸ Nat.lt_of_lt_of_le hi hslots
    simp only [Thread.slot, Thread.window, show t.frames = [] from ht, if_pos hlt, ofRoot]
  nodup := hnodup
  claimed _ _ h := nomatch h
  free _ _ h := h

theorem Activation.ofRoot_holds (hstart : start.thread.AtStart) (hnodup : r.numbers.Nodup)
    (hslots : r.variableCount ≤ start.thread.slots.size) :
    (ofRoot r start).Holds 0 [] (World.ofConfig r.numbers start) ⟨start, []⟩ where
  ip := hstart.ip
  frames := hstart.frames
  stack := congrArg (Stack.mk _) hstart.empty
  claimed _ h := nomatch h
  size := rfl
  kept _ _ := rfl
  values i name hi := by
    have hbase : start.thread.window.1 = 0 := by rw [Thread.window, hstart.frames]
    have hshows := (Recording.shows_ofConfig hnodup
      (by rw [hbase, Nat.zero_add]; exact hslots)).values i name hi
    rwa [hbase] at hshows
  entity := rfl
  log := rfl
  lastReturn := rfl

theorem Activation.Holds.shows {a : Nat} {r' : Recording}
    (hr : (ofRoot r start).Holds a ops w r') : r'.Shows r.numbers w where
  values i name h := by
    have hbase : r'.config.thread.window.1 = 0 := by rw [Thread.window, hr.frames]; rfl
    rw [hbase]
    exact hr.values i name h
  entity := hr.entity
  log := hr.log

/-- At the end of its code the root is over. -/
theorem Activation.Holds.ends {r' : Recording} (hcode : p.code = r.code)
    (hr : (ofRoot r start).Holds r.code.size ops w r') :
    ∃ final, p.advance names r' = .over (.ok ()) final ∧ final.Shows r.numbers w ∧
      final.config.thread.lastReturn = start.thread.lastReturn := by
  have hframes : r'.config.thread.frames = [] := hr.frames
  have hip : p.code.size ≤ r'.config.thread.ip := by rw [hr.ip, hcode]
  have hrun : p.running r'.config.thread = .ok p.code := by rw [Program.running, hframes]
  refine ⟨⟨{ r'.config with thread := { r'.config.thread with
      ip := 0
      mode := if p.looping then r'.config.thread.mode else .finished } }, r'.log⟩,
    ?_, ⟨hr.shows.values, hr.entity, hr.log⟩, hr.lastReturn⟩
  rw [Program.advance, Program.step_end_root hframes hip]
  simp only [Program.effects_of_end hrun hip, List.append_nil]

/-- When it returns, the root is over. -/
theorem Activation.Holds.returns {r' : Recording} {a : Nat} {v : Word}
    (hA : (ofRoot r start).Proper p names) (hi : Instr.ret.StandsAt r.code.words a)
    (hr : (ofRoot r start).Holds a (ops ++ [v]) w r') :
    ∃ final, p.advance names r' = .over (.ok ()) final ∧ final.Shows r.numbers w ∧
      final.config.thread.lastReturn = some v := by
  refine ⟨⟨{ r'.config with thread := { r'.config.thread with
      stack := ⟨start.thread.stack.capacity, #[]⟩
      lastReturn := some v
      ip := 0
      mode := if p.looping then r'.config.thread.mode else .finished } }, r'.log⟩,
    ?_, ⟨hr.shows.values, hr.entity, hr.log⟩, rfl⟩
  rw [Program.advance, hr.step_eq hA hi,
    Instr.execute_ret_root (hr.goTo _).stack (hr.goTo _).frames]
  simp only [Program.effects_of_isSilent (hr.instr?_eq hA hi) rfl, List.append_nil]
  rfl

/-- **Compiled bodies refine their statements.** From the start of the code of a body without calls
the machine does what the statements mean: the same stores, shots and waits in the same order, and
the same end. -/
theorem Decl.compile_refines (hmade : c.Made) (hc : c.Small) (hd : d.compile c s = (.ok r, s'))
    (hr : r.Small) (hcalls : d.calls = []) (hgrows : c.Grows p.catalog) (hcode : p.code = r.code)
    (hstart : start.thread.AtStart) (hbudget : start.thread.limits.budget = none)
    (hstack : d.height ≤ start.thread.stack.capacity)
    (hslots : r.variableCount ≤ start.thread.slots.size)
    (apply : String → List Word → Eval Word) (patience : Nat) :
    p.Performs r.numbers patience start
      (Stmt.execAll p.catalog apply patience d.body (World.ofConfig r.numbers start)) := by
  have hnodup := (Decl.compile_names hd).2.1
  have hproper := Activation.ofRoot_proper hcode hnodup hslots
  have hA : (Activation.ofRoot r start).Hosts p r.numbers (fun _ => False) c apply patience
      fun _ => False := ⟨hproper, hmade, hgrows, fun _ _ _ _ _ _ _ _ h => h.elim⟩
  have hmeets := Decl.meets_body hA hc hd hr rfl rfl (by simp [hcalls])
    (fun h => absurd hstack (Nat.not_le.2 (by simpa [Activation.ofRoot] using h)))
    (Activation.ofRoot_holds hstart hnodup hslots)
  rw [Meets] at hmeets
  split at hmeets
  · next completion w hw =>
    obtain ⟨steps, r', -, hplays, hgoes⟩ := hmeets.plays
    rw [hw, Program.Performs]
    cases completion with
    | next =>
      obtain ⟨final, hover, hshows, hreturn⟩ := Activation.Holds.ends hcode hgoes
      exact ⟨final, hplays.finishes hstart hbudget hover, hshows, hreturn⟩
    | ret v =>
      obtain ⟨a, hi, hr'⟩ := hgoes
      obtain ⟨final, hover, hshows, hreturn⟩ := hr'.returns hproper hi
      exact ⟨final, hplays.finishes hstart hbudget hover, hshows, hreturn⟩
    | leave | again => exact absurd hgoes.1 Bool.false_ne_true
  · next fault w hw =>
    obtain ⟨steps, r', -, hplays, final, hover, hlog, hentity⟩ := hmeets.plays
    rw [hw]
    exact ⟨final, hplays.finishes hstart hbudget hover, hlog, hentity⟩
  · next w hw =>
    obtain ⟨steps, r', hle, hplays, hlog⟩ := hmeets.plays
    rw [hw]
    exact ⟨steps, r', hle, hplays, hlog⟩

/-- A body with a loop that waits. -/
def Decl.countdown : Decl where
  kind := .action
  name := ⟨"countdown", .nowhere⟩
  parameters := []
  body :=
    [.var ⟨⟨"n", .nowhere⟩, some (.num 3 .nowhere)⟩ .nowhere,
      .whileLoop (.var "n" .nowhere)
        (.block [.wait (.num 2 .nowhere) .nowhere,
          .expr (.step .decrement (.var "n" .nowhere) .nowhere) .nowhere] .nowhere) .nowhere]
  position := .nowhere

/-- The routine of a declaration in the empty catalog. -/
def Decl.compiled (d : Decl) : Routine := (d.compile {} []).1.toOption.getD default

theorem Decl.countdown_refines :
    (⟨{}, countdown.compiled.code, false⟩ : Program).Performs countdown.compiled.numbers 7
      ⟨.ofLimits { budget := none }, ⟨0, #[]⟩, #[]⟩
      (Stmt.execAll {} (fun _ _ => pure 0) 7 countdown.body
        (World.ofConfig countdown.compiled.numbers
          ⟨.ofLimits { budget := none }, ⟨0, #[]⟩, #[]⟩)) :=
  Decl.compile_refines .empty
    ⟨Nat.zero_le _, Nat.zero_le _, Nat.zero_le _, Nat.zero_le _, Nat.zero_le _⟩
    (show countdown.compile {} [] = (.ok countdown.compiled, []) from rfl)
    ⟨by decide, by decide⟩ rfl (.refl _)
    rfl ⟨rfl, rfl, rfl, rfl⟩ rfl (by decide) (by rw [Thread.size_slots_ofLimits]; decide) _ _

end Root

end Danmaku
