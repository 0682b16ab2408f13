import Danmaku.Proofs.Limits.Roomier
import Danmaku.Proofs.Machine.Budget
import Danmaku.Proofs.Safety.WellFormed

/-!
# Larger limits

Limits only cut runs short. A host starts a thread under some limits and runs a compiled routine on
it, tick by tick; under larger limits it sees the same (`Catalog.watch`), as long as no tick comes
to the end of one of the smaller ones.

The root of the thread is well-formed code, so all its instructions are sound, and a step has the
same outcome on the thread with more room (`Routine.WellFormed.scales_step`). A tick follows by
induction on its steps (`Program.agrees_run`), and any number of ticks by induction on them
(`Routine.WellFormed.watch_eq`). The functions that are called need not be well formed.
-/

namespace Danmaku

/-! ## Steps -/

namespace Program

variable {p : Program} {shift : Nat} {t t' : Thread}

/-- Both threads are in the same code. -/
theorem running_eq (h : t.Roomier shift t') : p.running t' = p.running t := by
  rw [running, running, h.frames]
  cases t.frames <;> rfl

theorem isAtInstr_eq (h : t.Roomier shift t') : p.isAtInstr t' = p.isAtInstr t := by
  rw [isAtInstr, isAtInstr, running_eq h, h.ip]

end Program

/-- **A step in well-formed code has the same outcome on a thread with more room.** Only the code of
the root has to be well formed. -/
theorem Routine.WellFormed.scales_step {K : Catalog} {r : Routine} {walk : List (Nat × Instr)}
    (h : r.WellFormed K walk)
    (hdelegates : ∀ d entry, K.delegates.at? d = some entry → entry.delegate.IgnoresCapacity)
    (looping : Bool) (shift : Nat) :
    Scales (Config.Roomier (r.code.Address walk) r.variableCount shift)
      (⟨K, r.code, looping⟩ : Program).step := by
  intro c c' hc
  have hstart : r.code.Address walk 0 := h.walks.address
  rw [Program.step_eq, Program.step_eq, Program.running_eq hc.thread, hc.thread.ip]
  cases hrun : (⟨K, r.code, looping⟩ : Program).running c.thread with
  | error f => exact .error hc
  | ok code =>
    simp only
    split
    · cases hdecode : Instr.decode code.words c.thread.ip with
      | error f => exact .error hc
      | ok d =>
        obtain ⟨i, next⟩ := d
        -- In the root the instruction is one of the routine, and so is the address after it.
        have hread (hframes : c.thread.frames = []) : next = c.thread.ip + i.size ∧
            i.Sound K r.variableCount (r.code.Address walk) c.thread.ip ∧
              r.code.Address walk next := by
          rw [Program.running, hframes] at hrun
          obtain rfl := Except.ok.inj hrun
          have haddress := hc.rooted.address
          rw [hframes] at haddress
          exact h.read haddress hdecode
        exact Instr.agree_execute (hc.goTo fun hframes => (hread hframes).2.2) hdelegates
          (Instr.decode_inv hdecode).1 (fun hframes => (hread hframes).2.1) hstart
    · exact Program.agree_fallOff hstart c c' hc

/-! ## Ticks -/

/-- Two ticks come to the same result, and their configurations are related, or both do not come to
a result; unless the first ends with a fault of a limit. -/
inductive TickAgree (R : Config → Config → Prop) : (x x' : Option (TickResult × Config)) → Prop
  | pending : TickAgree R none none
  | done {result : TickResult} {c c' : Config} (related : R c c') :
      TickAgree R (some (result, c)) (some (result, c'))
  | cut {f : Fault} {c : Config} {x' : Option (TickResult × Config)} (limit : f.isLimit) :
      TickAgree R (some (.error f, c)) x'

/-- How many steps a host has to wait for a tick, lest it loses patience with one that the limits
would have ended. -/
def Limits.patience (l : Limits) : Nat :=
  match l.budget with
  | some budget => 2 * budget + l.depth + 1
  | none => 0

namespace Program

variable {p : Program} {target : Nat → Prop} {count shift steps spent patience : Nat}
  {c c' : Config}

/-- **As many steps have the same result on a thread with more room.** -/
theorem agrees_run (hstep : Scales (Config.Roomier target count shift) p.step)
    (hc : Config.Roomier target count shift c c') :
    TickAgree (Config.Roomier target count shift) (p.run steps spent c) (p.run steps spent c') := by
  induction steps generalizing spent c c' with
  | zero => exact .pending
  | succ steps ih =>
    rw [run, run, isAtInstr_eq hc.thread]
    generalize p.isAtInstr c.thread = counts
    cases hleft : if counts then c.thread.limits.exhausted? spent else none with
    | some budget => exact .cut rfl
    | none =>
      have hleft' : (if counts then c'.thread.limits.exhausted? spent else none) = none := by
        cases counts with
        | false => rfl
        | true => exact hc.thread.limits.exhausted? hleft
      rw [hleft']
      have hstep := hstep c c' hc
      generalize p.step c = r at hstep
      generalize p.step c' = r' at hstep
      cases hstep with
      | @ok flow _ _ related =>
        cases flow with
        | next => exact ih related
        | stop status => exact .done related
      | error related => exact .done related
      | cut limit => exact .cut limit

/-- A thread with more room is given as many steps at least, if the first has a budget. -/
theorem fuel_le (h : c.thread.Roomier shift c'.thread)
    (hdepth : c.thread.frames.length ≤ c.thread.limits.depth)
    (hpatience : c.thread.limits.patience ≤ patience) {budget : Nat}
    (hbudget : c.thread.limits.budget = some budget) :
    fuel patience c.thread ≤ fuel patience c'.thread := by
  have hframes : c'.thread.frames.length = c.thread.frames.length := by
    rw [h.frames, List.length_map]
  simp only [Limits.patience, hbudget] at hpatience
  simp only [fuel, hbudget, hframes]
  split
  · next budget' hbudget' =>
    obtain ⟨budget₀, hle, heq⟩ := h.limits.budget budget' hbudget'
    obtain rfl := Option.some.inj (hbudget.symm.trans heq)
    omega
  · omega

/-- A thread that does not wait. Without a budget both threads are given as many steps as the host
has patience; with one, the first is given enough for a result. -/
theorem agrees_resume (hstep : Scales (Config.Roomier target count shift) p.step)
    (hc : Config.Roomier target count shift c c')
    (hdepth : c.thread.frames.length ≤ c.thread.limits.depth)
    (hpatience : c.thread.limits.patience ≤ patience) :
    TickAgree (Config.Roomier target count shift) (p.resume patience c) (p.resume patience c') := by
  have hready : Config.Roomier target count shift
      { c with thread := { c.thread with mode := .ready } }
      { c' with thread := { c'.thread with mode := .ready } } :=
    { hc with
      thread := { hc.thread with mode := rfl }
      rooted := { hc.rooted with } }
  have hrun : TickAgree (Config.Roomier target count shift) (p.resume patience c)
      (p.run (fuel patience c.thread) 0 { c' with thread := { c'.thread with mode := .ready } }) :=
    agrees_run hstep hready
  cases hbudget : c.thread.limits.budget with
  | none =>
    have hfuel : fuel patience c'.thread = fuel patience c.thread := by
      rw [fuel, fuel, hbudget, hc.thread.limits.budget_eq_none hbudget]
    rwa [← hfuel] at hrun
  | some budget =>
    have hfuel := fuel_le hc.thread hdepth hpatience hbudget
    obtain ⟨result, c₁, hresult⟩ : ∃ result c₁, p.resume patience c = some (result, c₁) :=
      run_of_budget hbudget (by simp only [fuel, hbudget]; omega)
    rw [hresult] at hrun ⊢
    generalize hresult' : p.run (fuel patience c.thread) 0 _ = x' at hrun
    cases hrun with
    | done related =>
      rw [resume, run_of_le hfuel hresult']
      exact .done related
    | cut limit => exact .cut limit

/-- **A tick has the same result on a thread with more room.** -/
theorem agrees_tick (hstep : Scales (Config.Roomier target count shift) p.step)
    (hc : Config.Roomier target count shift c c')
    (hdepth : c.thread.frames.length ≤ c.thread.limits.depth)
    (hpatience : c.thread.limits.patience ≤ patience) :
    TickAgree (Config.Roomier target count shift) (p.tick patience c) (p.tick patience c') := by
  have hresume := agrees_resume hstep hc hdepth hpatience
  rw [tick, tick, hc.thread.mode]
  split
  · exact .done hc
  · exact .done { hc with
      thread := { hc.thread with mode := rfl }
      rooted := { hc.rooted with } }
  · exact hresume
  · exact hresume

end Program

/-! ## Threads between ticks -/

namespace Thread

/-- A thread at the start of its code, with values in its first slots. -/
def startingWith (limits : Limits) (arguments : List Word) : Thread :=
  { ofLimits limits with
    slots := fill (ofLimits limits).slots 0 arguments
    rootExtent := arguments.length }

/-- A new thread, for an updater if there are arguments. -/
def start (limits : Limits) : Option (List Word) → Except Fault Thread
  | none => .ok (ofLimits limits)
  | some arguments => forUpdater limits arguments

/-- Once the root has claimed its variables, the second thread is where the first is, and its limits
are larger. -/
def RoomierOnce (target : Nat → Prop) (count shift : Nat) (t t' : Thread) : Prop :=
  ∀ t₁, t.reserve count = .ok t₁ →
    ∃ t₁', t'.reserve count = .ok t₁' ∧ t₁.Roomier shift t₁' ∧ t₁.Rooted target count

variable {limits limits' : Limits} {target : Nat → Prop} {count shift : Nat} {t t' : Thread}
  {arguments : List Word} {arguments? : Option (List Word)}

theorem start_eq_ok : start limits arguments? = .ok t ↔
    (arguments?.getD []).length ≤ limits.slots ∧ t = startingWith limits (arguments?.getD []) := by
  cases arguments? with
  | none =>
    have hself : startingWith limits [] = ofLimits limits := rfl
    simp [start, hself, eq_comm]
  | some arguments => exact forUpdater_eq_ok

/-- What the root has claimed once, it need not claim again. -/
theorem Roomier.once (h : t.Roomier shift t') (hrooted : t.Rooted target count) :
    RoomierOnce target count shift t t' := by
  intro t₁ ht
  have hclaimed := hrooted.claimed
  obtain ⟨hle, rfl⟩ := reserve_eq_ok.1 ht
  have hsame : max t.rootExtent count = t.rootExtent := Nat.max_eq_left hclaimed
  have hsize := h.size
  refine ⟨_, reserve_eq_ok.2 ⟨by omega, rfl⟩, ?_, ?_⟩
  · rw [h.extent, hsame]
    exact { h with extent := rfl }
  · rw [hsame]
    exact { hrooted with }

theorem size_startingWith (limits : Limits) (arguments : List Word) :
    (startingWith limits arguments).slots.size = limits.slots := by
  rw [startingWith, size_fill]
  exact Array.size_replicate

/-- The slots of a new thread hold what it starts with, and zeros. -/
theorem getElem?_startingWith {i : Nat} (hlength : arguments.length ≤ limits.slots)
    (hi : i < limits.slots) :
    (startingWith limits arguments).slots[i]? = some (arguments.getD i 0) := by
  have hsize : (ofLimits limits).slots.size = limits.slots := Array.size_replicate
  rw [startingWith, List.getD_eq_getElem?_getD]
  by_cases hin : i < arguments.length
  · have hinside : (fill (ofLimits limits).slots 0 arguments)[0 + i]? = arguments[i]? :=
      fill_inside hin (by omega)
    rw [Nat.zero_add] at hinside
    rw [hinside, List.getElem?_eq_getElem hin, Option.getD_some]
  · rw [fill_outside (.inr (by omega)), List.getElem?_eq_none (Nat.not_lt.1 hin), Option.getD_none,
      ofLimits, Array.getElem?_replicate, if_pos hi]

/-- **A thread can be started under larger limits**, and is then where it would be under the smaller
ones. -/
theorem roomierOnce_start (hlimits : limits.AtMost limits') (htarget : target 0)
    (h : start limits arguments? = .ok t) : ∃ t', start limits' arguments? = .ok t' ∧
      RoomierOnce target count (limits'.slots - limits.slots) t t' := by
  obtain ⟨hlength, rfl⟩ := start_eq_ok.1 h
  have hslots := hlimits.slots
  have hsize := size_startingWith limits (arguments?.getD [])
  have hsize' := size_startingWith limits' (arguments?.getD [])
  refine ⟨_, start_eq_ok.2 ⟨hlength.trans hslots, rfl⟩, fun t₁ ht => ?_⟩
  obtain ⟨hle, rfl⟩ := reserve_eq_ok.1 ht
  refine ⟨_, reserve_eq_ok.2 ⟨by omega, rfl⟩, ?_, htarget, Nat.le_max_right _ _⟩
  exact {
    limits := hlimits
    stack := ⟨hlimits.stack, rfl⟩
    ip := rfl
    frames := rfl
    mode := rfl
    lastReturn := rfl
    extent := rfl
    size := hsize'.trans (by
      change limits'.slots = (startingWith limits (arguments?.getD [])).slots.size + _
      omega)
    root := fun i hi => by
      have hi : i < limits.slots :=
        Nat.lt_of_lt_of_le hi (Nat.max_le.2 ⟨hlength, hsize ▸ hle⟩)
      rw [getElem?_startingWith (hlength.trans hslots) (by omega), getElem?_startingWith hlength hi]
    calls := fun i hi => by
      have hi : (startingWith limits (arguments?.getD [])).slots.size ≤ i := hi
      have hi' : (startingWith limits' (arguments?.getD [])).slots.size ≤
          i + (limits'.slots - limits.slots) := by omega
      rw [Array.getElem?_eq_none hi', Array.getElem?_eq_none hi]
    tiled := trivial
    clear := nofun }

end Thread

/-! ## Watching a thread -/

/-- What a host sees of a tick. -/
structure Sight where
  /-- What the tick has come to. -/
  result : TickResult
  /-- The shots. -/
  shots : Array Shot
  /-- The entity. -/
  entity : Entity
  /-- What the root returned last. -/
  lastReturn : Option Word
  /-- The operands. -/
  operands : Array Word

/-- What a host sees at the end of a tick. -/
def Config.sight (c : Config) (result : TickResult) : Sight where
  result
  shots := c.shots
  entity := c.entity
  lastReturn := c.thread.lastReturn
  operands := c.thread.stack.values

/-- Whether a tick ended with a fault of a limit. -/
def Sight.isCut (x : Sight) : Bool :=
  match x.result with
  | .ok _ => false
  | .error f => f.isLimit

/-- What a host sees that runs a routine tick by tick. For each tick it says whether the routine
starts again after its end, and lends an entity. If it loses patience with a tick, that was the
last. -/
def Catalog.watch (K : Catalog) (kind : RoutineKind) (index patience : Nat) :
    List (Bool × Entity) → Thread → List Sight
  | [], _ => []
  | (looping, entity) :: ticks, t =>
    match K.tick kind index looping patience ⟨t, entity, #[]⟩ with
    | none => []
    | some (result, c) => c.sight result :: K.watch kind index patience ticks c.thread

theorem Config.Roomier.sight_eq {target : Nat → Prop} {count shift : Nat} {c c' : Config}
    (h : Roomier target count shift c c') (result : TickResult) :
    c'.sight result = c.sight result := by
  rw [sight, sight, h.shots, h.entity, h.thread.lastReturn, h.thread.stack.values]

/-- A tick leaves a thread with its limits. -/
theorem Thread.Sized.tick {K : Catalog} {kind : RoutineKind} {index patience : Nat} {looping : Bool}
    {entity : Entity} {limits : Limits} {t : Thread} {result : TickResult} {c : Config}
    (h : t.Sized limits)
    (htick : K.tick kind index looping patience ⟨t, entity, #[]⟩ = some (result, c)) :
    c.thread.Sized limits := by
  have hafter : t.after? (.tickRoutine K kind index looping entity patience) = some c.thread := by
    rw [Thread.after?, htick, Option.map_some]
  exact h.turns (Thread.turns hafter)

namespace Routine.WellFormed

variable {K : Catalog} {r : Routine} {walk : List (Nat × Instr)} {kind : RoutineKind}
  {index shift patience : Nat} {limits : Limits} {t t' : Thread}

/-- **A tick of a well-formed routine has the same result on a thread with more room.** -/
theorem agrees_tick (h : r.WellFormed K walk)
    (hdelegates : ∀ d entry, K.delegates.at? d = some entry → entry.delegate.IgnoresCapacity)
    (hat : (K.routines kind).at? index = some r) (hsized : t.Sized limits)
    (ht : t.RoomierOnce (r.code.Address walk) r.variableCount shift t')
    (hpatience : limits.patience ≤ patience) (looping : Bool) (entity : Entity) :
    TickAgree (Config.Roomier (r.code.Address walk) r.variableCount shift)
      (K.tick kind index looping patience ⟨t, entity, #[]⟩)
      (K.tick kind index looping patience ⟨t', entity, #[]⟩) := by
  rw [Catalog.tick, Catalog.tick, hat]
  simp only
  cases hreserve : t.reserve r.variableCount with
  | error f =>
    refine .cut ?_
    rw [Thread.reserve] at hreserve
    split at hreserve
    · exact Except.error.inj hreserve ▸ rfl
    · cases hreserve
  | ok t₁ =>
    obtain ⟨t₁', hreserve', hroomier, hrooted⟩ := ht t₁ hreserve
    have hsized₁ := hsized.reserve hreserve
    have hlimits := hsized₁.limits_eq
    rw [hreserve']
    exact Program.agrees_tick (h.scales_step hdelegates looping shift) ⟨hroomier, hrooted, rfl, rfl⟩
      (hlimits ▸ hsized₁.depth) (hlimits ▸ hpatience)

/-- **Any number of ticks of a well-formed routine look the same on a thread with more room.** -/
theorem watch_eq (h : r.WellFormed K walk)
    (hdelegates : ∀ d entry, K.delegates.at? d = some entry → entry.delegate.IgnoresCapacity)
    (hat : (K.routines kind).at? index = some r) (hsized : t.Sized limits)
    (ht : t.RoomierOnce (r.code.Address walk) r.variableCount shift t')
    (hpatience : limits.patience ≤ patience) {ticks : List (Bool × Entity)}
    (hcut : ∀ x ∈ K.watch kind index patience ticks t, x.isCut = false) :
    K.watch kind index patience ticks t' = K.watch kind index patience ticks t := by
  induction ticks generalizing t t' with
  | nil => rfl
  | cons tick ticks ih =>
    obtain ⟨looping, entity⟩ := tick
    have htick := h.agrees_tick hdelegates hat hsized ht hpatience looping entity
    have hnext := @hsized.tick K kind index patience looping entity
    simp only [Catalog.watch] at hcut ⊢
    generalize K.tick kind index looping patience ⟨t, entity, #[]⟩ = x at htick hnext hcut ⊢
    generalize K.tick kind index looping patience ⟨t', entity, #[]⟩ = x' at htick ⊢
    cases htick with
    | pending => rfl
    | done related =>
      have hrest := ih (hnext _ _ rfl) (related.thread.once related.rooted) fun x hx =>
        hcut x (List.mem_cons_of_mem _ hx)
      simp only [related.sight_eq, hrest]
    | @cut f _ _ limit =>
      have huncut : f.isLimit = false := hcut _ List.mem_cons_self
      cases limit.symm.trans huncut

end Routine.WellFormed

/-- **Limits only cut runs short.** A host starts a thread under some limits, with the arguments of
an updater or without, and runs a compiled routine on it tick by tick. The catalog has at most grown
since the script was compiled, and no delegate in it depends on how much room there is on the stack;
what the functions in it do does not matter. Then a thread can be started in the same way under
larger limits; and unless a tick comes to the end of one of the smaller limits, the host sees the
same of it, tick by tick: results, shots, entities, what the root returned last, and operands. -/
theorem Build.limits_only_cut {b : Build} {s : Script} {K : Catalog} (hmade : b.catalog.Made)
    (hsmall : (b.script s).2.catalog.Small) (hK : (b.script s).2.catalog.Grows K)
    (hdelegates : ∀ d entry, K.delegates.at? d = some entry → entry.delegate.IgnoresCapacity)
    {kind : RoutineKind} {name : String} {i : Nat} {r : Routine}
    (hname : (b.script s).1.indexOf? kind name = some i)
    (hcompiled : ((b.script s).2.catalog.routines kind).at? i = some r) (hr : r.Small)
    (hat : (K.routines kind).at? i = some r) {limits limits' : Limits}
    (hlimits : limits.AtMost limits') {arguments? : Option (List Word)} {t : Thread}
    (hstart : Thread.start limits arguments? = .ok t) {patience : Nat}
    (hpatience : limits.patience ≤ patience) {ticks : List (Bool × Entity)}
    (hcut : ∀ x ∈ K.watch kind i patience ticks t, x.isCut = false) :
    ∃ t', Thread.start limits' arguments? = .ok t' ∧
      K.watch kind i patience ticks t' = K.watch kind i patience ticks t := by
  obtain ⟨d, k, code, -, -, -, hwell, -⟩ :=
    script_wellFormed hmade hsmall hK hname hcompiled hr
  obtain ⟨t', hstart', hroomier⟩ := Thread.roomierOnce_start hlimits hwell.walks.address hstart
  have hsized : t.Sized limits := by
    cases arguments? with
    | none => exact Except.ok.inj hstart ▸ .ofLimits limits
    | some arguments => exact .forUpdater hstart
  exact ⟨t', hstart', hwell.watch_eq hdelegates hat hsized hroomier hpatience hcut⟩

/-! ## A script that waits in a function -/

/-- A function that waits and then calls the delegate, and an action that calls the function. -/
def Script.peak : Script where
  declarations :=
    [{ kind := .function
       name := ⟨"peak", .nowhere⟩
       parameters := ["x"]
       body := [.wait (.num 1 .nowhere) .nowhere,
         .ret (some (.call ⟨"max", .nowhere⟩ [.var "x" .nowhere, .num 2 .nowhere] .nowhere))
           .nowhere]
       position := .nowhere },
     { kind := .action
       name := ⟨"main", .nowhere⟩
       parameters := []
       body := [.expr (.call ⟨"peak", .nowhere⟩ [.num 1 .nowhere] .nowhere) .nowhere]
       position := .nowhere }]

/-- What becomes of that script in that catalog. -/
def Build.peak : BuildResult × Build := (⟨.withMaximum, []⟩ : Build).script .peak

/-- Limits that are just enough for the script. -/
def Limits.tight : Limits := { stack := 2, slots := 1, handles := 0, depth := 1, budget := some 5 }

/-- Four ticks of the action, which starts again after its end. -/
def Script.peakTicks : List (Bool × Entity) := List.replicate 4 (true, ⟨0, #[]⟩)

theorem Build.peak_limits_only_cut :
    (Build.peak.2.catalog.watch .action 0 Limits.tight.patience Script.peakTicks
        (.ofLimits .tight)).map Sight.result =
      [.ok .suspended, .ok .completed, .ok .suspended, .ok .completed] ∧
    ∃ t', Thread.start { budget := none } none = .ok t' ∧
      Build.peak.2.catalog.watch .action 0 Limits.tight.patience Script.peakTicks t' =
        Build.peak.2.catalog.watch .action 0 Limits.tight.patience Script.peakTicks
          (.ofLimits .tight) := by
  have hresults : (Build.peak.2.catalog.watch .action 0 Limits.tight.patience Script.peakTicks
      (.ofLimits .tight)).map Sight.result =
        [.ok .suspended, .ok .completed, .ok .suspended, .ok .completed] := by decide +kernel
  have hcut : ∀ x ∈ Build.peak.2.catalog.watch .action 0 Limits.tight.patience Script.peakTicks
      (.ofLimits .tight), x.isCut = false := by decide +kernel
  have hsmall : Build.peak.2.catalog.AllSmall := by decide +kernel
  have hdelegates : ∀ d entry, Build.peak.2.catalog.delegates.at? d = some entry →
      entry.delegate.IgnoresCapacity := by
    rw [show Build.peak.2.catalog.delegates = Catalog.withMaximum.delegates from
      (script_grows _ _).delegates]
    intro d entry hentry
    cases d with
    | zero => exact Option.some.inj hentry ▸ .maximum
    | succ d => cases hentry
  obtain ⟨r, hr⟩ := Option.isSome_iff_exists.1
    (show (Build.peak.2.catalog.actions.at? 0).isSome = true by decide +kernel)
  have hlimits : Limits.tight.AtMost { budget := none } :=
    ⟨by decide, by decide, by decide, by decide, nofun⟩
  exact ⟨hresults, limits_only_cut Catalog.withMaximum_made hsmall.toSmall (.refl _) hdelegates
    (show Build.peak.1.indexOf? .action "main" = some 0 by decide +kernel) hr
    (hsmall.routines .action 0 r hr) hr hlimits rfl (Nat.le_refl _) hcut⟩

end Danmaku
