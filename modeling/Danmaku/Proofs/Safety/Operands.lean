import Danmaku.Proofs.Machine.Outcome
import Danmaku.Proofs.Safety.Depth

/-!
# Callers keep their operands

A return cuts the stack down to the operands that the caller had left, but it does not bring back
what a body has taken of these. Compiled bodies take nothing that is not theirs; delegates may do
with the stack what they like. If those that are called until a call is closed (`Config.During`)
leave the operands of its caller alone, and a value in the place of their arguments
(`Program.Spares`), the caller finds its operands as they were, and on top the value that was
returned (`Catalog.Scripted.operands_kept`).
-/

namespace Danmaku

/-! ## While a call is open -/

/-- The configurations that come of steps while more than `depth` calls are open. Of each step
something is granted. Meanwhile the host may let the thread go on or wait, lend it an entity, and
claim slots for the root. -/
inductive Config.During (K : Catalog) (granted : Program → Thread → Thread → Prop) (depth : Nat)
    (c : Config) : Config → Prop
  | here : During K granted depth c c
  | step {p : Program} {c₁ c₂ : Config} {flow : Flow} (h : During K granted depth c c₁)
      (catalog : p.catalog = K) (step : p.step c₁ = .ok flow c₂)
      (grant : granted p c₁.thread c₂.thread) (deep : depth < c₂.thread.frames.length) :
      During K granted depth c c₂
  | host {c₁ : Config} (h : During K granted depth c c₁) (mode : Mode) (entity : Entity)
      (shots : Array Shot) : During K granted depth c ⟨{ c₁.thread with mode }, entity, shots⟩
  | claim {c₁ : Config} {n : Nat} {t : Thread} (h : During K granted depth c c₁)
      (claim : c₁.thread.reserve n = .ok t) : During K granted depth c { c₁ with thread := t }

/-- The body of a call, and those of the calls that are open in it, are as `Q` says. The innermost
is at an address and has so many operands; the others go on after their calls. -/
inductive Catalog.BodiesIn (K : Catalog) (Q : Option Nat → Routine → Nat → Nat → Nat → Prop)
    (call : Frame) (outer : List Frame) : (address size : Nat) → List Frame → Prop
  | call {r : Routine} {address size : Nat} (routine : K.function? call.function = some r)
      (body : Q (some call.function) r call.stackBase address size) :
      BodiesIn K Q call outer address size (call :: outer)
  | inner {f : Frame} {frames : List Frame} {r : Routine} {address size : Nat}
      (routine : K.function? f.function = some r)
      (body : Q (some f.function) r f.stackBase address size)
      (rest : BodiesIn K Q call outer f.returnTo (f.stackBase + 1) frames) :
      BodiesIn K Q call outer address size (f :: frames)

namespace Catalog.BodiesIn

variable {K : Catalog} {obeys : Routine → Thread → Thread → Prop}
  {Q : Option Nat → Routine → Nat → Nat → Nat → Prop} {p : Program} {t t' : Thread}
  {address size : Nat} {call f : Frame} {outer frames : List Frame}

/-- The innermost of these bodies, which alone changes with the address and the operands. -/
theorem innermost (h : K.BodiesIn Q call outer address size frames) :
    ∃ f rest r, frames = f :: rest ∧ K.function? f.function = some r ∧
      Q (some f.function) r f.stackBase address size ∧
      ∀ address' size', Q (some f.function) r f.stackBase address' size' →
        K.BodiesIn Q call outer address' size' frames := by
  cases h with
  | call routine body => exact ⟨_, _, _, rfl, routine, body, fun _ _ => .call routine⟩
  | inner routine body rest =>
    exact ⟨_, _, _, rfl, routine, body, fun _ _ h => .inner routine h rest⟩

theorem length_lt (h : K.BodiesIn Q call outer address size frames) :
    outer.length < frames.length := by
  induction h with
  | call _ _ => exact Nat.lt_succ_self _
  | inner _ _ _ ih => exact Nat.lt_succ_of_lt ih

/-- The innermost body is that of the call, if no more calls are open around it. -/
theorem eq_of_length_le (h : K.BodiesIn Q call outer address size (f :: frames))
    (hle : frames.length ≤ outer.length) : f = call ∧ frames = outer := by
  cases h with
  | call _ _ => exact ⟨rfl, rfl⟩
  | inner _ _ rest => exact absurd rest.length_lt (Nat.not_lt.2 hle)

/-- **A step keeps what holds of the bodies**, unless it closes the call. -/
theorem step (hD : K.Discipline obeys Q) (hp : p.catalog = K)
    (h : K.BodiesIn Q call outer t.ip t.stack.size t.frames) (hs : p.StepTo t t')
    (hobeys : ∀ r, p.running t = .ok r.code → obeys r t t')
    (hdeep : outer.length < t'.frames.length) :
    K.BodiesIn Q call outer t'.ip t'.stack.size t'.frames := by
  obtain ⟨f, frames, r, hframes, hr, hQ, hset⟩ := h.innermost
  have hrun : p.running t = .ok r.code := by rw [Program.running, hframes]; simp only [hp, hr]
  have hwho : Frame.innermost? t.frames = some f.function := by rw [hframes]; rfl
  have hbase : Frame.operandsBelow t.frames = f.stackBase := by rw [hframes]; rfl
  rw [← hwho, ← hbase] at hQ hset
  have hroot (hnil : t.frames = []) : Q none r 0 0 0 := by cases hnil.symm.trans hframes
  cases hD.bodyStep hp hrun hQ hroot hs (hobeys r hrun) with
  | stays frames body =>
    rw [frames]
    exact hset _ _ body
  | enters frames routine body caller =>
    rw [frames]
    exact .inner routine body (hset _ _ caller)
  | leaves frames ip operands =>
    rw [frames] at h
    rw [ip]
    cases h with
    | call _ _ => exact absurd hdeep (Nat.lt_irrefl _)
    | inner _ _ rest =>
      obtain ⟨g, rest', r', -, -, hQ', hset'⟩ := rest.innermost
      exact hset' _ _ (operands _ _ _ _ hQ')
  | stops frames_eq _ _ _ => cases hframes.symm.trans frames_eq

end Catalog.BodiesIn

/-! ## What delegates leave alone -/

/-- Where the step is a call of a delegate, it has left the lowest operands as they were, so many,
and left a value at least in the place of the arguments that it was handed. -/
def Program.Spares (source : String → Decl) (low : Nat) (p : Program) (t t' : Thread) : Prop :=
  ∀ index, p.instr? t = some (.callDelegate index) →
    t.stack.SameBelow low t'.stack ∧
      t.stack.size + 1 ≤ t'.stack.size +
        (p.catalog.declarationOf source default (Frame.innermost? t.frames)).argumentsAt t.ip

theorem Program.spares_of_instr? {source : String → Decl} {low : Nat} {p : Program} {t t' : Thread}
    {i : Instr} (h : p.instr? t = some i) (hi : ∀ index, i ≠ .callDelegate index) :
    p.Spares source low t t' := fun index hindex =>
  absurd (Option.some.inj (h.symm.trans hindex)) (hi index)

/-- What a body leaves that is left: what it returns, or zero at the end of its code. -/
def Program.returned (p : Program) (c : Config) : Word :=
  match p.instr? c.thread with
  | some .ret => c.top
  | _ => 0

theorem Program.instr?_of_ended {p : Program} {t : Thread} {code : Code}
    (hrun : p.running t = .ok code) (hend : code.size ≤ t.ip) : p.instr? t = none := by
  rw [instr?, hrun]
  simp only
  cases hdecode : Instr.decode code.words t.ip with
  | error f => rfl
  | ok d =>
    obtain ⟨i, next⟩ := d
    obtain rfl := (Instr.decode_inv hdecode).1
    exact absurd (Instr.StandsAt.lt_size hdecode) (Nat.not_lt.2 hend)

namespace Stack

variable {s s' : Stack} {n : Nat}

theorem SameBelow.shrink_eq (h : s.SameBelow n s') : s'.values.shrink n = s.values.shrink n := by
  refine Array.ext_getElem? fun i => ?_
  by_cases hi : i < n
  · exact (sameBelow_shrink (Nat.le_refl n) s' i hi).trans
      ((h i hi).trans (sameBelow_shrink (Nat.le_refl n) s i hi).symm)
  · rw [Array.getElem?_eq_none, Array.getElem?_eq_none] <;> rw [Array.size_shrink] <;> omega

/-- What is left of a stack that is cut down to `m` values, and gets another. -/
theorem sameBelow_cut {m : Nat} {v : Word} (hsize : n ≤ s.size) (hle : n ≤ m)
    (h : s'.values = (s.values.shrink m).push v) : s.SameBelow n s' := by
  have hpush : s.SameBelow n { s with values := (s.values.shrink m).push v } := by
    refine (sameBelow_shrink hle s).trans (sameBelow_push ?_ v)
    simp only [size, Array.size_shrink] at hsize ⊢
    omega
  intro i hi
  rw [h]
  exact hpush i hi

end Stack

namespace Catalog

variable {K : Catalog} {source : String → Decl} {callable : Nat → Prop} {low : Nat} {p : Program}
  {t t' : Thread} {call : Frame} {outer : List Frame}

/-- **A step of a call takes none of the lowest operands**, if it has as many above them as its
declaration tells. -/
theorem BodiesIn.sameBelow (hp : p.catalog = K)
    (h : K.BodiesIn (K.DepthBy source callable (· ≤ ·) low default) call outer t.ip t.stack.size
      t.frames) (hs : p.StepTo t t') (hspares : p.Spares source low t t') :
    t.stack.SameBelow low t'.stack := by
  subst hp
  obtain ⟨f, frames, r, hframes, hr, ⟨walk, hb, ha, hlow, hsize⟩, -⟩ := h.innermost
  have hrun : p.running t = .ok r.code := by rw [Program.running, hframes]; simp only [hr]
  -- The operands that an instruction takes are those of its body.
  have takes {i : Instr} {next : Nat} (hi : Instr.decode r.code.words t.ip = .ok (i, next))
      (hd : ∀ index, i ≠ .callDelegate index) : low + i.takes p.catalog ≤ t.stack.size := by
    have := hb.takes_le ha hi
    rw [Instr.takesOf_eq hd] at this
    omega
  cases hs with
  | @moves code i next running decode not_call not_ret moves =>
    obtain rfl := Except.ok.inj (hrun.symm.trans running)
    by_cases hd : ∃ index, i = .callDelegate index
    · obtain ⟨index, rfl⟩ := hd
      exact (hspares index (Program.instr?_of_decode running decode)).1
    · have hd' (index : Nat) : i ≠ .callDelegate index := fun h => hd ⟨index, h⟩
      have := takes decode hd'
      exact (moves.keeps hd').mono (by simp only; omega)
  | enters running decode callee_eq room floor operands eq =>
    obtain rfl := Except.ok.inj (hrun.symm.trans running)
    have := takes decode (by simp)
    simp only [Instr.takes, callee_eq, Option.map_some, Option.getD_some] at this
    rw [eq]
    exact Stack.sameBelow_shrink (by simp only; omega) _
  | returns running decode frames_eq operands returns values =>
    obtain rfl := Except.ok.inj (hrun.symm.trans running)
    obtain ⟨rfl, -⟩ := List.cons.inj (hframes.symm.trans frames_eq)
    obtain ⟨v, -, hvalues⟩ := values
    have := takes decode (by simp)
    simp only [Instr.takes] at this
    have hpop : low ≤ t.stack.size - 1 := by omega
    exact (Stack.sameBelow_pop hpop).trans
      (Stack.sameBelow_cut (by simpa [Stack.size] using hpop) hlow hvalues)
  | falls running ended frames_eq returns values =>
    obtain ⟨rfl, -⟩ := List.cons.inj (hframes.symm.trans frames_eq)
    exact Stack.sameBelow_cut (by omega) hlow values
  | stops _ frames_eq _ _ _ | ends _ frames_eq _ _ => cases hframes.symm.trans frames_eq

/-- Delegates that spare the operands keep to the declarations, as far as these give a lower bound
for the depth. -/
theorem Linked.spares (hK : K.Linked source callable) (low : Nat) :
    K.Discipline
      (fun r t t' => ∃ p : Program, p.catalog = K ∧ p.running t = .ok r.code ∧
        p.Spares source low t t')
      (K.DepthBy source callable (· ≤ ·) low default) :=
  hK.discipline compares_le low fun {_ _ _ index _} hobeys hdecode => by
    obtain ⟨p, rfl, hrun, hspares⟩ := hobeys
    exact (hspares index (Program.instr?_of_decode hrun hdecode)).2

/-- **While a call is open the lowest operands are the same**, and its body has as many above them
as its declaration tells. -/
theorem BodiesIn.during {c c' : Config} (hK : K.Linked source callable)
    (h : K.BodiesIn (K.DepthBy source callable (· ≤ ·) low default) call outer c.thread.ip
      c.thread.stack.size c.thread.frames)
    (hduring : Config.During K (Program.Spares source low) outer.length c c') :
    K.BodiesIn (K.DepthBy source callable (· ≤ ·) low default) call outer c'.thread.ip
        c'.thread.stack.size c'.thread.frames ∧
      c.thread.stack.SameBelow low c'.thread.stack := by
  induction hduring with
  | here => exact ⟨h, .refl _ _⟩
  | @step p c₁ c₂ flow _ catalog step grant deep ih =>
    obtain ⟨hbodies, hsame⟩ := ih
    have hto := Program.stepTo_of_step step
    exact ⟨hbodies.step (hK.spares low) catalog hto (fun r hrun => ⟨p, catalog, hrun, grant⟩) deep,
      hsame.trans (hbodies.sameBelow catalog hto grant)⟩
  | host _ mode entity shots ih => exact ih
  | claim _ claim ih =>
    obtain ⟨hip, hstack, hframes⟩ := Thread.reserve_inv claim
    simp only [hip, hstack, hframes]
    exact ih

/-- A call opens a body of its function, which has no operands yet. -/
theorem Linked.opens (hK : K.Linked source callable) {f : Nat} {callee : Routine} (hf : callable f)
    (hcallee : K.function? f = some callee) (hp : p.catalog = K) {c c₁ : Config} {flow : Flow}
    (hcall : p.instr? c.thread = some (.call f)) (hstep : p.step c = .ok flow c₁) :
    ∃ opened : Frame, opened.returnTo = c.thread.ip + 2 ∧
      opened.stackBase = c.thread.stack.size - callee.parameterCount ∧
      callee.parameterCount ≤ c.thread.stack.size ∧
      K.BodiesIn
        (K.DepthBy source callable (· ≤ ·) (c.thread.stack.size - callee.parameterCount) default)
        opened c.thread.frames c₁.thread.ip c₁.thread.stack.size c₁.thread.frames ∧
      c.thread.stack.SameBelow (c.thread.stack.size - callee.parameterCount) c₁.thread.stack := by
  subst hp
  obtain ⟨code, -, hexecute⟩ := Program.step_of_instr? hcall
  rw [hexecute] at hstep
  simp only [Instr.execute, Exec.bind_eq_ok, Exec.pure_eq_ok] at hstep
  obtain ⟨_, _, hstep, -, rfl⟩ := hstep
  obtain ⟨callee', hcallee', -, -, -, hoperands, rfl⟩ := Exec.call_eq_ok hstep
  obtain rfl := Option.some.inj (hcallee.symm.trans hcallee')
  obtain ⟨walk, hb⟩ := hK default f callee hf hcallee
  have hdepth := Nat.le_of_eq (Decl.depthAt_zero (p.catalog.declarationOf source default (some f)))
  refine ⟨_, rfl, rfl, hoperands, .call hcallee ⟨walk, hb, hb.wellFormed.walks.address,
    Nat.le_refl _, ?_⟩, Stack.sameBelow_shrink (Nat.le_refl _) _⟩
  exact (Nat.add_le_add_left hdepth _).trans (Thread.size_enter hoperands).ge

/-- **A step that closes the call brings back the operands that the caller had left**, and the
value that was returned comes on top. -/
theorem BodiesIn.close {c c' : Config} {flow : Flow} (hp : p.catalog = K)
    (h : K.BodiesIn (K.DepthBy source callable (· ≤ ·) low default) call outer c.thread.ip
      c.thread.stack.size c.thread.frames) (hstep : p.step c = .ok flow c')
    (hclosed : c'.thread.frames.length ≤ outer.length) :
    c'.thread.frames = outer ∧ c'.thread.ip = call.returnTo ∧
      c'.thread.stack.values =
        (c.thread.stack.values.shrink call.stackBase).push (p.returned c) := by
  subst hp
  have hlength := h.length_lt
  obtain ⟨f, frames, r, hframes, hr, ⟨walk, hb, ha, -, hsize⟩, -⟩ := h.innermost
  have hrun : p.running c.thread = .ok r.code := by rw [Program.running, hframes]; simp only [hr]
  have hleft : ∃ kept, c.thread.Returns c'.thread f frames kept ∧ c'.thread.stack.values =
      (c.thread.stack.values.shrink f.stackBase).push (p.returned c) := by
    cases Program.stepTo_of_step hstep with
    | moves _ _ _ _ moves =>
      rw [moves.stays.frames] at hclosed
      exact absurd hclosed (Nat.not_le.2 hlength)
    | enters _ _ _ _ _ _ eq =>
      rw [eq] at hclosed
      exact absurd (Nat.le_of_succ_le hclosed) (Nat.not_le.2 hlength)
    | returns running decode frames_eq operands returns values =>
      obtain rfl := Except.ok.inj (hrun.symm.trans running)
      obtain ⟨rfl, rfl⟩ := List.cons.inj (hframes.symm.trans frames_eq)
      obtain ⟨v, hv, hvalues⟩ := values
      have htakes := hb.takes_le ha decode
      simp only [Instr.takesOf, Instr.takes] at htakes
      have hpop : f.stackBase ≤ c.thread.stack.size - 1 := by omega
      refine ⟨_, returns, ?_⟩
      rw [hvalues, (Stack.sameBelow_pop hpop).shrink_eq, Program.returned,
        Program.instr?_of_decode running decode, Config.top, hv, Option.getD_some]
    | falls running ended frames_eq returns values =>
      obtain rfl := Except.ok.inj (hrun.symm.trans running)
      obtain ⟨rfl, rfl⟩ := List.cons.inj (hframes.symm.trans frames_eq)
      refine ⟨_, returns, ?_⟩
      rw [values, Program.returned, Program.instr?_of_ended running ended]
    | stops _ frames_eq _ _ _ | ends _ frames_eq _ _ => cases hframes.symm.trans frames_eq
  obtain ⟨kept, hreturns, hvalues⟩ := hleft
  rw [hframes] at h
  rw [hreturns.frames] at hclosed
  obtain ⟨rfl, rfl⟩ := h.eq_of_length_le hclosed
  exact ⟨hreturns.frames, hreturns.ip, hvalues⟩

end Catalog

/-! ## Scripts -/

/-- The functions with some names were given to the catalog by scripts, perhaps by several, one
after another. They have declarations which tell that they call no other functions. -/
def Catalog.Scripted (K : Catalog) (source : String → Decl) (S : String → Prop) : Prop :=
  ∀ name, S name → ∃ b s i r, Build.Provides b s K name i r ∧ s.function name = source name ∧
    ∀ g ∈ (source name).calls, (b.script s).2.catalog.functions.indexOf? g = none ∨ S g

namespace Catalog.Scripted

variable {K : Catalog} {source : String → Decl} {S : String → Prop}

/-- Such functions keep to their declarations. -/
theorem linked (h : K.Scripted source S) :
    K.Linked source fun f => ∃ name, S name ∧ K.functions.indexOf? name = some f := by
  rintro d f r ⟨name, hS, hindex⟩ hf
  obtain ⟨b, s, i, r', hprovides, hsource, hcalls⟩ := h name hS
  obtain ⟨himp, hi⟩ :=
    Build.implements_declaration hprovides.made hprovides.compiled hprovides.code
  have hgrown := hprovides.extended.routines .function
  obtain rfl := Option.some.inj (hindex.symm.trans (hgrown.index name i hi))
  obtain rfl := Option.some.inj (hf.symm.trans hprovides.kept)
  rw [declarationOf, Table.keyAt?_of_indexOf? hindex, Option.map_some, Option.getD_some, ← hsource]
  have hallows : (b.script s).2.catalog.Allows
      (fun f => ∃ name, S name ∧ K.functions.indexOf? name = some f) (s.function name).calls := by
    intro g hg j hj
    rcases hcalls g (hsource ▸ hg) with hnone | hg'
    · cases hnone.symm.trans hj
    · exact ⟨g, hg', hgrown.index g j hj⟩
  obtain ⟨walk, hb⟩ := himp.balancedBy hprovides.small hprovides.routine_small hallows
  exact ⟨walk, hb.extend hprovides.extended⟩

/-- **A call leaves its caller's operands alone**, if all delegates that are called meanwhile spare
them. Whatever code calls a function that a script gave to the catalog, and however many ticks the
call takes: as long as it is open, the operands below its arguments are the same, value for value.
Once it is closed the caller goes on after the call, and has these operands with one more on top,
the value that was returned. -/
theorem operands_kept (hK : K.Scripted source S) {name : String} (hname : S name) {f : Nat}
    {callee : Routine} (hf : K.functions.indexOf? name = some f)
    (hcallee : K.function? f = some callee) {p : Program} (hp : p.catalog = K)
    {c c₁ c₂ : Config} {flow : Flow}
    (hcall : p.instr? c.thread = some (.call f)) (hstep : p.step c = .ok flow c₁)
    (hduring : Config.During K
      (Program.Spares source (c.thread.stack.size - callee.parameterCount))
      c.thread.frames.length c₁ c₂) :
    callee.parameterCount ≤ c.thread.stack.size ∧
      c.thread.stack.SameBelow (c.thread.stack.size - callee.parameterCount) c₂.thread.stack ∧
      ∀ (p' : Program) (flow' : Flow) (c₃ : Config), p'.catalog = K →
        p'.step c₂ = .ok flow' c₃ → c₃.thread.frames.length ≤ c.thread.frames.length →
        c₃.thread.frames = c.thread.frames ∧ c₃.thread.ip = c.thread.ip + 2 ∧
          c₃.thread.stack.values =
            (c.thread.stack.values.shrink (c.thread.stack.size - callee.parameterCount)).push
              (p'.returned c₂) := by
  obtain ⟨opened, hreturnTo, hbase, hoperands, hbodies, hsame⟩ :=
    hK.linked.opens ⟨name, hname, hf⟩ hcallee hp hcall hstep
  obtain ⟨hbodies₂, hsame₂⟩ := hbodies.during hK.linked hduring
  refine ⟨hoperands, hsame.trans hsame₂, fun p' flow' c₃ hp' hstep' hclosed => ?_⟩
  obtain ⟨hframes, hip, hvalues⟩ := hbodies₂.close hp' hstep' hclosed
  rw [hbase, (hsame.trans hsame₂).shrink_eq] at hvalues
  exact ⟨hframes, hip.trans hreturnTo, hvalues⟩

end Catalog.Scripted

/-! ## A function that calls a delegate -/

namespace Delegating

/-- A function that hands arguments to the delegate `max`, and an action that adds to its value. -/
def script (arguments : List Expr) : Script where
  declarations :=
    [{ kind := .function
       name := ⟨"f", .nowhere⟩
       parameters := ["x"]
       body := [.ret (some (.call ⟨"max", .nowhere⟩ arguments .nowhere)) .nowhere]
       position := .nowhere },
     { kind := .action
       name := ⟨"main", .nowhere⟩
       parameters := []
       body := [.ret (some (.binary .add (.num 5 .nowhere)
         (.call ⟨"f", .nowhere⟩ [.num 1 .nowhere] .nowhere) .nowhere)) .nowhere]
       position := .nowhere }]

/-- As many arguments as the delegate takes. -/
def enough : List Expr := [.var "x" .nowhere, .num 2 .nowhere]

/-- One argument less. -/
def few : List Expr := [.var "x" .nowhere]

variable (arguments : List Expr)

/-- What becomes of the script where the delegate is entered. -/
def build : BuildResult × Build := (⟨.withMaximum, []⟩ : Build).script (script arguments)

/-- The catalog with the delegate and the script. -/
def catalog : Catalog := (build arguments).2.catalog

/-- The action. -/
def program : Program :=
  ⟨catalog arguments, (((catalog arguments).actions.at? 0).getD default).code, false⟩

/-- The configuration of the action after so many steps. -/
def config : Nat → Config
  | 0 => ⟨.ofLimits { stack := 4, slots := 1, handles := 0, depth := 1 }, ⟨0, #[]⟩, #[]⟩
  | n + 1 => after (program arguments).step (config n)

theorem step_config {n : Nat}
    (h : valueOf? ((program arguments).step (config arguments n)) = some .next) :
    (program arguments).step (config arguments n) = .ok .next (config arguments (n + 1)) :=
  eq_ok_of_valueOf? h

theorem scripted : (catalog enough).Scripted (script enough).function (· = "f") := by
  rintro name rfl
  obtain ⟨r, hr⟩ := Option.isSome_iff_exists.1
    (show ((catalog enough).function? 0).isSome = true by decide +kernel)
  have hsmall : (catalog enough).AllSmall := by decide +kernel
  refine ⟨⟨.withMaximum, []⟩, script enough, 0, r, ?_, rfl, fun g hg => .inl ?_⟩
  · exact ⟨Catalog.withMaximum_made, hsmall.toSmall, by decide +kernel, hr,
      hsmall.routines .function 0 r hr, (Catalog.Grows.refl _).extends, hr⟩
  · rw [show ((script enough).function "f").calls = ["max"] by decide +kernel,
      List.mem_singleton] at hg
    subst hg
    decide +kernel

theorem operands_kept_enough :
    (config enough 2).thread.stack.values = #[5, 1] ∧
      (config enough 2).thread.stack.SameBelow 1 (config enough 6).thread.stack ∧
      (config enough 7).thread.frames = (config enough 2).thread.frames ∧
      (config enough 7).thread.stack.values =
        ((config enough 2).thread.stack.values.shrink 1).push 2 := by
  have hduring : Config.During (catalog enough) (Program.Spares (script enough).function 1)
      (config enough 2).thread.frames.length (config enough 3) (config enough 6) := by
    have hread : (program enough).instr? (config enough 3).thread = some (.getVariable 0) := by
      decide +kernel
    have hpush : (program enough).instr? (config enough 4).thread = some (.push 2) := by
      decide +kernel
    refine .step (.step (.step .here rfl (step_config enough ?_)
      (Program.spares_of_instr? hread (by simp)) ?_) rfl (step_config enough ?_)
      (Program.spares_of_instr? hpush (by simp)) ?_) rfl (step_config enough ?_)
      (fun _ _ => ⟨?_, ?_⟩) ?_
    all_goals decide +kernel
  obtain ⟨callee, hcallee⟩ := Option.isSome_iff_exists.1
    (show ((catalog enough).function? 0).isSome = true by decide +kernel)
  have hlow : (config enough 2).thread.stack.size - callee.parameterCount = 1 := by
    have hcount : (((catalog enough).function? 0).map Routine.parameterCount).getD 0 = 1 := by
      decide +kernel
    rw [hcallee, Option.map_some, Option.getD_some] at hcount
    rw [hcount]
    decide +kernel
  obtain ⟨-, hsame, hclosed⟩ := scripted.operands_kept (p := program enough) rfl
    (show (catalog enough).functions.indexOf? "f" = some 0 by decide +kernel) hcallee rfl
    (by decide +kernel) (step_config enough (n := 2) (by decide +kernel)) (hlow ▸ hduring)
  obtain ⟨hframes, -, hvalues⟩ := hclosed (program enough) .next (config enough 7) rfl
    (step_config enough (by decide +kernel)) (by decide +kernel)
  rw [hlow] at hsame hvalues
  have hreturned : (program enough).returned (config enough 6) = 2 := by decide +kernel
  exact ⟨by decide +kernel, hsame, hframes, hreturned ▸ hvalues⟩

/-- With too few arguments the delegate takes the operand that the action has left: once the call is
closed there is nothing but what was returned. -/
theorem operands_taken :
    (build few).1.isSuccess = true ∧
      (program few).instr? (config few 2).thread = some (.call 0) ∧
      (config few 2).thread.stack.values = #[5, 1] ∧
      (∀ callee, (catalog few).function? 0 = some callee → callee.parameterCount = 1) ∧
      Config.During (catalog few) (fun _ _ _ => True) (config few 2).thread.frames.length
        (config few 3) (config few 5) ∧
      (program few).step (config few 5) = .ok .next (config few 6) ∧
      (config few 6).thread.frames = (config few 2).thread.frames ∧
      ∀ v, (config few 6).thread.stack.values ≠
        ((config few 2).thread.stack.values.shrink 1).push v := by
  have hduring : Config.During (catalog few) (fun _ _ _ => True)
      (config few 2).thread.frames.length (config few 3) (config few 5) := by
    refine .step (.step .here rfl (step_config few ?_) trivial ?_) rfl (step_config few ?_)
      trivial ?_
    all_goals decide +kernel
  have hcount : (((catalog few).function? 0).map Routine.parameterCount).getD 0 = 1 := by
    decide +kernel
  refine ⟨by decide +kernel, by decide +kernel, by decide +kernel, fun callee hcallee => ?_,
    hduring, step_config few (by decide +kernel), by decide +kernel, fun v hv => ?_⟩
  · rwa [hcallee] at hcount
  · have hsize := congrArg Array.size hv
    rw [Array.size_push] at hsize
    exact absurd hsize (by decide +kernel)

end Delegating

end Danmaku
