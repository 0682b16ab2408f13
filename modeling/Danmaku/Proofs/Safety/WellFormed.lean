import Danmaku.Proofs.Compile.Script
import Danmaku.Proofs.Machine.Bodies
import Danmaku.Proofs.Machine.Failure
import Danmaku.Proofs.Machine.Outcome

/-!
# Well-formed code

Code is well formed if it reads through to its end, and everything is there that its instructions
refer to (`Routine.WellFormed`). Compiled code is (`Decl.compile_wellFormed`). In a session a thread
is always at an instruction of such code, or at its end (`Routine.WellFormed.address`); so neither a
step of the session (`Build.script_wellFormed`) nor a tick (`Build.script_tick_mayFail`) raises a
fault there that means that the code is broken.
-/

namespace Danmaku

/-! ## Code that was read through -/

/-- The addresses at which code can go on, once it was read through: those of its instructions, and
the end. -/
def Code.Address (c : Code) (walk : List (Nat × Instr)) (a : Nat) : Prop :=
  a = c.size ∨ ∃ i, (a, i) ∈ walk

/-- Code reads through, and everything is there that its instructions refer to. -/
structure Routine.WellFormed (K : Catalog) (r : Routine) (walk : List (Nat × Instr)) : Prop where
  walks : r.code.Walks 0 walk
  sound : ∀ x ∈ walk, x.2.Sound K r.variableCount (r.code.Address walk) x.1

namespace Code

variable {c : Code} {walk : List (Nat × Instr)} {a b : Nat} {i : Instr}

theorem Walks.address (h : c.Walks a walk) : c.Address walk a := by
  cases h with
  | done => exact .inl rfl
  | step _ _ => exact .inr ⟨_, List.mem_cons_self⟩

/-- An instruction that was found can be read, and the address after it is one to go on at. -/
theorem Walks.decode (h : c.Walks b walk) (hi : (a, i) ∈ walk) :
    ∃ next, Instr.decode c.words a = .ok (i, next) ∧ c.Address walk next := by
  induction h with
  | done => cases hi
  | step read rest ih =>
    rcases List.mem_cons.1 hi with heq | hi
    · obtain ⟨rfl, rfl⟩ := Prod.mk.inj heq
      exact ⟨_, read, rest.address.imp_right fun ⟨j, hj⟩ => ⟨j, List.mem_cons_of_mem _ hj⟩⟩
    · obtain ⟨next, hnext, haddress⟩ := ih hi
      exact ⟨next, hnext, haddress.imp_right fun ⟨j, hj⟩ => ⟨j, List.mem_cons_of_mem _ hj⟩⟩

theorem Address.le_size (h : c.Address walk a) (hwalk : c.Walks b walk) : a ≤ c.size := by
  rcases h with rfl | ⟨i, hi⟩
  · exact Nat.le_refl _
  · obtain ⟨next, hdecode, -⟩ := hwalk.decode hi
    obtain rfl := (Instr.decode_inv hdecode).1
    exact Nat.le_of_lt (Instr.StandsAt.lt_size hdecode)

end Code

/-- Where a sound instruction leads there is something. -/
theorem Instr.Sound.leadsTo {K : Catalog} {count : Nat} {target : Nat → Prop} {a b : Nat}
    {i : Instr} (h : i.Sound K count target a) (hnext : target (a + i.size))
    (hl : i.LeadsTo (a + i.size) b) : target b := by
  cases i with
  | jump t => exact hl ▸ h
  | branchIfZero t => exact hl.elim (· ▸ hnext) (· ▸ h)
  | jumpBy offset =>
    obtain ⟨t, ht, heq⟩ := h
    simp only [LeadsTo, size_jumpBy] at hl
    rwa [show b = t by omega]
  | branchIfZeroBy offset =>
    obtain ⟨t, ht, heq⟩ := h
    rcases hl with rfl | hl
    · exact hnext
    · rw [size_branchIfZeroBy] at hl
      rwa [show b = t by omega]
  | ret => exact hl.elim
  | _ => exact hl ▸ hnext

namespace Routine.WellFormed

variable {K : Catalog} {r : Routine} {walk : List (Nat × Instr)} {a next : Nat} {i : Instr}

/-- What is read at an address to go on at was found. -/
theorem mem (h : r.WellFormed K walk) (ha : r.code.Address walk a)
    (hi : Instr.decode r.code.words a = .ok (i, next)) : (a, i) ∈ walk := by
  rcases ha with rfl | ⟨j, hj⟩
  · obtain rfl := (Instr.decode_inv hi).1
    exact absurd (Instr.StandsAt.lt_size hi) (Nat.lt_irrefl _)
  · obtain ⟨next', hdecode, -⟩ := h.walks.decode hj
    obtain ⟨rfl, -⟩ := Prod.mk.inj (Except.ok.inj (hi.symm.trans hdecode))
    exact hj

/-- It is sound, and the next address is one to go on at, too. -/
theorem read (h : r.WellFormed K walk) (ha : r.code.Address walk a)
    (hi : Instr.decode r.code.words a = .ok (i, next)) :
    next = a + i.size ∧ i.Sound K r.variableCount (r.code.Address walk) a ∧
      r.code.Address walk next := by
  obtain ⟨next', hdecode, haddress⟩ := h.walks.decode (h.mem ha hi)
  obtain ⟨-, rfl⟩ := Prod.mk.inj (Except.ok.inj (hi.symm.trans hdecode))
  exact ⟨(Instr.decode_inv hi).1, h.sound _ (h.mem ha hi), haddress⟩

/-- In a session every well-formed body goes on at one of its addresses. -/
theorem discipline (K : Catalog) : K.Discipline (fun _ _ _ => True) fun _ r _ address _ =>
    ∀ walk, r.WellFormed K walk → r.code.Address walk address where
  moves _ hQ hdecode _ _ hmoves _ walk hwalk := by
    obtain ⟨rfl, hsound, hnext⟩ := hwalk.read (hQ walk hwalk) hdecode
    exact hsound.leadsTo hnext hmoves.leads
  call hQ hdecode _ _ :=
    ⟨fun walk hwalk => (hwalk.read (hQ walk hwalk) hdecode).2.2,
      fun walk hwalk => hwalk.walks.address⟩
  back _ _ hQ := hQ
  stop _ _ walk hwalk := hwalk.walks.address

/-- **In a session a thread is at an instruction, or at the end, of well-formed code.** -/
theorem address {root : Routine} {n : Nat} {c : Config} (h : r.WellFormed K walk)
    (hsession : K.Session root n c) (hr : K.innermost? root c.thread = some r) :
    r.code.Address walk c.thread.ip := by
  have hbodies := (discipline K).session hsession fun walk hwalk => hwalk.walks.address
  obtain ⟨r', hr', hQ⟩ := hbodies.innermost
  obtain rfl := Option.some.inj (hr.symm.trans hr')
  exact hQ walk h

end Routine.WellFormed

/-! ## What cannot go wrong -/

/-- The faults that mean that code is broken. -/
def Fault.IsMalformed : Fault → Prop
  | invalidOpcode _ _ | truncatedInstruction _ | invalidOperand _ _ | jumpOutOfRange _ _
  | unknownFunction _ | unknownFiring _ | unknownUpdater _ | unknownDelegate _
  | unknownProperty _ => True
  | _ => False

/-- How a step in a routine that is not broken can go wrong. -/
inductive Routine.MayFail (K : Catalog) (r : Routine) (t : Thread) (f : Fault) : Prop
  /-- A delegate is called, and fails. -/
  | delegate {next index : Nat} {entry : DelegateEntry} {s : Stack}
      (decode : Instr.decode r.code.words t.ip = .ok (.callDelegate index, next))
      (entry_eq : K.delegates.at? index = some entry)
      (run : entry.delegate.run t.stack = .error f s)
  /-- It is not for the code, nor for a variable that is read or written. -/
  | other (sound : ¬ f.IsMalformed)
      (reach : ∀ i next, Instr.decode r.code.words t.ip = .ok (i, next) →
        ∀ slot, i = .getVariable slot ∨ i = .setVariable slot → f ≠ .variableOutOfRange slot)

namespace Routine.WellFormed

variable {K : Catalog} {root r : Routine} {walk : List (Nat × Instr)} {c c' : Config} {f : Fault}
  {looping : Bool} {next : Nat} {i : Instr} {t : Thread}

/-- What goes wrong in a sound instruction. -/
theorem mayFail_of_fails (h : r.WellFormed K walk) (hwindow : r.variableCount ≤ t.window.2)
    (hdecode : Instr.decode r.code.words t.ip = .ok (i, next))
    (hsound : i.Sound K r.variableCount (r.code.Address walk) t.ip)
    (hfails : i.Fails ⟨K, root.code, looping⟩ r.code.size { t with ip := next } f) :
    r.MayFail K t f := by
  have hother (hf : ¬ f.IsMalformed)
      (hi : ∀ slot, i = .getVariable slot ∨ i = .setVariable slot → f ≠ .variableOutOfRange slot) :
      r.MayFail K t f :=
    .other hf fun i' next' hdecode' => by
      obtain ⟨rfl, -⟩ := Prod.mk.inj (Except.ok.inj (hdecode.symm.trans hdecode'))
      exact hi
  have hat {α κ : Type} {table : Table κ α} {n : Nat} (hlt : n < table.size)
      (hnone : table.at? n = none) : False := by
    obtain ⟨e, he⟩ := Table.at?_of_lt hlt
    cases hnone.symm.trans he
  cases hfails with
  | few | full | returns | division | depth => exact hother (fun h => h) (fun _ _ h => nomatch h)
  | slots => exact hother (fun h => h) fun _ hi => by rcases hi with hi | hi <;> cases hi
  | jump eq far =>
    refine absurd far (Nat.not_lt.2 ?_)
    rcases eq with rfl | rfl <;> exact Code.Address.le_size hsound h.walks
  | jumpBy eq far =>
    obtain ⟨rfl, -⟩ := Instr.decode_inv hdecode
    refine absurd ?_ far
    rcases eq with rfl | rfl <;>
    · obtain ⟨target, htarget, heq⟩ := hsound
      have hle := htarget.le_size h.walks
      simp only [Instr.size_jumpBy, Instr.size_branchIfZeroBy]
      omega
  | «variable» eq far =>
    refine absurd far (Nat.not_le.2 (Nat.lt_of_lt_of_le ?_ hwindow))
    rcases eq with rfl | rfl <;> exact hsound
  | property eq denied =>
    rcases denied with rfl | ⟨_, _, rfl⟩ | ⟨far, rfl⟩
    · exact hother (fun h => h) fun _ _ h => nomatch h
    · exact hother (fun h => h) fun _ _ h => nomatch h
    · refine absurd far (Nat.not_le.2 ?_)
      rcases eq with rfl | rfl <;> exact hsound
  | function none => exact (hat hsound none).elim
  | firing eq none =>
    rcases eq with rfl | ⟨_, rfl⟩
    · exact (hat hsound none).elim
    · exact (hat hsound.1 none).elim
  | updater none => exact (hat hsound.2 none).elim
  | unknown none => exact (hat hsound none).elim
  | delegate entry_eq run => exact .delegate hdecode entry_eq run

/-- A step in well-formed code goes wrong in an instruction, or where a call comes to its end and
there is no room for its value. -/
theorem fails (h : r.WellFormed K walk) (haddress : r.code.Address walk c.thread.ip)
    (hr : K.innermost? root c.thread = some r)
    (hstep : (⟨K, root.code, looping⟩ : Program).step c = .error f c') :
    (∃ i next, Instr.decode r.code.words c.thread.ip = .ok (i, next) ∧
      i.Fails ⟨K, root.code, looping⟩ r.code.size { c.thread with ip := next } f) ∨
    (r.code.size ≤ c.thread.ip ∧ ∃ frame frames, c.thread.frames = frame :: frames ∧
      c.thread.stack.capacity ≤ frame.stackBase ∧ f = .stackOverflow c.thread.stack.capacity) := by
  have hrun := Program.running_of_innermost hr looping
  rcases Program.step_eq_error hstep with ⟨hnone, -⟩ | ⟨code, hcode, ⟨hlt, hfault⟩ | ⟨hge, hfault⟩⟩
  · cases hrun.symm.trans hnone
  · obtain rfl := Except.ok.inj (hrun.symm.trans hcode)
    rcases hfault with ⟨hnone, -⟩ | ⟨i, next, hdecode, hexecute⟩
    · rcases haddress with hend | ⟨i, hi⟩
      · exact absurd hend (Nat.ne_of_lt hlt)
      · obtain ⟨next, hdecode, -⟩ := h.walks.decode hi
        cases hdecode.symm.trans hnone
    · exact .inl ⟨i, next, hdecode, Instr.execute_fails hexecute⟩
  · obtain rfl := Except.ok.inj (hrun.symm.trans hcode)
    obtain ⟨hopen, hleave⟩ := Program.fallOff_eq_error hfault
    rcases Exec.leaveCall_eq_error hleave with ⟨hnil, -⟩ | ⟨F, frames, hframes, hfull, hf, -⟩
    · exact absurd hnil hopen
    · exact .inr ⟨hge, F, frames, hframes, hfull, hf⟩

/-- **No step faults because well-formed code is broken.** -/
theorem mayFail (h : r.WellFormed K walk) (hsession : K.Session root root.variableCount c)
    (hr : K.innermost? root c.thread = some r)
    (hstep : (⟨K, root.code, looping⟩ : Program).step c = .error f c') :
    r.MayFail K c.thread f := by
  have haddress := h.address hsession hr
  rcases h.fails haddress hr hstep with ⟨i, next, hdecode, hfails⟩ | ⟨hge, _, _, -, -, rfl⟩
  · exact h.mayFail_of_fails (hsession.layered.innermost hr).1 hdecode
      (h.read haddress hdecode).2.1 hfails
  · exact .other id fun i next hdecode =>
      absurd (Instr.StandsAt.lt_size ((Instr.decode_inv hdecode).1 ▸ hdecode)) (Nat.not_lt.2 hge)

end Routine.WellFormed

/-! ## Compiled code -/

theorem Code.address_of_mem_bounds {c : Code} {code : List Instr} {a : Nat}
    (hsize : c.size = Instr.sizeOf code) (h : a ∈ Instr.bounds 0 code) :
    c.Address (Instr.placed 0 code) a := by
  rcases List.mem_append.1 h with h | h
  · obtain ⟨⟨a, i⟩, hi, rfl⟩ := List.mem_map.1 h
    exact .inr ⟨i, hi⟩
  · rw [List.mem_singleton.1 h, Nat.zero_add]
    exact .inl hsize.symm

/-- The instructions of a declaration are well-formed code. -/
theorem Decl.compile_wellFormed {k K : Catalog} {d : Decl} {r : Routine} (hmade : k.Made)
    (hgrows : k.Grows K) (hsmall : k.Small) (hd : d.compile k [] = (.ok r, [])) (hr : r.Small) :
    r.WellFormed K (Instr.placed 0 (d.instrs k [])) := by
  obtain ⟨hcode, hsound⟩ := Decl.compile_sound hmade hd
  refine ⟨?_, ?_⟩
  · rw [hcode]
    exact Code.walks_ofList (Decl.compile_fits hmade hsmall hd hr)
  · exact hsound.mono hgrows.extends (Nat.le_refl _) fun a =>
      Code.address_of_mem_bounds (Decl.size_code hmade hd)

/-- What a script reports as compiled is the code of its declaration, and well formed. -/
theorem Build.script_emits {b : Build} {s : Script} {K : Catalog} (hmade : b.catalog.Made)
    (hsmall : (b.script s).2.catalog.Small) (hK : (b.script s).2.catalog.Grows K)
    {kind : RoutineKind} {name : String} {i : Nat} {r : Routine}
    (hname : (b.script s).1.indexOf? kind name = some i)
    (hat : ((b.script s).2.catalog.routines kind).at? i = some r) (hr : r.Small) :
    ∃ d k code, declarationOf? s.declarations kind name = some d ∧
      k.Fills (b.script s).2.catalog ∧ d.Emits k code ∧ r.WellFormed K (Instr.placed 0 code) := by
  obtain ⟨d, r', hd, hkind, -, himp⟩ := script_implements hmade hname
  obtain rfl : r' = r := by
    rw [← hkind, (Table.lookup?_eq_some.1 himp.found).2] at hat
    exact Option.some.inj hat
  obtain ⟨k, r₀, hk, hfills, hcompile, rfl⟩ := himp.compiled
  have hwell := Decl.compile_wellFormed hk (hfills.grows.trans hK) (hsmall.of_grows hfills.grows)
    hcompile ⟨hr.code, hr.variableCount⟩
  exact ⟨d, k, d.instrs k [], hd, hfills, Decl.compile_emits hk hcompile, hwell.walks, hwell.sound⟩

/-- **Compiled code is well formed, and never faults because it is broken.** What a script reports
as compiled is the code of its declaration, without open jumps; it reads through to its end, and
refers only to what is there. In every session the steps in it may fail only for other reasons. -/
theorem Build.script_wellFormed {b : Build} {s : Script} {K : Catalog} (hmade : b.catalog.Made)
    (hsmall : (b.script s).2.catalog.Small) (hK : (b.script s).2.catalog.Grows K)
    {kind : RoutineKind} {name : String} {i : Nat} {r : Routine}
    (hname : (b.script s).1.indexOf? kind name = some i)
    (hat : ((b.script s).2.catalog.routines kind).at? i = some r) (hr : r.Small) :
    ∃ d k code, declarationOf? s.declarations kind name = some d ∧
      k.Fills (b.script s).2.catalog ∧ d.Emits k code ∧ r.WellFormed K (Instr.placed 0 code) ∧
      ∀ (root : Routine) (looping : Bool) (c c' : Config) (f : Fault),
        K.Session root root.variableCount c → K.innermost? root c.thread = some r →
        (⟨K, root.code, looping⟩ : Program).step c = .error f c' → r.MayFail K c.thread f := by
  obtain ⟨d, k, code, hd, hfills, hemits, hwell⟩ := script_emits hmade hsmall hK hname hat hr
  exact ⟨d, k, code, hd, hfills, hemits, hwell,
    fun root looping c c' f hsession hinnermost hstep => hwell.mayFail hsession hinnermost hstep⟩

/-- **A tick never faults because compiled code is broken.** If it does not use up its budget it
faults in a step of the session, and if that step is in code that a script reports as compiled, then
for one of the other reasons. -/
theorem Build.script_tick_mayFail {b : Build} {s : Script} {K : Catalog} (hmade : b.catalog.Made)
    (hsmall : (b.script s).2.catalog.Small) (hK : (b.script s).2.catalog.Grows K)
    {kind : RoutineKind} {index patience : Nat} {root : Routine} {looping : Bool} {c c' : Config}
    {f : Fault} (hsession : K.Session root root.variableCount c)
    (hroot : (K.routines kind).at? index = some root)
    (htick : K.tick kind index looping patience c = some (.error f, c')) :
    (∃ budget, f = .budgetExceeded budget) ∨
      ∃ c₀, K.Session root root.variableCount c₀ ∧
        (⟨K, root.code, looping⟩ : Program).step c₀ = .error f c' ∧
        ∀ kind name i r, (b.script s).1.indexOf? kind name = some i →
          ((b.script s).2.catalog.routines kind).at? i = some r → r.Small →
          K.innermost? root c₀.thread = some r → r.MayFail K c₀.thread f := by
  obtain ⟨-, hbudget⟩ | ⟨c₀, fault, hsession₀, hstep, heq⟩ :=
    hsession.outcome (Catalog.SessionWith.grants_true K root _ looping) hroot htick
  · exact .inl (hbudget f rfl)
  · obtain rfl := Except.error.inj heq
    refine .inr ⟨c₀, hsession₀, hstep, fun kind name i r hname hat hr hinnermost => ?_⟩
    obtain ⟨_, _, _, -, -, -, hwell⟩ := script_emits hmade hsmall hK hname hat hr
    exact hwell.mayFail hsession₀ hinnermost hstep

/-! ## A script that calls a function while it has an operand left -/

namespace Doubling

/-- A function that adds its argument to itself, and an action that adds three to what it yields. -/
def script : Script where
  declarations :=
    [{ kind := .function
       name := ⟨"double", .nowhere⟩
       parameters := ["x"]
       body := [.ret (some (.binary .add (.var "x" .nowhere) (.var "x" .nowhere) .nowhere))
         .nowhere]
       position := .nowhere },
     { kind := .action
       name := ⟨"main", .nowhere⟩
       parameters := []
       body := [.expr (.binary .add (.num 3 .nowhere)
         (.call ⟨"double", .nowhere⟩ [.num 2 .nowhere] .nowhere) .nowhere) .nowhere]
       position := .nowhere }]

/-- The function. -/
def double : Routine := (script.catalog.functions.at? 0).getD default

/-- The action. -/
def program : Program := ⟨script.catalog, script.main.code, false⟩

/-- The configuration of the action after so many steps, on a stack for two operands. -/
def config : Nat → Config
  | 0 => ⟨.ofLimits { stack := 2 }, ⟨0, #[]⟩, #[]⟩
  | n + 1 => after program.step (config n)

theorem at?_double : script.catalog.functions.at? 0 = some double :=
  (Option.getD_of_ne_none (Option.isSome_iff_ne_none.1 (by decide +kernel)) default).symm

theorem allSmall : script.catalog.AllSmall := by decide +kernel

/-- After four steps the thread is in the function, with an operand of the action and one of the
function on the stack. -/
theorem config_four : (config 4).thread.stack.values = #[3, 2] ∧
    (config 4).thread.frames.map Frame.stackBase = [1] ∧
    script.catalog.innermost? script.main (config 4).thread = some double := by
  have hfunctions : (config 4).thread.frames.map Frame.function = [0] := by decide +kernel
  refine ⟨by decide +kernel, by decide +kernel, ?_⟩
  rw [Catalog.innermost?]
  cases hframes : (config 4).thread.frames with
  | nil =>
    rw [hframes] at hfunctions
    cases hfunctions
  | cons f frames =>
    rw [hframes] at hfunctions
    show script.catalog.functions.at? f.function = some double
    rw [(List.cons.inj hfunctions).1]
    exact at?_double

theorem session {obeys : Routine → Routine → Thread → Thread → Prop}
    (hgrants : Catalog.SessionWith.Grants script.catalog obeys script.main
      script.main.variableCount false) :
    script.catalog.SessionWith obeys script.main script.main.variableCount (config 4) := by
  have hsteps : ∀ n < 4, valueOf? (program.step (config n)) = some .next := by decide +kernel
  have hsession : ∀ n ≤ 4,
      script.catalog.SessionWith obeys script.main script.main.variableCount (config n) := by
    intro n hn
    induction n with
    | zero => exact .fresh _ _ (by decide +kernel)
    | succ n ih =>
      have hstep := eq_ok_of_valueOf? (hsteps n hn)
      exact (ih (by omega)).step hstep fun r' => hgrants _ _ _ r' (ih (by omega)) hstep
  exact hsession 4 (Nat.le_refl 4)

/-- There is no room for another operand. -/
theorem step_config_four :
    program.step (config 4) = .error (.stackOverflow 2) (after program.step (config 4)) :=
  eq_error_of_failureOf? (by decide +kernel)

end Doubling

theorem Build.doubling_wellFormed :
    (∃ walk, Doubling.double.WellFormed Doubling.script.catalog walk) ∧
      Doubling.double.MayFail Doubling.script.catalog (Doubling.config 4).thread
        (.stackOverflow 2) := by
  obtain ⟨d, k, code, -, -, -, hwell, hfail⟩ := Build.script_wellFormed (b := ⟨{}, []⟩)
    (s := Doubling.script) .empty Doubling.allSmall.toSmall (.refl _)
    (show ((⟨{}, []⟩ : Build).script Doubling.script).1.indexOf? .function "double" = some 0 by
      decide +kernel)
    Doubling.at?_double (Doubling.allSmall.routines .function 0 _ Doubling.at?_double)
  exact ⟨⟨_, hwell⟩, hfail _ false _ _ _
    (Doubling.session (Catalog.SessionWith.grants_true _ _ _ _)) Doubling.config_four.2.2
    Doubling.step_config_four⟩

end Danmaku
