import Danmaku.Proofs.Refinement.Expr

/-!
# Statements refined

The code of a statement does what the statement means: after it control goes where its completion
says, and the operands are those from before (`Stmt.meets`). What leaves a loop or goes on with its
next round is a jump that is about to be taken, whose target is the one given to the open jumps;
what returns is about to execute `ret`, with the value on top.

A round of a loop takes at least one step of the machine, the jump that ends it. So a loop that is
followed with some patience, and does not end, takes at least that many steps.
-/

namespace Danmaku

open Instr

variable {p : Program} {names : List String} {excuse : Fault → Prop} {A : Activation}
  {c : Catalog} {apply : String → List Word → Eval Word} {n : Nat} {allowed : String → Prop}
  {s : ScopeStack} {a : Nat} {ops : List Word} {w : World} {r : Recording} {code : List Instr}

/-- Where control is after a statement that completes in some way. -/
def Activation.Goes (A : Activation) (after exit next : Nat) (inLoop : Bool) (ops : List Word)
    (completion : Completion) (w : World) (r : Recording) : Prop :=
  match completion with
  | .next => A.Holds after ops w r
  | .leave => inLoop = true ∧ ∃ b, (Instr.jump exit).StandsAt A.code.words b ∧ A.Holds b ops w r
  | .again => inLoop = true ∧ ∃ b, (Instr.jump next).StandsAt A.code.words b ∧ A.Holds b ops w r
  | .ret v => ∃ b, Instr.ret.StandsAt A.code.words b ∧ A.Holds b (ops ++ [v]) w r

/-- The code that is emitted does what `exec` means, with up to `height` operands, if the targets of
the loop around it are `exit` and `next`. -/
def Refines (p : Program) (names : List String) (excuse : Fault → Prop) (A : Activation) (n : Nat)
    (exit next : Nat) (inLoop : Bool) (height : Nat) (emit : Nat → ScopeStack → Emitted)
    (exec : Eval Completion) : Prop :=
  ∀ a s ops w r, (emit a s).error? = none → (emit a s).scopes.numbers <+: A.names →
    AllStand A.code.words a ((emit a s).code.instrs exit next) →
    a + (emit a s).code.size ≤ A.code.size →
    (A.capacity < ops.length + height → excuse (.stackOverflow A.capacity)) →
    A.Holds a ops w r →
    Meets p names excuse exec w r n
      (A.Goes (a + (emit a s).code.size) exit next inLoop ops)

theorem Refines.mono {exit next : Nat} {inLoop : Bool} {h h' : Nat}
    {emit : Nat → ScopeStack → Emitted} {exec : Eval Completion} (hle : h ≤ h')
    (hrefines : Refines p names excuse A n exit next inLoop h emit exec) :
    Refines p names excuse A n exit next inLoop h' emit exec :=
  fun a s ops w r herror hs hstand hsize hroom =>
    hrefines a s ops w r herror hs hstand hsize fun hlt => hroom (by omega)

/-! ## Conditions and updates -/

theorem Expr.meetsOrZero (hA : A.Hosts p names excuse c apply n allowed) {e? : Option Expr}
    (hc : Expr.compileOrZero c s e? = .ok code) (hs : s.numbers <+: A.names)
    (hcalls : ∀ f ∈ Expr.callsOf e?, allowed f) (hstand : AllStand A.code.words a code)
    (hsize : a + Instr.sizeOf code ≤ A.code.size)
    (hroom : A.capacity < ops.length + Expr.heightOrZero e? → excuse (.stackOverflow A.capacity))
    (hr : A.Holds a ops w r) :
    Meets p names excuse (Expr.evalOrZero p.catalog.types apply e?) w r n fun v w' r' =>
      A.Holds (a + Instr.sizeOf code) (ops ++ [v]) w' r' := by
  cases e? with
  | some e => exact Expr.meets hA hc hs hcalls hstand hsize hroom hr
  | none =>
    obtain rfl := Except.ok.inj hc
    exact .push hA.proper hr (allStand_cons.1 hstand).1 hroom

/-- An expression whose value is dropped. -/
theorem Expr.meets_perform (hA : A.Hosts p names excuse c apply n allowed) {e : Expr}
    (hc : e.compile c s = .ok code) (hs : s.numbers <+: A.names)
    (hcalls : ∀ f ∈ e.calls, allowed f) (hstand : AllStand A.code.words a (code ++ [.pop]))
    (hsize : a + Instr.sizeOf (code ++ [.pop]) ≤ A.code.size)
    (hroom : A.capacity < ops.length + e.height → excuse (.stackOverflow A.capacity))
    (hr : A.Holds a ops w r) :
    Meets p names excuse (Expr.perform p.catalog apply (some e)) w r n fun _ w' r' =>
      A.Holds (a + Instr.sizeOf (code ++ [.pop])) ops w' r' := by
  simp only [allStand_append, allStand_cons, sizeOf_append, sizeOf_cons, sizeOf_nil,
    ← Nat.add_assoc, Nat.add_zero] at hstand hsize ⊢
  obtain ⟨hstand, hpop, -⟩ := hstand
  refine (Expr.meets hA hc hs hcalls hstand (by omega) hroom hr).bind fun v w₁ r₁ hr₁ => ?_
  obtain ⟨r₂, hstep, hr₂⟩ := hr₁.pop hA.proper hpop
  exact .after (.step hstep (.here hr₂) (Nat.zero_le _)) fun _ h => .value h

theorem Expr.meets_update (hA : A.Hosts p names excuse c apply n allowed) {update? : Option Expr}
    (hc : loopUpdate c s update? = .ok code) (hs : s.numbers <+: A.names)
    (hcalls : ∀ f ∈ Expr.callsOf update?, allowed f) (hstand : AllStand A.code.words a code)
    (hsize : a + Instr.sizeOf code ≤ A.code.size)
    (hroom : A.capacity < ops.length + Expr.heightOf update? → excuse (.stackOverflow A.capacity))
    (hr : A.Holds a ops w r) :
    Meets p names excuse (Expr.perform p.catalog apply update?) w r n fun _ w' r' =>
      A.Holds (a + Instr.sizeOf code) ops w' r' := by
  cases update? with
  | none =>
    obtain rfl := Except.ok.inj hc
    exact .value hr
  | some e =>
    obtain ⟨ce, he, rfl⟩ := map_eq_ok.1 hc
    exact Expr.meets_perform hA he hs hcalls hstand hsize hroom hr

/-- A condition, and the branch that is taken if it is zero. -/
theorem Expr.meets_test (hA : A.Hosts p names excuse c apply n allowed) {e : Expr} {exit : Nat}
    (hc : e.compile c s = .ok code) (hs : s.numbers <+: A.names)
    (hcalls : ∀ f ∈ e.calls, allowed f)
    (hstand : AllStand A.code.words a (code ++ [.branchIfZero exit]))
    (hsize : a + Instr.sizeOf code ≤ A.code.size) (hexit : exit ≤ A.code.size)
    (hroom : A.capacity < ops.length + e.height → excuse (.stackOverflow A.capacity))
    (hr : A.Holds a ops w r) :
    Meets p names excuse (Expr.test p.catalog apply (some e)) w r n fun b w' r' =>
      A.Holds (if b then a + Instr.sizeOf code + 2 else exit) ops w' r' := by
  simp only [allStand_append, allStand_cons] at hstand
  obtain ⟨hstand, hi, -⟩ := hstand
  refine (Expr.meets hA hc hs hcalls hstand hsize hroom hr).bind fun v w₁ r₁ hr₁ => ?_
  obtain ⟨r₂, hstep, hr₂⟩ := hr₁.branchIfZero hA.proper hi hexit
  refine .after (.step hstep (.here hr₂) (Nat.zero_le _)) fun r₃ hr₃ => .value ?_
  cases hv : v == 0 <;> simpa [hv] using hr₃

theorem Expr.meets_loopTest (hA : A.Hosts p names excuse c apply n allowed)
    {condition? : Option Expr} {exit : Nat} {test : Nat → List Instr}
    (hc : loopTest c s condition? = .ok test) (hs : s.numbers <+: A.names)
    (hcalls : ∀ f ∈ Expr.callsOf condition?, allowed f)
    (hstand : AllStand A.code.words a (test exit))
    (hsize : a + Instr.sizeOf (test exit) ≤ A.code.size) (hexit : exit ≤ A.code.size)
    (hroom : A.capacity < ops.length + Expr.heightOf condition? →
      excuse (.stackOverflow A.capacity))
    (hr : A.Holds a ops w r) :
    Meets p names excuse (Expr.test p.catalog apply condition?) w r n fun b w' r' =>
      A.Holds (if b then a + Instr.sizeOf (test exit) else exit) ops w' r' := by
  cases condition? with
  | none =>
    obtain rfl := Except.ok.inj hc
    exact .value hr
  | some e =>
    obtain ⟨ce, he, rfl⟩ := map_eq_ok.1 hc
    simp only [sizeOf_append, sizeOf_cons, sizeOf_nil, size_branchIfZero, Nat.add_zero,
      ← Nat.add_assoc] at hsize ⊢
    exact Expr.meets_test hA he hs hcalls hstand (by omega) hexit hroom hr

/-! ## Loops -/

/-- The rounds of a loop whose test starts at `a`, its update at `b` and its body at `d`. -/
theorem Eval.meets_loop (hA : A.Proper p names) {test : Eval Bool} {update : Eval Unit}
    {body : Eval Completion} {a e exit : Nat} (b d : Nat)
    (hback : (Instr.jump a).StandsAt A.code.words e)
    (ha : a ≤ A.code.size) (hexit : exit ≤ A.code.size)
    (htest : ∀ w r, A.Holds a ops w r → Meets p names excuse test w r n fun t w' r' =>
      A.Holds (if t then b else exit) ops w' r')
    (hupdate : ∀ w r, A.Holds b ops w r → Meets p names excuse update w r n fun _ w' r' =>
      A.Holds d ops w' r')
    (hbody : ∀ w r, A.Holds d ops w r → Meets p names excuse body w r n (A.Goes e exit a true ops))
    {exit' next' : Nat} {inLoop : Bool} {k : Nat} (hk : k ≤ n) (hr : A.Holds a ops w r) :
    Meets p names excuse (Eval.loop test update body k) w r k
      (A.Goes exit exit' next' inLoop ops) := by
  induction k generalizing w r with
  | zero =>
    rw [Meets, Eval.loop]
    exact .here hr.log
  | succ k ih =>
    rw [Eval.loop]
    refine Meets.bind ((htest w r hr).mono hk) fun t w₁ r₁ hr₁ => ?_
    cases t with
    | false => exact .value hr₁
    | true =>
      refine Meets.bind ((hupdate w₁ r₁ hr₁).mono hk) fun _ w₂ r₂ hr₂ => ?_
      refine Meets.bind ((hbody w₂ r₂ hr₂).mono hk) fun completion w₃ r₃ hr₃ => ?_
      cases completion with
      | next =>
        obtain ⟨r₄, hstep, hr₄⟩ := hr₃.jump hA hback ha
        exact .step hstep (ih (by omega) hr₄)
      | again =>
        obtain ⟨-, f, hf, hr₃⟩ := hr₃
        obtain ⟨r₄, hstep, hr₄⟩ := hr₃.jump hA hf ha
        exact .step hstep (ih (by omega) hr₄)
      | leave =>
        obtain ⟨-, f, hf, hr₃⟩ := hr₃
        obtain ⟨r₄, hstep, hr₄⟩ := hr₃.jump hA hf hexit
        exact .after (.step hstep (.here hr₄) (Nat.zero_le _)) fun _ h => .value h
      | ret v => exact .value hr₃

/-! ## Declarations and requests -/

/-- A declaration stores its value, or zero. -/
theorem VarDecl.meets (hA : A.Hosts p names excuse c apply n allowed) {d : VarDecl}
    (h : (d.emit c s).error? = none) (hs : (d.emit c s).scopes.numbers <+: A.names)
    (hcalls : ∀ f ∈ Expr.callsOf d.value?, allowed f) {exit next : Nat}
    (hstand : AllStand A.code.words a ((d.emit c s).code.instrs exit next))
    (hsize : a + (d.emit c s).code.size ≤ A.code.size)
    (hroom : A.capacity < ops.length + Expr.heightOrZero d.value? →
      excuse (.stackOverflow A.capacity))
    (hr : A.Holds a ops w r) :
    Meets p names excuse (d.exec p.catalog apply) w r n fun _ w' r' =>
      A.Holds (a + (d.emit c s).code.size) ops w' r' := by
  obtain ⟨s', slot, code, hd, hc, he⟩ := VarDecl.emit_inv h
  simp only [he, Emitted.complete, Fragment.instrs_ofInstrs, Fragment.size_ofInstrs]
    at hs hstand hsize ⊢
  simp only [allStand_append, allStand_cons, sizeOf_append, sizeOf_cons, sizeOf_nil,
    ← Nat.add_assoc, Nat.add_zero] at hstand hsize ⊢
  obtain ⟨hstand, hset, hpop, -⟩ := hstand
  refine (Expr.meetsOrZero hA hc hs hcalls hstand (by omega) hroom hr).bind
    fun v w₁ r₁ hr₁ => ?_
  have hname := getElem?_of_isPrefix hs (ScopeStack.numbers_of_declareNumber hd)
  refine (Meets.setVariable hA.proper hr₁ hname hset).before fun _ w₂ r₂ hr₂ => ?_
  obtain ⟨r₃, hstep, hr₃⟩ := hr₂.pop hA.proper hpop
  exact .step hstep (.here hr₃) (Nat.zero_le _)

theorem ForInit.meets (hA : A.Hosts p names excuse c apply n allowed) {init? : Option ForInit}
    (h : (ForInit.emit c init? s).error? = none)
    (hs : (ForInit.emit c init? s).scopes.numbers <+: A.names)
    (hcalls : ∀ f ∈ ForInit.calls init?, allowed f) {exit next : Nat}
    (hstand : AllStand A.code.words a ((ForInit.emit c init? s).code.instrs exit next))
    (hsize : a + (ForInit.emit c init? s).code.size ≤ A.code.size)
    (hroom : A.capacity < ops.length + ForInit.height init? → excuse (.stackOverflow A.capacity))
    (hr : A.Holds a ops w r) :
    Meets p names excuse (ForInit.exec p.catalog apply init?) w r n fun _ w' r' =>
      A.Holds (a + (ForInit.emit c init? s).code.size) ops w' r' := by
  cases init? with
  | none => exact .value hr
  | some init =>
    cases init with
    | declare decl => exact VarDecl.meets hA h hs hcalls hstand hsize hroom hr
    | evaluate e =>
      obtain ⟨code, hc, he⟩ := Emitted.ofExcept_inv h
      simp only [ForInit.emit, he, Emitted.complete, Fragment.instrs_ofInstrs,
        Fragment.size_ofInstrs] at hs hstand hsize ⊢
      exact Expr.meets_perform hA hc hs hcalls hstand hsize hroom hr

/-- A request fires the function that it names, with the updater that it names. -/
theorem FireStmt.meets (hA : A.Hosts p names excuse c apply n allowed) {f : FireStmt}
    (h : (f.emit c s).error? = none) (hs : s.numbers <+: A.names)
    (hcalls : ∀ g ∈ f.calls, allowed g) {exit next : Nat}
    (hstand : AllStand A.code.words a ((f.emit c s).code.instrs exit next))
    (hsize : a + (f.emit c s).code.size ≤ A.code.size)
    (hroom : A.capacity < ops.length + f.height → excuse (.stackOverflow A.capacity))
    (hr : A.Holds a ops w r) :
    Meets p names excuse (f.exec p.catalog apply) w r n fun _ w' r' =>
      A.Holds (a + (f.emit c s).code.size) ops w' r' := by
  obtain ⟨firing, args, hf, ha, he⟩ := FireStmt.emit_inv h
  obtain ⟨function, hfind, harity, rfl⟩ := FireStmt.resolve_inv hf
  have hat : p.catalog.firing.at? function.index = some function := by
    rw [hA.grows.firing]
    exact hA.made.firing_at? hfind
  have hget : (p.catalog.firing.find? (f.typeName, f.functionName)).getD default = function := by
    rw [hA.grows.firing, hfind, Option.getD_some]
  simp only [FireStmt.calls, List.mem_append, or_imp, forall_and] at hcalls
  rw [FireStmt.exec, hget]
  rcases he with ⟨hu, he⟩ | ⟨clause, updater, rest, hu, hres, hrest, he⟩
  · simp only [FireStmt.height, hu] at hroom
    simp only [he, Emitted.complete, Fragment.instrs_ofInstrs, Fragment.size_ofInstrs]
      at hstand hsize ⊢
    simp only [allStand_append, allStand_cons, sizeOf_append, sizeOf_cons, sizeOf_nil,
      ← Nat.add_assoc, Nat.add_zero] at hstand hsize ⊢
    obtain ⟨hstand, hi, -⟩ := hstand
    refine (Expr.meetsAll hA ha hs hcalls.1 hstand (by omega) hroom hr).bind
      fun vs w₁ r₁ hr₁ => ?_
    rw [hu]
    exact .fire hA.proper hr₁.2 hat (hr₁.1.trans harity.symm) hi
  · obtain ⟨u, hl, hcount⟩ := UpdaterClause.resolve_inv hres
    obtain ⟨u', hl', hcount'⟩ := (hA.grows.routines .bulletUpdater).lookup hl
    obtain ⟨hindex, hat'⟩ := Table.lookup?_eq_some.1 hl'
    have hindex : p.catalog.bulletUpdaters.indexOf? clause.name.name = some updater := hindex
    simp only [FireStmt.height, hu] at hroom
    simp only [hu] at hcalls
    simp only [he, Emitted.complete, Fragment.instrs_ofInstrs, Fragment.size_ofInstrs]
      at hstand hsize ⊢
    simp only [allStand_append, allStand_cons, sizeOf_append, sizeOf_cons, sizeOf_nil,
      ← Nat.add_assoc, Nat.add_zero] at hstand hsize ⊢
    obtain ⟨hstand, hstandr, hi, -⟩ := hstand
    refine (Expr.meetsAll hA ha hs hcalls.1 hstand (by omega) (fun h => hroom (by omega)) hr).bind
      fun vs w₁ r₁ hr₁ => ?_
    obtain ⟨hlength, hr₁⟩ := hr₁
    rw [hu]
    have hattach : Meets p names excuse (FireStmt.attach p.catalog apply (some clause)) w₁ r₁ n
        fun updater? w' r' => ∃ us, updater? = some ⟨updater, us⟩ ∧
          us.length = clause.arguments.length ∧
          A.Holds (a + Instr.sizeOf args + Instr.sizeOf rest) (ops ++ vs ++ us) w' r' := by
      simp only [FireStmt.attach, hindex, Option.getD_some]
      refine (Expr.meetsAll hA hrest hs hcalls.2 hstandr (by omega) (fun h => hroom ?_) hr₁).bind
        fun us w₂ r₂ hr₂ => .value ⟨us, rfl, hr₂⟩
      rw [List.length_append, hlength] at h
      omega
    refine hattach.bind ?_
    rintro _ w₂ r₂ ⟨us, rfl, hus, hr₂⟩
    exact .fireWith hA.proper hr₂ hat (hlength.trans harity.symm) hat'
      (hus.trans (hcount'.trans hcount).symm) hi

/-! ## Compound statements -/

variable {exit next : Nat} {inLoop : Bool} {condition : Expr} {condition? update? : Option Expr}
  {yes no body first rest : Nat → ScopeStack → Emitted} {hy hn : Nat}
  {execYes execNo execBody execRest : Eval Completion}

theorem emitIf_refines (hA : A.Hosts p names excuse c apply n allowed)
    (hcalls : ∀ f ∈ condition.calls, allowed f)
    (hgrow : ∀ a (s : ScopeStack), s.Grows (yes a s).scopes)
    (hyes : Refines p names excuse A n exit next inLoop hy yes execYes) :
    Refines p names excuse A n exit next inLoop (max condition.height hy)
      (emitIf c condition yes)
      (do if ← Expr.test p.catalog apply (some condition) then execYes else return .next) := by
  intro a s ops w r h hs hstand hsize hroom hr
  obtain ⟨test, y, hc, rfl, hy, he⟩ := emitIf_inv h
  simp only [he, Emitted.after, Fragment.instrs_append, Fragment.instrs_ofInstrs,
    Fragment.size_append, Fragment.size_ofInstrs, sizeOf_append, sizeOf_cons, sizeOf_nil,
    size_branchIfZero, ← Nat.add_assoc, Nat.add_zero] at hs hstand hsize ⊢
  obtain ⟨htest, hstand⟩ := allStand_append.1 hstand
  simp only [sizeOf_append, sizeOf_cons, sizeOf_nil, size_branchIfZero, ← Nat.add_assoc,
    Nat.add_zero] at hstand
  refine (Expr.meets_test hA hc ((hgrow _ s).numbers.trans hs) hcalls htest (by omega) (by omega)
    (fun h => hroom (by omega)) hr).bind fun t w₁ r₁ hr₁ => ?_
  cases t with
  | true => exact hyes _ s ops w₁ r₁ hy hs hstand (by omega) (fun h => hroom (by omega)) hr₁
  | false => exact .value hr₁

theorem emitIfElse_refines (hA : A.Hosts p names excuse c apply n allowed)
    (hcalls : ∀ f ∈ condition.calls, allowed f)
    (hgrowYes : ∀ a (s : ScopeStack), s.Grows (yes a s).scopes)
    (hgrowNo : ∀ a (s : ScopeStack), s.Grows (no a s).scopes)
    (hyes : Refines p names excuse A n exit next inLoop hy yes execYes)
    (hno : Refines p names excuse A n exit next inLoop hn no execNo) :
    Refines p names excuse A n exit next inLoop (max condition.height (max hy hn))
      (emitIfElse c condition yes no)
      (do if ← Expr.test p.catalog apply (some condition) then execYes else execNo) := by
  intro a s ops w r h hs hstand hsize hroom hr
  obtain ⟨test, y, m, other, hc, rfl, hy, rfl, rfl, hn, he⟩ := emitIfElse_inv h
  simp only [he, Emitted.after, Fragment.instrs_append, Fragment.instrs_ofInstrs,
    Fragment.size_append, Fragment.size_ofInstrs, sizeOf_append, sizeOf_cons, sizeOf_nil,
    size_branchIfZero, size_jump, ← Nat.add_assoc, Nat.add_zero] at hs hstand hsize ⊢
  obtain ⟨hstand, helse⟩ := allStand_append.1 hstand
  obtain ⟨hstand, hjump⟩ := allStand_append.1 hstand
  obtain ⟨htest, hthen⟩ := allStand_append.1 hstand
  simp only [sizeOf_append, sizeOf_cons, sizeOf_nil, size_branchIfZero, size_jump,
    Fragment.sizeOf_instrs, ← Nat.add_assoc, Nat.add_zero, allStand_cons] at helse hjump hthen
  have hsYes := (hgrowNo _ _).numbers.trans hs
  refine (Expr.meets_test hA hc ((hgrowYes _ s).numbers.trans hsYes) hcalls htest (by omega)
    (by omega) (fun h => hroom (by omega)) hr).bind fun t w₁ r₁ hr₁ => ?_
  cases t with
  | false => exact hno _ _ ops w₁ r₁ hn hs helse (by omega) (fun h => hroom (by omega)) hr₁
  | true =>
    refine (hyes _ s ops w₁ r₁ hy hsYes hthen (by omega) (fun h => hroom (by omega)) hr₁).before
      fun completion w₂ r₂ hr₂ => ?_
    cases completion with
    | next =>
      obtain ⟨r₃, hstep, hr₃⟩ := hr₂.jump hA.proper hjump.1 (by omega)
      exact .step hstep (.here hr₃) (Nat.zero_le _)
    | leave | again | ret v => exact .here hr₂

theorem emitLoop_refines (hA : A.Hosts p names excuse c apply n allowed) {hb : Nat}
    (hcondition : ∀ f ∈ Expr.callsOf condition?, allowed f)
    (hupdate : ∀ f ∈ Expr.callsOf update?, allowed f)
    (hgrow : ∀ a (s : ScopeStack), s.Grows (body a s).scopes)
    (hbody : ∀ exit next, exit ≤ A.code.size → next ≤ A.code.size →
      Refines p names excuse A n exit next true hb body execBody) :
    Refines p names excuse A n exit next inLoop
      (max (Expr.heightOf condition?) (max (Expr.heightOf update?) hb))
      (emitLoop c condition? update? body)
      (Eval.loop (Expr.test p.catalog apply condition?) (Expr.perform p.catalog apply update?)
        execBody n) := by
  intro a s ops w r h hs hstand hsize hroom hr
  obtain ⟨test, update, start, b, exit', htest, hup, hstart, rfl, hb, hexit, he⟩ := emitLoop_inv h
  have hsizeTest := sizeOf_loopTest htest exit'
  simp only [he, Fragment.instrs_append, Fragment.instrs_ofInstrs, Fragment.instrs_close,
    Fragment.size_append, Fragment.size_ofInstrs, Fragment.size_close, sizeOf_append, sizeOf_cons,
    sizeOf_nil, size_jump, hsizeTest, ← Nat.add_assoc, Nat.add_zero, ← hstart, ← hexit]
    at hs hstand hsize ⊢
  obtain ⟨hstand, hback⟩ := allStand_append.1 hstand
  obtain ⟨hstand, hstandBody⟩ := allStand_append.1 hstand
  obtain ⟨hstandTest, hstandUpdate⟩ := allStand_append.1 hstand
  simp only [sizeOf_append, Fragment.sizeOf_instrs, hsizeTest, ← Nat.add_assoc, ← hstart,
    allStand_cons] at hback hstandBody hstandUpdate
  have hs' := (hgrow start s).numbers.trans hs
  refine Eval.meets_loop hA.proper (a + Instr.sizeOf (test 0)) start hback.1 (by omega)
    (by omega) ?_ ?_ ?_ (Nat.le_refl n) hr
  · intro w r hr
    have := Expr.meets_loopTest hA htest hs' hcondition hstandTest (by omega) (by omega)
      (fun h => hroom (by omega)) hr
    rwa [hsizeTest] at this
  · intro w r hr
    have := Expr.meets_update hA hup hs' hupdate hstandUpdate (by omega)
      (fun h => hroom (by omega)) hr
    rwa [← hstart] at this
  · intro w r hr
    exact hbody _ _ (by omega) (by omega) _ s ops w r hb hs hstandBody (by omega)
      (fun h => hroom (by omega)) hr

/-- Statements in order: the second is reached where the first completes normally. -/
theorem andThen_refines {exec : Eval Completion}
    (hgrow : ∀ a (s : ScopeStack), s.Grows (rest a s).scopes)
    (hfirst : Refines p names excuse A n exit next inLoop hy first exec)
    (hrest : Refines p names excuse A n exit next inLoop hn rest execRest) :
    Refines p names excuse A n exit next inLoop (max hy hn)
      (fun a s => (first a s).andThen a rest)
      (do match ← exec with
          | .next => execRest
          | completion => return completion) := by
  intro a s ops w r h hs hstand hsize hroom hr
  obtain ⟨h₁, h₂, he⟩ := Emitted.andThen_inv h
  simp only [he, Emitted.after, Fragment.instrs_append, Fragment.size_append, allStand_append,
    Fragment.sizeOf_instrs, ← Nat.add_assoc] at hs hstand hsize ⊢
  refine (hfirst a s ops w r h₁ ((hgrow _ _).numbers.trans hs) hstand.1 (by omega)
    (fun h => hroom (by omega)) hr).bind fun completion w₁ r₁ hr₁ => ?_
  cases completion with
  | next => exact hrest _ _ ops w₁ r₁ h₂ hs hstand.2 (by omega) (fun h => hroom (by omega)) hr₁
  | leave | again | ret v => exact .value hr₁

/-! ## Statements -/

mutual

/-- **The code of a statement does what the statement means.** -/
theorem Stmt.meets (hA : A.Hosts p names excuse c apply n allowed) (stmt : Stmt) {inLoop : Bool}
    {exit next : Nat} (hcalls : ∀ f ∈ stmt.calls, allowed f)
    (hloop : inLoop = true → exit ≤ A.code.size ∧ next ≤ A.code.size) :
    Refines p names excuse A n exit next inLoop stmt.height
      (fun a s => stmt.emit c inLoop a s) (stmt.exec p.catalog apply n) := by
  cases stmt with
  | expr e _ =>
    intro a s ops w r h hs hstand hsize hroom hr
    obtain ⟨code, hc, he⟩ := Emitted.ofExcept_inv h
    simp only [Stmt.emit, he, Emitted.complete, Fragment.instrs_ofInstrs, Fragment.size_ofInstrs]
      at hs hstand hsize ⊢
    rw [Stmt.exec]
    exact (Expr.meets_perform hA hc hs hcalls hstand hsize hroom hr).bind
      fun _ w₁ r₁ hr₁ => .value hr₁
  | var decl _ =>
    intro a s ops w r h hs hstand hsize hroom hr
    rw [Stmt.exec]
    exact (VarDecl.meets hA h hs hcalls hstand hsize hroom hr).bind fun _ w₁ r₁ hr₁ => .value hr₁
  | ref name _ =>
    intro a s ops w r h hs hstand hsize hroom hr
    simp only [Stmt.emit] at h ⊢
    rw [Stmt.exec]
    split at h
    · cases h
    · exact .value hr
  | ret value? _ =>
    intro a s ops w r h hs hstand hsize hroom hr
    obtain ⟨code, hc, he⟩ := Emitted.ofExcept_inv h
    simp only [Stmt.emit, he, Emitted.complete, Fragment.instrs_ofInstrs, Fragment.size_ofInstrs,
      allStand_append, allStand_cons, sizeOf_append] at hs hstand hsize ⊢
    rw [Stmt.exec]
    exact (Expr.meetsOrZero hA hc hs hcalls hstand.1 (by omega) hroom hr).bind
      fun v w₁ r₁ hr₁ => .value ⟨_, hstand.2.1, hr₁⟩
  | leaveLoop _ =>
    intro a s ops w r h hs hstand hsize hroom hr
    simp only [Stmt.emit] at h hstand ⊢
    rw [Stmt.exec]
    split at h
    · next hin =>
      simp only [hin, if_true] at hstand
      exact .value ⟨hin, a, (allStand_cons.1 hstand).1, hr⟩
    · cases h
  | continueLoop _ =>
    intro a s ops w r h hs hstand hsize hroom hr
    simp only [Stmt.emit] at h hstand ⊢
    rw [Stmt.exec]
    split at h
    · next hin =>
      simp only [hin, if_true] at hstand
      exact .value ⟨hin, a, (allStand_cons.1 hstand).1, hr⟩
    · cases h
  | block body _ => exact Stmt.meetsAll hA body hcalls hloop
  | ifThen condition yes _ =>
    simp only [Stmt.calls, List.mem_append, or_imp, forall_and] at hcalls
    exact emitIf_refines hA hcalls.1 (yes.emit_grows inLoop) (yes.meets hA hcalls.2 hloop)
  | ifElse condition yes no _ =>
    simp only [Stmt.calls, List.mem_append, or_imp, forall_and] at hcalls
    exact emitIfElse_refines hA hcalls.1 (yes.emit_grows inLoop) (no.emit_grows inLoop)
      (yes.meets hA hcalls.2.1 hloop) (no.meets hA hcalls.2.2 hloop)
  | whileLoop condition body _ =>
    simp only [Stmt.calls, List.mem_append, or_imp, forall_and] at hcalls
    refine Refines.mono ?_ (emitLoop_refines hA hcalls.1 (by simp [Expr.callsOf])
      (body.emit_grows true) fun _ _ hexit hnext => body.meets hA hcalls.2 fun _ => ⟨hexit, hnext⟩)
    simp only [Expr.heightOf, Stmt.height]
    omega
  | forLoop init? condition? update? body _ =>
    intro a s ops w r h hs hstand hsize hroom hr
    obtain ⟨h₁, h₂, he⟩ := Emitted.andThen_inv h
    simp only [Stmt.emit, he, Emitted.after, Fragment.instrs_append, Fragment.size_append,
      allStand_append, Fragment.sizeOf_instrs, ← Nat.add_assoc] at hs hstand hsize ⊢
    simp only [Stmt.calls, List.mem_append, or_imp, forall_and] at hcalls
    simp only [Stmt.height] at hroom
    have hs₁ := (emitLoop_grows (body.emit_grows true)).numbers.trans hs
    rw [Stmt.exec]
    refine (ForInit.meets hA h₁ hs₁ hcalls.1 hstand.1 (by omega) (fun h => hroom (by omega))
      hr).bind fun _ w₁ r₁ hr₁ => ?_
    exact emitLoop_refines hA hcalls.2.1 hcalls.2.2.1 (body.emit_grows true)
      (fun _ _ hexit hnext => body.meets hA hcalls.2.2.2 fun _ => ⟨hexit, hnext⟩)
      _ _ ops w₁ r₁ h₂ hs hstand.2 (by omega) (fun h => hroom (by omega)) hr₁
  | wait ticks _ =>
    intro a s ops w r h hs hstand hsize hroom hr
    obtain ⟨code, hc, he⟩ := Emitted.ofExcept_inv h
    simp only [Stmt.emit, he, Emitted.complete, Fragment.instrs_ofInstrs, Fragment.size_ofInstrs,
      allStand_append, allStand_cons, sizeOf_append, sizeOf_cons, sizeOf_nil, ← Nat.add_assoc,
      Nat.add_zero] at hs hstand hsize ⊢
    rw [Stmt.exec]
    refine (Expr.meets hA hc hs hcalls hstand.1 (by omega) hroom hr).bind fun v w₁ r₁ hr₁ => ?_
    exact (Meets.wait hA.proper hr₁ hstand.2.1).bind fun _ w₂ r₂ hr₂ => .value hr₂
  | fire request =>
    intro a s ops w r h hs hstand hsize hroom hr
    simp only [Stmt.emit] at h hs hstand hsize ⊢
    rw [FireStmt.emit_scopes] at hs
    rw [Stmt.exec]
    exact (FireStmt.meets hA h hs hcalls hstand hsize hroom hr).bind
      fun _ w₁ r₁ hr₁ => .value hr₁

theorem Stmt.meetsAll (hA : A.Hosts p names excuse c apply n allowed) (statements : List Stmt)
    {inLoop : Bool} {exit next : Nat} (hcalls : ∀ f ∈ Stmt.callsAll statements, allowed f)
    (hloop : inLoop = true → exit ≤ A.code.size ∧ next ≤ A.code.size) :
    Refines p names excuse A n exit next inLoop (Stmt.heightAll statements)
      (fun a s => Stmt.emitAll c inLoop statements a s)
      (Stmt.execAll p.catalog apply n statements) := by
  cases statements with
  | nil => exact fun a s ops w r _ _ _ _ _ hr => .value hr
  | cons stmt rest =>
    simp only [Stmt.callsAll, List.mem_append, or_imp, forall_and] at hcalls
    exact andThen_refines (Stmt.emitAll_grows rest inLoop) (stmt.meets hA hcalls.1 hloop)
      (Stmt.meetsAll hA rest hcalls.2 hloop)

end

end Danmaku
