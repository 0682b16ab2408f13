import Danmaku.Proofs.Catalog.Growth
import Danmaku.Proofs.Compile.Names

/-!
# Compiled code is sound

An instruction is sound if everything is there that it refers to: its variable among those of the
routine, its number in the table of the catalog, and what it jumps to among the addresses at which
the code can go on (`Instr.Sound`). Compilation yields sound code: every open jump has been closed,
and every target is the address of an instruction or the end of the code (`Decl.compile_sound`).
-/

namespace Danmaku

namespace Instr

/-- What the instruction at an address refers to is there. -/
def Sound (c : Catalog) (count : Nat) (target : Nat → Prop) (address : Nat) : Instr → Prop
  | jump t | branchIfZero t => target t
  | jumpBy offset | branchIfZeroBy offset => ∃ t, target t ∧ address + 2 + offset = (t : Int)
  | getVariable slot | setVariable slot => slot < count
  | getProperty property | setProperty property => property < c.types.propertyNames.length
  | call function => function < c.functions.size
  | callDelegate delegate => delegate < c.delegates.size
  | fire firing => firing < c.firing.size
  | fireWith firing updater => firing < c.firing.size ∧ updater < c.bulletUpdaters.size
  | push _ | pop | negate | not | binary _ | wait | ret => True

/-- The same for instructions that stand one after another. -/
def AllSound (c : Catalog) (count : Nat) (target : Nat → Prop) (address : Nat)
    (code : List Instr) : Prop :=
  ∀ x ∈ placed address code, x.2.Sound c count target x.1

variable {c c' : Catalog} {count count' : Nat} {target target' : Nat → Prop} {a : Nat} {i : Instr}
  {code rest : List Instr}

@[simp] theorem allSound_nil : AllSound c count target a [] := by simp [AllSound]

@[simp] theorem allSound_cons : AllSound c count target a (i :: code) ↔
    i.Sound c count target a ∧ AllSound c count target (a + i.size) code := by
  simp [AllSound]

@[simp] theorem allSound_append : AllSound c count target a (code ++ rest) ↔
    AllSound c count target a code ∧ AllSound c count target (a + sizeOf code) rest := by
  simp only [AllSound, placed_append, List.forall_mem_append]

/-- Sound instructions stay sound as more is entered in the catalog. -/
theorem Sound.mono (h : i.Sound c count target a) (hc : c.Extends c') (hcount : count ≤ count')
    (htarget : ∀ t, target t → target' t) : i.Sound c' count' target' a := by
  cases i with
  | jump t | branchIfZero t => exact htarget t h
  | jumpBy offset | branchIfZeroBy offset =>
    obtain ⟨t, ht, heq⟩ := h
    exact ⟨t, htarget t ht, heq⟩
  | getVariable slot | setVariable slot => exact Nat.lt_of_lt_of_le h hcount
  | getProperty property | setProperty property => exact Nat.lt_of_lt_of_le h hc.properties
  | call function => exact Nat.lt_of_lt_of_le h (hc.routines .function).size
  | callDelegate delegate => exact Nat.lt_of_lt_of_le h hc.delegates
  | fire firing => exact Nat.lt_of_lt_of_le h hc.firing_size
  | fireWith firing updater =>
    exact ⟨Nat.lt_of_lt_of_le h.1 hc.firing_size,
      Nat.lt_of_lt_of_le h.2 (hc.routines .bulletUpdater).size⟩
  | push _ | pop | negate | not | binary _ | wait | ret => trivial

theorem AllSound.mono (h : AllSound c count target a code) (hc : c.Extends c')
    (hcount : count ≤ count') (htarget : ∀ t, target t → target' t) :
    AllSound c' count' target' a code :=
  fun x hx => (h x hx).mono hc hcount htarget

/-- The targets that code has within itself. -/
theorem targets_append (h : ∀ b ∈ bounds a (code ++ rest), target b) :
    (∀ b ∈ bounds a code, target b) ∧ ∀ b ∈ bounds (a + sizeOf code) rest, target b :=
  ⟨fun b hb => h b (mem_bounds_append.2 (.inl hb)), fun b hb => h b (mem_bounds_append.2 (.inr hb))⟩

end Instr

open Instr

variable {c : Catalog} {count : Nat} {target : Nat → Prop} {s : ScopeStack} {a : Nat}
  {code : List Instr}

/-! ## Expressions -/

theorem Expr.place_sound {e : Expr} {place : Place} (h : e.place c s = .ok place)
    (hcount : s.numbers.length ≤ count) (a : Nat) :
    place.get.Sound c count target a ∧ place.set.Sound c count target a := by
  rcases Expr.place_inv h with ⟨name, position, slot, rfl, hs, rfl⟩
    | ⟨name, position, index, rfl, hi, rfl⟩
  · have hlt := (List.getElem?_eq_some_iff.1 (ScopeStack.numberSlot_inv hs)).1
    exact ⟨Nat.lt_of_lt_of_le hlt hcount, Nat.lt_of_lt_of_le hlt hcount⟩
  · have hlt := (List.getElem?_eq_some_iff.1 (getElem?_of_idxOf? hi)).1
    exact ⟨hlt, hlt⟩

theorem callee_sound {f : Ident} {found : Nat} {position : Position} {i : Instr}
    (h : callee c f found position = .ok i) (a : Nat) : i.Sound c count target a := by
  rcases callee_inv h with ⟨index, r, hl, -, rfl⟩ | ⟨index, -, hd, rfl⟩
  · exact Table.at?_lt (Table.lookup?_eq_some.1 hl).2
  · exact Table.indexOf?_lt hd

mutual

/-- **The code of an expression is sound.** -/
theorem Expr.compile_sound {e : Expr} {a : Nat} {code : List Instr}
    (h : e.compile c s = .ok code) (hcount : s.numbers.length ≤ count)
    (ht : ∀ b ∈ bounds a code, target b) :
    AllSound c count target a code := by
  cases e with
  | num value _ =>
    obtain rfl := Except.ok.inj h
    simp [Instr.Sound]
  | var name position | prop name position =>
    simp only [Expr.compile, bind_eq_ok, pure_eq_ok] at h
    obtain ⟨place, hp, rfl⟩ := h
    simpa using (Expr.place_sound hp hcount a).1
  | binary op l r _ =>
    simp only [Expr.compile, bind_eq_ok, pure_eq_ok] at h
    obtain ⟨cl, hl, cr, hr, rfl⟩ := h
    obtain ⟨ht, -⟩ := targets_append ht
    obtain ⟨htl, htr⟩ := targets_append ht
    simp only [allSound_append, allSound_cons, allSound_nil, and_true, Instr.Sound]
    exact ⟨Expr.compile_sound hl hcount htl, Expr.compile_sound hr hcount htr⟩
  | unary op e _ =>
    simp only [Expr.compile, bind_eq_ok, pure_eq_ok] at h
    obtain ⟨ce, he, rfl⟩ := h
    obtain ⟨hte, -⟩ := targets_append ht
    simp only [allSound_append, allSound_cons, allSound_nil, and_true]
    exact ⟨Expr.compile_sound he hcount hte, by cases op <;> trivial⟩
  | assign op target value _ =>
    cases op with
    | plain =>
      simp only [Expr.compile, bind_eq_ok, pure_eq_ok] at h
      obtain ⟨place, hp, cv, hv, rfl⟩ := h
      obtain ⟨htv, -⟩ := targets_append ht
      simp only [allSound_append, allSound_cons, allSound_nil, and_true]
      exact ⟨Expr.compile_sound hv hcount htv, (Expr.place_sound hp hcount _).2⟩
    | combined op =>
      simp only [Expr.compile, bind_eq_ok, pure_eq_ok] at h
      obtain ⟨place, hp, cv, hv, rfl⟩ := h
      obtain ⟨ht, -⟩ := targets_append ht
      obtain ⟨-, htv⟩ := targets_append ht
      simp only [allSound_append, allSound_cons, allSound_nil, and_true, Instr.Sound, true_and]
      exact ⟨⟨(Expr.place_sound hp hcount _).1, Expr.compile_sound hv hcount htv⟩,
        (Expr.place_sound hp hcount _).2⟩
  | step op target _ =>
    simp only [Expr.compile, bind_eq_ok, pure_eq_ok] at h
    obtain ⟨place, hp, rfl⟩ := h
    simp only [allSound_cons, allSound_nil, and_true, Instr.Sound, true_and]
    exact ⟨(Expr.place_sound hp hcount _).1, (Expr.place_sound hp hcount _).2⟩
  | choose condition yes no _ =>
    simp only [Expr.compile, bind_eq_ok, pure_eq_ok] at h
    obtain ⟨cc, hc, cy, hy, cn, hn, rfl⟩ := h
    obtain ⟨ht, htn⟩ := targets_append ht
    obtain ⟨ht, -⟩ := targets_append ht
    obtain ⟨ht, hty⟩ := targets_append ht
    obtain ⟨htc, -⟩ := targets_append ht
    simp only [allSound_append, allSound_cons, allSound_nil, and_true, Instr.Sound]
    refine ⟨⟨⟨⟨Expr.compile_sound hc hcount htc, ?_⟩, Expr.compile_sound hy hcount hty⟩, ?_⟩,
      Expr.compile_sound hn hcount htn⟩
    · refine ⟨_, htn _ (start_mem_bounds _ cn), ?_⟩
      simp only [sizeOf_append, sizeOf_cons, sizeOf_nil, Instr.size, Instr.opcode,
        Opcode.operandCount]
      omega
    · refine ⟨_, htn _ (end_mem_bounds _ cn), ?_⟩
      simp only [sizeOf_append, sizeOf_cons, sizeOf_nil, Instr.size, Instr.opcode,
        Opcode.operandCount]
      omega
  | call f args position =>
    simp only [Expr.compile, bind_eq_ok, pure_eq_ok] at h
    obtain ⟨i, hi, ca, ha, rfl⟩ := h
    obtain ⟨hta, -⟩ := targets_append ht
    simp only [allSound_append, allSound_cons, allSound_nil, and_true]
    exact ⟨Expr.compileAll_sound ha hcount hta, callee_sound hi _⟩

theorem Expr.compileAll_sound {args : List Expr} {a : Nat} {code : List Instr}
    (h : Expr.compileAll c s args = .ok code) (hcount : s.numbers.length ≤ count)
    (ht : ∀ b ∈ bounds a code, target b) :
    AllSound c count target a code := by
  cases args with
  | nil =>
    obtain rfl := Except.ok.inj h
    exact allSound_nil
  | cons e rest =>
    simp only [Expr.compileAll, bind_eq_ok, pure_eq_ok] at h
    obtain ⟨ce, he, cr, hr, rfl⟩ := h
    obtain ⟨hte, htr⟩ := targets_append ht
    exact allSound_append.2 ⟨Expr.compile_sound he hcount hte, Expr.compileAll_sound hr hcount htr⟩

end

theorem Expr.compileOrZero_sound {e? : Option Expr} (h : Expr.compileOrZero c s e? = .ok code)
    (hcount : s.numbers.length ≤ count) (ht : ∀ b ∈ bounds a code, target b) :
    AllSound c count target a code := by
  cases e? with
  | some e => exact Expr.compile_sound h hcount ht
  | none =>
    obtain rfl := Except.ok.inj h
    simp [Instr.Sound]

/-! ## Statements -/

/-- What is emitted is sound, if nothing is wrong, the targets of the loop around it are `exit` and
`next`, and all its own addresses are targets. -/
def EmitsSound (c : Catalog) (count : Nat) (target : Nat → Prop) (exit next : Nat)
    (emit : Nat → ScopeStack → Emitted) : Prop :=
  ∀ a s, (emit a s).error? = none → (emit a s).scopes.numbers.length ≤ count →
    (∀ b ∈ bounds a ((emit a s).code.instrs exit next), target b) →
    AllSound c count target a ((emit a s).code.instrs exit next)

variable {exit next : Nat} {condition : Expr} {condition? update? : Option Expr}
  {yes no body : Nat → ScopeStack → Emitted}

theorem VarDecl.emit_sound (d : VarDecl) :
    EmitsSound c count target exit next fun _ s => d.emit c s := by
  intro a s h hcount ht
  obtain ⟨s', slot, code, hd, hc, he⟩ := VarDecl.emit_inv h
  simp only [he, Emitted.complete, Fragment.instrs_ofInstrs] at hcount ht ⊢
  have hlt := (List.getElem?_eq_some_iff.1 (ScopeStack.numbers_of_declareNumber hd)).1
  simp only [allSound_append, allSound_cons, allSound_nil, and_true, Instr.Sound]
  exact ⟨Expr.compileOrZero_sound hc hcount (targets_append ht).1, Nat.lt_of_lt_of_le hlt hcount⟩

theorem ForInit.emit_sound (init? : Option ForInit) :
    EmitsSound c count target exit next fun _ s => ForInit.emit c init? s := by
  intro a s h hcount ht
  cases init? with
  | none => exact allSound_nil
  | some init =>
    cases init with
    | declare decl => exact decl.emit_sound a s h hcount ht
    | evaluate e =>
      obtain ⟨code, hc, he⟩ := Emitted.ofExcept_inv h
      simp only [ForInit.emit, he, Emitted.complete, Fragment.instrs_ofInstrs] at hcount ht ⊢
      simp only [allSound_append, allSound_cons, allSound_nil, and_true, Instr.Sound]
      exact Expr.compile_sound hc hcount (targets_append ht).1

theorem FireStmt.emit_sound (hmade : c.Made) (f : FireStmt) :
    EmitsSound c count target exit next fun _ s => f.emit c s := by
  intro a s h hcount ht
  obtain ⟨firing, args, hf, ha, he | ⟨clause, updater, rest, -, hu, hr, he⟩⟩ := FireStmt.emit_inv h
  all_goals
    obtain ⟨function, hfind, -, rfl⟩ := FireStmt.resolve_inv hf
    have hlt := Table.at?_lt (hmade.firing_at? hfind)
  · simp only [he.2, Emitted.complete, Fragment.instrs_ofInstrs] at hcount ht ⊢
    simp only [allSound_append, allSound_cons, allSound_nil, and_true, Instr.Sound]
    exact ⟨Expr.compileAll_sound ha hcount (targets_append ht).1, hlt⟩
  · obtain ⟨r, hl, -⟩ := UpdaterClause.resolve_inv hu
    simp only [he, Emitted.complete, Fragment.instrs_ofInstrs] at hcount ht ⊢
    obtain ⟨hta, htr⟩ := targets_append ht
    simp only [allSound_append, allSound_cons, allSound_nil, and_true, Instr.Sound]
    exact ⟨Expr.compileAll_sound ha hcount hta,
      Expr.compileAll_sound hr hcount (targets_append htr).1,
      hlt, Table.indexOf?_lt (Table.lookup?_eq_some.1 hl).1⟩

theorem emitIf_sound (hyes : EmitsSound c count target exit next yes)
    (hgrow : ∀ a (s : ScopeStack), s.Grows (yes a s).scopes) :
    EmitsSound c count target exit next (emitIf c condition yes) := by
  intro a s h hcount ht
  obtain ⟨test, y, hc, rfl, hy, he⟩ := emitIf_inv h
  rw [he] at hcount ht ⊢
  simp only [Emitted.after, Fragment.instrs_append, Fragment.instrs_ofInstrs] at hcount ht ⊢
  obtain ⟨htest, hbody⟩ := targets_append ht
  have htarget := hbody _ (end_mem_bounds _ _)
  simp only [Fragment.sizeOf_instrs] at htarget
  simp only [allSound_append, allSound_cons, allSound_nil, and_true, sizeOf_append, sizeOf_cons,
    sizeOf_nil, size_branchIfZero, Nat.add_zero, ← Nat.add_assoc] at htarget hbody ⊢
  refine ⟨⟨Expr.compile_sound hc ?_ (targets_append htest).1, htarget⟩, hyes _ s hy hcount hbody⟩
  exact (hgrow _ s).numbers.length_le.trans hcount

theorem emitIfElse_sound (hyes : EmitsSound c count target exit next yes)
    (hno : EmitsSound c count target exit next no)
    (hgrowYes : ∀ a (s : ScopeStack), s.Grows (yes a s).scopes)
    (hgrowNo : ∀ a (s : ScopeStack), s.Grows (no a s).scopes) :
    EmitsSound c count target exit next (emitIfElse c condition yes no) := by
  intro a s h hcount ht
  obtain ⟨test, y, n, other, hc, rfl, hy, rfl, rfl, hn, he⟩ := emitIfElse_inv h
  rw [he] at hcount ht ⊢
  simp only [Emitted.after, Fragment.instrs_append, Fragment.instrs_ofInstrs] at hcount ht ⊢
  obtain ⟨ht, helse⟩ := targets_append ht
  obtain ⟨ht, -⟩ := targets_append ht
  obtain ⟨htest, hthen⟩ := targets_append ht
  have hother := helse _ (start_mem_bounds _ _)
  have hend := helse _ (end_mem_bounds _ _)
  simp only [Fragment.sizeOf_instrs] at hend
  simp only [allSound_append, allSound_cons, allSound_nil, and_true, sizeOf_append, sizeOf_cons,
    sizeOf_nil, size_branchIfZero, size_jump, Fragment.sizeOf_instrs, Nat.add_zero,
    ← Nat.add_assoc] at hother hend hthen helse ⊢
  have hcountYes := (hgrowNo _ _).numbers.length_le.trans hcount
  refine ⟨⟨⟨⟨Expr.compile_sound hc ?_ (targets_append htest).1, hother⟩,
    hyes _ s hy hcountYes hthen⟩, hend⟩, hno _ _ hn hcount helse⟩
  exact (hgrowYes _ s).numbers.length_le.trans hcountYes

theorem loopTest_sound {test : Nat → List Instr} (h : loopTest c s condition? = .ok test)
    (hcount : s.numbers.length ≤ count) (hexit : target exit)
    (ht : ∀ b ∈ bounds a (test exit), target b) : AllSound c count target a (test exit) := by
  cases condition? with
  | none =>
    obtain rfl := Except.ok.inj h
    exact allSound_nil
  | some e =>
    obtain ⟨code, hc, rfl⟩ := map_eq_ok.1 h
    simp only [allSound_append, allSound_cons, allSound_nil, and_true]
    exact ⟨Expr.compile_sound hc hcount (targets_append ht).1, hexit⟩

theorem loopUpdate_sound (h : loopUpdate c s update? = .ok code)
    (hcount : s.numbers.length ≤ count) (ht : ∀ b ∈ bounds a code, target b) :
    AllSound c count target a code := by
  cases update? with
  | none =>
    obtain rfl := Except.ok.inj h
    exact allSound_nil
  | some e =>
    obtain ⟨code, hc, rfl⟩ := map_eq_ok.1 h
    simp only [allSound_append, allSound_cons, allSound_nil, and_true]
    exact ⟨Expr.compile_sound hc hcount (targets_append ht).1, trivial⟩

theorem emitLoop_sound
    (hbody : ∀ exit next, target exit → target next → EmitsSound c count target exit next body)
    (hgrow : ∀ a (s : ScopeStack), s.Grows (body a s).scopes) :
    EmitsSound c count target exit next (emitLoop c condition? update? body) := by
  intro a s h hcount ht
  obtain ⟨test, update, start, b, exit', htest, hupdate, hstart, rfl, hb, hexit, he⟩ :=
    emitLoop_inv h
  rw [he] at hcount ht ⊢
  simp only [Fragment.instrs_append, Fragment.instrs_ofInstrs, Fragment.instrs_close] at hcount ht ⊢
  have hcount' := (hgrow start s).numbers.length_le.trans hcount
  have hnext := ht _ (start_mem_bounds _ _)
  have hout := ht _ (end_mem_bounds _ _)
  obtain ⟨ht, -⟩ := targets_append ht
  obtain ⟨ht, htbody⟩ := targets_append ht
  obtain ⟨httest, htupdate⟩ := targets_append ht
  have hsize := sizeOf_loopTest htest exit'
  simp only [allSound_append, allSound_cons, allSound_nil, and_true, sizeOf_append, sizeOf_cons,
    sizeOf_nil, size_jump, Fragment.sizeOf_instrs, Nat.add_zero, ← Nat.add_assoc, hsize, ← hstart,
    ← hexit] at hout htbody htupdate ⊢
  exact ⟨⟨⟨loopTest_sound htest hcount' hout httest, loopUpdate_sound hupdate hcount' htupdate⟩,
    hbody _ _ hout hnext _ s hb hcount htbody⟩, hnext⟩

theorem Emitted.andThen_sound {first rest : Nat → ScopeStack → Emitted}
    (hfirst : EmitsSound c count target exit next first)
    (hrest : EmitsSound c count target exit next rest)
    (hgrow : ∀ a (s : ScopeStack), s.Grows (rest a s).scopes) :
    EmitsSound c count target exit next fun a s => (first a s).andThen a rest := by
  intro a s h hcount ht
  obtain ⟨h₁, h₂, he⟩ := Emitted.andThen_inv h
  simp only [he, Emitted.after, Fragment.instrs_append] at hcount ht ⊢
  obtain ⟨ht₁, ht₂⟩ := targets_append ht
  simp only [Fragment.sizeOf_instrs, allSound_append] at ht₂ ⊢
  exact ⟨hfirst a s h₁ ((hgrow _ _).numbers.length_le.trans hcount) ht₁,
    hrest _ _ h₂ hcount ht₂⟩

mutual

/-- **The code of a statement is sound.** -/
theorem Stmt.emit_sound (hmade : c.Made) (stmt : Stmt) {inLoop : Bool} {exit next : Nat}
    (hloop : inLoop = true → target exit ∧ target next) :
    EmitsSound c count target exit next fun a s => stmt.emit c inLoop a s := by
  cases stmt with
  | expr e _ =>
    intro a s h hcount ht
    obtain ⟨code, hc, he⟩ := Emitted.ofExcept_inv h
    simp only [Stmt.emit, he, Emitted.complete, Fragment.instrs_ofInstrs] at hcount ht ⊢
    simp only [allSound_append, allSound_cons, allSound_nil, and_true]
    exact ⟨Expr.compile_sound hc hcount (targets_append ht).1, trivial⟩
  | var decl _ => exact decl.emit_sound
  | ref name _ =>
    intro a s h hcount ht
    simp only [Stmt.emit] at h ht ⊢
    split at h
    · cases h
    · exact allSound_nil
  | ret value? _ =>
    intro a s h hcount ht
    obtain ⟨code, hc, he⟩ := Emitted.ofExcept_inv h
    simp only [Stmt.emit, he, Emitted.complete, Fragment.instrs_ofInstrs] at hcount ht ⊢
    simp only [allSound_append, allSound_cons, allSound_nil, and_true]
    exact ⟨Expr.compileOrZero_sound hc hcount (targets_append ht).1, trivial⟩
  | leaveLoop _ =>
    intro a s h hcount ht
    simp only [Stmt.emit] at h ht ⊢
    split at h
    · next hin => simpa [hin, Fragment.instrs, Item.closed, Instr.Sound] using (hloop hin).1
    · cases h
  | continueLoop _ =>
    intro a s h hcount ht
    simp only [Stmt.emit] at h ht ⊢
    split at h
    · next hin => simpa [hin, Fragment.instrs, Item.closed, Instr.Sound] using (hloop hin).2
    · cases h
  | block body _ => exact Stmt.emitAll_sound hmade body hloop
  | ifThen condition yes _ =>
    exact emitIf_sound (yes.emit_sound hmade hloop) (yes.emit_grows inLoop)
  | ifElse condition yes no _ =>
    exact emitIfElse_sound (yes.emit_sound hmade hloop) (no.emit_sound hmade hloop)
      (yes.emit_grows inLoop) (no.emit_grows inLoop)
  | whileLoop condition body _ =>
    exact emitLoop_sound (fun _ _ hexit hnext => body.emit_sound hmade fun _ => ⟨hexit, hnext⟩)
      (body.emit_grows true)
  | forLoop init? condition? update? body _ =>
    exact Emitted.andThen_sound (ForInit.emit_sound init?)
      (emitLoop_sound (fun _ _ hexit hnext => body.emit_sound hmade fun _ => ⟨hexit, hnext⟩)
        (body.emit_grows true))
      fun _ _ => emitLoop_grows (body.emit_grows true)
  | wait ticks _ =>
    intro a s h hcount ht
    obtain ⟨code, hc, he⟩ := Emitted.ofExcept_inv h
    simp only [Stmt.emit, he, Emitted.complete, Fragment.instrs_ofInstrs] at hcount ht ⊢
    simp only [allSound_append, allSound_cons, allSound_nil, and_true]
    exact ⟨Expr.compile_sound hc hcount (targets_append ht).1, trivial⟩
  | fire request => exact request.emit_sound hmade

theorem Stmt.emitAll_sound (hmade : c.Made) (statements : List Stmt) {inLoop : Bool}
    {exit next : Nat} (hloop : inLoop = true → target exit ∧ target next) :
    EmitsSound c count target exit next fun a s => Stmt.emitAll c inLoop statements a s := by
  cases statements with
  | nil => exact fun _ _ _ _ _ => allSound_nil
  | cons stmt rest =>
    exact Emitted.andThen_sound (stmt.emit_sound hmade hloop)
      (Stmt.emitAll_sound hmade rest hloop) (Stmt.emitAll_grows rest inLoop)

end

/-- The instructions of a declaration's body. -/
def Decl.instrs (c : Catalog) (d : Decl) (s : ScopeStack) : List Instr :=
  match d.header with
  | .ok header => (Stmt.emitAll c false d.body 0 (header :: s)).code.instrs 0 0
  | .error _ => []

/-- **Compiled code is sound.** It is the words of instructions all of which are sound, the targets
being the addresses at which an instruction stands, and the end. -/
theorem Decl.compile_sound (hmade : c.Made) {d : Decl} {r : Routine} {s s' : ScopeStack}
    (h : d.compile c s = (.ok r, s')) :
    r.code = .ofList ((d.instrs c s).flatMap Instr.words) ∧
      AllSound c r.variableCount (· ∈ bounds 0 (d.instrs c s)) 0 (d.instrs c s) := by
  obtain ⟨header, r₀, hheader, herror, hscopes, -, -, rfl⟩ := Decl.compile_inv h
  simp only [Decl.instrs, hheader]
  refine ⟨congrArg Code.ofList (Fragment.words_eq _), ?_⟩
  refine Stmt.emitAll_sound hmade d.body (by simp) 0 (header :: s) herror ?_ fun b hb => hb
  rw [hscopes]
  rfl

/-- A declaration's body becomes instructions, and none of its jumps is left open. -/
def Decl.Emits (c : Catalog) (d : Decl) (code : List Instr) : Prop :=
  ∃ header, d.header = .ok header ∧ (Stmt.emitAll c false d.body 0 [header]).code = .ofInstrs code

/-- **Compiled code has no open jumps.** If one were left, its target could be anything, and the
code would still be sound. -/
theorem Decl.compile_emits (hmade : c.Made) {d : Decl} {r : Routine} {s' : ScopeStack}
    (h : d.compile c [] = (.ok r, s')) : d.Emits c (d.instrs c []) := by
  obtain ⟨header, r₀, hheader, herror, hscopes, -⟩ := Decl.compile_inv h
  refine ⟨header, hheader, ?_⟩
  simp only [Decl.instrs, hheader]
  generalize hf : (Stmt.emitAll c false d.body 0 [header]).code = f
  let far := f.size + 1
  have hsound : AllSound c r₀.numbers.length (· ∈ bounds 0 (f.instrs far far)) 0
      (f.instrs far far) := by
    have hbody : EmitsSound c r₀.numbers.length (· ∈ bounds 0 (f.instrs far far)) far far
        fun a s => Stmt.emitAll c false d.body a s := Stmt.emitAll_sound hmade d.body (by simp)
    have hall := hbody 0 [header] herror
    rw [hf, hscopes] at hall
    exact hall (by simp [ScopeStack.numbers]) fun b hb => hb
  have hclosed : .jump far ∉ f.instrs far far := by
    intro hmem
    obtain ⟨b, hb⟩ := exists_mem_placed 0 hmem
    have hle := (le_of_mem_bounds (hsound _ hb)).2
    rw [Fragment.sizeOf_instrs] at hle
    omega
  refine (List.map_id' f).symm.trans ?_
  rw [Fragment.ofInstrs, Fragment.instrs, List.map_map]
  refine List.map_congr_left fun item hitem => ?_
  have hne : item.closed far far ≠ .jump far := fun heq => hclosed (heq ▸ List.mem_map_of_mem hitem)
  cases item with
  | instr i => rfl
  | leave | again => exact absurd rfl hne

/-! ## Small numbers -/

/-- No number in the catalog is above `2 ^ 24`. -/
structure Catalog.Small (c : Catalog) : Prop where
  properties : c.types.propertyNames.length ≤ 0x1000001
  functions : c.functions.size ≤ 0x1000001
  delegates : c.delegates.size ≤ 0x1000001
  firing : c.firing.size ≤ 0x1000001
  bulletUpdaters : c.bulletUpdaters.size ≤ 0x1000001

theorem Catalog.Small.of_grows {c c' : Catalog} (h : c'.Small) (hgrows : c.Grows c') : c.Small where
  properties := hgrows.types ▸ h.properties
  functions := (hgrows.routines .function).size.trans h.functions
  delegates := hgrows.delegates ▸ h.delegates
  firing := hgrows.firing ▸ h.firing
  bulletUpdaters := (hgrows.routines .bulletUpdater).size.trans h.bulletUpdaters

/-- A routine has no address and no slot above `2 ^ 24`. -/
structure Routine.Small (r : Routine) : Prop where
  code : r.code.size ≤ 0x1000000
  variableCount : r.variableCount ≤ 0x1000001

/-- A sound instruction is written exactly, as long as no number is above `2 ^ 24`. -/
theorem Instr.Sound.fits {i : Instr} (h : i.Sound c count target a) (hc : c.Small)
    (hcount : count ≤ 0x1000001) (ht : ∀ t, target t → t ≤ 0x1000000)
    (ha : a + i.size ≤ 0x1000000) : i.Fits := by
  cases i with
  | jump t | branchIfZero t => exact ht t h
  | jumpBy offset | branchIfZeroBy offset =>
    obtain ⟨t, htt, heq⟩ := h
    have := ht t htt
    simp only [Instr.Fits, Instr.size, Instr.opcode, Opcode.operandCount] at ha ⊢
    omega
  | getVariable slot | setVariable slot => exact Nat.le_of_lt_succ (Nat.lt_of_lt_of_le h hcount)
  | getProperty property | setProperty property =>
    exact Nat.le_of_lt_succ (Nat.lt_of_lt_of_le h hc.properties)
  | call function => exact Nat.le_of_lt_succ (Nat.lt_of_lt_of_le h hc.functions)
  | callDelegate delegate => exact Nat.le_of_lt_succ (Nat.lt_of_lt_of_le h hc.delegates)
  | fire firing => exact Nat.le_of_lt_succ (Nat.lt_of_lt_of_le h hc.firing)
  | fireWith firing updater =>
    exact ⟨Nat.le_of_lt_succ (Nat.lt_of_lt_of_le h.1 hc.firing),
      Nat.le_of_lt_succ (Nat.lt_of_lt_of_le h.2 hc.bulletUpdaters)⟩
  | push _ | pop | negate | not | binary _ | wait | ret => trivial

/-- The code of a routine has the size of its instructions. -/
theorem Decl.size_code (hmade : c.Made) {d : Decl} {r : Routine} {s s' : ScopeStack}
    (h : d.compile c s = (.ok r, s')) : r.code.size = Instr.sizeOf (d.instrs c s) := by
  rw [(Decl.compile_sound hmade h).1, Code.size_ofList, length_flatMap_words]

/-- The instructions of a small routine are written exactly. -/
theorem Decl.compile_fits (hmade : c.Made) (hc : c.Small) {d : Decl} {r : Routine}
    {s s' : ScopeStack} (h : d.compile c s = (.ok r, s')) (hr : r.Small) :
    ∀ i ∈ d.instrs c s, i.Fits := by
  have hsound := (Decl.compile_sound hmade h).2
  have hsize := hr.code
  rw [Decl.size_code hmade h] at hsize
  intro i hi
  obtain ⟨b, hb⟩ := exists_mem_placed 0 hi
  have hle := (le_of_mem_placed hb).2
  refine (hsound _ hb).fits hc hr.variableCount (fun t ht => ?_) (by simp only at *; omega)
  have := le_of_mem_bounds ht
  omega

/-- **A small routine is read back as its instructions.** -/
theorem Decl.compile_allStand (hmade : c.Made) (hc : c.Small) {d : Decl} {r : Routine}
    {s s' : ScopeStack} (h : d.compile c s = (.ok r, s')) (hr : r.Small) :
    AllStand r.code.words 0 (d.instrs c s) := by
  have := allStand_of_fits (Decl.compile_fits hmade hc h hr) [] []
  rw [(Decl.compile_sound hmade h).1]
  simpa [Code.ofList] using this

end Danmaku
