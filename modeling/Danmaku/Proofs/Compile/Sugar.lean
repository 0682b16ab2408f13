import Danmaku.Proofs.Compile.Success

/-!
# What is short for something longer

Some of what a script may say is short for something longer: an assignment combined with an
operator, a step by one, a variable without a value, a return without a value, and a counting loop
with a condition. `Stmt.expand` writes all of it out, and then none is left
(`Stmt.isPlain_expand`).

It makes no difference to the code: at every address the expansion is compiled to the same items,
leaves the same scopes and fails with the same error as the statement itself (`Stmt.emit_expand`).
The compiler has code of its own for the short forms, so this is not by definition. A combined
assignment reads its target where the expansion has it as an operand
(`Expr.compile_of_place`), and the update of a counting loop is compiled with its test, where the
expansion has it in the body (`emitLoop_update`).
-/

namespace Danmaku

/-! ## Expressions -/

namespace Expr

mutual

/-- The expression with everything that is short for something longer written out. What is new in it
has the position of what it stands for. -/
def expand : Expr → Expr
  | num value p => num value p
  | var name p => var name p
  | prop name p => prop name p
  | binary op left right p => binary op left.expand right.expand p
  | unary op operand p => unary op operand.expand p
  | assign .plain target value p => assign .plain target.expand value.expand p
  | assign (.combined op) target value p =>
    assign .plain target.expand (binary op target.expand value.expand p) p
  | step op target p => assign .plain target.expand (binary op.operator target.expand (num 1 p) p) p
  | choose condition yes no p => choose condition.expand yes.expand no.expand p
  | call callee arguments p => call callee (expandAll arguments) p

/-- Several expressions, written out. -/
def expandAll : List Expr → List Expr
  | [] => []
  | e :: rest => e.expand :: expandAll rest

end

mutual

/-- Whether nothing in the expression is short for something longer. -/
def isPlain : Expr → Bool
  | num _ _ | var _ _ | prop _ _ => true
  | binary _ left right _ => left.isPlain && right.isPlain
  | unary _ operand _ => operand.isPlain
  | assign .plain target value _ => target.isPlain && value.isPlain
  | assign (.combined _) _ _ _ | step _ _ _ => false
  | choose condition yes no _ => condition.isPlain && yes.isPlain && no.isPlain
  | call _ arguments _ => allPlain arguments

/-- Whether nothing in several expressions is. -/
def allPlain : List Expr → Bool
  | [] => true
  | e :: rest => e.isPlain && allPlain rest

end

/-- An expression written out, or zero in the place of a missing one. -/
def expandOrZero (position : Position) : Option Expr → Expr
  | some e => e.expand
  | none => num 0 position

mutual

theorem isPlain_expand : (e : Expr) → e.expand.isPlain = true
  | num _ _ | var _ _ | prop _ _ => rfl
  | binary _ left right _ => by
    rw [expand, isPlain, left.isPlain_expand, right.isPlain_expand]
    rfl
  | unary _ operand _ => by rw [expand, isPlain, operand.isPlain_expand]
  | assign .plain target value _ => by
    rw [expand, isPlain, target.isPlain_expand, value.isPlain_expand]
    rfl
  | assign (.combined _) target value _ => by
    rw [expand, isPlain, isPlain, target.isPlain_expand, value.isPlain_expand]
    rfl
  | step _ target _ => by
    rw [expand, isPlain, isPlain, isPlain, target.isPlain_expand]
    rfl
  | choose condition yes no _ => by
    rw [expand, isPlain, condition.isPlain_expand, yes.isPlain_expand, no.isPlain_expand]
    rfl
  | call _ arguments _ => by rw [expand, isPlain, allPlain_expandAll arguments]

theorem allPlain_expandAll : (es : List Expr) → allPlain (expandAll es) = true
  | [] => rfl
  | e :: rest => by
    rw [expandAll, allPlain, e.isPlain_expand, allPlain_expandAll rest]
    rfl

end

theorem isPlain_expandOrZero (position : Position) (e? : Option Expr) :
    (expandOrZero position e?).isPlain = true := by
  cases e? with
  | none => rfl
  | some e => exact e.isPlain_expand

@[simp] theorem length_expandAll (es : List Expr) : (expandAll es).length = es.length := by
  induction es with
  | nil => rfl
  | cons e es ih => rw [expandAll, List.length_cons, List.length_cons, ih]

variable {c : Catalog} {s : ScopeStack}

/-- An expression names the same place, or none, once it is written out. -/
@[simp] theorem place_expand (e : Expr) : e.expand.place c s = e.place c s := by
  cases e with
  | assign op _ _ _ => cases op <;> rfl
  | _ => rfl

/-- The code of a place reads it. -/
theorem compile_of_place {e : Expr} {place : Place} (h : e.place c s = .ok place) :
    e.compile c s = .ok [place.get] := by
  cases e with
  | var name position | prop name position => rw [compile, h]; rfl
  | _ => cases h

/-- An operator between a place and something, and the assignment of its value to the place. -/
theorem compile_assign_binary (op : BinaryOp) (target value : Expr) (p p' : Position) :
    (assign .plain target (binary op target value p') p).compile c s =
      (assign (.combined op) target value p).compile c s := by
  rw [compile, compile, compile]
  cases h : target.place c s with
  | error e => rfl
  | ok place =>
    rw [compile_of_place h]
    cases value.compile c s with
    | error e => rfl
    | ok code =>
      simp only [bind, Except.bind, pure, Except.pure, List.append_assoc, List.cons_append,
        List.nil_append]

/-- A step is an assignment combined with an operator. -/
theorem compile_step (op : StepOp) (target : Expr) (p p' : Position) :
    (step op target p).compile c s =
      (assign (.combined op.operator) target (num 1 p') p).compile c s := by
  rw [compile, compile, compile]
  cases target.place c s <;> rfl

/-- An assignment depends on the place that its target names, and on the code of its value. -/
theorem compile_assign_congr {op : AssignOp} {target target' value value' : Expr} (p : Position)
    (htarget : target'.place c s = target.place c s)
    (hvalue : value'.compile c s = value.compile c s) :
    (assign op target' value' p).compile c s = (assign op target value p).compile c s := by
  cases op with
  | plain => rw [compile, compile, htarget, hvalue]
  | combined op => rw [compile, compile, htarget, hvalue]

mutual

/-- **An expression has the same code once it is written out**, or the same error. -/
theorem compile_expand : (e : Expr) → e.expand.compile c s = e.compile c s
  | num _ _ | var _ _ | prop _ _ => rfl
  | binary _ left right _ => by
    rw [expand, compile, compile, left.compile_expand, right.compile_expand]
  | unary _ operand _ => by simp only [expand, compile, operand.compile_expand]
  | assign .plain target value p =>
    compile_assign_congr p target.place_expand value.compile_expand
  | assign (.combined op) target value p => by
    rw [expand, compile_assign_binary]
    exact compile_assign_congr p target.place_expand value.compile_expand
  | step op target p => by
    rw [expand, compile_assign_binary, compile_step op target p p]
    exact compile_assign_congr p target.place_expand rfl
  | choose condition yes no _ => by
    rw [expand, compile, compile, condition.compile_expand, yes.compile_expand, no.compile_expand]
  | call _ arguments _ => by
    rw [expand, compile, compile, length_expandAll, compileAll_expandAll arguments]

theorem compileAll_expandAll : (es : List Expr) →
    compileAll c s (expandAll es) = compileAll c s es
  | [] => rfl
  | e :: rest => by
    rw [expandAll, compileAll, compileAll, e.compile_expand, compileAll_expandAll rest]

end

theorem compile_expandOrZero (position : Position) (e? : Option Expr) :
    (expandOrZero position e?).compile c s = compileOrZero c s e? := by
  cases e? with
  | none => rfl
  | some e => exact e.compile_expand

end Expr

/-! ## What is laid out one after the other -/

namespace Emitted

@[simp] theorem andThen_complete (e : Emitted) (a : Nat) :
    e.andThen a (fun _ s => complete [] s) = e := by
  obtain ⟨code, scopes, error?⟩ := e
  cases error? with
  | some error => rfl
  | none =>
    rw [andThen]
    simp only [after, complete, Fragment.ofInstrs, List.map_nil, List.append_nil]

end Emitted

/-- The update of a loop may as well stand at the start of its body. -/
theorem emitLoop_update (c : Catalog) (condition? : Option Expr) (update : Expr)
    (body : Nat → ScopeStack → Emitted) (address : Nat) (s : ScopeStack) :
    emitLoop c condition? (some update) body address s =
      emitLoop c condition? none
        (fun a s => (Emitted.ofExcept (update.compile c s) [.pop] s).andThen a body) address s := by
  rw [emitLoop, emitLoop]
  cases loopTest c s condition? with
  | error e => rfl
  | ok test =>
    cases hupdate : update.compile c s with
    | error e =>
      simp only [loopUpdate, hupdate, Except.map, Emitted.ofExcept, Emitted.failed,
        Emitted.andThen, Option.isSome_some, if_true, Fragment.close, List.map_nil,
        List.append_nil]
    | ok code =>
      simp only [loopUpdate, hupdate, Except.map, Emitted.ofExcept, Emitted.complete,
        Emitted.andThen, Emitted.after, Instr.sizeOf_nil, Nat.add_zero, Fragment.size_ofInstrs]
      cases (body (address + Instr.sizeOf (test 0) + Instr.sizeOf (code ++ [.pop])) s).error? with
      | some error =>
        simp only [Option.isSome_some, if_true, Fragment.close_append, Fragment.close_ofInstrs,
          Fragment.ofInstrs_append, List.append_assoc, List.append_nil]
      | none =>
        simp only [Option.isSome_none, Bool.false_eq_true, if_false, Fragment.close_append,
          Fragment.close_ofInstrs, Fragment.ofInstrs_append, Fragment.size_append,
          Fragment.size_ofInstrs, Instr.sizeOf_append, List.append_assoc, List.append_nil,
          Nat.add_assoc]

/-! ## Statements -/

/-- The declaration with a value that is written out, zero if it has none. -/
def VarDecl.expand (d : VarDecl) : VarDecl :=
  { d with value? := some (Expr.expandOrZero d.name.position d.value?) }

/-- The start of a counting loop, written out. -/
def ForInit.expand : ForInit → ForInit
  | declare decl => declare decl.expand
  | evaluate e => evaluate e.expand

/-- The start of a counting loop as a statement of its own. -/
def ForInit.stmt : ForInit → Stmt
  | declare decl => .var decl decl.name.position
  | evaluate e => .expr e e.position

/-- The request with its arguments written out. -/
def FireStmt.expand (f : FireStmt) : FireStmt :=
  { f with
    arguments := Expr.expandAll f.arguments
    updater? := f.updater?.map fun u => { u with arguments := Expr.expandAll u.arguments } }

namespace Stmt

/-- A counting loop as a loop under its condition, which starts each round with the update. -/
def asWhile (init? : Option ForInit) (condition : Expr) (update? : Option Expr) (body : Stmt)
    (p : Position) : Stmt :=
  let updates := update?.toList.map fun update => expr update update.position
  let loop := whileLoop condition (block (updates ++ [body]) p) p
  block (init?.toList.map ForInit.stmt ++ [loop]) p

mutual

/-- The statement with everything that is short for something longer written out. -/
def expand : Stmt → Stmt
  | expr e p => expr e.expand p
  | var decl p => var decl.expand p
  | ref name p => ref name p
  | ret value? p => ret (some (Expr.expandOrZero p value?)) p
  | leaveLoop p => leaveLoop p
  | continueLoop p => continueLoop p
  | block body p => block (expandAll body) p
  | ifThen condition yes p => ifThen condition.expand yes.expand p
  | ifElse condition yes no p => ifElse condition.expand yes.expand no.expand p
  | whileLoop condition body p => whileLoop condition.expand body.expand p
  | forLoop init? (some condition) update? body p =>
    asWhile (init?.map ForInit.expand) condition.expand (update?.map Expr.expand) body.expand p
  | forLoop init? none update? body p =>
    forLoop (init?.map ForInit.expand) none (update?.map Expr.expand) body.expand p
  | wait ticks p => wait ticks.expand p
  | fire request => fire request.expand

/-- Several statements, written out. -/
def expandAll : List Stmt → List Stmt
  | [] => []
  | stmt :: rest => stmt.expand :: expandAll rest

end

end Stmt

/-! ## Nothing is left -/

/-- Whether the declaration has a value, in which nothing is short for something longer. -/
def VarDecl.isPlain (d : VarDecl) : Bool := d.value?.any Expr.isPlain

/-- Whether nothing in the start of a counting loop is short for something longer. -/
def ForInit.isPlain : ForInit → Bool
  | declare decl => decl.isPlain
  | evaluate e => e.isPlain

/-- Whether nothing in the request is. -/
def FireStmt.isPlain (f : FireStmt) : Bool :=
  Expr.allPlain f.arguments && f.updater?.all fun u => Expr.allPlain u.arguments

namespace Stmt

mutual

/-- Whether nothing in the statement is short for something longer. -/
def isPlain : Stmt → Bool
  | expr e _ => e.isPlain
  | var decl _ => decl.isPlain
  | ref _ _ | leaveLoop _ | continueLoop _ => true
  | ret value? _ => value?.any Expr.isPlain
  | block body _ => allPlain body
  | ifThen condition yes _ => condition.isPlain && yes.isPlain
  | ifElse condition yes no _ => condition.isPlain && yes.isPlain && no.isPlain
  | whileLoop condition body _ => condition.isPlain && body.isPlain
  | forLoop _ (some _) _ _ _ => false
  | forLoop init? none update? body _ =>
    init?.all ForInit.isPlain && update?.all Expr.isPlain && body.isPlain
  | wait ticks _ => ticks.isPlain
  | fire request => request.isPlain

/-- Whether nothing in several statements is. -/
def allPlain : List Stmt → Bool
  | [] => true
  | stmt :: rest => stmt.isPlain && allPlain rest

end

end Stmt

theorem VarDecl.isPlain_expand (d : VarDecl) : d.expand.isPlain = true :=
  Expr.isPlain_expandOrZero d.name.position d.value?

theorem ForInit.isPlain_expand (init : ForInit) : init.expand.isPlain = true := by
  cases init with
  | declare decl => exact decl.isPlain_expand
  | evaluate e => exact e.isPlain_expand

theorem ForInit.isPlain_stmt {init : ForInit} (h : init.isPlain = true) :
    init.stmt.isPlain = true := by
  cases init with
  | declare decl => rwa [stmt, Stmt.isPlain]
  | evaluate e => rwa [stmt, Stmt.isPlain]

theorem FireStmt.isPlain_expand (f : FireStmt) : f.expand.isPlain = true := by
  rw [isPlain, expand, Expr.allPlain_expandAll]
  cases f.updater? with
  | none => rfl
  | some u => exact Expr.allPlain_expandAll u.arguments

namespace Stmt

theorem allPlain_append (stmts rest : List Stmt) :
    allPlain (stmts ++ rest) = (allPlain stmts && allPlain rest) := by
  induction stmts with
  | nil => rfl
  | cons stmt stmts ih => rw [List.cons_append, allPlain, allPlain, ih, Bool.and_assoc]

theorem isPlain_asWhile {init? : Option ForInit} {condition : Expr} {update? : Option Expr}
    {body : Stmt} (p : Position) (hinit : init?.all ForInit.isPlain = true)
    (hcondition : condition.isPlain = true) (hupdate : update?.all Expr.isPlain = true)
    (hbody : body.isPlain = true) :
    (asWhile init? condition update? body p).isPlain = true := by
  have hupdates :
      allPlain (update?.toList.map fun update => expr update update.position) = true := by
    cases update? with
    | none => rfl
    | some update => simpa [allPlain, isPlain] using hupdate
  have hinits : allPlain (init?.toList.map ForInit.stmt) = true := by
    cases init? with
    | none => rfl
    | some init => simpa [allPlain] using ForInit.isPlain_stmt hinit
  simp [asWhile, isPlain, allPlain, allPlain_append, hinits, hupdates, hcondition, hbody]

theorem all_isPlain_expand {α : Type} {isPlain : α → Bool} {expand : α → α}
    (h : ∀ a, isPlain (expand a) = true) (a? : Option α) :
    (a?.map expand).all isPlain = true := by
  cases a? with
  | none => rfl
  | some a => exact h a

mutual

/-- **Nothing is short for something longer once a statement is written out.** -/
theorem isPlain_expand : (stmt : Stmt) → stmt.expand.isPlain = true
  | expr e _ => by rw [expand, isPlain, e.isPlain_expand]
  | var decl _ => by rw [expand, isPlain, decl.isPlain_expand]
  | ref _ _ | leaveLoop _ | continueLoop _ => rfl
  | ret value? p => by rw [expand, isPlain, Option.any_some, Expr.isPlain_expandOrZero]
  | block body _ => by rw [expand, isPlain, allPlain_expandAll body]
  | ifThen condition yes _ => by
    rw [expand, isPlain, condition.isPlain_expand, yes.isPlain_expand]
    rfl
  | ifElse condition yes no _ => by
    rw [expand, isPlain, condition.isPlain_expand, yes.isPlain_expand, no.isPlain_expand]
    rfl
  | whileLoop condition body _ => by
    rw [expand, isPlain, condition.isPlain_expand, body.isPlain_expand]
    rfl
  | forLoop init? (some condition) update? body p =>
    isPlain_asWhile p (all_isPlain_expand ForInit.isPlain_expand init?) condition.isPlain_expand
      (all_isPlain_expand Expr.isPlain_expand update?) body.isPlain_expand
  | forLoop init? none update? body _ => by
    rw [expand, isPlain, all_isPlain_expand ForInit.isPlain_expand,
      all_isPlain_expand Expr.isPlain_expand, body.isPlain_expand]
    rfl
  | wait ticks _ => by rw [expand, isPlain, ticks.isPlain_expand]
  | fire request => by rw [expand, isPlain, request.isPlain_expand]

theorem allPlain_expandAll : (stmts : List Stmt) → allPlain (expandAll stmts) = true
  | [] => rfl
  | stmt :: rest => by
    rw [expandAll, allPlain, stmt.isPlain_expand, allPlain_expandAll rest]
    rfl

end

end Stmt

/-! ## The code is the same -/

variable {c : Catalog} {s : ScopeStack}

theorem VarDecl.emit_expand (d : VarDecl) : d.expand.emit c s = d.emit c s := by
  rw [emit, emit, expand]
  cases s.declareNumber d.name.name d.name.position with
  | error e => rfl
  | ok x => simp only [Expr.compileOrZero, Expr.compile_expandOrZero]

theorem ForInit.emit_expand (init? : Option ForInit) :
    emit c (init?.map ForInit.expand) s = emit c init? s := by
  cases init? with
  | none => rfl
  | some init =>
    cases init with
    | declare decl => exact decl.emit_expand
    | evaluate e => simp only [Option.map_some, expand, emit, e.compile_expand]

theorem FireStmt.emit_expand (f : FireStmt) : f.expand.emit c s = f.emit c s := by
  have hresolve : f.expand.resolve c = f.resolve c := by
    simp only [resolve, expand, functionName, Expr.length_expandAll]
  rw [emit, emit, hresolve]
  cases f.resolve c with
  | error e => rfl
  | ok firing =>
    simp only [expand, Expr.compileAll_expandAll]
    cases f.updater? with
    | none => rfl
    | some u =>
      have hclause : UpdaterClause.resolve c { u with arguments := Expr.expandAll u.arguments } =
          u.resolve c := by
        simp only [UpdaterClause.resolve, Expr.length_expandAll]
      simp only [Option.map_some, hclause, Expr.compileAll_expandAll]

theorem loopTest_expand (condition? : Option Expr) :
    loopTest c s (condition?.map Expr.expand) = loopTest c s condition? := by
  cases condition? with
  | none => rfl
  | some e => simp only [Option.map_some, loopTest, e.compile_expand]

theorem loopUpdate_expand (update? : Option Expr) :
    loopUpdate c s (update?.map Expr.expand) = loopUpdate c s update? := by
  cases update? with
  | none => rfl
  | some e => simp only [Option.map_some, loopUpdate, e.compile_expand]

namespace Stmt

variable (inLoop : Bool) (address : Nat)

theorem emitAll_singleton (stmt : Stmt) :
    emitAll c inLoop [stmt] address s = stmt.emit c inLoop address s :=
  Emitted.andThen_complete _ _

theorem emit_stmt (init : ForInit) :
    init.stmt.emit c inLoop address s = ForInit.emit c (some init) s := by
  cases init <;> rfl

/-- **A counting loop is compiled like a loop under its condition.** -/
theorem emit_asWhile (init? : Option ForInit) (condition : Expr) (update? : Option Expr)
    (body : Stmt) (p : Position) :
    (asWhile init? condition update? body p).emit c inLoop address s =
      (forLoop init? (some condition) update? body p).emit c inLoop address s := by
  let updates : List Stmt := update?.toList.map fun update => expr update update.position
  have hloop (a : Nat) (s : ScopeStack) :
      (whileLoop condition (block (updates ++ [body]) p) p).emit c inLoop a s =
        emitLoop c (some condition) update? (fun a s => body.emit c true a s) a s := by
    cases update? with
    | none =>
      simp only [updates, emit, Option.toList_none, List.map_nil, List.nil_append,
        emitAll_singleton]
    | some update =>
      rw [emitLoop_update]
      simp only [updates, emit, Option.toList_some, List.map_singleton, List.singleton_append,
        emitAll, Emitted.andThen_complete]
  rw [asWhile, emit, emit]
  cases init? with
  | none => exact (emitAll_singleton inLoop address _).trans (hloop address s)
  | some init =>
    simp only [Option.toList_some, List.map_singleton, List.singleton_append, emitAll, emit_stmt,
      Emitted.andThen_complete, updates, hloop]

/-- A counting loop has the same code once all its parts are written out. -/
theorem emit_forLoop_expand (init? : Option ForInit) (condition? update? : Option Expr)
    (p : Position) {body : Stmt}
    (hbody : ∀ address s, body.expand.emit c true address s = body.emit c true address s) :
    (forLoop (init?.map ForInit.expand) (condition?.map Expr.expand) (update?.map Expr.expand)
      body.expand p).emit c inLoop address s =
      (forLoop init? condition? update? body p).emit c inLoop address s := by
  simp only [emit, ForInit.emit_expand, emitLoop, loopTest_expand, loopUpdate_expand, hbody]

mutual

/-- **A statement has the same code once it is written out**, or the same error. -/
theorem emit_expand (inLoop : Bool) : (stmt : Stmt) → ∀ address s,
    stmt.expand.emit c inLoop address s = stmt.emit c inLoop address s
  | expr e _, _, _ => by simp only [expand, emit, e.compile_expand]
  | var decl _, _, _ => by simp only [expand, emit, decl.emit_expand]
  | ref _ _, _, _ | leaveLoop _, _, _ | continueLoop _, _, _ => rfl
  | ret value? p, _, _ => by
    simp only [expand, emit, Expr.compileOrZero, Expr.compile_expandOrZero]
  | block body _, _, _ => by simp only [expand, emit, emitAll_expandAll inLoop body]
  | ifThen condition yes _, _, _ => by
    simp only [expand, emit, emitIf, condition.compile_expand, yes.emit_expand inLoop]
  | ifElse condition yes no _, _, _ => by
    simp only [expand, emit, emitIfElse, condition.compile_expand, yes.emit_expand inLoop,
      no.emit_expand inLoop]
  | whileLoop condition body _, _, _ => by
    simp only [expand, emit, emitLoop, loopTest, condition.compile_expand, body.emit_expand true]
  | forLoop init? (some condition) update? body p, address, _ =>
    (emit_asWhile inLoop address _ _ _ _ p).trans <|
      emit_forLoop_expand inLoop address init? (some condition) update? p (body.emit_expand true)
  | forLoop init? none update? body p, address, _ =>
    emit_forLoop_expand inLoop address init? none update? p (body.emit_expand true)
  | wait ticks _, _, _ => by simp only [expand, emit, ticks.compile_expand]
  | fire request, _, _ => by simp only [expand, emit, request.emit_expand]

theorem emitAll_expandAll (inLoop : Bool) : (stmts : List Stmt) → ∀ address s,
    emitAll c inLoop (expandAll stmts) address s = emitAll c inLoop stmts address s
  | [], _, _ => rfl
  | stmt :: rest, _, _ => by
    simp only [expandAll, emitAll, stmt.emit_expand inLoop, emitAll_expandAll inLoop rest]

end

/-- **Sugar compiles to its expansion**: in every block, inside and outside a loop, a statement and
what it is short for write the same words, leave the same scopes and open jumps, and fail with the
same error; and in its expansion nothing is short for something longer. -/
theorem write_expand (c : Catalog) (stmt : Stmt) (block : Code) (jumps? : Option LoopJumps)
    (s : ScopeStack) :
    stmt.expand.isPlain = true ∧
      write c [stmt.expand] block jumps? s = write c [stmt] block jumps? s := by
  refine ⟨stmt.isPlain_expand, ?_⟩
  rw [write, write, emitAll_singleton, emitAll_singleton, stmt.emit_expand]

end Stmt

/-- The declaration with its statements written out. -/
def Decl.expand (d : Decl) : Decl := { d with body := Stmt.expandAll d.body }

/-- **So a declaration may be written out as well** before it is compiled. -/
theorem Decl.compile_expand (c : Catalog) (d : Decl) (s : ScopeStack) :
    d.expand.compile c s = d.compile c s := by
  have hheader : d.expand.header = d.header := rfl
  rw [compile, compile, hheader]
  simp only [expand, Stmt.emitAll_expandAll]

end Danmaku
