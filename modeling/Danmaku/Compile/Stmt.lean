import Danmaku.Compile.Fragment

/-!
# Code of statements

The code of a statement leaves the stack as it found it. Its jumps are absolute, so it is made for
the address at which it is to stand.

A loop tests its condition, updates, runs its body and starts again: the update of a counting loop
comes before the body. An open jump of the body that leaves the loop goes to its end, one that goes
on goes to the test.

If something is wrong, compilation stops there. The code so far remains, with zeros for the targets
that are not known yet.
-/

namespace Danmaku

/-- The code of a variable's declaration. The name is declared before its value is looked at, so the
value may refer to it. -/
def VarDecl.emit (c : Catalog) (d : VarDecl) (s : ScopeStack) : Emitted :=
  match s.declareNumber d.name.name d.name.position with
  | .error error => .failed error s
  | .ok (s, slot) => .ofExcept (Expr.compileOrZero c s d.value?) [.setVariable slot, .pop] s

/-- The code of the start of a counting loop. -/
def ForInit.emit (c : Catalog) (init? : Option ForInit) (s : ScopeStack) : Emitted :=
  match init? with
  | none => .complete [] s
  | some (.declare decl) => decl.emit c s
  | some (.evaluate e) => .ofExcept (e.compile c s) [.pop] s

/-- The number of a bullet updater, which has to take as many arguments as it is given. -/
def UpdaterClause.resolve (c : Catalog) (u : UpdaterClause) : Except CompileError Nat :=
  match c.bulletUpdaters.lookup? u.name.name with
  | none => .error (.unknownUpdater u.name.name u.name.position)
  | some (index, r) => do
    checkArity "updater" u.name.name r.parameterCount u.arguments.length u.position
    return index

/-- The number of the firing function, which has to take as many arguments as it is given. -/
def FireStmt.resolve (c : Catalog) (f : FireStmt) : Except CompileError Nat :=
  match c.firing.find? (f.typeName, f.functionName) with
  | none => .error (.unknownFiring f.typeName f.functionName f.position)
  | some function => do
    checkArity "firing function" (FiringFunction.fullName f.typeName f.functionName)
      function.arity f.arguments.length f.position
    return function.index

/-- The code of a request to fire. Everything that is named is looked up before any argument is
compiled. -/
def FireStmt.emit (c : Catalog) (f : FireStmt) (s : ScopeStack) : Emitted :=
  match f.resolve c with
  | .error error => .failed error s
  | .ok firing =>
    match f.updater? with
    | none => .ofExcept (Expr.compileAll c s f.arguments) [.fire firing] s
    | some clause =>
      match clause.resolve c with
      | .error error => .failed error s
      | .ok updater =>
        match Expr.compileAll c s f.arguments with
        | .error error => .failed error s
        | .ok arguments =>
          Emitted.after (.ofInstrs arguments) <|
            .ofExcept (Expr.compileAll c s clause.arguments) [.fireWith firing updater] s

/-- A statement under a condition, at an address. -/
def emitIf (c : Catalog) (condition : Expr) (yes : Nat → ScopeStack → Emitted) (address : Nat)
    (s : ScopeStack) : Emitted :=
  match condition.compile c s with
  | .error error => .failed error s
  | .ok test =>
    let start := address + Instr.sizeOf test + (Instr.branchIfZero 0).size
    let yes := yes start s
    let target := if yes.error?.isSome then 0 else start + yes.code.size
    yes.after (.ofInstrs (test ++ [.branchIfZero target]))

/-- One of two statements, at an address. -/
def emitIfElse (c : Catalog) (condition : Expr) (yes no : Nat → ScopeStack → Emitted)
    (address : Nat) (s : ScopeStack) : Emitted :=
  match condition.compile c s with
  | .error error => .failed error s
  | .ok test =>
    let start := address + Instr.sizeOf test + (Instr.branchIfZero 0).size
    let yes := yes start s
    if yes.error?.isSome then yes.after (.ofInstrs (test ++ [.branchIfZero 0]))
    else
      let other := start + yes.code.size + (Instr.jump 0).size
      let no := no other yes.scopes
      let target := if no.error?.isSome then 0 else other + no.code.size
      no.after (.ofInstrs (test ++ [.branchIfZero other]) ++ yes.code ++ .ofInstrs [.jump target])

/-- The code of a loop's condition, up to the branch out of the loop, once its target is known.
Without a condition there is no branch. -/
def loopTest (c : Catalog) (s : ScopeStack) :
    Option Expr → Except CompileError (Nat → List Instr)
  | none => .ok fun _ => []
  | some e => (e.compile c s).map fun test exit => test ++ [.branchIfZero exit]

/-- The code of a loop's update. -/
def loopUpdate (c : Catalog) (s : ScopeStack) : Option Expr → Except CompileError (List Instr)
  | none => .ok []
  | some e => (e.compile c s).map (· ++ [.pop])

/-- A loop at an address. -/
def emitLoop (c : Catalog) (condition? update? : Option Expr)
    (body : Nat → ScopeStack → Emitted) (address : Nat) (s : ScopeStack) : Emitted :=
  match loopTest c s condition? with
  | .error error => .failed error s
  | .ok test =>
    match loopUpdate c s update? with
    | .error error => ⟨.ofInstrs (test 0), s, some error⟩
    | .ok update =>
      let start := address + Instr.sizeOf (test 0) + Instr.sizeOf update
      let body := body start s
      if body.error?.isSome then
        { body with code := .ofInstrs (test 0 ++ update) ++ body.code.close 0 0 }
      else
        let exit := start + body.code.size + (Instr.jump 0).size
        { code := .ofInstrs (test exit ++ update) ++ body.code.close exit address ++
            .ofInstrs [.jump address]
          scopes := body.scopes }

namespace Stmt

mutual

/-- The code of a statement at an address. The flag tells whether a loop is open around it. -/
def emit (c : Catalog) (inLoop : Bool) : Stmt → Nat → ScopeStack → Emitted
  | expr e _, _, s => .ofExcept (e.compile c s) [.pop] s
  | var decl _, _, s => decl.emit c s
  | ref name _, _, s =>
    match s.declareHandle name.name name.position with
    | .error error => .failed error s
    | .ok (s, _) => .complete [] s
  | ret value? _, _, s => .ofExcept (Expr.compileOrZero c s value?) [.ret] s
  | leaveLoop position, _, s =>
    if inLoop then ⟨[.leave], s, none⟩ else .failed (.breakOutsideLoop position) s
  | continueLoop position, _, s =>
    if inLoop then ⟨[.again], s, none⟩ else .failed (.continueOutsideLoop position) s
  | block body _, address, s => emitAll c inLoop body address s
  | ifThen condition yes _, address, s =>
    emitIf c condition (fun a s => yes.emit c inLoop a s) address s
  | ifElse condition yes no _, address, s =>
    emitIfElse c condition (fun a s => yes.emit c inLoop a s) (fun a s => no.emit c inLoop a s)
      address s
  | whileLoop condition body _, address, s =>
    emitLoop c (some condition) none (fun a s => body.emit c true a s) address s
  | forLoop init? condition? update? body _, address, s =>
    (ForInit.emit c init? s).andThen address
      fun a s => emitLoop c condition? update? (fun a s => body.emit c true a s) a s
  | wait ticks _, _, s => .ofExcept (ticks.compile c s) [.wait] s
  | fire request, _, s => request.emit c s

/-- The code of several statements in order. -/
def emitAll (c : Catalog) (inLoop : Bool) : List Stmt → Nat → ScopeStack → Emitted
  | [], _, s => .complete [] s
  | stmt :: rest, address, s =>
    (stmt.emit c inLoop address s).andThen address fun a s => emitAll c inLoop rest a s

end

/-- Write statements at the end of a block, stopping at the first error. The operands of the open
jumps are noted in the jumps of the loop around them, if there is one. -/
def write (c : Catalog) (statements : List Stmt) (block : Code) (jumps? : Option LoopJumps)
    (s : ScopeStack) : Code × Option LoopJumps × ScopeStack × Option CompileError :=
  let emitted := emitAll c jumps?.isSome statements block.size s
  (block.append emitted.code.words, jumps?.map (emitted.code.openJumps block.size),
    emitted.scopes, emitted.error?)

end Stmt

end Danmaku
