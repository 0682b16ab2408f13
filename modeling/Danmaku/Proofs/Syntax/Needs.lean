import Danmaku.Syntax

/-!
# What phrases need

Which names a phrase calls, and how many operands its code has on the stack at once.
-/

namespace Danmaku

namespace Expr

mutual

/-- The names that are called in an expression. -/
def calls : Expr → List String
  | num _ _ | var _ _ | prop _ _ => []
  | binary _ left right _ => left.calls ++ right.calls
  | unary _ operand _ => operand.calls
  | assign _ target value _ => target.calls ++ value.calls
  | step _ target _ => target.calls
  | choose condition yes no _ => condition.calls ++ (yes.calls ++ no.calls)
  | call callee arguments _ => callee.name :: callsAll arguments

/-- The names that are called in several expressions. -/
def callsAll : List Expr → List String
  | [] => []
  | e :: rest => e.calls ++ callsAll rest

end

mutual

/-- How many operands an expression has on the stack at once, its value included. -/
def height : Expr → Nat
  | num _ _ | var _ _ | prop _ _ => 1
  | binary _ left right _ => max left.height (1 + right.height)
  | unary _ operand _ => operand.height
  | assign .plain _ value _ => value.height
  | assign (.combined _) _ value _ => 1 + value.height
  | step _ _ _ => 2
  | choose condition yes no _ => max condition.height (max yes.height no.height)
  | call _ arguments _ => max 1 (heightAll arguments)

/-- The same for several expressions, whose values are all kept. -/
def heightAll : List Expr → Nat
  | [] => 0
  | e :: rest => max e.height (1 + heightAll rest)

end

/-- How many operands there are for an expression, or for zero in the place of a missing one. -/
def heightOrZero : Option Expr → Nat
  | some e => e.height
  | none => 1

/-- The names that are called in an expression that may be missing. -/
def callsOf : Option Expr → List String
  | some e => e.calls
  | none => []

/-- How many operands there are for an expression that may be missing. -/
def heightOf : Option Expr → Nat
  | some e => e.height
  | none => 0

theorem height_pos (e : Expr) : 0 < e.height := by
  cases e with
  | assign op target value p =>
    cases op with
    | plain => rw [height]; exact height_pos value
    | combined op => simp only [height]; omega
  | unary op e p => rw [height]; exact height_pos e
  | binary op l r p => have := height_pos l; simp only [height]; omega
  | choose c y n p => have := height_pos c; simp only [height]; omega
  | call f args p => simp only [height]; omega
  | _ => simp [height]

end Expr

/-- The names that are called at the start of a counting loop. -/
def ForInit.calls : Option ForInit → List String
  | some (.declare decl) => Expr.callsOf decl.value?
  | some (.evaluate e) => e.calls
  | none => []

/-- How many operands there are at the start of a counting loop. -/
def ForInit.height : Option ForInit → Nat
  | some (.declare decl) => Expr.heightOrZero decl.value?
  | some (.evaluate e) => e.height
  | none => 0

/-- The names that are called in a request to fire. -/
def FireStmt.calls (f : FireStmt) : List String :=
  Expr.callsAll f.arguments ++
    match f.updater? with
    | some clause => Expr.callsAll clause.arguments
    | none => []

/-- How many operands a request to fire has on the stack at once. -/
def FireStmt.height (f : FireStmt) : Nat :=
  match f.updater? with
  | some clause =>
    max (Expr.heightAll f.arguments) (f.arguments.length + Expr.heightAll clause.arguments)
  | none => Expr.heightAll f.arguments

namespace Stmt

mutual

/-- The names that are called in a statement. -/
def calls : Stmt → List String
  | expr e _ => e.calls
  | var decl _ => Expr.callsOf decl.value?
  | ref _ _ | leaveLoop _ | continueLoop _ => []
  | ret value? _ => Expr.callsOf value?
  | block body _ => callsAll body
  | ifThen condition yes _ => condition.calls ++ yes.calls
  | ifElse condition yes no _ => condition.calls ++ (yes.calls ++ no.calls)
  | whileLoop condition body _ => condition.calls ++ body.calls
  | forLoop init? condition? update? body _ =>
    ForInit.calls init? ++ (Expr.callsOf condition? ++ (Expr.callsOf update? ++ body.calls))
  | wait ticks _ => ticks.calls
  | fire request => request.calls

/-- The names that are called in several statements. -/
def callsAll : List Stmt → List String
  | [] => []
  | stmt :: rest => stmt.calls ++ callsAll rest

end

mutual

/-- How many operands a statement has on the stack at once. -/
def height : Stmt → Nat
  | expr e _ => e.height
  | var decl _ => Expr.heightOrZero decl.value?
  | ref _ _ | leaveLoop _ | continueLoop _ => 0
  | ret value? _ => Expr.heightOrZero value?
  | block body _ => heightAll body
  | ifThen condition yes _ => max condition.height yes.height
  | ifElse condition yes no _ => max condition.height (max yes.height no.height)
  | whileLoop condition body _ => max condition.height body.height
  | forLoop init? condition? update? body _ =>
    max (ForInit.height init?)
      (max (Expr.heightOf condition?) (max (Expr.heightOf update?) body.height))
  | wait ticks _ => ticks.height
  | fire request => request.height

/-- The same for several statements. -/
def heightAll : List Stmt → Nat
  | [] => 0
  | stmt :: rest => max stmt.height (heightAll rest)

end

end Stmt

/-- The names that are called in a body. -/
def Decl.calls (d : Decl) : List String := Stmt.callsAll d.body

/-- How many operands a body has on the stack at once. -/
def Decl.height (d : Decl) : Nat := Stmt.heightAll d.body

end Danmaku
