import Danmaku.Operator
import Danmaku.Routine

/-!
# Scripts as trees

A script is a list of declarations, each a named body with parameters. A body is made of
statements, and statements of expressions; every expression has a number for its value. Each piece
knows the position at which it was written.
-/

namespace Danmaku

/-- A name as it was written. -/
structure Ident where
  /-- The name. -/
  name : String
  /-- Where it was written. -/
  position : Position
  deriving DecidableEq, Inhabited, Repr

/-- An expression. -/
inductive Expr
  /-- A number. -/
  | num (value : Word) (position : Position)
  /-- A variable of the body. -/
  | var (name : String) (position : Position)
  /-- A property of the entity that the script runs for. -/
  | prop (name : String) (position : Position)
  /-- An operator between two expressions. -/
  | binary (op : BinaryOp) (left right : Expr) (position : Position)
  /-- An operator in front of an expression. -/
  | unary (op : UnaryOp) (operand : Expr) (position : Position)
  /-- An assignment, whose value is the value stored. -/
  | assign (op : AssignOp) (target value : Expr) (position : Position)
  /-- A step up or down by one, whose value is the value stored. -/
  | step (op : StepOp) (target : Expr) (position : Position)
  /-- One of two expressions, by whether a third is zero. -/
  | choose (condition yes no : Expr) (position : Position)
  /-- A call of a function or of a delegate. -/
  | call (callee : Ident) (arguments : List Expr) (position : Position)
  deriving Inhabited

namespace Expr

/-- Where the expression was written. -/
def position : Expr → Position
  | num _ p | var _ p | prop _ p | binary _ _ _ p | unary _ _ p | assign _ _ _ p | step _ _ p
  | choose _ _ _ p | call _ _ p => p

/-- Whether the expression can be assigned to. -/
def isPlace : Expr → Bool
  | var _ _ | prop _ _ => true
  | _ => false

end Expr

/-- A declaration of a numerical variable. -/
structure VarDecl where
  /-- The name. -/
  name : Ident
  /-- The first value; zero if there is none. -/
  value? : Option Expr
  deriving Inhabited

/-- What a counting loop starts with. -/
inductive ForInit
  /-- A variable that is declared. -/
  | declare (decl : VarDecl)
  /-- An expression that is evaluated. -/
  | evaluate (e : Expr)
  deriving Inhabited

/-- The updater that a fired entity is given. -/
structure UpdaterClause where
  /-- The name of a bullet updater. -/
  name : Ident
  /-- Its arguments. -/
  arguments : List Expr
  /-- Where the clause was written. -/
  position : Position
  deriving Inhabited

/-- The request to fire. -/
structure FireStmt where
  /-- The entity type that fires. -/
  typeName : String
  /-- The name of the firing function, if it is given. -/
  function? : Option String
  /-- The arguments. -/
  arguments : List Expr
  /-- What the new entity is to run, if anything. -/
  updater? : Option UpdaterClause
  /-- Where the request was written. -/
  position : Position
  deriving Inhabited

/-- The name of the firing function; without one, that of the default. -/
def FireStmt.functionName (f : FireStmt) : String := f.function?.getD "fire"

/-- A statement. -/
inductive Stmt
  /-- An expression, for its effect. -/
  | expr (e : Expr) (position : Position)
  /-- A declaration of a numerical variable. -/
  | var (decl : VarDecl) (position : Position)
  /-- A declaration of a reference to an entity. -/
  | ref (name : Ident) (position : Position)
  /-- The end of the body, with a value; zero if there is none. -/
  | ret (value? : Option Expr) (position : Position)
  /-- The end of the innermost loop. -/
  | leaveLoop (position : Position)
  /-- The end of this round of the innermost loop. -/
  | continueLoop (position : Position)
  /-- Statements in order. A block has no names of its own. -/
  | block (body : List Stmt) (position : Position)
  /-- A statement under a condition. -/
  | ifThen (condition : Expr) (yes : Stmt) (position : Position)
  /-- One of two statements. -/
  | ifElse (condition : Expr) (yes no : Stmt) (position : Position)
  /-- A loop under a condition. -/
  | whileLoop (condition : Expr) (body : Stmt) (position : Position)
  /-- A loop with a start, a condition and an update, each of which may be missing. -/
  | forLoop (init? : Option ForInit) (condition? update? : Option Expr) (body : Stmt)
      (position : Position)
  /-- Wait for some ticks. -/
  | wait (ticks : Expr) (position : Position)
  /-- Fire. -/
  | fire (request : FireStmt)
  deriving Inhabited

/-- Where the statement was written. -/
def Stmt.position : Stmt → Position
  | expr _ p | var _ p | ref _ p | ret _ p | leaveLoop p | continueLoop p | block _ p
  | ifThen _ _ p | ifElse _ _ _ p | whileLoop _ _ p | forLoop _ _ _ _ p | wait _ p => p
  | fire request => request.position

/-- A named body. -/
structure Decl where
  /-- What the body is for. -/
  kind : RoutineKind
  /-- Its name. -/
  name : Ident
  /-- The names of its parameters. -/
  parameters : List String
  /-- The statements of the body. -/
  body : List Stmt
  /-- Where the declaration was written. -/
  position : Position
  deriving Inhabited

/-- A list of declarations. -/
structure Script where
  /-- The declarations in order. -/
  declarations : List Decl
  deriving Inhabited

/-- The declarations of one kind, in order. -/
def Script.ofKind (s : Script) (kind : RoutineKind) : List Decl :=
  s.declarations.filter fun d => decide (d.kind = kind)

end Danmaku
