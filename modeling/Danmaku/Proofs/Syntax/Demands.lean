import Danmaku.Catalog.Basic
import Danmaku.Syntax

/-!
# What phrases demand

A phrase demands something of each name in it: that it is new, that it is a variable, that a
function stands under it which takes as many arguments as are passed. It also demands that `break`
and `continue` stand in a loop, and that what is assigned to can be.

The demands of a phrase are a list, in the order in which its parts are written as code. There are
no scopes: a demand for a new name declares it for all demands after it, so whether a demand is met
depends on the catalog and on the demands before (`Demand.Met`). A declaration is well-formed if all
of its demands are met (`Demand.AllMet`), and otherwise the first that is not says what is wrong
(`Demand.violation?`).
-/

namespace Danmaku

/-- Something that a phrase demands. -/
inductive Demand
  /-- A name that is not declared yet. It is declared with this. -/
  | fresh (name : String) (kind : SymbolKind) (position : Position)
  /-- A numerical variable of a name. -/
  | number (name : String) (position : Position)
  /-- A property of a name. -/
  | property (name : String) (position : Position)
  /-- Something that can be assigned to. -/
  | target (e : Expr)
  /-- A function of a name, for so many arguments, or else a delegate. -/
  | callee (name : Ident) (found : Nat) (position : Position)
  /-- A firing function of a type and a name, for so many arguments. -/
  | firing (typeName function : String) (found : Nat) (position : Position)
  /-- A bullet updater of a name, for so many arguments. -/
  | updater (name : Ident) (found : Nat) (position : Position)
  /-- A loop around a `break`. -/
  | loopToLeave (inLoop : Bool) (position : Position)
  /-- A loop around a `continue`. -/
  | loopToContinue (inLoop : Bool) (position : Position)

namespace Demand

/-- The name that a demand declares, if it declares one of that kind. -/
def declares? (kind : SymbolKind) : Demand → Option String
  | fresh name kind' _ => if kind' = kind then some name else none
  | _ => none

/-- The names of one kind that demands declare, in order. -/
def names (kind : SymbolKind) (ds : List Demand) : List String := ds.filterMap (declares? kind)

@[simp] theorem names_nil (kind : SymbolKind) : names kind [] = [] := rfl

@[simp] theorem names_append (kind : SymbolKind) (ds ds' : List Demand) :
    names kind (ds ++ ds') = names kind ds ++ names kind ds' := List.filterMap_append

/-- The catalog, and the demands before, give a demand what it wants. -/
def Met (c : Catalog) (before : List Demand) : Demand → Prop
  | fresh name _ _ => name ∉ names .number before ∧ name ∉ names .handle before
  | number name _ => name ∈ names .number before
  | property name _ => name ∈ c.types.propertyNames
  | target e => e.isPlace = true
  | callee name found _ =>
    (∃ r ∈ c.functions.find? name.name, r.parameterCount = found) ∨
      c.functions.find? name.name = none ∧ c.delegates.contains name.name = true
  | firing typeName function found _ =>
    ∃ f ∈ c.firing.find? (typeName, function), f.arity = found
  | updater name found _ => ∃ r ∈ c.bulletUpdaters.find? name.name, r.parameterCount = found
  | loopToLeave inLoop _ | loopToContinue inLoop _ => inLoop = true

instance (c : Catalog) (before : List Demand) : DecidablePred (Met c before) := fun x => by
  cases x <;> unfold Met <;> infer_instance

/-- What is wrong if a demand is not met. -/
def error (c : Catalog) (before : List Demand) : Demand → CompileError
  | fresh name _ position => .redeclared name position
  | number name position =>
    if name ∈ names .handle before then .notNumerical name position
    else .unknownVariable name position
  | property name position => .unknownProperty name position
  | target e => .notAssignable e.position
  | callee name found position =>
    match c.functions.find? name.name with
    | some r => .argumentCount "function" name.name r.parameterCount found position
    | none => .unknownFunction name.name name.position
  | firing typeName function found position =>
    match c.firing.find? (typeName, function) with
    | some f =>
      .argumentCount "firing function" (FiringFunction.fullName typeName function) f.arity found
        position
    | none => .unknownFiring typeName function position
  | updater name found position =>
    match c.bulletUpdaters.find? name.name with
    | some r => .argumentCount "updater" name.name r.parameterCount found position
    | none => .unknownUpdater name.name name.position
  | loopToLeave _ position => .breakOutsideLoop position
  | loopToContinue _ position => .continueOutsideLoop position

/-- Each of the demands is met, with those before it. -/
def AllMet (c : Catalog) (ds : List Demand) : Prop :=
  ∀ before x after, ds = before ++ x :: after → x.Met c before

/-- The error of the first demand that is not met, after some demands that are. -/
def violation? (c : Catalog) (before : List Demand) : List Demand → Option CompileError
  | [] => none
  | x :: rest =>
    if x.Met c before then violation? c (before ++ [x]) rest else some (x.error c before)

variable {c : Catalog} {before ds ds' : List Demand} {x : Demand} {e : CompileError}

theorem violation?_of_met (h : x.Met c before) : violation? c before [x] = none := if_pos h

theorem violation?_of_not_met (h : ¬x.Met c before) :
    violation? c before [x] = some (x.error c before) := if_neg h

theorem violation?_append (ds ds' : List Demand) :
    violation? c before (ds ++ ds') =
      (violation? c before ds).or (violation? c (before ++ ds) ds') := by
  induction ds generalizing before with
  | nil => simp [violation?]
  | cons x ds ih =>
    rw [List.cons_append, violation?, violation?]
    split
    · rw [ih, List.append_assoc, List.singleton_append]
    · rfl

/-- No demand is violated exactly if every demand is met. -/
theorem violation?_eq_none :
    violation? c before ds = none ↔
      ∀ pre x post, ds = pre ++ x :: post → x.Met c (before ++ pre) := by
  constructor
  · rintro h pre x post rfl
    rw [← List.singleton_append, violation?_append, Option.or_eq_none_iff, violation?_append,
      Option.or_eq_none_iff] at h
    refine Decidable.byContradiction fun hx => ?_
    rw [violation?_of_not_met hx] at h
    cases h.2.1
  · intro h
    induction ds generalizing before with
    | nil => rfl
    | cons x ds ih =>
      have hx : x.Met c before := List.append_nil before ▸ h [] x ds rfl
      rw [violation?, if_pos hx]
      refine ih fun pre y post hds => ?_
      rw [List.append_assoc]
      exact h (x :: pre) y post (congrArg (x :: ·) hds)

/-- A violation is that of a demand which is not met, while no demand before it is violated. -/
theorem violation?_eq_some :
    violation? c before ds = some e ↔
      ∃ pre x post, ds = pre ++ x :: post ∧ violation? c before pre = none ∧
        ¬x.Met c (before ++ pre) ∧ x.error c (before ++ pre) = e := by
  constructor
  · intro h
    induction ds generalizing before with
    | nil => cases h
    | cons x ds ih =>
      rw [violation?] at h
      split at h
      · next hx =>
        obtain ⟨pre, y, post, rfl, hpre, hy, he⟩ := ih h
        rw [List.append_assoc] at hy he
        exact ⟨x :: pre, y, post, rfl, by rw [violation?, if_pos hx, hpre], hy, he⟩
      · next hx =>
        rw [← List.append_nil before] at hx h
        exact ⟨[], x, ds, rfl, rfl, hx, Option.some.inj h⟩
  · rintro ⟨pre, x, post, rfl, hpre, hx, rfl⟩
    rw [← List.singleton_append, violation?_append, hpre, Option.none_or, violation?_append,
      violation?_of_not_met hx]
    rfl

/-- **Without a violation, and only then, all demands are met.** -/
theorem allMet_iff : AllMet c ds ↔ violation? c [] ds = none := by
  rw [violation?_eq_none]
  rfl

end Demand

/-! ## The demands of expressions -/

namespace Expr

mutual

/-- The demands of an expression. An assignment's target comes before its value, and whom a call
calls before the arguments. -/
def demands : Expr → List Demand
  | num _ _ => []
  | var name position => [.number name position]
  | prop name position => [.property name position]
  | binary _ left right _ => left.demands ++ right.demands
  | unary _ operand _ => operand.demands
  | assign _ target value _ => [.target target] ++ target.demands ++ value.demands
  | step _ target _ => [.target target] ++ target.demands
  | choose condition yes no _ => condition.demands ++ yes.demands ++ no.demands
  | call name arguments position =>
    [.callee name arguments.length position] ++ demandsAll arguments

/-- The demands of several expressions in order. -/
def demandsAll : List Expr → List Demand
  | [] => []
  | e :: rest => e.demands ++ demandsAll rest

end

/-- The demands of an expression that may be missing. -/
def demandsOf : Option Expr → List Demand
  | some e => e.demands
  | none => []

end Expr

/-! ## The demands of statements -/

/-- The demands of a variable's declaration. The name is declared first, so the value
may refer to it. -/
def VarDecl.demands (d : VarDecl) : List Demand :=
  [.fresh d.name.name .number d.name.position] ++ Expr.demandsOf d.value?

/-- The demands of the start of a counting loop. -/
def ForInit.demands : Option ForInit → List Demand
  | some (.declare decl) => decl.demands
  | some (.evaluate e) => e.demands
  | none => []

/-- The demands of a request to fire. All names and numbers of arguments come before any
argument. -/
def FireStmt.demands (f : FireStmt) : List Demand :=
  [.firing f.typeName f.functionName f.arguments.length f.position] ++
    match f.updater? with
    | some clause =>
      [.updater clause.name clause.arguments.length clause.position] ++
        Expr.demandsAll f.arguments ++ Expr.demandsAll clause.arguments
    | none => Expr.demandsAll f.arguments

namespace Stmt

mutual

/-- The demands of a statement. The flag tells whether a loop is open around it. -/
def demands (inLoop : Bool) : Stmt → List Demand
  | expr e _ => e.demands
  | var decl _ => decl.demands
  | ref name _ => [.fresh name.name .handle name.position]
  | ret value? _ => Expr.demandsOf value?
  | leaveLoop position => [.loopToLeave inLoop position]
  | continueLoop position => [.loopToContinue inLoop position]
  | block body _ => demandsAll inLoop body
  | ifThen condition yes _ => condition.demands ++ yes.demands inLoop
  | ifElse condition yes no _ => condition.demands ++ yes.demands inLoop ++ no.demands inLoop
  | whileLoop condition body _ => condition.demands ++ body.demands true
  | forLoop init? condition? update? body _ =>
    ForInit.demands init? ++
      (Expr.demandsOf condition? ++ Expr.demandsOf update? ++ body.demands true)
  | wait ticks _ => ticks.demands
  | fire request => request.demands

/-- The demands of several statements in order. -/
def demandsAll (inLoop : Bool) : List Stmt → List Demand
  | [] => []
  | stmt :: rest => stmt.demands inLoop ++ demandsAll inLoop rest

end

end Stmt

/-- The demands of a declaration: its parameters are new names, and so are those of the body. -/
def Decl.demands (d : Decl) : List Demand :=
  (d.parameters.map fun name => .fresh name .number d.name.position) ++
    Stmt.demandsAll false d.body

end Danmaku
