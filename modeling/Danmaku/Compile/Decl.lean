import Danmaku.Compile.Stmt

/-!
# Code of declarations

The body of a declaration is compiled in a scope of its own, in which the parameters are declared
first. The scope is gone afterwards, whether the body could be compiled or not.
-/

namespace Danmaku.Decl

/-- The routine that has only the declaration's parameters yet. -/
def header (d : Decl) : Except CompileError Routine :=
  Routine.withParameters d.parameters d.name.position

/-- Compile the body of a declaration. The result has the scopes afterwards. -/
def compile (c : Catalog) (d : Decl) (s : ScopeStack) :
    Except CompileError Routine × ScopeStack :=
  match d.header with
  | .error error => (.error error, s)
  | .ok header =>
    let emitted := Stmt.emitAll c false d.body 0 (header :: s)
    match emitted.scopes.leave with
    | .error error => (.error error, emitted.scopes)
    | .ok (r, s) =>
      match emitted.error? with
      | some error => (.error error, s)
      | none => (.ok { r with code := .ofList emitted.code.words }, s)

end Danmaku.Decl
