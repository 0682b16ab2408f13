import Danmaku.Compile.Decl

/-!
# Filling the catalog from scripts

The routines of a script may call each other in any order. So all declarations are entered in the
catalog first, with their parameters and without code, and compiled afterwards. A declaration that
is entered and not yet compiled is *awaited*: its name may be compiled once more, where any other
name in the catalog may not. A body that does not compile leaves its name awaited.
-/

namespace Danmaku

/-- A catalog that is being filled. -/
structure Build where
  /-- The catalog. -/
  catalog : Catalog
  /-- The routines that have been entered without code. -/
  awaited : List (RoutineKind × String) := []

/-- A routine that has been compiled. -/
structure Compiled where
  /-- Its kind. -/
  kind : RoutineKind
  /-- Its name. -/
  name : String
  /-- Its number. -/
  index : Nat
  deriving DecidableEq, Repr

/-- What became of a script: each declaration is among the compiled ones or has an error. -/
structure BuildResult where
  /-- The compiled routines in order. -/
  compiled : List Compiled
  /-- The errors; those of entering come before those of compiling. -/
  errors : List CompileError

namespace BuildResult

/-- Whether all declarations were compiled. -/
def isSuccess (r : BuildResult) : Bool := r.errors.isEmpty

/-- The number of a compiled routine. -/
def indexOf? (r : BuildResult) (kind : RoutineKind) (name : String) : Option Nat :=
  (r.compiled.find? fun d => decide (d.kind = kind ∧ d.name = name)).map Compiled.index

end BuildResult

namespace Build

/-- Whether a declaration is awaited. -/
def awaits (b : Build) (d : Decl) : Bool := decide ((d.kind, d.name.name) ∈ b.awaited)

/-- The error of a declaration whose name is taken. -/
def duplicate (d : Decl) : CompileError :=
  .duplicateDeclaration d.kind.text d.name.name d.name.position

/-- Enter a declaration without compiling its body. The result has its number. -/
def declare (b : Build) (d : Decl) : Except CompileError (Nat × Build) :=
  if (b.catalog.routines d.kind).contains d.name.name then .error (duplicate d)
  else
    match d.header with
    | .error error => .error error
    | .ok header =>
      match b.catalog.addRoutine d.kind d.name.name header with
      | .error source => .error (.registration source d.position)
      | .ok (index, catalog) =>
        .ok (index, { catalog, awaited := (d.kind, d.name.name) :: b.awaited })

/-- Compile the body of a declaration that has a number, and put it in its place. -/
def finish (b : Build) (d : Decl) (index : Nat) : Except CompileError Compiled × Build :=
  match (d.compile b.catalog []).1 with
  | .error error => (.error error, b)
  | .ok routine =>
    match b.catalog.replaceRoutine d.kind index routine with
    | .error source => (.error (.registration source d.position), b)
    | .ok catalog =>
      (.ok ⟨d.kind, d.name.name, index⟩,
        { catalog, awaited := b.awaited.filter (· != (d.kind, d.name.name)) })

/-- Compile a declaration, entering it first if its name is new. -/
def compile (b : Build) (d : Decl) : Except CompileError Compiled × Build :=
  match (b.catalog.routines d.kind).indexOf? d.name.name with
  | some index => if b.awaits d then b.finish d index else (.error (duplicate d), b)
  | none =>
    match b.declare d with
    | .error error => (.error error, b)
    | .ok (index, b) => b.finish d index

/-- Enter several declarations. The result has those that were entered, and the errors of the
others. -/
def declareAll (b : Build) : List Decl → List Decl × List CompileError × Build
  | [] => ([], [], b)
  | d :: rest =>
    match b.declare d with
    | .error error =>
      let (declared, errors, b) := b.declareAll rest
      (declared, error :: errors, b)
    | .ok (_, b) =>
      let (declared, errors, b) := b.declareAll rest
      (d :: declared, errors, b)

/-- Compile several declarations. -/
def compileAll (b : Build) : List Decl → List Compiled × List CompileError × Build
  | [] => ([], [], b)
  | d :: rest =>
    match b.compile d with
    | (.error error, b) =>
      let (compiled, errors, b) := b.compileAll rest
      (compiled, error :: errors, b)
    | (.ok routine, b) =>
      let (compiled, errors, b) := b.compileAll rest
      (routine :: compiled, errors, b)

/-- Enter all declarations of a script, and then compile those that were entered. -/
def script (b : Build) (s : Script) : BuildResult × Build :=
  let (declared, errors, b) := b.declareAll s.declarations
  let (compiled, more, b) := b.compileAll declared
  (⟨compiled, errors ++ more⟩, b)

end Build

end Danmaku
