import Danmaku.Proofs.Compile.Script
import Mathlib.Logic.Relation

/-!
# How many arguments a name takes

A build is asked to enter declarations, to compile them, and to do both with scripts, in any order.
What was compiled earlier refers to routines by their numbers, and passes as many arguments as they
took then. They still take as many, whatever was asked for in between (`Build.arity_kept`), if one
thing was heeded that a build does not check: a name that was entered with some parameters has to be
compiled with as many (`Build.KeepsArity`, `Build.compile_changes_arity`).
-/

namespace Danmaku.Build

/-- What a build is asked for. -/
inductive Request
  /-- To enter a declaration. -/
  | declare (d : Decl)
  /-- To compile a declaration. -/
  | compile (d : Decl)
  /-- To enter and compile the declarations of a script. -/
  | script (s : Script)

/-- The build after a request, whether it could be granted or not. -/
def after (b : Build) : Request → Build
  | .declare d =>
    match b.declare d with
    | .error _ => b
    | .ok (_, b) => b
  | .compile d => (b.compile d).2
  | .script s => (b.script s).2

/-- A request to compile what is awaited is about a declaration with as many parameters as the one
that was entered. -/
def KeepsArity (b : Build) : Request → Prop
  | .compile d => d.key ∈ b.awaited → ∀ i r,
    (b.catalog.routines d.kind).lookup? d.name.name = some (i, r) →
      r.parameterCount = d.parameters.length
  | .declare _ | .script _ => True

/-- One build comes from another by a request that keeps the number of parameters. -/
def Passes (b b' : Build) : Prop := ∃ request, b.KeepsArity request ∧ b' = b.after request

variable {b b' : Build} {d : Decl} {request : Request}

theorem declare_grows {i : Nat} (h : b.declare d = .ok (i, b')) : b.catalog.Grows b'.catalog := by
  obtain ⟨header, -, -, hadd, -⟩ := declare_inv h
  exact Catalog.addRoutine_grows hadd

/-- A declaration with a new name is entered and then compiled as one that is awaited. -/
theorem compile_of_declare {i : Nat} (h : b.declare d = .ok (i, b')) :
    b.compile d = b'.compile d := by
  obtain ⟨header, -, hnone, hadd, hawaited⟩ := declare_inv h
  have hi := (Table.lookup?_eq_some.1 (Catalog.lookup?_addRoutine_self hadd)).1
  have hawaits : b'.awaits d = true := decide_eq_true (hawaited ▸ List.mem_cons_self)
  rw [compile, hnone, compile, hi]
  simp only [h, hawaits, if_true]

theorem compile_grows (h : b.KeepsArity (.compile d)) :
    b.catalog.Grows (b.compile d).2.catalog := by
  cases hi : (b.catalog.routines d.kind).indexOf? d.name.name with
  | none =>
    cases hd : b.declare d with
    | error e =>
      rw [compile, hi]
      simp only [hd]
      exact .refl _
    | ok x =>
      obtain ⟨i, b₁⟩ := x
      rw [compile_of_declare hd]
      exact (declare_grows hd).trans (compile_fills (declare_awaits hd)).grows
  | some i =>
    by_cases hawaited : d.key ∈ b.awaited
    · obtain ⟨r, hr⟩ := Table.at?_of_indexOf? hi
      have hl := Table.lookup?_eq_some.2 ⟨hi, hr⟩
      exact (compile_fills ⟨hawaited, i, r, hl, h hawaited i r hl⟩).grows
    · have hawaits : b.awaits d = false := decide_eq_false hawaited
      rw [compile, hi]
      simp only [hawaits, Bool.false_eq_true, if_false]
      exact .refl _

/-- A request that keeps the number of parameters takes nothing away that code refers to. -/
theorem after_grows (h : b.KeepsArity request) : b.catalog.Grows (b.after request).catalog := by
  cases request with
  | declare d =>
    rw [after]
    split
    · exact .refl _
    · next hd => exact declare_grows hd
  | compile d => exact compile_grows h
  | script s => exact script_grows b s

theorem Passes.grows (h : Relation.ReflTransGen Passes b b') : b.catalog.Grows b'.catalog := by
  induction h with
  | refl => exact .refl _
  | tail _ hstep ih =>
    obtain ⟨request, hkeeps, rfl⟩ := hstep
    exact ih.trans (after_grows hkeeps)

/-- Whatever is compiled takes as many arguments as its declaration has parameters. -/
theorem compile_parameterCount {x : Compiled} (h : (b.compile d).1 = .ok x) :
    ∃ r, ((b.compile d).2.catalog.routines d.kind).at? x.index = some r ∧
      r.parameterCount = d.parameters.length := by
  suffices hfinish : ∀ (b : Build) (i : Nat), (b.finish d i).1 = .ok x →
      ∃ r, ((b.finish d i).2.catalog.routines d.kind).at? x.index = some r ∧
        r.parameterCount = d.parameters.length by
    unfold compile at h ⊢
    split at h
    · split at h
      · next haw => simpa only [haw, if_true] using hfinish _ _ h
      · cases h
    · split at h
      · cases h
      · exact hfinish _ _ h
  intro b i h
  unfold finish at h ⊢
  split at h
  · cases h
  · next r hr =>
    split at h
    · cases h
    · next c hrep =>
      obtain rfl := Except.ok.inj h
      obtain ⟨t, ht, rfl⟩ := Catalog.replaceRoutine_inv hrep
      refine ⟨{ r with index? := some i }, ?_, ?_⟩
      · simp only [Catalog.routines_setRoutines, if_true]
        rw [Table.at?_replace? (RoutineTable.replace_inv ht), if_pos rfl]
      · exact (Decl.compile_names (Prod.ext hr rfl)).2.2

/-- **A name takes as many arguments as when it was entered**, through all requests that heed it:
so it has its number and its parameters still, and the calls and updaters that were compiled before
pass as many arguments as are taken. In any case a routine that is compiled takes the arguments that
its own declaration says. -/
theorem arity_kept (h : Relation.ReflTransGen Passes b b') :
    (∀ kind name i r, (b.catalog.routines kind).lookup? name = some (i, r) →
      ∃ r', (b'.catalog.routines kind).lookup? name = some (i, r') ∧
        r'.parameterCount = r.parameterCount) ∧
    (∀ f found position i, callee b.catalog f found position = .ok (.call i) →
      ∃ r, b'.catalog.function? i = some r ∧ r.parameterCount = found) ∧
    (∀ (u : UpdaterClause) i, u.resolve b.catalog = .ok i →
      ∃ r, b'.catalog.bulletUpdater? i = some r ∧ r.parameterCount = u.arguments.length) ∧
    ∀ d x, (b'.compile d).1 = .ok x →
      ∃ r, ((b'.compile d).2.catalog.routines d.kind).at? x.index = some r ∧
        r.parameterCount = d.parameters.length := by
  have hgrows := Passes.grows h
  refine ⟨fun kind name i r hl => (hgrows.routines kind).lookup hl,
    fun f found position i hcall => ?_, fun u i hu => ?_, fun d x => compile_parameterCount⟩
  · rcases callee_inv hcall with ⟨j, r, hl, hcount, hij⟩ | ⟨j, -, -, hij⟩
    · obtain rfl := Instr.call.inj hij
      obtain ⟨r', hr', hcount'⟩ :=
        (hgrows.routines .function).parameters i r (Table.lookup?_eq_some.1 hl).2
      exact ⟨r', hr', hcount'.trans hcount⟩
    · cases hij
  · obtain ⟨r, hl, hcount⟩ := UpdaterClause.resolve_inv hu
    obtain ⟨r', hr', hcount'⟩ :=
      (hgrows.routines .bulletUpdater).parameters i r (Table.lookup?_eq_some.1 hl).2
    exact ⟨r', hr', hcount'.trans hcount⟩

/-- A function that does nothing with its arguments. -/
def ignore (parameters : List String) : Decl where
  kind := .function
  name := ⟨"ignore", .nowhere⟩
  parameters
  body := []
  position := .nowhere

/-- The empty build after `ignore` was entered with one parameter. -/
def ignoring : Build := (⟨{}, []⟩ : Build).after (.declare (ignore ["x"]))

/-- Compiled with its own parameter, `ignore` keeps it. -/
theorem ignoring_arity_kept :
    Relation.ReflTransGen Passes ignoring (ignoring.after (.compile (ignore ["x"]))) ∧
      ∃ r, (ignoring.after (.compile (ignore ["x"]))).catalog.function? 0 = some r ∧
        r.parameterCount = 1 := by
  have hcount : ((ignoring.catalog.routines .function).lookup? "ignore").map
      (fun x => x.2.parameterCount) = some 1 := by decide +kernel
  have hpass : Passes ignoring (ignoring.after (.compile (ignore ["x"]))) := by
    refine ⟨.compile (ignore ["x"]), fun _ i r hl => ?_, rfl⟩
    rw [show (ignoring.catalog.routines .function).lookup? "ignore" = some (i, r) from hl] at hcount
    exact Option.some.inj hcount
  exact ⟨.single hpass, (arity_kept (.single hpass)).2.1 ⟨"ignore", .nowhere⟩ 1 .nowhere 0
    (by decide +kernel)⟩

/-- **Compiling what is awaited can change how many arguments it takes.** A call that was compiled
with one argument then calls a function that takes two. -/
theorem compile_changes_arity :
    callee ignoring.catalog ⟨"ignore", .nowhere⟩ 1 .nowhere = .ok (.call 0) ∧
      (ignoring.catalog.function? 0).map Routine.parameterCount = some 1 ∧
      ((ignoring.after (.compile (ignore ["x", "y"]))).catalog.function? 0).map
        Routine.parameterCount = some 2 :=
  ⟨by decide +kernel, by decide +kernel, by decide +kernel⟩

end Danmaku.Build
