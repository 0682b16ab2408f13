import Danmaku.Proofs.Compile.Script

/-!
# Declarations that do not compile

Compiling a declaration enters it first if its name is new. If the body then does not compile, the
name stays, with the parameters and without code, and is awaited, so that it can be compiled once
more (`Build.Reserves`). Nothing else is changed by a declaration that does not compile
(`Build.compile_error`): neither by one whose name was in its table before, awaited or not, nor by
one whose parameters cannot be declared.
-/

namespace Danmaku

/-- A name is entered at the end of its table, with parameters and without code, and awaited. -/
structure Build.Reserves (b : Build) (d : Decl) (header : Routine) (b' : Build) : Prop where
  /-- The name was new. -/
  fresh : (b.catalog.routines d.kind).indexOf? d.name.name = none
  /-- Its table has one more entry. -/
  catalog_eq : b'.catalog = b.catalog.setRoutines d.kind
    ⟨(b.catalog.routines d.kind).entries.push
      (d.name.name, { header with index? := some (b.catalog.routines d.kind).size })⟩
  /-- It is awaited besides what was awaited before. -/
  awaited_eq : b'.awaited = d.key :: b.awaited

namespace Build

variable {b b' : Build} {d : Decl} {e : CompileError} {header : Routine} {i : Nat}

theorem declare_reserves (h : b.declare d = .ok (i, b')) :
    i = (b.catalog.routines d.kind).size ∧
      ∃ header, d.header = .ok header ∧ b.Reserves d header b' := by
  obtain ⟨header, hheader, hfresh, hadd, hawaited⟩ := declare_inv h
  obtain ⟨t, ht, hcatalog⟩ := Catalog.addRoutine_inv hadd
  obtain ⟨hi, -, rfl⟩ := Table.add?_inv (RoutineTable.add_inv ht)
  exact ⟨hi, header, hheader, hfresh, hcatalog, hawaited⟩

/-- A declaration with a new name is not entered if its parameters cannot be declared, and only
then. -/
theorem header_of_declare (h : b.declare d = .error e)
    (hnone : (b.catalog.routines d.kind).indexOf? d.name.name = none) : d.header = .error e := by
  have hheader := declare_eq_error h hnone
  rw [declare, Table.contains, hnone, Option.isSome_none, if_neg Bool.false_ne_true] at h
  cases hd : d.header with
  | ok header =>
    rw [hd] at hheader
    cases hheader
  | error error =>
    rw [hd] at h
    exact congrArg _ (Except.error.inj h)

/-- What is in a table can be replaced, so it is the body that is wrong. -/
theorem finish_error {old : Routine} (hold : (b.catalog.routines d.kind).at? i = some old)
    (h : b.finish d i = (.error e, b')) : b' = b ∧ (d.compile b.catalog []).1 = .error e := by
  rw [finish] at h
  split at h
  · next error herror =>
    obtain ⟨herr, rfl⟩ := Prod.mk.inj h
    exact ⟨rfl, herror.trans (congrArg _ (Except.error.inj herr))⟩
  · next r _ =>
    obtain ⟨c, hreplace⟩ := Catalog.replaceRoutine_of_at? (r := r) hold
    rw [hreplace] at h
    cases h

namespace Reserves

variable (h : b.Reserves d header b')
include h

/-- Under its name the routine without code is found, and under every other name what was found
before. -/
theorem lookup?_eq (kind : RoutineKind) (name : String) :
    (b'.catalog.routines kind).lookup? name =
      if (kind, name) = d.key then
        some ((b.catalog.routines d.kind).size,
          { header with index? := some (b.catalog.routines d.kind).size })
      else (b.catalog.routines kind).lookup? name := by
  have hadd := Table.add?_of_none (fun index => { header with index? := some index }) h.fresh
  rw [h.catalog_eq, Catalog.routines_setRoutines]
  by_cases hkind : kind = d.kind
  · subst hkind
    rw [if_pos rfl, Table.lookup?_add? hadd]
    simp only [Decl.key, Prod.mk.injEq, true_and]
  · rw [if_neg hkind, if_neg fun hkey => hkind (congrArg Prod.fst hkey)]

theorem delegates_eq : b'.catalog.delegates = b.catalog.delegates := by
  rw [h.catalog_eq]
  cases d.kind <;> rfl

/-- Calls of other names are what they were. -/
theorem callee_eq {f : Ident} (hne : (.function, f.name) ≠ d.key) (found : Nat)
    (position : Position) : callee b'.catalog f found position =
      callee b.catalog f found position := by
  have hlookup : b'.catalog.functions.lookup? f.name = b.catalog.functions.lookup? f.name :=
    (h.lookup?_eq .function f.name).trans (if_neg hne)
  rw [callee, callee, hlookup, h.delegates_eq]

end Reserves

/-- **What a declaration that does not compile changes.** Nothing, if its name was in its table
already or its parameters cannot be declared. Otherwise its name has been entered without code, and
its body has the error. Calls of other names are then what they were. -/
theorem compile_error (h : b.compile d = (.error e, b')) :
    (b' = b ∧ ((b.catalog.routines d.kind).contains d.name.name = true ∨ d.header = .error e)) ∨
      ∃ header, d.header = .ok header ∧ b.Reserves d header b' ∧
        (d.compile b'.catalog []).1 = .error e ∧
        ∀ f : Ident, (.function, f.name) ≠ d.key → ∀ found position,
          callee b'.catalog f found position = callee b.catalog f found position := by
  rw [compile] at h
  split at h
  · next i hindex =>
    have hcontains : (b.catalog.routines d.kind).contains d.name.name = true := by
      rw [Table.contains, hindex]
      rfl
    split at h
    · obtain ⟨old, hold⟩ := Table.at?_of_indexOf? hindex
      exact .inl ⟨(finish_error hold h).1, .inl hcontains⟩
    · exact .inl ⟨(Prod.mk.inj h).2.symm, .inl hcontains⟩
  · next hnone =>
    split at h
    · next error hdeclare =>
      obtain ⟨herr, rfl⟩ := Prod.mk.inj h
      rw [Except.error.inj herr] at hdeclare
      exact .inl ⟨rfl, .inr (header_of_declare hdeclare hnone)⟩
    · next i b₁ hdeclare =>
      obtain ⟨rfl, header, hheader, hreserves⟩ := declare_reserves hdeclare
      have hlookup := (hreserves.lookup?_eq d.kind d.name.name).trans (if_pos rfl)
      obtain ⟨-, hold⟩ := Table.lookup?_eq_some.1 hlookup
      obtain ⟨rfl, herror⟩ := finish_error hold h
      exact .inr ⟨header, hheader, hreserves, herror,
        fun _ hne found position => hreserves.callee_eq hne found position⟩

/-- A function whose body names a variable that it does not have. -/
def stumbling : Decl where
  kind := .function
  name := ⟨"f", .nowhere⟩
  parameters := []
  body := [.expr (.var "x" .nowhere) .nowhere]
  position := .nowhere

theorem stumbling_error : ∃ b' header, compile ⟨{}, []⟩ stumbling =
      (.error (.unknownVariable "x" .nowhere), b') ∧ stumbling.header = .ok header ∧
        Reserves ⟨{}, []⟩ stumbling header b' := by
  have h : compile ⟨{}, []⟩ stumbling =
      (.error (.unknownVariable "x" .nowhere), (compile ⟨{}, []⟩ stumbling).2) :=
    Prod.ext (by decide +kernel) rfl
  obtain ⟨-, hold | hheader⟩ | ⟨header, hheader, hreserves, -⟩ := compile_error h
  · exact absurd hold (by decide +kernel)
  · cases hheader
  · exact ⟨_, header, h, hheader, hreserves⟩

/-- Its name stays: it can be called, where it could not be before, and who does not await it
cannot use the name for a function that compiles. -/
theorem stumbling_stays :
    (compile ⟨{}, []⟩ stumbling).1 = .error (.unknownVariable "x" .nowhere) ∧
      ({} : Catalog).functions.at? 0 = none ∧
      (compile ⟨{}, []⟩ stumbling).2.catalog.functions.at? 0 = some { index? := some 0 } ∧
      callee {} stumbling.name 0 .nowhere = .error (.unknownFunction "f" .nowhere) ∧
      callee (compile ⟨{}, []⟩ stumbling).2.catalog stumbling.name 0 .nowhere = .ok (.call 0) ∧
      (compile ⟨{}, []⟩ { stumbling with body := [] }).1 = .ok ⟨.function, "f", 0⟩ ∧
      (compile ⟨(compile ⟨{}, []⟩ stumbling).2.catalog, []⟩ { stumbling with body := [] }).1 =
        .error (.duplicateDeclaration "function" "f" .nowhere) := by
  decide +kernel

end Build

end Danmaku
