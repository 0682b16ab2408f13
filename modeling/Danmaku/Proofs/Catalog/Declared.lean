import Danmaku.Proofs.Catalog.Growth
import Danmaku.Proofs.Compile.Names

/-!
# Routines that are declared

A host makes a routine from its parameters, declares further names in it, and gives it whatever code
it likes (`Routine.Declared`). The parameters are then among the variables
(`Routine.Declared.parameterCount_le`). Entering such routines in a catalog makes a catalog of such
routines (`Catalog.Declared.addRoutine`).
-/

namespace Danmaku

/-- The routines that can be made by declaring names, with any code. -/
inductive Routine.Declared : Routine → Prop
  | parameters {names : List String} {position : Position} {r : Routine}
      (make : withParameters names position = .ok r) : Declared r
  | number {r r' : Routine} {name : String} {position : Position} {slot : Nat} (h : Declared r)
      (declare : r.declareNumber name position = .ok (r', slot)) : Declared r'
  | handle {r r' : Routine} {name : String} {position : Position} {slot : Nat} (h : Declared r)
      (declare : r.declareHandle name position = .ok (r', slot)) : Declared r'
  | code {r : Routine} (h : Declared r) (code : Code) : Declared { r with code }
  | index {r : Routine} (h : Declared r) (index? : Option Nat) : Declared { r with index? }

/-- **The parameters of a declared routine are among its variables.** -/
theorem Routine.Declared.parameterCount_le {r : Routine} (h : r.Declared) :
    r.parameterCount ≤ r.variableCount := by
  have grows {r r' : Routine} (ih : r.parameterCount ≤ r.variableCount) (hgrows : r.Grows r') :
      r'.parameterCount ≤ r'.variableCount := by
    rw [hgrows.parameterCount]
    exact ih.trans hgrows.numbers.length_le
  induction h with
  | parameters make =>
    obtain ⟨hnumbers, -, hcount⟩ := withParameters_inv make
    rw [hcount, variableCount, hnumbers]
  | number _ declare ih => exact grows ih (declareNumber_grows declare)
  | handle _ declare ih => exact grows ih (declareHandle_grows declare)
  | code _ _ ih => exact ih
  | index _ _ ih => exact ih

/-- Every routine of the catalog is declared. -/
def Catalog.Declared (c : Catalog) : Prop :=
  ∀ kind i r, (c.routines kind).at? i = some r → r.Declared

namespace Catalog.Declared

variable {c c' : Catalog} {kind : RoutineKind} {name : String} {r : Routine} {i : Nat}

theorem empty : Catalog.Declared {} := by
  intro kind i r h
  cases kind <;> cases h

theorem setRoutines (h : c.Declared) {t : RoutineTable}
    (ht : ∀ i r, t.at? i = some r → r.Declared) : (c.setRoutines kind t).Declared := by
  intro other i r hr
  rw [routines_setRoutines] at hr
  split at hr
  · exact ht i r hr
  · exact h other i r hr

theorem addRoutine (h : c.Declared) (hr : r.Declared)
    (hadd : c.addRoutine kind name r = .ok (i, c')) : c'.Declared := by
  obtain ⟨t, ht, rfl⟩ := addRoutine_inv hadd
  refine h.setRoutines fun j r' hj => ?_
  rw [Table.at?_add? (RoutineTable.add_inv ht)] at hj
  split at hj
  · exact Option.some.inj hj ▸ hr.index _
  · exact h kind j r' hj

/-- The parameters of a function are among its variables. -/
theorem parameterCount_le (h : c.Declared) (hr : c.function? i = some r) :
    r.parameterCount ≤ r.variableCount :=
  (h .function i r hr).parameterCount_le

end Catalog.Declared

end Danmaku
