import Danmaku.Proofs.Catalog.Table
import Danmaku.Proofs.Compile.Success

/-!
# Catalogs that grow

A host makes a catalog by entering things (`Catalog.Made`), so a firing function knows its own
number (`Catalog.Made.firing_at?`). Compilation enters routines and gives them code. Neither takes
anything away that code refers to: a name keeps its number, and a number its parameters
(`Catalog.Grows`). A host may enter more besides (`Catalog.Extends`).
-/

namespace Danmaku

/-! ## Routines -/

/-- The routines of a table have kept their names, numbers and parameters; their code may be new. -/
structure RoutineTable.Grows (t t' : RoutineTable) : Prop where
  size : t.size ≤ t'.size
  index : ∀ name i, t.indexOf? name = some i → t'.indexOf? name = some i
  parameters : ∀ i r, t.at? i = some r →
    ∃ r', t'.at? i = some r' ∧ r'.parameterCount = r.parameterCount

namespace RoutineTable

variable {t t' t'' : RoutineTable} {kind : RoutineKind} {name : String} {r : Routine} {i : Nat}

theorem Grows.refl (t : RoutineTable) : t.Grows t :=
  ⟨Nat.le_refl _, fun _ _ h => h, fun _ r h => ⟨r, h, rfl⟩⟩

theorem Grows.trans (h : t.Grows t') (h' : t'.Grows t'') : t.Grows t'' := by
  refine ⟨h.size.trans h'.size, fun name i hi => h'.index _ _ (h.index _ _ hi), fun i r hr => ?_⟩
  obtain ⟨r', hr', hcount⟩ := h.parameters i r hr
  obtain ⟨r'', hr'', hcount'⟩ := h'.parameters i r' hr'
  exact ⟨r'', hr'', hcount'.trans hcount⟩

/-- A number and a routine that were found under a name still belong to it. -/
theorem Grows.lookup (h : t.Grows t') (hl : t.lookup? name = some (i, r)) :
    ∃ r', t'.lookup? name = some (i, r') ∧ r'.parameterCount = r.parameterCount := by
  obtain ⟨hi, hr⟩ := Table.lookup?_eq_some.1 hl
  obtain ⟨r', hr', hcount⟩ := h.parameters i r hr
  exact ⟨r', Table.lookup?_eq_some.2 ⟨h.index name i hi, hr'⟩, hcount⟩

theorem add_inv (h : t.add kind name r = .ok (i, t')) :
    t.add? name (fun index => { r with index? := some index }) = some (i, t') := by
  unfold add at h
  split at h
  · next hadd => rw [hadd, Except.ok.inj h]
  · cases h

theorem replace_inv (h : t.replace kind i r = .ok t') :
    t.replace? i { r with index? := some i } = some t' := by
  unfold replace at h
  split at h
  · next hrep => rw [hrep, Except.ok.inj h]
  · cases h

theorem add_grows (h : t.add kind name r = .ok (i, t')) : t.Grows t' := by
  have hadd := add_inv h
  obtain ⟨-, hnone, -⟩ := Table.add?_inv hadd
  refine ⟨by rw [Table.size_add? hadd]; omega, fun other j hj => ?_, fun j e he => ?_⟩
  · rw [Table.indexOf?_add? hadd, if_neg ?_, hj]
    rintro rfl
    rw [hnone] at hj
    cases hj
  · exact ⟨e, Table.at?_add?_of_some hadd he, rfl⟩

theorem replace_grows (h : t.replace kind i r = .ok t')
    (hcount : ∀ old, t.at? i = some old → r.parameterCount = old.parameterCount) : t.Grows t' := by
  have hrep := replace_inv h
  refine ⟨(Table.size_replace? hrep).ge, fun other j hj => ?_, fun j e he => ?_⟩
  · rw [Table.indexOf?_replace? hrep, hj]
  · rw [Table.at?_replace? hrep]
    split
    · next hj =>
      subst hj
      exact ⟨_, rfl, hcount e he⟩
    · exact ⟨e, he, rfl⟩

end RoutineTable

/-! ## Catalogs -/

/-- What code refers to by number is still there. -/
structure Catalog.Grows (c c' : Catalog) : Prop where
  types : c'.types = c.types
  firing : c'.firing = c.firing
  delegates : c'.delegates = c.delegates
  routines : ∀ kind, (c.routines kind).Grows (c'.routines kind)

/-- What code refers to by number is still there, and routines have kept their parameters, and
firing functions their arity. More things of any kind may have been entered. -/
structure Catalog.Extends (c c' : Catalog) : Prop where
  properties : c.types.propertyNames.length ≤ c'.types.propertyNames.length
  firing : ∀ i f, c.firing.at? i = some f → c'.firing.at? i = some f
  delegates : c.delegates.size ≤ c'.delegates.size
  routines : ∀ kind, (c.routines kind).Grows (c'.routines kind)

/-- The catalogs that can be made by entering things. -/
inductive Catalog.Made : Catalog → Prop
  | empty : Made {}
  | type {c c' : Catalog} {name : String} {host i : Nat} (h : Made c)
      (add : c.addType name host = .ok (i, c')) : Made c'
  | property {c c' : Catalog} {typeName name : String} {accessor : Accessor} {i : Nat} (h : Made c)
      (add : c.addProperty typeName name accessor = .ok (i, c')) : Made c'
  | properties {c : Catalog} (h : Made c) : Made c.rebuildProperties
  | firing {c c' : Catalog} {typeName name : String} {arity i : Nat} (h : Made c)
      (add : c.addFiring typeName name arity = .ok (i, c')) : Made c'
  | delegate {c c' : Catalog} {name : String} {delegate : Delegate} {i : Nat} (h : Made c)
      (add : c.addDelegate name delegate = .ok (i, c')) : Made c'
  | routine {c c' : Catalog} {kind : RoutineKind} {name : String} {r : Routine} {i : Nat}
      (h : Made c) (add : c.addRoutine kind name r = .ok (i, c')) : Made c'
  | replacement {c c' : Catalog} {kind : RoutineKind} {i : Nat} {r : Routine} (h : Made c)
      (replace : c.replaceRoutine kind i r = .ok c') : Made c'

namespace Catalog

variable {c c' c'' : Catalog} {kind : RoutineKind} {name : String} {r : Routine} {i : Nat}

theorem Grows.refl (c : Catalog) : c.Grows c := ⟨rfl, rfl, rfl, fun _ => .refl _⟩

theorem Grows.trans (h : c.Grows c') (h' : c'.Grows c'') : c.Grows c'' :=
  ⟨h'.types.trans h.types, h'.firing.trans h.firing, h'.delegates.trans h.delegates,
    fun kind => (h.routines kind).trans (h'.routines kind)⟩

theorem Grows.extends (h : c.Grows c') : c.Extends c' :=
  ⟨h.types.symm ▸ Nat.le_refl _, fun _ _ hf => h.firing ▸ hf, h.delegates.symm ▸ Nat.le_refl _,
    h.routines⟩

theorem Extends.firing_size (h : c.Extends c') : c.firing.size ≤ c'.firing.size := by
  refine Nat.le_of_not_lt fun hlt => ?_
  obtain ⟨f, hf⟩ := Table.at?_of_lt hlt
  exact absurd (Table.at?_lt (h.firing _ f hf)) (Nat.lt_irrefl _)

theorem routines_setRoutines (c : Catalog) (kind other : RoutineKind) (t : RoutineTable) :
    (c.setRoutines kind t).routines other = if other = kind then t else c.routines other := by
  cases kind <;> cases other <;> rfl

theorem setRoutines_grows {t : RoutineTable} (h : (c.routines kind).Grows t) :
    c.Grows (c.setRoutines kind t) := by
  refine ⟨?_, ?_, ?_, fun other => ?_⟩
  · cases kind <;> rfl
  · cases kind <;> rfl
  · cases kind <;> rfl
  · rw [routines_setRoutines]
    split
    · next he => exact he ▸ h
    · exact .refl _

theorem addRoutine_inv (h : c.addRoutine kind name r = .ok (i, c')) :
    ∃ t, (c.routines kind).add kind name r = .ok (i, t) ∧ c' = c.setRoutines kind t := by
  obtain ⟨⟨j, t⟩, ht, heq⟩ := map_eq_ok.1 h
  obtain ⟨rfl, rfl⟩ := Prod.mk.inj heq
  exact ⟨t, ht, rfl⟩

theorem replaceRoutine_inv (h : c.replaceRoutine kind i r = .ok c') :
    ∃ t, (c.routines kind).replace kind i r = .ok t ∧ c' = c.setRoutines kind t := by
  obtain ⟨t, ht, heq⟩ := map_eq_ok.1 h
  exact ⟨t, ht, heq.symm⟩

theorem addRoutine_grows (h : c.addRoutine kind name r = .ok (i, c')) : c.Grows c' := by
  obtain ⟨t, ht, rfl⟩ := addRoutine_inv h
  exact setRoutines_grows (RoutineTable.add_grows ht)

theorem replaceRoutine_grows (h : c.replaceRoutine kind i r = .ok c')
    (hcount : ∀ old, (c.routines kind).at? i = some old → r.parameterCount = old.parameterCount) :
    c.Grows c' := by
  obtain ⟨t, ht, rfl⟩ := replaceRoutine_inv h
  exact setRoutines_grows (RoutineTable.replace_grows ht hcount)

theorem setRoutines_firing (c : Catalog) (kind : RoutineKind) (t : RoutineTable) :
    (c.setRoutines kind t).firing = c.firing := by
  cases kind <;> rfl

/-- **A firing function has the number under which it stands.** -/
theorem Made.firing_index (h : c.Made) {function : FiringFunction}
    (hf : c.firing.at? i = some function) : function.index = i := by
  induction h with
  | empty => cases hf
  | type _ add ih | property _ add ih | delegate _ add ih =>
    obtain ⟨x, hx, heq⟩ := map_eq_ok.1 add
    obtain ⟨-, rfl⟩ := Prod.mk.inj heq
    exact ih hf
  | properties _ ih => exact ih hf
  | routine _ add ih =>
    obtain ⟨t, -, rfl⟩ := addRoutine_inv add
    exact ih (by rwa [setRoutines_firing] at hf)
  | replacement _ replace ih =>
    obtain ⟨t, -, rfl⟩ := replaceRoutine_inv replace
    exact ih (by rwa [setRoutines_firing] at hf)
  | firing _ add ih =>
    unfold addFiring at add
    split at add
    · obtain ⟨⟨j, t⟩, ht, heq⟩ := map_eq_ok.1 add
      obtain ⟨rfl, rfl⟩ := Prod.mk.inj heq
      unfold FiringTable.add at ht
      split at ht
      · next hadd =>
        obtain rfl := Except.ok.inj ht
        rw [Table.at?_add? hadd] at hf
        split at hf
        · next hi =>
          obtain rfl := Option.some.inj hf
          exact hi.symm
        · exact ih hf
      · cases ht
    · cases add

/-- What is found under a name is found under its own number. -/
theorem Made.firing_at? (h : c.Made) {key : String × String} {function : FiringFunction}
    (hf : c.firing.find? key = some function) : c.firing.at? function.index = some function := by
  obtain ⟨j, -, hj⟩ := Table.find?_eq_some.1 hf
  rwa [h.firing_index hj]

end Catalog

end Danmaku
