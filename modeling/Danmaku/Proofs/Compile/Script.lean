import Danmaku.Compile.Build
import Danmaku.Proofs.Compile.Sound

/-!
# Scripts in the catalog

A script is entered in the catalog before its bodies are compiled. From then on the names stay as
they are, and only code is put in the place of what was entered (`Catalog.Fills`). So every routine
of which the script reports that it was compiled has the code of its declaration, compiled when all
names of the script had their numbers (`Catalog.Implements`, `Build.script_implements`).
-/

namespace Danmaku

/-! ## Catalogs that are filled with code -/

/-- A catalog that has new code, but no new names. -/
structure Catalog.Fills (c c' : Catalog) : Prop where
  grows : c.Grows c'
  names : ∀ kind name, (c'.routines kind).indexOf? name = (c.routines kind).indexOf? name

/-- A routine of the catalog has the code of a declaration. -/
structure Catalog.Implements (c : Catalog) (d : Decl) (i : Nat) (r : Routine) : Prop where
  found : (c.routines d.kind).lookup? d.name.name = some (i, r)
  compiled : ∃ k r₀, k.Made ∧ k.Fills c ∧ d.compile k [] = (.ok r₀, []) ∧
    r = { r₀ with index? := some i }

namespace Catalog

variable {c c' c'' : Catalog} {kind other : RoutineKind} {name name' : String} {r e : Routine}
  {i j : Nat} {d : Decl}

theorem Fills.refl (c : Catalog) : c.Fills c := ⟨.refl c, fun _ _ => rfl⟩

theorem Fills.trans (h : c.Fills c') (h' : c'.Fills c'') : c.Fills c'' :=
  ⟨h.grows.trans h'.grows, fun kind name => (h'.names kind name).trans (h.names kind name)⟩

/-- What was found under a name is still found there once another name was entered. -/
theorem lookup?_addRoutine (h : c.addRoutine kind name r = .ok (i, c'))
    (hl : (c.routines other).lookup? name' = some (j, e)) :
    (c'.routines other).lookup? name' = some (j, e) := by
  obtain ⟨t, ht, rfl⟩ := addRoutine_inv h
  rw [routines_setRoutines]
  split
  · next hkind =>
    subst hkind
    have hadd := RoutineTable.add_inv ht
    obtain ⟨hindex, hat⟩ := Table.lookup?_eq_some.1 hl
    refine Table.lookup?_eq_some.2 ⟨?_, Table.at?_add?_of_some hadd hat⟩
    rw [Table.indexOf?_add? hadd, if_neg ?_, hindex]
    rintro rfl
    rw [(Table.add?_inv hadd).2.1] at hindex
    cases hindex
  · exact hl

/-- What was entered is found under its name. -/
theorem lookup?_addRoutine_self (h : c.addRoutine kind name r = .ok (i, c')) :
    (c'.routines kind).lookup? name = some (i, { r with index? := some i }) := by
  obtain ⟨t, ht, rfl⟩ := addRoutine_inv h
  have hadd := RoutineTable.add_inv ht
  obtain ⟨rfl, -⟩ := Table.add?_inv hadd
  rw [routines_setRoutines, if_pos rfl, Table.lookup?_eq_some, Table.indexOf?_add? hadd, if_pos rfl,
    Table.at?_add? hadd, if_pos rfl]
  exact ⟨rfl, rfl⟩

theorem indexOf?_replaceRoutine (h : c.replaceRoutine kind i r = .ok c') :
    (c'.routines other).indexOf? name = (c.routines other).indexOf? name := by
  obtain ⟨t, ht, rfl⟩ := replaceRoutine_inv h
  rw [routines_setRoutines]
  split
  · next hkind => rw [hkind, Table.indexOf?_replace? (RoutineTable.replace_inv ht)]
  · rfl

/-- What was put in a place is found under the name of that place. -/
theorem lookup?_replaceRoutine_self (h : c.replaceRoutine kind i r = .ok c')
    (hi : (c.routines kind).indexOf? name = some i) :
    (c'.routines kind).lookup? name = some (i, { r with index? := some i }) := by
  refine Table.lookup?_eq_some.2 ⟨(indexOf?_replaceRoutine h).trans hi, ?_⟩
  obtain ⟨t, ht, rfl⟩ := replaceRoutine_inv h
  rw [routines_setRoutines, if_pos rfl, Table.at?_replace? (RoutineTable.replace_inv ht),
    if_pos rfl]

/-- Under another name the same is found as before. -/
theorem lookup?_replaceRoutine (h : c.replaceRoutine kind i r = .ok c')
    (hi : (c.routines kind).indexOf? name = some i) (hne : (other, name') ≠ (kind, name)) :
    (c'.routines other).lookup? name' = (c.routines other).lookup? name' := by
  obtain ⟨t, ht, rfl⟩ := replaceRoutine_inv h
  rw [routines_setRoutines]
  split
  · next hkind =>
    subst hkind
    have hrep := RoutineTable.replace_inv ht
    rw [Table.lookup?, Table.lookup?, Table.indexOf?_replace? hrep]
    cases hj : (c.routines other).indexOf? name' with
    | none => rfl
    | some j =>
      have hij : j ≠ i := by
        rintro rfl
        have hkey := (Table.keyAt?_of_indexOf? hj).symm.trans (Table.keyAt?_of_indexOf? hi)
        exact hne (congrArg _ (Option.some.inj hkey))
      simp only [Option.bind_some, Table.at?_replace? hrep, if_neg hij]
  · rfl

theorem replaceRoutine_fills (h : c.replaceRoutine kind i r = .ok c')
    (hcount : ∀ old, (c.routines kind).at? i = some old → r.parameterCount = old.parameterCount) :
    c.Fills c' :=
  ⟨replaceRoutine_grows h hcount, fun _ _ => indexOf?_replaceRoutine h⟩

/-- What is in a table can be replaced. -/
theorem replaceRoutine_of_at? {old : Routine} (h : (c.routines kind).at? i = some old) :
    ∃ c', c.replaceRoutine kind i r = .ok c' := by
  obtain ⟨x, hx, -⟩ := Option.map_eq_some_iff.1 h
  rw [replaceRoutine, RoutineTable.replace, Table.replace?, hx]
  exact ⟨_, rfl⟩

/-- A routine still implements its declaration if it was not replaced. -/
theorem Implements.of_fills (h : c.Implements d i r) (hfills : c.Fills c')
    (hl : (c'.routines d.kind).lookup? d.name.name = (c.routines d.kind).lookup? d.name.name) :
    c'.Implements d i r := by
  obtain ⟨k, r₀, hmade, hk, hd, hr⟩ := h.compiled
  exact ⟨hl.trans h.found, k, r₀, hmade, hk.trans hfills, hd, hr⟩

end Catalog

/-! ## Entering -/

/-- The kind and the name of a declaration. -/
def Decl.key (d : Decl) : RoutineKind × String := (d.kind, d.name.name)

/-- The declaration of a script that is entered under a name: the first one whose parameters can be
declared. -/
def declarationOf? (declarations : List Decl) (kind : RoutineKind) (name : String) : Option Decl :=
  declarations.find? fun d => decide (d.key = (kind, name)) && d.header.isOk

/-- The declaration of a kind and a name that a script enters. -/
def Script.declaration (s : Script) (kind : RoutineKind) (name : String) : Decl :=
  (declarationOf? s.declarations kind name).getD default

/-- The function of a name as the script declares it. -/
abbrev Script.function (s : Script) (name : String) : Decl := s.declaration .function name

/-- A declaration is entered, and its body can be compiled. -/
structure Build.Awaits (b : Build) (d : Decl) : Prop where
  awaited : d.key ∈ b.awaited
  entered : ∃ i r, (b.catalog.routines d.kind).lookup? d.name.name = some (i, r) ∧
    r.parameterCount = d.parameters.length

namespace Build

variable {b b' : Build} {d d' : Decl} {i : Nat}

/-- A declaration is entered if its name is new and its parameters can be declared, and only
then. -/
theorem declare_inv (h : b.declare d = .ok (i, b')) :
    ∃ header, d.header = .ok header ∧ (b.catalog.routines d.kind).indexOf? d.name.name = none ∧
      b.catalog.addRoutine d.kind d.name.name header = .ok (i, b'.catalog) ∧
      b'.awaited = d.key :: b.awaited := by
  unfold declare at h
  split at h
  · cases h
  · next hnone =>
    split at h
    · cases h
    · next header hheader =>
      split at h
      · cases h
      · next hadd =>
        obtain ⟨rfl, rfl⟩ := Prod.mk.inj (Except.ok.inj h)
        exact ⟨header, hheader, Option.not_isSome_iff_eq_none.1 hnone, hadd, rfl⟩

theorem declare_eq_error {e : CompileError} (h : b.declare d = .error e)
    (hnone : (b.catalog.routines d.kind).indexOf? d.name.name = none) : d.header.isOk = false := by
  unfold declare at h
  rw [Table.contains, hnone, Option.isSome_none, if_neg Bool.false_ne_true] at h
  split at h
  · next hheader => rw [hheader]; rfl
  · next header hheader =>
    have hadd : b.catalog.addRoutine d.kind d.name.name header =
        .ok ((b.catalog.routines d.kind).size,
          b.catalog.setRoutines d.kind ⟨(b.catalog.routines d.kind).entries.push
            (d.name.name, { header with index? := some (b.catalog.routines d.kind).size })⟩) := by
      rw [Catalog.addRoutine, RoutineTable.add, Table.add?, Table.contains, hnone,
        Option.isSome_none, if_neg Bool.false_ne_true]
      rfl
    rw [hadd] at h
    cases h

theorem Awaits.declare (h : b.Awaits d') (hd : b.declare d = .ok (i, b')) : b'.Awaits d' := by
  obtain ⟨header, -, -, hadd, hawaited⟩ := declare_inv hd
  obtain ⟨j, r, hl, hcount⟩ := h.entered
  exact ⟨hawaited ▸ List.mem_cons_of_mem _ h.awaited, j, r, Catalog.lookup?_addRoutine hadd hl,
    hcount⟩

theorem declare_awaits (hd : b.declare d = .ok (i, b')) : b'.Awaits d := by
  obtain ⟨header, hheader, -, hadd, hawaited⟩ := declare_inv hd
  exact ⟨hawaited ▸ List.mem_cons_self, i, _, Catalog.lookup?_addRoutine_self hadd,
    (Routine.withParameters_inv hheader).2.2⟩

/-- What `declareAll` does: those that are entered are awaited, are the first with their names, and
had new names. -/
structure DeclaresAll (b : Build) (ds declared : List Decl) (b' : Build) : Prop where
  made : b.catalog.Made → b'.catalog.Made
  grows : b.catalog.Grows b'.catalog
  keeps : ∀ d, b.Awaits d → b'.Awaits d
  awaits : ∀ d ∈ declared, b'.Awaits d
  first : ∀ d ∈ declared, declarationOf? ds d.kind d.name.name = some d
  fresh : ∀ d ∈ declared, (b.catalog.routines d.kind).indexOf? d.name.name = none
  distinct : declared.Pairwise fun d d' => d.key ≠ d'.key

theorem declareAll_spec (b : Build) (ds : List Decl) :
    b.DeclaresAll ds (b.declareAll ds).1 (b.declareAll ds).2.2 := by
  induction ds generalizing b with
  | nil =>
    exact ⟨id, .refl _, fun _ => id, by simp [declareAll], by simp [declareAll],
      by simp [declareAll], .nil⟩
  | cons d ds ih =>
    cases hd : b.declare d with
    | error e =>
      have ih := ih b
      simp only [declareAll, hd]
      refine { ih with first := fun d' hd' => ?_ }
      rw [declarationOf?, List.find?_cons_of_neg, ← declarationOf?, ih.first d' hd']
      intro hmatch
      obtain ⟨hkey, hok⟩ := Bool.and_eq_true_iff.1 hmatch
      obtain ⟨hkind, hname⟩ := Prod.mk.inj (of_decide_eq_true hkey)
      rw [declare_eq_error hd (hkind ▸ hname ▸ ih.fresh d' hd')] at hok
      cases hok
    | ok x =>
      obtain ⟨i, b₁⟩ := x
      have ih := ih b₁
      obtain ⟨header, hheader, hnone, hadd, hawaited⟩ := declare_inv hd
      have hne : ∀ d' ∈ (b₁.declareAll ds).1, d.key ≠ d'.key := by
        intro d' hd' hkey
        obtain ⟨hkind, hname⟩ := Prod.mk.inj hkey
        have hself := (Table.lookup?_eq_some.1 (Catalog.lookup?_addRoutine_self hadd)).1
        rw [hkind, hname, ih.fresh d' hd'] at hself
        cases hself
      simp only [declareAll, hd]
      refine ⟨fun h => ih.made (.routine h hadd), (Catalog.addRoutine_grows hadd).trans ih.grows,
        fun d' h => ih.keeps d' (h.declare hd), ?_, ?_, ?_, List.pairwise_cons.2 ⟨hne, ih.distinct⟩⟩
      · exact List.forall_mem_cons.2 ⟨ih.keeps d (declare_awaits hd), ih.awaits⟩
      · refine List.forall_mem_cons.2 ⟨?_, fun d' hd' => ?_⟩
        · rw [declarationOf?, List.find?_cons_of_pos]
          simp only [Decl.key, hheader, decide_true, Bool.true_and]
          rfl
        · rw [declarationOf?, List.find?_cons_of_neg, ← declarationOf?, ih.first d' hd']
          intro hmatch
          exact hne d' hd' (of_decide_eq_true (Bool.and_eq_true_iff.1 hmatch).1)
      · refine List.forall_mem_cons.2 ⟨hnone, fun d' hd' => ?_⟩
        cases hj : (b.catalog.routines d'.kind).indexOf? d'.name.name with
        | none => rfl
        | some j =>
          obtain ⟨e, he⟩ := Table.at?_of_indexOf? hj
          have hl := Catalog.lookup?_addRoutine hadd (Table.lookup?_eq_some.2 ⟨hj, he⟩)
          rw [Table.lookup?_eq_some, ih.fresh d' hd'] at hl
          cases hl.1

/-! ## Compiling -/

/-- Compiling what is awaited puts the code of the declaration in its place, unless its body has an
error, which leaves everything as it is. -/
theorem compile_inv (h : b.Awaits d) {result : Except CompileError Compiled}
    (hc : b.compile d = (result, b')) :
    (b' = b ∧ ∃ e, (d.compile b.catalog []).1 = .error e ∧ result = .error e) ∨
      ∃ i r, result = .ok ⟨d.kind, d.name.name, i⟩ ∧
        (b.catalog.routines d.kind).indexOf? d.name.name = some i ∧
        d.compile b.catalog [] = (.ok r, []) ∧
        b.catalog.replaceRoutine d.kind i r = .ok b'.catalog ∧
        b'.awaited = b.awaited.filter (· != d.key) := by
  obtain ⟨i, old, hl, -⟩ := h.entered
  obtain ⟨hi, hold⟩ := Table.lookup?_eq_some.1 hl
  rw [compile, hi] at hc
  simp only [show b.awaits d = true from decide_eq_true h.awaited, if_true, finish] at hc
  split at hc
  · next e he =>
    obtain ⟨rfl, rfl⟩ := Prod.mk.inj hc
    exact .inl ⟨rfl, e, he, rfl⟩
  · next r hr =>
    obtain ⟨c, hrep⟩ := Catalog.replaceRoutine_of_at? (r := r) hold
    simp only [hrep] at hc
    obtain ⟨rfl, rfl⟩ := Prod.mk.inj hc
    have hd : d.compile b.catalog [] = (.ok r, (d.compile b.catalog []).2) := Prod.ext hr rfl
    obtain ⟨-, -, -, -, -, -, hs, -⟩ := Decl.compile_inv hd
    rw [hs] at hd
    exact .inr ⟨i, r, rfl, hi, hd, hrep, rfl⟩

/-- Compiling what is awaited only adds code. -/
theorem compile_fills (h : b.Awaits d) : b.catalog.Fills (b.compile d).2.catalog := by
  rcases compile_inv h (Prod.eta _).symm with ⟨hb, -⟩ | ⟨i, r, -, hi, hd, hrep, -⟩
  · rw [hb]
    exact .refl _
  · obtain ⟨i', old, hl, hcount⟩ := h.entered
    obtain ⟨hi', hold⟩ := Table.lookup?_eq_some.1 hl
    obtain rfl := Option.some.inj (hi.symm.trans hi')
    refine Catalog.replaceRoutine_fills hrep fun old' hold' => ?_
    obtain rfl := Option.some.inj (hold.symm.trans hold')
    rw [hcount, (Decl.compile_names hd).2.2]

/-- What stands under other names stays. -/
theorem lookup?_compile {kind : RoutineKind} {name : String} (h : b.Awaits d)
    (hne : (kind, name) ≠ d.key) :
    ((b.compile d).2.catalog.routines kind).lookup? name =
      (b.catalog.routines kind).lookup? name := by
  rcases compile_inv h (Prod.eta _).symm with ⟨hb, -⟩ | ⟨i, r, -, hi, -, hrep, -⟩
  · rw [hb]
  · exact Catalog.lookup?_replaceRoutine hrep hi hne

/-- What is awaited besides is still awaited. -/
theorem Awaits.compile (h' : b.Awaits d') (h : b.Awaits d) (hne : d'.key ≠ d.key) :
    (b.compile d).2.Awaits d' := by
  refine ⟨?_, ?_⟩
  · rcases compile_inv h (Prod.eta _).symm with ⟨hb, -⟩ | ⟨i, r, -, -, -, -, hawaited⟩
    · rw [hb]
      exact h'.awaited
    · rw [hawaited, List.mem_filter]
      exact ⟨h'.awaited, bne_iff_ne.2 hne⟩
  · rw [lookup?_compile h hne]
    exact h'.entered

/-- Several declarations are awaited under different names. -/
structure AwaitsAll (b : Build) (ds : List Decl) : Prop where
  awaits : ∀ d ∈ ds, b.Awaits d
  distinct : ds.Pairwise fun d d' => d.key ≠ d'.key

theorem DeclaresAll.awaitsAll {ds declared : List Decl} (h : b.DeclaresAll ds declared b') :
    b'.AwaitsAll declared := ⟨h.awaits, h.distinct⟩

theorem AwaitsAll.compile {ds : List Decl} (h : b.AwaitsAll (d :: ds)) :
    (b.compile d).2.AwaitsAll ds := by
  obtain ⟨hd, hds⟩ := List.forall_mem_cons.1 h.awaits
  obtain ⟨hne, hdistinct⟩ := List.pairwise_cons.1 h.distinct
  exact ⟨fun d' hd' => (hds d' hd').compile hd (hne d' hd').symm, hdistinct⟩

/-- The first declaration is compiled, and then the others are. -/
theorem compileAll_cons (b : Build) (d : Decl) (ds : List Decl) :
    (b.compileAll (d :: ds)).2.2 = ((b.compile d).2.compileAll ds).2.2 := by
  rw [compileAll]
  split <;> next hc => rw [hc]

/-- Compiling several declarations that are awaited only adds code. -/
theorem AwaitsAll.compileAll_fills {ds : List Decl} (h : b.AwaitsAll ds) :
    b.catalog.Fills (b.compileAll ds).2.2.catalog := by
  induction ds generalizing b with
  | nil => exact .refl _
  | cons d ds ih =>
    rw [compileAll_cons]
    exact (compile_fills (h.awaits d List.mem_cons_self)).trans (ih h.compile)

/-- Compiling several declarations leaves what stands under other names. -/
theorem AwaitsAll.lookup?_compileAll {ds : List Decl} {kind : RoutineKind} {name : String}
    (h : b.AwaitsAll ds) (hne : ∀ d ∈ ds, (kind, name) ≠ d.key) :
    ((b.compileAll ds).2.2.catalog.routines kind).lookup? name =
      (b.catalog.routines kind).lookup? name := by
  induction ds generalizing b with
  | nil => rfl
  | cons d ds ih =>
    rw [List.forall_mem_cons] at hne
    rw [compileAll_cons]
    exact (ih h.compile hne.2).trans (lookup?_compile (h.awaits d List.mem_cons_self) hne.1)

/-- What `compileAll` does to declarations that are all awaited: each one that is reported has its
code in the catalog, and what stands under other names stays. -/
structure CompilesAll (b : Build) (ds : List Decl) (compiled : List Compiled) (b' : Build) :
    Prop where
  made : b'.catalog.Made
  fills : b.catalog.Fills b'.catalog
  others : ∀ kind name, (∀ d ∈ ds, (kind, name) ≠ d.key) →
    (b'.catalog.routines kind).lookup? name = (b.catalog.routines kind).lookup? name
  implements : ∀ x ∈ compiled, ∃ d ∈ ds, ∃ r, x.kind = d.kind ∧ x.name = d.name.name ∧
    b'.catalog.Implements d x.index r

theorem compileAll_spec (ds : List Decl) (hmade : b.catalog.Made) (hawaits : b.AwaitsAll ds) :
    b.CompilesAll ds (b.compileAll ds).1 (b.compileAll ds).2.2 := by
  have hall := hawaits.compileAll_fills
  have hothers (kind : RoutineKind) (name : String) (hne : ∀ d ∈ ds, (kind, name) ≠ d.key) :=
    hawaits.lookup?_compileAll hne
  suffices h : (b.compileAll ds).2.2.catalog.Made ∧
      ∀ x ∈ (b.compileAll ds).1, ∃ d ∈ ds, ∃ r, x.kind = d.kind ∧ x.name = d.name.name ∧
        (b.compileAll ds).2.2.catalog.Implements d x.index r from ⟨h.1, hall, hothers, h.2⟩
  clear hall hothers
  induction ds generalizing b with
  | nil => exact ⟨hmade, by simp [compileAll]⟩
  | cons d ds ih =>
    have hd := hawaits.awaits d List.mem_cons_self
    have hfills := compile_fills hd
    have hnext := hawaits.compile
    cases hc : b.compile d with
    | mk result b₁ =>
      rw [hc] at hfills hnext
      rcases compile_inv hd hc with ⟨rfl, e, -, rfl⟩ | ⟨i, r, rfl, hi, hcode, hrep, -⟩
      · obtain ⟨hmade', himplements⟩ := ih hmade hnext
        simp only [compileAll, hc]
        refine ⟨hmade', fun x hx => ?_⟩
        obtain ⟨d', hd', himp⟩ := himplements x hx
        exact ⟨d', List.mem_cons_of_mem _ hd', himp⟩
      · obtain ⟨hmade', himplements⟩ := ih (.replacement hmade hrep) hnext
        have hself : b₁.catalog.Implements d i { r with index? := some i } :=
          ⟨Catalog.lookup?_replaceRoutine_self hrep hi, b.catalog, r, hmade, hfills, hcode, rfl⟩
        simp only [compileAll, hc]
        refine ⟨hmade', List.forall_mem_cons.2 ⟨?_, fun x hx => ?_⟩⟩
        · exact ⟨d, List.mem_cons_self, _, rfl, rfl, hself.of_fills hnext.compileAll_fills
            (hnext.lookup?_compileAll (List.pairwise_cons.1 hawaits.distinct).1)⟩
        · obtain ⟨d', hd', himp⟩ := himplements x hx
          exact ⟨d', List.mem_cons_of_mem _ hd', himp⟩

/-! ## Scripts -/

variable {s : Script} {kind : RoutineKind} {name : String}

theorem compilesAll_script (hmade : b.catalog.Made) :
    (b.declareAll s.declarations).2.2.CompilesAll (b.declareAll s.declarations).1
      (b.script s).1.compiled (b.script s).2 := by
  have hspec := b.declareAll_spec s.declarations
  exact compileAll_spec _ (hspec.made hmade) hspec.awaitsAll

theorem script_made (hmade : b.catalog.Made) : (b.script s).2.catalog.Made :=
  (compilesAll_script hmade).made

/-- **A script only adds to a catalog.** Names, numbers and parameter counts that were there before
stay, so the code of earlier scripts can go on. -/
theorem script_grows (b : Build) (s : Script) : b.catalog.Grows (b.script s).2.catalog := by
  have hspec := b.declareAll_spec s.declarations
  exact hspec.grows.trans hspec.awaitsAll.compileAll_fills.grows

/-- **A routine that a script reports as compiled has the code of its declaration.** -/
theorem script_implements (hmade : b.catalog.Made)
    (h : (b.script s).1.indexOf? kind name = some i) :
    ∃ d r, declarationOf? s.declarations kind name = some d ∧ d.kind = kind ∧ d.name.name = name ∧
      (b.script s).2.catalog.Implements d i r := by
  rw [BuildResult.indexOf?, Option.map_eq_some_iff] at h
  obtain ⟨x, hx, rfl⟩ := h
  have hkey : x.kind = kind ∧ x.name = name := by simpa using List.find?_some hx
  obtain ⟨d, hd, r, hkind, hname, himp⟩ :=
    (compilesAll_script hmade).implements x (List.mem_of_find?_eq_some hx)
  obtain ⟨rfl, rfl⟩ := hkey
  rw [hkind, hname]
  exact ⟨d, r, (b.declareAll_spec s.declarations).first d hd, rfl, rfl, himp⟩

/-- What a script reports as compiled has the code of its declaration. -/
theorem implements_declaration {r : Routine} (hmade : b.catalog.Made)
    (h : (b.script s).1.indexOf? kind name = some i)
    (hat : ((b.script s).2.catalog.routines kind).at? i = some r) :
    (b.script s).2.catalog.Implements (s.declaration kind name) i r ∧
      ((b.script s).2.catalog.routines kind).indexOf? name = some i := by
  obtain ⟨d, r', hd, rfl, rfl, himp⟩ := script_implements hmade h
  obtain ⟨hindex, hat'⟩ := Table.lookup?_eq_some.1 himp.found
  obtain rfl := Option.some.inj (hat.symm.trans hat')
  rw [Script.declaration, hd, Option.getD_some]
  exact ⟨himp, hindex⟩

/-- A script gave a catalog a function: it was compiled to it, and since then at most more was
entered in the catalog, and the function was not replaced. -/
structure Provides (b : Build) (s : Script) (K : Catalog) (name : String) (i : Nat) (r : Routine) :
    Prop where
  made : b.catalog.Made
  small : (b.script s).2.catalog.Small
  compiled : (b.script s).1.indexOf? .function name = some i
  code : (b.script s).2.catalog.function? i = some r
  routine_small : r.Small
  extended : (b.script s).2.catalog.Extends K
  kept : K.function? i = some r

end Build

/-! ## Small scripts -/

/-- No number is above `2 ^ 24`, in the tables of the catalog or in its routines. -/
structure Catalog.AllSmall (K : Catalog) : Prop extends K.Small where
  routines : ∀ kind i r, (K.routines kind).at? i = some r → r.Small

/-- A function that returns its argument, and an action that calls it. -/
def Script.echo : Script where
  declarations :=
    [{ kind := .function
       name := ⟨"echo", .nowhere⟩
       parameters := ["x"]
       body := [.ret (some (.var "x" .nowhere)) .nowhere]
       position := .nowhere },
     { kind := .action
       name := ⟨"main", .nowhere⟩
       parameters := []
       body := [.expr (.call ⟨"echo", .nowhere⟩ [.num 1 .nowhere] .nowhere) .nowhere]
       position := .nowhere }]

/-- The catalog of a script alone. -/
def Script.catalog (s : Script) : Catalog := ((⟨{}, []⟩ : Build).script s).2.catalog

/-- The first action of a script. -/
def Script.main (s : Script) : Routine := (s.catalog.actions.at? 0).getD default

/-- Whether all numbers are small can be seen from the sizes of the tables and from their entries. -/
theorem Catalog.allSmall_iff {K : Catalog} : K.AllSmall ↔
    (K.types.propertyNames.length ≤ 0x1000001 ∧ K.functions.size ≤ 0x1000001 ∧
      K.delegates.size ≤ 0x1000001 ∧ K.firing.size ≤ 0x1000001 ∧
      K.bulletUpdaters.size ≤ 0x1000001) ∧
    ∀ kind ∈ RoutineKind.all, ∀ x ∈ (K.routines kind).entries.toList,
      x.2.code.size ≤ 0x1000000 ∧ x.2.variableCount ≤ 0x1000001 := by
  constructor
  · intro h
    refine ⟨⟨h.properties, h.functions, h.delegates, h.firing, h.bulletUpdaters⟩, ?_⟩
    intro kind _ x hx
    obtain ⟨i, hi⟩ := List.mem_iff_getElem?.1 hx
    rw [Array.getElem?_toList] at hi
    have hsmall : x.2.Small := h.routines kind i x.2 (Option.map_eq_some_iff.2 ⟨x, hi, rfl⟩)
    exact ⟨hsmall.code, hsmall.variableCount⟩
  · rintro ⟨⟨hproperties, hfunctions, hdelegates, hfiring, hupdaters⟩, hroutines⟩
    refine ⟨⟨hproperties, hfunctions, hdelegates, hfiring, hupdaters⟩, fun kind i r hr => ?_⟩
    obtain ⟨x, hx, rfl⟩ := Option.map_eq_some_iff.1 hr
    have hkind : kind ∈ RoutineKind.all := by cases kind <;> decide
    obtain ⟨hcode, hcount⟩ :=
      hroutines kind hkind x (Array.mem_toList_iff.2 (Array.mem_of_getElem? hx))
    exact ⟨hcode, hcount⟩

instance (K : Catalog) : Decidable K.AllSmall := decidable_of_iff' _ Catalog.allSmall_iff

theorem Script.echo_allSmall : Script.echo.catalog.AllSmall := by decide +kernel

theorem Script.at?_main {s : Script} (h : (s.catalog.actions.at? 0).isSome = true) :
    s.catalog.actions.at? 0 = some s.main :=
  (Option.getD_of_ne_none (Option.isSome_iff_ne_none.1 h) default).symm

/-- A catalog with one delegate. -/
def Catalog.withMaximum : Catalog :=
  { delegates := ⟨#[("max", ⟨"max", 0, .maximum⟩)]⟩ }

theorem Catalog.withMaximum_made : Catalog.withMaximum.Made := by
  have hnew : ({} : DelegateTable).contains "max" = false := by decide +kernel
  have hadd : ({} : Catalog).addDelegate "max" .maximum = .ok (0, withMaximum) := by
    simp only [addDelegate, DelegateTable.add, Table.add?, hnew]
    rfl
  exact .delegate .empty hadd

end Danmaku
