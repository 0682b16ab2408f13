import Danmaku.Proofs.Compile.Acceptance
import Danmaku.Proofs.Compile.Failure
import Danmaku.Proofs.Compile.Order

/-!
# The accounts of a script

Each declaration of a script becomes a routine or has an error, and not both. What becomes of it can
be told without a look at the build in between (`Build.outcome`): its name may be taken, by the
catalog or by a declaration before it that was entered; and otherwise its parameters and its body
decide, which is compiled against the finished catalog.

The reports of a script are the outcomes of its declarations, each once (`Build.script_accounts`).
For the entering this is seen one declaration at a time, as what it leaves is a build in which one
more name is taken (`Build.taken_cons`); for the bodies, all that changes between them is code,
which they do not see.
-/

namespace Danmaku

/-! ## What stays where it is -/

/-- Every entry of a table is where it was. -/
def Catalog.Keeps (c c' : Catalog) : Prop :=
  ∀ (kind : RoutineKind) (i : Nat) (entry : String × Routine),
    (c.routines kind).entries[i]? = some entry → (c'.routines kind).entries[i]? = some entry

namespace Catalog.Keeps

variable {c c' k : Catalog} {kind : RoutineKind} {name : String} {i : Nat} {r : Routine}

theorem refl (c : Catalog) : c.Keeps c := fun _ _ _ h => h

theorem trans {c'' : Catalog} (h : c.Keeps c') (h' : c'.Keeps c'') : c.Keeps c'' :=
  fun kind i entry he => h' kind i entry (h kind i entry he)

theorem addRoutine (h : c.addRoutine kind name r = .ok (i, c')) : c.Keeps c' := by
  obtain ⟨t, ht, rfl⟩ := addRoutine_inv h
  obtain ⟨-, -, rfl⟩ := Table.add?_inv (RoutineTable.add_inv ht)
  intro other j entry he
  rw [routines_setRoutines]
  split
  · next hkind =>
    subst hkind
    have hlt := (Array.getElem?_eq_some_iff.1 he).1
    rw [Array.getElem?_push_lt hlt, ← he, Array.getElem?_eq_getElem hlt]
  · exact he

/-- A number that was not given before can be given another entry. -/
theorem replaceRoutine (h : k.Keeps c) (hfree : (k.routines kind).entries[i]? = none)
    (hrep : c.replaceRoutine kind i r = .ok c') : k.Keeps c' := by
  obtain ⟨t, ht, rfl⟩ := replaceRoutine_inv hrep
  obtain ⟨old, -, rfl⟩ := Table.replace?_inv (RoutineTable.replace_inv ht)
  intro other j entry he
  rw [routines_setRoutines]
  split
  · next hkind =>
    subst hkind
    have hne : i ≠ j := by
      rintro rfl
      rw [hfree] at he
      cases he
    rw [Array.getElem?_setIfInBounds_ne hne, h _ _ _ he]
  · exact h _ _ _ he

/-- A new name has a number that was not given before. -/
theorem free (h : c.Keeps c') (hnone : (c.routines kind).indexOf? name = none)
    (hi : (c'.routines kind).indexOf? name = some i) : (c.routines kind).entries[i]? = none := by
  cases he : (c.routines kind).entries[i]? with
  | none => rfl
  | some entry =>
    have hkey := Table.keyAt?_of_indexOf? hi
    rw [Table.keyAt?, h _ _ _ he] at hkey
    obtain rfl : entry.1 = name := Option.some.inj hkey
    rw [Table.indexOf?, Array.findIdx?_eq_none_iff] at hnone
    have hne := hnone entry (Array.mem_of_getElem? he)
    rw [decide_eq_false_iff_not] at hne
    exact absurd rfl hne

theorem at? (h : c.Keeps c') (hr : (c.routines kind).at? i = some r) :
    (c'.routines kind).at? i = some r := by
  obtain ⟨entry, he, rfl⟩ := Option.map_eq_some_iff.1 hr
  exact Option.map_eq_some_iff.2 ⟨entry, h kind i entry he, rfl⟩

end Catalog.Keeps

namespace Build

variable {b : Build} {c : Catalog} {d : Decl} {ds : List Decl}

theorem declareAll_keeps (b : Build) (ds : List Decl) :
    b.catalog.Keeps (b.declareAll ds).2.2.catalog := by
  induction ds generalizing b with
  | nil => exact .refl _
  | cons d ds ih =>
    cases hd : b.declare d with
    | error e =>
      simp only [declareAll, hd]
      exact ih b
    | ok x =>
      obtain ⟨i, b₁⟩ := x
      obtain ⟨header, -, -, hadd, -⟩ := declare_inv hd
      simp only [declareAll, hd]
      exact (Catalog.Keeps.addRoutine hadd).trans (ih b₁)

/-- Compiling what is new leaves what is old. -/
theorem AwaitsAll.compileAll_keeps {k : Catalog} (h : b.AwaitsAll ds) (hk : k.Keeps b.catalog)
    (hnew : ∀ d ∈ ds, (k.routines d.kind).indexOf? d.name.name = none) :
    k.Keeps (b.compileAll ds).2.2.catalog := by
  induction ds generalizing b with
  | nil => exact hk
  | cons d ds ih =>
    obtain ⟨hd, hds⟩ := List.forall_mem_cons.1 hnew
    have hnext : k.Keeps (b.compile d).2.catalog := by
      rcases compile_inv (h.awaits d List.mem_cons_self) (Prod.eta _).symm with
        ⟨hb, -⟩ | ⟨i, r, -, hi, -, hrep, -⟩
      · rwa [hb]
      · exact hk.replaceRoutine (hk.free hd hi) hrep
    rw [compileAll_cons]
    exact ih h.compile hnext hds

theorem script_keeps (b : Build) (s : Script) : b.catalog.Keeps (b.script s).2.catalog := by
  have hspec := b.declareAll_spec s.declarations
  exact hspec.awaitsAll.compileAll_keeps (b.declareAll_keeps s.declarations) hspec.fresh

/-! ## Outcomes -/

/-- The name of a declaration is not free: it was in its table before, or a declaration of the
script before this one has it, and has parameters that can be declared. -/
def taken (b : Build) (before : List Decl) (d : Decl) : Bool :=
  (b.catalog.routines d.kind).contains d.name.name ||
    before.any fun d' => decide (d'.key = d.key) && d'.header.isOk

/-- What a declaration becomes that has its name: an error, if its parameters or its body have one,
and otherwise a routine with the number of the name. -/
def verdict (c : Catalog) (d : Decl) : Except CompileError Compiled :=
  (d.compile c []).1.map fun _ =>
    ⟨d.kind, d.name.name, ((c.routines d.kind).indexOf? d.name.name).getD 0⟩

/-- What becomes of a declaration, after others of its script. -/
def outcome (b : Build) (c : Catalog) (before : List Decl) (d : Decl) :
    Except CompileError Compiled :=
  if b.taken before d then .error (duplicate d) else verdict c d

/-- What becomes of each declaration of a script, in order. -/
def outcomes (b : Build) (c : Catalog) (ds : List Decl) : List (Except CompileError Compiled) :=
  ds.mapIdx fun i d => b.outcome c (ds.take i) d

/-! ## Entering -/

/-- Entering a declaration takes its name, if its parameters can be declared. -/
theorem contains_enter (b : Build) (d : Decl) (kind : RoutineKind) (name : String) :
    ((b.enter d).2.catalog.routines kind).contains name =
      ((b.catalog.routines kind).contains name ||
        decide (d.key = (kind, name)) && d.header.isOk) := by
  rw [enter]
  cases hd : b.declare d with
  | error e =>
    refine (Bool.or_eq_left_iff_imp.2 fun hentered => ?_).symm
    obtain ⟨hkey, hok⟩ := Bool.and_eq_true_iff.1 hentered
    obtain ⟨rfl, rfl⟩ := Prod.mk.inj (of_decide_eq_true hkey)
    rw [Table.contains, Option.isSome_iff_ne_none]
    intro hnone
    rw [declare_eq_error hd hnone] at hok
    cases hok
  | ok x =>
    obtain ⟨i, b'⟩ := x
    obtain ⟨-, header, hheader, hreserves⟩ := declare_reserves hd
    have hok : d.header.isOk = true := by rw [hheader]; rfl
    rw [Table.contains_eq_lookup?, Table.contains_eq_lookup?, hreserves.lookup?_eq, hok,
      Bool.and_true]
    by_cases hkey : (kind, name) = d.key
    · rw [if_pos hkey, decide_eq_true hkey.symm, Bool.or_true]
      rfl
    · rw [if_neg hkey, decide_eq_false fun h => hkey h.symm, Bool.or_false]

/-- A name is taken after some declarations if it is after all but the first, in the build that the
first one leaves. -/
theorem taken_cons (b : Build) (d : Decl) (before : List Decl) (d' : Decl) :
    b.taken (d :: before) d' = (b.enter d).2.taken before d' := by
  rw [taken, taken, contains_enter, List.any_cons, Bool.or_assoc]
  rfl

theorem outcomes_cons (b : Build) (c : Catalog) (d : Decl) (ds : List Decl) :
    b.outcomes c (d :: ds) = b.outcome c [] d :: (b.enter d).2.outcomes c ds := by
  simp only [outcomes, List.mapIdx_cons, List.take_zero, List.take_succ_cons, outcome, taken_cons]
  rfl

/-- A declaration that is not entered has the error that entering reports. -/
theorem outcome_of_error {e : CompileError} (h : b.declare d = .error e) :
    b.outcome c [] d = .error e := by
  rw [outcome, taken, List.any_nil, Bool.or_false]
  split
  · next hcontains =>
    rw [declare, if_pos hcontains] at h
    rw [Except.error.inj h]
  · next hfree =>
    have hheader := header_of_declare h (Option.not_isSome_iff_eq_none.1 hfree)
    rw [verdict, Decl.compile, hheader]
    rfl

/-- A declaration that is entered becomes what its body makes of it. -/
theorem outcome_of_ok {i : Nat} {b' : Build} (h : b.declare d = .ok (i, b')) :
    b.outcome c [] d = verdict c d := by
  obtain ⟨header, -, hnone, -⟩ := declare_inv h
  rw [outcome, taken, List.any_nil, Bool.or_false, Table.contains, hnone]
  rfl

/-- The outcomes are the errors of entering, and what becomes of those that were entered. -/
theorem declareAll_outcomes (b : Build) (c : Catalog) (ds : List Decl) :
    (b.outcomes c ds).filterMap Except.toOption =
        (b.declareAll ds).1.filterMap (fun d => (verdict c d).toOption) ∧
      ((b.declareAll ds).2.1 ++ (b.declareAll ds).1.filterMap fun d => errorOf? (verdict c d)).Perm
        ((b.outcomes c ds).filterMap errorOf?) := by
  induction ds generalizing b with
  | nil => exact ⟨rfl, .nil⟩
  | cons d ds ih =>
    obtain ⟨hcompiled, herrors⟩ := ih (b.enter d).2
    rw [outcomes_cons]
    cases hd : b.declare d with
    | error e =>
      simp only [enter, hd] at hcompiled herrors
      simp only [declareAll, enter, hd, outcome_of_error hd, List.filterMap_cons, Except.toOption,
        errorOf?, List.cons_append]
      exact ⟨hcompiled, herrors.cons e⟩
    | ok x =>
      simp only [enter, hd] at hcompiled herrors
      simp only [declareAll, enter, hd, outcome_of_ok hd, List.filterMap_cons]
      cases verdict c d with
      | error e => exact ⟨hcompiled, List.perm_middle.trans (herrors.cons e)⟩
      | ok x => exact ⟨congrArg (List.cons x) hcompiled, herrors⟩

/-! ## Compiling -/

/-- New code does not change a verdict. -/
theorem verdict_congr {c' : Catalog} (h : c.Fills c') (d : Decl) : verdict c' d = verdict c d := by
  rw [verdict, verdict, h.alike.compile_decl, h.names]

theorem compile_verdict (h : b.Awaits d) : (b.compile d).1 = verdict b.catalog d := by
  rcases compile_inv h (Prod.eta _).symm with ⟨-, e, he, hx⟩ | ⟨i, r, hx, hi, hr, -⟩
  · rw [hx, verdict, he]
    rfl
  · rw [hx, verdict, hr, hi]
    rfl

/-- The bodies become what they are in the finished catalog. -/
theorem AwaitsAll.compileAll_verdicts (h : b.AwaitsAll ds) :
    (b.compileAll ds).1 =
        ds.filterMap (fun d => (verdict (b.compileAll ds).2.2.catalog d).toOption) ∧
      (b.compileAll ds).2.1 =
        ds.filterMap fun d => errorOf? (verdict (b.compileAll ds).2.2.catalog d) := by
  have hfills := h.compileAll_fills
  induction ds generalizing b with
  | nil => exact ⟨rfl, rfl⟩
  | cons d ds ih =>
    obtain ⟨hcompiled, herrors⟩ := ih h.compile h.compile.compileAll_fills
    have hd : (b.compile d).1 = verdict (b.compileAll (d :: ds)).2.2.catalog d :=
      (compile_verdict (h.awaits d List.mem_cons_self)).trans (verdict_congr hfills d).symm
    rw [List.filterMap_cons, List.filterMap_cons, ← hd, compileAll_cons, ← hcompiled, ← herrors,
      compileAll]
    split <;> next hc => rw [hc]; exact ⟨rfl, rfl⟩

/-! ## Scripts -/

variable {s : Script} {x : Compiled}

theorem verdict_eq_ok (h : verdict c d = .ok x) :
    ∃ r, d.compile c [] = (.ok r, []) ∧
      x = ⟨d.kind, d.name.name, ((c.routines d.kind).indexOf? d.name.name).getD 0⟩ := by
  obtain ⟨r, hr, hx⟩ := map_eq_ok.1 h
  have hd : d.compile c [] = (.ok r, (d.compile c []).2) := Prod.ext hr rfl
  obtain ⟨-, -, -, -, -, -, hs, -⟩ := Decl.compile_inv hd
  exact ⟨r, hd.trans (congrArg _ hs), hx.symm⟩

theorem toOption_eq_some {α : Type} {m : Except CompileError α} {a : α} :
    m.toOption = some a ↔ m = .ok a := by
  cases m <;> simp [Except.toOption]

/-- What is reported as compiled are the verdicts on what was entered. -/
theorem script_compiled (b : Build) (s : Script) :
    (b.script s).1.compiled = (b.declareAll s.declarations).1.filterMap
      fun d => (verdict (b.script s).2.catalog d).toOption :=
  (b.declareAll_spec s.declarations).awaitsAll.compileAll_verdicts.1

theorem mem_compiled (h : x ∈ (b.script s).1.compiled) :
    ∃ d ∈ (b.declareAll s.declarations).1, verdict (b.script s).2.catalog d = .ok x := by
  rw [script_compiled, List.mem_filterMap] at h
  obtain ⟨d, hd, hx⟩ := h
  exact ⟨d, hd, toOption_eq_some.1 hx⟩

/-- No two routines are reported under one name. -/
theorem nodup_compiled (b : Build) (s : Script) :
    ((b.script s).1.compiled.map fun x => (x.kind, x.name)).Nodup := by
  have hdistinct := (b.declareAll_spec s.declarations).distinct
  rw [List.Nodup, List.pairwise_map, script_compiled]
  refine hdistinct.filterMap _ fun d d' hne x hx x' hx' => ?_
  obtain ⟨r, -, rfl⟩ := verdict_eq_ok (toOption_eq_some.1 hx)
  obtain ⟨r', -, rfl⟩ := verdict_eq_ok (toOption_eq_some.1 hx')
  exact hne

/-- **Every declaration of a script is accounted for, once.** What is reported as compiled are the
routines among the outcomes of its declarations, in their order, and the errors that are reported
are the errors among them. No name is reported twice. A routine that is reported comes from the
first declaration of its name with parameters that can be declared, and the name was not in its
table before; under the name there is the number that is reported, and the routine, which knows its
number, has the parameters first and is what its body becomes, in the finished catalog as in the one
in which all names of the script had just been entered. Whatever was in a table stays as it was. -/
theorem script_accounts (b : Build) (s : Script) :
    (b.script s).1.compiled =
        (b.outcomes (b.script s).2.catalog s.declarations).filterMap Except.toOption ∧
      (b.script s).1.errors.Perm
        ((b.outcomes (b.script s).2.catalog s.declarations).filterMap errorOf?) ∧
      ((b.script s).1.compiled.map fun x => (x.kind, x.name)).Nodup ∧
      (∀ x ∈ (b.script s).1.compiled, ∃ d r, x.kind = d.kind ∧ x.name = d.name.name ∧
        declarationOf? s.declarations d.kind d.name.name = some d ∧
        (b.catalog.routines d.kind).contains d.name.name = false ∧
        ((b.script s).2.catalog.routines d.kind).lookup? d.name.name =
          some (x.index, { r with index? := some x.index }) ∧
        d.compile (b.script s).2.catalog [] = (.ok r, []) ∧
        d.compile (b.declareAll s.declarations).2.2.catalog [] = (.ok r, []) ∧
        d.parameters <+: r.numbers ∧ r.parameterCount = d.parameters.length) ∧
      b.catalog.Keeps (b.script s).2.catalog ∧
      (b.script s).2.catalog.types = b.catalog.types ∧
      (b.script s).2.catalog.firing = b.catalog.firing ∧
      (b.script s).2.catalog.delegates = b.catalog.delegates := by
  have hspec := b.declareAll_spec s.declarations
  have hawaits := hspec.awaitsAll
  obtain ⟨hcompiled, herrors⟩ := b.declareAll_outcomes (b.script s).2.catalog s.declarations
  have hgrows := b.script_grows s
  refine ⟨(b.script_compiled s).trans hcompiled.symm, ?_, b.nodup_compiled s, fun x hx => ?_,
    b.script_keeps s, hgrows.types, hgrows.firing, hgrows.delegates⟩
  · refine List.Perm.trans (.of_eq ?_) herrors
    exact congrArg _ hawaits.compileAll_verdicts.2
  · obtain ⟨d, hd, hverdict⟩ := mem_compiled hx
    obtain ⟨r, hr, rfl⟩ := verdict_eq_ok hverdict
    have hentered : d.compile (b.declareAll s.declarations).2.2.catalog [] = (.ok r, []) :=
      (hawaits.compileAll_fills.alike.compile_decl d []).symm.trans hr
    have hfound := hawaits.outcome hd
    rw [hentered] at hfound
    obtain ⟨i, -, hl⟩ := hfound
    have hi : ((b.script s).2.catalog.routines d.kind).indexOf? d.name.name = some i :=
      (Table.lookup?_eq_some.1 hl).1
    have hfresh : (b.catalog.routines d.kind).contains d.name.name = false := by
      rw [Table.contains, hspec.fresh d hd]
      rfl
    obtain ⟨hparameters, -, hcount⟩ := Decl.compile_names hr
    rw [hi]
    exact ⟨d, r, rfl, rfl, hspec.first d hd, hfresh, hl, hr, hentered, hparameters, hcount⟩

/-- A script with an error in a body, in parameters, and in a name. -/
def muddle : Script :=
  let f (parameters : List String) : Decl :=
    { kind := .function, name := ⟨"f", .nowhere⟩, parameters, body := [], position := .nowhere }
  ⟨[{ stumbling with kind := .action }, f ["x", "x"], f ["x"], f []]⟩

/-- The error in the body comes last, as it is found last. -/
example : (script ⟨{}, []⟩ muddle).1.compiled = [⟨.function, "f", 0⟩] ∧
    (script ⟨{}, []⟩ muddle).1.errors =
      [.redeclared "x" .nowhere, .duplicateDeclaration "function" "f" .nowhere,
        .unknownVariable "x" .nowhere] ∧
    outcomes ⟨{}, []⟩ (script ⟨{}, []⟩ muddle).2.catalog muddle.declarations =
      [.error (.unknownVariable "x" .nowhere), .error (.redeclared "x" .nowhere),
        .ok ⟨.function, "f", 0⟩, .error (.duplicateDeclaration "function" "f" .nowhere)] := by
  decide +kernel

end Build

end Danmaku
