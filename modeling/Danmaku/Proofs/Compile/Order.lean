import Danmaku.Proofs.Compile.Interface
import Mathlib.Data.List.Perm.Subperm

/-!
# The order of declarations

A name has its number from its place among the declarations of its own kind, and a body sees no more
of the other bodies than their names and parameters. So declarations of different kinds may be
written in any order, and the bodies may be compiled in any order: the catalog becomes the same, and
the same things are reported (`Build.script_order_irrelevant`).

Two declarations that do not depend on each other can be processed in either order
(`Build.Processing.comm`), and every order that is allowed comes from swaps of such neighbours
(`Shuffle`).
-/

namespace Danmaku

/-! ## Swaps of neighbours -/

/-- One list becomes the other by swaps of neighbours that are independent of each other. -/
inductive Shuffle {α : Type} (indep : α → α → Prop) : List α → List α → Prop
  | nil : Shuffle indep [] []
  | cons {xs ys : List α} (x : α) (h : Shuffle indep xs ys) : Shuffle indep (x :: xs) (x :: ys)
  | swap (x y : α) (xs : List α) (h : indep x y) : Shuffle indep (x :: y :: xs) (y :: x :: xs)
  | trans {xs ys zs : List α} (h : Shuffle indep xs ys) (h' : Shuffle indep ys zs) :
      Shuffle indep xs zs

namespace Shuffle

variable {α : Type} {indep : α → α → Prop} {xs ys : List α}

theorem refl (xs : List α) : Shuffle indep xs xs := by
  induction xs with
  | nil => exact .nil
  | cons x xs ih => exact .cons x ih

theorem perm (h : Shuffle indep xs ys) : xs.Perm ys := by
  induction h with
  | nil => exact .nil
  | cons x _ ih => exact .cons x ih
  | swap x y xs => exact .swap y x xs
  | trans _ _ ih ih' => exact .trans ih ih'

/-- An element moves past others of which it is independent. -/
theorem front (x : α) (pre post : List α) (h : ∀ y ∈ pre, indep x y) :
    Shuffle indep (x :: (pre ++ post)) (pre ++ x :: post) := by
  induction pre with
  | nil => exact refl _
  | cons y pre ih =>
    obtain ⟨hy, hpre⟩ := List.forall_mem_cons.1 h
    exact .trans (.swap x y _ hy) (.cons y (ih hpre))

/-- If all elements are independent of each other then any order can be reached. -/
theorem of_perm (hsymm : ∀ x y, indep x y → indep y x) (h : xs.Perm ys)
    (hpair : xs.Pairwise indep) : Shuffle indep xs ys := by
  induction h with
  | nil => exact .nil
  | cons x _ ih => exact .cons x (ih (List.pairwise_cons.1 hpair).2)
  | swap x y xs =>
    exact .swap y x xs ((List.pairwise_cons.1 hpair).1 x List.mem_cons_self)
  | trans h _ ih ih' => exact .trans (ih hpair) (ih' (hpair.perm h (hsymm _ _)))

end Shuffle

/-- Lists with the same declarations of each kind come from each other by swaps of declarations of
different kinds. -/
theorem Decl.shuffle_of_filter {ds ds' : List Decl}
    (h : ∀ kind, ds'.filter (fun d => decide (d.kind = kind)) =
      ds.filter fun d => decide (d.kind = kind)) :
    Shuffle (fun d d' : Decl => d.kind ≠ d'.kind) ds ds' := by
  induction ds generalizing ds' with
  | nil =>
    cases ds' with
    | nil => exact .nil
    | cons d ds' =>
      have hd := h d.kind
      rw [List.filter_cons_of_pos (by simp), List.filter_nil] at hd
      cases hd
  | cons d ds ih =>
    -- `d` is the first declaration of its kind also in the other list
    have hd := h d.kind
    rw [List.filter_cons_of_pos (by simp), List.filter_eq_cons_iff] at hd
    obtain ⟨pre, post, rfl, hpre, -, hpost⟩ := hd
    have hne : ∀ y ∈ pre, d.kind ≠ y.kind := fun y hy heq => hpre y hy (decide_eq_true heq.symm)
    refine .trans (.cons d (ih fun kind => ?_)) (.front d pre post hne)
    by_cases hkind : d.kind = kind
    · subst hkind
      have hnone : pre.filter (fun x => decide (x.kind = d.kind)) = [] :=
        List.filter_eq_nil_iff.2 hpre
      rw [List.filter_append, hnone, List.nil_append, hpost]
    · have hk := h kind
      rwa [List.filter_append, List.filter_cons_of_neg (by simpa using hkind),
        List.filter_cons_of_neg (by simpa using hkind), ← List.filter_append] at hk

namespace Build

/-! ## Processing declarations one by one -/

/-- Two builds differ at most in the order of what they await. -/
structure Same (b b' : Build) : Prop where
  catalog : b'.catalog = b.catalog
  awaited : ∀ key, key ∈ b'.awaited ↔ key ∈ b.awaited

theorem Same.refl (b : Build) : b.Same b := ⟨rfl, fun _ => .rfl⟩

theorem Same.trans {b b' b'' : Build} (h : b.Same b') (h' : b'.Same b'') : b.Same b'' :=
  ⟨h'.catalog.trans h.catalog, fun key => (h'.awaited key).trans (h.awaited key)⟩

variable {α : Type}

/-- Do the same with several declarations. The result has the successes and the errors. -/
def processAll (f : Build → Decl → Except CompileError α × Build) (b : Build) :
    List Decl → List α × List CompileError × Build
  | [] => ([], [], b)
  | d :: rest =>
    let next := processAll f (f b d).2 rest
    match (f b d).1 with
    | .error error => (next.1, error :: next.2.1, next.2.2)
    | .ok x => (x :: next.1, next.2.1, next.2.2)

/-- Two results of processing declarations differ at most in their order. -/
structure AllSame (x y : List α × List CompileError × Build) : Prop where
  results : x.1.Perm y.1
  errors : x.2.1.Perm y.2.1
  build : x.2.2.Same y.2.2

theorem AllSame.trans {x y z : List α × List CompileError × Build} (h : AllSame x y)
    (h' : AllSame y z) : AllSame x z :=
  ⟨h.results.trans h'.results, h.errors.trans h'.errors, h.build.trans h'.build⟩

/-- A way to process declarations in which independent ones do not disturb each other, as long as
the build is ready for them. -/
structure Processing (f : Build → Decl → Except CompileError α × Build)
    (ready : Build → List Decl → Prop) (indep : Decl → Decl → Prop) : Prop where
  next : ∀ b d ds, ready b (d :: ds) → ready (f b d).2 ds
  perm : ∀ b b' ds ds', b.Same b' → ds.Perm ds' → ready b ds → ready b' ds'
  same : ∀ b b' d ds, b.Same b' → ready b (d :: ds) →
    (f b' d).1 = (f b d).1 ∧ (f b d).2.Same (f b' d).2
  result : ∀ b d d' ds, indep d d' → ready b (d :: d' :: ds) →
    (f (f b d).2 d').1 = (f b d').1 ∧ (f (f b d').2 d).1 = (f b d).1
  comm : ∀ b d d' ds, indep d d' → ready b (d :: d' :: ds) →
    (f (f b d).2 d').2.Same (f (f b d').2 d).2

namespace Processing

variable {f : Build → Decl → Except CompileError α × Build} {ready : Build → List Decl → Prop}
  {indep : Decl → Decl → Prop} {b b' : Build} {ds ds' : List Decl}

/-- The first declaration is processed alike, and then the others are. -/
theorem processAll_cons {d : Decl} (hresult : (f b' d).1 = (f b d).1)
    (h : AllSame (processAll f (f b d).2 ds) (processAll f (f b' d).2 ds')) :
    AllSame (processAll f b (d :: ds)) (processAll f b' (d :: ds')) := by
  simp only [processAll, hresult]
  cases (f b d).1 with
  | error e => exact ⟨h.results, h.errors.cons e, h.build⟩
  | ok x => exact ⟨h.results.cons x, h.errors, h.build⟩

theorem processAll_same (hf : Processing f ready indep) (hready : ready b ds) (h : b.Same b') :
    AllSame (processAll f b ds) (processAll f b' ds) := by
  induction ds generalizing b b' with
  | nil => exact ⟨.nil, .nil, h⟩
  | cons d ds ih =>
    obtain ⟨hresult, hnext⟩ := hf.same b b' d ds h hready
    exact processAll_cons hresult (ih (hf.next b d ds hready) hnext)

theorem processAll_swap (hf : Processing f ready indep) {d d' : Decl} (hindep : indep d d')
    (hready : ready b (d :: d' :: ds)) :
    AllSame (processAll f b (d :: d' :: ds)) (processAll f b (d' :: d :: ds)) := by
  obtain ⟨hd', hd⟩ := hf.result b d d' ds hindep hready
  have hrest := hf.processAll_same (hf.next _ _ _ (hf.next _ _ _ hready))
    (hf.comm b d d' ds hindep hready)
  simp only [processAll, hd, hd']
  cases (f b d).1 with
  | error e =>
    cases (f b d').1 with
    | error e' =>
      exact ⟨hrest.results, (List.Perm.swap e' e _).trans ((hrest.errors.cons e).cons e'),
        hrest.build⟩
    | ok x' => exact ⟨hrest.results.cons x', hrest.errors.cons e, hrest.build⟩
  | ok x =>
    cases (f b d').1 with
    | error e' => exact ⟨hrest.results.cons x, hrest.errors.cons e', hrest.build⟩
    | ok x' =>
      exact ⟨(List.Perm.swap x' x _).trans ((hrest.results.cons x).cons x'), hrest.errors,
        hrest.build⟩

/-- **Independent declarations can be processed in any order.** -/
theorem processAll_shuffle (hf : Processing f ready indep) (hds : Shuffle indep ds ds')
    (hready : ready b ds) (h : b.Same b') :
    AllSame (processAll f b ds) (processAll f b' ds') := by
  induction hds generalizing b b' with
  | nil => exact ⟨.nil, .nil, h⟩
  | cons d _ ih =>
    obtain ⟨hresult, hnext⟩ := hf.same b b' d _ h hready
    exact processAll_cons hresult (ih (hf.next b d _ hready) hnext)
  | swap d d' ds hindep =>
    exact (hf.processAll_swap hindep hready).trans
      (hf.processAll_same (hf.perm _ _ _ _ (.refl b) (.swap d' d ds) hready) h)
  | trans hds _ ih ih' =>
    exact (ih hready h).trans (ih' (hf.perm _ _ _ _ h hds.perm hready) (.refl b'))

end Processing

/-! ## Entering -/

/-- Enter a declaration. -/
def enter (b : Build) (d : Decl) : Except CompileError Decl × Build :=
  match b.declare d with
  | .error error => (.error error, b)
  | .ok (_, b) => (.ok d, b)

theorem declareAll_eq (b : Build) (ds : List Decl) : b.declareAll ds = processAll enter b ds := by
  induction ds generalizing b with
  | nil => rfl
  | cons d ds ih =>
    cases hd : b.declare d with
    | error e => simp only [declareAll, processAll, enter, hd, ih]
    | ok x => simp only [declareAll, processAll, enter, hd, ih]

end Build

/-- The table of a kind with the declaration in it. -/
def RoutineTable.enter (t : RoutineTable) (d : Decl) : Except CompileError RoutineTable :=
  if t.contains d.name.name then .error (Build.duplicate d)
  else
    match d.header with
    | .error error => .error error
    | .ok header =>
      match t.add d.kind d.name.name header with
      | .error source => .error (.registration source d.position)
      | .ok (_, t) => .ok t

theorem Catalog.setRoutines_comm {kind kind' : RoutineKind} (c : Catalog) (t t' : RoutineTable)
    (h : kind ≠ kind') :
    (c.setRoutines kind t).setRoutines kind' t' = (c.setRoutines kind' t').setRoutines kind t := by
  cases kind <;> cases kind' <;> first | rfl | exact absurd rfl h

namespace Build

/-- Entering looks at the table of the declaration's kind only. -/
theorem enter_eq (b : Build) (d : Decl) :
    b.enter d =
      match (b.catalog.routines d.kind).enter d with
      | .error e => (.error e, b)
      | .ok t => (.ok d, ⟨b.catalog.setRoutines d.kind t, d.key :: b.awaited⟩) := by
  unfold enter declare RoutineTable.enter Catalog.addRoutine
  cases (b.catalog.routines d.kind).contains d.name.name with
  | true => rfl
  | false =>
    cases d.header with
    | error e => rfl
    | ok header =>
      simp only [Bool.false_eq_true, if_false]
      cases (b.catalog.routines d.kind).add d.kind d.name.name header <;> rfl

theorem processing_enter :
    Processing enter (fun _ _ => True) fun d d' => d.kind ≠ d'.kind where
  next _ _ _ _ := trivial
  perm _ _ _ _ _ _ _ := trivial
  same b b' d _ h _ := by
    rw [enter_eq, enter_eq, h.catalog]
    cases (b.catalog.routines d.kind).enter d with
    | error e => exact ⟨rfl, h⟩
    | ok t => exact ⟨rfl, rfl, fun key => by simp only [List.mem_cons, h.awaited]⟩
  result b d d' _ h _ := by
    simp only [enter_eq]
    constructor
    · cases (b.catalog.routines d.kind).enter d with
      | error e => rfl
      | ok t =>
        simp only [Catalog.routines_setRoutines, if_neg h.symm]
        cases (b.catalog.routines d'.kind).enter d' <;> rfl
    · cases (b.catalog.routines d'.kind).enter d' with
      | error e => rfl
      | ok t =>
        simp only [Catalog.routines_setRoutines, if_neg h]
        cases (b.catalog.routines d.kind).enter d <;> rfl
  comm b d d' _ h _ := by
    simp only [enter_eq]
    cases ht : (b.catalog.routines d.kind).enter d with
    | error e =>
      cases ht' : (b.catalog.routines d'.kind).enter d' with
      | error e' =>
        simp only [ht]
        exact .refl b
      | ok t' =>
        simp only [Catalog.routines_setRoutines, if_neg h, ht]
        exact .refl _
    | ok t =>
      cases ht' : (b.catalog.routines d'.kind).enter d' with
      | error e' =>
        simp only [Catalog.routines_setRoutines, if_neg h.symm, ht', ht]
        exact .refl _
      | ok t' =>
        simp only [Catalog.routines_setRoutines, if_neg h, if_neg h.symm, ht, ht']
        exact ⟨Catalog.setRoutines_comm _ _ _ h.symm, fun key => by
          simp only [List.mem_cons, or_left_comm]⟩

end Build

/-! ## Compiling -/

/-- A table is determined by the keys and the entries at its numbers. -/
theorem Table.ext_at? {κ α : Type} {t t' : Table κ α} (hkey : ∀ j, t'.keyAt? j = t.keyAt? j)
    (hat : ∀ j, t'.at? j = t.at? j) : t' = t := by
  refine congrArg Table.mk (Array.ext_getElem? fun j => ?_)
  have hk := hkey j
  have ha := hat j
  rw [Table.keyAt?, Table.keyAt?] at hk
  rw [Table.at?, Table.at?] at ha
  cases hx : t'.entries[j]? <;> cases hy : t.entries[j]? <;>
    simp only [hx, hy, Option.map_some, Option.map_none, reduceCtorEq, Option.some.injEq] at hk ha ⊢
  exact Prod.ext hk ha

/-- Routines are put in different places in either order. -/
theorem Catalog.replaceRoutine_comm {c c₁ c₂ c₁' c₂' : Catalog} {kind kind' : RoutineKind}
    {i i' : Nat} {r r' : Routine} (hne : (kind, i) ≠ (kind', i'))
    (h₁ : c.replaceRoutine kind i r = .ok c₁) (h₂ : c₁.replaceRoutine kind' i' r' = .ok c₂)
    (h₁' : c.replaceRoutine kind' i' r' = .ok c₁') (h₂' : c₁'.replaceRoutine kind i r = .ok c₂') :
    c₂' = c₂ := by
  obtain ⟨t₁, ht₁, rfl⟩ := replaceRoutine_inv h₁
  obtain ⟨t₂, ht₂, rfl⟩ := replaceRoutine_inv h₂
  obtain ⟨t₁', ht₁', rfl⟩ := replaceRoutine_inv h₁'
  obtain ⟨t₂', ht₂', rfl⟩ := replaceRoutine_inv h₂'
  rw [routines_setRoutines] at ht₂ ht₂'
  by_cases hkind : kind = kind'
  · subst hkind
    rw [if_pos rfl] at ht₂ ht₂'
    have hi : i ≠ i' := fun h => hne (h ▸ rfl)
    have hrep₁ := RoutineTable.replace_inv ht₁
    have hrep₂ := RoutineTable.replace_inv ht₂
    have hrep₁' := RoutineTable.replace_inv ht₁'
    have hrep₂' := RoutineTable.replace_inv ht₂'
    have ht : t₂' = t₂ := Table.ext_at?
      (fun j => by
        rw [Table.keyAt?_replace? hrep₂', Table.keyAt?_replace? hrep₁',
          Table.keyAt?_replace? hrep₂, Table.keyAt?_replace? hrep₁])
      (fun j => by
        rw [Table.at?_replace? hrep₂', Table.at?_replace? hrep₁', Table.at?_replace? hrep₂,
          Table.at?_replace? hrep₁]
        split_ifs <;> first | rfl | omega)
    rw [ht]
    cases kind <;> rfl
  · rw [if_neg (Ne.symm hkind)] at ht₂
    rw [if_neg hkind] at ht₂'
    obtain rfl := Except.ok.inj (ht₂.symm.trans ht₁')
    obtain rfl := Except.ok.inj (ht₂'.symm.trans ht₁)
    exact setRoutines_comm _ _ _ (Ne.symm hkind)

namespace Build

variable {b b' : Build} {d d' : Decl} {ds : List Decl}

theorem compileAll_eq (b : Build) (ds : List Decl) :
    b.compileAll ds = processAll compile b ds := by
  induction ds generalizing b with
  | nil => rfl
  | cons d ds ih =>
    rw [compileAll, processAll]
    split <;> next hc => simp only [hc, ih]

theorem Same.awaits (h : b.Same b') (hd : b.Awaits d) : b'.Awaits d :=
  ⟨(h.awaited d.key).2 hd.awaited, by rw [h.catalog]; exact hd.entered⟩

theorem compile_same (h : b.Same b') (hd : b.Awaits d) :
    (b'.compile d).1 = (b.compile d).1 ∧ (b.compile d).2.Same (b'.compile d).2 := by
  have haw : b.awaits d = true := decide_eq_true hd.awaited
  have haw' : b'.awaits d = true := decide_eq_true (h.awaits hd).awaited
  obtain ⟨i, old, hl, -⟩ := hd.entered
  have hi := (Table.lookup?_eq_some.1 hl).1
  simp only [compile, h.catalog, hi, haw, haw', if_true, finish]
  split
  · exact ⟨rfl, h⟩
  · split
    · exact ⟨rfl, h⟩
    · exact ⟨rfl, rfl, fun key => by simp only [List.mem_filter, h.awaited]⟩

/-- The result of a body does not depend on another one that was compiled before. -/
theorem compile_result (hd : b.Awaits d) (hd' : b.Awaits d') (hne : d.key ≠ d'.key) :
    ((b.compile d).2.compile d').1 = (b.compile d').1 := by
  have hfills := compile_fills hd
  have hcode := hfills.alike.compile_decl d' []
  rcases compile_inv hd' (Prod.eta _).symm with ⟨-, e, he, hx⟩ | ⟨i, r, hx, hi, hr, -⟩
  all_goals
    rcases compile_inv (hd'.compile hd hne.symm) (Prod.eta _).symm with
      ⟨-, e', he', hx'⟩ | ⟨i', r', hx', hi', hr', -⟩
    all_goals rw [hx, hx']
  · rw [hcode, he] at he'
    rw [Except.error.inj he']
  · rw [hcode] at hr'
    rw [hr'] at he
    cases he
  · rw [hcode, hr] at he'
    cases he'
  · rw [hfills.names, hi] at hi'
    rw [Option.some.inj hi']

theorem compile_of_error {e : CompileError} (hd : b.Awaits d) (h : (b.compile d).1 = .error e) :
    (d.compile b.catalog []).1 = .error e ∧ (b.compile d).2 = b := by
  rcases compile_inv hd (Prod.eta _).symm with ⟨hb, e', he, hx⟩ | ⟨i, r, hx, -⟩
  · obtain rfl := Except.error.inj (h.symm.trans hx)
    exact ⟨he, hb⟩
  · rw [h] at hx
    cases hx

theorem compile_of_ok {x : Compiled} (hd : b.Awaits d) (h : (b.compile d).1 = .ok x) :
    ∃ r, x = ⟨d.kind, d.name.name, x.index⟩ ∧ d.compile b.catalog [] = (.ok r, []) ∧
      (b.catalog.routines d.kind).indexOf? d.name.name = some x.index ∧
      b.catalog.replaceRoutine d.kind x.index r = .ok (b.compile d).2.catalog ∧
      (b.compile d).2.awaited = b.awaited.filter (· != d.key) := by
  rcases compile_inv hd (Prod.eta _).symm with ⟨-, e, -, hx⟩ | ⟨i, r, hx, hi, hr, hrep, haw⟩
  · rw [h] at hx
    cases hx
  · obtain rfl := Except.ok.inj (h.symm.trans hx)
    exact ⟨r, rfl, hr, hi, hrep, haw⟩

/-- Two bodies are compiled in either order. -/
theorem compile_comm (hd : b.Awaits d) (hd' : b.Awaits d') (hne : d.key ≠ d'.key) :
    ((b.compile d).2.compile d').2.Same ((b.compile d').2.compile d).2 := by
  have hres' := compile_result hd hd' hne
  have hres := compile_result hd' hd hne.symm
  have haw' := hd'.compile hd hne.symm
  have haw := hd.compile hd' hne
  cases hx : (b.compile d).1 with
  | error e =>
    rw [(compile_of_error haw (hres.trans hx)).2, (compile_of_error hd hx).2]
    exact .refl _
  | ok x =>
    cases hx' : (b.compile d').1 with
    | error e =>
      rw [(compile_of_error haw' (hres'.trans hx')).2, (compile_of_error hd' hx').2]
      exact .refl _
    | ok x' =>
      obtain ⟨r, -, hr, hi, hrep, hfilter⟩ := compile_of_ok hd hx
      obtain ⟨r', -, hr', hi', hrep', hfilter'⟩ := compile_of_ok hd' hx'
      obtain ⟨r₂, -, hr₂, -, hrep₂, hfilter₂⟩ := compile_of_ok haw (hres.trans hx)
      obtain ⟨r₂', -, hr₂', -, hrep₂', hfilter₂'⟩ := compile_of_ok haw' (hres'.trans hx')
      -- the bodies see the same, whichever is compiled first
      rw [(compile_fills hd').alike.compile_decl, hr] at hr₂
      rw [(compile_fills hd).alike.compile_decl, hr'] at hr₂'
      obtain rfl := Except.ok.inj (Prod.mk.inj hr₂).1
      obtain rfl := Except.ok.inj (Prod.mk.inj hr₂').1
      have hplace : (d.kind, x.index) ≠ (d'.kind, x'.index) := by
        intro heq
        obtain ⟨hkind, hindex⟩ := Prod.mk.inj heq
        have hkey := Table.keyAt?_of_indexOf? hi
        rw [hkind, hindex, Table.keyAt?_of_indexOf? hi'] at hkey
        exact hne (Prod.ext hkind (Option.some.inj hkey).symm)
      refine ⟨Catalog.replaceRoutine_comm hplace hrep hrep₂' hrep' hrep₂, fun key => ?_⟩
      rw [hfilter₂, hfilter₂', hfilter, hfilter', List.filter_filter, List.filter_filter]
      simp only [Bool.and_comm]

theorem AwaitsAll.perm {ds' : List Decl} (h : b.AwaitsAll ds) (hperm : ds.Perm ds') :
    b.AwaitsAll ds' :=
  ⟨fun d hd => h.awaits d (hperm.mem_iff.2 hd), h.distinct.perm hperm Ne.symm⟩

theorem processing_compile :
    Processing compile AwaitsAll fun d d' => d.key ≠ d'.key where
  next _ _ _ h := h.compile
  perm _ _ _ _ hsame hperm h :=
    ⟨fun d hd => hsame.awaits ((h.perm hperm).awaits d hd), (h.perm hperm).distinct⟩
  same _ _ _ _ hsame h := compile_same hsame (h.awaits _ List.mem_cons_self)
  result _ _ _ _ hne h := by
    obtain ⟨hd, hds⟩ := List.forall_mem_cons.1 h.awaits
    have hd' := hds _ List.mem_cons_self
    exact ⟨compile_result hd hd' hne, compile_result hd' hd hne.symm⟩
  comm _ _ _ _ hne h := by
    obtain ⟨hd, hds⟩ := List.forall_mem_cons.1 h.awaits
    exact compile_comm hd (hds _ List.mem_cons_self) hne

/-- Each body that is compiled is reported and stands in the catalog, or its error is reported. -/
theorem AwaitsAll.outcome (h : b.AwaitsAll ds) (hd : d ∈ ds) :
    match (d.compile b.catalog []).1 with
    | .error e => e ∈ (b.compileAll ds).2.1
    | .ok r => ∃ i, ⟨d.kind, d.name.name, i⟩ ∈ (b.compileAll ds).1 ∧
      ((b.compileAll ds).2.2.catalog.routines d.kind).lookup? d.name.name =
        some (i, { r with index? := some i }) := by
  induction ds generalizing b with
  | nil => cases hd
  | cons d₀ ds ih =>
    have hd₀ := h.awaits d₀ List.mem_cons_self
    rw [compileAll_eq, processAll, ← compileAll_eq]
    rcases List.mem_cons.1 hd with rfl | hd
    · cases hx : (b.compile d).1 with
      | error e =>
        rw [(compile_of_error hd₀ hx).1]
        exact List.mem_cons_self
      | ok x =>
        obtain ⟨r, hname, hr, hi, hrep, -⟩ := compile_of_ok hd₀ hx
        rw [hr]
        refine ⟨x.index, hname ▸ List.mem_cons_self, ?_⟩
        exact (h.compile.lookup?_compileAll (List.pairwise_cons.1 h.distinct).1).trans
          (Catalog.lookup?_replaceRoutine_self hrep hi)
    · have hrest := ih h.compile hd
      rw [(compile_fills hd₀).alike.compile_decl] at hrest
      cases (b.compile d₀).1 with
      | error e =>
        cases hr : (d.compile b.catalog []).1 with
        | error e' =>
          rw [hr] at hrest
          exact List.mem_cons_of_mem _ hrest
        | ok r => rwa [hr] at hrest
      | ok x =>
        cases hr : (d.compile b.catalog []).1 with
        | error e' => rwa [hr] at hrest
        | ok r =>
          rw [hr] at hrest
          obtain ⟨i, hmem, hl⟩ := hrest
          exact ⟨i, List.mem_cons_of_mem _ hmem, hl⟩

/-! ## Scripts -/

/-- **The order of declarations of different kinds does not matter, nor does it matter which bodies
are compiled first.** The first three parts compare two scripts with the same declarations of each
kind. The others are about every declaration that was entered: its body becomes the same in the
finished catalog as after any of the other bodies, and what it becomes there is what was reported.
-/
theorem script_order_irrelevant (b : Build) (s s' : Script)
    (hkinds : ∀ kind, s'.ofKind kind = s.ofKind kind) :
    (b.script s').2.catalog = (b.script s).2.catalog ∧
      (b.script s).1.compiled.Perm (b.script s').1.compiled ∧
      (b.script s).1.errors.Perm (b.script s').1.errors ∧
      ∀ d ∈ (b.declareAll s.declarations).1,
        (∀ before, before.Subperm (b.declareAll s.declarations).1 → ∀ scopes,
          d.compile (b.script s).2.catalog scopes =
            d.compile ((b.declareAll s.declarations).2.2.compileAll before).2.2.catalog scopes) ∧
        match (d.compile (b.script s).2.catalog []).1 with
        | .error e => e ∈ (b.script s).1.errors
        | .ok r => ∃ i, ⟨d.kind, d.name.name, i⟩ ∈ (b.script s).1.compiled ∧
          ((b.script s).2.catalog.routines d.kind).lookup? d.name.name =
            some (i, { r with index? := some i }) := by
  have hawaits := (b.declareAll_spec s.declarations).awaitsAll
  have hdeclare := processing_enter.processAll_shuffle (Decl.shuffle_of_filter hkinds) trivial
    (.refl b)
  rw [← declareAll_eq, ← declareAll_eq] at hdeclare
  have hcompile := processing_compile.processAll_shuffle
    (.of_perm (fun _ _ => Ne.symm) hdeclare.results hawaits.distinct) hawaits hdeclare.build
  rw [← compileAll_eq, ← compileAll_eq] at hcompile
  refine ⟨hcompile.build.catalog, hcompile.results, hdeclare.errors.append hcompile.errors,
    fun d hd => ⟨fun before hbefore scopes => ?_, ?_⟩⟩
  · obtain ⟨sub, hperm, hsub⟩ := hbefore
    have hready : (b.declareAll s.declarations).2.2.AwaitsAll before :=
      AwaitsAll.perm ⟨fun d hd => hawaits.awaits d (hsub.subset hd), hawaits.distinct.sublist hsub⟩
        hperm
    exact (hawaits.compileAll_fills.alike.compile_decl d scopes).trans
      (hready.compileAll_fills.alike.compile_decl d scopes).symm
  · have hfinal : ((b.declareAll s.declarations).2.2.compileAll
        (b.declareAll s.declarations).1).2.2 = (b.script s).2 := rfl
    have houtcome := hawaits.outcome hd
    rw [← hawaits.compileAll_fills.alike.compile_decl, hfinal] at houtcome
    cases hr : (d.compile (b.script s).2.catalog []).1 with
    | error e =>
      rw [hr] at houtcome
      exact List.mem_append_right _ houtcome
    | ok r => rwa [hr] at houtcome

/-- The function and the action of `Script.echo` may be exchanged. -/
theorem echo_order_irrelevant :
    (∀ kind, Script.ofKind ⟨Script.echo.declarations.reverse⟩ kind = Script.echo.ofKind kind) ∧
      ((⟨{}, []⟩ : Build).script ⟨Script.echo.declarations.reverse⟩).2.catalog =
        Script.echo.catalog ∧
      ((⟨{}, []⟩ : Build).declareAll Script.echo.declarations).1.map Decl.key =
        [(.function, "echo"), (.action, "main")] := by
  have hkinds (kind : RoutineKind) :
      Script.ofKind ⟨Script.echo.declarations.reverse⟩ kind = Script.echo.ofKind kind := by
    cases kind <;> rfl
  exact ⟨hkinds, (script_order_irrelevant ⟨{}, []⟩ Script.echo _ hkinds).1, by decide +kernel⟩

end Build

end Danmaku
