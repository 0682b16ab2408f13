import Danmaku.Proofs.Catalog.Table
import Danmaku.Proofs.Compile.Names
import Danmaku.Proofs.Syntax.Demands

/-!
# Which declarations are accepted

Compilation takes the demands of a phrase one by one: it stops at the first that is not met, with
its error, and if all are met then the phrase has code (`Expr.compile_reports`,
`Stmt.emit_reports`). The names in the innermost scope are those that the demands before declare.
So exactly the well-formed declarations are accepted, and what is reported for another is the first
thing that is wrong with it (`Decl.compile_accepts`).
-/

namespace Danmaku

/-- The error of a computation, if it ended with one. -/
def errorOf? {α : Type} : Except CompileError α → Option CompileError
  | .ok _ => none
  | .error e => some e

@[simp] theorem errorOf?_map {α β : Type} (f : α → β) (m : Except CompileError α) :
    errorOf? (m.map f) = errorOf? m := by
  cases m <;> rfl

/-- The names of a routine are those that some demands declare. -/
structure Routine.Declares (r : Routine) (ds : List Demand) : Prop where
  numbers : r.numbers = Demand.names .number ds
  handles : r.handles = Demand.names .handle ds

/-- The names in the innermost scope are those that some demands declare. -/
def ScopeStack.Declares (s : ScopeStack) (ds : List Demand) : Prop :=
  ∃ r below, s = r :: below ∧ r.Declares ds

/-- Something with demands, which come after others that were met, ended with the error of the first
demand that is not met, or else without one; then all names are declared in the scopes it left. -/
structure Reports (c : Catalog) (before ds : List Demand) (error? : Option CompileError)
    (s : ScopeStack) : Prop where
  error : error? = Demand.violation? c before ds
  declares : error? = none → s.Declares (before ++ ds)

section Combinators

variable {c : Catalog} {before ds ds' : List Demand} {error? : Option CompileError}
  {s s' : ScopeStack} {x : Demand} {α β : Type}

namespace Reports

theorem nothing (h : s.Declares before) : Reports c before [] none s :=
  ⟨rfl, fun _ => (List.append_nil before).symm ▸ h⟩

/-- A demand that is met. -/
theorem met (h : x.Met c before) (hs : s.Declares (before ++ [x])) :
    Reports c before [x] none s := ⟨(Demand.violation?_of_met h).symm, fun _ => hs⟩

/-- A demand that is not met. -/
theorem not_met {e : CompileError} (h : ¬x.Met c before) (he : x.error c before = e) :
    Reports c before [x] (some e) s :=
  ⟨he ▸ (Demand.violation?_of_not_met h).symm, fun h => absurd h (Option.some_ne_none e)⟩

/-- What ends with an error does not go on. -/
theorem stop {e : CompileError} (h : Reports c before ds (some e) s) :
    Reports c before (ds ++ ds') (some e) s := by
  refine ⟨?_, fun h => absurd h (Option.some_ne_none _)⟩
  rw [Demand.violation?_append, ← h.error, Option.some_or]

/-- What ends without an error goes on. -/
theorem andThen (h : Reports c before ds none s) (h' : Reports c (before ++ ds) ds' error? s') :
    Reports c before (ds ++ ds') error? s' := by
  refine ⟨?_, fun he => ?_⟩
  · rw [Demand.violation?_append, ← h.error, Option.none_or, h'.error]
  · rw [← List.append_assoc]
    exact h'.declares he

/-- A computation ended with an error, and this is where it stops, or with a value. -/
theorem cases {m : Except CompileError α} (h : Reports c before ds (errorOf? m) s) :
    (∃ e, m = .error e ∧ ∀ ds', Reports c before (ds ++ ds') (some e) s) ∨
      ∃ a, m = .ok a ∧ Reports c before ds none s ∧ s.Declares (before ++ ds) := by
  cases m with
  | error e => exact .inl ⟨e, rfl, fun _ => h.stop⟩
  | ok a => exact .inr ⟨a, rfl, h, h.declares rfl⟩

theorem bind {m : Except CompileError α} {f : α → Except CompileError β}
    (h : Reports c before ds (errorOf? m) s)
    (hf : ∀ a, s.Declares (before ++ ds) → Reports c (before ++ ds) ds' (errorOf? (f a)) s) :
    Reports c before (ds ++ ds') (errorOf? (m >>= f)) s := by
  rcases h.cases with ⟨e, rfl, hstop⟩ | ⟨a, rfl, hnone, hs⟩
  · exact hstop ds'
  · exact hnone.andThen (hf a hs)

/-- The last step does not matter if it cannot fail. -/
theorem map {m : Except CompileError α} (f : α → β) (h : Reports c before ds (errorOf? m) s) :
    Reports c before ds (errorOf? (m >>= fun a => pure (f a))) s := by
  cases m <;> exact h

end Reports

end Combinators

variable {c : Catalog} {before ds ds' : List Demand} {s : ScopeStack}

/-! ## Names -/

/-- A demand that declares nothing changes no names. -/
theorem ScopeStack.Declares.quiet {x : Demand} (h : s.Declares before)
    (hx : ∀ kind, x.declares? kind = none) : s.Declares (before ++ [x]) := by
  obtain ⟨r, below, rfl, hnumbers, hhandles⟩ := h
  have hnone (kind : SymbolKind) : Demand.names kind [x] = [] := List.filterMap_cons_none (hx kind)
  refine ⟨r, below, rfl, ?_, ?_⟩
  · rw [Demand.names_append, hnone, List.append_nil, hnumbers]
  · rw [Demand.names_append, hnone, List.append_nil, hhandles]

theorem ScopeStack.numberSlot_reports (h : s.Declares before) (name : String)
    (position : Position) :
    Reports c before [.number name position] (errorOf? (s.numberSlot name position)) s := by
  have hs : s.Declares (before ++ [.number name position]) := h.quiet fun _ => rfl
  obtain ⟨r, below, rfl, hnumbers, hhandles⟩ := h
  by_cases hmem : name ∈ r.numbers
  · obtain ⟨slot, hslot⟩ := Option.isSome_iff_exists.1 (List.isSome_idxOf?.2 hmem)
    rw [numberSlot, show r.numberSlot? name = some slot from hslot]
    exact .met (show name ∈ Demand.names .number before from hnumbers ▸ hmem) hs
  · have hunmet : ¬(Demand.number name position).Met c before := by
      rw [Demand.Met, ← hnumbers]
      exact hmem
    have herror : errorOf? (numberSlot (r :: below) name position) =
        some ((Demand.number name position).error c before) := by
      rw [numberSlot, show r.numberSlot? name = none from List.idxOf?_eq_none_iff.2 hmem]
      simp only [Routine.handleSlot?, List.isSome_idxOf?, hhandles, Demand.error]
      split <;> rfl
    rw [herror]
    exact .not_met hunmet rfl

namespace Routine

variable {r : Routine}

namespace Declares

/-- A name is new to a routine exactly if no demand declared it. -/
theorem fresh_met_iff (h : r.Declares before) (name : String) (kind : SymbolKind)
    (position : Position) :
    (Demand.fresh name kind position).Met c before ↔ ¬(r.kindOf? name).isSome = true := by
  rw [Demand.Met, ← h.numbers, ← h.handles, isSome_kindOf?, not_or]

theorem number (h : r.Declares before) (c : Catalog) (name : String) (position : Position) :
    (∃ r' slot, r.declareNumber name position = .ok (r', slot) ∧
        (Demand.fresh name .number position).Met c before ∧
        r'.Declares (before ++ [.fresh name .number position])) ∨
      r.declareNumber name position = .error (.redeclared name position) ∧
        ¬(Demand.fresh name .number position).Met c before := by
  by_cases hk : (r.kindOf? name).isSome = true
  · exact .inr ⟨if_pos hk, fun hmet => (h.fresh_met_iff name .number position).1 hmet hk⟩
  · refine .inl ⟨_, _, if_neg hk, (h.fresh_met_iff name .number position).2 hk, ?_, ?_⟩
    · rw [Demand.names_append, ← h.numbers]
      rfl
    · rw [Demand.names_append, ← h.handles]
      exact (List.append_nil _).symm

theorem handle (h : r.Declares before) (c : Catalog) (name : String) (position : Position) :
    (∃ r' slot, r.declareHandle name position = .ok (r', slot) ∧
        (Demand.fresh name .handle position).Met c before ∧
        r'.Declares (before ++ [.fresh name .handle position])) ∨
      r.declareHandle name position = .error (.redeclared name position) ∧
        ¬(Demand.fresh name .handle position).Met c before := by
  by_cases hk : (r.kindOf? name).isSome = true
  · exact .inr ⟨if_pos hk, fun hmet => (h.fresh_met_iff name .handle position).1 hmet hk⟩
  · refine .inl ⟨_, _, if_neg hk, (h.fresh_met_iff name .handle position).2 hk, ?_, ?_⟩
    · rw [Demand.names_append, ← h.numbers]
      exact (List.append_nil _).symm
    · rw [Demand.names_append, ← h.handles]
      rfl

end Declares

end Routine

theorem Expr.place_var_reports (h : s.Declares before) (name : String) (position : Position) :
    Reports c before [.number name position] (errorOf? ((var name position).place c s)) s := by
  rw [place, errorOf?_map]
  exact ScopeStack.numberSlot_reports h name position

theorem Expr.place_prop_reports (h : s.Declares before) (name : String) (position : Position) :
    Reports c before [.property name position] (errorOf? ((prop name position).place c s)) s := by
  rw [place]
  by_cases hmem : name ∈ c.types.propertyNames
  · obtain ⟨index, hindex⟩ := Option.isSome_iff_exists.1 (List.isSome_idxOf?.2 hmem)
    rw [show c.types.globalIndex? name = some index from hindex]
    exact .met hmem (h.quiet fun _ => rfl)
  · rw [show c.types.globalIndex? name = none from List.idxOf?_eq_none_iff.2 hmem]
    exact .not_met hmem rfl

theorem checkArity_reports {x : Demand} {kind name : String} {expected found : Nat}
    {position : Position} (h : s.Declares (before ++ [x]))
    (hmet : x.Met c before ↔ expected = found)
    (herror : x.error c before = .argumentCount kind name expected found position) :
    Reports c before [x] (errorOf? (checkArity kind name expected found position)) s := by
  by_cases hx : expected = found
  · rw [checkArity, if_pos hx]
    exact .met (hmet.2 hx) h
  · rw [checkArity, if_neg hx]
    exact .not_met (hx ∘ hmet.1) herror

theorem callee_reports (h : s.Declares before) (f : Ident) (found : Nat) (position : Position) :
    Reports c before [.callee f found position] (errorOf? (callee c f found position)) s := by
  have hs : s.Declares (before ++ [.callee f found position]) := h.quiet fun _ => rfl
  rw [callee]
  cases hl : c.functions.lookup? f.name with
  | some x =>
    have hf : c.functions.find? f.name = some x.2 := by
      rw [Table.find?_eq_lookup?, hl]
      rfl
    refine .map _ (checkArity_reports hs ?_ ?_)
    · simp [Demand.Met, hf]
    · simp [Demand.error, hf]
  | none =>
    have hf : c.functions.find? f.name = none := by
      rw [Table.find?_eq_lookup?, hl]
      rfl
    simp only
    cases hd : c.delegates.indexOf? f.name with
    | some index => exact .met (.inr ⟨hf, Option.isSome_of_eq_some hd⟩) hs
    | none =>
      refine .not_met ?_ ?_
      · simp [Demand.Met, hf, Table.contains, hd]
      · simp [Demand.error, hf]

/-- What is assigned to has to be a place, and then its own demands are met or not. -/
theorem Expr.place_reports (h : s.Declares before) (e : Expr) :
    Reports c before ([.target e] ++ e.demands) (errorOf? (e.place c s)) s := by
  have hs : s.Declares (before ++ [.target e]) := h.quiet fun _ => rfl
  cases e with
  | var name position =>
    rw [demands]
    exact .andThen (.met rfl hs) (place_var_reports hs name position)
  | prop name position =>
    rw [demands]
    exact .andThen (.met rfl hs) (place_prop_reports hs name position)
  | _ => exact .stop (.not_met Bool.false_ne_true rfl)

mutual

/-- **An expression has code exactly if its demands are met**, and otherwise the error of the first
that is not. -/
theorem Expr.compile_reports {before : List Demand} (h : s.Declares before) (e : Expr) :
    Reports c before e.demands (errorOf? (e.compile c s)) s := by
  cases e with
  | num value _ =>
    rw [compile, demands]
    exact .nothing h
  | var name position =>
    rw [compile, demands]
    exact .map _ (place_var_reports h name position)
  | prop name position =>
    rw [compile, demands]
    exact .map _ (place_prop_reports h name position)
  | binary op left right _ =>
    rw [compile, demands]
    exact .bind (left.compile_reports h) fun _ h => .map _ (right.compile_reports h)
  | unary op operand _ =>
    rw [demands]
    cases op <;> rw [compile] <;> exact .map _ (operand.compile_reports h)
  | assign op target value _ =>
    rw [demands]
    cases op <;> rw [compile] <;>
      exact .bind (target.place_reports h) fun _ h => .map _ (value.compile_reports h)
  | step op target _ =>
    rw [compile, demands]
    exact .map _ (target.place_reports h)
  | choose condition yes no _ =>
    rw [compile, demands, List.append_assoc]
    exact .bind (condition.compile_reports h) fun _ h =>
      .bind (yes.compile_reports h) fun _ h => .map _ (no.compile_reports h)
  | call name arguments position =>
    rw [compile, demands]
    exact .bind (callee_reports h name _ position) fun _ h =>
      .map _ (Expr.compileAll_reports h arguments)

theorem Expr.compileAll_reports {before : List Demand} (h : s.Declares before)
    (arguments : List Expr) :
    Reports c before (Expr.demandsAll arguments) (errorOf? (Expr.compileAll c s arguments)) s := by
  cases arguments with
  | nil =>
    rw [compileAll, demandsAll]
    exact .nothing h
  | cons e rest =>
    rw [compileAll, demandsAll]
    exact .bind (e.compile_reports h) fun _ h => .map _ (Expr.compileAll_reports h rest)

end

theorem Expr.compileOrZero_reports (h : s.Declares before) (value? : Option Expr) :
    Reports c before (demandsOf value?) (errorOf? (compileOrZero c s value?)) s := by
  cases value? with
  | some e => exact e.compile_reports h
  | none => exact .nothing h

/-! ## Statements -/

/-- What was emitted reports on some demands. -/
def Emitted.Reports (e : Emitted) (c : Catalog) (before ds : List Demand) : Prop :=
  Danmaku.Reports c before ds e.error? e.scopes

namespace Emitted

theorem ofExcept_reports {code : Except CompileError (List Instr)} (after : List Instr)
    (h : Danmaku.Reports c before ds (errorOf? code) s) :
    (ofExcept code after s).Reports c before ds := by
  cases code <;> exact h

/-- What comes after something with code reports on the demands of both. -/
theorem reports_andThen {e : Emitted} {next : Nat → ScopeStack → Emitted} (a : Nat)
    (h : e.Reports c before ds)
    (hnext : ∀ a (s : ScopeStack), s.Declares (before ++ ds) →
      (next a s).Reports c (before ++ ds) ds') :
    (e.andThen a next).Reports c before (ds ++ ds') := by
  obtain ⟨code, s, error?⟩ := e
  cases error? with
  | some error => exact h.stop
  | none => exact h.andThen (hnext _ s (h.declares rfl))

end Emitted

theorem VarDecl.emit_reports (h : s.Declares before) (d : VarDecl) :
    (d.emit c s).Reports c before d.demands := by
  obtain ⟨r, below, rfl, hr⟩ := h
  rw [emit, demands, ScopeStack.declareNumber]
  rcases hr.number c d.name.name d.name.position with ⟨r', slot, hd, hmet, hr'⟩ | ⟨hd, hnot⟩
  · rw [hd]
    have hs' : ScopeStack.Declares (r' :: below) _ := ⟨r', below, rfl, hr'⟩
    exact Reports.andThen (.met hmet hs')
      (Emitted.ofExcept_reports _ (Expr.compileOrZero_reports hs' d.value?))
  · rw [hd]
    exact Reports.stop (.not_met hnot rfl)

theorem ForInit.emit_reports (h : s.Declares before) (init? : Option ForInit) :
    (ForInit.emit c init? s).Reports c before (ForInit.demands init?) := by
  unfold ForInit.emit ForInit.demands
  split
  · exact Reports.nothing h
  · exact VarDecl.emit_reports h _
  · exact Emitted.ofExcept_reports _ (Expr.compile_reports h _)

theorem UpdaterClause.resolve_reports (h : s.Declares before) (u : UpdaterClause) :
    Reports c before [.updater u.name u.arguments.length u.position]
      (errorOf? (u.resolve c)) s := by
  have hs := h.quiet (x := .updater u.name u.arguments.length u.position) fun _ => rfl
  rw [resolve]
  cases hl : c.bulletUpdaters.lookup? u.name.name with
  | some x =>
    have hf : c.bulletUpdaters.find? u.name.name = some x.2 := by
      rw [Table.find?_eq_lookup?, hl]
      rfl
    refine .map _ (checkArity_reports hs ?_ ?_)
    · simp [Demand.Met, hf]
    · simp [Demand.error, hf]
  | none =>
    have hf : c.bulletUpdaters.find? u.name.name = none := by
      rw [Table.find?_eq_lookup?, hl]
      rfl
    refine .not_met ?_ ?_
    · simp [Demand.Met, hf]
    · simp [Demand.error, hf]

theorem FireStmt.resolve_reports (h : s.Declares before) (f : FireStmt) :
    Reports c before [.firing f.typeName f.functionName f.arguments.length f.position]
      (errorOf? (f.resolve c)) s := by
  have hs := h.quiet
    (x := .firing f.typeName f.functionName f.arguments.length f.position) fun _ => rfl
  rw [resolve]
  cases hf : c.firing.find? (f.typeName, f.functionName) with
  | some x =>
    refine .map _ (checkArity_reports hs ?_ ?_)
    · simp [Demand.Met, hf]
    · simp [Demand.error, hf]
  | none =>
    refine .not_met ?_ ?_
    · simp [Demand.Met, hf]
    · simp [Demand.error, hf]

theorem FireStmt.emit_reports (h : s.Declares before) (f : FireStmt) :
    (f.emit c s).Reports c before f.demands := by
  rw [emit, demands]
  rcases (f.resolve_reports (c := c) h).cases with ⟨e, hf, hstop⟩ | ⟨firing, hf, hfiring, hs⟩
  · simp only [hf]
    exact hstop _
  · simp only [hf]
    refine Reports.andThen hfiring ?_
    cases hu : f.updater? with
    | none => exact Emitted.ofExcept_reports _ (Expr.compileAll_reports hs f.arguments)
    | some clause =>
      simp only [List.append_assoc]
      rcases (clause.resolve_reports (c := c) hs).cases with
        ⟨e, hr, hstop⟩ | ⟨updater, hr, hupdater, hs⟩
      · simp only [hr]
        exact hstop _
      · simp only [hr]
        refine Reports.andThen hupdater ?_
        rcases (Expr.compileAll_reports (c := c) hs f.arguments).cases with
          ⟨e, ha, hstop⟩ | ⟨args, ha, hargs, hs⟩
        · simp only [ha]
          exact hstop _
        · simp only [ha]
          exact Reports.andThen hargs
            (Emitted.ofExcept_reports _ (Expr.compileAll_reports hs clause.arguments))

section Control

variable {condition : Expr} {condition? update? : Option Expr} {a : Nat} {ds₁ ds₂ : List Demand}
  {yes no body : Nat → ScopeStack → Emitted}

theorem emitIf_reports (h : s.Declares before)
    (hyes : ∀ a (s : ScopeStack) {before}, s.Declares before → (yes a s).Reports c before ds₁) :
    (emitIf c condition yes a s).Reports c before (condition.demands ++ ds₁) := by
  rw [emitIf]
  rcases (condition.compile_reports (c := c) h).cases with ⟨e, ht, hstop⟩ | ⟨test, ht, htest, hs⟩
  · simp only [ht]
    exact hstop _
  · simp only [ht]
    exact Reports.andThen htest (hyes _ s hs)

theorem emitIfElse_reports (h : s.Declares before)
    (hyes : ∀ a (s : ScopeStack) {before}, s.Declares before → (yes a s).Reports c before ds₁)
    (hno : ∀ a (s : ScopeStack) {before}, s.Declares before → (no a s).Reports c before ds₂) :
    (emitIfElse c condition yes no a s).Reports c before (condition.demands ++ (ds₁ ++ ds₂)) := by
  rw [emitIfElse]
  rcases (condition.compile_reports (c := c) h).cases with ⟨e, ht, hstop⟩ | ⟨test, ht, htest, hs⟩
  · simp only [ht]
    exact hstop _
  · simp only [ht]
    refine Reports.andThen htest ?_
    have hy := hyes (a + Instr.sizeOf test + (Instr.branchIfZero 0).size) s hs
    generalize yes (a + Instr.sizeOf test + (Instr.branchIfZero 0).size) s = y at hy ⊢
    obtain ⟨code, s', error?⟩ := y
    cases error? with
    | some e => exact Reports.stop hy
    | none => exact Reports.andThen hy (hno _ s' (hy.declares rfl))

theorem loopTest_reports (h : s.Declares before) (condition? : Option Expr) :
    Reports c before (Expr.demandsOf condition?) (errorOf? (loopTest c s condition?)) s := by
  cases condition? with
  | none => exact .nothing h
  | some e =>
    rw [loopTest, errorOf?_map]
    exact e.compile_reports h

theorem loopUpdate_reports (h : s.Declares before) (update? : Option Expr) :
    Reports c before (Expr.demandsOf update?) (errorOf? (loopUpdate c s update?)) s := by
  cases update? with
  | none => exact .nothing h
  | some e =>
    rw [loopUpdate, errorOf?_map]
    exact e.compile_reports h

theorem emitLoop_reports (h : s.Declares before)
    (hbody : ∀ a (s : ScopeStack) {before}, s.Declares before → (body a s).Reports c before ds₁) :
    (emitLoop c condition? update? body a s).Reports c before
      (Expr.demandsOf condition? ++ Expr.demandsOf update? ++ ds₁) := by
  rw [emitLoop, List.append_assoc]
  rcases (loopTest_reports (c := c) h condition?).cases with
    ⟨e, ht, hstop⟩ | ⟨test, ht, htest, hs⟩
  · simp only [ht]
    exact hstop _
  · simp only [ht]
    refine Reports.andThen htest ?_
    rcases (loopUpdate_reports (c := c) hs update?).cases with
      ⟨e, hu, hstop⟩ | ⟨update, hu, hupdate, hs⟩
    · simp only [hu]
      exact hstop _
    · simp only [hu]
      refine Reports.andThen hupdate ?_
      have hb := hbody (a + Instr.sizeOf (test 0) + Instr.sizeOf update) s hs
      generalize body (a + Instr.sizeOf (test 0) + Instr.sizeOf update) s = b at hb ⊢
      obtain ⟨code, s', error?⟩ := b
      cases error? <;> exact hb

end Control

mutual

/-- **A statement is emitted without an error exactly if its demands are met**, and otherwise with
the error of the first that is not. -/
theorem Stmt.emit_reports (stmt : Stmt) (inLoop : Bool) (a : Nat) (s : ScopeStack)
    {before : List Demand} (h : s.Declares before) :
    (stmt.emit c inLoop a s).Reports c before (stmt.demands inLoop) := by
  cases stmt with
  | expr e _ | wait e _ =>
    rw [emit, demands]
    exact Emitted.ofExcept_reports _ (e.compile_reports h)
  | var decl _ =>
    rw [emit, demands]
    exact decl.emit_reports h
  | ref name _ =>
    obtain ⟨r, below, rfl, hr⟩ := h
    rw [emit, demands, ScopeStack.declareHandle]
    rcases hr.handle c name.name name.position with ⟨r', slot, hd, hmet, hr'⟩ | ⟨hd, hnot⟩
    · rw [hd]
      exact Reports.met hmet ⟨r', below, rfl, hr'⟩
    · rw [hd]
      exact Reports.not_met hnot rfl
  | ret value? _ =>
    rw [emit, demands]
    exact Emitted.ofExcept_reports _ (Expr.compileOrZero_reports h value?)
  | leaveLoop position | continueLoop position =>
    rw [emit, demands]
    cases inLoop with
    | true => exact Reports.met rfl (h.quiet fun _ => rfl)
    | false => exact Reports.not_met Bool.false_ne_true rfl
  | block body _ =>
    rw [emit, demands]
    exact Stmt.emitAll_reports body inLoop a s h
  | ifThen condition yes _ =>
    rw [emit, demands]
    exact emitIf_reports h (yes.emit_reports inLoop)
  | ifElse condition yes no _ =>
    rw [emit, demands, List.append_assoc]
    exact emitIfElse_reports h (yes.emit_reports inLoop) (no.emit_reports inLoop)
  | whileLoop condition body _ =>
    rw [emit, demands, ← List.append_nil condition.demands]
    exact emitLoop_reports h (body.emit_reports true)
  | forLoop init? condition? update? body _ =>
    rw [emit, demands]
    exact Emitted.reports_andThen a (ForInit.emit_reports h init?) fun _ _ h =>
      emitLoop_reports h (body.emit_reports true)
  | fire request =>
    rw [emit, demands]
    exact request.emit_reports h

theorem Stmt.emitAll_reports (statements : List Stmt) (inLoop : Bool) (a : Nat) (s : ScopeStack)
    {before : List Demand} (h : s.Declares before) :
    (Stmt.emitAll c inLoop statements a s).Reports c before
      (Stmt.demandsAll inLoop statements) := by
  cases statements with
  | nil =>
    rw [emitAll, demandsAll]
    exact Reports.nothing h
  | cons stmt rest =>
    rw [emitAll, demandsAll]
    exact Emitted.reports_andThen a (stmt.emit_reports inLoop a s h) fun a s h =>
      Stmt.emitAll_reports rest inLoop a s h

end

/-! ## Declarations -/

/-- Parameters are declared exactly if each is a new name. -/
theorem Routine.Declares.declareNumbers_reports {r : Routine} {before : List Demand}
    (h : r.Declares before) (c : Catalog) (position : Position) (names : List String) :
    errorOf? (r.declareNumbers position names) =
        Demand.violation? c before (names.map fun name => .fresh name .number position) ∧
      ∀ r', r.declareNumbers position names = .ok r' →
        r'.Declares (before ++ names.map fun name => .fresh name .number position) := by
  induction names generalizing r before with
  | nil =>
    refine ⟨rfl, fun r' hr' => ?_⟩
    obtain rfl := Except.ok.inj hr'
    rwa [List.map_nil, List.append_nil]
  | cons name rest ih =>
    rw [declareNumbers, List.map_cons, Demand.violation?]
    rcases h.number c name position with ⟨r', slot, hd, hmet, hr'⟩ | ⟨hd, hnot⟩
    · rw [hd, if_pos hmet]
      have hrest := ih hr'
      rwa [List.append_assoc, List.singleton_append] at hrest
    · rw [hd, if_neg hnot]
      exact ⟨rfl, fun r' h => by cases h⟩

theorem Decl.header_reports (c : Catalog) (d : Decl) (s : ScopeStack) :
    (∃ e, d.header = .error e ∧ Demand.violation? c [] d.demands = some e) ∨
      ∃ r, d.header = .ok r ∧
        Demand.violation? c [] d.demands =
          Demand.violation? c (d.parameters.map fun name => .fresh name .number d.name.position)
            (Stmt.demandsAll false d.body) ∧
        ScopeStack.Declares (r :: s)
          (d.parameters.map fun name => .fresh name .number d.name.position) := by
  have hempty : Routine.Declares {} [] := ⟨rfl, rfl⟩
  obtain ⟨herror, hdeclares⟩ := hempty.declareNumbers_reports c d.name.position d.parameters
  rw [demands, Demand.violation?_append, ← herror, List.nil_append, header, Routine.withParameters]
  cases hr : ({} : Routine).declareNumbers d.name.position d.parameters with
  | error e => exact .inl ⟨e, rfl, rfl⟩
  | ok r =>
    obtain ⟨hnumbers, hhandles⟩ := hdeclares r hr
    exact .inr ⟨_, rfl, rfl, _, s, rfl, hnumbers, hhandles⟩

/-- A declaration is compiled with the error of its first violation, or else without one. -/
theorem Decl.errorOf?_compile (c : Catalog) (d : Decl) (s : ScopeStack) :
    errorOf? (d.compile c s).1 = Demand.violation? c [] d.demands := by
  rw [compile]
  rcases d.header_reports c s with ⟨e, hh, hv⟩ | ⟨r, hh, hv, hs⟩
  · rw [hh, hv]
    rfl
  · have hbody := Stmt.emitAll_reports (c := c) d.body false 0 (r :: s) hs
    obtain ⟨r', hr', -⟩ := Stmt.emitAll_grows (c := c) d.body false 0 (r :: s)
    rw [hh, hv, ← hbody.error]
    simp only [hr', ScopeStack.leave]
    split <;> next he => rw [he]; rfl

/-- **Compilation accepts exactly the well-formed declarations, and reports the first violation.**
A declaration has a routine if and only if each of its demands is met with those before it; it has
an error if and only if that is the error of a demand which is not met, while all before it are. -/
theorem Decl.compile_accepts (c : Catalog) (d : Decl) (s : ScopeStack) :
    ((∃ r, (d.compile c s).1 = .ok r) ↔ Demand.AllMet c d.demands) ∧
      ∀ e, (d.compile c s).1 = .error e ↔
        ∃ before x after, d.demands = before ++ x :: after ∧ Demand.AllMet c before ∧
          ¬x.Met c before ∧ x.error c before = e := by
  have hv := d.errorOf?_compile c s
  constructor
  · rw [Demand.allMet_iff, ← hv]
    cases (d.compile c s).1 <;> simp [errorOf?]
  · intro e
    have hsome : Demand.violation? c [] d.demands = some e ↔ _ := Demand.violation?_eq_some
    simp only [← Demand.allMet_iff, List.nil_append] at hsome
    rw [← hsome, ← hv]
    cases (d.compile c s).1 <;> simp [errorOf?]

-- The update of a loop comes before its body, and does not know the names in there.
example (p : Position) :
    (Decl.compile {} ⟨.action, ⟨"main", p⟩, [],
      [.forLoop none none (some (.var "i" p)) (.var ⟨⟨"i", p⟩, none⟩ p) p], p⟩ []).1 =
      .error (.unknownVariable "i" p) := rfl

end Danmaku
