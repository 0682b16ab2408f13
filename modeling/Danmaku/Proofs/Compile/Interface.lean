import Danmaku.Proofs.Compile.Script

/-!
# What a body sees of the catalog

A body that is compiled asks the catalog for numbers of names, and for how many arguments a routine
takes (`Catalog.signature?`). It never looks at the code that stands under a name. So it becomes the
same code, or has the same error, in catalogs that answer alike (`Catalog.Alike.compile_decl`), and
filling a catalog with code does not change any answer (`Catalog.Fills.alike`).
-/

namespace Danmaku

/-- The number of a routine, and how many arguments it takes. -/
def Catalog.signature? (c : Catalog) (kind : RoutineKind) (name : String) : Option (Nat × Nat) :=
  ((c.routines kind).lookup? name).map fun x => (x.1, x.2.parameterCount)

/-- Two catalogs give the same answers to a body that is compiled. -/
structure Catalog.Alike (c c' : Catalog) : Prop where
  types : c'.types = c.types
  firing : c'.firing = c.firing
  delegates : c'.delegates = c.delegates
  signature : ∀ kind name, c'.signature? kind name = c.signature? kind name

/-- New code is not seen. -/
theorem Catalog.Fills.alike {c c' : Catalog} (h : c.Fills c') : c.Alike c' where
  types := h.grows.types
  firing := h.grows.firing
  delegates := h.grows.delegates
  signature kind name := by
    rw [signature?, signature?]
    cases hl : (c.routines kind).lookup? name with
    | some x =>
      obtain ⟨r', hl', hcount⟩ := (h.grows.routines kind).lookup hl
      rw [hl', Option.map_some, Option.map_some, hcount]
    | none =>
      have hnone : (c.routines kind).indexOf? name = none := by
        cases hi : (c.routines kind).indexOf? name with
        | none => rfl
        | some i =>
          obtain ⟨r, hr⟩ := Table.at?_of_indexOf? hi
          rw [Table.lookup?_eq_some.2 ⟨hi, hr⟩] at hl
          cases hl
      rw [Table.lookup?, h.names, hnone, Option.bind_none]

namespace Catalog.Alike

variable {c c' : Catalog}

/-! ## Names -/

theorem lookup (h : c.Alike c') (kind : RoutineKind) (name : String) :
    ((c.routines kind).lookup? name = none ∧ (c'.routines kind).lookup? name = none) ∨
      ∃ i r r', (c.routines kind).lookup? name = some (i, r) ∧
        (c'.routines kind).lookup? name = some (i, r') ∧ r'.parameterCount = r.parameterCount := by
  have hs := h.signature kind name
  rw [signature?, signature?] at hs
  cases hl : (c.routines kind).lookup? name with
  | none =>
    rw [hl, Option.map_none, Option.map_eq_none_iff] at hs
    exact .inl ⟨rfl, hs⟩
  | some x =>
    rw [hl, Option.map_some, Option.map_eq_some_iff] at hs
    obtain ⟨⟨i, r'⟩, hl', heq⟩ := hs
    obtain ⟨rfl, hcount⟩ := Prod.mk.inj heq
    exact .inr ⟨x.1, x.2, r', rfl, hl', hcount⟩

theorem callee_eq (h : c.Alike c') (f : Ident) (found : Nat) (position : Position) :
    callee c' f found position = callee c f found position := by
  unfold callee
  rw [h.delegates]
  rcases h.lookup .function f.name with ⟨hl, hl'⟩ | ⟨i, r, r', hl, hl', hcount⟩
  · rw [show c.functions.lookup? f.name = none from hl,
      show c'.functions.lookup? f.name = none from hl']
  · simp only [show c.functions.lookup? f.name = some (i, r) from hl,
      show c'.functions.lookup? f.name = some (i, r') from hl', hcount]

theorem resolve_updater (h : c.Alike c') (u : UpdaterClause) : u.resolve c' = u.resolve c := by
  unfold UpdaterClause.resolve
  rcases h.lookup .bulletUpdater u.name.name with ⟨hl, hl'⟩ | ⟨i, r, r', hl, hl', hcount⟩
  · rw [show c.bulletUpdaters.lookup? u.name.name = none from hl,
      show c'.bulletUpdaters.lookup? u.name.name = none from hl']
  · simp only [show c.bulletUpdaters.lookup? u.name.name = some (i, r) from hl,
      show c'.bulletUpdaters.lookup? u.name.name = some (i, r') from hl', hcount]

theorem resolve_firing (h : c.Alike c') (f : FireStmt) : f.resolve c' = f.resolve c := by
  rw [FireStmt.resolve, FireStmt.resolve, h.firing]

theorem place_eq (h : c.Alike c') (e : Expr) (s : ScopeStack) : e.place c' s = e.place c s := by
  cases e <;> simp only [Expr.place, h.types]

/-! ## Expressions -/

mutual

/-- **An expression has the same code in catalogs that answer alike.** -/
theorem compile_eq (h : c.Alike c') (e : Expr) (s : ScopeStack) :
    e.compile c' s = e.compile c s := by
  cases e with
  | num value _ => simp only [Expr.compile]
  | var name position | prop name position => simp only [Expr.compile, h.place_eq]
  | binary op left right _ =>
    simp only [Expr.compile, compile_eq h left s, compile_eq h right s]
  | unary op operand _ => simp only [Expr.compile, compile_eq h operand s]
  | assign op target value _ =>
    cases op <;> simp only [Expr.compile, h.place_eq, compile_eq h value s]
  | step op target _ => simp only [Expr.compile, h.place_eq]
  | choose condition yes no _ =>
    simp only [Expr.compile, compile_eq h condition s, compile_eq h yes s, compile_eq h no s]
  | call name arguments position =>
    simp only [Expr.compile, h.callee_eq, compileAll_eq h arguments s]

theorem compileAll_eq (h : c.Alike c') (arguments : List Expr) (s : ScopeStack) :
    Expr.compileAll c' s arguments = Expr.compileAll c s arguments := by
  cases arguments with
  | nil => simp only [Expr.compileAll]
  | cons e rest => simp only [Expr.compileAll, compile_eq h e s, compileAll_eq h rest s]

end

theorem compileOrZero_eq (h : c.Alike c') (e? : Option Expr) (s : ScopeStack) :
    Expr.compileOrZero c' s e? = Expr.compileOrZero c s e? := by
  cases e? with
  | none => rfl
  | some e => exact h.compile_eq e s

/-! ## Statements -/

theorem emit_var (h : c.Alike c') (d : VarDecl) (s : ScopeStack) : d.emit c' s = d.emit c s := by
  unfold VarDecl.emit
  simp only [h.compileOrZero_eq]

theorem emit_init (h : c.Alike c') (init? : Option ForInit) (s : ScopeStack) :
    ForInit.emit c' init? s = ForInit.emit c init? s := by
  unfold ForInit.emit
  simp only [h.emit_var, h.compile_eq]

theorem emit_fire (h : c.Alike c') (f : FireStmt) (s : ScopeStack) : f.emit c' s = f.emit c s := by
  unfold FireStmt.emit
  simp only [h.resolve_firing, h.resolve_updater, h.compileAll_eq]

theorem emitIf_eq (h : c.Alike c') (condition : Expr) (yes : Nat → ScopeStack → Emitted)
    (a : Nat) (s : ScopeStack) : emitIf c' condition yes a s = emitIf c condition yes a s := by
  unfold emitIf
  rw [h.compile_eq]

theorem emitIfElse_eq (h : c.Alike c') (condition : Expr) (yes no : Nat → ScopeStack → Emitted)
    (a : Nat) (s : ScopeStack) :
    emitIfElse c' condition yes no a s = emitIfElse c condition yes no a s := by
  unfold emitIfElse
  rw [h.compile_eq]

theorem emitLoop_eq (h : c.Alike c') (condition? update? : Option Expr)
    (body : Nat → ScopeStack → Emitted) (a : Nat) (s : ScopeStack) :
    emitLoop c' condition? update? body a s = emitLoop c condition? update? body a s := by
  have htest : loopTest c' s condition? = loopTest c s condition? := by
    cases condition? <;> simp only [loopTest, h.compile_eq]
  have hupdate : loopUpdate c' s update? = loopUpdate c s update? := by
    cases update? <;> simp only [loopUpdate, h.compile_eq]
  unfold emitLoop
  rw [htest, hupdate]

mutual

/-- **A statement has the same code in catalogs that answer alike.** -/
theorem emit_eq (h : c.Alike c') (stmt : Stmt) (inLoop : Bool) :
    stmt.emit c' inLoop = stmt.emit c inLoop := by
  funext a s
  cases stmt with
  | expr e _ | wait e _ => simp only [Stmt.emit, h.compile_eq]
  | var decl _ => simp only [Stmt.emit, h.emit_var]
  | ref name _ | leaveLoop _ | continueLoop _ => simp only [Stmt.emit]
  | ret value? _ => simp only [Stmt.emit, h.compileOrZero_eq]
  | block body _ => simp only [Stmt.emit, emitAll_eq h body inLoop]
  | ifThen condition yes _ => simp only [Stmt.emit, h.emitIf_eq, emit_eq h yes inLoop]
  | ifElse condition yes no _ =>
    simp only [Stmt.emit, h.emitIfElse_eq, emit_eq h yes inLoop, emit_eq h no inLoop]
  | whileLoop condition body _ => simp only [Stmt.emit, h.emitLoop_eq, emit_eq h body true]
  | forLoop init? condition? update? body _ =>
    simp only [Stmt.emit, h.emit_init, h.emitLoop_eq, emit_eq h body true]
  | fire request => simp only [Stmt.emit, h.emit_fire]

theorem emitAll_eq (h : c.Alike c') (body : List Stmt) (inLoop : Bool) :
    Stmt.emitAll c' inLoop body = Stmt.emitAll c inLoop body := by
  funext a s
  cases body with
  | nil => simp only [Stmt.emitAll]
  | cons stmt rest => simp only [Stmt.emitAll, emit_eq h stmt inLoop, emitAll_eq h rest inLoop]

end

/-- **A body becomes the same code, or has the same error, in catalogs that answer alike.** -/
theorem compile_decl (h : c.Alike c') (d : Decl) (s : ScopeStack) :
    d.compile c' s = d.compile c s := by
  unfold Decl.compile
  rw [h.emitAll_eq]

end Catalog.Alike

end Danmaku
