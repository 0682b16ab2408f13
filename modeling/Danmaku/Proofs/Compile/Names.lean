import Danmaku.Proofs.Compile.Success

/-!
# Names during compilation

Compiling does nothing to the scopes but to declare names in the innermost one. So whatever a single
declaration establishes between the scopes before and after, and adds up, holds between those before
and after compilation, whether it succeeds or not (`ScopeStack.Cumulative`, `Stmt.emit_cumulative`).

For one, each name is declared once, and the names of a scope before are a prefix of those after
(`ScopeStack.Grows`). So a slot that was found once keeps its name. A compiled routine therefore has
its parameters first, and no name twice (`Decl.compile_inv`).
-/

namespace Danmaku

/-- A name stands at its number. -/
theorem getElem?_of_idxOf? {xs : List String} {x : String} {i : Nat} (h : xs.idxOf? x = some i) :
    xs[i]? = some x := by
  obtain ⟨hlt, hget, -⟩ := List.idxOf?_eq_some_iff.1 h
  rw [List.getElem?_eq_getElem hlt, hget]

/-- A name keeps its number as names are added. -/
theorem getElem?_of_isPrefix {xs ys : List String} {x : String} {i : Nat} (h : xs <+: ys)
    (hi : xs[i]? = some x) : ys[i]? = some x := by
  obtain ⟨rest, rfl⟩ := h
  obtain ⟨hlt, -⟩ := List.getElem?_eq_some_iff.1 hi
  rw [List.getElem?_append_left hlt, hi]

/-- A routine with more names. -/
structure Routine.Grows (r r' : Routine) : Prop where
  numbers : r.numbers <+: r'.numbers
  nodup : r.numbers.Nodup → r'.numbers.Nodup
  parameterCount : r'.parameterCount = r.parameterCount

namespace Routine

theorem Grows.refl (r : Routine) : r.Grows r := ⟨List.prefix_refl _, id, rfl⟩

theorem Grows.trans {r r' r'' : Routine} (h : r.Grows r') (h' : r'.Grows r'') : r.Grows r'' :=
  ⟨h.numbers.trans h'.numbers, h'.nodup ∘ h.nodup, h'.parameterCount.trans h.parameterCount⟩

theorem isSome_kindOf? {r : Routine} (name : String) :
    (r.kindOf? name).isSome = true ↔ name ∈ r.numbers ∨ name ∈ r.handles := by
  simp only [kindOf?, numberSlot?, handleSlot?, List.isSome_idxOf?]
  by_cases hn : name ∈ r.numbers <;> by_cases hh : name ∈ r.handles <;> simp [hn, hh]

theorem declareNumber_inv {r r' : Routine} {name : String} {position : Position} {slot : Nat}
    (h : r.declareNumber name position = .ok (r', slot)) :
    r' = { r with numbers := r.numbers ++ [name] } ∧ slot = r.numbers.length ∧
      ¬(r.kindOf? name).isSome = true := by
  unfold declareNumber at h
  split at h
  · cases h
  · next hk =>
    obtain ⟨rfl, rfl⟩ := Prod.mk.inj (Except.ok.inj h)
    exact ⟨rfl, rfl, hk⟩

theorem declareNumber_grows {r r' : Routine} {name : String} {position : Position} {slot : Nat}
    (h : r.declareNumber name position = .ok (r', slot)) : r.Grows r' := by
  obtain ⟨rfl, -, hk⟩ := declareNumber_inv h
  have hn : name ∉ r.numbers := fun hmem => hk ((isSome_kindOf? name).2 (.inl hmem))
  refine ⟨List.prefix_append _ _, fun hd => ?_, rfl⟩
  exact List.nodup_append.2 ⟨hd, List.nodup_singleton name, by grind⟩

theorem declareHandle_inv {r r' : Routine} {name : String} {position : Position} {slot : Nat}
    (h : r.declareHandle name position = .ok (r', slot)) :
    r' = { r with handles := r.handles ++ [name] } ∧ slot = r.handles.length ∧
      ¬(r.kindOf? name).isSome = true := by
  unfold declareHandle at h
  split at h
  · cases h
  · next hk =>
    obtain ⟨rfl, rfl⟩ := Prod.mk.inj (Except.ok.inj h)
    exact ⟨rfl, rfl, hk⟩

theorem declareHandle_grows {r r' : Routine} {name : String} {position : Position} {slot : Nat}
    (h : r.declareHandle name position = .ok (r', slot)) : r.Grows r' := by
  obtain ⟨rfl, -, -⟩ := declareHandle_inv h
  exact ⟨List.prefix_refl _, id, rfl⟩

theorem declareNumbers_inv {position : Position} {names : List String} {r r' : Routine}
    (h : r.declareNumbers position names = .ok r') :
    r.Grows r' ∧ r'.numbers = r.numbers ++ names := by
  induction names generalizing r with
  | nil =>
    obtain rfl := Except.ok.inj h
    exact ⟨.refl r, (List.append_nil _).symm⟩
  | cons name rest ih =>
    unfold declareNumbers at h
    split at h
    · cases h
    · next r₁ slot hd =>
      obtain ⟨hgrow, hnumbers⟩ := ih h
      refine ⟨(declareNumber_grows hd).trans hgrow, ?_⟩
      rw [hnumbers, (declareNumber_inv hd).1, List.append_assoc, List.singleton_append]

/-- A routine with parameters has these and no other names, each once. -/
theorem withParameters_inv {names : List String} {position : Position} {r : Routine}
    (h : withParameters names position = .ok r) :
    r.numbers = names ∧ names.Nodup ∧ r.parameterCount = names.length := by
  unfold withParameters at h
  cases hd : ({} : Routine).declareNumbers position names with
  | error e => rw [hd] at h; cases h
  | ok r₀ =>
    rw [hd] at h
    obtain rfl := Except.ok.inj h
    obtain ⟨hgrow, hnumbers⟩ := declareNumbers_inv hd
    have hnames : r₀.numbers = names := hnumbers
    exact ⟨hnames, hnames ▸ hgrow.nodup List.nodup_nil, rfl⟩

end Routine

namespace ScopeStack

/-- The numerical variables of the innermost scope by slot. -/
def numbers : ScopeStack → List String
  | [] => []
  | r :: _ => r.numbers

/-- The innermost scope has more names, and the others are as before. -/
def Grows : ScopeStack → ScopeStack → Prop
  | [], s' => s' = []
  | r :: below, s' => ∃ r', s' = r' :: below ∧ r.Grows r'

/-- A relation on routines holds between the innermost scopes, and the others are as before. -/
def OnTop (Q : Routine → Routine → Prop) : ScopeStack → ScopeStack → Prop
  | [], s' => s' = []
  | r :: below, s' => ∃ r', s' = r' :: below ∧ Q r r'

/-- A relation between the scopes before and after that each declaration of a name establishes, and
that adds up. -/
structure Cumulative (R : ScopeStack → ScopeStack → Prop) : Prop where
  refl : ∀ s, R s s
  trans : ∀ {s s' s''}, R s s' → R s' s'' → R s s''
  number : ∀ {s s' : ScopeStack} {name position slot},
    s.declareNumber name position = .ok (s', slot) → R s s'
  handle : ∀ {s s' : ScopeStack} {name position slot},
    s.declareHandle name position = .ok (s', slot) → R s s'

theorem Grows.numbers {s s' : ScopeStack} (h : s.Grows s') : s.numbers <+: s'.numbers := by
  cases s with
  | nil => exact List.nil_prefix
  | cons r below =>
    obtain ⟨r', rfl, hr⟩ := h
    exact hr.numbers

theorem numberSlot_inv {s : ScopeStack} {name : String} {position : Position} {slot : Nat}
    (h : s.numberSlot name position = .ok slot) : s.numbers[slot]? = some name := by
  unfold numberSlot at h
  split at h
  · cases h
  · split at h
    · next hs =>
      obtain rfl := Except.ok.inj h
      exact getElem?_of_idxOf? hs
    · split at h <;> cases h

theorem declareNumber_inv {s s' : ScopeStack} {name : String} {position : Position} {slot : Nat}
    (h : s.declareNumber name position = .ok (s', slot)) :
    ∃ r r' below, s = r :: below ∧ s' = r' :: below ∧
      r.declareNumber name position = .ok (r', slot) := by
  cases s with
  | nil => cases h
  | cons r below =>
    obtain ⟨⟨r', slot'⟩, hr, heq⟩ := map_eq_ok.1 h
    obtain ⟨rfl, rfl⟩ := Prod.mk.inj heq
    exact ⟨r, r', below, rfl, rfl, hr⟩

theorem declareHandle_inv {s s' : ScopeStack} {name : String} {position : Position} {slot : Nat}
    (h : s.declareHandle name position = .ok (s', slot)) :
    ∃ r r' below, s = r :: below ∧ s' = r' :: below ∧
      r.declareHandle name position = .ok (r', slot) := by
  cases s with
  | nil => cases h
  | cons r below =>
    obtain ⟨⟨r', slot'⟩, hr, heq⟩ := map_eq_ok.1 h
    obtain ⟨rfl, rfl⟩ := Prod.mk.inj heq
    exact ⟨r, r', below, rfl, rfl, hr⟩

/-- What declaring a name establishes in a routine, and adds up, does so for the innermost scope. -/
theorem cumulative_onTop {Q : Routine → Routine → Prop} (refl : ∀ r, Q r r)
    (trans : ∀ {r r' r''}, Q r r' → Q r' r'' → Q r r'')
    (number : ∀ {r r' : Routine} {name position slot},
      r.declareNumber name position = .ok (r', slot) → Q r r')
    (handle : ∀ {r r' : Routine} {name position slot},
      r.declareHandle name position = .ok (r', slot) → Q r r') :
    Cumulative (OnTop Q) where
  refl s := by
    cases s with
    | nil => rfl
    | cons r below => exact ⟨r, rfl, refl r⟩
  trans {s s' s''} h h' := by
    cases s with
    | nil =>
      subst h
      exact h'
    | cons r below =>
      obtain ⟨r', rfl, hr⟩ := h
      obtain ⟨r'', rfl, hr'⟩ := h'
      exact ⟨r'', rfl, trans hr hr'⟩
  number h := by
    obtain ⟨r, r', below, rfl, rfl, hr⟩ := declareNumber_inv h
    exact ⟨r', rfl, number hr⟩
  handle h := by
    obtain ⟨r, r', below, rfl, rfl, hr⟩ := declareHandle_inv h
    exact ⟨r', rfl, handle hr⟩

theorem grows_eq_onTop : Grows = OnTop Routine.Grows := by
  funext s s'
  cases s <;> rfl

theorem cumulative_grows : Cumulative Grows :=
  grows_eq_onTop ▸ cumulative_onTop Routine.Grows.refl Routine.Grows.trans
    Routine.declareNumber_grows Routine.declareHandle_grows

/-- A name that was just declared has its slot. -/
theorem numbers_of_declareNumber {s s' : ScopeStack} {name : String} {position : Position}
    {slot : Nat} (h : s.declareNumber name position = .ok (s', slot)) :
    s'.numbers[slot]? = some name := by
  obtain ⟨r, r', below, rfl, rfl, hr⟩ := declareNumber_inv h
  obtain ⟨rfl, rfl, -⟩ := Routine.declareNumber_inv hr
  simp [numbers]

end ScopeStack

/-! ## Emission -/

namespace Emitted

theorem ofExcept_scopes (code : Except CompileError (List Instr)) (after : List Instr)
    (s : ScopeStack) : (ofExcept code after s).scopes = s := by
  cases code <;> rfl

end Emitted

variable {c : Catalog} {condition : Expr} {condition? update? : Option Expr} {a : Nat}
  {s : ScopeStack} {yes no body : Nat → ScopeStack → Emitted}

theorem FireStmt.emit_scopes (f : FireStmt) : (f.emit c s).scopes = s := by
  unfold FireStmt.emit
  split
  · rfl
  · split
    · exact Emitted.ofExcept_scopes _ _ s
    · split
      · rfl
      · split
        · rfl
        · exact Emitted.ofExcept_scopes _ _ s

section Cumulative

variable {R : ScopeStack → ScopeStack → Prop} (hR : ScopeStack.Cumulative R)

include hR

theorem Emitted.andThen_cumulative {e : Emitted} {next : Nat → ScopeStack → Emitted}
    (he : R s e.scopes) (hnext : ∀ a s, R s (next a s).scopes) : R s (e.andThen a next).scopes := by
  unfold andThen
  split
  · exact he
  · exact hR.trans he (hnext _ _)

theorem VarDecl.emit_cumulative (d : VarDecl) : R s (d.emit c s).scopes := by
  unfold VarDecl.emit
  split
  · exact hR.refl s
  · next s' slot hd =>
    rw [Emitted.ofExcept_scopes]
    exact hR.number hd

theorem ForInit.emit_cumulative (init? : Option ForInit) : R s (ForInit.emit c init? s).scopes := by
  unfold ForInit.emit
  split
  · exact hR.refl s
  · exact VarDecl.emit_cumulative hR _
  · rw [Emitted.ofExcept_scopes]
    exact hR.refl s

theorem emitIf_cumulative (hyes : ∀ a s, R s (yes a s).scopes) :
    R s (emitIf c condition yes a s).scopes := by
  unfold emitIf
  split
  · exact hR.refl s
  · exact hyes _ s

theorem emitIfElse_cumulative (hyes : ∀ a s, R s (yes a s).scopes)
    (hno : ∀ a s, R s (no a s).scopes) : R s (emitIfElse c condition yes no a s).scopes := by
  unfold emitIfElse
  split
  · exact hR.refl s
  · simp only
    split
    · exact hyes _ s
    · exact hR.trans (hyes _ s) (hno _ _)

theorem emitLoop_cumulative (hbody : ∀ a s, R s (body a s).scopes) :
    R s (emitLoop c condition? update? body a s).scopes := by
  unfold emitLoop
  split
  · exact hR.refl s
  · split
    · exact hR.refl s
    · simp only
      split
      · exact hbody _ s
      · exact hbody _ s

mutual

/-- **Compiling a statement only declares names**, whether it succeeds or not. -/
theorem Stmt.emit_cumulative (stmt : Stmt) (inLoop : Bool) (a : Nat) (s : ScopeStack) :
    R s (stmt.emit c inLoop a s).scopes := by
  cases stmt with
  | expr e _ | ret value? _ | wait ticks _ =>
    rw [Stmt.emit, Emitted.ofExcept_scopes]
    exact hR.refl s
  | var decl _ => exact VarDecl.emit_cumulative hR decl
  | ref name _ =>
    rw [Stmt.emit]
    split
    · exact hR.refl s
    · next hd => exact hR.handle hd
  | leaveLoop _ | continueLoop _ =>
    rw [Stmt.emit]
    split <;> exact hR.refl s
  | block body _ => exact Stmt.emitAll_cumulative body inLoop a s
  | ifThen condition yes _ => exact emitIf_cumulative hR (yes.emit_cumulative inLoop)
  | ifElse condition yes no _ =>
    exact emitIfElse_cumulative hR (yes.emit_cumulative inLoop) (no.emit_cumulative inLoop)
  | whileLoop condition body _ => exact emitLoop_cumulative hR (body.emit_cumulative true)
  | forLoop init? condition? update? body _ =>
    exact Emitted.andThen_cumulative hR (ForInit.emit_cumulative hR init?) fun _ _ =>
      emitLoop_cumulative hR (body.emit_cumulative true)
  | fire request =>
    rw [Stmt.emit, FireStmt.emit_scopes]
    exact hR.refl s

theorem Stmt.emitAll_cumulative (statements : List Stmt) (inLoop : Bool) (a : Nat)
    (s : ScopeStack) : R s (Stmt.emitAll c inLoop statements a s).scopes := by
  cases statements with
  | nil => exact hR.refl s
  | cons stmt rest =>
    exact Emitted.andThen_cumulative hR (stmt.emit_cumulative inLoop a s)
      (Stmt.emitAll_cumulative rest inLoop)

end

end Cumulative

theorem emitLoop_grows (hbody : ∀ a (s : ScopeStack), s.Grows (body a s).scopes) :
    s.Grows (emitLoop c condition? update? body a s).scopes :=
  emitLoop_cumulative ScopeStack.cumulative_grows hbody

theorem Stmt.emit_grows (stmt : Stmt) (inLoop : Bool) (a : Nat) (s : ScopeStack) :
    s.Grows (stmt.emit c inLoop a s).scopes :=
  stmt.emit_cumulative ScopeStack.cumulative_grows inLoop a s

theorem Stmt.emitAll_grows (statements : List Stmt) (inLoop : Bool) (a : Nat) (s : ScopeStack) :
    s.Grows (Stmt.emitAll c inLoop statements a s).scopes :=
  Stmt.emitAll_cumulative ScopeStack.cumulative_grows statements inLoop a s

/-- **A compiled declaration** is the code of its body, in a scope that starts with the
parameters. -/
theorem Decl.compile_inv {d : Decl} {r : Routine} {s s' : ScopeStack}
    (h : d.compile c s = (.ok r, s')) :
    ∃ header r₀, d.header = .ok header ∧
      (Stmt.emitAll c false d.body 0 (header :: s)).error? = none ∧
      (Stmt.emitAll c false d.body 0 (header :: s)).scopes = r₀ :: s ∧ header.Grows r₀ ∧ s' = s ∧
      r = { r₀ with
        code := .ofList (Stmt.emitAll c false d.body 0 (header :: s)).code.words } := by
  unfold Decl.compile at h
  split at h
  · cases h
  · next header hh =>
    obtain ⟨r₀, hr₀, hgrow⟩ := Stmt.emitAll_grows (c := c) d.body false 0 (header :: s)
    simp only [hr₀, ScopeStack.leave] at h
    split at h
    · cases h
    · next he =>
      obtain rfl := (Prod.mk.inj h).2
      exact ⟨header, r₀, hh, he, hr₀, hgrow, rfl, (Except.ok.inj (Prod.mk.inj h).1).symm⟩

/-- The parameters of a compiled declaration are its first names, and no name is there twice. -/
theorem Decl.compile_names {d : Decl} {r : Routine} {s s' : ScopeStack}
    (h : d.compile c s = (.ok r, s')) :
    d.parameters <+: r.numbers ∧ r.numbers.Nodup ∧ r.parameterCount = d.parameters.length := by
  obtain ⟨header, r₀, hh, -, -, hgrow, -, rfl⟩ := Decl.compile_inv h
  obtain ⟨hnumbers, hnodup, hcount⟩ := Routine.withParameters_inv hh
  exact ⟨hnumbers ▸ hgrow.numbers, hgrow.nodup (hnumbers ▸ hnodup),
    hgrow.parameterCount.trans hcount⟩

end Danmaku
