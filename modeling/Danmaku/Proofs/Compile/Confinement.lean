import Danmaku.Proofs.Compile.Names

/-!
# What compilation leaves alone

A declaration is compiled in a scope of its own, which is gone afterwards. So the scopes are the
same before and after, whether the body could be compiled or not. A statement may add names to the
innermost scope, and keeps those that it has added when something in it is wrong; but it does
nothing else (`Routine.Gains`), and does not touch the scopes below.
-/

namespace Danmaku

/-- A routine with more names, each at the end of its table. A name that was there has the slot that
it had, in the table in which it was, and has none in the other; and all but the names is as
before. -/
structure Routine.Gains (r r' : Routine) : Prop where
  numbers : r.numbers <+: r'.numbers
  handles : r.handles <+: r'.handles
  numberSlot : ∀ name, (r.kindOf? name).isSome = true → r'.numberSlot? name = r.numberSlot? name
  handleSlot : ∀ name, (r.kindOf? name).isSome = true → r'.handleSlot? name = r.handleSlot? name
  kind : ∀ name, (r.kindOf? name).isSome = true → r'.kindOf? name = r.kindOf? name
  parameterCount : r'.parameterCount = r.parameterCount
  code : r'.code = r.code
  index : r'.index? = r.index?

namespace Routine

theorem Gains.refl (r : Routine) : r.Gains r :=
  ⟨List.prefix_refl _, List.prefix_refl _, fun _ _ => rfl, fun _ _ => rfl, fun _ _ => rfl, rfl, rfl,
    rfl⟩

theorem Gains.trans {r r' r'' : Routine} (h : r.Gains r') (h' : r'.Gains r'') : r.Gains r'' := by
  have hkept {name : String} (hname : (r.kindOf? name).isSome = true) :
      (r'.kindOf? name).isSome = true := by rw [h.kind name hname, hname]
  exact {
    numbers := h.numbers.trans h'.numbers
    handles := h.handles.trans h'.handles
    numberSlot := fun name hn => (h'.numberSlot name (hkept hn)).trans (h.numberSlot name hn)
    handleSlot := fun name hn => (h'.handleSlot name (hkept hn)).trans (h.handleSlot name hn)
    kind := fun name hn => (h'.kind name (hkept hn)).trans (h.kind name hn)
    parameterCount := h'.parameterCount.trans h.parameterCount
    code := h'.code.trans h.code
    index := h'.index.trans h.index }

/-- A name keeps its place, and its absence, when another one is added. -/
theorem idxOf?_concat_of_ne {names : List String} {name new : String} (h : name ≠ new) :
    (names ++ [new]).idxOf? name = names.idxOf? name := by
  induction names with
  | nil => simp [List.idxOf?_cons, h.symm]
  | cons first names ih => rw [List.cons_append, List.idxOf?_cons, List.idxOf?_cons, ih]

theorem kindOf?_congr {r r' : Routine} {name : String}
    (hn : r'.numberSlot? name = r.numberSlot? name)
    (hh : r'.handleSlot? name = r.handleSlot? name) : r'.kindOf? name = r.kindOf? name := by
  rw [kindOf?, kindOf?, hn, hh]

/-- A name that is declared is not the new one. -/
theorem ne_of_isSome_kindOf? {r : Routine} {name new : String}
    (hname : (r.kindOf? name).isSome = true) (hnew : ¬(r.kindOf? new).isSome = true) :
    name ≠ new := by
  rintro rfl
  exact hnew hname

theorem declareNumber_gains {r r' : Routine} {name : String} {position : Position} {slot : Nat}
    (h : r.declareNumber name position = .ok (r', slot)) : r.Gains r' := by
  obtain ⟨rfl, -, hnew⟩ := declareNumber_inv h
  have hslot (other : String) (ho : (r.kindOf? other).isSome = true) :
      (r.numbers ++ [name]).idxOf? other = r.numbers.idxOf? other :=
    idxOf?_concat_of_ne (ne_of_isSome_kindOf? ho hnew)
  exact {
    numbers := List.prefix_append _ _
    handles := List.prefix_refl _
    numberSlot := hslot
    handleSlot := fun _ _ => rfl
    kind := fun other ho => kindOf?_congr (hslot other ho) rfl
    parameterCount := rfl
    code := rfl
    index := rfl }

theorem declareHandle_gains {r r' : Routine} {name : String} {position : Position} {slot : Nat}
    (h : r.declareHandle name position = .ok (r', slot)) : r.Gains r' := by
  obtain ⟨rfl, -, hnew⟩ := declareHandle_inv h
  have hslot (other : String) (ho : (r.kindOf? other).isSome = true) :
      (r.handles ++ [name]).idxOf? other = r.handles.idxOf? other :=
    idxOf?_concat_of_ne (ne_of_isSome_kindOf? ho hnew)
  exact {
    numbers := List.prefix_refl _
    handles := List.prefix_append _ _
    numberSlot := fun _ _ => rfl
    handleSlot := hslot
    kind := fun other ho => kindOf?_congr rfl (hslot other ho)
    parameterCount := rfl
    code := rfl
    index := rfl }

end Routine

theorem ScopeStack.cumulative_gains : Cumulative (OnTop Routine.Gains) :=
  cumulative_onTop Routine.Gains.refl Routine.Gains.trans Routine.declareNumber_gains
    Routine.declareHandle_gains

/-- **Compilation is confined.** Compiling a declaration leaves all scopes as they were, whether it
succeeds or not. Statements that are written at the end of a block, in a loop or in none, only add
names to the innermost scope, also if one of them is in error. -/
theorem compilation_confined :
    (∀ (c : Catalog) (d : Decl) (s : ScopeStack), (d.compile c s).2 = s) ∧
    ∀ (c : Catalog) (statements : List Stmt) (block : Code) (jumps? : Option LoopJumps)
      (s : ScopeStack),
      s.OnTop Routine.Gains (Stmt.write c statements block jumps? s).2.2.1 := by
  refine ⟨fun c d s => ?_, fun c statements block jumps? s => ?_⟩
  · rw [Decl.compile]
    split
    · rfl
    · next header _ =>
      obtain ⟨r, hr, -⟩ := Stmt.emitAll_grows (c := c) d.body false 0 (header :: s)
      simp only [hr, ScopeStack.leave]
      split <;> rfl
  · exact Stmt.emitAll_cumulative ScopeStack.cumulative_gains statements _ _ s

end Danmaku
