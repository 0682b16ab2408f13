import Danmaku.Compile.Decl
import Danmaku.Proofs.Code.Placed

/-!
# What successful compilation yields

Compilation stops at the first error and keeps the code so far. Here its successful results are
described: what the code of a statement is made of, once nothing was wrong (`Emitted.ofExcept_inv`
and the lemmas after it), in which the placeholders of failed compilations no longer occur.

A fragment with open jumps becomes a list of instructions once the targets of the loop around it are
given (`Fragment.instrs`), of the same size whatever the targets are.
-/

namespace Danmaku

/-! ## Fragments as instructions -/

/-- The instruction that an item becomes, given the targets of a loop. -/
def Item.closed (exit next : Nat) : Item → Instr
  | .instr i => i
  | .leave => .jump exit
  | .again => .jump next

namespace Fragment

/-- The instructions that a fragment becomes, given the targets of the loop around it. -/
def instrs (f : Fragment) (exit next : Nat) : List Instr := f.map (Item.closed exit next)

@[simp] theorem instrs_append (f g : Fragment) (e n : Nat) :
    instrs (f ++ g) e n = f.instrs e n ++ g.instrs e n := List.map_append

@[simp] theorem instrs_ofInstrs (code : List Instr) (e n : Nat) :
    (ofInstrs code).instrs e n = code := by
  simp [instrs, ofInstrs, Item.closed, Function.comp_def]

@[simp] theorem instrs_close (f : Fragment) (e n e' n' : Nat) :
    (f.close e n).instrs e' n' = f.instrs e n := by
  rw [instrs, instrs, close, List.map_map]
  exact List.map_congr_left fun item _ => by cases item <;> rfl

@[simp] theorem sizeOf_instrs (f : Fragment) (e n : Nat) :
    Instr.sizeOf (f.instrs e n) = f.size := by
  induction f with
  | nil => rfl
  | cons item f ih =>
    rw [instrs, List.map_cons, Instr.sizeOf_cons, size, ← ih, instrs]
    cases item <;> rfl

@[simp] theorem size_append (f g : Fragment) : size (f ++ g) = f.size + g.size := by
  rw [← sizeOf_instrs _ 0 0, instrs_append, Instr.sizeOf_append, sizeOf_instrs, sizeOf_instrs]

@[simp] theorem size_ofInstrs (code : List Instr) : (ofInstrs code).size = Instr.sizeOf code := by
  rw [← sizeOf_instrs _ 0 0, instrs_ofInstrs]

@[simp] theorem size_close (f : Fragment) (e n : Nat) : (f.close e n).size = f.size := by
  rw [← sizeOf_instrs _ 0 0, instrs_close, sizeOf_instrs]

@[simp] theorem close_append (f g : Fragment) (e n : Nat) :
    (f ++ g : Fragment).close e n = f.close e n ++ g.close e n := List.map_append

@[simp] theorem close_ofInstrs (code : List Instr) (e n : Nat) :
    (ofInstrs code).close e n = ofInstrs code := by
  simp [close, ofInstrs, Item.close, Function.comp_def]

theorem ofInstrs_append (code rest : List Instr) :
    ofInstrs (code ++ rest) = ofInstrs code ++ ofInstrs rest := List.map_append

/-- In words, open jumps are jumps to zero. -/
theorem words_eq (f : Fragment) : f.words = (f.instrs 0 0).flatMap Instr.words := by
  rw [words, instrs, List.flatMap_map]
  congr 1
  funext item
  cases item <;> rfl

end Fragment

/-! ## Successful computations -/

section Except

variable {ε α β : Type}

theorem bind_eq_ok {x : Except ε α} {f : α → Except ε β} {b : β} :
    x >>= f = .ok b ↔ ∃ a, x = .ok a ∧ f a = .ok b := by
  cases x with
  | error e => simp [bind, Except.bind]
  | ok a => simp [bind, Except.bind]

theorem map_eq_ok {x : Except ε α} {f : α → β} {b : β} :
    x.map f = .ok b ↔ ∃ a, x = .ok a ∧ f a = b := by
  cases x with
  | error e => simp [Except.map]
  | ok a => simp [Except.map]

theorem map_eq_error {x : Except ε α} {f : α → β} {e : ε} :
    x.map f = .error e ↔ x = .error e := by
  cases x with
  | error e' => simp [Except.map]
  | ok a => simp [Except.map]

theorem pure_eq_ok {a b : α} : (pure a : Except ε α) = .ok b ↔ a = b := by
  simp [pure, Except.pure]

end Except

theorem checkArity_inv {kind name : String} {expected found : Nat} {position : Position}
    {u : Unit} (h : checkArity kind name expected found position = .ok u) : expected = found := by
  unfold checkArity at h
  split at h
  · assumption
  · cases h

theorem callee_inv {c : Catalog} {f : Ident} {found : Nat} {position : Position} {i : Instr}
    (h : callee c f found position = .ok i) :
    (∃ index r, c.functions.lookup? f.name = some (index, r) ∧ r.parameterCount = found ∧
      i = .call index) ∨
    ∃ index, c.functions.lookup? f.name = none ∧ c.delegates.indexOf? f.name = some index ∧
      i = .callDelegate index := by
  unfold callee at h
  split at h
  · next index r hl =>
    obtain ⟨_, ha, h⟩ := bind_eq_ok.1 h
    exact .inl ⟨index, r, hl, checkArity_inv ha, (pure_eq_ok.1 h).symm⟩
  · next hl =>
    split at h
    · next index hd => exact .inr ⟨index, hl, hd, (Except.ok.inj h).symm⟩
    · cases h

theorem UpdaterClause.resolve_inv {c : Catalog} {u : UpdaterClause} {index : Nat}
    (h : u.resolve c = .ok index) :
    ∃ r, c.bulletUpdaters.lookup? u.name.name = some (index, r) ∧
      r.parameterCount = u.arguments.length := by
  unfold UpdaterClause.resolve at h
  split at h
  · cases h
  · next index' r hl =>
    obtain ⟨_, ha, h⟩ := bind_eq_ok.1 h
    obtain rfl := pure_eq_ok.1 h
    exact ⟨r, hl, checkArity_inv ha⟩

theorem FireStmt.resolve_inv {c : Catalog} {f : FireStmt} {index : Nat}
    (h : f.resolve c = .ok index) :
    ∃ function, c.firing.find? (f.typeName, f.functionName) = some function ∧
      function.arity = f.arguments.length ∧ index = function.index := by
  unfold FireStmt.resolve at h
  split at h
  · cases h
  · next function hf =>
    obtain ⟨_, ha, h⟩ := bind_eq_ok.1 h
    exact ⟨function, hf, checkArity_inv ha, (pure_eq_ok.1 h).symm⟩

/-- What can be assigned to is a variable or a property. -/
theorem Expr.place_inv {c : Catalog} {s : ScopeStack} {e : Expr} {place : Place}
    (h : e.place c s = .ok place) :
    (∃ name position slot, e = .var name position ∧ s.numberSlot name position = .ok slot ∧
      place = .slot slot) ∨
    ∃ name position index, e = .prop name position ∧ c.types.globalIndex? name = some index ∧
      place = .property index := by
  cases e with
  | var name position =>
    obtain ⟨slot, hs, rfl⟩ := map_eq_ok.1 h
    exact .inl ⟨name, position, slot, rfl, hs, rfl⟩
  | prop name position =>
    rw [Expr.place] at h
    split at h
    · next index hi => exact .inr ⟨name, position, index, rfl, hi, (Except.ok.inj h).symm⟩
    · cases h
  | _ => cases h

/-! ## Successful results -/

namespace Emitted

theorem ofExcept_inv {code : Except CompileError (List Instr)} {after : List Instr}
    {s : ScopeStack} (h : (ofExcept code after s).error? = none) :
    ∃ c, code = .ok c ∧ ofExcept code after s = complete (c ++ after) s := by
  cases code with
  | error e => cases h
  | ok c => exact ⟨c, rfl, rfl⟩

theorem andThen_inv {e : Emitted} {a : Nat} {next : Nat → ScopeStack → Emitted}
    (h : (e.andThen a next).error? = none) :
    e.error? = none ∧ (next (a + e.code.size) e.scopes).error? = none ∧
      e.andThen a next = (next (a + e.code.size) e.scopes).after e.code := by
  unfold andThen at h ⊢
  split at h
  · next he => rw [he] at h; cases h
  · next he => exact ⟨he, h, rfl⟩

end Emitted

theorem VarDecl.emit_inv {c : Catalog} {d : VarDecl} {s : ScopeStack}
    (h : (d.emit c s).error? = none) :
    ∃ s' slot code, s.declareNumber d.name.name d.name.position = .ok (s', slot) ∧
      Expr.compileOrZero c s' d.value? = .ok code ∧
      d.emit c s = .complete (code ++ [.setVariable slot, .pop]) s' := by
  unfold VarDecl.emit at h ⊢
  split at h
  · cases h
  · next s' slot hd =>
    obtain ⟨code, hc, he⟩ := Emitted.ofExcept_inv h
    exact ⟨s', slot, code, hd, hc, he⟩

/-- A request to fire is its arguments, those of the updater if there is one, and the instruction
that fires. -/
theorem FireStmt.emit_inv {c : Catalog} {f : FireStmt} {s : ScopeStack}
    (h : (f.emit c s).error? = none) :
    ∃ firing args, f.resolve c = .ok firing ∧ Expr.compileAll c s f.arguments = .ok args ∧
      ((f.updater? = none ∧ f.emit c s = .complete (args ++ [.fire firing]) s) ∨
        ∃ clause updater rest, f.updater? = some clause ∧ clause.resolve c = .ok updater ∧
          Expr.compileAll c s clause.arguments = .ok rest ∧
          f.emit c s = .complete (args ++ (rest ++ [.fireWith firing updater])) s) := by
  unfold FireStmt.emit at h ⊢
  split at h
  · cases h
  · next firing hf =>
    split at h
    · next hu =>
      obtain ⟨args, ha, he⟩ := Emitted.ofExcept_inv h
      exact ⟨firing, args, hf, ha, .inl ⟨hu, he⟩⟩
    · next clause hu =>
      split at h
      · cases h
      · next updater hr =>
        split at h
        · cases h
        · next args ha =>
          obtain ⟨rest, hc, he⟩ := Emitted.ofExcept_inv h
          refine ⟨firing, args, hf, ha, .inr ⟨clause, updater, rest, hu, hr, hc, ?_⟩⟩
          simp only [he, Emitted.complete, Emitted.after, Fragment.ofInstrs, List.map_append]

theorem emitIf_inv {c : Catalog} {condition : Expr} {yes : Nat → ScopeStack → Emitted} {a : Nat}
    {s : ScopeStack} (h : (emitIf c condition yes a s).error? = none) :
    ∃ test y, condition.compile c s = .ok test ∧
      y = yes (a + Instr.sizeOf test + 2) s ∧ y.error? = none ∧
      emitIf c condition yes a s = y.after
        (.ofInstrs (test ++ [.branchIfZero (a + Instr.sizeOf test + 2 + y.code.size)])) := by
  unfold emitIf at h ⊢
  split at h
  · cases h
  · next test ht =>
    refine ⟨test, _, ht, rfl, h, ?_⟩
    have hy : (yes (a + Instr.sizeOf test + 2) s).error? = none := h
    simp only [show (Instr.branchIfZero 0).size = 2 from rfl, hy, Option.isSome_none,
      Bool.false_eq_true, if_false]

theorem emitIfElse_inv {c : Catalog} {condition : Expr} {yes no : Nat → ScopeStack → Emitted}
    {a : Nat} {s : ScopeStack} (h : (emitIfElse c condition yes no a s).error? = none) :
    ∃ test y n other, condition.compile c s = .ok test ∧
      y = yes (a + Instr.sizeOf test + 2) s ∧ y.error? = none ∧
      other = a + Instr.sizeOf test + 2 + y.code.size + 2 ∧
      n = no other y.scopes ∧ n.error? = none ∧
      emitIfElse c condition yes no a s = n.after
        (.ofInstrs (test ++ [.branchIfZero other]) ++ y.code ++
          .ofInstrs [.jump (other + n.code.size)]) := by
  unfold emitIfElse at h ⊢
  split at h
  · cases h
  · next test ht =>
    simp only [show (Instr.branchIfZero 0).size = 2 from rfl,
      show (Instr.jump 0).size = 2 from rfl] at h ⊢
    split at h
    · next hy =>
      obtain ⟨e, he⟩ := Option.isSome_iff_exists.1 hy
      rw [Emitted.after, he] at h
      cases h
    · next hy =>
      rw [Option.not_isSome_iff_eq_none] at hy
      refine ⟨test, _, _, _, ht, rfl, hy, rfl, rfl, h, ?_⟩
      have hn := show (no _ _).error? = none from h
      simp only [hy, hn, Option.isSome_none, Bool.false_eq_true, if_false]

/-- The code of a condition has the same size whatever the target of its branch is. -/
theorem sizeOf_loopTest {c : Catalog} {s : ScopeStack} {condition? : Option Expr}
    {test : Nat → List Instr} (h : loopTest c s condition? = .ok test) (exit : Nat) :
    Instr.sizeOf (test exit) = Instr.sizeOf (test 0) := by
  cases condition? with
  | none =>
    obtain rfl := Except.ok.inj h
    rfl
  | some e =>
    obtain ⟨code, -, rfl⟩ := map_eq_ok.1 h
    simp

theorem emitLoop_inv {c : Catalog} {condition? update? : Option Expr}
    {body : Nat → ScopeStack → Emitted} {a : Nat} {s : ScopeStack}
    (h : (emitLoop c condition? update? body a s).error? = none) :
    ∃ test update start b exit, loopTest c s condition? = .ok test ∧
      loopUpdate c s update? = .ok update ∧
      start = a + Instr.sizeOf (test 0) + Instr.sizeOf update ∧ b = body start s ∧
      b.error? = none ∧ exit = start + b.code.size + 2 ∧
      emitLoop c condition? update? body a s =
        ⟨.ofInstrs (test exit ++ update) ++ b.code.close exit a ++ .ofInstrs [.jump a],
          b.scopes, none⟩ := by
  unfold emitLoop at h ⊢
  split at h
  · cases h
  · next test ht =>
    split at h
    · cases h
    · next update hu =>
      simp only [show (Instr.jump 0).size = 2 from rfl] at h ⊢
      split at h
      · next hb =>
        obtain ⟨e, he⟩ := Option.isSome_iff_exists.1 hb
        rw [he] at h
        cases h
      · next hb =>
        rw [Option.not_isSome_iff_eq_none] at hb
        refine ⟨test, update, _, _, _, ht, hu, rfl, rfl, hb, rfl, ?_⟩
        simp only [hb, Option.isSome_none, Bool.false_eq_true, if_false]

end Danmaku
