import Danmaku.Proofs.Code.Relocation
import Danmaku.Proofs.Compile.Drafting

/-!
# Statements further on

The code of a statement depends on where it stands, but only on that: further on it is the same code
with its absolute addresses moved (`Stmt.relocatable_emit`). Expressions have none
(`Expr.relative_compile`), and those of a statement do not lie beyond its end.

So what statements are compiled to at the end of a block can be read off from what they are compiled
to alone, and what was in the block stays as it is (`Stmt.write_relocated`).
-/

namespace Danmaku

/-! ## Expressions -/

variable {c : Catalog} {s : ScopeStack} {code : List Instr}

theorem Place.target?_get (place : Place) : place.get.target? = none := by cases place <;> rfl

theorem Place.target?_set (place : Place) : place.set.target? = none := by cases place <;> rfl

theorem callee_relative {f : Ident} {found : Nat} {position : Position} {i : Instr}
    (h : callee c f found position = .ok i) : i.target? = none := by
  rcases callee_inv h with ⟨index, r, -, -, rfl⟩ | ⟨index, -, -, rfl⟩ <;> rfl

namespace Expr

open Instr

mutual

/-- **The code of an expression has no absolute addresses.** -/
theorem relative_compile {e : Expr} {code : List Instr} (h : e.compile c s = .ok code) :
    Relative code := by
  cases e with
  | num value _ =>
    obtain rfl := Except.ok.inj h
    exact relative_singleton rfl
  | var name position | prop name position =>
    simp only [compile, bind_eq_ok, pure_eq_ok] at h
    obtain ⟨place, -, rfl⟩ := h
    exact relative_singleton place.target?_get
  | binary op l r _ =>
    simp only [compile, bind_eq_ok, pure_eq_ok] at h
    obtain ⟨cl, hl, cr, hr, rfl⟩ := h
    simp only [relative_append, relative_cons, relative_nil, and_true]
    exact ⟨⟨relative_compile hl, relative_compile hr⟩, rfl⟩
  | unary op e _ =>
    simp only [compile, bind_eq_ok, pure_eq_ok] at h
    obtain ⟨ce, he, rfl⟩ := h
    simp only [relative_append, relative_cons, relative_nil, and_true]
    exact ⟨relative_compile he, by cases op <;> rfl⟩
  | assign op target value _ =>
    cases op with
    | plain =>
      simp only [compile, bind_eq_ok, pure_eq_ok] at h
      obtain ⟨place, -, cv, hv, rfl⟩ := h
      simp only [relative_append, relative_cons, relative_nil, and_true]
      exact ⟨relative_compile hv, place.target?_set⟩
    | combined op =>
      simp only [compile, bind_eq_ok, pure_eq_ok] at h
      obtain ⟨place, -, cv, hv, rfl⟩ := h
      simp only [relative_append, relative_cons, relative_nil, and_true]
      exact ⟨⟨place.target?_get, relative_compile hv⟩, rfl, place.target?_set⟩
  | step op target _ =>
    simp only [compile, bind_eq_ok, pure_eq_ok] at h
    obtain ⟨place, -, rfl⟩ := h
    simp only [relative_cons, relative_nil, and_true]
    exact ⟨place.target?_get, rfl, rfl, place.target?_set⟩
  | choose condition yes no _ =>
    -- its two jumps go by distances
    simp only [compile, bind_eq_ok, pure_eq_ok] at h
    obtain ⟨cc, hc, cy, hy, cn, hn, rfl⟩ := h
    simp only [relative_append, relative_cons, relative_nil, and_true]
    exact ⟨⟨⟨⟨relative_compile hc, rfl⟩, relative_compile hy⟩, rfl⟩, relative_compile hn⟩
  | call f args position =>
    simp only [compile, bind_eq_ok, pure_eq_ok] at h
    obtain ⟨i, hi, ca, ha, rfl⟩ := h
    simp only [relative_append, relative_cons, relative_nil, and_true]
    exact ⟨relative_compileAll ha, callee_relative hi⟩

theorem relative_compileAll {es : List Expr} {code : List Instr}
    (h : compileAll c s es = .ok code) : Relative code := by
  cases es with
  | nil =>
    obtain rfl := Except.ok.inj h
    exact relative_nil
  | cons e rest =>
    simp only [compileAll, bind_eq_ok, pure_eq_ok] at h
    obtain ⟨ce, he, cr, hr, rfl⟩ := h
    exact relative_append.2 ⟨relative_compile he, relative_compileAll hr⟩

end

theorem relative_compileOrZero {e? : Option Expr} (h : compileOrZero c s e? = .ok code) :
    Relative code := by
  cases e? with
  | some e => exact relative_compile h
  | none =>
    obtain rfl := Except.ok.inj h
    exact relative_singleton rfl

end Expr

/-! ## Statements -/

/-- What is emitted at `a`, and the same `k` words further on. -/
structure Emitted.Moved (k a : Nat) (e e' : Emitted) : Prop where
  /-- The same names have been declared. -/
  scopes_eq : e'.scopes = e.scopes
  /-- The same is wrong, if anything is. -/
  error_eq : e'.error? = e.error?
  /-- If nothing is wrong, the absolute addresses are all that differs. -/
  code_eq : e.error? = none → e'.code = e.code.relocate k
  /-- If nothing is wrong, the absolute addresses do not lie beyond the end of the code. -/
  below : e.error? = none → e.code.Below (a + e.code.size)

/-- What is emitted further on is the same, but for the absolute addresses. -/
def Emitted.Relocatable (emit : Nat → ScopeStack → Emitted) : Prop :=
  ∀ k a s, (emit a s).Moved k a (emit (a + k) s)

namespace Emitted

variable {k a : Nat} {e e' : Emitted} {emit next yes no body : Nat → ScopeStack → Emitted}
  {condition : Expr} {condition? update? : Option Expr}

theorem Moved.size_eq (h : e.Moved k a e') (he : e.error? = none) : e'.code.size = e.code.size := by
  rw [h.code_eq he, Fragment.size_relocate]

/-- Code without absolute addresses is the same everywhere. -/
theorem moved_self (h : e.error? = none → ∃ code, e.code = .ofInstrs code ∧ Instr.Relative code) :
    e.Moved k a e where
  scopes_eq := rfl
  error_eq := rfl
  code_eq he := by
    obtain ⟨code, hcode, hrelative⟩ := h he
    rw [hcode, Fragment.relocate_ofInstrs, hrelative.map_relocate]
  below he := by
    obtain ⟨code, hcode, hrelative⟩ := h he
    rw [hcode]
    exact Fragment.below_of_relative hrelative

/-- Where compilation stops, only the error and the scopes are compared. -/
theorem moved_of_error (hscopes : e'.scopes = e.scopes) (herror : e'.error? = e.error?)
    (he : e.error? ≠ none) : e.Moved k a e' where
  scopes_eq := hscopes
  error_eq := herror
  code_eq h := absurd h he
  below h := absurd h he

/-- What is emitted alike at every address, and has no absolute addresses, can be moved. -/
theorem relocatable_of_relative {emit : ScopeStack → Emitted}
    (h : ∀ s, (emit s).error? = none → ∃ code, (emit s).code = .ofInstrs code ∧
      Instr.Relative code) : Relocatable fun _ s => emit s :=
  fun _ _ s => moved_self (h s)

theorem relocatable_ofExcept {x : ScopeStack → Except CompileError (List Instr)}
    {rest : List Instr} (h : ∀ s code, x s = .ok code → Instr.Relative code)
    (hrest : Instr.Relative rest) : Relocatable fun _ s => ofExcept (x s) rest s := by
  refine relocatable_of_relative fun s he => ?_
  obtain ⟨code, hcode, he⟩ := ofExcept_inv he
  exact ⟨code ++ rest, by rw [he, complete], Instr.relative_append.2 ⟨h s code hcode, hrest⟩⟩

/-- Code before what is emitted, which is moved with it. -/
theorem Moved.after {b : Nat} {before before' : Fragment} (h : e.Moved k b e')
    (hb : b = a + before.size) (hbefore : e.error? = none → before' = before.relocate k)
    (hbelow : e.error? = none → before.Below (b + e.code.size)) :
    (e.after before).Moved k a (e'.after before') where
  scopes_eq := h.scopes_eq
  error_eq := h.error_eq
  code_eq he := by
    simp only [Emitted.after, Fragment.relocate_append, hbefore he, h.code_eq he]
  below he := by
    simp only [Emitted.after, Fragment.below_append, Fragment.size_append, ← Nat.add_assoc, ← hb]
    exact ⟨hbelow he, h.below he⟩

theorem Moved.andThen (h : e.Moved k a e') (hnext : Relocatable next) :
    (e.andThen a next).Moved k a (e'.andThen (a + k) next) := by
  rw [Emitted.andThen, Emitted.andThen, h.error_eq]
  cases he : e.error? with
  | some error => exact moved_of_error h.scopes_eq h.error_eq (by simp [he])
  | none =>
    rw [h.size_eq he, h.scopes_eq, Nat.add_right_comm a k]
    exact (hnext k _ _).after rfl (fun _ => h.code_eq he)
      fun _ => (h.below he).mono (Nat.le_add_right _ _)

/-- A condition and the branch that is taken if it is zero. -/
theorem relocate_branch {test : List Instr} (h : Instr.Relative test) (target : Nat) :
    (Fragment.ofInstrs (test ++ [.branchIfZero target])).relocate k =
      .ofInstrs (test ++ [.branchIfZero (target + k)]) := by
  rw [Fragment.relocate_ofInstrs, List.map_append, h.map_relocate]
  rfl

theorem below_branch {test : List Instr} (h : Instr.Relative test) {target n : Nat}
    (hle : target ≤ n) : (Fragment.ofInstrs (test ++ [.branchIfZero target])).Below n := by
  rw [Fragment.ofInstrs_append, Fragment.below_append]
  exact ⟨Fragment.below_of_relative h, Fragment.below_singleton rfl hle⟩

theorem relocatable_emitIf (hyes : Relocatable yes) : Relocatable (emitIf c condition yes) := by
  intro k a s
  simp only [emitIf]
  cases htest : condition.compile c s with
  | error error => exact moved_of_error rfl rfl (Option.some_ne_none _)
  | ok test =>
    have hrelative := Expr.relative_compile htest
    simp only [Nat.add_right_comm _ k]
    generalize hstart : a + Instr.sizeOf test + (Instr.branchIfZero 0).size = start
    have hy := hyes k start s
    have hbranch (target : Nat) :
        start = a + Fragment.size (.ofInstrs (test ++ [.branchIfZero target])) := by
      rw [← hstart, Fragment.ofInstrs_append, Drafting.size_branch, Nat.add_assoc]
    refine hy.after (hbranch _) (fun he => ?_) fun he => ?_
    · simp only [hy.error_eq, he, hy.size_eq he, Option.isSome_none, Bool.false_eq_true, if_false,
        relocate_branch hrelative]
    · simp only [he, Option.isSome_none, Bool.false_eq_true, if_false]
      exact below_branch hrelative (Nat.le_refl _)

theorem relocatable_emitIfElse (hyes : Relocatable yes) (hno : Relocatable no) :
    Relocatable (emitIfElse c condition yes no) := by
  intro k a s
  simp only [emitIfElse]
  cases htest : condition.compile c s with
  | error error => exact moved_of_error rfl rfl (Option.some_ne_none _)
  | ok test =>
    have hrelative := Expr.relative_compile htest
    simp only [Nat.add_right_comm _ k]
    generalize hstart : a + Instr.sizeOf test + (Instr.branchIfZero 0).size = start
    have hy := hyes k start s
    cases he : (yes start s).error? with
    | some error =>
      simp only [hy.error_eq, he, Option.isSome_some, if_true]
      refine moved_of_error hy.scopes_eq hy.error_eq ?_
      rw [after, he]
      exact Option.some_ne_none error
    | none =>
      simp only [hy.error_eq, he, hy.size_eq he, hy.scopes_eq, Option.isSome_none,
        Bool.false_eq_true, if_false]
      have hn := hno k (start + (yes start s).code.size + (Instr.jump 0).size) (yes start s).scopes
      refine hn.after (by simp [← hstart]; omega) (fun hs => ?_) fun hs => ?_
      · simp only [hn.error_eq, hs, hn.size_eq hs, Option.isSome_none, Bool.false_eq_true, if_false,
          Fragment.relocate_append, relocate_branch hrelative, hy.code_eq he,
          Fragment.relocate_ofInstrs]
        rfl
      · simp only [hs, Option.isSome_none, Bool.false_eq_true, if_false, Fragment.below_append]
        exact ⟨⟨below_branch hrelative (Nat.le_add_right _ _),
          (hy.below he).mono (by omega)⟩, Fragment.below_singleton rfl (Nat.le_refl _)⟩

/-- The code of a loop's condition, and its branch out of the loop. -/
theorem relocate_loopTest {test : Nat → List Instr} (h : loopTest c s condition? = .ok test)
    (exit : Nat) :
    (Fragment.ofInstrs (test exit)).relocate k = .ofInstrs (test (exit + k)) := by
  cases condition? with
  | none =>
    obtain rfl := Except.ok.inj h
    rfl
  | some condition =>
    obtain ⟨code, hcode, rfl⟩ := map_eq_ok.1 h
    exact relocate_branch (Expr.relative_compile hcode) exit

theorem below_loopTest {test : Nat → List Instr} (h : loopTest c s condition? = .ok test)
    {exit n : Nat} (hle : exit ≤ n) : (Fragment.ofInstrs (test exit)).Below n := by
  cases condition? with
  | none =>
    obtain rfl := Except.ok.inj h
    exact Fragment.below_of_relative Instr.relative_nil
  | some condition =>
    obtain ⟨code, hcode, rfl⟩ := map_eq_ok.1 h
    exact below_branch (Expr.relative_compile hcode) hle

theorem relative_loopUpdate {update : List Instr} (h : loopUpdate c s update? = .ok update) :
    Instr.Relative update := by
  cases update? with
  | none =>
    obtain rfl := Except.ok.inj h
    exact Instr.relative_nil
  | some e =>
    obtain ⟨code, hcode, rfl⟩ := map_eq_ok.1 h
    simp only [Instr.relative_append, Instr.relative_cons, Instr.relative_nil, and_true]
    exact ⟨Expr.relative_compile hcode, rfl⟩

theorem relocatable_emitLoop (hbody : Relocatable body) :
    Relocatable (emitLoop c condition? update? body) := by
  intro k a s
  simp only [emitLoop]
  cases htest : loopTest c s condition? with
  | error error => exact moved_of_error rfl rfl (Option.some_ne_none _)
  | ok test =>
    simp only
    cases hupdate : loopUpdate c s update? with
    | error error => exact moved_of_error rfl rfl (Option.some_ne_none _)
    | ok update =>
      have hrelative := relative_loopUpdate hupdate
      simp only [Nat.add_right_comm _ k]
      have hb := hbody k (a + Instr.sizeOf (test 0) + Instr.sizeOf update) s
      cases he : (body (a + Instr.sizeOf (test 0) + Instr.sizeOf update) s).error? with
      | some error =>
        simp only [hb.error_eq, he, Option.isSome_some, if_true]
        exact moved_of_error hb.scopes_eq rfl (Option.some_ne_none error)
      | none =>
        simp only [hb.error_eq, he, hb.size_eq he, Option.isSome_none, Bool.false_eq_true, if_false]
        refine ⟨hb.scopes_eq, rfl, fun _ => ?_, fun _ => ?_⟩
        · simp only [Fragment.relocate_append, Fragment.ofInstrs_append, relocate_loopTest htest,
            hb.code_eq he, Fragment.relocate_close, Fragment.relocate_ofInstrs,
            hrelative.map_relocate]
          rfl
        · simp only [Fragment.below_append, Fragment.ofInstrs_append, Fragment.size_append,
            Fragment.size_ofInstrs, Fragment.size_close, sizeOf_loopTest htest, Instr.sizeOf_cons,
            Instr.sizeOf_nil, Instr.size_jump]
          -- all of it lies between the start of the loop and its end
          refine ⟨⟨⟨below_loopTest htest ?_, Fragment.below_of_relative hrelative⟩,
            ((hb.below he).mono ?_).close ?_ ?_⟩, Fragment.below_singleton rfl ?_⟩ <;> omega

end Emitted

open Emitted

theorem VarDecl.relocatable_emit (d : VarDecl) : Relocatable fun _ s => d.emit c s := by
  refine relocatable_of_relative fun s he => ?_
  obtain ⟨s', slot, code, -, hcode, he⟩ := VarDecl.emit_inv he
  refine ⟨code ++ [.setVariable slot, .pop], by rw [he, complete], ?_⟩
  simp only [Instr.relative_append, Instr.relative_cons, Instr.relative_nil, and_true]
  exact ⟨Expr.relative_compileOrZero hcode, rfl, rfl⟩

theorem ForInit.relocatable_emit (init? : Option ForInit) :
    Relocatable fun _ s => ForInit.emit c init? s := by
  cases init? with
  | none => exact relocatable_of_relative fun s _ => ⟨[], rfl, Instr.relative_nil⟩
  | some init =>
    cases init with
    | declare decl => exact decl.relocatable_emit
    | evaluate e =>
      exact relocatable_ofExcept (fun _ _ h => Expr.relative_compile h)
        (Instr.relative_singleton rfl)

theorem FireStmt.relocatable_emit (f : FireStmt) : Relocatable fun _ s => f.emit c s := by
  refine relocatable_of_relative fun s he => ?_
  obtain ⟨firing, args, -, ha, ⟨-, he⟩ | ⟨clause, updater, rest, -, -, hr, he⟩⟩ :=
    FireStmt.emit_inv he
  all_goals
    refine ⟨_, by rw [he, complete], ?_⟩
    simp only [Instr.relative_append, Instr.relative_cons, Instr.relative_nil, and_true]
  · exact ⟨Expr.relative_compileAll ha, rfl⟩
  · exact ⟨Expr.relative_compileAll ha, Expr.relative_compileAll hr, rfl⟩

/-- An open jump has no address yet. -/
theorem relocatable_openJump (inLoop : Bool) {item : Item} (hmove : ∀ k, item.relocate k = item)
    (htarget : item.target? = none) (error : CompileError) :
    Relocatable fun _ s => if inLoop then ⟨[item], s, none⟩ else .failed error s := by
  intro k a s
  cases inLoop with
  | false => exact moved_of_error rfl rfl (Option.some_ne_none _)
  | true =>
    refine ⟨rfl, rfl, fun _ => ?_, fun _ => ?_⟩
    · exact congrArg (fun item => [item]) (hmove k).symm
    · refine List.forall_mem_singleton.2 fun target h => ?_
      rw [htarget] at h
      cases h

namespace Stmt

mutual

/-- **The code of a statement can be moved.** -/
theorem relocatable_emit (inLoop : Bool) : (stmt : Stmt) → Relocatable (stmt.emit c inLoop)
  | expr e _ =>
    relocatable_ofExcept (fun _ _ h => Expr.relative_compile h) (Instr.relative_singleton rfl)
  | var decl _ => decl.relocatable_emit
  | ref name position => by
    have hrelative (s : ScopeStack) (he : ((ref name position).emit c inLoop 0 s).error? = none) :
        ((ref name position).emit c inLoop 0 s).code = .ofInstrs [] := by
      rw [emit] at he ⊢
      split at he
      · cases he
      · rfl
    exact relocatable_of_relative fun s he => ⟨[], hrelative s he, Instr.relative_nil⟩
  | ret value? _ =>
    relocatable_ofExcept (fun _ _ h => Expr.relative_compileOrZero h) (Instr.relative_singleton rfl)
  | leaveLoop position => relocatable_openJump inLoop (fun _ => rfl) rfl _
  | continueLoop position => relocatable_openJump inLoop (fun _ => rfl) rfl _
  | block body _ => relocatable_emitAll inLoop body
  | ifThen condition yes _ => relocatable_emitIf (yes.relocatable_emit inLoop)
  | ifElse condition yes no _ =>
    relocatable_emitIfElse (yes.relocatable_emit inLoop) (no.relocatable_emit inLoop)
  | whileLoop condition body _ => relocatable_emitLoop (body.relocatable_emit true)
  | forLoop init? condition? update? body _ => fun k a s =>
    Moved.andThen (ForInit.relocatable_emit init? k a s)
      (relocatable_emitLoop (body.relocatable_emit true))
  | wait ticks _ =>
    relocatable_ofExcept (fun _ _ h => Expr.relative_compile h) (Instr.relative_singleton rfl)
  | fire request => request.relocatable_emit

theorem relocatable_emitAll (inLoop : Bool) : (stmts : List Stmt) →
    Relocatable fun a s => emitAll c inLoop stmts a s
  | [] => relocatable_of_relative fun _ _ => ⟨[], rfl, Instr.relative_nil⟩
  | stmt :: rest => fun k a s =>
    Moved.andThen (stmt.relocatable_emit inLoop k a s) (relocatable_emitAll inLoop rest)

end

end Stmt

/-! ## Statements at the end of a block -/

namespace Stmt

open Drafting

variable (c) (stmts : List Stmt) (block : Code) (jumps? : Option LoopJumps) (s : ScopeStack)

/-- What is written at the end of a block, next to what the same statements come to in an empty one.
The pending operands are those that they leave open there. -/
structure Relocated (block : Code) (jumps? : Option LoopJumps) (alone : Code) (pending : LoopJumps)
    (there : Code) (noted? : Option LoopJumps) : Prop where
  /-- The words are the same, but for the absolute addresses. -/
  appended : there = block.append (alone.relocate block.size pending.operands)
  /-- The loop around has noted the open jumps where they are. -/
  noted : noted? = jumps?.map fun j =>
    ⟨j.breaks ++ pending.breaks.map (· + block.size),
      j.continues ++ pending.continues.map (· + block.size)⟩
  /-- Open jumps stay open. -/
  unfilled : ∀ x ∈ pending.operands, there.word? (x + block.size) = some 0

variable {block jumps? s}

theorem relocated_of_moved {e e' : Emitted} (h : e.Moved block.size 0 e') (he : e.error? = none)
    (hsize : (block.append e'.code.words).size ≤ 0x1000000)
    (hstraight : jumps? = none → e.Straight) :
    Relocated block jumps? (Code.empty.append e.code.words)
      (((jumps?.map fun _ => {}).map (e.code.openJumps 0)).getD {}) (block.append e'.code.words)
      (jumps?.map (e'.code.openJumps block.size)) := by
  have hpending : ((jumps?.map fun _ => {}).map (e.code.openJumps 0)).getD {} =
      e.code.openJumps 0 {} := by
    cases hjumps : jumps? with
    | none =>
      obtain ⟨code, hcode⟩ := hstraight hjumps
      rw [hcode, Fragment.openJumps_ofInstrs]
      rfl
    | some j => rfl
  have hbelow : e.code.Below 0x1000000 := by
    refine (h.below he).mono ?_
    rw [Code.size_append, Fragment.length_words, h.size_eq he] at hsize
    omega
  have hwords := Fragment.relocate_words hbelow block.size
  rw [hpending, h.code_eq he]
  refine ⟨by rw [hwords], ?_, fun x hx => ?_⟩
  · exact congrArg (fun note => jumps?.map note)
      (funext (Fragment.openJumps_relocate e.code block.size))
  · rw [Code.word?_append_right]
    simp only [Fragment.openJumps_eq, LoopJumps.operands, List.nil_append, List.mem_append] at hx
    have hopen {kind : Item} (hkind : kind = .leave ∨ kind = .again)
        (hx : x ∈ Fragment.operandsOf (· = kind) 0 e.code) :
        (e.code.relocate block.size).words[x]? = some 0 := by
      rw [← Fragment.operandsOf_relocate e.code hkind block.size] at hx
      have hzero : kind.words = (Instr.jump 0).words := by obtain rfl | rfl := hkind <;> rfl
      obtain ⟨i, rfl, hi⟩ := Fragment.getElem?_words_of_mem hzero hx
      rwa [Nat.zero_add]
    exact hx.elim (hopen (.inl rfl)) (hopen (.inr rfl))

/-- **Statements that are written at the end of a block are what they are alone, further on.** What
is in the block stays as it is, also where compilation stops. -/
theorem write_relocated (hsize : (write c stmts block jumps? s).1.size ≤ 0x1000000) :
    let there := write c stmts block jumps? s
    let alone := write c stmts .empty (jumps?.map fun _ => {}) s
    (∀ x < block.size, there.1.word? x = block.word? x) ∧ there.2.2 = alone.2.2 ∧
      (there.2.2.2 = none →
        Relocated block jumps? alone.1 (alone.2.1.getD {}) there.1 there.2.1) ∧
      ∃ d : Draft, (draftAll c stmts).run { block, jumps?, scopes := s } = d.outcome there.2.2.2 ∧
        (d.block, d.jumps?, d.scopes) = (there.1, there.2.1, there.2.2.1) ∧
        d.filled ⊆ d.issued ∧ ∀ x ∈ d.issued, block.size ≤ x := by
  have hmoved : (emitAll c jumps?.isSome stmts 0 s).Moved block.size 0
      (emitAll c jumps?.isSome stmts block.size s) := by
    simpa using relocatable_emitAll jumps?.isSome stmts block.size 0 s
  have hinLoop : (jumps?.map fun _ : LoopJumps => ({} : LoopJumps)).isSome = jumps?.isSome :=
    Option.isSome_map
  have hempty : Code.empty.size = 0 := rfl
  simp only [write, hinLoop, hempty] at hsize ⊢
  refine ⟨fun x hx => Code.word?_append_left hx _, ?_, fun he => ?_, ?_⟩
  · rw [hmoved.scopes_eq, hmoved.error_eq]
  · rw [hmoved.error_eq] at he
    refine relocated_of_moved hmoved he hsize fun hjumps => ?_
    rw [hjumps]
    exact straight_emitAll stmts 0 s
  · obtain ⟨d, hrun, hgrown⟩ := writes_draftAll c stmts { block, jumps?, scopes := s }
    refine ⟨d, hrun, ?_⟩
    cases hgrown with
    | intro hfilled _ _ hown => exact ⟨rfl, hfilled, hown⟩

/-- A loop with a jump to its start and one out of it, and a jump out of the loop around. -/
def nestedLoops : List Stmt :=
  [.whileLoop (.num 1 .nowhere) (.block [.continueLoop .nowhere, .leaveLoop .nowhere] .nowhere)
      .nowhere, .leaveLoop .nowhere]

theorem write_nestedLoops :
    let there := write {} nestedLoops (.ofList [7, 7, 7]) (some ⟨[1], []⟩) []
    let alone := write {} nestedLoops .empty (some {}) []
    there.1.size ≤ 0x1000000 ∧ there.2.2.2 = none ∧ alone.2.1 = some ⟨[11], []⟩ ∧
      Relocated (.ofList [7, 7, 7]) (some ⟨[1], []⟩) alone.1 (alone.2.1.getD {}) there.1
        there.2.1 := by
  have hsize : (write {} nestedLoops (.ofList [7, 7, 7]) (some ⟨[1], []⟩) []).1.size ≤
      0x1000000 := by decide +kernel
  have hnone : (write {} nestedLoops (.ofList [7, 7, 7]) (some ⟨[1], []⟩) []).2.2.2 = none := by
    decide +kernel
  exact ⟨hsize, hnone, by decide +kernel, (write_relocated {} nestedLoops hsize).2.2.1 hnone⟩

end Stmt

end Danmaku
