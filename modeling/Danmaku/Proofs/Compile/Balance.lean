import Danmaku.Proofs.Compile.Sound
import Danmaku.Proofs.Machine.Control
import Danmaku.Proofs.Syntax.Marks
import Danmaku.Proofs.Syntax.Needs

/-!
# Compiled code is balanced

Code is balanced if at each of its addresses there are as many operands as a plan says: an
instruction finds what it takes, and wherever it leads there is what it leaves (`Instr.Balanced`).
The code of a declaration is balanced by the marks of its body (`Decl.compile_balanced`), which are
read off the syntax alone: an expression adds one operand on every path through it, and a statement
none.
-/

namespace Danmaku

namespace Instr

/-- How many operands an instruction takes. A delegate takes the arguments that it is handed. -/
def takesOf (c : Catalog) (arguments : Nat) : Instr → Nat
  | callDelegate _ => arguments
  | i => i.takes c

/-- The instruction at an address finds the operands that it takes, leaves as many as a plan says
for wherever it leads, and calls what may be called. -/
def Balanced (c : Catalog) (plan : Plan) (callable : Nat → Prop) (address : Nat) (i : Instr) :
    Prop :=
  ∃ kept, plan.depth address = kept + i.takesOf c (plan.arguments address) ∧
    (∀ b, i.LeadsTo (address + i.size) b → plan.depth b = kept + i.gives) ∧
    ∀ f, i = .call f → callable f

/-- The same for instructions that stand one after another. -/
def AllBalanced (c : Catalog) (plan : Plan) (callable : Nat → Prop) (address : Nat)
    (code : List Instr) : Prop :=
  ∀ x ∈ placed address code, x.2.Balanced c plan callable x.1

/-- The instruction neither calls nor jumps. -/
def IsStraight : Instr → Prop
  | push _ | pop | negate | not | binary _ | getVariable _ | setVariable _ | getProperty _
  | setProperty _ | fire _ | fireWith _ _ | wait => True
  | jump _ | branchIfZero _ | jumpBy _ | branchIfZeroBy _ | call _ | callDelegate _ | ret => False

variable {c : Catalog} {plan : Plan} {callable : Nat → Prop} {a kept : Nat} {i : Instr}
  {code rest : List Instr}

@[simp] theorem allBalanced_nil : AllBalanced c plan callable a [] := by simp [AllBalanced]

@[simp] theorem allBalanced_cons : AllBalanced c plan callable a (i :: code) ↔
    i.Balanced c plan callable a ∧ AllBalanced c plan callable (a + i.size) code := by
  simp [AllBalanced]

@[simp] theorem allBalanced_append : AllBalanced c plan callable a (code ++ rest) ↔
    AllBalanced c plan callable a code ∧ AllBalanced c plan callable (a + sizeOf code) rest := by
  simp only [AllBalanced, placed_append, List.forall_mem_append]

/-- A sound instruction takes as many operands when more is entered in the catalog. -/
theorem Sound.takesOf_eq {c' : Catalog} {count n : Nat} {target : Nat → Prop}
    (h : i.Sound c count target a) (hc : c.Extends c') : i.takesOf c' n = i.takesOf c n := by
  have firing {k : Nat} (hk : k < c.firing.size) : c'.firing.at? k = c.firing.at? k := by
    obtain ⟨f, hf⟩ := Table.at?_of_lt hk
    rw [hf, hc.firing k f hf]
  have parameters (kind : RoutineKind) {k : Nat} (hk : k < (c.routines kind).size) :
      ((c'.routines kind).at? k).map Routine.parameterCount =
        ((c.routines kind).at? k).map Routine.parameterCount := by
    obtain ⟨r, hr⟩ := Table.at?_of_lt hk
    obtain ⟨r', hr', hcount⟩ := (hc.routines kind).parameters k r hr
    rw [hr, hr', Option.map_some, Option.map_some, hcount]
  cases i with
  | call function => exact congrArg (·.getD 0) (parameters .function h)
  | fire k => exact congrArg (fun f => (f.map FiringFunction.arity).getD 0) (firing h)
  | fireWith k updater =>
    exact congrArg₂ (fun f n => (f.map FiringFunction.arity).getD 0 + n.getD 0) (firing h.1)
      (parameters .bulletUpdater h.2)
  | _ => rfl

/-- A sound instruction stays balanced. -/
theorem Balanced.extend {c' : Catalog} {count : Nat} {target : Nat → Prop}
    (h : i.Balanced c plan callable a) (hsound : i.Sound c count target a) (hc : c.Extends c') :
    i.Balanced c' plan callable a := by
  obtain ⟨kept, htakes, hrest⟩ := h
  exact ⟨kept, htakes.trans (by rw [hsound.takesOf_eq hc]), hrest⟩

theorem IsStraight.balanced (hi : i.IsStraight) (h : plan.depth a = kept + i.takes c)
    (hnext : plan.depth (a + i.size) = kept + i.gives) : i.Balanced c plan callable a := by
  cases i with
  | jump _ | branchIfZero _ | jumpBy _ | branchIfZeroBy _ | call _ | callDelegate _ | ret =>
    exact hi.elim
  | _ => exact ⟨kept, h, fun b hb => hb ▸ hnext, fun _ hf => nomatch hf⟩

/-- An instruction that takes all operands of its body. -/
theorem IsStraight.balanced_all (hi : i.IsStraight) (h : plan.depth a = i.takes c)
    (hnext : plan.depth (a + i.size) = i.gives) : i.Balanced c plan callable a :=
  hi.balanced (h.trans (Nat.zero_add _).symm) (hnext.trans (Nat.zero_add _).symm)

theorem balanced_branch {target : Nat} (h : plan.depth a = kept + 1)
    (hnext : plan.depth (a + 2) = kept) (htarget : plan.depth target = kept) :
    (branchIfZero target).Balanced c plan callable a :=
  ⟨kept, h, fun _ hb => hb.elim (fun hb => hb ▸ hnext) fun hb => hb ▸ htarget,
    fun _ hf => nomatch hf⟩

theorem balanced_jump {target : Nat} (h : plan.depth a = kept)
    (htarget : plan.depth target = kept) :
    (jump target).Balanced c plan callable a :=
  ⟨kept, h, fun b hb => by rw [show b = target from hb]; exact htarget, fun _ hf => nomatch hf⟩

theorem balanced_branchBy {offset : Int} {target : Nat} (h : plan.depth a = kept + 1)
    (hnext : plan.depth (a + 2) = kept) (htarget : plan.depth target = kept)
    (heq : ((a + 2 : Nat) : Int) + offset = target) :
    (branchIfZeroBy offset).Balanced c plan callable a :=
  ⟨kept, h, fun b hb => by
    rcases hb with rfl | hb
    · exact hnext
    · rw [show b = target from Int.ofNat_inj.1 (hb.trans heq)]
      exact htarget, fun _ hf => nomatch hf⟩

theorem balanced_jumpBy {offset : Int} {target : Nat} (h : plan.depth a = kept)
    (htarget : plan.depth target = kept) (heq : ((a + 2 : Nat) : Int) + offset = target) :
    (jumpBy offset).Balanced c plan callable a :=
  ⟨kept, h, fun b hb => by
    rw [show b = target from Int.ofNat_inj.1 (hb.trans heq)]
    exact htarget, fun _ hf => nomatch hf⟩

theorem balanced_ret (h : plan.depth a = kept + 1) : ret.Balanced c plan callable a :=
  ⟨kept, h, fun _ hb => hb.elim, fun _ hf => nomatch hf⟩

end Instr

open Instr

variable {k c : Catalog} {plan : Plan} {callable : Nat → Prop} {s : ScopeStack} {a depth : Nat}
  {code : List Instr}

/-! ## Expressions -/

mutual

/-- The marks of an expression say how long its code is. -/
theorem Expr.sizeOf_marks {e : Expr} {code : List Instr} (h : e.compile k s = .ok code)
    (depth : Nat) : Mark.sizeOf (e.marks depth) = Instr.sizeOf code := by
  cases e with
  | num value _ =>
    obtain rfl := Except.ok.inj h
    rfl
  | var name position | prop name position =>
    simp only [Expr.compile, bind_eq_ok, pure_eq_ok] at h
    obtain ⟨place, -, rfl⟩ := h
    cases place <;> rfl
  | binary op l r _ =>
    simp only [Expr.compile, bind_eq_ok, pure_eq_ok] at h
    obtain ⟨cl, hl, cr, hr, rfl⟩ := h
    simp only [Expr.marks, Mark.sizeOf_append, Expr.sizeOf_marks hl, Expr.sizeOf_marks hr,
      sizeOf_append]
    rfl
  | unary op e _ =>
    simp only [Expr.compile, bind_eq_ok, pure_eq_ok] at h
    obtain ⟨ce, he, rfl⟩ := h
    simp only [Expr.marks, Mark.sizeOf_append, Expr.sizeOf_marks he, sizeOf_append]
    cases op <;> rfl
  | assign op target value _ =>
    cases op with
    | plain =>
      simp only [Expr.compile, bind_eq_ok, pure_eq_ok] at h
      obtain ⟨place, -, cv, hv, rfl⟩ := h
      simp only [Expr.marks, Mark.sizeOf_append, Expr.sizeOf_marks hv, sizeOf_append]
      cases place <;> rfl
    | combined op =>
      simp only [Expr.compile, bind_eq_ok, pure_eq_ok] at h
      obtain ⟨place, -, cv, hv, rfl⟩ := h
      simp only [Expr.marks, Mark.sizeOf_append, Expr.sizeOf_marks hv, sizeOf_append]
      cases place <;> rfl
  | step op target _ =>
    simp only [Expr.compile, bind_eq_ok, pure_eq_ok] at h
    obtain ⟨place, -, rfl⟩ := h
    cases place <;> rfl
  | choose condition yes no _ =>
    simp only [Expr.compile, bind_eq_ok, pure_eq_ok] at h
    obtain ⟨cc, hc, cy, hy, cn, hn, rfl⟩ := h
    simp only [Expr.marks, Mark.sizeOf_append, Expr.sizeOf_marks hc, Expr.sizeOf_marks hy,
      Expr.sizeOf_marks hn, sizeOf_append]
    rfl
  | call f args position =>
    simp only [Expr.compile, bind_eq_ok, pure_eq_ok] at h
    obtain ⟨i, hi, ca, ha, rfl⟩ := h
    simp only [Expr.marks, Mark.sizeOf_append, Expr.sizeOf_marksAll ha, sizeOf_append]
    rcases callee_inv hi with ⟨_, _, -, -, rfl⟩ | ⟨_, -, -, rfl⟩ <;> rfl

theorem Expr.sizeOf_marksAll {args : List Expr} {code : List Instr}
    (h : Expr.compileAll k s args = .ok code) (depth : Nat) :
    Mark.sizeOf (Expr.marksAll depth args) = Instr.sizeOf code := by
  cases args with
  | nil =>
    obtain rfl := Except.ok.inj h
    rfl
  | cons e rest =>
    simp only [Expr.compileAll, bind_eq_ok, pure_eq_ok] at h
    obtain ⟨ce, he, cr, hr, rfl⟩ := h
    simp only [Expr.marksAll, Mark.sizeOf_append, Expr.sizeOf_marks he, Expr.sizeOf_marksAll hr,
      sizeOf_append]

end

theorem Place.get_balanced (place : Place) (h : plan.depth a = depth)
    (hnext : plan.depth (a + place.get.size) = depth + 1) :
    place.get.Balanced c plan callable a := by
  cases place <;> exact IsStraight.balanced trivial h hnext

theorem Place.set_balanced (place : Place) (h : plan.depth a = depth + 1)
    (hnext : plan.depth (a + place.set.size) = depth + 1) :
    place.set.Balanced c plan callable a := by
  cases place <;> exact IsStraight.balanced trivial h hnext

/-- The names that a phrase calls stand for functions that may be called, or for delegates. -/
def Catalog.Allows (k : Catalog) (callable : Nat → Prop) (names : List String) : Prop :=
  ∀ name ∈ names, ∀ i, k.functions.indexOf? name = some i → callable i

theorem Catalog.allows_append {names rest : List String} : k.Allows callable (names ++ rest) ↔
    k.Allows callable names ∧ k.Allows callable rest := List.forall_mem_append

theorem callee_balanced (hgrows : k.Grows c) {f : Ident} {found : Nat} {position : Position}
    {i : Instr} (h : callee k f found position = .ok i) (ha : plan.depth a = depth + found)
    (hfound : plan.arguments a = found) (hnext : plan.depth (a + 2) = depth + 1)
    (hcalls : k.Allows callable [f.name]) : i.Balanced c plan callable a := by
  rcases callee_inv h with ⟨index, r, hl, hcount, rfl⟩ | ⟨index, -, -, rfl⟩
  · obtain ⟨r', hl', hcount'⟩ := (hgrows.routines .function).lookup hl
    have hat : c.function? index = some r' := (Table.lookup?_eq_some.1 hl').2
    refine ⟨depth, ?_, fun b hb => hb ▸ hnext, ?_⟩
    · rw [ha, takesOf, takes, hat, Option.map_some, Option.getD_some, hcount', hcount]
      simp
    · rintro _ ⟨⟩
      exact hcalls _ List.mem_cons_self _ (Table.lookup?_eq_some.1 hl).1
  · exact ⟨depth, by rw [ha, takesOf, hfound], fun b hb => hb ▸ hnext, by simp⟩

mutual

/-- **The code of an expression adds one operand.** -/
theorem Expr.compile_balanced (hgrows : k.Grows c) {e : Expr} {a depth : Nat} {code : List Instr}
    (h : e.compile k s = .ok code) (hplan : plan.Follows a (e.marks depth))
    (hend : plan.depth (a + Instr.sizeOf code) = depth + 1) (hcalls : k.Allows callable e.calls) :
    AllBalanced c plan callable a code := by
  cases e with
  | num value _ =>
    obtain rfl := Except.ok.inj h
    exact allBalanced_cons.2
      ⟨IsStraight.balanced trivial (Expr.depth_start hplan) hend, allBalanced_nil⟩
  | var name position | prop name position =>
    simp only [Expr.compile, bind_eq_ok, pure_eq_ok] at h
    obtain ⟨place, -, rfl⟩ := h
    exact allBalanced_cons.2 ⟨place.get_balanced (Expr.depth_start hplan) hend, allBalanced_nil⟩
  | binary op l r _ =>
    simp only [Expr.compile, bind_eq_ok, pure_eq_ok] at h
    obtain ⟨cl, hl, cr, hr, rfl⟩ := h
    simp only [Expr.marks, Plan.follows_append, Plan.follows_cons, Mark.sizeOf_append,
      Expr.sizeOf_marks hl, Expr.sizeOf_marks hr, ← Nat.add_assoc] at hplan
    obtain ⟨⟨hpl, hpr⟩, hop, -⟩ := hplan
    obtain ⟨hcl, hcr⟩ := Catalog.allows_append.1 hcalls
    simp only [allBalanced_append, allBalanced_cons, allBalanced_nil, and_true, sizeOf_append,
      sizeOf_cons, sizeOf_nil, Nat.add_zero, ← Nat.add_assoc] at hend ⊢
    exact ⟨⟨Expr.compile_balanced hgrows hl hpl (Expr.depth_start hpr) hcl,
      Expr.compile_balanced hgrows hr hpr hop.1 hcr⟩, IsStraight.balanced trivial hop.1 hend⟩
  | unary op e _ =>
    simp only [Expr.compile, bind_eq_ok, pure_eq_ok] at h
    obtain ⟨ce, he, rfl⟩ := h
    simp only [Expr.marks, Plan.follows_append, Plan.follows_cons, Expr.sizeOf_marks he] at hplan
    obtain ⟨hpe, hop, -⟩ := hplan
    simp only [allBalanced_append, allBalanced_cons, allBalanced_nil, and_true, sizeOf_append,
      sizeOf_cons, sizeOf_nil, Nat.add_zero, ← Nat.add_assoc] at hend ⊢
    refine ⟨Expr.compile_balanced hgrows he hpe hop.1 hcalls, ?_⟩
    cases op <;> exact IsStraight.balanced trivial hop.1 hend
  | assign op target value _ =>
    obtain ⟨-, hcv⟩ := Catalog.allows_append.1 hcalls
    cases op with
    | plain =>
      simp only [Expr.compile, bind_eq_ok, pure_eq_ok] at h
      obtain ⟨place, -, cv, hv, rfl⟩ := h
      simp only [Expr.marks, Plan.follows_append, Plan.follows_cons, Expr.sizeOf_marks hv] at hplan
      obtain ⟨hpv, hset, -⟩ := hplan
      simp only [allBalanced_append, allBalanced_cons, allBalanced_nil, and_true, sizeOf_append,
        sizeOf_cons, sizeOf_nil, Nat.add_zero, ← Nat.add_assoc] at hend ⊢
      exact ⟨Expr.compile_balanced hgrows hv hpv hset.1 hcv, place.set_balanced hset.1 hend⟩
    | combined op =>
      simp only [Expr.compile, bind_eq_ok, pure_eq_ok] at h
      obtain ⟨place, -, cv, hv, rfl⟩ := h
      have hsize : place.get.size = 2 := by cases place <;> rfl
      simp only [Expr.marks, Plan.follows_append, Plan.follows_cons, Expr.sizeOf_marks hv,
        Mark.sizeOf_append, Mark.sizeOf_cons, Mark.sizeOf_nil, Mark.size, Nat.add_zero,
        ← Nat.add_assoc] at hplan
      obtain ⟨⟨⟨hget, -⟩, hpv⟩, hop, hset, -⟩ := hplan
      simp only [allBalanced_append, allBalanced_cons, allBalanced_nil, and_true, sizeOf_append,
        sizeOf_cons, sizeOf_nil, Nat.add_zero, ← Nat.add_assoc, hsize] at hend ⊢
      exact ⟨⟨place.get_balanced hget.1 (hsize ▸ Expr.depth_start hpv),
        Expr.compile_balanced hgrows hv hpv hop.1 hcv⟩,
        IsStraight.balanced trivial hop.1 hset.1, place.set_balanced hset.1 hend⟩
  | step op target _ =>
    simp only [Expr.compile, bind_eq_ok, pure_eq_ok] at h
    obtain ⟨place, -, rfl⟩ := h
    have hsize : place.get.size = 2 := by cases place <;> rfl
    simp only [Expr.marks, Plan.follows_cons, Mark.size] at hplan
    obtain ⟨hget, hpush, hop, hset, -⟩ := hplan
    simp only [allBalanced_cons, allBalanced_nil, and_true, sizeOf_cons, sizeOf_nil, Nat.add_zero,
      ← Nat.add_assoc, hsize] at hend ⊢
    exact ⟨place.get_balanced hget.1 (hsize ▸ hpush.1), IsStraight.balanced trivial hpush.1 hop.1,
      IsStraight.balanced trivial hop.1 hset.1, place.set_balanced hset.1 hend⟩
  | choose condition yes no _ =>
    simp only [Expr.compile, bind_eq_ok, pure_eq_ok] at h
    obtain ⟨cc, hc, cy, hy, cn, hn, rfl⟩ := h
    simp only [Expr.marks, Plan.follows_append, Plan.follows_cons, Mark.sizeOf_append,
      Mark.sizeOf_cons, Mark.sizeOf_nil, Mark.size, Expr.sizeOf_marks hc, Expr.sizeOf_marks hy,
      Nat.add_zero, ← Nat.add_assoc] at hplan
    obtain ⟨⟨⟨⟨hpc, hbranch, -⟩, hpy⟩, hjump, -⟩, hpn⟩ := hplan
    obtain ⟨hcc, hcalls⟩ := Catalog.allows_append.1 hcalls
    obtain ⟨hcy, hcn⟩ := Catalog.allows_append.1 hcalls
    simp only [allBalanced_append, allBalanced_cons, allBalanced_nil, and_true, sizeOf_append,
      sizeOf_cons, sizeOf_nil, size_jumpBy, size_branchIfZeroBy, Nat.add_zero,
      ← Nat.add_assoc] at hend ⊢
    refine ⟨⟨⟨⟨Expr.compile_balanced hgrows hc hpc hbranch.1 hcc, ?_⟩,
      Expr.compile_balanced hgrows hy hpy hjump.1 hcy⟩, ?_⟩,
      Expr.compile_balanced hgrows hn hpn hend hcn⟩
    · refine balanced_branchBy hbranch.1 (Expr.depth_start hpy) (Expr.depth_start hpn) ?_
      push_cast
      omega
    · refine balanced_jumpBy hjump.1 hend ?_
      push_cast
      omega
  | call f args position =>
    simp only [Expr.compile, bind_eq_ok, pure_eq_ok] at h
    obtain ⟨i, hi, ca, ha, rfl⟩ := h
    have hsize : i.size = 2 := by
      rcases callee_inv hi with ⟨_, _, -, -, rfl⟩ | ⟨_, -, -, rfl⟩ <;> rfl
    simp only [Expr.marks, Plan.follows_append, Plan.follows_cons, Expr.sizeOf_marksAll ha] at hplan
    obtain ⟨hpa, hcall, -⟩ := hplan
    obtain ⟨hcf, hca⟩ : k.Allows callable [f.name] ∧ k.Allows callable (Expr.callsAll args) :=
      Catalog.allows_append.1 hcalls
    simp only [allBalanced_append, allBalanced_cons, allBalanced_nil, and_true, sizeOf_append,
      sizeOf_cons, sizeOf_nil, Nat.add_zero, ← Nat.add_assoc, hsize] at hend ⊢
    exact ⟨Expr.compileAll_balanced hgrows ha hpa hcall.1 hca,
      callee_balanced hgrows hi hcall.1 hcall.2 hend hcf⟩

theorem Expr.compileAll_balanced (hgrows : k.Grows c) {args : List Expr} {a depth : Nat}
    {code : List Instr} (h : Expr.compileAll k s args = .ok code)
    (hplan : plan.Follows a (Expr.marksAll depth args))
    (hend : plan.depth (a + Instr.sizeOf code) = depth + args.length)
    (hcalls : k.Allows callable (Expr.callsAll args)) : AllBalanced c plan callable a code := by
  cases args with
  | nil =>
    obtain rfl := Except.ok.inj h
    exact allBalanced_nil
  | cons e rest =>
    simp only [Expr.compileAll, bind_eq_ok, pure_eq_ok] at h
    obtain ⟨ce, he, cr, hr, rfl⟩ := h
    simp only [Expr.marksAll, Plan.follows_append, Expr.sizeOf_marks he] at hplan
    obtain ⟨hce, hcr⟩ := Catalog.allows_append.1 hcalls
    have hend' : plan.depth (a + Instr.sizeOf ce + Instr.sizeOf cr) = depth + 1 + rest.length := by
      rw [Nat.add_assoc, ← sizeOf_append, hend, List.length_cons]
      omega
    have hstart := Expr.depth_startAll hplan.2 (by rw [Expr.sizeOf_marksAll hr]; exact hend')
    exact allBalanced_append.2 ⟨Expr.compile_balanced hgrows he hplan.1 hstart hce,
      Expr.compileAll_balanced hgrows hr hplan.2 hend' hcr⟩

end

theorem Expr.sizeOf_marksOrZero {e? : Option Expr} (h : Expr.compileOrZero k s e? = .ok code) :
    Mark.sizeOf (Expr.marksOrZero e?) = Instr.sizeOf code := by
  cases e? with
  | some e => exact Expr.sizeOf_marks h 0
  | none =>
    obtain rfl := Except.ok.inj h
    rfl

theorem Expr.compileOrZero_balanced (hgrows : k.Grows c) {e? : Option Expr}
    (h : Expr.compileOrZero k s e? = .ok code) (hplan : plan.Follows a (Expr.marksOrZero e?))
    (hend : plan.depth (a + Instr.sizeOf code) = 1) (hcalls : k.Allows callable (Expr.callsOf e?)) :
    AllBalanced c plan callable a code := by
  cases e? with
  | some e => exact Expr.compile_balanced hgrows h hplan hend hcalls
  | none =>
    obtain rfl := Except.ok.inj h
    exact allBalanced_cons.2
      ⟨IsStraight.balanced trivial (Plan.follows_cons.1 hplan).1.1 hend, allBalanced_nil⟩

/-- An expression whose value is dropped, or waited for. -/
theorem Expr.compile_append_balanced (hgrows : k.Grows c) {e : Expr} {i : Instr}
    (h : e.compile k s = .ok code) (hi : i = .pop ∨ i = .wait)
    (hplan : plan.Follows a (e.marks 0 ++ [⟨0, 1, 0⟩]))
    (hend : plan.depth (a + Mark.sizeOf (e.marks 0 ++ [⟨0, 1, 0⟩])) = 0)
    (hcalls : k.Allows callable e.calls) : AllBalanced c plan callable a (code ++ [i]) := by
  simp only [Plan.follows_append, Plan.follows_cons, Mark.sizeOf_append, Mark.sizeOf_cons,
    Mark.sizeOf_nil, Mark.size, Expr.sizeOf_marks h, Nat.add_zero, ← Nat.add_assoc] at hplan hend
  simp only [allBalanced_append, allBalanced_cons, allBalanced_nil, and_true]
  refine ⟨Expr.compile_balanced hgrows h hplan.1 hplan.2.1.1 hcalls, ?_⟩
  rcases hi with rfl | rfl <;> exact IsStraight.balanced trivial hplan.2.1.1 hend

theorem Expr.sizeOf_marks_append {e : Expr} {i : Instr} (h : e.compile k s = .ok code)
    (hi : i = .pop ∨ i = .wait) :
    Instr.sizeOf (code ++ [i]) = Mark.sizeOf (e.marks 0 ++ [⟨0, 1, 0⟩]) := by
  simp only [Mark.sizeOf_append, Expr.sizeOf_marks h, sizeOf_append]
  rcases hi with rfl | rfl <;> rfl

/-! ## Statements -/

/-- What is emitted has the marks, and is balanced by them, if nothing is wrong: it leads from no
operands to none, and so do its jumps to the loop around it, if there is one. -/
structure EmitsBalanced (c : Catalog) (plan : Plan) (callable : Nat → Prop) (inLoop : Bool)
    (emit : Nat → ScopeStack → Emitted) (marks : List Mark) : Prop where
  size : ∀ a s, (emit a s).error? = none → (emit a s).code.size = Mark.sizeOf marks
  balanced : ∀ a s exit next, (emit a s).error? = none →
    (inLoop = true → plan.depth exit = 0 ∧ plan.depth next = 0) → plan.Follows a marks →
    plan.depth (a + Mark.sizeOf marks) = 0 →
    AllBalanced c plan callable a ((emit a s).code.instrs exit next)

variable {inLoop : Bool} {marks marksYes marksNo : List Mark} {condition : Expr}
  {condition? update? : Option Expr} {emit yes no body : Nat → ScopeStack → Emitted}

theorem EmitsBalanced.of_complete
    (h : ∀ a s, (emit a s).error? = none → ∃ code s', emit a s = .complete code s' ∧
      Instr.sizeOf code = Mark.sizeOf marks ∧
      (plan.Follows a marks → plan.depth (a + Mark.sizeOf marks) = 0 →
        AllBalanced c plan callable a code)) :
    EmitsBalanced c plan callable inLoop emit marks where
  size a s he := by
    obtain ⟨code, s', hemit, hsize, -⟩ := h a s he
    rw [hemit, Emitted.complete, Fragment.size_ofInstrs, hsize]
  balanced a s exit next he _ hplan hend := by
    obtain ⟨code, s', hemit, -, hbalanced⟩ := h a s he
    rw [hemit, Emitted.complete, Fragment.instrs_ofInstrs]
    exact hbalanced hplan hend

theorem Expr.emit_balanced (hgrows : k.Grows c) {e : Expr} {i : Instr} (hi : i = .pop ∨ i = .wait)
    (hcalls : k.Allows callable e.calls) :
    EmitsBalanced c plan callable inLoop (fun _ s => .ofExcept (e.compile k s) [i] s)
      (e.marks 0 ++ [⟨0, 1, 0⟩]) :=
  .of_complete fun _ _ h => by
    obtain ⟨code, hc, he⟩ := Emitted.ofExcept_inv h
    exact ⟨_, _, he, Expr.sizeOf_marks_append hc hi, fun hplan hend =>
      Expr.compile_append_balanced hgrows hc hi hplan hend hcalls⟩

theorem VarDecl.emit_balanced (hgrows : k.Grows c) (d : VarDecl)
    (hcalls : k.Allows callable (Expr.callsOf d.value?)) :
    EmitsBalanced c plan callable inLoop (fun _ s => d.emit k s) d.marks :=
  .of_complete fun a s h => by
    obtain ⟨s', slot, code, -, hc, he⟩ := VarDecl.emit_inv h
    refine ⟨_, _, he, ?_, fun hplan hend => ?_⟩
    · rw [VarDecl.marks, sizeOf_append, Mark.sizeOf_append, Expr.sizeOf_marksOrZero hc]
      rfl
    · simp only [VarDecl.marks, Plan.follows_append, Plan.follows_cons, Mark.sizeOf_append,
        Mark.sizeOf_cons, Mark.sizeOf_nil, Mark.size, Expr.sizeOf_marksOrZero hc, Nat.add_zero,
        ← Nat.add_assoc] at hplan hend
      obtain ⟨hvalue, hset, hpop, -⟩ := hplan
      simp only [allBalanced_append, allBalanced_cons, allBalanced_nil, and_true]
      exact ⟨Expr.compileOrZero_balanced hgrows hc hvalue hset.1 hcalls,
        IsStraight.balanced_all trivial hset.1 hpop.1, IsStraight.balanced_all trivial hpop.1 hend⟩

theorem ForInit.emit_balanced (hgrows : k.Grows c) (init? : Option ForInit)
    (hcalls : k.Allows callable (ForInit.calls init?)) :
    EmitsBalanced c plan callable inLoop (fun _ s => ForInit.emit k init? s)
      (ForInit.marks init?) := by
  cases init? with
  | none => exact .of_complete fun _ s _ => ⟨_, s, rfl, rfl, fun _ _ => allBalanced_nil⟩
  | some init =>
    cases init with
    | declare decl => exact decl.emit_balanced hgrows hcalls
    | evaluate e => exact e.emit_balanced hgrows (.inl rfl) hcalls

theorem FireStmt.emit_balanced (hmade : k.Made) (hgrows : k.Grows c) (f : FireStmt)
    (hcalls : k.Allows callable f.calls) :
    EmitsBalanced c plan callable inLoop (fun _ s => f.emit k s) f.marks :=
  .of_complete fun a s h => by
    obtain ⟨hca, hcu⟩ := Catalog.allows_append.1 hcalls
    obtain ⟨firing, args, hf, ha, ⟨hu, he⟩ | ⟨clause, updater, rest, hu, hr, hrest, he⟩⟩ :=
      FireStmt.emit_inv h
    all_goals
      obtain ⟨function, hfind, harity, rfl⟩ := FireStmt.resolve_inv hf
      have hat : c.firing.at? function.index = some function :=
        hgrows.firing ▸ hmade.firing_at? hfind
    · refine ⟨_, _, he, ?_, fun hplan hend => ?_⟩
      · rw [FireStmt.marks, hu, sizeOf_append, Mark.sizeOf_append, Expr.sizeOf_marksAll ha]
        rfl
      · simp only [FireStmt.marks, hu, Plan.follows_append, Plan.follows_cons, Mark.sizeOf_append,
          Mark.sizeOf_cons, Mark.sizeOf_nil, Mark.size, Expr.sizeOf_marksAll ha, Nat.add_zero,
          ← Nat.add_assoc] at hplan hend
        obtain ⟨hargs, hfire, -⟩ := hplan
        simp only [allBalanced_append, allBalanced_cons, allBalanced_nil, and_true]
        refine ⟨Expr.compileAll_balanced hgrows ha hargs (by rw [hfire.1, Nat.zero_add]) hca,
          IsStraight.balanced_all trivial ?_ hend⟩
        rw [hfire.1, takes, hat, Option.map_some, Option.getD_some, harity]
    · obtain ⟨r, hl, hcount⟩ := UpdaterClause.resolve_inv hr
      obtain ⟨r', hl', hcount'⟩ := (hgrows.routines .bulletUpdater).lookup hl
      have hat' : c.bulletUpdater? updater = some r' := (Table.lookup?_eq_some.1 hl').2
      simp only [hu] at hcu
      refine ⟨_, _, he, ?_, fun hplan hend => ?_⟩
      · simp only [FireStmt.marks, hu, sizeOf_append, Mark.sizeOf_append, Expr.sizeOf_marksAll ha,
          Expr.sizeOf_marksAll hrest]
        rfl
      · simp only [FireStmt.marks, hu, Plan.follows_append, Plan.follows_cons, Mark.sizeOf_append,
          Mark.sizeOf_cons, Mark.sizeOf_nil, Mark.size, Expr.sizeOf_marksAll ha,
          Expr.sizeOf_marksAll hrest, Nat.add_zero, ← Nat.add_assoc] at hplan hend
        obtain ⟨hargs, hupdater, hfire, -⟩ := hplan
        simp only [allBalanced_append, allBalanced_cons, allBalanced_nil, and_true]
        refine ⟨Expr.compileAll_balanced hgrows ha hargs ?_ hca,
          Expr.compileAll_balanced hgrows hrest hupdater hfire.1 hcu,
          IsStraight.balanced_all trivial ?_ hend⟩
        · rw [Nat.zero_add]
          refine Expr.depth_startAll hupdater ?_
          rw [Expr.sizeOf_marksAll hrest]
          exact hfire.1
        · rw [hfire.1, takes, hat, hat', Option.map_some, Option.getD_some, Option.map_some,
            Option.getD_some, harity, hcount', hcount]

theorem emitIf_balanced (hgrows : k.Grows c) (hyes : EmitsBalanced c plan callable inLoop yes marks)
    (hstarts : Mark.Starts 0 marks) (hcalls : k.Allows callable condition.calls) :
    EmitsBalanced c plan callable inLoop (emitIf k condition yes)
      (condition.marks 0 ++ [⟨1, 1, 0⟩] ++ marks) where
  size a s h := by
    obtain ⟨test, y, hc, rfl, hy, he⟩ := emitIf_inv h
    simp only [he, Emitted.after, Fragment.size_append, Fragment.size_ofInstrs, hyes.size _ _ hy,
      Mark.sizeOf_append, Expr.sizeOf_marks hc, sizeOf_append]
    rfl
  balanced a s exit next h hloop hplan hend := by
    obtain ⟨test, y, hc, rfl, hy, he⟩ := emitIf_inv h
    simp only [Plan.follows_append, Plan.follows_cons, Mark.sizeOf_append, Mark.sizeOf_cons,
      Mark.sizeOf_nil, Mark.size, Expr.sizeOf_marks hc, Nat.add_zero, ← Nat.add_assoc] at hplan hend
    obtain ⟨⟨htest, hbranch, -⟩, hbody⟩ := hplan
    simp only [he, Emitted.after, Fragment.instrs_append, Fragment.instrs_ofInstrs,
      hyes.size _ _ hy, allBalanced_append, allBalanced_cons, allBalanced_nil, and_true,
      sizeOf_append, sizeOf_cons, sizeOf_nil, size_branchIfZero, Nat.add_zero, ← Nat.add_assoc]
    exact ⟨⟨Expr.compile_balanced hgrows hc htest hbranch.1 hcalls,
      balanced_branch hbranch.1 (hbody.start hstarts hend) hend⟩,
      hyes.balanced _ _ _ _ hy hloop hbody hend⟩

theorem emitIfElse_balanced (hgrows : k.Grows c)
    (hyes : EmitsBalanced c plan callable inLoop yes marksYes)
    (hno : EmitsBalanced c plan callable inLoop no marksNo) (hstartsYes : Mark.Starts 0 marksYes)
    (hstartsNo : Mark.Starts 0 marksNo) (hcalls : k.Allows callable condition.calls) :
    EmitsBalanced c plan callable inLoop (emitIfElse k condition yes no)
      (condition.marks 0 ++ [⟨1, 1, 0⟩] ++ marksYes ++ [⟨1, 0, 0⟩] ++ marksNo) where
  size a s h := by
    obtain ⟨test, y, n, other, hc, rfl, hy, rfl, rfl, hn, he⟩ := emitIfElse_inv h
    have hsize := hyes.size _ _ hy
    rw [hsize] at hn
    simp only [he, Emitted.after, Fragment.size_append, Fragment.size_ofInstrs, hsize,
      hno.size _ _ hn, Mark.sizeOf_append, Expr.sizeOf_marks hc, sizeOf_append]
    rfl
  balanced a s exit next h hloop hplan hend := by
    obtain ⟨test, y, n, other, hc, rfl, hy, rfl, rfl, hn, he⟩ := emitIfElse_inv h
    simp only [Plan.follows_append, Plan.follows_cons, Mark.sizeOf_append, Mark.sizeOf_cons,
      Mark.sizeOf_nil, Mark.size, Expr.sizeOf_marks hc, Nat.add_zero, ← Nat.add_assoc] at hplan hend
    obtain ⟨⟨⟨⟨htest, hbranch, -⟩, hthen⟩, hjump, -⟩, helse⟩ := hplan
    have hsize := hyes.size _ _ hy
    rw [hsize] at hn
    simp only [he, Emitted.after, Fragment.instrs_append, Fragment.instrs_ofInstrs, hno.size _ _ hn,
      hsize, allBalanced_append, allBalanced_cons, allBalanced_nil, and_true, sizeOf_append,
      sizeOf_cons, sizeOf_nil, size_branchIfZero, size_jump, Fragment.sizeOf_instrs, Nat.add_zero,
      ← Nat.add_assoc]
    exact ⟨⟨⟨⟨Expr.compile_balanced hgrows hc htest hbranch.1 hcalls,
      balanced_branch hbranch.1 (hthen.start hstartsYes hjump.1) (helse.start hstartsNo hend)⟩,
      hyes.balanced _ _ _ _ hy hloop hthen hjump.1⟩, balanced_jump hjump.1 hend⟩,
      hno.balanced _ _ _ _ hn hloop helse hend⟩

theorem sizeOf_ofTest {test : Nat → List Instr} (h : loopTest k s condition? = .ok test)
    (exit : Nat) : Instr.sizeOf (test exit) = Mark.sizeOf (Mark.ofTest condition?) := by
  cases condition? with
  | none =>
    obtain rfl := Except.ok.inj h
    rfl
  | some e =>
    obtain ⟨code, hc, rfl⟩ := map_eq_ok.1 h
    rw [Mark.ofTest, Mark.sizeOf_append, Expr.sizeOf_marks hc, sizeOf_append]
    rfl

theorem loopTest_balanced (hgrows : k.Grows c) {test : Nat → List Instr} {exit : Nat}
    (h : loopTest k s condition? = .ok test) (hplan : plan.Follows a (Mark.ofTest condition?))
    (hend : plan.depth (a + Mark.sizeOf (Mark.ofTest condition?)) = 0)
    (hexit : plan.depth exit = 0) (hcalls : k.Allows callable (Expr.callsOf condition?)) :
    AllBalanced c plan callable a (test exit) := by
  cases condition? with
  | none =>
    obtain rfl := Except.ok.inj h
    exact allBalanced_nil
  | some e =>
    obtain ⟨code, hc, rfl⟩ := map_eq_ok.1 h
    simp only [Mark.ofTest, Plan.follows_append, Plan.follows_cons, Mark.sizeOf_append,
      Mark.sizeOf_cons, Mark.sizeOf_nil, Mark.size, Expr.sizeOf_marks hc, Nat.add_zero,
      ← Nat.add_assoc] at hplan hend
    simp only [allBalanced_append, allBalanced_cons, allBalanced_nil, and_true]
    exact ⟨Expr.compile_balanced hgrows hc hplan.1 hplan.2.1.1 hcalls,
      balanced_branch hplan.2.1.1 hend hexit⟩

theorem sizeOf_ofUpdate (h : loopUpdate k s update? = .ok code) :
    Instr.sizeOf code = Mark.sizeOf (Mark.ofUpdate update?) := by
  cases update? with
  | none =>
    obtain rfl := Except.ok.inj h
    rfl
  | some e =>
    obtain ⟨code, hc, rfl⟩ := map_eq_ok.1 h
    exact Expr.sizeOf_marks_append hc (.inl rfl)

theorem loopUpdate_balanced (hgrows : k.Grows c) (h : loopUpdate k s update? = .ok code)
    (hplan : plan.Follows a (Mark.ofUpdate update?))
    (hend : plan.depth (a + Mark.sizeOf (Mark.ofUpdate update?)) = 0)
    (hcalls : k.Allows callable (Expr.callsOf update?)) : AllBalanced c plan callable a code := by
  cases update? with
  | none =>
    obtain rfl := Except.ok.inj h
    exact allBalanced_nil
  | some e =>
    obtain ⟨code, hc, rfl⟩ := map_eq_ok.1 h
    exact Expr.compile_append_balanced hgrows hc (.inl rfl) hplan hend hcalls

/-- **A loop is balanced however often it is repeated**, as its jump back comes without operands. -/
theorem emitLoop_balanced (hgrows : k.Grows c)
    (hbody : EmitsBalanced c plan callable true body marks) (hstarts : Mark.Starts 0 marks)
    (hcondition : k.Allows callable (Expr.callsOf condition?))
    (hupdate : k.Allows callable (Expr.callsOf update?)) :
    EmitsBalanced c plan callable inLoop (emitLoop k condition? update? body)
      (Mark.ofLoop condition? update? marks) where
  size a s h := by
    obtain ⟨test, update, start, b, exit', htest, hupdate, hstart, rfl, hb, hexit, he⟩ :=
      emitLoop_inv h
    simp only [he, Fragment.size_append, Fragment.size_ofInstrs, Fragment.size_close,
      hbody.size _ _ hb, sizeOf_append, sizeOf_ofTest htest, sizeOf_ofUpdate hupdate, Mark.ofLoop,
      Mark.sizeOf_append]
    rfl
  balanced a s exit next h _ hplan hend := by
    obtain ⟨test, update, start, b, exit', htest, hup, hstart, rfl, hb, hexit, he⟩ := emitLoop_inv h
    have hback := hplan.start (Mark.ofLoop_starts hstarts) hend
    rw [sizeOf_ofTest htest, sizeOf_ofUpdate hup] at hstart
    rw [hbody.size _ _ hb] at hexit
    simp only [Mark.ofLoop, Plan.follows_append, Plan.follows_cons, Mark.sizeOf_append,
      Mark.sizeOf_cons, Mark.sizeOf_nil, Mark.size, Nat.add_zero, ← Nat.add_assoc, ← hstart]
      at hplan hend
    obtain ⟨⟨⟨hptest, hpupdate⟩, hpbody⟩, hpjump, -⟩ := hplan
    have hbodyStart := hpbody.start hstarts hpjump.1
    have hout : plan.depth exit' = 0 := hexit ▸ hend
    simp only [he, Fragment.instrs_append, Fragment.instrs_ofInstrs, Fragment.instrs_close,
      allBalanced_append, allBalanced_cons, allBalanced_nil, and_true, sizeOf_append,
      sizeOf_ofTest htest, sizeOf_ofUpdate hup, Fragment.sizeOf_instrs, hbody.size _ _ hb,
      ← Nat.add_assoc, ← hstart]
    refine ⟨⟨⟨loopTest_balanced hgrows htest hptest ?_ hout hcondition,
      loopUpdate_balanced hgrows hup hpupdate (hstart ▸ hbodyStart) hupdate⟩,
      hbody.balanced _ _ _ _ hb (fun _ => ⟨hout, hback⟩) hpbody hpjump.1⟩,
      balanced_jump hpjump.1 hback⟩
    refine hpupdate.start (Mark.ofUpdate_starts update?) ?_
    rw [← hstart]
    exact hbodyStart

theorem Emitted.andThen_balanced {first rest : Nat → ScopeStack → Emitted}
    {marks marks' : List Mark} (hfirst : EmitsBalanced c plan callable inLoop first marks)
    (hrest : EmitsBalanced c plan callable inLoop rest marks') (hstarts : Mark.Starts 0 marks') :
    EmitsBalanced c plan callable inLoop (fun a s => (first a s).andThen a rest)
      (marks ++ marks') where
  size a s h := by
    obtain ⟨h₁, h₂, he⟩ := Emitted.andThen_inv h
    simp only [he, Emitted.after, Fragment.size_append, hfirst.size _ _ h₁, Mark.sizeOf_append]
    rw [← hrest.size _ _ h₂, hfirst.size _ _ h₁]
  balanced a s exit next h hloop hplan hend := by
    obtain ⟨h₁, h₂, he⟩ := Emitted.andThen_inv h
    simp only [Plan.follows_append, Mark.sizeOf_append, ← Nat.add_assoc] at hplan hend
    simp only [he, Emitted.after, Fragment.instrs_append, allBalanced_append,
      Fragment.sizeOf_instrs]
    rw [hfirst.size _ _ h₁] at h₂ ⊢
    exact ⟨hfirst.balanced _ _ _ _ h₁ hloop hplan.1 (hplan.2.start hstarts hend),
      hrest.balanced _ _ _ _ h₂ hloop hplan.2 hend⟩

/-- An open jump comes to the loop around it without operands. -/
theorem emitOpen_balanced {item : Item} (hitem : item = .leave ∨ item = .again) (e : CompileError) :
    EmitsBalanced c plan callable inLoop
      (fun _ s => if inLoop then ⟨[item], s, none⟩ else .failed e s) [⟨1, 0, 0⟩] where
  size a s h := by
    split at h
    · next hin =>
      rw [if_pos hin]
      rcases hitem with rfl | rfl <;> rfl
    · cases h
  balanced a s exit next h hloop hplan _ := by
    split at h
    · next hin =>
      obtain ⟨hexit, hnext⟩ := hloop hin
      have hstart := (Plan.follows_cons.1 hplan).1.1
      rw [if_pos hin]
      refine allBalanced_cons.2 ⟨?_, allBalanced_nil⟩
      rcases hitem with rfl | rfl
      · exact balanced_jump hstart hexit
      · exact balanced_jump hstart hnext
    · cases h

mutual

/-- **The code of a statement leaves no operands.** -/
theorem Stmt.emit_balanced (hmade : k.Made) (hgrows : k.Grows c) (stmt : Stmt)
    (hcalls : k.Allows callable stmt.calls) (inLoop : Bool) :
    EmitsBalanced c plan callable inLoop (fun a s => stmt.emit k inLoop a s) stmt.marks := by
  cases stmt with
  | expr e _ => exact e.emit_balanced hgrows (.inl rfl) hcalls
  | wait e _ => exact e.emit_balanced hgrows (.inr rfl) hcalls
  | var decl _ => exact decl.emit_balanced hgrows hcalls
  | ref name _ =>
    refine .of_complete fun a s h => ?_
    simp only [Stmt.emit] at h ⊢
    split at h
    · cases h
    · exact ⟨_, _, rfl, rfl, fun _ _ => allBalanced_nil⟩
  | ret value? _ =>
    refine .of_complete fun a s h => ?_
    obtain ⟨code, hc, he⟩ := Emitted.ofExcept_inv h
    refine ⟨_, _, he, ?_, fun hplan _ => ?_⟩
    · rw [Stmt.marks, sizeOf_append, Mark.sizeOf_append, Expr.sizeOf_marksOrZero hc]
      rfl
    · simp only [Stmt.marks, Plan.follows_append, Plan.follows_cons,
        Expr.sizeOf_marksOrZero hc] at hplan
      simp only [allBalanced_append, allBalanced_cons, allBalanced_nil, and_true]
      exact ⟨Expr.compileOrZero_balanced hgrows hc hplan.1 hplan.2.1.1 hcalls,
        balanced_ret (hplan.2.1.1.trans (Nat.zero_add 1).symm)⟩
  | leaveLoop position => exact emitOpen_balanced (.inl rfl) (.breakOutsideLoop position)
  | continueLoop position => exact emitOpen_balanced (.inr rfl) (.continueOutsideLoop position)
  | block body _ => exact Stmt.emitAll_balanced hmade hgrows body hcalls inLoop
  | ifThen condition yes _ =>
    obtain ⟨hc, hy⟩ := Catalog.allows_append.1 hcalls
    exact emitIf_balanced hgrows (yes.emit_balanced hmade hgrows hy inLoop) yes.marks_starts hc
  | ifElse condition yes no _ =>
    obtain ⟨hc, hrest⟩ := Catalog.allows_append.1 hcalls
    obtain ⟨hy, hn⟩ := Catalog.allows_append.1 hrest
    exact emitIfElse_balanced hgrows (yes.emit_balanced hmade hgrows hy inLoop)
      (no.emit_balanced hmade hgrows hn inLoop) yes.marks_starts no.marks_starts hc
  | whileLoop condition body _ =>
    obtain ⟨hc, hb⟩ := Catalog.allows_append.1 hcalls
    exact emitLoop_balanced hgrows (body.emit_balanced hmade hgrows hb true) body.marks_starts hc
      (List.forall_mem_nil _)
  | forLoop init? condition? update? body _ =>
    obtain ⟨hi, hrest⟩ := Catalog.allows_append.1 hcalls
    obtain ⟨hc, hrest⟩ := Catalog.allows_append.1 hrest
    obtain ⟨hu, hb⟩ := Catalog.allows_append.1 hrest
    exact Emitted.andThen_balanced (ForInit.emit_balanced hgrows init? hi)
      (emitLoop_balanced hgrows (body.emit_balanced hmade hgrows hb true) body.marks_starts hc hu)
      (Mark.ofLoop_starts body.marks_starts)
  | fire request => exact request.emit_balanced hmade hgrows hcalls

theorem Stmt.emitAll_balanced (hmade : k.Made) (hgrows : k.Grows c) (statements : List Stmt)
    (hcalls : k.Allows callable (Stmt.callsAll statements)) (inLoop : Bool) :
    EmitsBalanced c plan callable inLoop (fun a s => Stmt.emitAll k inLoop statements a s)
      (Stmt.marksAll statements) := by
  cases statements with
  | nil => exact .of_complete fun _ s _ => ⟨_, s, rfl, rfl, fun _ _ => allBalanced_nil⟩
  | cons stmt rest =>
    obtain ⟨hs, hr⟩ := Catalog.allows_append.1 hcalls
    exact Emitted.andThen_balanced (stmt.emit_balanced hmade hgrows hs inLoop)
      (Stmt.emitAll_balanced hmade hgrows rest hr inLoop) (Stmt.marksAll_starts rest)

end

/-- **Compiled code is balanced** by the marks of its declaration. -/
theorem Decl.compile_balanced (hmade : k.Made) (hgrows : k.Grows c) {d : Decl} {r : Routine}
    {s s' : ScopeStack} (h : d.compile k s = (.ok r, s')) (hcalls : k.Allows callable d.calls) :
    AllBalanced c d.plan callable 0 (d.instrs k s) ∧ d.depthAt r.code.size = 0 := by
  have hsize := Decl.size_code hmade h
  obtain ⟨header, r₀, hheader, herror, -, -, -, rfl⟩ := Decl.compile_inv h
  have hbody : EmitsBalanced c d.plan callable false
      (fun a s => Stmt.emitAll k false d.body a s) d.marks :=
    Stmt.emitAll_balanced hmade hgrows d.body hcalls false
  have hmarks : (Stmt.emitAll k false d.body 0 (header :: s)).code.size = Mark.sizeOf d.marks :=
    hbody.size 0 (header :: s) herror
  rw [hsize]
  simp only [Decl.instrs, hheader, Fragment.sizeOf_instrs, hmarks]
  refine ⟨hbody.balanced 0 _ 0 0 herror (by simp) d.plan_follows ?_, d.depthAt_end⟩
  rw [Nat.zero_add]
  exact d.depthAt_end

end Danmaku
