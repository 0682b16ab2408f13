import Danmaku.Proofs.Compile.Sound
import Danmaku.Proofs.Refinement.Activation
import Danmaku.Proofs.Refinement.Evaluator

/-!
# Expressions refined

The code of an expression does what the expression means, in every activation that can run it: its
value comes on top of the operands that are there, and its effects are those of the evaluation, in
the same order (`Expr.meets`). For such an activation is an evaluator
(`Activation.Hosts.evaluator`).
-/

namespace Danmaku

open Instr

variable {p : Program} {names : List String} {excuse : Fault → Prop} {A : Activation}
  {c : Catalog} {apply : String → List Word → Eval Word} {n : Nat} {allowed : String → Prop}
  {s : ScopeStack} {a : Nat} {ops : List Word} {w : World} {r : Recording} {code : List Instr}

/-- An activation can run what was compiled against a catalog: the machine has all that the catalog
has, and the calls that are allowed do what `apply` says. -/
structure Activation.Hosts (A : Activation) (p : Program) (names : List String)
    (excuse : Fault → Prop) (c : Catalog) (apply : String → List Word → Eval Word) (n : Nat)
    (allowed : String → Prop) : Prop where
  proper : A.Proper p names
  made : c.Made
  grows : c.Grows p.catalog
  handles : ∀ (f : Ident) (position : Position) (args ops : List Word) (i : Instr) (a : Nat)
    (w : World) (r : Recording), allowed f.name → callee c f args.length position = .ok i →
    i.StandsAt A.code.words a → A.Holds a (ops ++ args) w r →
    Meets p names excuse (apply f.name args) w r n fun v w' r' =>
      A.Holds (a + i.size) (ops ++ [v]) w' r'

namespace Activation.Hosts

variable {e : Expr} {place : Place} {v : Word}

/-- What can be assigned to is read. -/
theorem fetch (hA : A.Hosts p names excuse c apply n allowed) (hp : e.place c s = .ok place)
    (hs : s.numbers <+: A.names) (hi : place.get.StandsAt A.code.words a)
    (hroom : A.capacity < ops.length + 1 → excuse (.stackOverflow A.capacity))
    (hr : A.Holds a ops w r) :
    Meets p names excuse (e.fetch p.catalog.types) w r n fun v w' r' =>
      A.Holds (a + place.get.size) (ops ++ [v]) w' r' := by
  rcases Expr.place_inv hp with ⟨name, _, slot, rfl, hslot, rfl⟩ | ⟨name, _, index, rfl, hi', rfl⟩
  · exact .getVariable hA.proper hr
      (getElem?_of_isPrefix hs (ScopeStack.numberSlot_inv hslot)) hi hroom
  · rw [← hA.grows.types] at hi'
    exact .getProperty hA.proper hr hi' hi hroom

/-- What can be assigned to is changed. -/
theorem store (hA : A.Hosts p names excuse c apply n allowed) (hp : e.place c s = .ok place)
    (hs : s.numbers <+: A.names) (hi : place.set.StandsAt A.code.words a)
    (hr : A.Holds a (ops ++ [v]) w r) :
    Meets p names excuse (e.store p.catalog.types v) w r n fun _ w' r' =>
      A.Holds (a + place.set.size) (ops ++ [v]) w' r' := by
  rcases Expr.place_inv hp with ⟨name, _, slot, rfl, hslot, rfl⟩ | ⟨name, _, index, rfl, hi', rfl⟩
  · exact .setVariable hA.proper hr (getElem?_of_isPrefix hs (ScopeStack.numberSlot_inv hslot)) hi
  · rw [← hA.grows.types] at hi'
    exact .setProperty hA.proper hr hi' hi

/-- An activation evaluates expressions. It notes what is done, and gives up only where that is
excused. -/
def evaluator (hA : A.Hosts p names excuse c apply n allowed) (hs : s.numbers <+: A.names) :
    Evaluator Recording A.code.words c s apply allowed where
  Holds := A.Holds
  Does m w r := Meets p names excuse m w r n
  Room m := A.capacity < m → excuse (.stackOverflow A.capacity)
  mono hroom hle h := hroom (Nat.lt_of_lt_of_le h hle)
  value h := .value h
  bind hm hk := hm.bind hk
  push hi hroom hr hk := .after (Meets.push (n := 0) hA.proper hr hi hroom) hk
  negate hi hr := .negate hA.proper hr hi
  not hi hr := .not hA.proper hr hi
  binary hi hroom hr := .binary hA.proper hr hi hroom
  fetch hp hi hroom hr := hA.grows.types ▸ hA.fetch hp hs hi hroom hr
  store hp hi hr := hA.grows.types ▸ hA.store hp hs hi hr
  branchIfZeroBy hi hb hle hr hk := by
    obtain ⟨r', hstep, hr'⟩ := hr.branchIfZeroBy _ hA.proper hi hb hle
    exact Meets.mono (.step hstep (hk r' hr')) (Nat.le_succ n)
  jumpBy hi hb hle hr hk := by
    obtain ⟨r', hstep, hr'⟩ := hr.jumpBy _ hA.proper hi hb hle
    exact Meets.mono (.step hstep (hk r' hr')) (Nat.le_succ n)
  call hf hc hi hr := hA.handles _ _ _ _ _ _ _ _ hf hc hi hr

end Activation.Hosts

/-- **The code of an expression does what the expression means**, and leaves its value on top. -/
theorem Expr.meets (hA : A.Hosts p names excuse c apply n allowed) {e : Expr} {a : Nat}
    {ops : List Word} {w : World} {r : Recording} {code : List Instr}
    (hc : e.compile c s = .ok code) (hs : s.numbers <+: A.names)
    (hcalls : ∀ f ∈ e.calls, allowed f) (hstand : AllStand A.code.words a code)
    (hsize : a + Instr.sizeOf code ≤ A.code.size)
    (hroom : A.capacity < ops.length + e.height → excuse (.stackOverflow A.capacity))
    (hr : A.Holds a ops w r) :
    Meets p names excuse (e.eval p.catalog.types apply) w r n fun v w' r' =>
      A.Holds (a + Instr.sizeOf code) (ops ++ [v]) w' r' := by
  rw [hA.grows.types]
  exact Expr.evaluates (hA.evaluator hs) hc hcalls hstand hsize hroom hr

theorem Expr.meetsAll (hA : A.Hosts p names excuse c apply n allowed) {args : List Expr} {a : Nat}
    {ops : List Word} {w : World} {r : Recording} {code : List Instr}
    (hc : Expr.compileAll c s args = .ok code) (hs : s.numbers <+: A.names)
    (hcalls : ∀ f ∈ Expr.callsAll args, allowed f) (hstand : AllStand A.code.words a code)
    (hsize : a + Instr.sizeOf code ≤ A.code.size)
    (hroom : A.capacity < ops.length + Expr.heightAll args → excuse (.stackOverflow A.capacity))
    (hr : A.Holds a ops w r) :
    Meets p names excuse (Expr.evalAll p.catalog.types apply args) w r n fun vs w' r' =>
      vs.length = args.length ∧ A.Holds (a + Instr.sizeOf code) (ops ++ vs) w' r' := by
  rw [hA.grows.types]
  exact Expr.evaluatesAll (hA.evaluator hs) hc hcalls hstand hsize hroom hr

end Danmaku
