import Danmaku.Proofs.Compile.Success
import Danmaku.Proofs.Meaning.Basic
import Danmaku.Proofs.Syntax.Needs

/-!
# Evaluators

An evaluator runs code: it does with the single instructions of which expressions are made what
these stand for. How it is seen to do so is left open: it may keep a log, or give up where an excuse
is at hand, and a call may be none of its business. That is enough for whole expressions, since
their code is put together as their meanings are (`Expr.evaluates`).
-/

namespace Danmaku

open Instr

/-- What runs the code of expressions. The instructions are read from words; the names of variables
are those of a scope, and some calls are allowed, which `apply` gives a meaning. -/
structure Evaluator (σ : Type) (words : Array Word) (c : Catalog) (s : ScopeStack)
    (apply : String → List Word → Eval Word) (allowed : String → Prop) where
  /-- It is at an address, has some operands, and is in a world. -/
  Holds : Nat → List Word → World → σ → Prop
  /-- It goes on as a computation does, to an outcome of which something holds. -/
  Does {α : Type} : Eval α → World → σ → (α → World → σ → Prop) → Prop
  /-- There is room for so many operands. -/
  Room : Nat → Prop
  mono {m n : Nat} : Room n → m ≤ n → Room m
  value {α : Type} {x : α} {w : World} {r : σ} {post : α → World → σ → Prop} :
    post x w r → Does (pure x) w r post
  bind {α β : Type} {m : Eval α} {k : α → Eval β} {w : World} {r : σ}
    {post : α → World → σ → Prop} {post' : β → World → σ → Prop} : Does m w r post →
    (∀ x w' r', post x w' r' → Does (k x) w' r' post') → Does (m >>= k) w r post'
  push {α : Type} {m : Eval α} {post : α → World → σ → Prop} {a : Nat} {ops : List Word} {w : World}
    {r : σ} {v : Word} : (push v).StandsAt words a → Room (ops.length + 1) → Holds a ops w r →
    (∀ r', Holds (a + (push v).size) (ops ++ [v]) w r' → Does m w r' post) → Does m w r post
  negate {a : Nat} {ops : List Word} {w : World} {r : σ} {v : Word} :
    negate.StandsAt words a → Holds a (ops ++ [v]) w r →
    Does (pure (UnaryOp.neg.apply v)) w r fun v w' r' =>
      Holds (a + negate.size) (ops ++ [v]) w' r'
  not {a : Nat} {ops : List Word} {w : World} {r : σ} {v : Word} :
    not.StandsAt words a → Holds a (ops ++ [v]) w r →
    Does (pure (UnaryOp.not.apply v)) w r fun v w' r' => Holds (a + not.size) (ops ++ [v]) w' r'
  binary {op : BinaryOp} {a : Nat} {ops : List Word} {w : World} {r : σ} {x y : Word} :
    (binary op).StandsAt words a → Room (ops.length + 1) → Holds a (ops ++ [x] ++ [y]) w r →
    Does (Eval.ofExcept (op.apply x y)) w r fun v w' r' =>
      Holds (a + (binary op).size) (ops ++ [v]) w' r'
  fetch {e : Expr} {place : Place} {a : Nat} {ops : List Word} {w : World} {r : σ} :
    e.place c s = .ok place → place.get.StandsAt words a → Room (ops.length + 1) → Holds a ops w r →
    Does (e.fetch c.types) w r fun v w' r' => Holds (a + place.get.size) (ops ++ [v]) w' r'
  store {e : Expr} {place : Place} {a : Nat} {ops : List Word} {w : World} {r : σ} {v : Word} :
    e.place c s = .ok place → place.set.StandsAt words a → Holds a (ops ++ [v]) w r →
    Does (e.store c.types v) w r fun _ w' r' => Holds (a + place.set.size) (ops ++ [v]) w' r'
  branchIfZeroBy {α : Type} {m : Eval α} {post : α → World → σ → Prop} {a b : Nat}
    {ops : List Word} {w : World} {r : σ} {v : Word} {offset : Int} :
    (branchIfZeroBy offset).StandsAt words a → ((a + 2 : Nat) : Int) + offset = b →
    b ≤ words.size → Holds a (ops ++ [v]) w r →
    (∀ r', Holds (if v == 0 then b else a + 2) ops w r' → Does m w r' post) → Does m w r post
  jumpBy {α : Type} {m : Eval α} {post : α → World → σ → Prop} {a b : Nat} {ops : List Word}
    {w : World} {r : σ} {offset : Int} : (jumpBy offset).StandsAt words a →
    ((a + 2 : Nat) : Int) + offset = b → b ≤ words.size → Holds a ops w r →
    (∀ r', Holds b ops w r' → Does m w r' post) → Does m w r post
  call {f : Ident} {position : Position} {args ops : List Word} {i : Instr} {a : Nat} {w : World}
    {r : σ} : allowed f.name → callee c f args.length position = .ok i → i.StandsAt words a →
    Holds a (ops ++ args) w r →
    Does (apply f.name args) w r fun v w' r' => Holds (a + i.size) (ops ++ [v]) w' r'

variable {σ : Type} {words : Array Word} {c : Catalog} {s : ScopeStack}
  {apply : String → List Word → Eval Word} {allowed : String → Prop}

mutual

/-- **The code of an expression does what the expression means**, and leaves its value on top. -/
theorem Expr.evaluates (E : Evaluator σ words c s apply allowed) {e : Expr} {a : Nat}
    {ops : List Word} {w : World} {r : σ} {code : List Instr} (hc : e.compile c s = .ok code)
    (hcalls : ∀ f ∈ e.calls, allowed f) (hstand : AllStand words a code)
    (hsize : a + Instr.sizeOf code ≤ words.size) (hroom : E.Room (ops.length + e.height))
    (hr : E.Holds a ops w r) :
    E.Does (e.eval c.types apply) w r fun v w' r' =>
      E.Holds (a + Instr.sizeOf code) (ops ++ [v]) w' r' := by
  have hpos := e.height_pos
  cases e with
  | num value _ =>
    obtain rfl := Except.ok.inj hc
    simp only [allStand_cons] at hstand
    rw [Expr.eval]
    exact E.push hstand.1 hroom hr fun _ hr' => E.value hr'
  | var name position | prop name position =>
    simp only [Expr.compile, bind_eq_ok, pure_eq_ok] at hc
    obtain ⟨place, hp, rfl⟩ := hc
    simp only [allStand_cons] at hstand
    rw [Expr.eval]
    exact E.fetch hp hstand.1 (E.mono hroom (by omega)) hr
  | binary op left right _ =>
    simp only [Expr.compile, bind_eq_ok, pure_eq_ok] at hc
    obtain ⟨cl, hl, cr, hr', rfl⟩ := hc
    simp only [Expr.calls, List.mem_append, or_imp, forall_and] at hcalls
    simp only [Expr.height] at hroom
    simp only [allStand_append, allStand_cons, sizeOf_append, sizeOf_cons, sizeOf_nil,
      ← Nat.add_assoc, Nat.add_zero] at hstand hsize ⊢
    obtain ⟨⟨hstandl, hstandr⟩, hi, -⟩ := hstand
    rw [Expr.eval]
    refine E.bind (Expr.evaluates E hl hcalls.1 hstandl (by omega) (E.mono hroom (by omega)) hr)
      fun x w₁ r₁ hr₁ => ?_
    refine E.bind (Expr.evaluates E hr' hcalls.2 hstandr (by omega) (E.mono hroom ?_) hr₁)
      fun y w₂ r₂ hr₂ => ?_
    · rw [List.length_append, List.length_singleton]
      omega
    · exact E.binary hi (E.mono hroom (by omega)) hr₂
  | unary op operand _ =>
    simp only [Expr.compile, bind_eq_ok, pure_eq_ok] at hc
    obtain ⟨ce, he, rfl⟩ := hc
    simp only [Expr.calls, Expr.height] at hcalls hroom
    simp only [allStand_append, allStand_cons, sizeOf_append, sizeOf_cons, sizeOf_nil,
      ← Nat.add_assoc, Nat.add_zero] at hstand hsize ⊢
    obtain ⟨hstand, hi, -⟩ := hstand
    rw [Expr.eval]
    refine E.bind (Expr.evaluates E he hcalls hstand (by omega) hroom hr) fun x w₁ r₁ hr₁ => ?_
    cases op with
    | neg => exact E.negate hi hr₁
    | not => exact E.not hi hr₁
  | assign op target value _ =>
    cases op with
    | plain =>
      simp only [Expr.compile, bind_eq_ok, pure_eq_ok] at hc
      obtain ⟨place, hp, cv, hv, rfl⟩ := hc
      simp only [Expr.calls, List.mem_append, or_imp, forall_and] at hcalls
      simp only [allStand_append, allStand_cons, sizeOf_append, sizeOf_cons, sizeOf_nil,
        ← Nat.add_assoc, Nat.add_zero] at hstand hsize ⊢
      obtain ⟨hstand, hi, -⟩ := hstand
      rw [Expr.eval]
      refine E.bind (Expr.evaluates E hv hcalls.2 hstand (by omega) hroom hr) fun x w₁ r₁ hr₁ => ?_
      exact E.bind (E.store hp hi hr₁) fun _ w₂ r₂ hr₂ => E.value hr₂
    | combined op =>
      simp only [Expr.compile, bind_eq_ok, pure_eq_ok] at hc
      obtain ⟨place, hp, cv, hv, rfl⟩ := hc
      simp only [Expr.calls, List.mem_append, or_imp, forall_and] at hcalls
      simp only [Expr.height] at hroom hpos
      simp only [allStand_append, allStand_cons, sizeOf_append, sizeOf_cons, sizeOf_nil,
        ← Nat.add_assoc, Nat.add_zero] at hstand hsize ⊢
      obtain ⟨⟨⟨hget, -⟩, hstand⟩, hi, hset, -⟩ := hstand
      rw [Expr.eval]
      refine E.bind (E.fetch hp hget (E.mono hroom (by omega)) hr) fun x w₁ r₁ hr₁ => ?_
      refine E.bind (Expr.evaluates E hv hcalls.2 hstand (by omega) (E.mono hroom ?_) hr₁)
        fun y w₂ r₂ hr₂ => ?_
      · rw [List.length_append, List.length_singleton]
        omega
      refine E.bind (E.binary hi (E.mono hroom (by omega)) hr₂) fun v w₃ r₃ hr₃ => ?_
      exact E.bind (E.store hp hset hr₃) fun _ w₄ r₄ hr₄ => E.value hr₄
  | step op target _ =>
    simp only [Expr.compile, bind_eq_ok, pure_eq_ok] at hc
    obtain ⟨place, hp, rfl⟩ := hc
    simp only [Expr.height] at hroom
    simp only [allStand_cons, sizeOf_cons, sizeOf_nil, ← Nat.add_assoc, Nat.add_zero]
      at hstand hsize ⊢
    obtain ⟨hget, hpush, hi, hset, -⟩ := hstand
    rw [Expr.eval]
    refine E.bind (E.fetch hp hget (E.mono hroom (by omega)) hr) fun x w₁ r₁ hr₁ => ?_
    refine E.push hpush (E.mono hroom ?_) hr₁ fun r₂ hr₂ => ?_
    · rw [List.length_append, List.length_singleton]
    refine E.bind (E.binary hi (E.mono hroom (by omega)) hr₂) fun v w₃ r₃ hr₃ => ?_
    exact E.bind (E.store hp hset hr₃) fun _ w₄ r₄ hr₄ => E.value hr₄
  | choose condition yes no _ =>
    simp only [Expr.compile, bind_eq_ok, pure_eq_ok] at hc
    obtain ⟨cc, hc, cy, hy, cn, hn, rfl⟩ := hc
    simp only [Expr.calls, List.mem_append, or_imp, forall_and] at hcalls
    simp only [Expr.height] at hroom
    simp only [allStand_append, allStand_cons, sizeOf_append, sizeOf_cons, sizeOf_nil,
      ← Nat.add_assoc, Nat.add_zero, size_branchIfZeroBy, size_jumpBy] at hstand hsize ⊢
    obtain ⟨⟨⟨⟨hstandc, hi, -⟩, hstandy⟩, hj, -⟩, hstandn⟩ := hstand
    rw [Expr.eval]
    refine E.bind (Expr.evaluates E hc hcalls.1 hstandc (by omega) (E.mono hroom (by omega)) hr)
      fun x w₁ r₁ hr₁ => ?_
    refine E.branchIfZeroBy (b := a + Instr.sizeOf cc + 2 + Instr.sizeOf cy + 2) hi (by omega)
      (by omega) hr₁ fun r₂ hr₂ => ?_
    cases hx : x == 0 with
    | true =>
      simp only [hx, if_true] at hr₂ ⊢
      exact Expr.evaluates E hn hcalls.2.2 hstandn (by omega) (E.mono hroom (by omega)) hr₂
    | false =>
      simp only [hx, Bool.false_eq_true, if_false] at hr₂ ⊢
      -- The jump over the other branch comes after the value, so to speak in the computation
      -- that returns it.
      rw [← bind_pure (yes.eval c.types apply)]
      refine E.bind (Expr.evaluates E hy hcalls.2.1 hstandy (by omega) (E.mono hroom (by omega))
        hr₂) fun v w₃ r₃ hr₃ => ?_
      exact E.jumpBy (b := a + Instr.sizeOf cc + 2 + Instr.sizeOf cy + 2 + Instr.sizeOf cn) hj
        (by omega) (by omega) hr₃ fun r₄ hr₄ => E.value hr₄
  | call f args position =>
    simp only [Expr.compile, bind_eq_ok, pure_eq_ok] at hc
    obtain ⟨i, hi, ca, ha, rfl⟩ := hc
    simp only [Expr.calls, List.forall_mem_cons] at hcalls
    simp only [Expr.height] at hroom
    simp only [allStand_append, allStand_cons, sizeOf_append, sizeOf_cons, sizeOf_nil,
      ← Nat.add_assoc, Nat.add_zero] at hstand hsize ⊢
    obtain ⟨hstand, hcall, -⟩ := hstand
    rw [Expr.eval]
    refine E.bind (Expr.evaluatesAll E ha hcalls.2 hstand (by omega) (E.mono hroom (by omega)) hr)
      fun vs w₁ r₁ hr₁ => ?_
    obtain ⟨hlength, hr₁⟩ := hr₁
    exact E.call hcalls.1 (hlength ▸ hi) hcall hr₁

/-- The code of several expressions leaves their values in order. -/
theorem Expr.evaluatesAll (E : Evaluator σ words c s apply allowed) {args : List Expr} {a : Nat}
    {ops : List Word} {w : World} {r : σ} {code : List Instr}
    (hc : Expr.compileAll c s args = .ok code) (hcalls : ∀ f ∈ Expr.callsAll args, allowed f)
    (hstand : AllStand words a code) (hsize : a + Instr.sizeOf code ≤ words.size)
    (hroom : E.Room (ops.length + Expr.heightAll args)) (hr : E.Holds a ops w r) :
    E.Does (Expr.evalAll c.types apply args) w r fun vs w' r' =>
      vs.length = args.length ∧ E.Holds (a + Instr.sizeOf code) (ops ++ vs) w' r' := by
  cases args with
  | nil =>
    obtain rfl := Except.ok.inj hc
    rw [Expr.evalAll]
    exact E.value ⟨rfl, by simpa using hr⟩
  | cons e rest =>
    simp only [Expr.compileAll, bind_eq_ok, pure_eq_ok] at hc
    obtain ⟨ce, he, cr, hr', rfl⟩ := hc
    simp only [Expr.callsAll, List.mem_append, or_imp, forall_and] at hcalls
    simp only [Expr.heightAll] at hroom
    simp only [allStand_append, sizeOf_append, ← Nat.add_assoc] at hstand hsize ⊢
    rw [Expr.evalAll]
    refine E.bind (Expr.evaluates E he hcalls.1 hstand.1 (by omega) (E.mono hroom (by omega)) hr)
      fun x w₁ r₁ hr₁ => ?_
    refine E.bind (Expr.evaluatesAll E hr' hcalls.2 hstand.2 (by omega) (E.mono hroom ?_) hr₁)
      fun xs w₂ r₂ hr₂ => ?_
    · rw [List.length_append, List.length_singleton]
      omega
    · obtain ⟨hlength, hr₂⟩ := hr₂
      refine E.value ⟨by rw [List.length_cons, List.length_cons, hlength], ?_⟩
      simpa only [List.append_assoc, List.singleton_append] using hr₂

end

end Danmaku
