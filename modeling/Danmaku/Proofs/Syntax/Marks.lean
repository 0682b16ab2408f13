import Danmaku.Syntax

/-!
# How deep phrases go

Before a phrase is compiled it can be told, for each instruction of its code, how many operands its
body has there, and how many arguments a call there hands over (`Decl.marks`). As every instruction
has a known number of words, this gives a depth for each address (`Decl.depthAt`). Between
statements there are no operands (`Decl.boundaries`, `Decl.depthAt_boundaries`).
-/

namespace Danmaku

/-- What can be told of an instruction before a phrase is compiled. -/
structure Mark where
  /-- How many words its operands take. -/
  words : Nat
  /-- How many operands the body has there. -/
  depth : Nat
  /-- How many arguments it hands over, if it is a call. -/
  arguments : Nat := 0
  deriving DecidableEq, Repr

namespace Mark

/-- How many words the instruction takes. -/
def size (m : Mark) : Nat := 1 + m.words

/-- How many words some instructions take. -/
def sizeOf : List Mark → Nat
  | [] => 0
  | m :: rest => m.size + sizeOf rest

/-- Marks with the addresses of their instructions, the first of which is given. -/
def placed : (address : Nat) → List Mark → List (Nat × Mark)
  | _, [] => []
  | address, m :: rest => (address, m) :: placed (address + m.size) rest

variable {a b : Nat} {m : Mark} {marks rest : List Mark}

@[simp] theorem sizeOf_nil : sizeOf [] = 0 := rfl

@[simp] theorem sizeOf_cons (m : Mark) (marks : List Mark) :
    sizeOf (m :: marks) = m.size + sizeOf marks := rfl

@[simp] theorem sizeOf_append (marks rest : List Mark) :
    sizeOf (marks ++ rest) = sizeOf marks + sizeOf rest := by
  induction marks with
  | nil => simp
  | cons m marks ih => simp only [List.cons_append, sizeOf_cons, ih]; omega

@[simp] theorem placed_nil (a : Nat) : placed a [] = [] := rfl

@[simp] theorem placed_cons (a : Nat) (m : Mark) (marks : List Mark) :
    placed a (m :: marks) = (a, m) :: placed (a + m.size) marks := rfl

@[simp] theorem placed_append (a : Nat) (marks rest : List Mark) :
    placed a (marks ++ rest) = placed a marks ++ placed (a + sizeOf marks) rest := by
  induction marks generalizing a with
  | nil => simp
  | cons m marks ih => simp only [List.cons_append, placed_cons, ih, sizeOf_cons, Nat.add_assoc]

theorem le_of_mem_placed (h : (b, m) ∈ placed a marks) : a ≤ b ∧ b < a + sizeOf marks := by
  induction marks generalizing a with
  | nil => cases h
  | cons m' marks ih =>
    rw [sizeOf_cons, size]
    rcases List.mem_cons.1 h with h | h
    · obtain ⟨rfl, rfl⟩ := Prod.mk.inj h
      omega
    · have := ih h
      rw [size] at this
      omega

/-- A mark is found under the address of its instruction. -/
theorem lookup_placed (h : (b, m) ∈ placed a marks) : (placed a marks).lookup b = some m := by
  induction marks generalizing a with
  | nil => cases h
  | cons m' marks ih =>
    rw [placed_cons, List.lookup_cons]
    rcases List.mem_cons.1 h with h | h
    · obtain ⟨rfl, rfl⟩ := Prod.mk.inj h
      rw [beq_self_eq_true]
    · have hle := (le_of_mem_placed h).1
      rw [size] at hle
      rw [show (b == a) = false from beq_eq_false_iff_ne.2 (by omega)]
      exact ih h

/-- Nothing is found at the end. -/
theorem lookup_end (h : a + sizeOf marks ≤ b) : (placed a marks).lookup b = none := by
  rw [List.lookup_eq_none_iff]
  rintro ⟨b', m⟩ hm
  have := (le_of_mem_placed hm).2
  exact bne_iff_ne.2 (by omega)

end Mark

/-! ## Expressions -/

namespace Expr

mutual

/-- The marks of an expression, so many operands being there before it. -/
def marks (depth : Nat) : Expr → List Mark
  | num _ _ | var _ _ | prop _ _ => [⟨1, depth, 0⟩]
  | binary _ left right _ =>
    left.marks depth ++ right.marks (depth + 1) ++ [⟨0, depth + 2, 0⟩]
  | unary _ operand _ => operand.marks depth ++ [⟨0, depth + 1, 0⟩]
  | assign .plain _ value _ => value.marks depth ++ [⟨1, depth + 1, 0⟩]
  | assign (.combined _) _ value _ =>
    [⟨1, depth, 0⟩] ++ value.marks (depth + 1) ++ [⟨0, depth + 2, 0⟩, ⟨1, depth + 1, 0⟩]
  | step _ _ _ => [⟨1, depth, 0⟩, ⟨1, depth + 1, 0⟩, ⟨0, depth + 2, 0⟩, ⟨1, depth + 1, 0⟩]
  | choose condition yes no _ =>
    condition.marks depth ++ [⟨1, depth + 1, 0⟩] ++ yes.marks depth ++ [⟨1, depth + 1, 0⟩] ++
      no.marks depth
  | call _ arguments _ =>
    marksAll depth arguments ++ [⟨1, depth + arguments.length, arguments.length⟩]

/-- The marks of several expressions, whose values are all kept. -/
def marksAll (depth : Nat) : List Expr → List Mark
  | [] => []
  | e :: rest => e.marks depth ++ marksAll (depth + 1) rest

end

/-- The marks of an expression, or of zero in the place of a missing one. -/
def marksOrZero : Option Expr → List Mark
  | some e => e.marks 0
  | none => [⟨1, 0, 0⟩]

end Expr

/-! ## Statements -/

/-- The marks of a variable's declaration. -/
def VarDecl.marks (d : VarDecl) : List Mark := Expr.marksOrZero d.value? ++ [⟨1, 1, 0⟩, ⟨0, 1, 0⟩]

/-- The marks of the start of a counting loop. -/
def ForInit.marks : Option ForInit → List Mark
  | none => []
  | some (.declare decl) => decl.marks
  | some (.evaluate e) => e.marks 0 ++ [⟨0, 1, 0⟩]

/-- The marks of a request to fire. -/
def FireStmt.marks (f : FireStmt) : List Mark :=
  Expr.marksAll 0 f.arguments ++
    match f.updater? with
    | none => [⟨1, f.arguments.length, 0⟩]
    | some clause =>
      Expr.marksAll f.arguments.length clause.arguments ++
        [⟨2, f.arguments.length + clause.arguments.length, 0⟩]

/-- The marks of a loop's condition. -/
def Mark.ofTest : Option Expr → List Mark
  | none => []
  | some e => e.marks 0 ++ [⟨1, 1, 0⟩]

/-- The marks of a loop's update. -/
def Mark.ofUpdate : Option Expr → List Mark
  | none => []
  | some e => e.marks 0 ++ [⟨0, 1, 0⟩]

/-- The marks of a loop, its body being marked already. -/
def Mark.ofLoop (condition? update? : Option Expr) (body : List Mark) : List Mark :=
  ofTest condition? ++ ofUpdate update? ++ body ++ [⟨1, 0, 0⟩]

namespace Stmt

mutual

/-- The marks of a statement. -/
def marks : Stmt → List Mark
  | expr e _ => e.marks 0 ++ [⟨0, 1, 0⟩]
  | var decl _ => decl.marks
  | ref _ _ => []
  | ret value? _ => Expr.marksOrZero value? ++ [⟨0, 1, 0⟩]
  | leaveLoop _ | continueLoop _ => [⟨1, 0, 0⟩]
  | block body _ => marksAll body
  | ifThen condition yes _ => condition.marks 0 ++ [⟨1, 1, 0⟩] ++ yes.marks
  | ifElse condition yes no _ =>
    condition.marks 0 ++ [⟨1, 1, 0⟩] ++ yes.marks ++ [⟨1, 0, 0⟩] ++ no.marks
  | whileLoop condition body _ => Mark.ofLoop (some condition) none body.marks
  | forLoop init? condition? update? body _ =>
    ForInit.marks init? ++ Mark.ofLoop condition? update? body.marks
  | wait ticks _ => ticks.marks 0 ++ [⟨0, 1, 0⟩]
  | fire request => request.marks

/-- The marks of several statements. -/
def marksAll : List Stmt → List Mark
  | [] => []
  | stmt :: rest => stmt.marks ++ marksAll rest

end

mutual

/-- Where a statement at an address starts and ends, and where those in it do. -/
def boundaries (address : Nat) (stmt : Stmt) : List Nat :=
  address :: (address + Mark.sizeOf stmt.marks) ::
    match stmt with
    | block body _ => boundariesAll address body
    | ifThen condition yes _ => yes.boundaries (address + Mark.sizeOf (condition.marks 0) + 2)
    | ifElse condition yes no _ =>
      let start := address + Mark.sizeOf (condition.marks 0) + 2
      yes.boundaries start ++ no.boundaries (start + Mark.sizeOf yes.marks + 2)
    | whileLoop condition body _ =>
      body.boundaries (address + Mark.sizeOf (Mark.ofTest (some condition)))
    | forLoop init? condition? update? body _ =>
      let start := address + Mark.sizeOf (ForInit.marks init?)
      start :: body.boundaries
        (start + Mark.sizeOf (Mark.ofTest condition?) + Mark.sizeOf (Mark.ofUpdate update?))
    | expr _ _ | var _ _ | ref _ _ | ret _ _ | leaveLoop _ | continueLoop _ | wait _ _
    | fire _ => []

/-- The same for several statements. -/
def boundariesAll (address : Nat) : List Stmt → List Nat
  | [] => [address]
  | stmt :: rest =>
    stmt.boundaries address ++ boundariesAll (address + Mark.sizeOf stmt.marks) rest

end

end Stmt

namespace Decl

variable (d : Decl) (a : Nat)

/-- The marks of a body. -/
def marks : List Mark := Stmt.marksAll d.body

/-- How many operands the body has at an address. -/
def depthAt : Nat := (((Mark.placed 0 d.marks).lookup a).map Mark.depth).getD 0

/-- How many arguments the call at an address hands over. -/
def argumentsAt : Nat := (((Mark.placed 0 d.marks).lookup a).map Mark.arguments).getD 0

/-- The addresses between the statements of the body. -/
def boundaries : List Nat := Stmt.boundariesAll 0 d.body

end Decl

/-! ## Plans -/

/-- How many operands a body has at each address, and how many arguments a call there hands over. -/
structure Plan where
  depth : Nat → Nat
  arguments : Nat → Nat

/-- A plan says what some marks say, the first of which is that of an address. -/
def Plan.Follows (plan : Plan) (address : Nat) (marks : List Mark) : Prop :=
  ∀ x ∈ Mark.placed address marks, plan.depth x.1 = x.2.depth ∧ plan.arguments x.1 = x.2.arguments

/-- The first mark, if there is one, is that of a place with so many operands. -/
def Mark.Starts (depth : Nat) (marks : List Mark) : Prop := ∀ m ∈ marks.head?, m.depth = depth

namespace Plan

variable {plan : Plan} {a depth : Nat} {m : Mark} {marks rest : List Mark}

@[simp] theorem follows_cons : plan.Follows a (m :: marks) ↔
    (plan.depth a = m.depth ∧ plan.arguments a = m.arguments) ∧
      plan.Follows (a + m.size) marks := by
  simp [Follows]

@[simp] theorem follows_append : plan.Follows a (marks ++ rest) ↔
    plan.Follows a marks ∧ plan.Follows (a + Mark.sizeOf marks) rest := by
  simp only [Follows, Mark.placed_append, List.forall_mem_append]

/-- The depth at the start is that of the first mark, or, without marks, that at the end. -/
theorem Follows.start (h : plan.Follows a marks) (hs : Mark.Starts depth marks)
    (hend : plan.depth (a + Mark.sizeOf marks) = depth) : plan.depth a = depth := by
  cases marks with
  | nil => exact hend
  | cons m marks => exact (follows_cons.1 h).1.1.trans (hs m rfl)

end Plan

namespace Mark

variable {depth : Nat} {marks rest : List Mark}

theorem Starts.append (h : Starts depth marks) (h' : Starts depth rest) :
    Starts depth (marks ++ rest) := by
  cases marks with
  | nil => exact h'
  | cons m marks => exact h

theorem Starts.append_of_ne_nil (h : Starts depth marks) (hne : marks ≠ []) :
    Starts depth (marks ++ rest) := by
  cases marks with
  | nil => exact absurd rfl hne
  | cons m marks => exact h

theorem starts_cons {m : Mark} : Starts depth (m :: marks) ↔ m.depth = depth := by simp [Starts]

end Mark

open Mark (Starts starts_cons)

theorem Expr.marks_starts (e : Expr) (depth : Nat) :
    Starts depth (e.marks depth) ∧ e.marks depth ≠ [] := by
  cases e with
  | num _ _ | var _ _ | prop _ _ | step _ _ _ => exact ⟨starts_cons.2 rfl, List.cons_ne_nil _ _⟩
  | binary op l r _ =>
    have hl := l.marks_starts depth
    simp only [marks, List.append_assoc]
    exact ⟨hl.1.append_of_ne_nil hl.2, List.append_ne_nil_of_left_ne_nil hl.2 _⟩
  | unary op e _ =>
    have he := e.marks_starts depth
    exact ⟨he.1.append_of_ne_nil he.2, List.append_ne_nil_of_left_ne_nil he.2 _⟩
  | assign op target value _ =>
    cases op with
    | plain =>
      have hv := value.marks_starts depth
      exact ⟨hv.1.append_of_ne_nil hv.2, List.append_ne_nil_of_left_ne_nil hv.2 _⟩
    | combined op => exact ⟨starts_cons.2 rfl, List.cons_ne_nil _ _⟩
  | choose c y n _ =>
    have hc := c.marks_starts depth
    simp only [marks, List.append_assoc]
    exact ⟨hc.1.append_of_ne_nil hc.2, List.append_ne_nil_of_left_ne_nil hc.2 _⟩
  | call f args _ =>
    refine ⟨?_, List.append_ne_nil_of_right_ne_nil _ (List.cons_ne_nil _ _)⟩
    cases args with
    | nil => exact starts_cons.2 rfl
    | cons e rest =>
      have he := e.marks_starts depth
      simp only [marks, marksAll, List.append_assoc]
      exact he.1.append_of_ne_nil he.2

theorem Expr.marks_append_starts (e : Expr) (depth : Nat) (rest : List Mark) :
    Starts depth (e.marks depth ++ rest) :=
  (e.marks_starts depth).1.append_of_ne_nil (e.marks_starts depth).2

/-- An expression starts with as many operands as are there before it. -/
theorem Expr.depth_start {plan : Plan} {e : Expr} {a depth : Nat}
    (h : plan.Follows a (e.marks depth)) : plan.depth a = depth := by
  obtain ⟨hs, hne⟩ := e.marks_starts depth
  obtain ⟨m, rest, hm⟩ := List.exists_cons_of_ne_nil hne
  rw [hm] at h hs
  exact (Plan.follows_cons.1 h).1.1.trans (starts_cons.1 hs)

/-- So do several expressions. -/
theorem Expr.depth_startAll {plan : Plan} {args : List Expr} {a depth : Nat}
    (h : plan.Follows a (Expr.marksAll depth args))
    (hend : plan.depth (a + Mark.sizeOf (Expr.marksAll depth args)) = depth + args.length) :
    plan.depth a = depth := by
  cases args with
  | nil => exact hend
  | cons e rest => exact Expr.depth_start (Plan.follows_append.1 h).1

theorem Expr.marksOrZero_append_starts (e? : Option Expr) (rest : List Mark) :
    Starts 0 (Expr.marksOrZero e? ++ rest) := by
  cases e? with
  | none => exact starts_cons.2 rfl
  | some e => exact e.marks_append_starts 0 rest

theorem VarDecl.marks_starts (d : VarDecl) : Starts 0 d.marks :=
  Expr.marksOrZero_append_starts d.value? _

theorem ForInit.marks_starts (init? : Option ForInit) : Starts 0 (ForInit.marks init?) := by
  cases init? with
  | none => simp [ForInit.marks, Starts]
  | some init =>
    cases init with
    | declare decl => exact decl.marks_starts
    | evaluate e => exact e.marks_append_starts 0 _

theorem FireStmt.marks_starts (f : FireStmt) : Starts 0 f.marks := by
  rw [FireStmt.marks]
  cases hargs : f.arguments with
  | cons e rest =>
    simp only [Expr.marksAll, List.append_assoc]
    exact e.marks_append_starts 0 _
  | nil =>
    split
    · exact starts_cons.2 rfl
    · next clause _ =>
      cases hclause : clause.arguments with
      | nil => exact starts_cons.2 rfl
      | cons e rest =>
        simp only [Expr.marksAll, List.nil_append, List.append_assoc]
        exact e.marks_append_starts 0 _

theorem Mark.ofUpdate_starts (update? : Option Expr) : Starts 0 (Mark.ofUpdate update?) := by
  cases update? with
  | none => simp [ofUpdate, Starts]
  | some e => exact e.marks_append_starts 0 _

theorem Mark.ofLoop_starts {condition? update? : Option Expr} {body : List Mark}
    (hbody : Starts 0 body) : Starts 0 (Mark.ofLoop condition? update? body) := by
  simp only [ofLoop, List.append_assoc]
  cases condition? with
  | some e =>
    simp only [ofTest, List.append_assoc]
    exact e.marks_append_starts 0 _
  | none =>
    cases update? with
    | some e =>
      simp only [ofTest, ofUpdate, List.nil_append, List.append_assoc]
      exact e.marks_append_starts 0 _
    | none => exact hbody.append (starts_cons.2 rfl)

mutual

/-- A statement starts without operands. -/
theorem Stmt.marks_starts (stmt : Stmt) : Starts 0 stmt.marks := by
  cases stmt with
  | expr e _ | wait e _ => exact e.marks_append_starts 0 _
  | var decl _ => exact decl.marks_starts
  | ref name _ => simp [marks, Starts]
  | ret value? _ => exact Expr.marksOrZero_append_starts value? _
  | leaveLoop _ | continueLoop _ => exact starts_cons.2 rfl
  | block body _ => exact Stmt.marksAll_starts body
  | ifThen condition yes _ | ifElse condition yes no _ =>
    simp only [marks, List.append_assoc]
    exact condition.marks_append_starts 0 _
  | whileLoop condition body _ => exact Mark.ofLoop_starts body.marks_starts
  | forLoop init? condition? update? body _ =>
    exact (ForInit.marks_starts init?).append (Mark.ofLoop_starts body.marks_starts)
  | fire request => exact request.marks_starts

theorem Stmt.marksAll_starts (statements : List Stmt) : Starts 0 (Stmt.marksAll statements) := by
  cases statements with
  | nil => simp [marksAll, Starts]
  | cons stmt rest => exact stmt.marks_starts.append (Stmt.marksAll_starts rest)

end

/-! ## Between statements -/

mutual

/-- **Between statements there are no operands.** -/
theorem Stmt.depth_boundaries {plan : Plan} (stmt : Stmt) {a : Nat} (h : plan.Follows a stmt.marks)
    (hend : plan.depth (a + Mark.sizeOf stmt.marks) = 0) :
    ∀ b ∈ stmt.boundaries a, plan.depth b = 0 := by
  have hstart := h.start stmt.marks_starts hend
  rw [Stmt.boundaries.eq_def, List.forall_mem_cons, List.forall_mem_cons]
  refine ⟨hstart, hend, ?_⟩
  cases stmt with
  | block body _ => exact Stmt.depth_boundariesAll body h hend
  | ifThen condition yes _ =>
    simp only [marks, Plan.follows_append, Plan.follows_cons, Mark.sizeOf_append, Mark.sizeOf_cons,
      Mark.sizeOf_nil, Mark.size, Nat.add_zero, ← Nat.add_assoc] at h hend
    exact yes.depth_boundaries h.2 hend
  | ifElse condition yes no _ =>
    simp only [marks, Plan.follows_append, Plan.follows_cons, Mark.sizeOf_append, Mark.sizeOf_cons,
      Mark.sizeOf_nil, Mark.size, Nat.add_zero, ← Nat.add_assoc] at h hend
    obtain ⟨⟨⟨-, hyes⟩, hjump⟩, hno⟩ := h
    exact List.forall_mem_append.2
      ⟨yes.depth_boundaries hyes hjump.1.1, no.depth_boundaries hno hend⟩
  | whileLoop condition body _ =>
    simp only [marks, Mark.ofLoop, Mark.ofUpdate, Plan.follows_append, Plan.follows_cons,
      Mark.sizeOf_append, Mark.sizeOf_nil, Nat.add_zero] at h
    exact body.depth_boundaries h.1.2 (by rw [Nat.add_assoc]; exact h.2.1.1)
  | forLoop init? condition? update? body _ =>
    simp only [marks, Mark.ofLoop, Plan.follows_append, Plan.follows_cons, ← Nat.add_assoc,
      Mark.sizeOf_append] at h hend
    obtain ⟨hinit, ⟨⟨htest, hupdate⟩, hbody⟩, hjump⟩ := h
    refine List.forall_mem_cons.2 ⟨?_, body.depth_boundaries hbody hjump.1.1⟩
    have hloop : plan.Follows (a + Mark.sizeOf (ForInit.marks init?))
        (Mark.ofLoop condition? update? body.marks) := by
      simp only [Mark.ofLoop, Plan.follows_append, Plan.follows_cons, Mark.sizeOf_append,
        ← Nat.add_assoc]
      exact ⟨⟨⟨htest, hupdate⟩, hbody⟩, hjump⟩
    refine hloop.start (Mark.ofLoop_starts body.marks_starts) ?_
    simpa only [Mark.ofLoop, Mark.sizeOf_append, ← Nat.add_assoc] using hend
  | expr _ _ | var _ _ | ref _ _ | ret _ _ | leaveLoop _ | continueLoop _ | wait _ _ | fire _ =>
    exact List.forall_mem_nil _

theorem Stmt.depth_boundariesAll {plan : Plan} (statements : List Stmt) {a : Nat}
    (h : plan.Follows a (Stmt.marksAll statements))
    (hend : plan.depth (a + Mark.sizeOf (Stmt.marksAll statements)) = 0) :
    ∀ b ∈ Stmt.boundariesAll a statements, plan.depth b = 0 := by
  cases statements with
  | nil => exact List.forall_mem_singleton.2 hend
  | cons stmt rest =>
    simp only [marksAll, Plan.follows_append, Mark.sizeOf_append, ← Nat.add_assoc] at h hend
    rw [Stmt.boundariesAll, List.forall_mem_append]
    exact ⟨stmt.depth_boundaries h.1 (h.2.start (Stmt.marksAll_starts rest) hend),
      Stmt.depth_boundariesAll rest h.2 hend⟩

end

namespace Decl

variable (d : Decl)

/-- What is found under the addresses of a body. -/
def plan : Plan := ⟨d.depthAt, d.argumentsAt⟩

theorem plan_follows : d.plan.Follows 0 d.marks := by
  rintro ⟨b, m⟩ h
  simp only [plan, depthAt, argumentsAt, Mark.lookup_placed h, Option.map_some, Option.getD_some,
    and_self]

/-- There are no operands at the end of a body. -/
theorem depthAt_end : d.depthAt (Mark.sizeOf d.marks) = 0 := by
  rw [depthAt, Mark.lookup_end (Nat.zero_add _ ▸ Nat.le_refl _)]
  rfl

/-- There are no operands at its start. -/
theorem depthAt_zero : d.depthAt 0 = 0 :=
  d.plan_follows.start (Stmt.marksAll_starts d.body) (by rw [Nat.zero_add]; exact d.depthAt_end)

theorem depthAt_boundaries : ∀ b ∈ d.boundaries, d.depthAt b = 0 :=
  Stmt.depth_boundariesAll d.body d.plan_follows (by rw [Nat.zero_add]; exact d.depthAt_end)

end Decl

end Danmaku
