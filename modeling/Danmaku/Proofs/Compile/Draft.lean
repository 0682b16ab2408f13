import Danmaku.Proofs.Code.Patching
import Danmaku.Proofs.Compile.Straight

/-!
# Drafts

The code of a statement is given as a whole, with every target in its place. A block can also be
written as it grows: a jump forward gets a zero for its operand, which is filled in once its target
has been reached (`Code.emitJump`, `Code.patchToHere`), and a loop fills in the operands that its
body has left open (`LoopJumps.resolve`). `Stmt.draft` writes statements like this. It keeps a log
of the operands of the jumps that it has written so and of the operands that it has filled in.

What a draft has grown by since some point is described by `Draft.Grown`: the code, and that what
has been filled in since has also been written since. The steps of writing extend it, one lemma for
each.
-/

namespace Danmaku

/-! ## Drafts -/

/-- Why writing stops. -/
inductive DraftError
  /-- Something is wrong with the statement. -/
  | compile (error : CompileError)
  /-- An operand was to be filled in that is not in the block. -/
  | patch (error : PatchError)

/-- A block that is being written. -/
structure Draft where
  /-- The block so far. -/
  block : Code
  /-- The open jumps of the loop around, if there is one. -/
  jumps? : Option LoopJumps
  /-- The scopes so far. -/
  scopes : ScopeStack
  /-- The operands of the jumps that were written without their targets. -/
  issued : List Nat := []
  /-- The operands that have been filled in. -/
  filled : List Nat := []

/-- The draft inside a loop that has no open jumps yet. -/
def Draft.inLoop (d : Draft) : Draft := { d with jumps? := some {} }

/-- A computation that writes on. -/
abbrev Drafting := EStateM DraftError Draft

namespace Drafting

/-- Write something that needs no patches. -/
def place (emit : ScopeStack → Emitted) : Drafting Unit := fun d =>
  let e := emit d.scopes
  let d := { d with block := d.block.append e.code.words, scopes := e.scopes }
  match e.error? with
  | none => .ok () d
  | some error => .error (.compile error) d

/-- Write a jump whose target is not known yet. The result is its operand. -/
def emitJump (opcode : Opcode) : Drafting Nat := fun d =>
  let (block, operand) := d.block.emitJump opcode
  .ok operand { d with block, issued := d.issued ++ [operand] }

/-- Fill in an operand with the address of the word written next. -/
def patchToHere (operand : Nat) : Drafting Unit := fun d =>
  match d.block.patchToHere operand with
  | .ok block => .ok () { d with block, filled := d.filled ++ [operand] }
  | .error error => .error (.patch error) d

/-- Fill in what the body of a loop has left open. -/
def resolve (jumps : LoopJumps) (exit next : Nat) : Drafting Unit := fun d =>
  match jumps.resolve d.block exit next with
  | .ok block => .ok () { d with
      block, filled := d.filled ++ (jumps.breaks ++ jumps.continues) }
  | .error error => .error (.patch error) d

/-- The address of the word written next. -/
def here : Drafting Nat := fun d => .ok d.block.size d

/-- Write a jump that the loop around is to fill in, if there is a loop. -/
def leaveOpen (note : LoopJumps → Nat → LoopJumps) (noLoop : CompileError) : Drafting Unit :=
  fun d =>
    match d.jumps? with
    | none => .error (.compile noLoop) d
    | some jumps =>
      let (block, operand) := d.block.emitJump .jump
      .ok () { d with
        block, jumps? := some (note jumps operand), issued := d.issued ++ [operand] }

/-- Write the body of a loop. The result is what it has left open. -/
def nested (body : Drafting Unit) : Drafting LoopJumps := fun d =>
  match body d.inLoop with
  | .ok _ d' => .ok (d'.jumps?.getD {}) { d' with jumps? := d.jumps? }
  | .error error d' => .error error { d' with jumps? := d.jumps? }

variable (c : Catalog)

/-- Write a condition and the branch that is taken if it is zero. -/
def branch (condition : Expr) : Drafting Nat := do
  place fun s => .ofExcept (condition.compile c s) [] s
  emitJump .branchIfZero

/-- Write the condition of a loop, if there is one. -/
def test (condition? : Option Expr) : Drafting (Option Nat) :=
  match condition? with
  | none => pure none
  | some condition => do
    let operand ← branch c condition
    return some operand

/-- Write the update of a loop, if there is one. -/
def update (update? : Option Expr) : Drafting Unit :=
  match update? with
  | none => pure ()
  | some e => place fun s => .ofExcept (e.compile c s) [.pop] s

/-- Let the branch out of a loop go to the address of the word written next. -/
def leave (operand? : Option Nat) : Drafting Unit :=
  match operand? with
  | none => pure ()
  | some operand => patchToHere operand

/-- Write the jump back to the start of a loop, and fill in the jumps out of the loop and on. -/
def close (start : Nat) (branch? : Option Nat) (jumps : LoopJumps) : Drafting Unit := do
  place fun s => .complete [.jump start] s
  let exit ← here
  leave branch?
  resolve jumps exit start

/-- Write a loop. -/
def loop (condition? update? : Option Expr) (body : Drafting Unit) : Drafting Unit := do
  let start ← here
  let branch? ← test c condition?
  update c update?
  let jumps ← nested body
  close start branch? jumps

end Drafting

namespace Stmt

open Drafting

mutual

/-- Write a statement at the end of a block. -/
def draft (c : Catalog) : Stmt → Drafting Unit
  | expr e _ => place fun s => .ofExcept (e.compile c s) [.pop] s
  | var decl _ => place fun s => decl.emit c s
  | ref name position => place fun s => (ref name position).emit c false 0 s
  | ret value? _ => place fun s => .ofExcept (Expr.compileOrZero c s value?) [.ret] s
  | wait ticks _ => place fun s => .ofExcept (ticks.compile c s) [.wait] s
  | fire request => place fun s => request.emit c s
  | leaveLoop position => leaveOpen LoopJumps.addBreak (.breakOutsideLoop position)
  | continueLoop position => leaveOpen LoopJumps.addContinue (.continueOutsideLoop position)
  | block body _ => draftAll c body
  | ifThen condition yes _ => do
    let skip ← branch c condition
    yes.draft c
    patchToHere skip
  | ifElse condition yes no _ => do
    let other ← branch c condition
    yes.draft c
    let last ← emitJump .jump
    patchToHere other
    no.draft c
    patchToHere last
  | whileLoop condition body _ => loop c (some condition) none (body.draft c)
  | forLoop init? condition? update? body _ => do
    place fun s => ForInit.emit c init? s
    loop c condition? update? (body.draft c)

/-- Write several statements in order. -/
def draftAll (c : Catalog) : List Stmt → Drafting Unit
  | [] => pure ()
  | stmt :: rest => do
    stmt.draft c
    draftAll c rest

end

end Stmt

/-! ## What is drafted is what is emitted -/

namespace Draft

/-- The draft with code added to it, and what has been done with its operands. -/
def add (d : Draft) (code : Fragment) (scopes : ScopeStack) (issued filled : List Nat) : Draft where
  block := d.block.append code.words
  jumps? := d.jumps?.map (code.openJumps d.block.size)
  scopes
  issued := d.issued ++ issued
  filled := d.filled ++ filled

/-- How writing ends. -/
def outcome (d : Draft) (error? : Option CompileError) : EStateM.Result DraftError Draft Unit :=
  match error? with
  | none => .ok () d
  | some error => .error (.compile error) d

variable (d : Draft) (code code' : Fragment) (s s' : ScopeStack)
  (issued filled issued' filled' : List Nat)

@[simp] theorem isSome_add : (d.add code s issued filled).jumps?.isSome = d.jumps?.isSome :=
  Option.isSome_map

@[simp] theorem size_add : (d.add code s issued filled).block.size = d.block.size + code.size := by
  rw [add, Code.size_append, Fragment.length_words]

@[simp] theorem add_add :
    (d.add code s issued filled).add code' s' issued' filled' =
      d.add (code ++ code') s' (issued ++ issued') (filled ++ filled') := by
  have hjumps (j : LoopJumps) := Fragment.openJumps_append code code' d.block.size j
  cases hd : d.jumps? <;> simp [add, hd, hjumps]

@[simp] theorem add_nil : d.add [] d.scopes [] [] = d := by
  obtain ⟨block, jumps?, scopes, issued, filled⟩ := d
  cases jumps? <;> simp [add, Fragment.words, Fragment.openJumps]

/-- In what has been added operands have been filled in, and as much is left open as before. -/
theorem add_patched {code' : Fragment}
    (h : ∀ j, code'.openJumps d.block.size j = code.openJumps d.block.size j) (more : List Nat) :
    { d.add code s issued filled with
      block := d.block.append code'.words, filled := d.filled ++ filled ++ more } =
      d.add code' s issued (filled ++ more) := by
  cases hd : d.jumps? <;> simp [add, hd, h]

end Draft

/-- A draft has grown by some code. The operands that have been filled in since are among those that
have been issued since, and so are those that the code leaves open and those that are still owed. -/
inductive Draft.Grown (d : Draft) (code : Fragment) (s : ScopeStack) (owed : List Nat) :
    Draft → Prop
  | intro {issued filled : List Nat} (filled_subset : filled ⊆ issued)
      (opened_subset : code.opened d.block.size ⊆ issued) (owed_subset : owed ⊆ issued)
      (own : ∀ a ∈ issued, d.block.size ≤ a) : Grown d code s owed (d.add code s issued filled)

/-- What comes of a draft is what is emitted. -/
def Draft.Gains (d : Draft) (r : EStateM.Result DraftError Draft Unit) (e : Emitted) : Prop :=
  ∃ d', r = d'.outcome e.error? ∧ d.Grown e.code e.scopes [] d'

/-- What is written is what is emitted, from every draft. -/
def Drafting.Writes (m : Drafting Unit) (emit : (inLoop : Bool) → Nat → ScopeStack → Emitted) :
    Prop :=
  ∀ d : Draft, d.Gains (m.run d) (emit d.jumps?.isSome d.block.size d.scopes)

namespace Draft

variable {d d₁ d₂ : Draft} {code code' : Fragment} {s s' : ScopeStack} {owed owed' : List Nat}
  {r : EStateM.Result DraftError Draft Unit} {e : Emitted}

namespace Grown

theorem refl (d : Draft) : d.Grown [] d.scopes [] d := by
  have h : d.Grown [] d.scopes [] (d.add [] d.scopes [] []) :=
    .intro (List.nil_subset _) (List.nil_subset _) (List.nil_subset _) nofun
  rwa [add_nil] at h

theorem size_eq (h : d.Grown code s owed d₁) : d₁.block.size = d.block.size + code.size := by
  cases h
  exact size_add ..

theorem block_eq (h : d.Grown code s owed d₁) : d₁.block = d.block.append code.words := by
  cases h
  rfl

theorem scopes_eq (h : d.Grown code s owed d₁) : d₁.scopes = s := by
  cases h
  rfl

theorem isSome_eq (h : d.Grown code s owed d₁) : d₁.jumps?.isSome = d.jumps?.isSome := by
  cases h
  exact isSome_add ..

theorem trans (h : d.Grown code s owed d₁) (h' : d₁.Grown code' s' owed' d₂) :
    d.Grown (code ++ code') s' (owed ++ owed') d₂ := by
  have hsize := h.size_eq
  cases h with
  | intro hfilled hopened howed hown =>
    cases h' with
    | intro hfilled' hopened' howed' hown' =>
      rw [add_add]
      refine .intro ?_ ?_ ?_ ?_
      · exact List.append_subset.2 ⟨List.subset_append_of_subset_left _ hfilled,
          List.subset_append_of_subset_right _ hfilled'⟩
      · intro x hx
        rcases Fragment.mem_opened_append.1 hx with hx | hx
        · exact List.mem_append_left _ (hopened hx)
        · exact List.mem_append_right _ (hopened' (hsize ▸ hx))
      · exact List.append_subset.2 ⟨List.subset_append_of_subset_left _ howed,
          List.subset_append_of_subset_right _ howed'⟩
      · intro x hx
        rcases List.mem_append.1 hx with hx | hx
        · exact hown x hx
        · exact (Nat.le_add_right _ _).trans (hsize ▸ hown' x hx)

theorem mono (h : d.Grown code s owed d₁) (hsub : owed' ⊆ owed) : d.Grown code s owed' d₁ := by
  cases h with
  | intro hfilled hopened howed hown =>
    exact .intro hfilled hopened (List.Subset.trans hsub howed) hown

/-- Operands that are owed are filled in, and as much is left open as before. -/
theorem patched (h : d.Grown code s owed d₁)
    (hjumps : ∀ j, code'.openJumps d.block.size j = code.openJumps d.block.size j)
    {more : List Nat} (hmore : more ⊆ owed) :
    d.Grown code' s owed
      { d₁ with block := d.block.append code'.words, filled := d₁.filled ++ more } := by
  cases h with
  | @intro issued filled hfilled hopened howed hown =>
    have hgrown : d.Grown code' s owed (d.add code' s issued (filled ++ more)) := by
      refine .intro (List.append_subset.2 ⟨hfilled, List.Subset.trans hmore howed⟩) ?_ howed hown
      rwa [Fragment.opened, hjumps]
    rwa [← add_patched d code s issued filled hjumps more] at hgrown

/-- What has been written in a loop, seen from outside the loop. -/
theorem close (h : d.inLoop.Grown code s owed d₁) :
    d₁.jumps? = some (code.openJumps d.block.size {}) ∧
      d.Grown (code.close 0 0) s (code.opened d.block.size) { d₁ with jumps? := d.jumps? } := by
  cases h with
  | @intro issued filled hfilled hopened howed hown =>
    refine ⟨rfl, ?_⟩
    have hgrown : d.Grown (code.close 0 0) s (code.opened d.block.size)
        (d.add (code.close 0 0) s issued filled) := by
      refine .intro hfilled ?_ hopened hown
      rw [Fragment.opened_close]
      exact List.nil_subset _
    have hadd : d.add (code.close 0 0) s issued filled =
        { d.inLoop.add code s issued filled with jumps? := d.jumps? } := by
      cases hd : d.jumps? <;> simp [add, inLoop, hd]
    rwa [hadd] at hgrown

/-- Nothing is owed any more. -/
theorem settle (h : d.Grown code s owed d₁) : d.Grown code s [] d₁ := h.mono (List.nil_subset _)

theorem gains (h : d.Grown code s owed d₁) : d.Gains (.ok () d₁) ⟨code, s, none⟩ :=
  ⟨d₁, rfl, h.settle⟩

/-- What is written next is written where the draft has come to. -/
theorem next {m : Drafting Unit} {emit : Bool → Nat → ScopeStack → Emitted}
    (h : d.Grown code s owed d₁) (hm : m.Writes emit) :
    d₁.Gains (m.run d₁) (emit d.jumps?.isSome (d.block.size + code.size) s) := by
  have hgains := hm d₁
  rwa [h.isSome_eq, h.size_eq, h.scopes_eq] at hgains

end Grown

theorem Gains.after (h : d.Grown code s owed d₁) (h' : d₁.Gains r e) :
    d.Gains r (e.after code) := by
  obtain ⟨d₂, hr, hgrown⟩ := h'
  exact ⟨d₂, hr, (h.trans hgrown).settle⟩

theorem gains_failed (d : Draft) (error : CompileError) :
    d.Gains (.error (.compile error) d) (.failed error d.scopes) :=
  ⟨d, rfl, .refl d⟩

end Draft

theorem map_openJumps_ofInstrs (code : List Instr) (a : Nat) (jumps? : Option LoopJumps) :
    jumps?.map ((Fragment.ofInstrs code).openJumps a) = jumps? := by
  cases jumps? <;> simp

namespace Drafting

section

variable {α β : Type} {m : Drafting α} {k : α → Drafting β} {d d' : Draft} {a : α}
  {error : DraftError}

theorem bind_of_ok (h : m.run d = .ok a d') : (m >>= k).run d = (k a).run d' := by
  rw [EStateM.run_bind, h]

theorem bind_of_error (h : m.run d = .error error d') : (m >>= k).run d = .error error d' := by
  rw [EStateM.run_bind, h]

end

variable {m m' : Drafting Unit} {emit emit' : Bool → Nat → ScopeStack → Emitted} {d d' : Draft}
  {e : Emitted} {c : Catalog} {s : ScopeStack} {owed : List Nat}

/-! ### Steps -/

theorem grown_ofInstrs (d : Draft) (code : List Instr) (s : ScopeStack) :
    d.Grown (.ofInstrs code) s [] (d.add (.ofInstrs code) s [] []) := by
  refine .intro (List.nil_subset _) ?_ (List.nil_subset _) nofun
  rw [Fragment.opened_ofInstrs]
  exact List.nil_subset _

/-- What needs no patches is added to the draft as it is. -/
theorem place_grown {emit : ScopeStack → Emitted} {code : List Instr}
    (hcode : (emit d.scopes).code = .ofInstrs code) :
    ∃ d', (place emit).run d = d'.outcome (emit d.scopes).error? ∧
      d.Grown (.ofInstrs code) (emit d.scopes).scopes [] d' := by
  refine ⟨_, ?_, grown_ofInstrs d code _⟩
  cases herror : (emit d.scopes).error? <;>
    simp [EStateM.run, place, Draft.add, Draft.outcome, hcode, herror, map_openJumps_ofInstrs]

theorem writes_place {emit : ScopeStack → Emitted} (h : ∀ s, (emit s).Straight) :
    Writes (place emit) fun _ _ s => emit s := by
  intro d
  obtain ⟨code, hcode⟩ := h d.scopes
  have hplace := place_grown hcode
  rwa [← hcode] at hplace

theorem place_complete {emit : ScopeStack → Emitted} {code : List Instr}
    (h : emit d.scopes = .complete code d.scopes) :
    ∃ d', (place emit).run d = .ok () d' ∧ d.Grown (.ofInstrs code) d.scopes [] d' := by
  have hcode : (emit d.scopes).code = .ofInstrs code := by rw [h, Emitted.complete]
  have hplace := place_grown hcode
  rwa [h] at hplace

theorem place_failed {emit : ScopeStack → Emitted} {error : CompileError}
    (h : emit d.scopes = .failed error d.scopes) :
    (place emit).run d = .error (.compile error) d := by
  simp [EStateM.run, place, h, Emitted.failed, Fragment.words]

/-- A jump without its target is added to the draft, which owes it its operand. -/
theorem emitJump_grown {op : Opcode} {instr : Nat → Instr}
    (hinstr : ∀ target, (instr target).words = [op.word, .ofNat target]) (d : Draft) :
    ∃ d', (emitJump op).run d = .ok (d.block.size + 1) d' ∧
      d.Grown (.ofInstrs [instr 0]) d.scopes [d.block.size + 1] d' := by
  have hwords : Fragment.words (.ofInstrs [instr 0]) = [op.word, 0] := by
    rw [Fragment.ofInstrs, List.map_singleton, Fragment.words_cons, Item.words, hinstr,
      Word.ofNat_zero]
    rfl
  refine ⟨d.add (.ofInstrs [instr 0]) d.scopes [d.block.size + 1] [], ?_, ?_⟩
  · simp [EStateM.run, emitJump, Code.emitJump_eq, Draft.add, hwords, map_openJumps_ofInstrs]
  · refine .intro (List.nil_subset _) ?_ (fun x hx => hx) ?_
    · rw [Fragment.opened_ofInstrs]
      exact List.nil_subset _
    · simp

theorem size_branch (test : List Instr) (target : Nat) :
    Fragment.size (.ofInstrs test ++ .ofInstrs [.branchIfZero target]) =
      Instr.sizeOf test + (Instr.branchIfZero 0).size := by
  rw [Fragment.size_append, Fragment.size_ofInstrs, Fragment.size_ofInstrs, Instr.sizeOf_cons]
  rfl

theorem branch_error {condition : Expr} {error : CompileError}
    (h : condition.compile c d.scopes = .error error) :
    (branch c condition).run d = .error (.compile error) d :=
  bind_of_error (place_failed (by rw [h]; rfl))

theorem branch_ok {condition : Expr} {test : List Instr}
    (h : condition.compile c d.scopes = .ok test) :
    ∃ d', (branch c condition).run d = .ok (d.block.size + Instr.sizeOf test + 1) d' ∧
      d.Grown (.ofInstrs test ++ .ofInstrs [.branchIfZero 0]) d.scopes
        [d.block.size + Instr.sizeOf test + 1] d' := by
  obtain ⟨d₁, hplace, h₁⟩ : ∃ d', (place fun s => .ofExcept (condition.compile c s) [] s).run d =
      .ok () d' ∧ d.Grown (.ofInstrs test) d.scopes [] d' :=
    place_complete (by rw [h, Emitted.ofExcept, List.append_nil])
  obtain ⟨d₂, hjump, h₂⟩ := emitJump_grown Instr.words_branchIfZero d₁
  rw [h₁.size_eq, h₁.scopes_eq, Fragment.size_ofInstrs] at h₂
  rw [h₁.size_eq, Fragment.size_ofInstrs] at hjump
  exact ⟨d₂, (bind_of_ok hplace).trans hjump, h₁.trans h₂⟩

/-- **An operand that is owed is filled in.** -/
theorem patchToHere_grown {op : Word} {instr : Nat → Instr}
    (hinstr : ∀ target, (instr target).words = [op, .ofNat target]) {before after : Fragment}
    (h : d.Grown (before ++ (.ofInstrs [instr 0] ++ after)) s owed d')
    (howed : d.block.size + before.size + 1 ∈ owed) :
    ∃ d'', (patchToHere (d.block.size + before.size + 1)).run d' = .ok () d'' ∧
      d.Grown (before ++ (.ofInstrs [instr d'.block.size] ++ after)) s owed d'' := by
  have hsize (target : Nat) : (instr target).size = (instr 0).size := by
    rw [← Instr.length_words, ← Instr.length_words, hinstr, hinstr]
    simp only [List.length_cons, List.length_nil]
  have hwords (target : Nat) :
      Fragment.words (before ++ (.ofInstrs [instr target] ++ after)) =
        before.words ++ ((instr target).words ++ after.words) := by
    rw [Fragment.words_append, Fragment.words_append, Fragment.words_ofInstrs,
      List.flatMap_singleton]
  have hjumps (target : Nat) (j : LoopJumps) :
      Fragment.openJumps (before ++ (.ofInstrs [instr target] ++ after)) d.block.size j =
        Fragment.openJumps (before ++ (.ofInstrs [instr 0] ++ after)) d.block.size j := by
    simp only [Fragment.openJumps_append, Fragment.openJumps_ofInstrs, Fragment.size_ofInstrs,
      Instr.sizeOf_cons, hsize target]
  have hpatch := d.block.patch_target before.words after.words hinstr 0 d'.block.size
  rw [Fragment.length_words, ← hwords, ← hwords, ← h.block_eq] at hpatch
  have hfill : d'.block.patchToHere (d.block.size + before.size + 1) = .ok _ := hpatch
  refine ⟨_, by rw [EStateM.run, patchToHere, hfill], ?_⟩
  exact h.patched (hjumps _) (List.cons_subset.2 ⟨howed, List.nil_subset _⟩)

end Drafting

end Danmaku
