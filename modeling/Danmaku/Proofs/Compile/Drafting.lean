import Danmaku.Proofs.Compile.Draft

/-!
# What is drafted is what is emitted

A statement that is written with patches comes to the same as one whose code is given as a whole
(`Stmt.writes_draft`): the block, the scopes and the open jumps are those of `Stmt.emit`, also where
compilation stops. And every operand that is filled in is one that has been written since, so none
is looked for outside the block.
-/

namespace Danmaku

namespace Drafting

variable {m m' : Drafting Unit} {emit emit' : Bool → Nat → ScopeStack → Emitted} {d d' : Draft}
  {e : Emitted} {c : Catalog} {s : ScopeStack} {owed : List Nat}

/-! ### Statements -/

/-- What is written next comes after what has been written, unless that failed. -/
theorem gains_andThen (h : d.Gains (m.run d) e) (h' : m'.Writes emit') :
    d.Gains ((m >>= fun _ => m').run d) (e.andThen d.block.size (emit' d.jumps?.isSome)) := by
  obtain ⟨d₁, hm, h₁⟩ := h
  obtain ⟨code, s, error?⟩ := e
  cases error? with
  | some error => exact ⟨d₁, bind_of_error hm, h₁⟩
  | none =>
    rw [bind_of_ok hm]
    exact (h₁.next h').after h₁

theorem writes_pure : Writes (pure ()) fun _ _ s => .complete [] s :=
  fun d => (Draft.Grown.refl d).gains

/-- A jump that the loop around is to fill in. -/
theorem writes_leaveOpen {note : LoopJumps → Nat → LoopJumps} {item : Item} (noLoop : CompileError)
    (hwords : item.words = (Instr.jump 0).words)
    (hnote : ∀ a j, Fragment.openJumps [item] a j = note j (a + 1))
    (hoperands : ∀ a, (note {} a).operands = [a]) :
    Writes (leaveOpen note noLoop) fun inLoop _ s =>
      if inLoop then ⟨[item], s, none⟩ else .failed noLoop s := by
  intro d
  beta_reduce
  cases hd : d.jumps? with
  | none =>
    rw [EStateM.run, leaveOpen, hd]
    exact d.gains_failed noLoop
  | some jumps =>
    have hgrown : d.Grown [item] d.scopes [] (d.add [item] d.scopes [d.block.size + 1] []) := by
      refine .intro (List.nil_subset _) ?_ (List.nil_subset _) (by simp)
      rw [Fragment.opened, hnote, hoperands]
      exact fun x hx => hx
    refine ⟨_, ?_, hgrown⟩
    simp [EStateM.run, leaveOpen, hd, Code.emitJump_eq, Draft.outcome, Draft.add, hnote,
      Fragment.words, hwords, Instr.words_jump, Word.ofNat_zero]

/-- A branch that is owed its target gets it after what it skips, unless that fails. -/
theorem gains_patch {op : Word} {instr : Nat → Instr}
    (hinstr : ∀ target, (instr target).words = [op, .ofNat target]) {before : Fragment} {d₁ : Draft}
    (h : d.Grown (before ++ .ofInstrs [instr 0]) s owed d₁)
    (howed : d.block.size + before.size + 1 ∈ owed) (hm : d₁.Gains (m.run d₁) e) :
    d.Gains ((m >>= fun _ => patchToHere (d.block.size + before.size + 1)).run d₁)
      (e.after (before ++ .ofInstrs [instr (if e.error?.isSome then 0
        else d.block.size + before.size + (instr 0).size + e.code.size)])) := by
  obtain ⟨d₂, hm, h₂⟩ := hm
  obtain ⟨code, s', error?⟩ := e
  have hgrown := h.trans h₂
  cases error? with
  | some error => exact ⟨d₂, bind_of_error hm, hgrown.settle⟩
  | none =>
    rw [List.append_assoc] at hgrown
    obtain ⟨d₃, hpatch, h₃⟩ := patchToHere_grown hinstr hgrown (List.mem_append_left _ howed)
    have hhere : d₂.block.size = d.block.size + before.size + (instr 0).size + code.size := by
      rw [hgrown.size_eq]
      simp only [Fragment.size_append, Fragment.size_ofInstrs, Instr.sizeOf_cons,
        Instr.sizeOf_nil, Nat.add_zero, Nat.add_assoc]
    rw [hhere] at h₃
    refine ⟨d₃, (bind_of_ok hm).trans hpatch, ?_⟩
    rw [← List.append_assoc] at h₃
    exact h₃.settle

theorem writes_ifThen {condition : Expr} {yes : Drafting Unit}
    {emitYes : Bool → Nat → ScopeStack → Emitted} (hyes : Writes yes emitYes) :
    Writes (do let skip ← branch c condition; yes; patchToHere skip) fun inLoop a s =>
      emitIf c condition (emitYes inLoop) a s := by
  intro d
  beta_reduce
  simp only [emitIf]
  cases htest : condition.compile c d.scopes with
  | error error =>
    rw [bind_of_error (branch_error htest)]
    exact d.gains_failed error
  | ok test =>
    obtain ⟨d₁, hbranch, h₁⟩ := branch_ok htest
    have hyes := h₁.next hyes
    rw [size_branch, ← Nat.add_assoc] at hyes
    rw [bind_of_ok hbranch]
    have hgains := gains_patch Instr.words_branchIfZero h₁ (by simp) hyes
    rwa [Fragment.size_ofInstrs, ← Fragment.ofInstrs_append] at hgains

/-- The other of two statements, once the first has been written. -/
theorem gains_else {test : List Instr} {code : Fragment} {no : Drafting Unit}
    {emitNo : Bool → Nat → ScopeStack → Emitted} {other : Nat}
    (hother : d.block.size + Instr.sizeOf test + (Instr.branchIfZero 0).size + code.size +
      (Instr.jump 0).size = other)
    (h : d.Grown (.ofInstrs test ++ .ofInstrs [.branchIfZero 0] ++ code) s
      [d.block.size + Instr.sizeOf test + 1] d')
    (hno : Writes no emitNo) :
    d.Gains ((do
        let last ← emitJump .jump
        patchToHere (d.block.size + Instr.sizeOf test + 1)
        no
        patchToHere last).run d')
      ((emitNo d.jumps?.isSome other s).after
        (.ofInstrs (test ++ [.branchIfZero other]) ++ code ++ .ofInstrs [.jump
          (if (emitNo d.jumps?.isSome other s).error?.isSome then 0
            else other + (emitNo d.jumps?.isSome other s).code.size)])) := by
  -- the first branch keeps its size as it gets its target
  have hsize : Fragment.size (.ofInstrs test ++ .ofInstrs [.branchIfZero 0] ++ code) =
      Fragment.size (.ofInstrs (test ++ [.branchIfZero other]) ++ code) := by
    simp [Nat.add_assoc]
  have hend : d.block.size + Fragment.size (.ofInstrs (test ++ [.branchIfZero other]) ++ code) +
      (Instr.jump 0).size = other := by
    rw [← hsize, ← hother, Fragment.size_append, size_branch, ← Nat.add_assoc, ← Nat.add_assoc]
  obtain ⟨d₁, hjump, h₁⟩ := emitJump_grown Instr.words_jump d'
  rw [h.size_eq, hsize] at hjump h₁
  rw [h.scopes_eq] at h₁
  have hgrown := h.trans h₁
  have hother : d₁.block.size = other := by
    rw [hgrown.size_eq, Fragment.size_append, hsize, ← Nat.add_assoc]
    exact hend
  rw [List.append_assoc, List.append_assoc] at hgrown
  obtain ⟨d₂, hpatch, h₂⟩ := patchToHere_grown Instr.words_branchIfZero hgrown (by simp)
  rw [hother, ← List.append_assoc, ← List.append_assoc, ← Fragment.ofInstrs_append] at h₂
  rw [Fragment.size_ofInstrs] at hpatch
  have hno := h₂.next hno
  rw [Fragment.size_append, Fragment.size_ofInstrs [.jump 0], ← Nat.add_assoc,
    show d.block.size + _ + Instr.sizeOf [.jump 0] = other from hend] at hno
  have hgains := gains_patch Instr.words_jump h₂ (by simp) hno
  rw [hend] at hgains
  rw [bind_of_ok hjump, bind_of_ok hpatch]
  exact hgains

theorem writes_ifElse {condition : Expr} {yes no : Drafting Unit}
    {emitYes emitNo : Bool → Nat → ScopeStack → Emitted} (hyes : Writes yes emitYes)
    (hno : Writes no emitNo) :
    Writes (do
        let skip ← branch c condition
        yes
        let last ← emitJump .jump
        patchToHere skip
        no
        patchToHere last) fun inLoop a s =>
      emitIfElse c condition (emitYes inLoop) (emitNo inLoop) a s := by
  intro d
  beta_reduce
  simp only [emitIfElse]
  cases htest : condition.compile c d.scopes with
  | error error =>
    rw [bind_of_error (branch_error htest)]
    exact d.gains_failed error
  | ok test =>
    obtain ⟨d₁, hbranch, h₁⟩ := branch_ok htest
    have hyes := h₁.next hyes
    rw [size_branch, ← Nat.add_assoc] at hyes
    rw [bind_of_ok hbranch]
    simp only
    generalize emitYes d.jumps?.isSome
      (d.block.size + Instr.sizeOf test + (Instr.branchIfZero 0).size) d.scopes = yes at hyes ⊢
    obtain ⟨d₂, hyes, h₂⟩ := hyes
    have hgrown := h₁.trans h₂
    obtain ⟨code, s, error?⟩ := yes
    cases error? with
    | some error =>
      rw [bind_of_error hyes]
      refine ⟨d₂, rfl, ?_⟩
      rw [← Fragment.ofInstrs_append] at hgrown
      exact hgrown.settle
    | none =>
      rw [bind_of_ok hyes]
      exact gains_else rfl hgrown hno

/-! ### Loops -/

theorem test_error {condition? : Option Expr} {error : CompileError}
    (h : loopTest c d.scopes condition? = .error error) :
    (test c condition?).run d = .error (.compile error) d := by
  cases condition? with
  | none => cases h
  | some condition => exact bind_of_error (branch_error (map_eq_error.1 h))

/-- A loop's condition is added to the draft. Its branch can be given its target later on. -/
theorem test_ok {condition? : Option Expr} {code : Nat → List Instr}
    (h : loopTest c d.scopes condition? = .ok code) :
    ∃ branch? d₁, (test c condition?).run d = .ok branch? d₁ ∧
      d.Grown (.ofInstrs (code 0)) d.scopes branch?.toList d₁ ∧
      ∀ {after s owed d'}, d.Grown (.ofInstrs (code 0) ++ after) s owed d' →
        branch?.toList ⊆ owed → ∃ d'', (leave branch?).run d' = .ok () d'' ∧
          d.Grown (.ofInstrs (code d'.block.size) ++ after) s owed d'' := by
  cases condition? with
  | none =>
    obtain rfl := Except.ok.inj h
    exact ⟨none, d, rfl, .refl d, fun hgrown _ => ⟨_, rfl, hgrown⟩⟩
  | some condition =>
    obtain ⟨test, hcompile, rfl⟩ := map_eq_ok.1 h
    obtain ⟨d₁, hbranch, h₁⟩ := branch_ok hcompile
    refine ⟨some (d.block.size + Instr.sizeOf test + 1), d₁, ?_, ?_, ?_⟩
    · exact bind_of_ok hbranch
    · rw [Fragment.ofInstrs_append]
      exact h₁
    · intro after s owed d' hgrown howed
      rw [Fragment.ofInstrs_append, List.append_assoc] at hgrown ⊢
      have howed : d.block.size + Fragment.size (.ofInstrs test) + 1 ∈ owed := by
        rw [Fragment.size_ofInstrs]
        exact howed List.mem_cons_self
      obtain ⟨d₂, hpatch, h₂⟩ := patchToHere_grown Instr.words_branchIfZero hgrown howed
      rw [Fragment.size_ofInstrs] at hpatch
      exact ⟨d₂, hpatch, h₂⟩

theorem update_error {update? : Option Expr} {error : CompileError}
    (h : loopUpdate c d.scopes update? = .error error) :
    (update c update?).run d = .error (.compile error) d := by
  cases update? with
  | none => cases h
  | some e => exact place_failed (by rw [map_eq_error.1 h]; rfl)

theorem update_ok {update? : Option Expr} {code : List Instr}
    (h : loopUpdate c d.scopes update? = .ok code) :
    ∃ d₁, (update c update?).run d = .ok () d₁ ∧ d.Grown (.ofInstrs code) d.scopes [] d₁ := by
  cases update? with
  | none =>
    obtain rfl := Except.ok.inj h
    exact ⟨d, rfl, .refl d⟩
  | some e =>
    obtain ⟨code, hcompile, rfl⟩ := map_eq_ok.1 h
    exact place_complete (by rw [hcompile, Emitted.ofExcept])

/-- The body of a loop is added to the draft, which owes it what it leaves open. -/
theorem nested_ok {body : Drafting Unit} {code : Fragment}
    (h : d.inLoop.Gains (body.run d.inLoop) ⟨code, s, none⟩) :
    ∃ d₁, (nested body).run d = .ok (code.openJumps d.block.size {}) d₁ ∧
      d.Grown (code.close 0 0) s (code.opened d.block.size) d₁ := by
  obtain ⟨d₁, hbody, hgrown⟩ := h
  obtain ⟨hjumps, hclosed⟩ := hgrown.close
  refine ⟨_, ?_, hclosed⟩
  rw [EStateM.run] at hbody
  rw [EStateM.run, nested, hbody]
  simp only [Draft.outcome, hjumps, Option.getD_some]

theorem nested_error {body : Drafting Unit} {code : Fragment} {error : CompileError}
    (h : d.inLoop.Gains (body.run d.inLoop) ⟨code, s, some error⟩) :
    ∃ d₁, (nested body).run d = .error (.compile error) d₁ ∧
      d.Grown (code.close 0 0) s [] d₁ := by
  obtain ⟨d₁, hbody, hgrown⟩ := h
  refine ⟨_, ?_, hgrown.close.2.settle⟩
  rw [EStateM.run] at hbody
  rw [EStateM.run, nested, hbody]
  rfl

/-- **What the body of a loop leaves open is filled in.** -/
theorem resolve_grown {before after body : Fragment}
    (h : d.Grown (before ++ (body.close 0 0 ++ after)) s owed d')
    (howed : body.opened (d.block.size + before.size) ⊆ owed) (exit next : Nat) :
    ∃ d'', (resolve (body.openJumps (d.block.size + before.size) {}) exit next).run d' =
        .ok () d'' ∧ d.Grown (before ++ (body.close exit next ++ after)) s owed d'' := by
  have hfill := Fragment.resolve_openJumps d.block before.words after.words body exit next
  have hwords (exit next : Nat) : before.words ++ ((body.close exit next).words ++ after.words) =
      Fragment.words (before ++ (body.close exit next ++ after)) := by
    simp
  have hzero : before.words ++ (body.words ++ after.words) =
      Fragment.words (before ++ (body.close 0 0 ++ after)) := by
    simp
  have hjumps (exit next : Nat) (j : LoopJumps) :
      Fragment.openJumps (before ++ (body.close exit next ++ after)) d.block.size j =
        Fragment.openJumps (before ++ (body.close 0 0 ++ after)) d.block.size j := by
    simp only [Fragment.openJumps_append, Fragment.openJumps_close, Fragment.size_close]
  rw [Fragment.length_words, hzero, hwords, ← h.block_eq] at hfill
  refine ⟨_, by rw [EStateM.run, resolve, hfill], ?_⟩
  exact h.patched (hjumps _ _) howed

/-- What a loop ends with, once its condition, its update and its body are there. -/
theorem close_grown {start exit : Nat} {branch? : Option Nat} {test : Nat → List Instr}
    {update : List Instr} {body : Fragment} {a : Nat}
    (h : d.Grown (.ofInstrs (test 0) ++ (.ofInstrs update ++ body.close 0 0)) s owed d')
    (hsize : ∀ exit, Instr.sizeOf (test exit) = Instr.sizeOf (test 0))
    (ha : a = d.block.size + Instr.sizeOf (test 0) + Instr.sizeOf update)
    (hexit : exit = a + body.size + (Instr.jump start).size)
    (hleave : ∀ {after s owed d'}, d.Grown (.ofInstrs (test 0) ++ after) s owed d' →
      branch?.toList ⊆ owed → ∃ d'', (leave branch?).run d' = .ok () d'' ∧
        d.Grown (.ofInstrs (test d'.block.size) ++ after) s owed d'')
    (hbranch : branch?.toList ⊆ owed) (hbody : body.opened a ⊆ owed) :
    ∃ d'', (close start branch? (body.openJumps a {})).run d' = .ok () d'' ∧
      d.Grown (.ofInstrs (test exit ++ update) ++ body.close exit start ++ .ofInstrs [.jump start])
        s owed d'' := by
  obtain ⟨d₁, hjump, h₁⟩ : ∃ d₁, (place fun s => .complete [.jump start] s).run d' = .ok () d₁ ∧
      d'.Grown (.ofInstrs [.jump start]) d'.scopes [] d₁ :=
    place_complete rfl
  have hhere : here.run d₁ = .ok exit d₁ := by
    have : d₁.block.size = exit := by
      rw [h₁.size_eq, h.size_eq, hexit, ha]
      simp [Nat.add_assoc]
    rw [← this]
    rfl
  have hgrown := h.trans h₁
  rw [h.scopes_eq, List.append_nil, List.append_assoc, List.append_assoc] at hgrown
  obtain ⟨d₂, hleave, h₂⟩ := hleave hgrown hbranch
  have hexit : d₁.block.size = exit := (EStateM.Result.ok.inj hhere).1
  rw [hexit, ← List.append_assoc, ← Fragment.ofInstrs_append] at h₂
  have hbefore : d.block.size + Fragment.size (.ofInstrs (test exit ++ update)) = a := by
    rw [Fragment.size_ofInstrs, Instr.sizeOf_append, hsize, ha, Nat.add_assoc]
  obtain ⟨d₃, hresolve, h₃⟩ := resolve_grown h₂ (by rwa [hbefore]) exit start
  rw [hbefore] at hresolve
  rw [close, bind_of_ok hjump, bind_of_ok hhere, bind_of_ok hleave]
  refine ⟨d₃, hresolve, ?_⟩
  rwa [List.append_assoc]

theorem writes_loop {condition? update? : Option Expr} {body : Drafting Unit}
    {emitBody : Bool → Nat → ScopeStack → Emitted} (hbody : Writes body emitBody) :
    Writes (loop c condition? update? body) fun _ a s =>
      emitLoop c condition? update? (emitBody true) a s := by
  intro d
  beta_reduce
  simp only [emitLoop]
  have hhere : here.run d = .ok d.block.size d := rfl
  rw [loop, bind_of_ok hhere]
  cases htest : loopTest c d.scopes condition? with
  | error error =>
    rw [bind_of_error (test_error htest)]
    exact d.gains_failed error
  | ok test =>
    obtain ⟨branch?, d₁, hrun₁, h₁, hleave⟩ := test_ok htest
    rw [bind_of_ok hrun₁]
    simp only
    cases hupdate : loopUpdate c d.scopes update? with
    | error error =>
      rw [← h₁.scopes_eq] at hupdate
      rw [bind_of_error (update_error hupdate)]
      exact ⟨d₁, rfl, h₁.settle⟩
    | ok update =>
      rw [← h₁.scopes_eq] at hupdate
      obtain ⟨d₂, hrun₂, h₂⟩ := update_ok hupdate
      rw [h₁.scopes_eq] at h₂
      rw [bind_of_ok hrun₂]
      have hstart : d₂.block.size = d.block.size + Instr.sizeOf (test 0) + Instr.sizeOf update := by
        rw [h₂.size_eq, h₁.size_eq, Fragment.size_ofInstrs, Fragment.size_ofInstrs]
      have hbody : d₂.inLoop.Gains (body.run d₂.inLoop)
          (emitBody true d₂.block.size d₂.scopes) := hbody d₂.inLoop
      rw [hstart, h₂.scopes_eq] at hbody
      simp only
      generalize emitBody true (d.block.size + Instr.sizeOf (test 0) + Instr.sizeOf update)
        d.scopes = e at hbody ⊢
      obtain ⟨code, s, error?⟩ := e
      cases error? with
      | some error =>
        obtain ⟨d₃, hrun₃, h₃⟩ := nested_error hbody
        rw [bind_of_error hrun₃]
        refine ⟨d₃, rfl, ?_⟩
        have hgrown := (h₁.trans h₂).trans h₃
        rw [← Fragment.ofInstrs_append] at hgrown
        exact hgrown.settle
      | none =>
        obtain ⟨d₃, hrun₃, h₃⟩ := nested_ok hbody
        have hgrown := h₁.trans (h₂.trans h₃)
        obtain ⟨d₄, hrun₄, h₄⟩ := close_grown hgrown (sizeOf_loopTest htest) hstart rfl hleave
          (by simp) (by simp)
        rw [hstart] at h₄
        rw [bind_of_ok hrun₃, hrun₄]
        exact h₄.gains

end Drafting

namespace Stmt

open Drafting

variable (c : Catalog)

mutual

/-- **What is drafted is what is emitted**, statement by statement. -/
theorem writes_draft : (stmt : Stmt) → Writes (stmt.draft c) (stmt.emit c)
  | expr _ _ => by
    rw [draft]
    exact writes_place fun _ => Emitted.straight_ofExcept
  | var decl _ => by
    rw [draft]
    exact writes_place fun _ => decl.straight_emit
  | ref name _ => by
    rw [draft]
    refine writes_place fun s => ?_
    rw [emit]
    split
    · exact Emitted.straight_failed _ _
    · exact Emitted.straight_complete _ _
  | ret _ _ => by
    rw [draft]
    exact writes_place fun _ => Emitted.straight_ofExcept
  | leaveLoop position => by
    rw [draft]
    exact writes_leaveOpen _ rfl (fun _ _ => rfl) fun _ => rfl
  | continueLoop position => by
    rw [draft]
    exact writes_leaveOpen _ rfl (fun _ _ => rfl) fun _ => rfl
  | block body _ => by
    rw [draft]
    exact writes_draftAll body
  | ifThen condition yes _ => by
    rw [draft]
    exact writes_ifThen yes.writes_draft
  | ifElse condition yes no _ => by
    rw [draft]
    exact writes_ifElse yes.writes_draft no.writes_draft
  | whileLoop condition body _ => by
    rw [draft]
    exact writes_loop body.writes_draft
  | forLoop init? condition? update? body _ => by
    rw [draft]
    intro d
    exact gains_andThen (writes_place (fun _ => ForInit.straight_emit init?) d)
      (writes_loop body.writes_draft)
  | wait _ _ => by
    rw [draft]
    exact writes_place fun _ => Emitted.straight_ofExcept
  | fire request => by
    rw [draft]
    exact writes_place fun _ => request.straight_emit

theorem writes_draftAll : (stmts : List Stmt) →
    Writes (draftAll c stmts) fun inLoop a s => emitAll c inLoop stmts a s
  | [] => writes_pure
  | stmt :: rest => by
    rw [draftAll]
    intro d
    exact gains_andThen (stmt.writes_draft d) (writes_draftAll rest)

end

end Stmt

end Danmaku
