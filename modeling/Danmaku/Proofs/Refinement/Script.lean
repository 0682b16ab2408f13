import Danmaku.Proofs.Compile.Accounts
import Danmaku.Proofs.Refinement.Call

/-!
# Calls in scripts

A host compiles its scripts one after another, and each may call the functions of earlier ones
(`Catalog.Supplied`, `Build.script_supplied`). In a session, a call expression that the innermost
body is about to evaluate is evaluated as function application (`Catalog.Supplied.call_refines`):
the arguments come from left to right, the body of the function runs with variables of its own, and
the caller goes on after the call with one value more and all else as it was. Only an exceeded limit
ends this early. Without a budget the ticks of a host do the same (`Catalog.Calling.ticks`).
-/

namespace Danmaku

/-- A thread has gone on to an address, with one value more, and has the same calls open; of the
variables only those of the innermost body may have changed, which are so many. -/
structure Thread.Pushed (t : Thread) (count address : Nat) (v : Word) (t' : Thread) : Prop where
  ip : t'.ip = address
  frames : t'.frames = t.frames
  stack : t'.stack = { t.stack with values := t.stack.values.push v }
  extent : t'.rootExtent = t.rootExtent
  slots : ∀ i, i < t.rootExtent ∨ t.top ≤ i → (∀ j < count, i ≠ t.window.1 + j) →
    t'.slots[i]? = t.slots[i]?

/-- The run from a configuration evaluates an expression, unless a limit is exceeded: it comes to an
address with the value on top of the stack, or faults as the expression does. -/
def Program.Evaluates (p : Program) (names locals : List String) (patience : Nat) (c : Config)
    (address : Nat) (result : EStateM.Result Halt World Word) : Prop :=
  ∃ steps r, p.Plays names steps ⟨c, []⟩ r ∧
    ((∃ fault r', p.advance names r = .over (.error fault) r' ∧ fault.IsLimit) ∨
      match result with
      | .ok v w => r.Shows locals w ∧ c.thread.Pushed locals.length address v r.config.thread
      | .error (.fault fault) w => Faults p names fault w r
      | .error .patience w => patience ≤ steps ∧ r.log = w.log)

/-- Tick after tick from a configuration evaluates an expression, unless a limit is exceeded. What
comes of the ticks after the expression, which starts at a configuration with the value on top of
the stack, comes of all of them; or they come to the fault of the expression. -/
def Program.EvaluatesInTicks (p : Program) (locals : List String) (c : Config) (address : Nat)
    (result : EStateM.Result Halt World Word) : Prop :=
  (∃ fault c', fault.IsLimit ∧ p.ComesTo c (.error fault, c')) ∨
    match result with
    | .ok v w => ∃ r : Recording, r.Shows locals w ∧
        c.thread.Pushed locals.length address v r.config.thread ∧
        ∀ final, p.ComesTo r.config final → p.ComesTo c final
    | .error (.fault fault) w => ∃ c', c'.entity = w.entity ∧ p.ComesTo c (.error fault, c')
    | .error .patience _ => True

/-- A thread that does not wait, and has no budget, evaluates in ticks what it evaluates. -/
theorem Program.Evaluates.inTicks {p : Program} {names locals : List String} {patience : Nat}
    {c : Config} {address : Nat} {result : EStateM.Result Halt World Word}
    (h : p.Evaluates names locals patience c address result)
    (hbudget : c.thread.limits.budget = none) (hmode : c.thread.mode = .ready) :
    p.EvaluatesInTicks locals c address result := by
  obtain ⟨steps, r, hplays, ⟨fault, r', hover, hlimit⟩ | hresult⟩ := h
  · exact .inl ⟨fault, r'.config, hlimit, hplays.ticks hover hbudget hmode⟩
  · refine .inr ?_
    split at hresult
    · exact ⟨r, hresult.1, hresult.2, fun final => hplays.comesTo hbudget hmode⟩
    · obtain ⟨r', hover, -, hentity⟩ := hresult
      exact ⟨r'.config, hentity, hplays.ticks hover hbudget hmode⟩
    · trivial

theorem Program.Leads.plays_or {p : Program} {names : List String} {excuse : Fault → Prop}
    {goal : Recording → Prop} {n : Nat} {r : Recording} (h : p.Leads names excuse goal n r) :
    ∃ m r', p.Plays names m r r' ∧
      ((∃ fault r'', p.advance names r' = .over (.error fault) r'' ∧ excuse fault) ∨
        (n ≤ m ∧ goal r')) := by
  induction h with
  | here reached => exact ⟨0, _, .refl _, .inr ⟨Nat.le_refl _, reached⟩⟩
  | step first rest le ih =>
    obtain ⟨m, r', hplays, hgoal⟩ := ih
    exact ⟨m + 1, r', .step first hplays, hgoal.imp_right fun h => ⟨by omega, h.2⟩⟩
  | excused last he => exact ⟨0, _, .refl _, .inl ⟨_, _, last, he⟩⟩

variable {p : Program} {names : List String} {K : Catalog} {root caller : Routine} {c : Config}
  {n a : Nat} {v : Word} {w : World}

/-! ## The innermost body -/

/-- The innermost body of a thread under way. -/
def Activation.ofThread (caller : Routine) (t : Thread) : Activation where
  code := caller.code
  names := caller.numbers
  frames := t.frames
  base := t.window.1
  capacity := t.stack.capacity
  claimed? := some t.rootExtent
  slots := t.slots
  keeps i := (i < t.rootExtent ∨ t.top ≤ i) ∧ ∀ j < caller.numbers.length, i ≠ t.window.1 + j
  lastReturn := t.lastReturn

theorem Program.namesOf_of_innermost {looping : Bool} {t : Thread}
    (h : K.innermost? root t = some caller) :
    (⟨K, root.code, looping⟩ : Program).namesOf root.numbers t = caller.numbers := by
  rw [Catalog.innermost?] at h
  rw [namesOf]
  cases hframes : t.frames with
  | nil =>
    rw [hframes] at h
    rw [Option.some.inj h]
  | cons f frames =>
    simp only [hframes] at h
    simp only [h, Option.map_some, Option.getD_some]

namespace Activation

theorem ofThread_proper {looping : Bool} (hcaller : K.innermost? root c.thread = some caller)
    (hnodup : caller.numbers.Nodup) (h : c.thread.Layered K root.variableCount) :
    (ofThread caller c.thread).Proper ⟨K, root.code, looping⟩ root.numbers where
  running t ht := Program.running_of_innermost (by rwa [Catalog.innermost?, ht]) _
  namesOf t ht := Program.namesOf_of_innermost (by rwa [Catalog.innermost?, ht])
  slot t ht hsize i hi := by
    have hwindow : t.window = c.thread.window := by rw [Thread.window, ht, hsize]; rfl
    have hlt := Nat.lt_of_lt_of_le hi (h.innermost hcaller).1
    simp only [Thread.slot, hwindow]
    exact if_pos hlt
  nodup := hnodup
  claimed hframes n hn := by
    obtain rfl := Option.some.inj hn
    rw [Catalog.innermost?, show c.thread.frames = [] from hframes] at hcaller
    obtain rfl := Option.some.inj hcaller
    exact h.claimed
  free i hi hkeeps := hkeeps.2 i hi rfl

theorem ofThread_layered (hcaller : K.innermost? root c.thread = some caller)
    (h : c.thread.Layered K root.variableCount) :
    (ofThread caller c.thread).Layered c.thread.rootExtent where
  claimed := rfl
  le := h.nested.top_le_size
  own i hi := by
    have := (h.innermost hcaller).2.2 i hi
    rwa [Thread.top_eq] at this
  kept i hi := by
    have := hi.1
    rwa [Thread.top_eq] at this

theorem ofThread_holds (hcaller : K.innermost? root c.thread = some caller)
    (hnodup : caller.numbers.Nodup) (h : c.thread.Layered K root.variableCount) :
    (ofThread caller c.thread).Holds c.thread.ip c.thread.stack.values.toList
      (World.ofConfig caller.numbers c) ⟨c, []⟩ where
  ip := rfl
  frames := rfl
  stack := rfl
  claimed _ hn := Option.some.inj hn
  size := rfl
  kept _ _ := rfl
  values := (Recording.shows_ofConfig hnodup (h.innermost hcaller).2.1).values
  entity := rfl
  log := rfl
  lastReturn := rfl

theorem Holds.pushed {r : Recording}
    (hr : (ofThread caller c.thread).Holds a (c.thread.stack.values.toList ++ [v]) w r) :
    r.Shows caller.numbers w ∧ c.thread.Pushed caller.variableCount a v r.config.thread := by
  have hwindow : r.config.thread.window.1 = c.thread.window.1 := by
    rw [Thread.window, Thread.window, hr.frames]
    cases hframes : c.thread.frames <;> simp only [ofThread, hframes]
  refine ⟨⟨fun i name hi => ?_, hr.entity, hr.log⟩, hr.ip, hr.frames, ?_, hr.claimed _ rfl,
    fun i hi hne => hr.kept i ⟨hi, hne⟩⟩
  · rw [hwindow]
    exact hr.values i name hi
  · rw [hr.stack, ofThread]
    exact congrArg _ (Array.toList_inj.1 (by simp))

/-- An expression is evaluated where the machine does what its meaning does. -/
theorem evaluates_of_meets {m : Eval Word} {patience : Nat}
    (h : Meets p names Fault.IsLimit m (World.ofConfig caller.numbers c) ⟨c, []⟩ patience
      fun v w r =>
        (ofThread caller c.thread).Holds a (c.thread.stack.values.toList ++ [v]) w r) :
    p.Evaluates names caller.numbers patience c a (m (World.ofConfig caller.numbers c)) := by
  rw [Meets] at h
  split at h
  · next v w hm =>
    rw [hm]
    obtain ⟨steps, r', hplays, hend⟩ := h.plays_or
    exact ⟨steps, r', hplays, hend.imp_right fun h => h.2.pushed⟩
  · next fault w hm =>
    rw [hm]
    obtain ⟨steps, r', hplays, hend⟩ := h.plays_or
    exact ⟨steps, r', hplays, hend.imp_right And.right⟩
  · next w hm =>
    rw [hm]
    obtain ⟨steps, r', hplays, hend⟩ := h.plays_or
    exact ⟨steps, r', hplays, hend⟩

end Activation

/-! ## Scripts -/

/-- The functions with some names were given to the catalog by scripts, perhaps by several, one
after another, and besides routines nothing was entered since. They have declarations which tell
that they call only each other, and those that one calls were entered when it was compiled. -/
def Catalog.Supplied (K : Catalog) (source : String → Decl) (S : String → Prop) : Prop :=
  ∀ name, S name → ∃ b s i r, Build.Provides b s K name i r ∧ (b.script s).2.catalog.Grows K ∧
    s.function name = source name ∧
    ∀ g ∈ (source name).calls, S g ∧ ((b.script s).2.catalog.functions.indexOf? g).isSome

variable {source : String → Decl} {S T : String → Prop} {b : Build} {s : Script}

/-- **A script adds its functions to those of earlier scripts**, which they may call. -/
theorem Build.script_supplied (hmade : b.catalog.Made) (hsmall : (b.script s).2.catalog.AllSmall)
    (hold : b.catalog.Supplied source S)
    (hnew : ∀ name, T name → ((b.script s).1.indexOf? .function name).isSome ∧
      s.function name = source name ∧ ∀ g ∈ (source name).calls, S g ∨ T g) :
    (b.script s).2.catalog.Supplied source fun name => S name ∨ T name := by
  have hentered : ∀ name, S name ∨ T name →
      ((b.script s).2.catalog.functions.indexOf? name).isSome := by
    rintro name (hname | hname)
    · obtain ⟨b₀, s₀, i, r, h, hgrows, -⟩ := hold name hname
      obtain ⟨-, hi⟩ := implements_declaration h.made h.compiled h.code
      exact Option.isSome_iff_exists.2
        ⟨i, ((hgrows.trans (script_grows b s)).routines .function).index name i hi⟩
    · obtain ⟨i, hi⟩ := Option.isSome_iff_exists.1 (hnew name hname).1
      obtain ⟨d, r, -, hkind, rfl, himp⟩ := script_implements hmade hi
      exact Option.isSome_iff_exists.2 ⟨i, (Table.lookup?_eq_some.1 (hkind ▸ himp.found)).1⟩
  rintro name (hname | hname)
  · obtain ⟨b₀, s₀, i, r, h, hgrows, hsource, hcalls⟩ := hold name hname
    have hgrows' := hgrows.trans (script_grows b s)
    have hkept : (b.script s).2.catalog.function? i = some r :=
      (b.script_keeps s).at? (show (b.catalog.routines .function).at? i = some r from h.kept)
    exact ⟨b₀, s₀, i, r, { h with extended := hgrows'.extends, kept := hkept }, hgrows', hsource,
      fun g hg => ⟨.inl (hcalls g hg).1, (hcalls g hg).2⟩⟩
  · obtain ⟨hi, hsource, hcalls⟩ := hnew name hname
    obtain ⟨i, hi⟩ := Option.isSome_iff_exists.1 hi
    obtain ⟨d, r, -, hkind, rfl, himp⟩ := script_implements hmade hi
    have hat : (b.script s).2.catalog.function? i = some r :=
      (Table.lookup?_eq_some.1 (hkind ▸ himp.found)).2
    exact ⟨b, s, i, r, ⟨hmade, hsmall.toSmall, hi, hat, hsmall.routines .function i r hat,
      (Catalog.Grows.refl _).extends, hat⟩, .refl _, hsource,
      fun g hg => ⟨hcalls g hg, hentered g (hcalls g hg)⟩⟩

namespace Catalog.Supplied

/-- Such functions have been compiled from their declarations. -/
theorem closed (h : K.Supplied source S) : K.Closed source S where
  function name hname := by
    obtain ⟨b, s, i, r, hprovides, hgrows, hsource, hcalls⟩ := h name hname
    obtain ⟨d, r', hd, hkind, rfl, himp⟩ :=
      Build.script_implements hprovides.made hprovides.compiled
    rw [Script.function, Script.declaration, hd, Option.getD_some] at hsource
    rw [← hsource] at hcalls ⊢
    obtain ⟨hindex, hat⟩ := Table.lookup?_eq_some.1 (hkind ▸ himp.found)
    obtain rfl := Option.some.inj (hprovides.code.symm.trans hat)
    obtain ⟨k, r₀, hmade, hfills, hcompile, hr⟩ := himp.compiled
    refine ⟨rfl, i, r, ?_, hprovides.routine_small, k, r₀, hmade,
      hprovides.small.of_grows hfills.grows, hfills.grows.trans hgrows, fun g hg => ?_, hcompile,
      hr⟩
    · exact Table.lookup?_eq_some.2
        ⟨(hgrows.routines .function).index _ i hindex, hprovides.kept⟩
    · exact hfills.names .function g ▸ (hcalls g hg).2
  calls name hname g hg := by
    obtain ⟨_, _, _, _, -, -, -, hcalls⟩ := h name hname
    exact (hcalls g hg).1

end Catalog.Supplied

/-- In a session the innermost body is about to evaluate a call of a function that scripts supplied.
The call was compiled when the catalog may have had less in it. -/
structure Catalog.Calling (K : Catalog) (source : String → Decl) (S : String → Prop)
    (root caller : Routine) (c : Config) (k : Catalog) (f : Ident) (arguments : List Expr)
    (position : Position) (code : List Instr) : Prop where
  supplied : K.Supplied source S
  session : K.Session root root.variableCount c
  innermost : K.innermost? root c.thread = some caller
  nodup : caller.numbers.Nodup
  made : k.Made
  grows : k.Grows K
  compiled : ∃ scopes : ScopeStack, scopes.numbers <+: caller.numbers ∧
    (Expr.call f arguments position).compile k scopes = .ok code
  stands : Instr.AllStand caller.code.words c.thread.ip code
  entered : ∀ g ∈ (Expr.call f arguments position).calls, S g ∧ (k.functions.indexOf? g).isSome

namespace Catalog.Calling

variable {k : Catalog} {f : Ident} {arguments : List Expr} {position : Position}
  {code : List Instr}

/-- The machine evaluates the call as the expression means. -/
theorem evaluates (h : K.Calling source S root caller c k f arguments position code)
    (looping : Bool) (patience : Nat) :
    (⟨K, root.code, looping⟩ : Program).Evaluates root.numbers caller.numbers patience c
      (c.thread.ip + Instr.sizeOf code)
      ((Expr.call f arguments position).eval K.types (K.apply source patience)
        (World.ofConfig caller.numbers c)) := by
  have hlayered := h.session.layered
  have hproper :
      (Activation.ofThread caller c.thread).Proper ⟨K, root.code, looping⟩ root.numbers :=
    Activation.ofThread_proper h.innermost h.nodup hlayered
  have hA : (Activation.ofThread caller c.thread).Hosts ⟨K, root.code, looping⟩ root.numbers
      Fault.IsLimit k (K.apply source patience) patience
      fun g => S g ∧ (k.functions.indexOf? g).isSome :=
    ⟨hproper, h.made, h.grows, fun g position args ops i a w r hg hc hi hr =>
      Catalog.Closed.apply_meets h.supplied.closed hproper
        (Activation.ofThread_layered h.innermost hlayered) h.grows hg.1 hg.2 hc hi hr⟩
  obtain ⟨scopes, hscopes, hcode⟩ := h.compiled
  have hne : code ≠ [] := by
    simp only [Expr.compile, bind_eq_ok, pure_eq_ok] at hcode
    obtain ⟨i, -, args, -, rfl⟩ := hcode
    exact List.append_ne_nil_of_right_ne_nil _ (List.cons_ne_nil _ _)
  exact Activation.evaluates_of_meets (Expr.meets hA hcode hscopes h.entered h.stands
    (h.stands.le_size hne) (fun _ => trivial)
    (Activation.ofThread_holds h.innermost h.nodup hlayered))

/-- **So do the ticks of a host**, if they have no budget. -/
theorem ticks (h : K.Calling source S root caller c k f arguments position code)
    (hbudget : c.thread.limits.budget = none) (hmode : c.thread.mode = .ready) (looping : Bool)
    (patience : Nat) :
    (⟨K, root.code, looping⟩ : Program).EvaluatesInTicks caller.numbers c
      (c.thread.ip + Instr.sizeOf code)
      ((Expr.call f arguments position).eval K.types (K.apply source patience)
        (World.ofConfig caller.numbers c)) :=
  (h.evaluates looping patience).inTicks hbudget hmode

end Catalog.Calling

/-- **Calls are function application.** Where the innermost body, compiled from a script, is about
to evaluate a call of a function that a script supplied, the machine does what the expression means.
The call may have been compiled when the catalog had less in it. -/
theorem Catalog.Supplied.call_refines (hK : K.Supplied source S)
    (hsession : K.Session root root.variableCount c)
    (hcaller : K.innermost? root c.thread = some caller)
    (hmade : b.catalog.Made) {kind : RoutineKind} {name : String} {i : Nat}
    (hname : (b.script s).1.indexOf? kind name = some i)
    (hat : ((b.script s).2.catalog.routines kind).at? i = some caller)
    {k : Catalog} (hk : k.Made) (hgrows : k.Grows K)
    {f : Ident} {arguments : List Expr} {position : Position} {scopes : ScopeStack}
    {code : List Instr} (hcode : (Expr.call f arguments position).compile k scopes = .ok code)
    (hscopes : scopes.numbers <+: caller.numbers)
    (hstand : Instr.AllStand caller.code.words c.thread.ip code)
    (hcalls : ∀ g ∈ (Expr.call f arguments position).calls,
      S g ∧ (k.functions.indexOf? g).isSome) (looping : Bool) (patience : Nat) :
    (⟨K, root.code, looping⟩ : Program).Evaluates root.numbers caller.numbers patience c
      (c.thread.ip + Instr.sizeOf code)
      ((Expr.call f arguments position).eval K.types (K.apply source patience)
        (World.ofConfig caller.numbers c)) := by
  have hnodup : caller.numbers.Nodup := by
    obtain ⟨himp, -⟩ := Build.implements_declaration hmade hname hat
    obtain ⟨k, r₀, -, -, hd, rfl⟩ := himp.compiled
    exact (Decl.compile_names hd).2.1
  have hcalling : K.Calling source S root caller c k f arguments position code :=
    ⟨hK, hsession, hcaller, hnodup, hk, hgrows, ⟨scopes, hscopes, hcode⟩, hstand, hcalls⟩
  exact hcalling.evaluates looping patience

/-! ## A script that calls functions of another -/

namespace Relay

/-- What the script `echo` leaves behind. -/
def before : Build := ((⟨{}, []⟩ : Build).script .echo).2

/-- A function that calls `echo` twice, and an action that calls it. -/
def script : Script where
  declarations :=
    [{ kind := .function
       name := ⟨"twice", .nowhere⟩
       parameters := ["x"]
       body := [.ret (some (.call ⟨"echo", .nowhere⟩
         [.call ⟨"echo", .nowhere⟩ [.var "x" .nowhere] .nowhere] .nowhere)) .nowhere]
       position := .nowhere },
     { kind := .action
       name := ⟨"relay", .nowhere⟩
       parameters := []
       body := [.expr (.call ⟨"twice", .nowhere⟩ [.num 3 .nowhere] .nowhere) .nowhere]
       position := .nowhere }]

/-- The catalog of both scripts. -/
def catalog : Catalog := (before.script script).2.catalog

/-- The declarations of both functions. -/
def declared (name : String) : Decl :=
  if name = "twice" then script.function name else Script.echo.function name

/-- The action. -/
def action : Routine := (catalog.actions.at? 1).getD default

theorem at?_action : catalog.actions.at? 1 = some action :=
  (Option.getD_of_ne_none (Option.isSome_iff_ne_none.1 (by decide +kernel)) default).symm

theorem allSmall : catalog.AllSmall := by decide +kernel

theorem supplied : catalog.Supplied declared fun name => name = "echo" ∨ name = "twice" := by
  have hecho : before.catalog.Supplied declared fun name => False ∨ name = "echo" := by
    refine Build.script_supplied (S := fun _ => False) .empty Script.echo_allSmall
      (fun _ h => h.elim) ?_
    rintro _ rfl
    exact ⟨by decide +kernel, rfl, by decide +kernel⟩
  simp only [false_or] at hecho
  refine Build.script_supplied (T := (· = "twice")) (Build.script_made .empty) allSmall hecho ?_
  rintro _ rfl
  exact ⟨by decide +kernel, rfl, by decide +kernel⟩

theorem twice_refines :
    (⟨catalog, action.code, false⟩ : Program).Evaluates action.numbers action.numbers 9
      ⟨.ofLimits {}, ⟨0, #[]⟩, #[]⟩
      ((Thread.ofLimits {}).ip + Instr.sizeOf [.push 3, .call 1])
      ((Expr.call ⟨"twice", .nowhere⟩ [.num 3 .nowhere] .nowhere).eval catalog.types
        (catalog.apply declared 9) (World.ofConfig action.numbers ⟨.ofLimits {}, ⟨0, #[]⟩, #[]⟩)) :=
  supplied.call_refines (b := before) (s := script) (.fresh _ _ (by decide +kernel)) rfl
    (Build.script_made .empty)
    (show (before.script script).1.indexOf? .action "relay" = some 1 by decide +kernel)
    at?_action (Build.script_made (Build.script_made .empty)) (.refl _)
    (show (Expr.call ⟨"twice", .nowhere⟩ [.num 3 .nowhere] .nowhere).compile catalog [] =
      .ok [.push 3, .call 1] by decide +kernel)
    List.nil_prefix
    (Instr.allStand_cons.2 ⟨by unfold Instr.StandsAt; decide +kernel,
      Instr.allStand_cons.2 ⟨by unfold Instr.StandsAt; decide +kernel, Instr.allStand_nil _ _⟩⟩)
    (by
      rw [show (Expr.call ⟨"twice", .nowhere⟩ [.num 3 .nowhere] .nowhere).calls = ["twice"] by
        decide +kernel]
      exact List.forall_mem_singleton.2 ⟨.inr rfl, by decide +kernel⟩) false 9

end Relay

end Danmaku
