import Danmaku.Proofs.Compile.Balance
import Danmaku.Proofs.Safety.WellFormed

/-!
# The depth of the operand stack

Where a thread runs routines that are balanced by their declarations, the innermost body has at
every address as many operands as its declaration tells, on top of those that were there before it
was entered (`Catalog.Linked.size`). So no instruction takes an operand that is not its body's,
nothing is left behind by a loop or by a body that is run again, and the stack is full only where
the operands told do not fit (`Catalog.Linked.mayMiss`). Scripts are compiled to such routines
(`Build.script_balanced`), and this is how their ticks leave the stack
(`Build.script_tick_balanced`).
-/

namespace Danmaku

/-! ## Declarations of open bodies -/

/-- The declaration of an open body, that of the root being given. -/
def Catalog.declarationOf (K : Catalog) (source : String → Decl) (root : Decl) : Option Nat → Decl
  | none => root
  | some f => ((K.functions.keyAt? f).map source).getD default

/-- A routine is well formed, and balanced by a declaration. -/
structure Routine.BalancedBy (K : Catalog) (callable : Nat → Prop) (d : Decl) (r : Routine)
    (walk : List (Nat × Instr)) : Prop where
  wellFormed : r.WellFormed K walk
  balanced : ∀ x ∈ walk, x.2.Balanced K d.plan callable x.1
  ends : d.depthAt r.code.size = 0

/-- The functions that may be called are balanced by their declarations, and call only each
other. -/
def Catalog.Linked (K : Catalog) (source : String → Decl) (callable : Nat → Prop) : Prop :=
  ∀ root f r, callable f → K.function? f = some r →
    ∃ walk, r.BalancedBy K callable (K.declarationOf source root (some f)) walk

/-- Where the step is a call of a delegate, it has taken the arguments that it was handed, and left
one value. -/
def Catalog.TakesArguments (K : Catalog) (source : String → Decl) (root : Decl) (r : Routine)
    (t t' : Thread) : Prop :=
  ∀ index next, Instr.decode r.code.words t.ip = .ok (.callDelegate index, next) →
    t'.stack.size + (K.declarationOf source root (Frame.innermost? t.frames)).argumentsAt t.ip =
      t.stack.size + 1

/-- The configurations of a session of a root with a declaration, in which delegates take the
arguments that they are handed. -/
abbrev Catalog.SessionOf (K : Catalog) (source : String → Decl) (d : Decl) (root : Routine) :
    Nat → Config → Prop :=
  K.SessionWith (fun root' r t t' => root' = root → K.TakesArguments source d r t t') root

/-- Where there are no delegates, none takes other arguments. -/
theorem Catalog.grants_takesArguments {K : Catalog} {source : String → Decl} {d : Decl}
    {root : Routine} {n : Nat} {looping : Bool} (h : K.delegates.size = 0) :
    SessionWith.Grants K (fun root' r t t' => root' = root → K.TakesArguments source d r t t') root
      n looping := by
  rintro c c' flow r - hstep hr - index next hdecode
  have hrun := Program.running_of_innermost hr looping
  obtain rfl := (Instr.decode_inv hdecode).1
  rw [Program.step_standsAt hrun hdecode] at hstep
  simp only [Instr.execute, Exec.bind_eq_ok, Exec.ofExcept_eq_ok] at hstep
  obtain ⟨entry, _, ⟨hentry, -⟩, -⟩ := hstep
  split at hentry
  · next hat => exact absurd (Table.at?_lt hat) (by omega)
  · cases hentry

namespace Routine.BalancedBy

variable {K : Catalog} {callable : Nat → Prop} {d : Decl} {r : Routine} {walk : List (Nat × Instr)}
  {a next : Nat} {i : Instr}

/-- The operands that an instruction takes are there. -/
theorem takes_le (h : r.BalancedBy K callable d walk) (ha : r.code.Address walk a)
    (hi : Instr.decode r.code.words a = .ok (i, next)) :
    i.takesOf K (d.argumentsAt a) ≤ d.depthAt a := by
  obtain ⟨kept, htakes, -⟩ := h.balanced _ (h.wellFormed.mem ha hi)
  rw [show d.depthAt a = _ from htakes]
  exact Nat.le_add_left _ _

/-- Wherever an instruction leads there is what it leaves. -/
theorem leads (h : r.BalancedBy K callable d walk) (ha : r.code.Address walk a)
    (hi : Instr.decode r.code.words a = .ok (i, next)) {b : Nat} (hl : i.LeadsTo next b) :
    d.depthAt b + i.takesOf K (d.argumentsAt a) = d.depthAt a + i.gives := by
  obtain ⟨kept, htakes, hleads, -⟩ := h.balanced _ (h.wellFormed.mem ha hi)
  obtain rfl := (Instr.decode_inv hi).1
  rw [show d.depthAt a = kept + i.takesOf K (d.argumentsAt a) from htakes,
    show d.depthAt b = kept + i.gives from hleads b hl]
  omega

theorem callable_of_call (h : r.BalancedBy K callable d walk) (ha : r.code.Address walk a) {f : Nat}
    (hi : Instr.decode r.code.words a = .ok (.call f, next)) : callable f := by
  obtain ⟨kept, -, -, hcalls⟩ := h.balanced _ (h.wellFormed.mem ha hi)
  exact hcalls f rfl

theorem depth_of_size_le (h : r.BalancedBy K callable d walk) (ha : r.code.Address walk a)
    (hle : r.code.size ≤ a) : d.depthAt a = 0 := by
  rw [Nat.le_antisymm (ha.le_size h.wellFormed.walks) hle]
  exact h.ends

/-- It stays balanced when more is entered in the catalog. -/
theorem extend (h : r.BalancedBy K callable d walk) {K' : Catalog} (hK : K.Extends K') :
    r.BalancedBy K' callable d walk where
  wellFormed := ⟨h.wellFormed.walks, fun x hx =>
    (h.wellFormed.sound x hx).mono hK (Nat.le_refl _) fun _ => id⟩
  balanced x hx := (h.balanced x hx).extend (h.wellFormed.sound x hx) hK
  ends := h.ends

end Routine.BalancedBy

theorem Instr.takesOf_eq {c : Catalog} {n : Nat} {i : Instr} (h : ∀ d, i ≠ .callDelegate d) :
    i.takesOf c n = i.takes c := by
  cases i with
  | callDelegate d => exact absurd rfl (h d)
  | _ => rfl

theorem Instr.leadsTo_of_gives {i : Instr} {next : Nat} (h : i.gives = 1) :
    i.LeadsTo next next := by
  cases i with
  | pop | jump _ | branchIfZero _ | jumpBy _ | branchIfZeroBy _ | fire _ | fireWith _ _ | wait
  | ret =>
    cases h
  | _ => rfl

/-! ## Sessions -/

/-- A comparison of numbers of operands that does not depend on how many there are below. -/
structure Compares (R : Nat → Nat → Prop) : Prop where
  refl : ∀ n, R n n
  trans : ∀ {l m n}, R l m → R m n → R l n
  le : ∀ {m n}, R m n → m ≤ n
  add : ∀ {m n} k, R (m + k) (n + k) ↔ R m n

theorem compares_eq : Compares Eq :=
  ⟨fun _ => rfl, .trans, Nat.le_of_eq, fun _ => Nat.add_right_cancel_iff⟩

theorem compares_le : Compares (· ≤ ·) :=
  ⟨Nat.le_refl, Nat.le_trans, id, fun _ => Nat.add_le_add_iff_right⟩

/-- The operands on the stack of an open body compare with those that were there before it was
entered together with as many as its declaration tells; and there were at least `low` before. -/
def Catalog.DepthBy (K : Catalog) (source : String → Decl) (callable : Nat → Prop)
    (R : Nat → Nat → Prop) (low : Nat) (root : Decl) (who : Option Nat) (r : Routine)
    (base address size : Nat) : Prop :=
  ∃ walk, r.BalancedBy K callable (K.declarationOf source root who) walk ∧
    r.code.Address walk address ∧ low ≤ base ∧
      R (base + (K.declarationOf source root who).depthAt address) size

/-- What can be the matter with the operands when a step fails. -/
inductive Catalog.MayMiss (K : Catalog) (source : String → Decl) (root : Decl) (r : Routine)
    (t : Thread) (f : Fault) : Prop
  /-- A delegate is called, and fails. -/
  | delegate {next index : Nat} {entry : DelegateEntry} {s : Stack}
      (decode : Instr.decode r.code.words t.ip = .ok (.callDelegate index, next))
      (entry_eq : K.delegates.at? index = some entry)
      (run : entry.delegate.run t.stack = .error f s)
  /-- The operands of the innermost body do not fit, where it would go on. -/
  | room {i : Instr} {next : Nat} (decode : Instr.decode r.code.words t.ip = .ok (i, next))
      (fault : f = .stackOverflow t.stack.capacity)
      (full : t.stack.capacity < Frame.operandsBelow t.frames +
        (K.declarationOf source root (Frame.innermost? t.frames)).depthAt next)
  /-- The operands of the caller do not fit, where it would go on. -/
  | roomBelow {frame : Frame} {frames : List Frame} (frames_eq : t.frames = frame :: frames)
      (fault : f = .stackOverflow t.stack.capacity)
      (full : t.stack.capacity < Frame.operandsBelow frames +
        (K.declarationOf source root (Frame.innermost? frames)).depthAt frame.returnTo)
  /-- It is not for the operands. -/
  | other (not_underflow : f ≠ .stackUnderflow) (not_overflow : ∀ n, f ≠ .stackOverflow n)

namespace Catalog.Linked

variable {K : Catalog} {source : String → Decl} {callable : Nat → Prop} {d : Decl}
  {root r : Routine} {walk : List (Nat × Instr)} {n : Nat} {c c' : Config}

/-- Open bodies keep to their declarations by themselves, as far as delegates do. -/
theorem discipline (hK : K.Linked source callable) {R : Nat → Nat → Prop} (hR : Compares R)
    (low : Nat) {obeys : Routine → Thread → Thread → Prop}
    (hobeys : ∀ {r : Routine} {t t' : Thread} {index next : Nat}, obeys r t t' →
      Instr.decode r.code.words t.ip = .ok (.callDelegate index, next) →
      R (t.stack.size + 1) (t'.stack.size +
        (K.declarationOf source d (Frame.innermost? t.frames)).argumentsAt t.ip)) :
    K.Discipline obeys (K.DepthBy source callable R low d) where
  moves := by
    rintro p r base t t' i next rfl ⟨walk, hb, ha, hlow, hsize⟩ hdecode _ _ hmoves hobeyed
    obtain ⟨rfl, hsound, hnext⟩ := hb.wellFormed.read ha hdecode
    refine ⟨walk, hb, hsound.leadsTo hnext hmoves.leads, hlow, ?_⟩
    have htakes := hb.takes_le ha hdecode
    have hleads := hb.leads ha hdecode hmoves.leads
    by_cases hd : ∃ index, i = .callDelegate index
    · obtain ⟨index, rfl⟩ := hd
      have hgives := hobeys hobeyed hdecode
      simp only [Instr.takesOf, Instr.gives] at hleads htakes
      rw [← hR.add 1] at hsize
      rw [← hR.add, Nat.add_assoc, hleads]
      exact hR.trans hsize hgives
    · have hd' (index : Nat) : i ≠ .callDelegate index := fun h => hd ⟨index, h⟩
      rw [Instr.takesOf_eq hd'] at hleads htakes
      have hgives : t'.stack.size = t.stack.size - i.takes p.catalog + i.gives := hmoves.gives hd'
      have hle := hR.le hsize
      rw [← hR.add (i.takes p.catalog), Nat.add_assoc, hleads, ← Nat.add_assoc,
        show t'.stack.size + i.takes p.catalog = t.stack.size + i.gives by omega]
      exact (hR.add _).2 hsize
  call := by
    rintro who r callee base address size f next ⟨walk, hb, ha, hlow, hsize⟩ hdecode hcallee hle
    obtain ⟨rfl, -, hnext⟩ := hb.wellFormed.read ha hdecode
    have htakes := hb.takes_le ha hdecode
    have hleads := hb.leads ha hdecode (b := address + (Instr.call f).size) rfl
    simp only [Instr.takesOf, Instr.takes, Instr.gives, hcallee, Option.map_some,
      Option.getD_some] at htakes hleads
    have hbase := hR.le hsize
    obtain ⟨walk', hb'⟩ := hK d f callee (hb.callable_of_call ha hdecode) hcallee
    refine ⟨⟨walk, hb, hnext, hlow, ?_⟩, walk', hb', hb'.wellFormed.walks.address, by omega, ?_⟩
    · rw [← hR.add callee.parameterCount, Nat.add_assoc, hleads, ← Nat.add_assoc,
        show size - callee.parameterCount + 1 + callee.parameterCount = size + 1 by omega]
      exact (hR.add 1).2 hsize
    · rw [Decl.depthAt_zero, Nat.add_zero]
      exact hR.refl _
  back := by
    rintro who who' r r' base base' address address' size kept ⟨walk, hb, ha, -, hsize⟩ hat hQ
    have hbase := hR.le hsize
    have hle : base ≤ kept := by
      rcases hat with ⟨next, hdecode, rfl⟩ | ⟨hend, rfl⟩
      · have htakes := hb.takes_le ha hdecode
        simp only [Instr.takesOf, Instr.takes] at htakes
        omega
      · omega
    rwa [Nat.min_eq_right hle]
  stop := by
    rintro r address size ⟨walk, hb, ha, hlow, hsize⟩ hend
    refine ⟨walk, hb, hb.wellFormed.walks.address, hlow, ?_⟩
    rw [hb.depth_of_size_le ha hend] at hsize
    rwa [Decl.depthAt_zero]

theorem bodies (hK : K.Linked source callable) (hroot : root.BalancedBy K callable d walk)
    (h : K.SessionOf source d root n c) :
    K.Bodies (K.DepthBy source callable Eq 0 d) root c.thread.ip c.thread.stack.size
      c.thread.frames := by
  have hD : K.Discipline (fun r t t' => root = root → K.TakesArguments source d r t t')
      (K.DepthBy source callable Eq 0 d) :=
    hK.discipline compares_eq 0 fun hobeys hdecode => (hobeys rfl _ _ hdecode).symm
  refine hD.session h ⟨walk, hroot, hroot.wellFormed.walks.address, Nat.le_refl _, ?_⟩
  simp [declarationOf, Decl.depthAt_zero]

/-- **In a session the innermost body has as many operands as its declaration tells.** -/
theorem size (hK : K.Linked source callable) (hroot : root.BalancedBy K callable d walk)
    (h : K.SessionOf source d root n c) :
    c.thread.stack.size = Frame.operandsBelow c.thread.frames +
      (K.declarationOf source d (Frame.innermost? c.thread.frames)).depthAt c.thread.ip := by
  obtain ⟨r, -, walk, -, -, -, hsize⟩ := (hK.bodies hroot h).innermost
  exact hsize.symm

/-- **A step takes no operands that are not its body's.** -/
theorem takes_le (hK : K.Linked source callable) (hroot : root.BalancedBy K callable d walk)
    (h : K.SessionOf source d root n c) (hr : K.innermost? root c.thread = some r) {i : Instr}
    {next : Nat} (hdecode : Instr.decode r.code.words c.thread.ip = .ok (i, next)) :
    Frame.operandsBelow c.thread.frames + i.takesOf K
      ((K.declarationOf source d (Frame.innermost? c.thread.frames)).argumentsAt c.thread.ip) ≤
        c.thread.stack.size := by
  obtain ⟨r', hr', walk, hb, ha, -, hsize⟩ := (hK.bodies hroot h).innermost
  obtain rfl := Option.some.inj (hr.symm.trans hr')
  have := hb.takes_le ha hdecode
  omega

/-- The caller has its operands, and a value more, once the innermost body is left. -/
theorem room_of_frames (hK : K.Linked source callable) (hroot : root.BalancedBy K callable d walk)
    (h : K.SessionOf source d root n c) {frame : Frame} {frames : List Frame}
    (hframes : c.thread.frames = frame :: frames) :
    frame.stackBase + 1 = Frame.operandsBelow frames +
      (K.declarationOf source d (Frame.innermost? frames)).depthAt frame.returnTo := by
  have hbodies := hK.bodies hroot h
  rw [hframes] at hbodies
  obtain ⟨r, -, walk, -, -, -, hsize⟩ := Bodies.innermost (t := { c.thread with frames }) hbodies.2
  exact hsize.symm

/-- What goes wrong in an instruction of a body that has as many operands as its declaration
tells. -/
theorem mayMiss_of_fails {d' : Decl} {t : Thread} {i : Instr} {next : Nat} {looping : Bool}
    {f : Fault} (hd : K.declarationOf source d (Frame.innermost? t.frames) = d')
    (hb : r.BalancedBy K callable d' walk) (ha : r.code.Address walk t.ip)
    (hsize : t.stack.size = Frame.operandsBelow t.frames + d'.depthAt t.ip)
    (hdecode : Instr.decode r.code.words t.ip = .ok (i, next))
    (hcaller : ∀ frame frames, t.frames = frame :: frames → t.stack.capacity ≤ frame.stackBase →
      K.MayMiss source d r t (.stackOverflow t.stack.capacity))
    (hfails : i.Fails ⟨K, root.code, looping⟩ r.code.size { t with ip := next } f) :
    K.MayMiss source d r t f := by
  have htakes := hb.takes_le ha hdecode
  cases hfails with
  | few few =>
    have hle : i.takes K ≤ i.takesOf K (d'.argumentsAt t.ip) := by
      cases i with
      | callDelegate index => exact Nat.zero_le _
      | _ => exact Nat.le_refl _
    simp only at few
    omega
  | full own gives full =>
    have hleads := hb.leads ha hdecode (Instr.leadsTo_of_gives gives)
    rw [Instr.takesOf_eq own] at hleads htakes
    simp only at full
    exact .room hdecode rfl (by rw [hd]; omega)
  | returns frames_eq full => exact hcaller _ _ frames_eq full
  | property eq denied =>
    rcases denied with rfl | ⟨_, _, rfl⟩ | ⟨-, rfl⟩ <;> exact .other nofun nofun
  | delegate entry_eq run => exact .delegate hdecode entry_eq run
  | _ => exact .other nofun nofun

/-- **No step fails for want of operands**, and none for want of room, if the operands that are told
fit. -/
theorem mayMiss (hK : K.Linked source callable) (hroot : root.BalancedBy K callable d walk)
    (h : K.SessionOf source d root n c) (hr : K.innermost? root c.thread = some r) {looping : Bool}
    {f : Fault} (hstep : (⟨K, root.code, looping⟩ : Program).step c = .error f c') :
    K.MayMiss source d r c.thread f := by
  obtain ⟨r', hr', walk, hb, ha, -, hsize⟩ := (hK.bodies hroot h).innermost
  obtain rfl := Option.some.inj (hr.symm.trans hr')
  have hcaller (frame : Frame) (frames : List Frame) (hframes : c.thread.frames = frame :: frames)
      (hfull : c.thread.stack.capacity ≤ frame.stackBase) :
      K.MayMiss source d r c.thread (.stackOverflow c.thread.stack.capacity) :=
    .roomBelow hframes rfl (hK.room_of_frames hroot h hframes ▸ Nat.lt_succ_of_le hfull)
  rcases hb.wellFormed.fails ha hr hstep with
    ⟨i, next, hdecode, hfails⟩ | ⟨-, frame, frames, hframes, hfull, rfl⟩
  · exact mayMiss_of_fails rfl hb ha hsize.symm hdecode hcaller hfails
  · exact hcaller frame frames hframes hfull

end Catalog.Linked

/-! ## Scripts -/

theorem Catalog.Implements.balancedBy {K : Catalog} {callable : Nat → Prop} {d : Decl} {i : Nat}
    {r : Routine} (h : K.Implements d i r) (hsmall : K.Small) (hr : r.Small)
    (hcalls : K.Allows callable d.calls) : ∃ walk, r.BalancedBy K callable d walk := by
  obtain ⟨k, r₀, hmade, hfills, hd, rfl⟩ := h.compiled
  have hwell := Decl.compile_wellFormed hmade hfills.grows (hsmall.of_grows hfills.grows) hd
    ⟨hr.code, hr.variableCount⟩
  have hcalls' : k.Allows callable d.calls := fun name hname j hj =>
    hcalls name hname j ((hfills.names .function name).trans hj)
  obtain ⟨hbalanced, hends⟩ := Decl.compile_balanced hmade hfills.grows hd hcalls'
  exact ⟨_, ⟨hwell.walks, hwell.sound⟩, hbalanced, hends⟩

/-- The functions of the catalog that have names in a set. -/
def Catalog.CallableBy (K : Catalog) (S : RoutineKind → String → Prop) (f : Nat) : Prop :=
  ∃ name, S .function name ∧ K.functions.indexOf? name = some f

namespace Build

variable {b : Build} {s : Script} {K : Catalog} {S : RoutineKind → String → Prop}
  {kind : RoutineKind} {name : String} {i : Nat} {r root : Routine}

/-- Bodies that a script reports as compiled, and which call only functions among them, are balanced
by their declarations. -/
theorem script_linked (hK : (b.script s).2.catalog = K) (hmade : b.catalog.Made) (hsmall : K.Small)
    (hcompiled : ∀ kind name, S kind name → ∃ i r, (b.script s).1.indexOf? kind name = some i ∧
      (K.routines kind).at? i = some r ∧ r.Small)
    (hclosed : ∀ kind name, S kind name → ∀ g ∈ (s.declaration kind name).calls,
      K.functions.indexOf? g = none ∨ S .function g) :
    K.Linked s.function (K.CallableBy S) ∧
      ∀ kind name i r, S kind name → (b.script s).1.indexOf? kind name = some i →
        (K.routines kind).at? i = some r →
        ∃ walk, r.BalancedBy K (K.CallableBy S) (s.declaration kind name) walk := by
  subst hK
  have hbalanced : ∀ kind name i r, S kind name → (b.script s).1.indexOf? kind name = some i →
      ((b.script s).2.catalog.routines kind).at? i = some r →
      ∃ walk, r.BalancedBy (b.script s).2.catalog ((b.script s).2.catalog.CallableBy S)
        (s.declaration kind name) walk := by
    intro kind name i r hS hname hat
    obtain ⟨i', r', hname', hat', hr⟩ := hcompiled kind name hS
    obtain rfl := Option.some.inj (hname.symm.trans hname')
    obtain rfl := Option.some.inj (hat.symm.trans hat')
    refine (implements_declaration hmade hname hat).1.balancedBy hsmall hr fun g hg j hj => ?_
    rcases hclosed kind name hS g hg with hnone | hg
    · cases hnone.symm.trans hj
    · exact ⟨g, hg, hj⟩
  refine ⟨?_, hbalanced⟩
  rintro d f r ⟨name, hS, hindex⟩ hf
  obtain ⟨i, r', hname, hat, -⟩ := hcompiled .function name hS
  obtain ⟨-, hindex'⟩ := implements_declaration hmade hname hat
  obtain rfl := Option.some.inj (hindex.symm.trans hindex')
  obtain rfl := Option.some.inj (hf.symm.trans hat)
  rw [Catalog.declarationOf, Table.keyAt?_of_indexOf? hindex, Option.map_some, Option.getD_some]
  exact hbalanced .function name _ _ hS hname hat

/-- **Compiled code keeps a depth that can be told from the script.** In a session of scripts'
bodies which call only functions among them, and delegates that take the arguments that they are
handed, the innermost body has at each address as many operands as the marks of its declaration
say, and none between statements. Its instructions take none that are not its own; and a step fails
for want of room only if the operands that are told do not fit. -/
theorem script_balanced (hK : (b.script s).2.catalog = K) (hmade : b.catalog.Made)
    (hsmall : K.Small)
    (hcompiled : ∀ kind name, S kind name → ∃ i r, (b.script s).1.indexOf? kind name = some i ∧
      (K.routines kind).at? i = some r ∧ r.Small)
    (hclosed : ∀ kind name, S kind name → ∀ g ∈ (s.declaration kind name).calls,
      K.functions.indexOf? g = none ∨ S .function g)
    (hS : S kind name) (hname : (b.script s).1.indexOf? kind name = some i)
    (hroot : (K.routines kind).at? i = some root) {n : Nat} {c : Config}
    (hsession : K.SessionOf s.function (s.declaration kind name) root n c) :
    (∀ kind name, S kind name → ∀ a ∈ (s.declaration kind name).boundaries,
      (s.declaration kind name).depthAt a = 0) ∧
    (∀ kind name, S kind name → ∀ i r, (b.script s).1.indexOf? kind name = some i →
      (K.routines kind).at? i = some r → (s.declaration kind name).depthAt r.code.size = 0) ∧
    ∃ r, K.innermost? root c.thread = some r ∧
      c.thread.stack.size = Frame.operandsBelow c.thread.frames +
        (K.declarationOf s.function (s.declaration kind name)
          (Frame.innermost? c.thread.frames)).depthAt c.thread.ip ∧
      (∀ i next, Instr.decode r.code.words c.thread.ip = .ok (i, next) →
        Frame.operandsBelow c.thread.frames + i.takesOf K
          ((K.declarationOf s.function (s.declaration kind name)
            (Frame.innermost? c.thread.frames)).argumentsAt c.thread.ip) ≤ c.thread.stack.size) ∧
      ∀ looping f c', (⟨K, root.code, looping⟩ : Program).step c = .error f c' →
        K.MayMiss s.function (s.declaration kind name) r c.thread f := by
  obtain ⟨hlinked, hbalanced⟩ := script_linked hK hmade hsmall hcompiled hclosed
  obtain ⟨walk, hbalancedRoot⟩ := hbalanced kind name i root hS hname hroot
  obtain ⟨r, hr, -⟩ := (hlinked.bodies hbalancedRoot hsession).innermost
  refine ⟨fun kind name _ => Decl.depthAt_boundaries _, fun kind name hS i r hname hat => ?_, r, hr,
    hlinked.size hbalancedRoot hsession,
    fun i next hdecode => hlinked.takes_le hbalancedRoot hsession hr hdecode,
    fun looping f c' hstep => hlinked.mayMiss hbalancedRoot hsession hr hstep⟩
  obtain ⟨walk, hb⟩ := hbalanced kind name i r hS hname hat
  exact hb.ends

/-- **A tick leaves the operands that can be told from the script**, wherever the thread is after
it; or a step has failed for want of room for those that are told, or in a delegate, or not for the
operands. -/
theorem script_tick_balanced (hK : (b.script s).2.catalog = K) (hmade : b.catalog.Made)
    (hsmall : K.Small)
    (hcompiled : ∀ kind name, S kind name → ∃ i r, (b.script s).1.indexOf? kind name = some i ∧
      (K.routines kind).at? i = some r ∧ r.Small)
    (hclosed : ∀ kind name, S kind name → ∀ g ∈ (s.declaration kind name).calls,
      K.functions.indexOf? g = none ∨ S .function g)
    (hS : S kind name) (hname : (b.script s).1.indexOf? kind name = some i)
    (hroot : (K.routines kind).at? i = some root) {c c' : Config} {looping : Bool} {patience : Nat}
    {result : TickResult}
    (hsession : K.SessionOf s.function (s.declaration kind name) root root.variableCount c)
    (hdelegates : Catalog.SessionWith.Grants K (fun root' r t t' => root' = root →
      K.TakesArguments s.function (s.declaration kind name) r t t') root root.variableCount looping)
    (htick : K.tick kind i looping patience c = some (result, c')) :
    (c'.thread.stack.size = Frame.operandsBelow c'.thread.frames +
        (K.declarationOf s.function (s.declaration kind name)
          (Frame.innermost? c'.thread.frames)).depthAt c'.thread.ip ∧
      ∀ f, result = .error f → ∃ budget, f = .budgetExceeded budget) ∨
    ∃ c₀ r f, K.innermost? root c₀.thread = some r ∧ result = .error f ∧
      (⟨K, root.code, looping⟩ : Program).step c₀ = .error f c' ∧
      K.MayMiss s.function (s.declaration kind name) r c₀.thread f := by
  obtain ⟨hlinked, hbalanced⟩ := script_linked hK hmade hsmall hcompiled hclosed
  obtain ⟨walk, hbalancedRoot⟩ := hbalanced kind name i root hS hname hroot
  obtain ⟨hsession', hbudget⟩ | ⟨c₀, f, hsession₀, hstep, hresult⟩ :=
    hsession.outcome hdelegates hroot htick
  · exact .inl ⟨hlinked.size hbalancedRoot hsession', hbudget⟩
  · obtain ⟨r, hr, -⟩ := (hlinked.bodies hbalancedRoot hsession₀).innermost
    exact .inr ⟨c₀, r, f, hr, hresult, hstep, hlinked.mayMiss hbalancedRoot hsession₀ hr hstep⟩

/-- Inside the call in `Doubling.script` there is the operand that the action has left, and the one
that the function has; the other argument of its sum does not fit. -/
theorem doubling_balanced :
    (Doubling.config 4).thread.stack.size = 1 + (Doubling.script.function "double").depthAt 2 ∧
      Doubling.script.catalog.MayMiss Doubling.script.function
        (Doubling.script.declaration .action "main") Doubling.double (Doubling.config 4).thread
        (.stackOverflow 2) := by
  let S (kind : RoutineKind) (name : String) : Prop :=
    kind = .function ∧ name = "double" ∨ kind = .action ∧ name = "main"
  have hmain := Script.at?_main (s := Doubling.script) (by decide +kernel)
  have hcompiled : ∀ kind name, S kind name →
      ∃ i r, ((⟨{}, []⟩ : Build).script Doubling.script).1.indexOf? kind name = some i ∧
        (Doubling.script.catalog.routines kind).at? i = some r ∧ r.Small := by
    rintro kind name (⟨rfl, rfl⟩ | ⟨rfl, rfl⟩)
    · exact ⟨0, _, by decide +kernel, Doubling.at?_double,
        Doubling.allSmall.routines .function 0 _ Doubling.at?_double⟩
    · exact ⟨0, _, by decide +kernel, hmain, Doubling.allSmall.routines .action 0 _ hmain⟩
  have hclosed : ∀ kind name, S kind name → ∀ g ∈ (Doubling.script.declaration kind name).calls,
      Doubling.script.catalog.functions.indexOf? g = none ∨ S .function g := by
    rintro kind name (⟨rfl, rfl⟩ | ⟨rfl, rfl⟩) g hg
    · rw [show (Doubling.script.declaration .function "double").calls = [] by decide +kernel] at hg
      cases hg
    · rw [show (Doubling.script.declaration .action "main").calls = ["double"] by decide +kernel,
        List.mem_singleton] at hg
      exact .inr (.inl ⟨rfl, hg⟩)
  obtain ⟨-, -, r, hr, hsize, -, hmiss⟩ := script_balanced (b := ⟨{}, []⟩) (s := Doubling.script)
    rfl .empty Doubling.allSmall.toSmall hcompiled hclosed (.inr ⟨rfl, rfl⟩)
    (show ((⟨{}, []⟩ : Build).script Doubling.script).1.indexOf? .action "main" = some 0 by
      decide +kernel)
    hmain (Doubling.session (Catalog.grants_takesArguments (by decide +kernel)))
  obtain rfl := Option.some.inj (Doubling.config_four.2.2.symm.trans hr)
  exact ⟨hsize.trans (by decide +kernel), hmiss false _ _ Doubling.step_config_four⟩

end Build

end Danmaku
