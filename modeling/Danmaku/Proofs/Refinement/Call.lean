import Danmaku.Proofs.Compile.Script
import Danmaku.Proofs.Machine.Session
import Danmaku.Proofs.Refinement.Body

/-!
# Calls refined

A call opens an activation below that of its caller (`Activation.inner`), whose variables are the
parameters with the arguments, and zeros. Its body runs there as it means, and when it is left the
caller finds everything as it was, and the value on top. So functions that only call each other do
what `Catalog.apply` says, however deep they recur (`Catalog.Closed.apply_meets`): by induction on
the patience, one round of which is one level of calls.
-/

namespace Danmaku

/-! ## Arguments -/

section Arguments

variable {parameters : List String} {args : List Word} {name : String} {i : Nat}

theorem getElem?_bindArguments (hlength : args.length = parameters.length)
    (hnodup : parameters.Nodup) (h : parameters[i]? = some name) :
    args[i]? = some (bindArguments parameters args name) := by
  induction parameters generalizing args i with
  | nil => cases h
  | cons parameter parameters ih =>
    cases args with
    | nil => cases hlength
    | cons arg args =>
      obtain ⟨hnot, hnodup⟩ := List.nodup_cons.1 hnodup
      cases i with
      | zero =>
        obtain rfl := Option.some.inj h
        rw [bindArguments, if_pos rfl, List.getElem?_cons_zero]
      | succ i =>
        rw [List.getElem?_cons_succ] at h ⊢
        have hne : parameter ≠ name := by
          rintro rfl
          exact hnot (List.mem_of_getElem? h)
        rw [bindArguments, if_neg hne]
        exact ih (Nat.succ.inj hlength) hnodup h

theorem bindArguments_of_not_mem (h : name ∉ parameters) :
    bindArguments parameters args name = 0 := by
  induction parameters generalizing args with
  | nil => rfl
  | cons parameter parameters ih =>
    cases args with
    | nil => rfl
    | cons arg args =>
      obtain ⟨hne, hnot⟩ := List.ne_and_not_mem_of_not_mem_cons h
      rw [bindArguments, if_neg (Ne.symm hne)]
      exact ih hnot

/-- The slots of a call hold what its variables mean: first the arguments, and then zeros. -/
theorem getElem?_locals {numbers : List String} (hlength : args.length = parameters.length)
    (hnodup : numbers.Nodup) (hpre : parameters <+: numbers) (h : numbers[i]? = some name) :
    (args ++ List.replicate (numbers.length - args.length) 0)[i]? =
      some (bindArguments parameters args name) := by
  obtain ⟨rest, rfl⟩ := hpre
  have hsplit := List.nodup_append.1 hnodup
  obtain ⟨hlt, hget⟩ := List.getElem?_eq_some_iff.1 h
  by_cases hi : i < parameters.length
  · rw [List.getElem?_append_left (by omega)]
    rw [List.getElem?_append_left hi] at h
    exact getElem?_bindArguments hlength hsplit.1 h
  · rw [List.getElem?_append_right (by omega), List.getElem?_replicate, if_pos (by omega),
      bindArguments_of_not_mem]
    rw [List.getElem?_append_right (by omega)] at h
    exact fun hmem => hsplit.2.2 name hmem name (List.mem_of_getElem? h) rfl

end Arguments

/-! ## The activation of a call -/

variable {p : Program} {names : List String} {A : Activation} {k : Catalog}
  {source : String → Decl} {S : String → Prop} {floor index n a : Nat} {ops args : List Word}
  {w : World} {r : Recording} {routine : Routine}

namespace Activation

/-- Where the slots of the next call end. -/
def top (A : Activation) : Nat := Frame.topOf A.slots.size A.frames

/-- The slots of the activation, and those that it leaves alone, are not between those of the root
and those of the next call. -/
structure Layered (A : Activation) (floor : Nat) : Prop where
  claimed : A.claimed? = some floor
  le : A.top ≤ A.slots.size
  own : ∀ i < A.names.length, A.base + i < floor ∨ A.top ≤ A.base + i
  kept : ∀ i, A.keeps i → i < floor ∨ A.top ≤ i

/-- The frame of a function that is called, the caller having `below` operands left. -/
def frame (A : Activation) (index returnTo below : Nat) (routine : Routine) : Frame :=
  ⟨index, returnTo, A.top - routine.variableCount, routine.variableCount, below⟩

/-- The activation of a function that is called, the caller having `below` operands left. -/
def inner (A : Activation) (floor index returnTo below : Nat) (routine : Routine)
    (slots : Array Word) : Activation where
  code := routine.code
  names := routine.numbers
  frames := A.frame index returnTo below routine :: A.frames
  base := A.top - routine.variableCount
  capacity := A.capacity
  claimed? := some floor
  slots := slots
  keeps i := i < floor ∨ A.top ≤ i
  lastReturn := A.lastReturn

variable {returnTo below : Nat} {slots : Array Word}

theorem inner_proper (hcallee : p.catalog.function? index = some routine)
    (hnodup : routine.numbers.Nodup) (hroom : routine.variableCount ≤ A.top)
    (hfloor : floor ≤ A.top - routine.variableCount) :
    (A.inner floor index returnTo below routine slots).Proper p names where
  running t ht := by
    rw [Program.running, ht]
    simp only [Activation.inner, frame, hcallee]
  namesOf t ht := by
    rw [Program.namesOf, ht]
    simp only [Activation.inner, frame, hcallee, Option.map_some, Option.getD_some]
  slot t ht _ i hi := by
    simp only [Thread.slot, Thread.window, ht, Activation.inner, frame]
    exact if_pos hi
  nodup := hnodup
  claimed h := nomatch h
  free i hi h := by
    simp only [Activation.inner, Routine.variableCount] at hi h hroom hfloor
    omega

theorem inner_layered (hsize : A.top ≤ slots.size) :
    (A.inner floor index returnTo below routine slots).Layered floor where
  claimed := rfl
  le := (Nat.sub_le _ _).trans hsize
  own _ _ := .inr (Nat.le_add_right _ _)
  kept _ h := h.imp_right (Nat.le_trans (Nat.sub_le _ _))

/-- A call is entered with its arguments in its first variables, and zeros in the others. -/
theorem Holds.enter {parameters : List String} (hL : A.Layered floor)
    (hr : A.Holds a (ops ++ args) w r) (hnodup : routine.numbers.Nodup)
    (hpre : parameters <+: routine.numbers) (hargs : args.length = parameters.length)
    (hroom : routine.variableCount ≤ A.top) (hfloor : floor ≤ A.top - routine.variableCount) :
    (A.inner floor index returnTo ops.length routine r.config.thread.slots).Holds 0 ops
      { w with values := bindArguments parameters args }
      ⟨{ r.config with thread := { r.config.thread with
          stack := ⟨A.capacity, ops.toArray⟩
          slots := Thread.fill r.config.thread.slots (A.top - routine.variableCount)
            (args ++ List.replicate (routine.variableCount - args.length) 0)
          frames := A.frame index returnTo ops.length routine :: r.config.thread.frames
          ip := 0 } }, r.log⟩ := by
  have hcount : (args ++ List.replicate (routine.variableCount - args.length) 0).length =
      routine.variableCount := by
    have := hpre.length_le
    rw [List.length_append, List.length_replicate, Routine.variableCount]
    omega
  have hsize : A.top ≤ r.config.thread.slots.size := hr.size ▸ hL.le
  refine ⟨rfl, ?_, rfl, fun n hn => ?_, Thread.size_fill _ _ _, fun i hi => ?_, fun i name hi => ?_,
    hr.entity, hr.log, hr.lastReturn⟩
  · simp only [inner, hr.frames]
  · obtain rfl := Option.some.inj hn
    exact hr.claimed _ hL.claimed
  · refine Thread.fill_outside ?_
    rw [hcount]
    exact hi.imp (Nat.lt_of_lt_of_le · hfloor) (by omega)
  · have hlt : i < routine.variableCount := (List.getElem?_eq_some_iff.1 hi).1
    simp only [inner]
    rw [Thread.fill_inside (by omega) (by omega)]
    exact getElem?_locals hargs hnodup hpre hi

/-- The caller finds everything as it was, except that the arguments are gone. -/
theorem Holds.back (hL : A.Layered floor) (hr : A.Holds a (ops ++ args) w r) {r' : Recording}
    {b : Nat} {ops' : List Word} {w' : World}
    (hr' : (A.inner floor index returnTo ops.length routine r.config.thread.slots).Holds b ops'
      w' r')
    (f : Frame) : A.Holds f.returnTo ops { w' with values := w.values }
      ⟨(r'.config.withStack ⟨A.capacity, ops.toArray⟩).backTo f A.frames, r'.log⟩ where
  ip := rfl
  frames := rfl
  stack := rfl
  claimed n hn := by
    obtain rfl : floor = n := Option.some.inj (hL.claimed.symm.trans hn)
    exact hr'.claimed floor rfl
  size := hr'.size.trans hr.size
  kept i hi := (hr'.kept i (hL.kept i hi)).trans (hr.kept i hi)
  values i name hi :=
    (hr'.kept _ (hL.own i (List.getElem?_eq_some_iff.1 hi).1)).trans (hr.values i name hi)
  entity := hr'.entity
  log := hr'.log
  lastReturn := hr'.lastReturn

end Activation

/-! ## Functions that call each other -/

/-- A limit of the thread is exceeded. -/
def Fault.IsLimit : Fault → Prop
  | .stackOverflow _ | .callDepthExceeded _ | .variableOutOfRange _ => True
  | _ => False

/-- A function of the catalog has the code of a declaration, which was compiled when the functions
that it calls were entered. -/
structure Catalog.Runs (K : Catalog) (d : Decl) (i : Nat) (r : Routine) : Prop where
  found : K.functions.lookup? d.name.name = some (i, r)
  small : r.Small
  compiled : ∃ k r₀, k.Made ∧ k.Small ∧ k.Grows K ∧
    (∀ g ∈ d.calls, (k.functions.indexOf? g).isSome) ∧
    d.compile k [] = (.ok r₀, []) ∧ r = { r₀ with index? := some i }

/-- The functions in a set have been compiled from their sources, and call only each other. -/
structure Catalog.Closed (K : Catalog) (source : String → Decl) (S : String → Prop) : Prop where
  function : ∀ f, S f → (source f).name.name = f ∧ ∃ i r, K.Runs (source f) i r
  calls : ∀ f, S f → ∀ g ∈ (source f).calls, S g

/-- A name that stands for a function is called by the number of that function, which it keeps. -/
theorem callee_of_grows {K : Catalog} {f : Ident} {found : Nat} {position : Position} {i : Instr}
    (hgrows : k.Grows K) (hentered : (k.functions.indexOf? f.name).isSome)
    (hf : K.functions.lookup? f.name = some (index, routine))
    (h : Danmaku.callee k f found position = .ok i) :
    i = .call index ∧ routine.parameterCount = found := by
  rcases callee_inv h with ⟨index', r, hl, hcount, rfl⟩ | ⟨_, hnone, -⟩
  · obtain ⟨r', hl', hcount'⟩ := (hgrows.routines .function).lookup hl
    obtain ⟨rfl, rfl⟩ := Prod.mk.inj (Option.some.inj (hf.symm.trans hl'))
    exact ⟨rfl, hcount'.trans hcount⟩
  · obtain ⟨index', hindex⟩ := Option.isSome_iff_exists.1 hentered
    obtain ⟨e, he⟩ := Table.at?_of_indexOf? hindex
    rw [Table.lookup?_eq_some.2 ⟨hindex, he⟩] at hnone
    cases hnone

/-- A call is opened, or a limit is exceeded. -/
theorem Activation.Holds.call {parameters : List String} (hA : A.Proper p names)
    (hL : A.Layered floor) (hr : A.Holds a (ops ++ args) w r)
    (hi : (Instr.call index).StandsAt A.code.words a)
    (hat : p.catalog.functions.at? index = some routine)
    (hnodup : routine.numbers.Nodup) (hpre : parameters <+: routine.numbers)
    (hargs : args.length = parameters.length)
    (hcount : parameters.length = routine.parameterCount) :
    (∃ f r', p.advance names r = .over (.error f) r' ∧ f.IsLimit) ∨
      routine.variableCount ≤ A.top ∧ floor ≤ A.top - routine.variableCount ∧
        ∃ r', p.advance names r = .on r' ∧
          (A.inner floor index (a + (Instr.call index).size) ops.length routine
            r.config.thread.slots).Holds 0 ops
            { w with values := bindArguments parameters args } r' := by
  have hr' := hr.goTo (a + (Instr.call index).size)
  have htop : (r.config.goTo (a + (Instr.call index).size)).thread.top = A.top := by
    rw [Thread.top_eq, hr'.size, hr'.frames]
    rfl
  have hextent := hr'.claimed floor hL.claimed
  have hlast {f : Fault} {c : Config} (hf : f.IsLimit)
      (h : (Instr.call index).execute p A.code.size (r.config.goTo _) = .error f c) :
      ∃ f r', p.advance names r = .over (.error f) r' ∧ f.IsLimit :=
    ⟨f, ⟨c, r.log⟩, by rw [Program.advance, hr.step_eq hA hi, h], hf⟩
  by_cases hdepth : (r.config.goTo (a + (Instr.call index).size)).thread.frames.length <
      r.config.thread.limits.depth
  · by_cases hroom : routine.variableCount ≤ A.top ∧ floor ≤ A.top - routine.variableCount
    · have hnext := hr.advance_silent hA hi rfl
        (Instr.execute_call hr'.stack hat (hargs.trans hcount) hdepth htop hroom.1
          (hextent ▸ hroom.2))
      exact .inr ⟨hroom.1, hroom.2, _, hnext, hr.enter hL hnodup hpre hargs hroom.1 hroom.2⟩
    · exact .inl (hlast (f := .variableOutOfRange _) trivial
        (Instr.execute_call_crowded hat hdepth (by rwa [htop, hextent])))
  · exact .inl (hlast (f := .callDepthExceeded _) trivial
      (Instr.execute_call_deep hat (Nat.not_lt.1 hdepth)))

/-- A body that was called goes back to its caller with its value. -/
theorem Activation.Goes.back (hL : A.Layered floor) (hr : A.Holds a (ops ++ args) w r)
    {returnTo exit next : Nat} {completion : Completion} {w' : World} {r' : Recording}
    (hB : (A.inner floor index returnTo ops.length routine r.config.thread.slots).Proper p names)
    (hgoes : (A.inner floor index returnTo ops.length routine r.config.thread.slots).Goes
      routine.code.size exit next false ops completion w' r') :
    p.Leads names Fault.IsLimit
      (A.Holds returnTo (ops ++ [completion.value]) { w' with values := w.values }) 0 r' := by
  cases completion with
  | next =>
    have hgoes : Holds _ _ _ _ _ := hgoes
    have hrun := hB.running _ hgoes.frames
    have hip : routine.code.size ≤ r'.config.thread.ip := hgoes.ip.ge
    have hstep := Program.step_end_frame hrun hip hgoes.stack hgoes.frames rfl
    exact Meets.pushing (n := 0) hstep (fun c' => Program.effects_of_end hrun hip) rfl
      (hr.back hL hgoes (A.frame index returnTo ops.length routine)) fun _ => trivial
  | ret v =>
    obtain ⟨b, hi, hgoes⟩ := hgoes
    have hstep := hgoes.step_eq hB hi
    have hgoes' := hgoes.goTo (b + Instr.ret.size)
    rw [Instr.execute_ret_frame (c := r'.config.goTo _) hgoes'.stack hgoes'.frames rfl] at hstep
    exact Meets.pushing (n := 0) hstep
      (fun c' => Program.effects_of_isSilent (hgoes.instr?_eq hB hi) rfl) rfl
      (hr.back hL hgoes' (A.frame index returnTo ops.length routine))
      fun _ => trivial
  | leave | again => exact absurd hgoes.1 Bool.false_ne_true

/-- **Functions do what they mean.** Calling a function leaves the value of its body on top of the
operands of the caller, which goes on after the call as it was; or a limit is exceeded. -/
theorem Catalog.Closed.apply_meets (hK : p.catalog.Closed source S) (hA : A.Proper p names)
    (hL : A.Layered floor) (hgrows : k.Grows p.catalog) {f : Ident} {position : Position}
    {i : Instr} (hf : S f.name) (hentered : (k.functions.indexOf? f.name).isSome)
    (hcallee : callee k f args.length position = .ok i) (hi : i.StandsAt A.code.words a)
    (hr : A.Holds a (ops ++ args) w r) :
    Meets p names Fault.IsLimit (p.catalog.apply source n f.name args) w r n fun v w' r' =>
      A.Holds (a + i.size) (ops ++ [v]) w' r' := by
  induction n generalizing A k a ops args w r f position i with
  | zero => exact .here hr.log
  | succ n ih =>
    obtain ⟨hname, index, routine, hruns⟩ := hK.function f.name hf
    have hfound := hruns.found
    obtain ⟨k', r₀, hmade, hsmall, hgrows', hentered', hd, heq⟩ := hruns.compiled
    have hcode : routine.code = r₀.code := by rw [heq]
    have hnumbers : routine.numbers = r₀.numbers := by rw [heq]
    have hcount₀ : routine.parameterCount = r₀.parameterCount := by rw [heq]
    obtain ⟨hpre, hnodup, hparameters⟩ := Decl.compile_names hd
    rw [← hnumbers] at hpre hnodup
    rw [← hcount₀] at hparameters
    rw [hname] at hfound
    obtain ⟨rfl, hcount⟩ := callee_of_grows hgrows hentered hfound hcallee
    have hat := (Table.lookup?_eq_some.1 hfound).2
    rcases hr.call hA hL hi hat hnodup hpre (hcount.symm.trans hparameters) hparameters.symm with
      ⟨fault, r', hlast, hlimit⟩ | ⟨hroom, hfloor, r₁, hfirst, hr₁⟩
    · exact .excused hlast hlimit
    have hproper : (A.inner floor index (a + (Instr.call index).size) ops.length routine
        r.config.thread.slots).Proper p names := Activation.inner_proper hat hnodup hroom hfloor
    have hlayered : (A.inner floor index (a + (Instr.call index).size) ops.length routine
        r.config.thread.slots).Layered floor := Activation.inner_layered (hr.size ▸ hL.le)
    -- the functions that the body calls have one round of patience less
    have hB : (A.inner floor index (a + (Instr.call index).size) ops.length routine
        r.config.thread.slots).Hosts p names Fault.IsLimit k' (p.catalog.apply source n) n
        fun g => S g ∧ (k'.functions.indexOf? g).isSome :=
      ⟨hproper, hmade, hgrows', fun g position args ops' i b w' r' hg hc hstand hr' =>
        ih hproper hlayered hgrows' hg.1 hg.2 hc hstand hr'⟩
    have hbody := Decl.meets_body hB hsmall hd
      ⟨(heq ▸ hruns.small).code, (heq ▸ hruns.small).variableCount⟩ hcode hnumbers
      (fun g hg => ⟨hK.calls _ hf g hg, hentered' g hg⟩) (fun _ => trivial) hr₁
    rw [Meets, ← hcode] at hbody
    rw [Meets, Catalog.apply]
    split at hbody <;> rename_i hexec <;> simp only [hexec]
    · exact .step hfirst (hbody.bind fun r' hgoes => hgoes.back hL hr hproper) (Nat.zero_le _)
    · exact .step hfirst hbody (Nat.zero_le _)
    · exact .step hfirst hbody (Nat.le_refl _)

end Danmaku
