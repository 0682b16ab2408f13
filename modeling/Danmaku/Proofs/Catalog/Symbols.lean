import Danmaku.Proofs.Catalog.Calls
import Danmaku.Proofs.Catalog.TypeIndex
import Danmaku.Proofs.Compile.Confinement

/-!
# The slots of names

A routine gives slots to names for good. Its numerical variables have the slots from zero on in the
order in which they were declared, the parameters first, and so have its references to entities; but
a name has a slot in one of the two tables only (`Routine.Slotted`). An edit of a routine declares a
name, or sets the code or the number of the routine, and may be refused (`Routine.edit`).

The tables of a routine are searched from their beginning. A `ScopeIndex` finds the slots by two
hash maps. It is changed in place, one part after the other, and answers as the routine does,
whatever the edits were (`symbols_stand`).
-/

namespace Danmaku

/-! ## Edits -/

/-- What can be done to a routine that there is. -/
inductive RoutineEdit
  /-- Declare a numerical variable. -/
  | number (name : String) (position : Position)
  /-- Declare a reference to an entity. -/
  | handle (name : String) (position : Position)
  /-- Set the code. -/
  | code (code : Code)
  /-- Set the number in the table of routines. -/
  | index (i : Nat)

namespace RoutineEdit

/-- The numerical variable to be declared. -/
def number? : RoutineEdit → Option String
  | .number name _ => some name
  | .handle .. | .code _ | .index _ => none

/-- The reference to be declared. -/
def handle? : RoutineEdit → Option String
  | .handle name _ => some name
  | .number .. | .code _ | .index _ => none

end RoutineEdit

namespace Routine

/-- The routine that an edit makes, unless it is refused. The answer has the slot of a name that is
declared. -/
def edit (r : Routine) : RoutineEdit → Except CompileError (Option Nat × Routine)
  | .number name position => (r.declareNumber name position).map fun (r', slot) => (some slot, r')
  | .handle name position => (r.declareHandle name position).map fun (r', slot) => (some slot, r')
  | .code code => .ok (none, { r with code })
  | .index i => .ok (none, { r with index? := some i })

/-- What an edit that is not refused does to the names: at most one is added, at the end of its
table, and it is in neither table before. -/
structure Edited (e : RoutineEdit) (r r' : Routine) : Prop where
  numbers : r'.numbers = r.numbers ++ e.number?.toList
  handles : r'.handles = r.handles ++ e.handle?.toList
  fresh : ∀ name ∈ e.number?.toList ++ e.handle?.toList, name ∉ r.numbers ++ r.handles
  parameterCount : r'.parameterCount = r.parameterCount

variable {r r' : Routine} {e : RoutineEdit} {parameters : List String}

theorem not_isSome_kindOf? {name : String} :
    ¬(r.kindOf? name).isSome = true ↔ name ∉ r.numbers ++ r.handles := by
  rw [isSome_kindOf?, List.mem_append]

theorem edited_of_edit {answer : Option Nat} (h : r.edit e = .ok (answer, r')) : Edited e r r' := by
  cases e with
  | number name position =>
    obtain ⟨⟨r₁, slot⟩, hr, heq⟩ := map_eq_ok.1 h
    obtain ⟨-, rfl⟩ := Prod.mk.inj heq
    obtain ⟨rfl, -, hnew⟩ := declareNumber_inv hr
    exact ⟨rfl, (List.append_nil _).symm,
      fun other ho => List.mem_singleton.1 ho ▸ not_isSome_kindOf?.1 hnew, rfl⟩
  | handle name position =>
    obtain ⟨⟨r₁, slot⟩, hr, heq⟩ := map_eq_ok.1 h
    obtain ⟨-, rfl⟩ := Prod.mk.inj heq
    obtain ⟨rfl, -, hnew⟩ := declareHandle_inv hr
    exact ⟨(List.append_nil _).symm, rfl,
      fun other ho => List.mem_singleton.1 ho ▸ not_isSome_kindOf?.1 hnew, rfl⟩
  | code code | index i =>
    obtain ⟨-, rfl⟩ := Prod.mk.inj (Except.ok.inj h)
    exact ⟨(List.append_nil _).symm, (List.append_nil _).symm,
      fun _ ho => absurd ho List.not_mem_nil, rfl⟩

/-- The names are those that there were, and those that the accepted edits declare. -/
theorem names_after (edits : List RoutineEdit) (r : Routine) :
    (Calls.after edit r edits).numbers =
        r.numbers ++ (Calls.accepted edit r edits).filterMap RoutineEdit.number? ∧
      (Calls.after edit r edits).handles =
        r.handles ++ (Calls.accepted edit r edits).filterMap RoutineEdit.handle? := by
  induction edits generalizing r with
  | nil => exact ⟨(List.append_nil _).symm, (List.append_nil _).symm⟩
  | cons e edits ih =>
    rw [Calls.after, Calls.accepted]
    split
    · next r' he =>
      have hedited := edited_of_edit he
      obtain ⟨hnumbers, hhandles⟩ := ih r'
      rw [hnumbers, hhandles, hedited.numbers, hedited.handles, List.append_assoc,
        List.append_assoc]
      simp only [List.filterMap_cons]
      constructor
      · cases e.number? <;> rfl
      · cases e.handle? <;> rfl
    · exact ih r

/-! ## What stands -/

/-- Names and the slots below their number belong to each other, one to one. -/
structure Dense (slot? : String → Option Nat) (names : List String) : Prop where
  slot : ∀ name i, slot? name = some i ↔ names[i]? = some name
  below : ∀ i, i < names.length ↔ ∃ name, slot? name = some i

/-- Each table has its slots, and a name is in one of them only. What a name stands for tells in
which. The first numerical variables are the parameters. -/
structure Slotted (parameters : List String) (r : Routine) : Prop where
  numbers : Dense r.numberSlot? r.numbers
  handles : Dense r.handleSlot? r.handles
  apart : ∀ name, r.numberSlot? name = none ∨ r.handleSlot? name = none
  number : ∀ name, r.kindOf? name = some .number ↔ ∃ i, r.numberSlot? name = some i
  handle : ∀ name, r.kindOf? name = some .handle ↔ ∃ i, r.handleSlot? name = some i
  parameter : ∀ i name, parameters[i]? = some name → r.numberSlot? name = some i
  parameterCount : r.parameterCount = parameters.length
  enough : r.parameterCount ≤ r.variableCount

theorem dense_idxOf? {names : List String} (h : names.Nodup) : Dense (names.idxOf? ·) names where
  slot name i := idxOf?_eq_some_iff_getElem? h
  below i := by
    simp only [idxOf?_eq_some_iff_getElem? h]
    exact ⟨fun hi => ⟨_, List.getElem?_eq_getElem hi⟩,
      fun ⟨_, hi⟩ => (List.getElem?_eq_some_iff.1 hi).1⟩

/-- All that stands follows from this: the parameters come first, and no name is declared twice. -/
structure Distinct (parameters : List String) (r : Routine) : Prop where
  names : (r.numbers ++ r.handles).Nodup
  first : parameters <+: r.numbers
  parameterCount : r.parameterCount = parameters.length

theorem Distinct.slotted (h : r.Distinct parameters) : r.Slotted parameters := by
  obtain ⟨hnumbers, hhandles, hapart⟩ := List.nodup_append'.1 h.names
  have hone (name : String) : r.numberSlot? name = none ∨ r.handleSlot? name = none := by
    by_cases hn : name ∈ r.numbers
    · exact .inr (List.idxOf?_eq_none_iff.2 (hapart hn))
    · exact .inl (List.idxOf?_eq_none_iff.2 hn)
  exact {
    numbers := dense_idxOf? hnumbers
    handles := dense_idxOf? hhandles
    apart := hone
    number := fun name => by
      rw [← Option.isSome_iff_exists, kindOf?]
      cases r.numberSlot? name <;> cases r.handleSlot? name <;> simp
    handle := fun name => by
      rw [← Option.isSome_iff_exists, kindOf?]
      obtain hn | hh := hone name
      · rw [hn]
        cases r.handleSlot? name <;> simp
      · rw [hh]
        cases r.numberSlot? name <;> simp
    parameter := fun i name hi =>
      (idxOf?_eq_some_iff_getElem? hnumbers).2 (getElem?_of_isPrefix h.first hi)
    parameterCount := h.parameterCount
    enough := h.parameterCount.trans_le h.first.length_le }

theorem Distinct.edited (h : r.Distinct parameters) (he : Edited e r r') :
    r'.Distinct parameters where
  names := by
    -- The names are those before and the new ones, in another order.
    have hperm : (r'.numbers ++ r'.handles).Perm
        ((r.numbers ++ r.handles) ++ (e.number?.toList ++ e.handle?.toList)) := by
      rw [he.numbers, he.handles]
      simp only [List.append_assoc]
      exact (List.perm_append_comm_assoc _ _ _).append_left _
    refine hperm.nodup_iff.2 (List.nodup_append'.2 ⟨h.names, ?_, fun name hold hnew => ?_⟩)
    · cases e <;> simp [RoutineEdit.number?, RoutineEdit.handle?]
    · exact he.fresh name hnew hold
  first := he.numbers ▸ h.first.trans (List.prefix_append _ _)
  parameterCount := he.parameterCount.trans h.parameterCount

theorem Distinct.after (h : r.Distinct parameters) (edits : List RoutineEdit) :
    (Calls.after edit r edits).Distinct parameters :=
  Calls.after_induct (fun _ _ _ _ he h => h.edited (edited_of_edit he)) h edits

theorem handles_declareNumbers {position : Position} {names : List String}
    (h : r.declareNumbers position names = .ok r') : r'.handles = r.handles := by
  induction names generalizing r with
  | nil => rw [Except.ok.inj h]
  | cons name names ih =>
    unfold declareNumbers at h
    split at h
    · cases h
    · next hd => rw [ih h, (declareNumber_inv hd).1]

/-- Names that are different, and are not declared, can all be declared. -/
theorem exists_declareNumbers {names : List String}
    (h : (r.numbers ++ r.handles ++ names).Nodup) (position : Position) :
    ∃ r', r.declareNumbers position names = .ok r' := by
  induction names generalizing r with
  | nil => exact ⟨r, rfl⟩
  | cons name names ih =>
    obtain ⟨hnew, hrest⟩ := List.nodup_cons.1 (List.perm_middle.nodup_iff.1 h)
    have hk : ¬(r.kindOf? name).isSome = true :=
      not_isSome_kindOf?.2 fun hmem => hnew (List.mem_append_left _ hmem)
    have hperm : ((r.numbers ++ [name]) ++ r.handles ++ names).Perm
        (r.numbers ++ r.handles ++ name :: names) := by
      simp only [List.append_assoc, List.singleton_append]
      exact List.perm_middle.symm.append_left r.numbers
    rw [declareNumbers, declareNumber, if_neg hk]
    exact ih (hperm.nodup_iff.2 h)

theorem exists_withParameters {position : Position} :
    (∃ r, withParameters parameters position = .ok r) ↔ parameters.Nodup := by
  refine ⟨fun ⟨r, hr⟩ => (withParameters_inv hr).2.1, fun h => ?_⟩
  obtain ⟨r, hr⟩ := exists_declareNumbers (r := {}) h position
  exact ⟨_, map_eq_ok.2 ⟨r, hr, rfl⟩⟩

/-- A routine that has only parameters yet. -/
theorem withParameters_fresh {position : Position}
    (h : withParameters parameters position = .ok r) :
    r.Distinct parameters ∧ r.numbers = parameters ∧ r.handles = [] := by
  obtain ⟨hnumbers, hnodup, hcount⟩ := withParameters_inv h
  obtain ⟨r₀, hr₀, rfl⟩ := map_eq_ok.1 h
  have hhandles : r₀.handles = [] := handles_declareNumbers hr₀
  refine ⟨⟨?_, hnumbers ▸ List.prefix_refl _, hcount⟩, hnumbers, hhandles⟩
  rw [hnumbers, hhandles, List.append_nil]
  exact hnodup

end Routine

/-! ## Hash maps -/

/-- Names by slot, with the slot of each in a hash map. -/
structure SymbolIndex where
  slots : Std.HashMap String Nat := ∅
  names : Array String := #[]

namespace SymbolIndex

/-- The slot of a name. -/
def slot? (x : SymbolIndex) (name : String) : Option Nat := x.slots[name]?

/-- Whether a name has a slot. -/
def contains (x : SymbolIndex) (name : String) : Bool := x.slots.contains name

/-- Give the next slot to a name. -/
def insert (x : SymbolIndex) (name : String) : Nat × SymbolIndex :=
  let slot := x.names.size
  (slot, ⟨x.slots.insert name slot, x.names.push name⟩)

/-- The names are these, and each has its place as its slot. -/
structure Answers (x : SymbolIndex) (names : List String) : Prop where
  slot : ∀ name, x.slot? name = names.idxOf? name
  names : x.names.toList = names

variable {x : SymbolIndex} {names : List String} {name : String}

theorem answers_empty : Answers {} [] := ⟨fun _ => Std.HashMap.getElem?_empty, rfl⟩

theorem Answers.contains (h : x.Answers names) : x.contains name = decide (name ∈ names) := by
  rw [SymbolIndex.contains, Std.HashMap.contains_eq_isSome_getElem?, Bool.eq_iff_iff,
    decide_eq_true_iff, ← List.isSome_idxOf?, ← h.slot name]
  rfl

theorem Answers.insert (h : x.Answers names) (hnew : name ∉ names) :
    (x.insert name).1 = names.length ∧ (x.insert name).2.Answers (names ++ [name]) := by
  have hsize : x.names.size = names.length := by rw [← h.names, Array.length_toList]
  have hslots : Locates x.slots (fun name other => other == name) names := h.slot
  refine ⟨hsize, ⟨fun other => ?_, ?_⟩⟩
  · refine Eq.trans ?_ (hslots.insert (fun y hy => ?_) (fun other => rfl) other)
    · rw [slot?, SymbolIndex.insert, hsize]
    · exact beq_eq_false_iff_ne.2 fun heq => hnew (heq ▸ hy)
  · exact Array.toList_push.trans (congrArg (· ++ [name]) h.names)

end SymbolIndex

/-- A routine whose names are in hash maps. -/
structure ScopeIndex where
  code : Code := {}
  numbers : SymbolIndex := {}
  handles : SymbolIndex := {}
  parameterCount : Nat := 0
  index? : Option Nat := none

namespace ScopeIndex

/-- What a name stands for, if it is declared. -/
def kindOf? (x : ScopeIndex) (name : String) : Option SymbolKind :=
  if x.numbers.contains name then some .number
  else if x.handles.contains name then some .handle
  else none

/-- Whether a name is declared, as the one or as the other. -/
def declared (x : ScopeIndex) (name : String) : Bool :=
  x.numbers.contains name || x.handles.contains name

/-- Declare a numerical variable. -/
def declareNumber (x : ScopeIndex) (name : String) (position : Position) :
    Except CompileError Nat × ScopeIndex :=
  if x.declared name then (.error (.redeclared name position), x)
  else
    let (slot, numbers) := x.numbers.insert name
    (.ok slot, { x with numbers })

/-- Declare a reference to an entity. -/
def declareHandle (x : ScopeIndex) (name : String) (position : Position) :
    Except CompileError Nat × ScopeIndex :=
  if x.declared name then (.error (.redeclared name position), x)
  else
    let (slot, handles) := x.handles.insert name
    (.ok slot, { x with handles })

/-- An edit in place. -/
def edit (x : ScopeIndex) : RoutineEdit → Except CompileError (Option Nat) × ScopeIndex
  | .number name position => (x.declareNumber name position).map (Except.map some) id
  | .handle name position => (x.declareHandle name position).map (Except.map some) id
  | .code code => (.ok none, { x with code })
  | .index i => (.ok none, { x with index? := some i })

/-- Declare numerical variables in order, up to the first that is refused. -/
def declareNumbers (x : ScopeIndex) (position : Position) :
    List String → Except CompileError ScopeIndex
  | [] => .ok x
  | name :: rest =>
    match x.declareNumber name position with
    | (.error e, _) => .error e
    | (.ok _, x') => x'.declareNumbers position rest

/-- The scope that has only parameters yet. -/
def withParameters (names : List String) (position : Position) : Except CompileError ScopeIndex :=
  (({} : ScopeIndex).declareNumbers position names).map
    fun x => { x with parameterCount := names.length }

/-- All that is looked up is what it is in a routine. -/
structure Answers (x : ScopeIndex) (r : Routine) : Prop where
  numbers : x.numbers.Answers r.numbers
  handles : x.handles.Answers r.handles
  kind : ∀ name, x.kindOf? name = r.kindOf? name
  parameterCount : x.parameterCount = r.parameterCount
  code : x.code = r.code
  index : x.index? = r.index?

variable {x : ScopeIndex} {r : Routine} {name : String} {position : Position}

theorem kindOf?_eq (hnumbers : x.numbers.Answers r.numbers)
    (hhandles : x.handles.Answers r.handles) (name : String) :
    x.kindOf? name = r.kindOf? name := by
  simp only [kindOf?, Routine.kindOf?, Routine.numberSlot?, Routine.handleSlot?,
    hnumbers.contains, hhandles.contains, List.isSome_idxOf?, decide_eq_true_iff]

theorem answers_empty : Answers {} {} where
  numbers := SymbolIndex.answers_empty
  handles := SymbolIndex.answers_empty
  kind := kindOf?_eq SymbolIndex.answers_empty SymbolIndex.answers_empty
  parameterCount := rfl
  code := rfl
  index := rfl

theorem Answers.declared (h : x.Answers r) :
    x.declared name = true ↔ (r.kindOf? name).isSome = true := by
  rw [ScopeIndex.declared, h.numbers.contains, h.handles.contains, Routine.isSome_kindOf?,
    Bool.or_eq_true, decide_eq_true_iff, decide_eq_true_iff]

/-- The numerical variables with one more are those of the routine with one more. -/
theorem Answers.setNumbers (h : x.Answers r) {numbers : SymbolIndex} {names : List String}
    (hnumbers : numbers.Answers names) :
    Answers { x with numbers } { r with numbers := names } where
  numbers := hnumbers
  handles := h.handles
  kind := kindOf?_eq hnumbers h.handles
  parameterCount := h.parameterCount
  code := h.code
  index := h.index

theorem Answers.setHandles (h : x.Answers r) {handles : SymbolIndex} {names : List String}
    (hhandles : handles.Answers names) :
    Answers { x with handles } { r with handles := names } where
  numbers := h.numbers
  handles := hhandles
  kind := kindOf?_eq h.numbers hhandles
  parameterCount := h.parameterCount
  code := h.code
  index := h.index

theorem Answers.declareNumber (h : x.Answers r) (name : String) (position : Position) :
    Calls.Alike Answers x (x.declareNumber name position)
      ((r.declareNumber name position).map Prod.swap) := by
  unfold ScopeIndex.declareNumber Routine.declareNumber
  by_cases hk : (r.kindOf? name).isSome = true
  · rw [if_pos (h.declared.2 hk), if_pos hk]
    exact .refused _
  · rw [if_neg (fun hd => hk (h.declared.1 hd)), if_neg hk]
    have hnew : name ∉ r.numbers := fun hmem => hk ((Routine.isSome_kindOf? name).2 (.inl hmem))
    obtain ⟨hslot, hnumbers⟩ := h.numbers.insert hnew
    rw [← hslot]
    exact .accepted _ (h.setNumbers hnumbers)

theorem Answers.declareHandle (h : x.Answers r) (name : String) (position : Position) :
    Calls.Alike Answers x (x.declareHandle name position)
      ((r.declareHandle name position).map Prod.swap) := by
  unfold ScopeIndex.declareHandle Routine.declareHandle
  by_cases hk : (r.kindOf? name).isSome = true
  · rw [if_pos (h.declared.2 hk), if_pos hk]
    exact .refused _
  · rw [if_neg (fun hd => hk (h.declared.1 hd)), if_neg hk]
    have hnew : name ∉ r.handles := fun hmem => hk ((Routine.isSome_kindOf? name).2 (.inr hmem))
    obtain ⟨hslot, hhandles⟩ := h.handles.insert hnew
    rw [← hslot]
    exact .accepted _ (h.setHandles hhandles)

theorem Answers.edit (h : x.Answers r) (e : RoutineEdit) :
    Calls.Alike Answers x (x.edit e) (r.edit e) := by
  cases e with
  | number name position =>
    have halike := (h.declareNumber name position).map some
    rw [Routine.edit]
    cases hr : r.declareNumber name position with
    | error e => rwa [hr] at halike
    | ok result => rwa [hr] at halike
  | handle name position =>
    have halike := (h.declareHandle name position).map some
    rw [Routine.edit]
    cases hr : r.declareHandle name position with
    | error e => rwa [hr] at halike
    | ok result => rwa [hr] at halike
  | code code => exact .accepted _ { h with code := rfl }
  | index i => exact .accepted _ { h with index := rfl }

/-- Declaring several names comes to the same, up to the first that is refused. -/
theorem Answers.declareNumbers {names : List String} {r' : Routine} (h : x.Answers r)
    (hr : r.declareNumbers position names = .ok r') :
    ∃ x', x.declareNumbers position names = .ok x' ∧ x'.Answers r' := by
  induction names generalizing x r with
  | nil =>
    obtain rfl := Except.ok.inj hr
    exact ⟨x, rfl, h⟩
  | cons name names ih =>
    have halike := h.declareNumber name position
    rw [Routine.declareNumbers] at hr
    rw [ScopeIndex.declareNumbers]
    cases hd : r.declareNumber name position with
    | error e =>
      rw [hd] at hr
      cases hr
    | ok result =>
      rw [hd] at hr halike
      generalize x.declareNumber name position = outcome at halike ⊢
      cases halike with
      | accepted slot h' => exact ih h' hr

theorem Answers.withParameters {names : List String}
    (hr : Routine.withParameters names position = .ok r) :
    ∃ x, ScopeIndex.withParameters names position = .ok x ∧ x.Answers r := by
  obtain ⟨r₀, hr₀, rfl⟩ := map_eq_ok.1 hr
  obtain ⟨x₀, hx₀, h⟩ := answers_empty.declareNumbers hr₀
  refine ⟨{ x₀ with parameterCount := names.length }, ?_, { h with parameterCount := rfl }⟩
  rw [ScopeIndex.withParameters, hx₀]
  rfl

end ScopeIndex

/-! ## After any edits -/

/-- Slots stand for good in a routine that has only parameters and is then edited, and a scope with
hash maps that is edited alike mirrors it. -/
structure Routine.Standing (parameters : List String) (r : Routine) (x : ScopeIndex) : Prop where
  /-- Slots and names belong to each other. -/
  slotted : ∀ edits, (Calls.after edit r edits).Slotted parameters
  /-- The numerical variables are in the order in which they were declared. -/
  numbers : ∀ edits, (Calls.after edit r edits).numbers =
    parameters ++ (Calls.accepted edit r edits).filterMap RoutineEdit.number?
  /-- So are the references. -/
  handles : ∀ edits, (Calls.after edit r edits).handles =
    (Calls.accepted edit r edits).filterMap RoutineEdit.handle?
  /-- A declaration is refused just if the name is in one of the tables. -/
  declared : ∀ edits name position, let r' := Calls.after edit r edits
    r'.edit (.number name position) = (if name ∈ r'.numbers ++ r'.handles
      then .error (.redeclared name position)
      else .ok (some r'.numbers.length, { r' with numbers := r'.numbers ++ [name] })) ∧
    r'.edit (.handle name position) = if name ∈ r'.numbers ++ r'.handles
      then .error (.redeclared name position)
      else .ok (some r'.handles.length, { r' with handles := r'.handles ++ [name] })
  /-- A name that is declared keeps its slot, and stands for the same. -/
  kept : ∀ edits more name kind, (Calls.after edit r edits).kindOf? name = some kind →
    (Calls.after edit r (edits ++ more)).kindOf? name = some kind ∧
    (Calls.after edit r (edits ++ more)).numberSlot? name =
      (Calls.after edit r edits).numberSlot? name ∧
    (Calls.after edit r (edits ++ more)).handleSlot? name =
      (Calls.after edit r edits).handleSlot? name
  /-- The scope answers as the routine does. -/
  mirrors : Calls.Mirrors ScopeIndex.Answers ScopeIndex.edit edit x r

namespace Routine

variable {r r' : Routine} {parameters : List String} {x : ScopeIndex} {name : String} {i : Nat}

theorem edit_declares (r : Routine) (name : String) (position : Position) :
    r.edit (.number name position) = (if name ∈ r.numbers ++ r.handles
      then .error (.redeclared name position)
      else .ok (some r.numbers.length, { r with numbers := r.numbers ++ [name] })) ∧
    r.edit (.handle name position) = if name ∈ r.numbers ++ r.handles
      then .error (.redeclared name position)
      else .ok (some r.handles.length, { r with handles := r.handles ++ [name] }) := by
  unfold edit declareNumber declareHandle
  by_cases hk : (r.kindOf? name).isSome = true
  · have hmem : name ∈ r.numbers ++ r.handles := by
      by_contra hnew
      exact not_isSome_kindOf?.2 hnew hk
    simp only [if_pos hk, if_pos hmem]
    exact ⟨rfl, rfl⟩
  · simp only [if_neg hk, if_neg (not_isSome_kindOf?.1 hk)]
    exact ⟨rfl, rfl⟩

theorem Slotted.handleSlot?_eq_none (h : r.Slotted parameters)
    (hi : r.numberSlot? name = some i) : r.handleSlot? name = none :=
  (h.apart name).resolve_left (by rw [hi]; exact Option.some_ne_none i)

theorem Slotted.numberSlot?_eq_none (h : r.Slotted parameters)
    (hi : r.handleSlot? name = some i) : r.numberSlot? name = none :=
  (h.apart name).resolve_right (by rw [hi]; exact Option.some_ne_none i)

/-- A name that is declared keeps its slot in the one table, and has none in the other, if both get
longer. -/
theorem Slotted.kept (h : r.Slotted parameters) (h' : r'.Slotted parameters)
    (hn : r.numbers <+: r'.numbers) (hh : r.handles <+: r'.handles) {kind : SymbolKind}
    (hkind : r.kindOf? name = some kind) :
    r'.kindOf? name = some kind ∧ r'.numberSlot? name = r.numberSlot? name ∧
      r'.handleSlot? name = r.handleSlot? name := by
  cases kind with
  | number =>
    obtain ⟨i, hi⟩ := (h.number name).1 hkind
    have hi' : r'.numberSlot? name = some i :=
      (h'.numbers.slot name i).2 (getElem?_of_isPrefix hn ((h.numbers.slot name i).1 hi))
    rw [h.handleSlot?_eq_none hi, h'.handleSlot?_eq_none hi', hi, hi']
    exact ⟨(h'.number name).2 ⟨i, hi'⟩, rfl, rfl⟩
  | handle =>
    obtain ⟨i, hi⟩ := (h.handle name).1 hkind
    have hi' : r'.handleSlot? name = some i :=
      (h'.handles.slot name i).2 (getElem?_of_isPrefix hh ((h.handles.slot name i).1 hi))
    rw [h.numberSlot?_eq_none hi, h'.numberSlot?_eq_none hi', hi, hi']
    exact ⟨(h'.handle name).2 ⟨i, hi'⟩, rfl, rfl⟩

theorem Distinct.standing (h : r.Distinct parameters) (hnumbers : r.numbers = parameters)
    (hhandles : r.handles = []) (hx : x.Answers r) : Standing parameters r x where
  slotted edits := (h.after edits).slotted
  numbers edits := by rw [(names_after edits r).1, hnumbers]
  handles edits := by rw [(names_after edits r).2, hhandles, List.nil_append]
  declared edits := edit_declares _
  kept edits more name kind hkind := by
    rw [Calls.after_append]
    have hnames := names_after more (Calls.after edit r edits)
    exact (h.after edits).slotted.kept ((h.after edits).after more).slotted
      (hnames.1 ▸ List.prefix_append _ _) (hnames.2 ▸ List.prefix_append _ _) hkind
  mirrors := Calls.mirrors_of (fun x r e h => h.edit e) hx

end Routine

/-- **Slots stand for good** in every routine that begins with no parameters, or with some that are
all different, whatever is then declared in it. -/
theorem symbols_stand :
    Routine.Standing [] {} {} ∧
    ∀ (names : List String) (position : Position),
      ((∃ r, Routine.withParameters names position = .ok r) ↔ names.Nodup) ∧
      ∀ r, Routine.withParameters names position = .ok r →
        ∃ x, ScopeIndex.withParameters names position = .ok x ∧ Routine.Standing names r x := by
  have hstanding (names : List String) (position : Position) (r : Routine)
      (hr : Routine.withParameters names position = .ok r) :
      ∃ x, ScopeIndex.withParameters names position = .ok x ∧ Routine.Standing names r x := by
    obtain ⟨hdistinct, hnumbers, hhandles⟩ := Routine.withParameters_fresh hr
    obtain ⟨x, hx, hanswers⟩ := ScopeIndex.Answers.withParameters hr
    exact ⟨x, hx, hdistinct.standing hnumbers hhandles hanswers⟩
  refine ⟨?_, fun names position => ⟨Routine.exists_withParameters, hstanding names position⟩⟩
  obtain ⟨x, hx, h⟩ := hstanding [] {} {} rfl
  obtain rfl : x = {} := (Except.ok.inj hx).symm
  exact h

theorem symbols_stand_two :
    Routine.withParameters ["angle", "speed"] {} =
      .ok { numbers := ["angle", "speed"], parameterCount := 2 } ∧
    ∃ x, ScopeIndex.withParameters ["angle", "speed"] {} = .ok x ∧
      Routine.Standing ["angle", "speed"]
        { numbers := ["angle", "speed"], parameterCount := 2 } x := by
  have hmake : Routine.withParameters ["angle", "speed"] {} =
      .ok { numbers := ["angle", "speed"], parameterCount := 2 } := by decide
  exact ⟨hmake, (symbols_stand.2 ["angle", "speed"] {}).2 _ hmake⟩

end Danmaku
