import Danmaku.Proofs.Catalog.Calls
import Danmaku.Proofs.Catalog.Growth

/-!
# Tables with hash maps

A table gives numbers to keys for good: each key has one number below the size and each such number
one key, a record has the number at which it stands, and no later call gives a number to another key
(`Table.Standing`). A call may be refused, and a routine may take the place of another.

A table is searched from its beginning. A `TableIndex` keeps the records by themselves, and finds
them by a hash map from keys to numbers; a `RoutineIndex` keeps the names in an array besides. They
are changed in place, one part after the other, and answer as the tables do, whatever the calls were
(`tables_stand`).
-/

namespace Danmaku

/-! ## What stands -/

namespace Table

variable {κ α β γ τ : Type} [DecidableEq κ] {t t' : Table κ α} {own : κ → Nat → α → Prop}

/-- Keys and the numbers below the size belong to each other, one to one. The record of a key is
that of its number, and is one that belongs to them. -/
structure Numbered (own : κ → Nat → α → Prop) (t : Table κ α) : Prop where
  number : ∀ key i, t.indexOf? key = some i ↔ t.keyAt? i = some key
  below : ∀ i, i < t.size ↔ ∃ key, t.keyAt? i = some key
  record : ∀ key i, t.indexOf? key = some i →
    ∃ r, t.find? key = some r ∧ t.at? i = some r ∧ own key i r

/-- What a call that is not refused does: a new key comes last, or a record takes the place of
another. -/
inductive Step (own : κ → Nat → α → Prop) (t : Table κ α) : Table κ α → Prop
  | add {key : κ} {make : Nat → α} {n : Nat} {t' : Table κ α}
      (add : t.add? key make = some (n, t')) (new : own key n (make n)) : Step own t t'
  | replace {i : Nat} {r : α} {t' : Table κ α} (replace : t.replace? i r = some t')
      (new : ∀ key, own key i r) : Step own t t'

/-- A key has kept its number. -/
theorem Step.indexOf? (h : t.Step own t') {key : κ} {i : Nat} (hi : t.indexOf? key = some i) :
    t'.indexOf? key = some i := by
  cases h with
  | add add _ => exact indexOf?_add?_of_some add hi
  | replace replace _ => rw [indexOf?_replace? replace, hi]

/-- Looking up a key or a number finds what stands there in every table. So what is left is that no
key stands twice, and that records belong where they stand. -/
theorem numbered_of (hnumber : ∀ key i, t.keyAt? i = some key → t.indexOf? key = some i)
    (hown : ∀ key i r, t.keyAt? i = some key → t.at? i = some r → own key i r) :
    t.Numbered own where
  number key i := ⟨keyAt?_of_indexOf?, hnumber key i⟩
  below i := lt_size_iff
  record key i hi := by
    obtain ⟨r, hr⟩ := at?_of_indexOf? hi
    exact ⟨r, find?_eq_some.2 ⟨i, hi, hr⟩, hr, hown key i r (keyAt?_of_indexOf? hi) hr⟩

theorem numbered_empty : Numbered own ({} : Table κ α) :=
  numbered_of (fun _ _ h => by cases h) fun _ _ _ h => by cases h

theorem Numbered.belongs (h : t.Numbered own) {key : κ} {i : Nat} {r : α}
    (hkey : t.keyAt? i = some key) (hr : t.at? i = some r) : own key i r := by
  obtain ⟨r', -, hr', hown⟩ := h.record key i ((h.number key i).2 hkey)
  rw [hr] at hr'
  exact Option.some.inj hr' ▸ hown

theorem Numbered.step (h : t.Numbered own) (hstep : t.Step own t') : t'.Numbered own := by
  cases hstep with
  | add add new =>
    obtain rfl := (add?_inv add).1
    refine numbered_of (fun key i hkey => ?_) fun key i r hkey hr => ?_
    · rw [keyAt?_add? add] at hkey
      split at hkey
      · next hi => rw [indexOf?_add? add, if_pos (Option.some.inj hkey).symm, hi]
      · exact indexOf?_add?_of_some add ((h.number key i).2 hkey)
    · rw [keyAt?_add? add] at hkey
      rw [at?_add? add] at hr
      split at hkey
      · next hi =>
        rw [if_pos hi] at hr
        obtain rfl := Option.some.inj hkey
        obtain rfl := Option.some.inj hr
        exact hi ▸ new
      · next hi =>
        rw [if_neg hi] at hr
        exact h.belongs hkey hr
  | replace replace new =>
    refine numbered_of (fun key i hkey => ?_) fun key i r hkey hr => ?_
    · rw [keyAt?_replace? replace] at hkey
      rw [indexOf?_replace? replace]
      exact (h.number key i).2 hkey
    · rw [keyAt?_replace? replace] at hkey
      rw [at?_replace? replace] at hr
      split at hr
      · next hi =>
        obtain rfl := Option.some.inj hr
        exact hi ▸ new key
      · exact h.belongs hkey hr

/-- What every accepted call does to a table holds of the tables that calls make, and of what they
leave of each other. -/
theorem after_numbered {call : Table κ α → γ → Except RegistrationError (β × Table κ α)}
    (step : ∀ t c b t', call t c = .ok (b, t') → t.Step own t') (calls : List γ) :
    (Calls.after call {} calls).Numbered own :=
  Calls.after_induct (fun t c b t' h ht => ht.step (step t c b t' h)) numbered_empty calls

theorem indexOf?_after {call : Table κ α → γ → Except RegistrationError (β × Table κ α)}
    (step : ∀ t c b t', call t c = .ok (b, t') → t.Step own t') (calls : List γ) {key : κ} {i : Nat}
    (hi : t.indexOf? key = some i) : (Calls.after call t calls).indexOf? key = some i :=
  Calls.after_induct (P := fun t => t.indexOf? key = some i)
    (fun t c b t' h ht => (step t c b t' h).indexOf? ht) hi calls

/-- Numbers stand for good in a table that is made by calls, and a store that is changed by the same
calls mirrors it. -/
structure Standing (own : κ → Nat → α → Prop)
    (call : Table κ α → γ → Except RegistrationError (β × Table κ α))
    (act : τ → γ → Except RegistrationError β × τ) (R : τ → Table κ α → Prop) (empty : τ) :
    Prop where
  /-- Keys and numbers belong to each other. -/
  numbered : ∀ calls, (Calls.after call {} calls).Numbered own
  /-- A number is of one key for ever. -/
  kept : ∀ calls more key i, (Calls.after call {} calls).indexOf? key = some i →
    ∀ other, (Calls.after call {} (calls ++ more)).indexOf? other = some i ↔ other = key
  /-- The store answers as the table does. -/
  mirrors : Calls.Mirrors R act call empty {}

theorem standing_of {call : Table κ α → γ → Except RegistrationError (β × Table κ α)}
    {act : τ → γ → Except RegistrationError β × τ} {R : τ → Table κ α → Prop} {empty : τ}
    (step : ∀ t c b t', call t c = .ok (b, t') → t.Step own t') (hempty : R empty {})
    (alike : ∀ x t c, R x t → Calls.Alike R x (act x c) (call t c)) :
    Standing own call act R empty where
  numbered := after_numbered step
  kept calls more key i hi other := by
    have hkey := indexOf?_after step more hi
    rw [← Calls.after_append] at hkey
    refine ⟨fun hother => ?_, fun h => h ▸ hkey⟩
    have hnumber := (after_numbered step (calls ++ more)).number
    rw [hnumber] at hkey hother
    exact Option.some.inj (hother.symm.trans hkey)
  mirrors := Calls.mirrors_of alike hempty

end Table

/-! ## Records with a map of their numbers -/

/-- Records by number, with the number of each key in a hash map. -/
structure TableIndex (κ α : Type) [DecidableEq κ] [Hashable κ] where
  records : Array α := #[]
  numbers : Std.HashMap κ Nat := ∅

namespace TableIndex

variable {κ α : Type} [DecidableEq κ] [Hashable κ] {x : TableIndex κ α} {t : Table κ α}

/-- How many records there are. -/
def size (x : TableIndex κ α) : Nat := x.records.size

/-- The number of a key. -/
def indexOf? (x : TableIndex κ α) (key : κ) : Option Nat := x.numbers[key]?

/-- The record of a number. -/
def at? (x : TableIndex κ α) (i : Nat) : Option α := x.records[i]?

/-- The record of a key, which is found by its number. -/
def find? (x : TableIndex κ α) (key : κ) : Option α := (x.indexOf? key).bind x.at?

/-- Enter what `make` yields for the next number under a key, unless the key is there. -/
def add (x : TableIndex κ α) (key : κ) (make : Nat → α) (refusal : RegistrationError) :
    Except RegistrationError Nat × TableIndex κ α :=
  if x.numbers.contains key then (.error refusal, x)
  else
    let index := x.records.size
    (.ok index, ⟨x.records.push (make index), x.numbers.insert key index⟩)

/-- All that is looked up is what it is in a table. -/
structure Answers (x : TableIndex κ α) (t : Table κ α) : Prop where
  size : x.size = t.size
  number : ∀ key, x.indexOf? key = t.indexOf? key
  recordAt : ∀ i, x.at? i = t.at? i
  record : ∀ key, x.find? key = t.find? key

theorem answers_of (hsize : x.size = t.size) (hnumber : ∀ key, x.indexOf? key = t.indexOf? key)
    (hat : ∀ i, x.at? i = t.at? i) : x.Answers t where
  size := hsize
  number := hnumber
  recordAt := hat
  record key := by rw [find?, hnumber, Table.find?, funext hat]

theorem answers_empty : Answers ({} : TableIndex κ α) {} :=
  answers_of rfl (fun _ => Std.HashMap.getElem?_empty.trans Array.findIdx?_empty.symm) fun _ => rfl

theorem Answers.contains [LawfulHashable κ] (h : x.Answers t) (key : κ) :
    x.numbers.contains key = t.contains key := by
  rw [Std.HashMap.contains_eq_isSome_getElem?, Table.contains, ← h.number key]
  rfl

/-- A key is new in both, or in none. -/
theorem Answers.add [LawfulHashable κ] (h : x.Answers t) {key : κ} {make : Nat → α}
    {refusal : RegistrationError} {outcome : Except RegistrationError (Nat × Table κ α)}
    (hsome : ∀ result, t.add? key make = some result → outcome = .ok result)
    (hnone : t.add? key make = none → outcome = .error refusal) :
    Calls.Alike Answers x (x.add key make refusal) outcome := by
  unfold TableIndex.add
  rw [h.contains, show x.records.size = t.size from h.size]
  cases hadd : t.add? key make with
  | none =>
    have hkey : t.contains key = true := by
      by_contra hnew
      rw [Table.add?, if_neg hnew] at hadd
      cases hadd
    rw [if_pos hkey, hnone hadd]
    exact .refused _
  | some result =>
    rw [hsome result hadd]
    obtain ⟨n, t'⟩ := result
    obtain ⟨rfl, hkey, -⟩ := Table.add?_inv hadd
    have hnew : ¬t.contains key = true := by rw [Table.contains, hkey]; exact Bool.false_ne_true
    rw [if_neg hnew]
    refine .accepted _ (answers_of ?_ (fun other => ?_) fun i => ?_)
    · rw [Table.size_add? hadd, ← h.size]
      exact Array.size_push _
    · rw [Table.indexOf?_add? hadd, ← h.number other, indexOf?, Std.HashMap.getElem?_insert,
        indexOf?]
      by_cases hk : other = key
      · rw [if_pos hk, if_pos (beq_iff_eq.2 hk.symm)]
      · rw [if_neg hk, if_neg fun heq => hk (beq_iff_eq.1 heq).symm]
    · rw [Table.at?_add? hadd, ← h.recordAt i, at?, Array.getElem?_push, ← h.size]
      rfl

end TableIndex

/-! ## The tables of a catalog -/

/-! ### Firing functions -/

/-- Enter the firing function of a type, a name and an arity. -/
def FiringTable.call (t : FiringTable) (c : String × String × Nat) :
    Except RegistrationError (Nat × FiringTable) :=
  t.add c.1 c.2.1 c.2.2

/-- The same in place. -/
def TableIndex.addFiring (x : TableIndex (String × String) FiringFunction)
    (c : String × String × Nat) :
    Except RegistrationError Nat × TableIndex (String × String) FiringFunction :=
  x.add (c.1, c.2.1) (fun index => ⟨c.1, c.2.1, index, c.2.2⟩)
    (.duplicateEntry (FiringFunction.fullName c.1 c.2.1) "firing function")

theorem FiringTable.step_of_call {t t' : FiringTable} {c : String × String × Nat} {n : Nat}
    (h : t.call c = .ok (n, t')) :
    Table.Step (fun key i f => f.index = i ∧ (f.typeName, f.name) = key) t t' := by
  unfold call add at h
  split at h
  · next hadd =>
    obtain rfl := Except.ok.inj h
    exact .add hadd ⟨rfl, rfl⟩
  · cases h

/-! ### Delegates -/

/-- Enter the delegate of a name. -/
def DelegateTable.call (t : DelegateTable) (c : String × Delegate) :
    Except RegistrationError (Nat × DelegateTable) :=
  t.add c.1 c.2

/-- The same in place. -/
def TableIndex.addDelegate (x : TableIndex String DelegateEntry) (c : String × Delegate) :
    Except RegistrationError Nat × TableIndex String DelegateEntry :=
  x.add c.1 (fun index => ⟨c.1, index, c.2⟩) (.duplicateEntry c.1 "external function")

theorem DelegateTable.step_of_call {t t' : DelegateTable} {c : String × Delegate} {n : Nat}
    (h : t.call c = .ok (n, t')) :
    Table.Step (fun key i d => d.index = i ∧ d.name = key) t t' := by
  unfold call add at h
  split at h
  · next hadd =>
    obtain rfl := Except.ok.inj h
    exact .add hadd ⟨rfl, rfl⟩
  · cases h

/-! ### Routines -/

/-- What a host can ask of a table of routines. -/
inductive RoutineCall
  /-- Enter a routine under a name. -/
  | add (name : String) (r : Routine)
  /-- Put a routine in the place of another. -/
  | replace (index : Nat) (r : Routine)

/-- The table that a call makes, unless it is refused. The answer has the number of a routine that
is entered. -/
def RoutineTable.call (kind : RoutineKind) (t : RoutineTable) :
    RoutineCall → Except RegistrationError (Option Nat × RoutineTable)
  | .add name r => (t.add kind name r).map (Prod.map some id)
  | .replace index r => (t.replace kind index r).map (none, ·)

theorem RoutineTable.step_of_call {kind : RoutineKind} {t t' : RoutineTable} {c : RoutineCall}
    {answer : Option Nat} (h : RoutineTable.call kind t c = .ok (answer, t')) :
    Table.Step (fun _ i r => r.index? = some i) t t' := by
  cases c with
  | add name r =>
    obtain ⟨⟨n, t₁⟩, hadd, heq⟩ := map_eq_ok.1 h
    obtain ⟨-, rfl⟩ := Prod.mk.inj heq
    exact .add (add_inv hadd) rfl
  | replace i r =>
    obtain ⟨t₁, hreplace, heq⟩ := map_eq_ok.1 h
    obtain ⟨-, rfl⟩ := Prod.mk.inj heq
    exact .replace (replace_inv hreplace) fun _ => rfl

/-- Routines by number, with their names by number and the number of each name in a hash map. -/
structure RoutineIndex extends TableIndex String Routine where
  names : Array String := #[]

namespace RoutineIndex

/-- Enter a routine under a new name; it learns its number. -/
def add (x : RoutineIndex) (kind : RoutineKind) (name : String) (r : Routine) :
    Except RegistrationError Nat × RoutineIndex :=
  match x.toTableIndex.add name (fun index => { r with index? := some index })
      (.duplicateEntry name kind.text) with
  | (.error e, y) => (.error e, { x with toTableIndex := y })
  | (.ok index, y) => (.ok index, { toTableIndex := y, names := x.names.push name })

/-- Put a routine in the place of another; it learns its number. -/
def replace (x : RoutineIndex) (kind : RoutineKind) (index : Nat) (r : Routine) :
    Except RegistrationError Unit × RoutineIndex :=
  if index < x.records.size then
    (.ok (), { x with records := x.records.setIfInBounds index { r with index? := some index } })
  else (.error (.indexOutOfRange kind.text index), x)

/-- A call in place. -/
def call (kind : RoutineKind) (x : RoutineIndex) :
    RoutineCall → Except RegistrationError (Option Nat) × RoutineIndex
  | .add name r => (x.add kind name r).map (Except.map some) id
  | .replace index r => (x.replace kind index r).map (Except.map fun () => none) id

/-- All that is looked up is what it is in a table. -/
structure Answers (x : RoutineIndex) (t : RoutineTable) : Prop
    extends TableIndex.Answers x.toTableIndex t where
  name : ∀ i, x.names[i]? = t.keyAt? i

variable {x : RoutineIndex} {t : RoutineTable}

theorem Answers.size_names (h : x.Answers t) : x.names.size = t.size := by
  refine eq_of_forall_lt_iff fun i => ?_
  rw [Table.lt_size_iff, ← h.name i]
  simp [Array.getElem?_eq_some_iff]

theorem Answers.add (h : x.Answers t) (kind : RoutineKind) (name : String) (r : Routine) :
    Calls.Alike Answers x (x.add kind name r) (t.add kind name r) := by
  have halike : Calls.Alike TableIndex.Answers x.toTableIndex
      (x.toTableIndex.add name (fun index => { r with index? := some index })
        (.duplicateEntry name kind.text)) (t.add kind name r) :=
    h.toAnswers.add (fun result hadd => by rw [RoutineTable.add, hadd])
      fun hadd => by rw [RoutineTable.add, hadd]
  unfold RoutineIndex.add
  generalize x.toTableIndex.add name _ _ = outcome at halike ⊢
  cases hadd : t.add kind name r with
  | error e =>
    rw [hadd] at halike
    cases halike
    exact .refused _
  | ok result =>
    rw [hadd] at halike
    cases halike with
    | accepted n h' =>
      refine .accepted n ⟨h', fun i => ?_⟩
      rw [Table.keyAt?_add? (RoutineTable.add_inv hadd), ← h.name i, Array.getElem?_push,
        h.size_names]

theorem Answers.call (h : x.Answers t) (kind : RoutineKind) (c : RoutineCall) :
    Calls.Alike Answers x (x.call kind c) (RoutineTable.call kind t c) := by
  cases c with
  | add name r => exact (h.add kind name r).map some
  | replace i r =>
    have hsize : x.records.size = t.size := h.size
    unfold RoutineIndex.call RoutineIndex.replace RoutineTable.call RoutineTable.replace
    dsimp only [Prod.map, id]
    cases hreplace : t.replace? i { r with index? := some i } with
    | none =>
      rw [if_neg (hsize ▸ Nat.not_lt.2 (Table.replace?_eq_none_iff.1 hreplace))]
      exact .refused _
    | some t' =>
      obtain ⟨old, hold, -⟩ := Table.replace?_inv hreplace
      have hlt : i < x.records.size := hsize ▸ (Array.getElem?_eq_some_iff.1 hold).1
      rw [if_pos hlt]
      refine .accepted _ ⟨TableIndex.answers_of ?_ (fun name => ?_) fun j => ?_, fun j => ?_⟩
      · rw [Table.size_replace? hreplace, ← h.size]
        exact Array.size_setIfInBounds
      · rw [Table.indexOf?_replace? hreplace]
        exact h.number name
      · rw [Table.at?_replace? hreplace, ← h.recordAt j, TableIndex.at?,
          Array.getElem?_setIfInBounds, if_pos hlt]
        simp only [@eq_comm _ i j]
        rfl
      · rw [Table.keyAt?_replace? hreplace]
        exact h.name j

end RoutineIndex

/-- What takes the place of a routine takes nothing else, and there must be one. -/
theorem RoutineTable.replace_cases (kind : RoutineKind) (t : RoutineTable) (i : Nat) (r : Routine) :
    (t.size ≤ i ∧ t.replace kind i r = .error (.indexOutOfRange kind.text i)) ∨
    ∃ t', t.replace kind i r = .ok t' ∧ t'.size = t.size ∧
      (∀ name, t'.indexOf? name = t.indexOf? name) ∧ (∀ j, t'.keyAt? j = t.keyAt? j) ∧
      ∀ j, t'.at? j = if j = i then some { r with index? := some i } else t.at? j := by
  unfold replace
  cases hreplace : t.replace? i { r with index? := some i } with
  | none => exact .inl ⟨Table.replace?_eq_none_iff.1 hreplace, rfl⟩
  | some t' =>
    exact .inr ⟨t', rfl, Table.size_replace? hreplace,
      fun name => Table.indexOf?_replace? hreplace, fun j => Table.keyAt?_replace? hreplace,
      fun j => Table.at?_replace? hreplace⟩

/-- **Numbers stand for good** in all tables of a catalog, whatever the calls were. The record of a
number knows it, and so does a firing function or a delegate its key. What takes the place of a
routine takes nothing else. -/
theorem tables_stand :
    (∀ kind, Table.Standing (fun _ i r => r.index? = some i) (RoutineTable.call kind)
      (RoutineIndex.call kind) RoutineIndex.Answers {}) ∧
    Table.Standing (fun key i f => f.index = i ∧ (f.typeName, f.name) = key) FiringTable.call
      TableIndex.addFiring TableIndex.Answers {} ∧
    Table.Standing (fun key i d => d.index = i ∧ d.name = key) DelegateTable.call
      TableIndex.addDelegate TableIndex.Answers {} ∧
    ∀ (kind : RoutineKind) (t : RoutineTable) (i : Nat) (r : Routine),
      (t.size ≤ i ∧ t.replace kind i r = .error (.indexOutOfRange kind.text i)) ∨
      ∃ t', t.replace kind i r = .ok t' ∧ t'.size = t.size ∧
        (∀ name, t'.indexOf? name = t.indexOf? name) ∧ (∀ j, t'.keyAt? j = t.keyAt? j) ∧
        ∀ j, t'.at? j = if j = i then some { r with index? := some i } else t.at? j := by
  refine ⟨fun kind => ?_, ?_, ?_, RoutineTable.replace_cases⟩
  · exact Table.standing_of (fun t c b t' => RoutineTable.step_of_call)
      ⟨TableIndex.answers_empty, fun _ => rfl⟩ fun x t c h => h.call kind c
  · exact Table.standing_of (fun t c b t' => FiringTable.step_of_call) TableIndex.answers_empty
      fun x t c h => h.add (fun result hadd => by rw [FiringTable.call, FiringTable.add, hadd])
        fun hadd => by rw [FiringTable.call, FiringTable.add, hadd]
  · exact Table.standing_of (fun t c b t' => DelegateTable.step_of_call) TableIndex.answers_empty
      fun x t c h => h.add (fun result hadd => by rw [DelegateTable.call, DelegateTable.add, hadd])
        fun hadd => by rw [DelegateTable.call, DelegateTable.add, hadd]

end Danmaku
