import Danmaku.Proofs.Catalog.TypeIndex
import Danmaku.Proofs.Machine.Inversion

/-!
# What a property number means for an entity

Code names a property by its number and has an entity of a type that it does not know. Whatever the
history of the type table is, and however long ago its last rebuild was, the number leads to the
property of that name which had been bound to the entity's own type at the last rebuild, and to the
accessor that was bound, which never rejects the entity; or else it is said what is missing
(`TypeTable.Dispatches`).
-/

namespace Danmaku

namespace TypeTable

variable {t : TypeTable} {log : List TypeCall} {e : Entity} {g : Nat} {f : Fault}
  {typeName other name : String} {host : Nat} {accessor accessor' : Accessor}

/-! ## What the history knows only once -/

theorem Built.typeName_unique (h : Built log t) (hmem : .addType typeName host ∈ log)
    (hmem' : .addType other host ∈ log) : typeName = other := by
  obtain ⟨type, htype, rfl, hhost⟩ := h.records.addType_mem.1 hmem
  obtain ⟨type', htype', rfl, hhost'⟩ := h.records.addType_mem.1 hmem'
  rw [h.sound.eq_of_host htype htype' (hhost.trans hhost'.symm)]

theorem Built.accessor_unique (h : Built log t) (hmem : .addProperty typeName name accessor ∈ log)
    (hmem' : .addProperty typeName name accessor' ∈ log) : accessor = accessor' := by
  obtain ⟨type, htype, rfl⟩ := h.records.known _ _ _ hmem
  obtain ⟨p, hp, hname, rfl⟩ := (h.records.addProperty_mem htype).1 hmem
  obtain ⟨q, hq, hname', rfl⟩ := (h.records.addProperty_mem htype).1 hmem'
  rw [(h.sound.types type htype).eq_of_name hp hq (hname.trans hname'.symm)]

/-- An accessor is bound to the type of its own host type. -/
theorem Built.accessor_host (h : Built log t) (htype : .addType typeName host ∈ log)
    (hmem : .addProperty typeName name accessor ∈ log) : accessor.host = host := by
  obtain ⟨type, hmem', rfl, rfl⟩ := h.records.addType_mem.1 htype
  obtain ⟨p, hp, -, rfl⟩ := (h.records.addProperty_mem hmem').1 hmem
  exact (h.sound.types type hmem').hosts p hp

/-! ## Resolution -/

/-- What a number means for an entity by the history of the table. -/
inductive Means (t : TypeTable) (log : List TypeCall) (e : Entity) (g : Nat) :
    Except Fault Property → Prop
  /-- There is no such number. -/
  | unknown (far : t.propertyNames.length ≤ g) : Means t log e g (.error (.unknownProperty g))
  /-- The host type of the entity was never registered. -/
  | unregistered (near : g < t.propertyNames.length) (alien : ∀ name, .addType name e.host ∉ log) :
      Means t log e g (.error .unregisteredEntity)
  /-- The type of the entity had no property of that name. -/
  | missing {name typeName : String} (named : t.propertyNames[g]? = some name)
      (type : .addType typeName e.host ∈ log)
      (free : ∀ accessor, .addProperty typeName name accessor ∉ TypeCall.settled log) :
      Means t log e g (.error (.propertyNotOnType typeName name))
  /-- The property was bound to the type of the entity. -/
  | bound {name typeName : String} {p : Property} (named : t.propertyNames[g]? = some name)
      (type : .addType typeName e.host ∈ log)
      (bound : .addProperty typeName name p.accessor ∈ TypeCall.settled log) :
      Means t log e g (.ok p)

theorem Built.means (h : Built log t) (e : Entity) (g : Nat) :
    t.Means log e g (t.resolve e g) := by
  unfold resolve
  cases hname : t.propertyNames[g]? with
  | none => exact .unknown (List.getElem?_eq_none_iff.1 hname)
  | some name =>
    cases hhost : t.ofHost? e.host with
    | none =>
      refine .unregistered (List.getElem?_eq_some_iff.1 hname).1 fun typeName hmem => ?_
      obtain ⟨type, htype, -, heq⟩ := h.records.addType_mem.1 hmem
      rw [h.sound.ofHost?_eq_some.2 ⟨htype, heq⟩] at hhost
      cases hhost
    | some type =>
      obtain ⟨htype, heq⟩ := h.sound.ofHost?_eq_some.1 hhost
      have hmem := h.records.addType_mem.2 ⟨type, htype, rfl, heq⟩
      cases hat : type.propertyAt? g with
      | none =>
        simp only [hat]
        refine .missing hname hmem fun accessor hbound => ?_
        obtain ⟨p, hp, rfl, rfl⟩ :=
          (h.records.addProperty_mem htype).1 (TypeCall.settled_subset log hbound)
        have hnumber := (h.numbers.numbers type htype p hp g).2 ⟨hname, hbound⟩
        rw [(h.numbers.propertyAt?_eq_some h.sound htype).2 ⟨hp, hnumber⟩] at hat
        cases hat
      | some p =>
        obtain ⟨hp, hnumber⟩ := (h.numbers.propertyAt?_eq_some h.sound htype).1 hat
        obtain ⟨hpname, hbound⟩ := (h.numbers.numbers type htype p hp g).1 hnumber
        obtain rfl := Option.some.inj (hname.symm.trans hpname)
        simp only [hat]
        exact .bound hname hmem hbound

/-! ## Reading and writing -/

/-- Reading the property fails with a fault just if a condition holds, and so does writing. -/
def FailsIff (t : TypeTable) (e : Entity) (g : Nat) (f : Fault) (cond : Prop) : Prop :=
  (t.read e g = .error f ↔ cond) ∧ ∀ value, t.write e g value = .error f ↔ cond

/-- Reading and writing the property work, and go through an accessor. -/
def GoesThrough (t : TypeTable) (e : Entity) (g : Nat) (accessor : Accessor) : Prop :=
  (∃ value, accessor.read? e = some value ∧ t.read e g = .ok value) ∧
    ∀ value, ∃ e', accessor.write? e value = some e' ∧ t.write e g value = .ok e'

theorem goesThrough_of_resolve {p : Property} (h : t.resolve e g = .ok p)
    (hhost : e.host = p.accessor.host) : t.GoesThrough e g p.accessor := by
  have hread : p.accessor.read? e = some (p.accessor.field.get e.fields) := if_pos hhost
  have hwrite : ∀ value, p.accessor.write? e value =
      some { e with fields := p.accessor.field.set e.fields value } :=
    fun value => if_pos hhost
  exact ⟨⟨_, hread, by rw [read, h]; simp only [hread]⟩,
    fun value => ⟨_, hwrite value, by rw [write, h]; simp only [hwrite]⟩⟩

theorem Built.goesThrough {p : Property} (h : Built log t) (hp : t.resolve e g = .ok p) :
    t.GoesThrough e g p.accessor := by
  have hmeans := h.means e g
  rw [hp] at hmeans
  cases hmeans with
  | bound named type bound =>
    exact goesThrough_of_resolve hp
      (h.accessor_host type (TypeCall.settled_subset log bound)).symm

/-- Reading and writing fail as the search for the property does. -/
theorem Built.failsIff (h : Built log t) {cond : Prop}
    (hcond : t.resolve e g = .error f ↔ cond) : t.FailsIff e g f cond := by
  cases hp : t.resolve e g with
  | error f' =>
    have hread : t.read e g = .error f' := by rw [read, hp]
    have hwrite : ∀ value, t.write e g value = .error f' := fun value => by rw [write, hp]
    rw [hp, Except.error.injEq] at hcond
    exact ⟨by rw [hread, Except.error.injEq, hcond],
      fun value => by rw [hwrite, Except.error.injEq, hcond]⟩
  | ok p =>
    obtain ⟨⟨v, -, hread⟩, hwrite⟩ := h.goesThrough hp
    have hnot : ¬ cond := fun hc => by simpa [hp] using hcond.2 hc
    refine ⟨by simp [hread, hnot], fun value => ?_⟩
    obtain ⟨e', -, hwrite⟩ := hwrite value
    simp [hwrite, hnot]

/-- How numbers lead to properties. A number that stands for no name, an entity of a host type that
was never registered, and a type without a property of that name at the last rebuild are told apart,
in this order. Otherwise reading and writing go through the accessor that was bound under the name
to the type of the entity. In particular the number of a name leads to the property of that name, on
every type that had one. A machine that fails to set a property leaves the entity as it is. -/
structure Dispatches (t : TypeTable) (log : List TypeCall) : Prop where
  unknown : ∀ e g, t.FailsIff e g (.unknownProperty g) (t.propertyNames.length ≤ g)
  unregistered : ∀ e g, g < t.propertyNames.length →
    t.FailsIff e g .unregisteredEntity (∀ name, .addType name e.host ∉ log)
  missing : ∀ e g name typeName, t.propertyNames[g]? = some name →
    .addType typeName e.host ∈ log →
    t.FailsIff e g (.propertyNotOnType typeName name)
      (∀ accessor, .addProperty typeName name accessor ∉ TypeCall.settled log)
  bound : ∀ e g name typeName accessor, t.propertyNames[g]? = some name →
    .addType typeName e.host ∈ log →
    .addProperty typeName name accessor ∈ TypeCall.settled log → t.GoesThrough e g accessor
  named : ∀ e name typeName accessor, .addType typeName e.host ∈ log →
    .addProperty typeName name accessor ∈ TypeCall.settled log →
    ∃ g, t.globalIndex? name = some g ∧ t.GoesThrough e g accessor
  kept : ∀ g c c' f, Exec.setProperty t g c = .error f c' → c'.entity = c.entity

/-- A name that has a number is found on the type of the entity just if it was bound to it. -/
theorem Built.resolve_typed (h : Built log t) (hname : t.propertyNames[g]? = some name)
    (htype : .addType typeName e.host ∈ log) :
    (∃ p, t.resolve e g = .ok p ∧
      .addProperty typeName name p.accessor ∈ TypeCall.settled log) ∨
    (t.resolve e g = .error (.propertyNotOnType typeName name) ∧
      ∀ accessor, .addProperty typeName name accessor ∉ TypeCall.settled log) := by
  have hmeans := h.means e g
  generalize t.resolve e g = r at hmeans
  cases hmeans with
  | unknown far => exact absurd (List.getElem?_eq_some_iff.1 hname).1 (Nat.not_lt.2 far)
  | unregistered near alien => exact absurd htype (alien typeName)
  | missing named type free =>
    obtain rfl := Option.some.inj (hname.symm.trans named)
    obtain rfl := h.typeName_unique htype type
    exact .inr ⟨rfl, free⟩
  | bound named type bound =>
    obtain rfl := Option.some.inj (hname.symm.trans named)
    obtain rfl := h.typeName_unique htype type
    exact .inl ⟨_, rfl, bound⟩

theorem Built.goesThrough_of_bound (h : Built log t) (hname : t.propertyNames[g]? = some name)
    (htype : .addType typeName e.host ∈ log)
    (hbound : .addProperty typeName name accessor ∈ TypeCall.settled log) :
    t.GoesThrough e g accessor := by
  obtain ⟨p, hp, hp'⟩ | ⟨-, hfree⟩ := h.resolve_typed hname htype
  · obtain rfl := h.accessor_unique (TypeCall.settled_subset log hp')
      (TypeCall.settled_subset log hbound)
    exact h.goesThrough hp
  · exact absurd hbound (hfree accessor)

theorem Built.resolve_eq_unknown (h : Built log t) :
    t.resolve e g = .error (.unknownProperty g) ↔ t.propertyNames.length ≤ g := by
  have hmeans := h.means e g
  generalize t.resolve e g = r at hmeans
  cases hmeans with
  | unknown far => exact iff_of_true rfl far
  | unregistered near alien => exact iff_of_false nofun (Nat.not_le.2 near)
  | missing named type free =>
    exact iff_of_false nofun (Nat.not_le.2 (List.getElem?_eq_some_iff.1 named).1)
  | bound named type bound =>
    exact iff_of_false nofun (Nat.not_le.2 (List.getElem?_eq_some_iff.1 named).1)

theorem Built.resolve_eq_unregistered (h : Built log t) (hg : g < t.propertyNames.length) :
    t.resolve e g = .error .unregisteredEntity ↔ ∀ name, .addType name e.host ∉ log := by
  have hmeans := h.means e g
  generalize t.resolve e g = r at hmeans
  cases hmeans with
  | unknown far => exact absurd hg (Nat.not_lt.2 far)
  | unregistered near alien => exact iff_of_true rfl alien
  | missing named type free => exact iff_of_false nofun fun alien => alien _ type
  | bound named type bound => exact iff_of_false nofun fun alien => alien _ type

theorem Built.resolve_eq_missing (h : Built log t) (hname : t.propertyNames[g]? = some name)
    (htype : .addType typeName e.host ∈ log) :
    t.resolve e g = .error (.propertyNotOnType typeName name) ↔
      ∀ accessor, .addProperty typeName name accessor ∉ TypeCall.settled log := by
  obtain ⟨p, hp, hbound⟩ | ⟨hmissing, hfree⟩ := h.resolve_typed hname htype
  · rw [hp]
    exact iff_of_false nofun fun hfree => hfree p.accessor hbound
  · exact iff_of_true hmissing hfree

/-- **Whatever calls made a table, its numbers lead to the properties that the calls bound**, and
the maps of the index lead to the same. -/
theorem numbers_dispatch (calls : List TypeCall) :
    (made calls).Dispatches (history calls) ∧ (TypeIndex.made calls).Answers (made calls) := by
  have h := built_made calls
  refine ⟨⟨?_, ?_, ?_, ?_, ?_, ?_⟩, TypeIndex.made_answers calls⟩
  · intro e g
    exact h.failsIff h.resolve_eq_unknown
  · intro e g hg
    exact h.failsIff (h.resolve_eq_unregistered hg)
  · intro e g name typeName hname htype
    exact h.failsIff (h.resolve_eq_missing hname htype)
  · intro e g name typeName accessor hname htype hbound
    exact h.goesThrough_of_bound hname htype hbound
  · intro e name typeName accessor htype hbound
    obtain ⟨g, hg⟩ := List.mem_iff_getElem?.1 (h.numbers.known _ _ _ hbound)
    exact ⟨g, h.numbers.globalIndex?_eq_some.2 hg, h.goesThrough_of_bound hg htype hbound⟩
  · intro g c c' f hfail
    rw [(Exec.setProperty_eq_error.1 hfail).1]

/-- A speed of emitters. What is set is kept twice, and the second is what is read. -/
def twofold : Accessor where
  host := 1
  field := {
    get fields := fields.getD 1 0
    set _ value := #[value, value] }

/-- Two types that share a property name, and a property that came after the rebuild. -/
def stale : List TypeCall :=
  [.addType "bullet" 0, .addType "emitter" 1, .addProperty "bullet" "speed" ⟨0, .ofPlace 1⟩,
    .addProperty "emitter" "x" ⟨0, .ofPlace 0⟩, .addProperty "emitter" "speed" twofold, .rebuild,
    .addProperty "emitter" "angle" ⟨1, .ofPlace 1⟩]

theorem stale_dispatches :
    (made stale).propertyNames[0]? = some "speed" ∧ .addType "emitter" 1 ∈ history stale ∧
      .addProperty "emitter" "speed" twofold ∈ TypeCall.settled (history stale) ∧
      (made stale).GoesThrough ⟨1, #[]⟩ 0 twofold := by
  have hname : (made stale).propertyNames[0]? = some "speed" := by decide
  have htype : .addType "emitter" 1 ∈ history stale := List.mem_of_getElem? (i := 1) rfl
  have hbound : .addProperty "emitter" "speed" twofold ∈ TypeCall.settled (history stale) :=
    List.mem_of_getElem? (i := 3) rfl
  exact ⟨hname, htype, hbound,
    (numbers_dispatch stale).1.bound ⟨1, #[]⟩ 0 "speed" "emitter" twofold hname htype hbound⟩

/-- A type that is registered after the last rebuild has no numbers yet. -/
example : (made [.addType "bullet" 0, .addProperty "bullet" "x" ⟨0, .ofPlace 0⟩, .rebuild,
    .addType "emitter" 1, .addProperty "emitter" "x" ⟨1, .ofPlace 0⟩]).read ⟨1, #[]⟩ 0 =
      .error (.propertyNotOnType "emitter" "x") := rfl

end TypeTable

end Danmaku
