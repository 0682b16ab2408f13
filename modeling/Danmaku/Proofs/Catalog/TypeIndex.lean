import Danmaku.Proofs.Catalog.Numbering

/-!
# Type tables with hash maps

A type table is searched from its beginning. A `TypeIndex` holds the same types and names, and finds
them by five hash maps: types by name and by host type, property names by themselves, and the
properties of a type by name and by global number. Each call mends the maps that it touches, and a
rebuild goes over all properties in one pass that numbers them and fills two of the maps.

The index and the table give the same answers, whatever the calls were (`TypeIndex.made_answers`).
-/

namespace Danmaku

/-! ## Maps of places -/

/-- The map has the place of the first entry that a key is for. -/
def Locates {κ α : Type} [BEq κ] [Hashable κ] (places : Std.HashMap κ Nat) (isFor : κ → α → Bool)
    (xs : List α) : Prop :=
  ∀ key, places[key]? = xs.findIdx? (isFor key)

namespace Locates

variable {κ α : Type} [BEq κ] [Hashable κ] {places : Std.HashMap κ Nat} {isFor : κ → α → Bool}
  {xs : List α} {x : α} {key : κ} {i : Nat}

theorem empty : Locates (∅ : Std.HashMap κ Nat) isFor [] := fun _ => Std.HashMap.getElem?_empty

/-- What stands at a place that the map holds is what a search finds. -/
theorem find? (h : Locates places isFor xs) :
    xs.find? (isFor key) = places[key]?.bind fun i => xs[i]? := by
  rw [h key, List.find?_eq_bind_findIdx?_getElem?]

/-- A place that the map holds is one of the list. -/
theorem getElem? (h : Locates places isFor xs) (hi : places[key]? = some i) :
    ∃ x, xs[i]? = some x ∧ xs.find? (isFor key) = some x := by
  obtain ⟨hlt, -⟩ := List.findIdx?_eq_some_iff_getElem.1 ((h key).symm.trans hi)
  refine ⟨xs[i], List.getElem?_eq_getElem hlt, ?_⟩
  rw [h.find?, hi, Option.bind_some, List.getElem?_eq_getElem hlt]

/-- An entry that comes last and that no key is for. -/
theorem append (h : Locates places isFor xs) (hx : ∀ other, isFor other x = false) :
    Locates places isFor (xs ++ [x]) := by
  intro other
  rw [h other, List.findIdx?_append, List.findIdx?_singleton, hx]
  simp

/-- Entries that are changed so that the same keys are for them. -/
theorem map {f : α → α} (h : Locates places isFor xs)
    (hf : ∀ key x, isFor key (f x) = isFor key x) : Locates places isFor (xs.map f) := by
  intro key
  rw [h key, List.findIdx?_map]
  exact congrArg (xs.findIdx? ·) (funext fun x => (hf key x).symm)

variable [LawfulBEq κ]

theorem contains (h : Locates places isFor xs) :
    places.contains key = (xs.find? (isFor key)).isSome := by
  rw [Std.HashMap.contains_eq_isSome_getElem?, h key, List.findIdx?_isSome, Bool.eq_iff_iff,
    List.any_eq_true, List.find?_isSome]

/-- An entry that comes last under a new key. -/
theorem insert (h : Locates places isFor xs) (hnew : ∀ y ∈ xs, isFor key y = false)
    (hx : ∀ other, isFor other x = (key == other)) :
    Locates (places.insert key xs.length) isFor (xs ++ [x]) := by
  intro other
  rw [Std.HashMap.getElem?_insert, List.findIdx?_append, List.findIdx?_singleton, hx]
  split
  · next heq =>
    rw [← eq_of_beq heq, List.findIdx?_eq_none_iff.2 hnew]
    simp
  · simp [h other]

end Locates

/-- The property with the number of its name. -/
def Property.numbered (names : List String) (p : Property) : Property :=
  { p with globalIndex? := names.idxOf? p.name }

/-! ## The index -/

/-- An entity type, with the places of its properties by name and by global number. -/
structure IndexedType extends EntityType where
  byName : Std.HashMap String Nat := ∅
  byGlobal : Std.HashMap Nat Nat := ∅

namespace IndexedType

/-- The property of a name. -/
def property? (type : IndexedType) (name : String) : Option Property :=
  type.byName[name]?.bind fun i => type.properties[i]?

/-- The property of a global number. -/
def propertyAt? (type : IndexedType) (globalIndex : Nat) : Option Property :=
  type.byGlobal[globalIndex]?.bind fun i => type.properties[i]?

/-- The type with one more property. -/
def bind (type : IndexedType) (name : String) (accessor : Accessor) : IndexedType :=
  { type with
    properties := type.properties ++ [⟨name, type.properties.length, none, accessor⟩]
    byName := type.byName.insert name type.properties.length }

/-- The maps have the places of the properties. -/
structure Coherent (type : IndexedType) : Prop where
  byName : Locates type.byName (fun name p => decide (p.name = name)) type.properties
  byGlobal : Locates type.byGlobal (fun g p => decide (p.globalIndex? = some g)) type.properties

theorem Coherent.property? {type : IndexedType} (h : type.Coherent) (name : String) :
    type.property? name = type.toEntityType.property? name := h.byName.find?.symm

theorem Coherent.propertyAt? {type : IndexedType} (h : type.Coherent) (g : Nat) :
    type.propertyAt? g = type.toEntityType.propertyAt? g := h.byGlobal.find?.symm

theorem Coherent.bind {type : IndexedType} {name : String} (h : type.Coherent)
    (hname : type.toEntityType.property? name = none) (accessor : Accessor) :
    (type.bind name accessor).Coherent where
  byName := h.byName.insert (by simpa [EntityType.property?] using hname) fun other => rfl
  byGlobal := h.byGlobal.append fun other => rfl

end IndexedType

/-- Entity types and property names, with the places of the types by name and by host type, and the
numbers of the property names. -/
structure TypeIndex where
  types : List IndexedType := []
  byName : Std.HashMap String Nat := ∅
  byHost : Std.HashMap Nat Nat := ∅
  propertyNames : List String := []
  byProperty : Std.HashMap String Nat := ∅

namespace TypeIndex

/-- The entity type of a name. -/
def find? (x : TypeIndex) (name : String) : Option IndexedType :=
  x.byName[name]?.bind fun i => x.types[i]?

/-- The entity type of a host type. -/
def ofHost? (x : TypeIndex) (host : Nat) : Option IndexedType :=
  x.byHost[host]?.bind fun i => x.types[i]?

/-- The global number of a property name. -/
def globalIndex? (x : TypeIndex) (name : String) : Option Nat := x.byProperty[name]?

/-- Register a host type under a name. -/
def addType (x : TypeIndex) (name : String) (host : Nat) :
    Except RegistrationError (Nat × TypeIndex) :=
  if x.byName.contains name then .error (.duplicateType name)
  else
    match x.byHost[host]? with
    | some i =>
      match x.types[i]? with
      | some existing => .error (.duplicateHost existing.name name)
      | none => .error (.indexOutOfRange "type" i)
    | none =>
      let index := x.types.length
      .ok (index, { x with
        types := x.types ++ [{ name, index, host, properties := [] }]
        byName := x.byName.insert name index
        byHost := x.byHost.insert host index })

/-- Bind a property of a registered entity type. -/
def addProperty (x : TypeIndex) (typeName name : String) (accessor : Accessor) :
    Except RegistrationError (Nat × TypeIndex) :=
  match x.byName[typeName]? with
  | none => .error (.typeNotFound typeName)
  | some i =>
    match x.types[i]? with
    | none => .error (.indexOutOfRange "type" i)
    | some type =>
      if type.host ≠ accessor.host then .error (.accessorMismatch typeName name)
      else if type.byName.contains name then .error (.duplicateProperty typeName name)
      else .ok (type.properties.length, { x with types := x.types.set i (type.bind name accessor) })

/-- Names with their numbers, in the making. -/
structure Names where
  names : List String := []
  numbers : Std.HashMap String Nat := ∅

/-- The number of a name, which is the next one if the name is new. -/
def Names.number (n : Names) (name : String) : Nat × Names :=
  match n.numbers[name]? with
  | some g => (g, n)
  | none => (n.names.length, ⟨n.names ++ [name], n.numbers.insert name n.names.length⟩)

/-- Number one property of a type after those before it. -/
def numberProperty (s : Names × IndexedType) (p : Property) : Names × IndexedType :=
  let (g, n) := s.1.number p.name
  (n, { s.2 with
    properties := s.2.properties ++ [{ p with globalIndex? := some g }]
    byGlobal := s.2.byGlobal.insert g p.localIndex })

/-- Number the properties of one type after the types before it. -/
def numberType (s : Names × List IndexedType) (type : IndexedType) : Names × List IndexedType :=
  let next := type.properties.foldl numberProperty
    (s.1, { type with properties := [], byGlobal := ∅ })
  (next.1, s.2 ++ [next.2])

/-- Number all property names anew. -/
def rebuild (x : TypeIndex) : TypeIndex :=
  let (n, types) := x.types.foldl numberType ({}, [])
  { x with types, propertyNames := n.names, byProperty := n.numbers }

/-- The property that a global number means for an entity. -/
def resolve (x : TypeIndex) (e : Entity) (globalIndex : Nat) : Except Fault Property :=
  match x.propertyNames[globalIndex]? with
  | none => .error (.unknownProperty globalIndex)
  | some name =>
    match x.ofHost? e.host with
    | none => .error .unregisteredEntity
    | some type =>
      match type.propertyAt? globalIndex with
      | none => .error (.propertyNotOnType type.name name)
      | some property => .ok property

/-- The index that a call makes, unless it is refused. -/
def call (x : TypeIndex) : TypeCall → Except RegistrationError TypeIndex
  | .addType name host => (x.addType name host).map Prod.snd
  | .addProperty typeName name accessor => (x.addProperty typeName name accessor).map Prod.snd
  | .rebuild => .ok x.rebuild

/-- The index after calls. One that is refused leaves it as it is. -/
def after (x : TypeIndex) : List TypeCall → TypeIndex
  | [] => x
  | call :: calls =>
    match x.call call with
    | .ok x' => x'.after calls
    | .error _ => x.after calls

/-- The index that calls make. -/
def made (calls : List TypeCall) : TypeIndex := after {} calls

/-! ## The same answers -/

/-- The index holds what the table holds, and its maps have the places of it. -/
structure Indexes (x : TypeIndex) (t : TypeTable) : Prop where
  types : x.types.map IndexedType.toEntityType = t.types
  propertyNames : x.propertyNames = t.propertyNames
  byName : Locates x.byName (fun name type => decide (type.name = name)) t.types
  byHost : Locates x.byHost (fun host type => decide (type.host = host)) t.types
  byProperty : Locates x.byProperty (fun name other => other == name) t.propertyNames
  coherent : ∀ type ∈ x.types, type.Coherent

/-- Two outcomes of a registration that are alike. -/
inductive Agrees :
    Except RegistrationError (Nat × TypeIndex) → Except RegistrationError (Nat × TypeTable) → Prop
  | refused (e : RegistrationError) : Agrees (.error e) (.error e)
  | accepted (i : Nat) {x : TypeIndex} {t : TypeTable} (h : x.Indexes t) :
      Agrees (.ok (i, x)) (.ok (i, t))

variable {x x' : TypeIndex} {t t' : TypeTable} {name typeName : String} {host i : Nat}
  {accessor : Accessor} {type : EntityType}

theorem Indexes.getElem? (h : x.Indexes t) (hi : t.types[i]? = some type) :
    ∃ indexed, x.types[i]? = some indexed ∧ indexed.toEntityType = type := by
  rwa [← h.types, List.getElem?_map, Option.map_eq_some_iff] at hi

theorem Indexes.addType (h : x.Indexes t) (name : String) (host : Nat) :
    Agrees (x.addType name host) (t.addType name host) := by
  have hlength : x.types.length = t.types.length := by rw [← h.types, List.length_map]
  have hcontains : x.byName.contains name = t.contains name := h.byName.contains
  unfold TypeIndex.addType TypeTable.addType
  rw [hcontains]
  split
  · exact .refused _
  · next hname =>
    rw [Bool.not_eq_true, TypeTable.contains, Option.isSome_eq_false_iff,
      Option.isNone_iff_eq_none] at hname
    cases hi : x.byHost[host]? with
    | some i =>
      obtain ⟨type, htype, hfind⟩ := h.byHost.getElem? hi
      obtain ⟨indexed, hindexed, rfl⟩ := h.getElem? htype
      rw [TypeTable.ofHost?, hfind]
      simp only [hindexed]
      exact .refused _
    | none =>
      have hhost : t.ofHost? host = none := by rw [TypeTable.ofHost?, h.byHost.find?, hi]; rfl
      rw [hhost, hlength]
      refine .accepted _ ⟨?_, h.propertyNames, ?_, ?_, h.byProperty, fun type htype => ?_⟩
      · rw [List.map_append, h.types]
        rfl
      · exact h.byName.insert (by simpa [TypeTable.find?] using hname) fun other => rfl
      · exact h.byHost.insert (by simpa [TypeTable.ofHost?] using hhost) fun other => rfl
      · rcases List.mem_append.1 htype with htype | htype
        · exact h.coherent type htype
        · rw [List.mem_singleton.1 htype]
          exact ⟨.empty, .empty⟩

theorem Indexes.addProperty (h : x.Indexes t) (hsound : t.Sound) (typeName name : String)
    (accessor : Accessor) :
    Agrees (x.addProperty typeName name accessor) (t.addProperty typeName name accessor) := by
  unfold TypeIndex.addProperty TypeTable.addProperty
  cases hi : x.byName[typeName]? with
  | none =>
    have hfind : t.find? typeName = none := by rw [TypeTable.find?, h.byName.find?, hi]; rfl
    rw [hfind]
    exact .refused _
  | some i =>
    obtain ⟨_, hget, hfind⟩ := h.byName.getElem? hi
    obtain ⟨type, htype, rfl⟩ := h.getElem? hget
    have hname : type.name = typeName := by simpa using List.find?_some hfind
    have hcoherent := h.coherent type (List.mem_of_getElem? htype)
    have hcontains : type.byName.contains name = (type.toEntityType.property? name).isSome :=
      hcoherent.byName.contains
    rw [TypeTable.find?, hfind]
    simp only [htype, hcontains]
    split
    · exact .refused _
    · split
      · exact .refused _
      · next hnew =>
        rw [Bool.not_eq_true, Option.isSome_eq_false_iff, Option.isNone_iff_eq_none] at hnew
        have hbind := hsound.map_bind hget ⟨name, type.properties.length, none, accessor⟩
        refine .accepted _ ⟨?_, h.propertyNames, ?_, ?_, h.byProperty, fun other hother => ?_⟩
        · rw [List.map_set, h.types, ← hname]
          exact hbind.symm
        · exact h.byName.map fun key other =>
            congrArg (fun n => decide (n = key)) (EntityType.bind_name typeName _ other)
        · exact h.byHost.map fun key other =>
            congrArg (fun n => decide (n = key)) (EntityType.bind_host typeName _ other)
        · rcases List.mem_or_eq_of_mem_set hother with hother | rfl
          · exact h.coherent other hother
          · exact hcoherent.bind hnew accessor

/-! ### Rebuilds -/

/-- The names are those that have been seen, each once, and the map has their numbers. -/
structure Names.Covers (n : Names) (seen : List String) : Prop where
  names : n.names = seen.eraseDups
  numbers : Locates n.numbers (fun name other => other == name) n.names

variable {n : Names} {seen : List String}

theorem Names.Covers.number (h : n.Covers seen) (name : String) :
    (n.number name).2.Covers (seen ++ [name]) ∧
      (n.number name).2.names.idxOf? name = some (n.number name).1 := by
  have hplace : n.numbers[name]? = n.names.idxOf? name := h.numbers name
  have hmem : name ∈ seen ↔ (n.names.idxOf? name).isSome := by
    rw [List.isSome_idxOf?, h.names, List.mem_eraseDups]
  unfold Names.number
  split
  · next g hg =>
    rw [hplace] at hg
    refine ⟨⟨?_, h.numbers⟩, hg⟩
    rw [eraseDups_concat, if_pos (hmem.2 (by rw [hg]; rfl)), h.names]
  · next hg =>
    have hnew : name ∉ seen := by simp [hmem, ← hplace, hg]
    have hnames := List.findIdx?_eq_none_iff.1 ((h.numbers name).symm.trans hg)
    have hnumbers := h.numbers.insert hnames (x := name) fun other => rfl
    refine ⟨⟨?_, hnumbers⟩, (hnumbers name).symm.trans Std.HashMap.getElem?_insert_self⟩
    rw [eraseDups_concat, if_neg hnew, h.names]

/-- Properties whose names have been seen keep their numbers. -/
theorem Names.Covers.map_numbered {n' : Names} {more : List String} {ps : List Property}
    (h : n.Covers seen) (h' : n'.Covers (seen ++ more)) (hps : ∀ p ∈ ps, p.name ∈ seen) :
    ps.map (Property.numbered n'.names) = ps.map (Property.numbered n.names) := by
  have hgrow : n.names <+: n'.names := by
    rw [h.names, h'.names]
    exact eraseDups_isPrefix_append seen more
  refine List.map_congr_left fun p hp => ?_
  have hmem : p.name ∈ n.names := by
    rw [h.names, List.mem_eraseDups]
    exact hps p hp
  rw [Property.numbered, Property.numbered, idxOf?_of_isPrefix hgrow hmem]

/-- What a pass over properties of a type has come to, the names of the types before it having been
seen. The properties have the numbers of their names, and the map has their places. -/
structure Within (type : IndexedType) (seen : List String) (s : Names × IndexedType)
    (ps : List Property) : Prop where
  covers : s.1.Covers (seen ++ ps.map Property.name)
  type_eq : s.2 = { type with
    properties := ps.map (Property.numbered s.1.names)
    byGlobal := s.2.byGlobal }
  byGlobal : Locates s.2.byGlobal (fun g p => decide (p.globalIndex? = some g))
    (ps.map (Property.numbered s.1.names))

theorem Within.append {indexed : IndexedType} {s : Names × IndexedType} {ps : List Property}
    (h : Within indexed seen s ps) {p : Property} (hnew : p.name ∉ ps.map Property.name)
    (hplace : p.localIndex = ps.length) :
    Within indexed seen (numberProperty s p) (ps ++ [p]) := by
  obtain ⟨hcovers, hg⟩ := h.covers.number p.name
  have hsame : ps.map (Property.numbered (s.1.number p.name).2.names) =
      ps.map (Property.numbered s.1.names) :=
    h.covers.map_numbered hcovers fun q hq => List.mem_append_right _ (List.mem_map_of_mem hq)
  have hlast : p.numbered (s.1.number p.name).2.names =
      { p with globalIndex? := some (s.1.number p.name).1 } := by rw [Property.numbered, hg]
  have hbyGlobal := h.byGlobal
  rw [← hsame] at hbyGlobal
  -- No property of the type has the number yet, since none has the name.
  have hfresh : ∀ q ∈ ps.map (Property.numbered (s.1.number p.name).2.names),
      decide (q.globalIndex? = some (s.1.number p.name).1) = false := by
    intro q hq
    obtain ⟨q, hmem, rfl⟩ := List.mem_map.1 hq
    refine decide_eq_false fun hsome => hnew ?_
    rw [← eq_of_idxOf?_eq_some hsome hg]
    exact List.mem_map_of_mem hmem
  have hinsert := hbyGlobal.insert hfresh (x := p.numbered (s.1.number p.name).2.names)
    fun other => by simp [hlast, beq_eq_decide]
  rw [List.length_map, ← hplace] at hinsert
  refine ⟨?_, ?_, ?_⟩
  · rwa [List.map_append, ← List.append_assoc]
  · rw [numberProperty, h.type_eq, List.map_append, List.map_singleton, hlast, ← hsame]
  · rwa [List.map_append, List.map_singleton]

theorem within_foldl (indexed : IndexedType) (h : n.Covers seen) (ps : List Property)
    (hnames : (ps.map Property.name).Nodup)
    (hplaces : ∀ i (p : Property), ps[i]? = some p → p.localIndex = i) :
    Within indexed seen
      (ps.foldl numberProperty (n, { indexed with properties := [], byGlobal := ∅ })) ps := by
  induction ps using List.reverseRecOn with
  | nil => exact ⟨by rwa [List.map_nil, List.append_nil], rfl, .empty⟩
  | append_singleton ps p ih =>
    rw [List.map_append, List.map_singleton, List.nodup_append_comm, List.singleton_append,
      List.nodup_cons] at hnames
    obtain ⟨hnew, hnodup⟩ := hnames
    have hplace : p.localIndex = ps.length := hplaces _ p (by simp)
    rw [List.foldl_append]
    refine (ih hnodup fun i q hq => hplaces i q ?_).append hnew hplace
    rwa [List.getElem?_append_left (List.getElem?_eq_some_iff.1 hq).1]

/-- What a pass over entity types has come to. -/
structure Numbered (s : Names × List IndexedType) (types : List EntityType) : Prop where
  covers : s.1.Covers (types.flatMap fun type => type.properties.map Property.name)
  types : s.2.map IndexedType.toEntityType = types.map (EntityType.numbered · s.1.names)
  coherent : ∀ type ∈ s.2, type.Coherent

theorem Numbered.append {s : Names × List IndexedType} {types : List EntityType}
    (h : Numbered s types) {indexed : IndexedType} (hsound : indexed.toEntityType.Sound)
    (hcoherent : indexed.Coherent) :
    Numbered (numberType s indexed) (types ++ [indexed.toEntityType]) := by
  obtain ⟨hcovers, htype, hbyGlobal⟩ :=
    within_foldl indexed h.covers indexed.properties hsound.names hsound.places
  have hsame : ∀ other ∈ types, other.numbered (numberType s indexed).1.names =
      other.numbered s.1.names := fun other hother =>
    congrArg (fun ps => { other with properties := ps }) (h.covers.map_numbered hcovers
      fun p hp => List.mem_flatMap.2 ⟨other, hother, List.mem_map_of_mem hp⟩)
  refine ⟨?_, ?_, fun other hother => ?_⟩
  · rw [List.flatMap_append, List.flatMap_singleton]
    exact hcovers
  · rw [List.map_append, List.map_congr_left hsame, ← h.types]
    simp only [numberType, List.map_append, List.map_singleton]
    rw [htype]
    rfl
  · rcases List.mem_append.1 hother with hother | hother
    · exact h.coherent other hother
    · rw [List.mem_singleton.1 hother, htype]
      exact ⟨hcoherent.byName.map fun key p => rfl, hbyGlobal⟩

theorem numbered_foldl (types : List IndexedType)
    (h : ∀ type ∈ types, type.toEntityType.Sound ∧ type.Coherent) :
    Numbered (types.foldl numberType ({}, [])) (types.map IndexedType.toEntityType) := by
  induction types using List.reverseRecOn with
  | nil => exact ⟨⟨rfl, .empty⟩, rfl, by simp⟩
  | append_singleton types type ih =>
    obtain ⟨hsound, hcoherent⟩ := h type (by simp)
    rw [List.foldl_append, List.map_append]
    exact (ih fun other hother => h other (List.mem_append_left _ hother)).append hsound hcoherent

theorem Indexes.rebuild (h : x.Indexes t) (hsound : t.Sound) : x.rebuild.Indexes t.rebuild := by
  have hnumbered := numbered_foldl x.types fun type htype =>
    ⟨hsound.types _ (h.types ▸ List.mem_map_of_mem htype), h.coherent type htype⟩
  rw [h.types] at hnumbered
  have hnames : (x.types.foldl numberType ({}, [])).1.names = t.boundNames :=
    hnumbered.covers.names
  refine ⟨?_, hnames, h.byName.map fun key type => rfl, h.byHost.map fun key type => rfl, ?_,
    hnumbered.coherent⟩
  · rw [TypeTable.rebuild, ← hnames]
    exact hnumbered.types
  · rw [TypeTable.rebuild, ← hnames]
    exact hnumbered.covers.numbers

/-! ### All calls -/

theorem Agrees.map {r : Except RegistrationError (Nat × TypeIndex)}
    {s : Except RegistrationError (Nat × TypeTable)} (h : Agrees r s) :
    (∃ e, r.map Prod.snd = .error e ∧ s.map Prod.snd = .error e) ∨
      ∃ x t, r.map Prod.snd = .ok x ∧ s.map Prod.snd = .ok t ∧ Indexes x t := by
  cases h with
  | refused e => exact .inl ⟨e, rfl, rfl⟩
  | accepted i h => exact .inr ⟨_, _, rfl, rfl, h⟩

/-- A call is refused by both or accepted by both. -/
theorem Indexes.call (h : x.Indexes t) (hsound : t.Sound) (c : TypeCall) :
    (∃ e, x.call c = .error e ∧ t.call c = .error e) ∨
      ∃ x' t', x.call c = .ok x' ∧ t.call c = .ok t' ∧ Indexes x' t' := by
  cases c with
  | addType name host => exact (h.addType name host).map
  | addProperty typeName name accessor => exact (h.addProperty hsound typeName name accessor).map
  | rebuild => exact .inr ⟨_, _, rfl, rfl, h.rebuild hsound⟩

theorem Indexes.after (h : x.Indexes t) (hsound : t.Sound) (calls : List TypeCall) :
    (x.after calls).Indexes (t.after calls) := by
  induction calls generalizing x t with
  | nil => exact h
  | cons call calls ih =>
    rw [TypeIndex.after, TypeTable.after]
    obtain ⟨e, hx, ht⟩ | ⟨x', t', hx, ht, h'⟩ := h.call hsound call
    · rw [hx, ht]
      exact ih h hsound
    · rw [hx, ht]
      exact ih h' (hsound.changes (TypeTable.changes_of_call ht))

/-- The index answers every question as the table does. -/
structure Answers (x : TypeIndex) (t : TypeTable) : Prop where
  propertyNames : x.propertyNames = t.propertyNames
  globalIndex : ∀ name, x.globalIndex? name = t.globalIndex? name
  type : ∀ name, (x.find? name).map IndexedType.toEntityType = t.find? name
  typeOf : ∀ host, (x.ofHost? host).map IndexedType.toEntityType = t.ofHost? host
  property : ∀ typeName name, ((x.find? typeName).bind fun type => type.property? name) =
    (t.find? typeName).bind fun type => type.property? name
  propertyAt : ∀ typeName g, ((x.find? typeName).bind fun type => type.propertyAt? g) =
    (t.find? typeName).bind fun type => type.propertyAt? g
  resolve : ∀ e g, x.resolve e g = t.resolve e g

/-- What the maps lead to is what a search in the table finds. -/
theorem Indexes.located (h : x.Indexes t) {κ : Type} [BEq κ] [Hashable κ]
    {places : Std.HashMap κ Nat} {isFor : κ → EntityType → Bool}
    (hplaces : Locates places isFor t.types) (key : κ) :
    (places[key]?.bind fun i => x.types[i]?).map IndexedType.toEntityType =
      t.types.find? (isFor key) := by
  rw [hplaces.find?, ← h.types]
  cases places[key]? with
  | none => rfl
  | some i => simp

theorem Indexes.coherent_of_find? (h : x.Indexes t) {place : Option Nat} {type : IndexedType}
    (htype : (place.bind fun i => x.types[i]?) = some type) : type.Coherent := by
  obtain ⟨i, -, hi⟩ := Option.bind_eq_some_iff.1 htype
  exact h.coherent type (List.mem_of_getElem? hi)

theorem Indexes.resolve (h : x.Indexes t) (e : Entity) (g : Nat) :
    x.resolve e g = t.resolve e g := by
  have hhost : (x.ofHost? e.host).map IndexedType.toEntityType = t.ofHost? e.host :=
    h.located h.byHost e.host
  unfold TypeIndex.resolve TypeTable.resolve
  rw [h.propertyNames, ← hhost]
  cases t.propertyNames[g]? with
  | none => rfl
  | some name =>
    cases htype : x.ofHost? e.host with
    | none => rfl
    | some type =>
      have hproperty := (h.coherent_of_find? htype).propertyAt? g
      cases hp : type.toEntityType.propertyAt? g with
      | none => simp only [Option.map_some, hproperty, hp]
      | some property => simp only [Option.map_some, hproperty, hp]

theorem Indexes.answers (h : x.Indexes t) : x.Answers t where
  propertyNames := h.propertyNames
  globalIndex := h.byProperty
  type := h.located h.byName
  typeOf := h.located h.byHost
  property := by
    intro typeName name
    have hfind : (x.find? typeName).map IndexedType.toEntityType = t.find? typeName :=
      h.located h.byName typeName
    rw [← hfind]
    cases htype : x.find? typeName with
    | none => rfl
    | some type => exact (h.coherent_of_find? htype).property? name
  propertyAt := by
    intro typeName g
    have hfind : (x.find? typeName).map IndexedType.toEntityType = t.find? typeName :=
      h.located h.byName typeName
    rw [← hfind]
    cases htype : x.find? typeName with
    | none => rfl
    | some type => exact (h.coherent_of_find? htype).propertyAt? g
  resolve := h.resolve

/-- The index and the table that the same calls make agree, refused calls included. -/
theorem made_answers (calls : List TypeCall) : (made calls).Answers (TypeTable.made calls) :=
  (Indexes.after ⟨rfl, rfl, .empty, .empty, .empty, by simp⟩
    TypeTable.Built.empty.sound calls).answers

end TypeIndex

end Danmaku
