import Danmaku.Entity
import Danmaku.Error.Fault
import Danmaku.Error.Registration

/-!
# Entity types and properties

An entity type has a name in scripts, belongs to one host type, and has named properties. Scripts
name a property without its type, so all property names share one numbering, the *global* one; an
entity type knows which of its properties has which global number.

The numbering is made by `TypeTable.rebuild`, in the order in which the names first occur, and
stands until the next one. A property bound in between has no global number yet.
-/

namespace Danmaku

/-- A property of an entity type. -/
structure Property where
  /-- The name. -/
  name : String
  /-- The place among the properties of its type. -/
  localIndex : Nat
  /-- The number of the name among all property names, once it has one. -/
  globalIndex? : Option Nat
  /-- The way to the value. -/
  accessor : Accessor
  deriving Inhabited

/-- A kind of entity that scripts know. -/
structure EntityType where
  /-- The name in scripts. -/
  name : String
  /-- The number of the type. -/
  index : Nat
  /-- The host type. -/
  host : Nat
  /-- The properties in the order in which they were bound. -/
  properties : List Property
  deriving Inhabited

namespace EntityType

/-- The property of a name. -/
def property? (t : EntityType) (name : String) : Option Property :=
  t.properties.find? fun p => decide (p.name = name)

/-- The property of a global number. -/
def propertyAt? (t : EntityType) (globalIndex : Nat) : Option Property :=
  t.properties.find? fun p => decide (p.globalIndex? = some globalIndex)

/-- The type with its properties numbered by a list of names. -/
def numbered (t : EntityType) (names : List String) : EntityType :=
  { t with properties := t.properties.map fun p => { p with globalIndex? := names.idxOf? p.name } }

end EntityType

/-- All entity types, and the names of their properties by global number. -/
structure TypeTable where
  /-- The entity types in the order of their registration. -/
  types : List EntityType := []
  /-- The property names by global number, as of the last rebuild. -/
  propertyNames : List String := []
  deriving Inhabited

namespace TypeTable

/-- The entity type of a name. -/
def find? (t : TypeTable) (name : String) : Option EntityType :=
  t.types.find? fun type => decide (type.name = name)

/-- Whether a name is that of an entity type. -/
def contains (t : TypeTable) (name : String) : Bool := (t.find? name).isSome

/-- The entity type of a host type. -/
def ofHost? (t : TypeTable) (host : Nat) : Option EntityType :=
  t.types.find? fun type => decide (type.host = host)

/-- The global number of a property name. -/
def globalIndex? (t : TypeTable) (name : String) : Option Nat := t.propertyNames.idxOf? name

/-- Register a host type under a name. Neither may be taken; the name is looked at first. -/
def addType (t : TypeTable) (name : String) (host : Nat) :
    Except RegistrationError (Nat × TypeTable) :=
  if t.contains name then .error (.duplicateType name)
  else
    match t.ofHost? host with
    | some existing => .error (.duplicateHost existing.name name)
    | none =>
      .ok (t.types.length, { t with types := t.types ++ [⟨name, t.types.length, host, []⟩] })

/-- Bind a property of a registered entity type. The result has its place in the type. -/
def addProperty (t : TypeTable) (typeName name : String) (accessor : Accessor) :
    Except RegistrationError (Nat × TypeTable) :=
  match t.find? typeName with
  | none => .error (.typeNotFound typeName)
  | some type =>
    if type.host ≠ accessor.host then .error (.accessorMismatch typeName name)
    else if (type.property? name).isSome then .error (.duplicateProperty typeName name)
    else
      let localIndex := type.properties.length
      let property : Property := ⟨name, localIndex, none, accessor⟩
      let bind (other : EntityType) : EntityType :=
        if other.name = typeName then { other with properties := other.properties ++ [property] }
        else other
      .ok (localIndex, { t with types := t.types.map bind })

/-- All property names once, in the order of their first occurrence. -/
def boundNames (t : TypeTable) : List String :=
  (t.types.flatMap fun type => type.properties.map Property.name).eraseDups

/-- Number all property names anew. -/
def rebuild (t : TypeTable) : TypeTable where
  types := t.types.map fun type => type.numbered t.boundNames
  propertyNames := t.boundNames

/-- The property that a global number means for an entity. The number is looked at first, then
the entity's type, then whether the type has the property. -/
def resolve (t : TypeTable) (e : Entity) (globalIndex : Nat) : Except Fault Property :=
  match t.propertyNames[globalIndex]? with
  | none => .error (.unknownProperty globalIndex)
  | some name =>
    match t.ofHost? e.host with
    | none => .error .unregisteredEntity
    | some type =>
      match type.propertyAt? globalIndex with
      | none => .error (.propertyNotOnType type.name name)
      | some property => .ok property

/-- The value of a property of an entity. -/
def read (t : TypeTable) (e : Entity) (globalIndex : Nat) : Except Fault Word :=
  match t.resolve e globalIndex with
  | .error fault => .error fault
  | .ok property =>
    match property.accessor.read? e with
    | some value => .ok value
    | none => .error .unregisteredEntity

/-- The entity with another value of a property. -/
def write (t : TypeTable) (e : Entity) (globalIndex : Nat) (value : Word) :
    Except Fault Entity :=
  match t.resolve e globalIndex with
  | .error fault => .error fault
  | .ok property =>
    match property.accessor.write? e value with
    | some e => .ok e
    | none => .error .unregisteredEntity

end TypeTable

end Danmaku
