import Danmaku.Word.Basic

/-!
# Entities

An entity is what a host lends to a script for a tick: something of a host type, with numeric
fields. The script never sees them but through an accessor, which the host makes of a getter and a
setter of its own, and an accessor works on entities of its own host type alone.
-/

namespace Danmaku

/-- Something that a script moves or reads. -/
structure Entity where
  /-- The host type. -/
  host : Nat
  /-- The numeric fields. -/
  fields : Array Word
  deriving DecidableEq, Inhabited

/-- How a host gets at a number in the fields of an entity: a getter and a setter, which may be any
two functions. -/
structure Field where
  /-- The number, read from the fields. -/
  get : Array Word → Word
  /-- The fields once the number is another one. -/
  set : Array Word → Word → Array Word
  deriving Inhabited

/-- The field at a place. Where there is none it reads as zero and is not written. -/
def Field.ofPlace (place : Nat) : Field where
  get fields := fields.getD place 0
  set fields value := fields.setIfInBounds place value

instance : Coe Nat Field := ⟨Field.ofPlace⟩

/-- The way to a number of the entities of one host type. -/
structure Accessor where
  /-- The host type. -/
  host : Nat
  /-- How the number is read and written. -/
  field : Field
  deriving Inhabited

namespace Accessor

/-- The number, unless the entity is of another host type. -/
def read? (a : Accessor) (e : Entity) : Option Word :=
  if e.host = a.host then some (a.field.get e.fields) else none

/-- The entity once the number is another one, unless it is of another host type. -/
def write? (a : Accessor) (e : Entity) (value : Word) : Option Entity :=
  if e.host = a.host then some { e with fields := a.field.set e.fields value } else none

end Accessor

end Danmaku
