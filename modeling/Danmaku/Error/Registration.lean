import Danmaku.Error.Category

/-!
# Errors of registration

What can go wrong when a host names things in the catalog, or looks them up there.
-/

namespace Danmaku

/-- The reasons for which the catalog refuses an entry or a request. -/
inductive RegistrationError
  /-- An entity type of that name exists. -/
  | duplicateType (name : String)
  /-- The host type is already known under another name. -/
  | duplicateHost (existing name : String)
  /-- There is no entity type of that name. -/
  | typeNotFound (name : String)
  /-- The entity type has a property of that name. -/
  | duplicateProperty (typeName property : String)
  /-- The accessor belongs to another host type than the entity type. -/
  | accessorMismatch (typeName property : String)
  /-- An entry of that kind and name exists. -/
  | duplicateEntry (name kind : String)
  /-- There is no entry of that kind and name. -/
  | notFound (kind name : String)
  /-- There is no entry of that kind at that index. -/
  | indexOutOfRange (kind : String) (index : Nat)
  deriving DecidableEq, Repr

namespace RegistrationError

/-- What the error is about. -/
def category : RegistrationError → Category
  | duplicateType _ | duplicateHost _ _ | duplicateProperty _ _ | duplicateEntry _ _ => .declaration
  | typeNotFound _ | notFound _ _ => .lookup
  | accessorMismatch _ _ => .type
  | indexOutOfRange _ _ => .range

/-- The wording of the error. -/
def message : RegistrationError → String
  | duplicateType name => s!"duplicate type: {name}"
  | duplicateHost existing name =>
    s!"rust type already registered as '{existing}', cannot register as '{name}'"
  | typeNotFound name => s!"type not found: {name}"
  | duplicateProperty typeName property =>
    s!"property '{property}' already bound on type '{typeName}'"
  | accessorMismatch typeName property =>
    s!"accessor for '{property}' does not match the rust type bound to '{typeName}'"
  | duplicateEntry name kind => s!"duplicate registration: {name} already registered as {kind}"
  | notFound kind name => s!"{kind} '{name}' not found"
  | indexOutOfRange kind index => s!"{kind} index {index} out of range"

end RegistrationError

end Danmaku
