/-!
# Kinds of failure

Every error of the library, whether it arises in registering, compiling or running, belongs to one
of a few categories, by which a host may decide what to do about it.
-/

namespace Danmaku

/-- What an error is about. -/
inductive Category
  /-- The operand stack is full or empty. -/
  | stack
  /-- An operation on numbers has no result. -/
  | arithmetic
  /-- An index or an address points outside what it indexes. -/
  | range
  /-- A name or an index stands for nothing. -/
  | lookup
  /-- A limit on the length or the depth of a run is used up. -/
  | budget
  /-- A value is of the wrong kind. -/
  | type
  /-- A name is declared twice. -/
  | declaration
  /-- The number of arguments is wrong. -/
  | arity
  /-- A statement stands where it may not. -/
  | controlFlow
  deriving DecidableEq, Repr

end Danmaku
