/-!
# Limits

How much a running script may use. Everything is sized once and never grows.
-/

namespace Danmaku

/-- The sizes of a thread's stores, and how far one tick may go. -/
structure Limits where
  /-- How many values the operand stack holds. -/
  stack : Nat := 64
  /-- How many variable slots there are. -/
  slots : Nat := 256
  /-- How many slots for entity references there are. -/
  handles : Nat := 16
  /-- How many calls may be open at once. -/
  depth : Nat := 32
  /-- How many instructions a tick may execute, if that is limited at all. -/
  budget : Option Nat := some 100000
  deriving DecidableEq, Inhabited, Repr

end Danmaku
