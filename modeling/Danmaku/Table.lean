/-!
# Tables

A table gives keys consecutive numbers, in the order in which the keys came. Compiled code refers
to an entry by its number, so a number is never given away twice, and an entry never moves.
-/

namespace Danmaku

/-- Entries under distinct keys, numbered from zero. -/
structure Table (κ α : Type) where
  /-- The keys and entries by number. -/
  entries : Array (κ × α) := #[]
  deriving Inhabited

namespace Table

variable {κ α : Type} [DecidableEq κ]

/-- How many entries there are. -/
def size (t : Table κ α) : Nat := t.entries.size

/-- Whether there are no entries. -/
def isEmpty (t : Table κ α) : Bool := t.entries.isEmpty

/-- The number of a key. -/
def indexOf? (t : Table κ α) (key : κ) : Option Nat :=
  t.entries.findIdx? fun entry => decide (entry.1 = key)

/-- The entry of a number. -/
def at? (t : Table κ α) (index : Nat) : Option α := t.entries[index]?.map Prod.snd

/-- The key of a number. -/
def keyAt? (t : Table κ α) (index : Nat) : Option κ := t.entries[index]?.map Prod.fst

/-- The entry of a key. -/
def find? (t : Table κ α) (key : κ) : Option α := (t.indexOf? key).bind t.at?

/-- The number and the entry of a key. -/
def lookup? (t : Table κ α) (key : κ) : Option (Nat × α) :=
  (t.indexOf? key).bind fun index => (t.at? index).map fun entry => (index, entry)

/-- Whether a key has an entry. -/
def contains (t : Table κ α) (key : κ) : Bool := (t.indexOf? key).isSome

/-- The keys by number. -/
def keys (t : Table κ α) : List κ := t.entries.toList.map Prod.fst

/-- Enter what `make` yields for the next number under a new key. -/
def add? (t : Table κ α) (key : κ) (make : Nat → α) : Option (Nat × Table κ α) :=
  if t.contains key then none
  else some (t.size, ⟨t.entries.push (key, make t.size)⟩)

/-- Put another entry in the place of one. -/
def replace? (t : Table κ α) (index : Nat) (entry : α) : Option (Table κ α) :=
  t.entries[index]?.map fun old => ⟨t.entries.setIfInBounds index (old.1, entry)⟩

end Table

end Danmaku
