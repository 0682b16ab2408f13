import Danmaku.Catalog.Basic

/-!
# Tables and their numbers

What entering a key and putting an entry in the place of another change in a table, and what they
keep: numbers stand for good.
-/

namespace Danmaku.Table

variable {κ α : Type} {t t' : Table κ α} {key other : κ} {i j n : Nat} {e : α} {make : Nat → α}

/-! ## Entries -/

theorem at?_lt (h : t.at? i = some e) : i < t.size := by
  rw [at?, Option.map_eq_some_iff] at h
  obtain ⟨x, hx, -⟩ := h
  exact (Array.getElem?_eq_some_iff.1 hx).1

theorem at?_of_lt (h : i < t.size) : ∃ e, t.at? i = some e :=
  ⟨t.entries[i].2, by rw [at?, Array.getElem?_eq_getElem h, Option.map_some]⟩

theorem lt_size_iff : i < t.size ↔ ∃ key, t.keyAt? i = some key := by
  constructor
  · intro h
    exact ⟨t.entries[i].1, by rw [keyAt?, Array.getElem?_eq_getElem h, Option.map_some]⟩
  · rintro ⟨key, h⟩
    rw [keyAt?, Option.map_eq_some_iff] at h
    obtain ⟨x, hx, -⟩ := h
    exact (Array.getElem?_eq_some_iff.1 hx).1

/-! ## Putting an entry in the place of another -/

theorem replace?_inv (h : t.replace? i e = some t') :
    ∃ old, t.entries[i]? = some old ∧ t' = ⟨t.entries.setIfInBounds i (old.1, e)⟩ := by
  rw [replace?, Option.map_eq_some_iff] at h
  obtain ⟨old, hold, rfl⟩ := h
  exact ⟨old, hold, rfl⟩

theorem replace?_eq_none_iff : t.replace? i e = none ↔ t.size ≤ i := by
  rw [replace?, Option.map_eq_none_iff, Array.getElem?_eq_none_iff]
  rfl

theorem size_replace? (h : t.replace? i e = some t') : t'.size = t.size := by
  obtain ⟨old, -, rfl⟩ := replace?_inv h
  exact Array.size_setIfInBounds

theorem at?_replace? (h : t.replace? i e = some t') :
    t'.at? j = if j = i then some e else t.at? j := by
  obtain ⟨old, hold, rfl⟩ := replace?_inv h
  have hlt := (Array.getElem?_eq_some_iff.1 hold).1
  rw [at?, at?]
  split
  · next hj =>
    subst hj
    rw [Array.getElem?_setIfInBounds_self_of_lt hlt, Option.map_some]
  · next hj => rw [Array.getElem?_setIfInBounds_ne (Ne.symm hj)]

theorem keyAt?_replace? (h : t.replace? i e = some t') : t'.keyAt? j = t.keyAt? j := by
  obtain ⟨old, hold, rfl⟩ := replace?_inv h
  have hlt := (Array.getElem?_eq_some_iff.1 hold).1
  rw [keyAt?, keyAt?]
  by_cases hj : i = j
  · subst hj
    rw [Array.getElem?_setIfInBounds_self_of_lt hlt, hold, Option.map_some, Option.map_some]
  · rw [Array.getElem?_setIfInBounds_ne hj]

/-! ## Looking up keys -/

variable [DecidableEq κ]

theorem keyAt?_of_indexOf? (h : t.indexOf? key = some i) : t.keyAt? i = some key := by
  rw [indexOf?, Array.findIdx?_eq_some_iff_getElem] at h
  obtain ⟨hlt, hkey, -⟩ := h
  rw [keyAt?, Array.getElem?_eq_getElem hlt, Option.map_some, of_decide_eq_true hkey]

theorem at?_of_indexOf? (h : t.indexOf? key = some i) : ∃ e, t.at? i = some e := by
  rw [indexOf?, Array.findIdx?_eq_some_iff_getElem] at h
  obtain ⟨hlt, -⟩ := h
  exact at?_of_lt hlt

theorem indexOf?_lt (h : t.indexOf? key = some i) : i < t.size := by
  obtain ⟨e, he⟩ := at?_of_indexOf? h
  exact at?_lt he

theorem find?_eq_some : t.find? key = some e ↔ ∃ i, t.indexOf? key = some i ∧ t.at? i = some e :=
  Option.bind_eq_some_iff

theorem lookup?_eq_some :
    t.lookup? key = some (i, e) ↔ t.indexOf? key = some i ∧ t.at? i = some e := by
  simp only [lookup?, Option.bind_eq_some_iff, Option.map_eq_some_iff, Prod.mk.injEq]
  constructor
  · rintro ⟨j, hj, e', he, rfl, rfl⟩
    exact ⟨hj, he⟩
  · rintro ⟨hi, he⟩
    exact ⟨i, hi, e, he, rfl, rfl⟩

theorem find?_eq_lookup? : t.find? key = (t.lookup? key).map Prod.snd := by
  rw [find?, lookup?]
  cases t.indexOf? key with
  | none => rfl
  | some i =>
    rw [Option.bind_some, Option.bind_some, Option.map_map]
    exact Option.map_id'.symm

theorem contains_eq_lookup? : t.contains key = (t.lookup? key).isSome := by
  rw [contains, lookup?]
  cases hi : t.indexOf? key with
  | none => rfl
  | some i =>
    obtain ⟨e, he⟩ := at?_of_indexOf? hi
    rw [Option.bind_some, he]
    rfl

/-! ## Entering a key -/

theorem add?_inv (h : t.add? key make = some (n, t')) :
    n = t.size ∧ t.indexOf? key = none ∧ t' = ⟨t.entries.push (key, make t.size)⟩ := by
  unfold add? at h
  split at h
  · cases h
  · next hc =>
    obtain ⟨rfl, rfl⟩ := Prod.mk.inj (Option.some.inj h)
    exact ⟨rfl, Option.not_isSome_iff_eq_none.1 hc, rfl⟩

/-- A new key can be entered. -/
theorem add?_of_none (make : Nat → α) (h : t.indexOf? key = none) :
    t.add? key make = some (t.size, ⟨t.entries.push (key, make t.size)⟩) := by
  rw [add?, contains, h]
  rfl

theorem size_add? (h : t.add? key make = some (n, t')) : t'.size = t.size + 1 := by
  obtain ⟨-, -, rfl⟩ := add?_inv h
  exact Array.size_push _

theorem at?_add? (h : t.add? key make = some (n, t')) :
    t'.at? j = if j = t.size then some (make t.size) else t.at? j := by
  obtain ⟨-, -, rfl⟩ := add?_inv h
  rw [at?, Array.getElem?_push, at?, size]
  split <;> rfl

theorem keyAt?_add? (h : t.add? key make = some (n, t')) :
    t'.keyAt? j = if j = t.size then some key else t.keyAt? j := by
  obtain ⟨-, -, rfl⟩ := add?_inv h
  rw [keyAt?, Array.getElem?_push, keyAt?, size]
  split <;> rfl

theorem at?_add?_of_some (h : t.add? key make = some (n, t')) (he : t.at? j = some e) :
    t'.at? j = some e := by
  have := at?_lt he
  rw [at?_add? h, if_neg (by omega), he]

theorem indexOf?_add? (h : t.add? key make = some (n, t')) :
    t'.indexOf? other = if other = key then some n else t.indexOf? other := by
  obtain ⟨rfl, hnone, rfl⟩ := add?_inv h
  rw [indexOf?, Array.findIdx?_push]
  split
  · next hk =>
    obtain rfl : key = other := of_decide_eq_true hk
    rw [indexOf?] at hnone
    rw [hnone, if_pos rfl]
    rfl
  · next hk =>
    rw [if_neg fun heq => hk (decide_eq_true heq.symm), Option.or_none, indexOf?]

theorem indexOf?_add?_of_some (h : t.add? key make = some (n, t'))
    (hi : t.indexOf? other = some i) :
    t'.indexOf? other = some i := by
  rw [indexOf?_add? h, if_neg ?_, hi]
  rintro rfl
  rw [(add?_inv h).2.1] at hi
  cases hi

/-- What is entered is found under its key, and what was found before still is. -/
theorem lookup?_add? (h : t.add? key make = some (n, t')) :
    t'.lookup? other = if other = key then some (n, make n) else t.lookup? other := by
  obtain rfl := (add?_inv h).1
  rw [lookup?, indexOf?_add? h, lookup?]
  split
  · rw [Option.bind_some, at?_add? h, if_pos rfl, Option.map_some]
  · cases hj : t.indexOf? other with
    | none => rfl
    | some j =>
      have hne : j ≠ t.size := Nat.ne_of_lt (indexOf?_lt hj)
      rw [Option.bind_some, at?_add? h, if_neg hne, Option.bind_some]

/-- The number of a key is determined by the keys. -/
theorem indexOf?_congr (h : ∀ j, t'.keyAt? j = t.keyAt? j) : t'.indexOf? key = t.indexOf? key := by
  have hkeys : t'.entries.map Prod.fst = t.entries.map Prod.fst := by
    apply Array.ext_getElem?
    intro j
    rw [Array.getElem?_map, Array.getElem?_map]
    exact h j
  have hidx (t : Table κ α) :
      t.indexOf? key = (t.entries.map Prod.fst).findIdx? fun k => decide (k = key) := by
    rw [Array.findIdx?_map]
    rfl
  rw [hidx, hidx, hkeys]

theorem indexOf?_replace? (h : t.replace? i e = some t') : t'.indexOf? key = t.indexOf? key :=
  indexOf?_congr fun _ => keyAt?_replace? h

end Danmaku.Table
