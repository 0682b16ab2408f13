import Danmaku.Proofs.Catalog.History

/-!
# Property names by number

The names of a table are those that were bound at its last rebuild, each once, in the order of their
first occurrence. A property has a number just if it was bound by then, and it is the number of its
name (`TypeTable.Numbers`). So within a type a number means one property.
-/

namespace Danmaku

/-! ## First occurrences -/

section

variable {α : Type} [BEq α] [LawfulBEq α] {xs ys : List α} {x : α} {i : Nat}

theorem eraseDups_concat (xs : List α) (x : α) [Decidable (x ∈ xs)] :
    (xs ++ [x]).eraseDups = if x ∈ xs then xs.eraseDups else xs.eraseDups ++ [x] := by
  rw [List.eraseDups_append, List.removeAll]
  split
  · next h => simp [h]
  · next h => simp [h, List.eraseDups_cons]

theorem nodup_eraseDups (xs : List α) : xs.eraseDups.Nodup := by
  classical
  induction xs using List.reverseRecOn with
  | nil => exact List.nodup_nil
  | append_singleton xs x ih =>
    rw [eraseDups_concat]
    split
    · exact ih
    · next hx =>
      rw [List.nodup_append]
      refine ⟨ih, List.nodup_singleton x, fun y hy z hz heq => hx ?_⟩
      rw [← List.mem_singleton.1 hz, ← heq]
      exact List.mem_eraseDups.1 hy

/-- What comes later takes nothing away from what is there, and comes after it. -/
theorem eraseDups_isPrefix_append (xs ys : List α) : xs.eraseDups <+: (xs ++ ys).eraseDups := by
  rw [List.eraseDups_append]
  exact List.prefix_append _ _

theorem pairwise_eraseDups (xs : List α) :
    xs.eraseDups.Pairwise fun x y => xs.idxOf x < xs.idxOf y := by
  classical
  induction xs using List.reverseRecOn with
  | nil => exact List.Pairwise.nil
  | append_singleton xs x ih =>
    -- The first occurrences in the longer list are those in the shorter one.
    have hsame : ∀ y ∈ xs, (xs ++ [x]).idxOf y = xs.idxOf y := fun y hy => by
      rw [List.idxOf_append, if_pos hy]
    have hold : xs.eraseDups.Pairwise fun y z => (xs ++ [x]).idxOf y < (xs ++ [x]).idxOf z := by
      refine List.Pairwise.imp_of_mem (fun {y z} hy hz hlt => ?_) ih
      rwa [hsame y (List.mem_eraseDups.1 hy), hsame z (List.mem_eraseDups.1 hz)]
    rw [eraseDups_concat]
    split
    · exact hold
    · next hx =>
      refine List.pairwise_append.2 ⟨hold, List.pairwise_singleton _ _, fun y hy z hz => ?_⟩
      have hy := List.mem_eraseDups.1 hy
      rw [List.mem_singleton.1 hz, hsame y hy, List.idxOf_append, if_neg hx]
      exact Nat.lt_add_left _ (List.idxOf_lt_length_iff.2 hy)

/-- Without repetitions, the place of an entry is where it is. -/
theorem idxOf?_eq_some_iff_getElem? (h : xs.Nodup) : xs.idxOf? x = some i ↔ xs[i]? = some x := by
  rw [List.idxOf?_eq_some_iff, List.getElem?_eq_some_iff]
  constructor
  · rintro ⟨hi, heq, -⟩
    exact ⟨hi, heq⟩
  · rintro ⟨hi, heq⟩
    refine ⟨hi, heq, fun j hj heq' => ?_⟩
    exact absurd (h.getElem_inj_iff.1 (heq'.trans heq.symm)) (Nat.ne_of_lt hj)

/-- Entries that come later do not move those that are there. -/
theorem idxOf?_of_isPrefix (h : xs <+: ys) (hx : x ∈ xs) : ys.idxOf? x = xs.idxOf? x := by
  obtain ⟨i, hi⟩ := Option.isSome_iff_exists.1 (List.isSome_idxOf?.2 hx)
  rw [hi]
  exact h.findIdx?_eq_some hi

theorem eq_of_idxOf?_eq_some {y : α} (hx : xs.idxOf? x = some i) (hy : xs.idxOf? y = some i) :
    x = y := by
  obtain ⟨_, hx, -⟩ := List.idxOf?_eq_some_iff.1 hx
  obtain ⟨_, hy, -⟩ := List.idxOf?_eq_some_iff.1 hy
  exact hx.symm.trans hy

end

/-- What a search by key finds, where the key belongs to one entry at most. -/
theorem find?_eq_some_iff_of_unique {α κ : Type} [DecidableEq κ] {f : α → κ} {xs : List α} {x : α}
    {k : κ} (h : ∀ x ∈ xs, ∀ y ∈ xs, f x = k → f y = k → x = y) :
    xs.find? (fun x => decide (f x = k)) = some x ↔ x ∈ xs ∧ f x = k := by
  constructor
  · intro hfind
    exact ⟨List.mem_of_find?_eq_some hfind, by simpa using List.find?_some hfind⟩
  · rintro ⟨hmem, hkey⟩
    cases hfind : xs.find? fun x => decide (f x = k) with
    | none => exact absurd hkey (by simpa using List.find?_eq_none.1 hfind x hmem)
    | some y =>
      have hy : f y = k := by simpa using List.find?_some hfind
      rw [h y (List.mem_of_find?_eq_some hfind) x hmem hy hkey]

theorem EntityType.Sound.property?_eq_some {type : EntityType} {p : Property} {name : String}
    (h : type.Sound) : type.property? name = some p ↔ p ∈ type.properties ∧ p.name = name :=
  find?_eq_some_iff_of_unique fun _ hp _ hq hname hname' =>
    h.eq_of_name hp hq (hname.trans hname'.symm)

namespace TypeTable

variable {t t' : TypeTable} {c : TypeCall} {log : List TypeCall} {type : EntityType}
  {p : Property} {name : String} {host g : Nat}

theorem Sound.find?_eq_some (h : t.Sound) :
    t.find? name = some type ↔ type ∈ t.types ∧ type.name = name :=
  find?_eq_some_iff_of_unique fun _ htype _ hother hname hname' =>
    h.eq_of_name htype hother (hname.trans hname'.symm)

theorem Sound.ofHost?_eq_some (h : t.Sound) :
    t.ofHost? host = some type ↔ type ∈ t.types ∧ type.host = host :=
  find?_eq_some_iff_of_unique fun _ htype _ hother hhost hhost' =>
    h.eq_of_host htype hother (hhost.trans hhost'.symm)

/-! ## Numbers -/

/-- The names are those that were bound at the last rebuild, and the properties that were bound by
then have the numbers of their names. -/
structure Numbers (t : TypeTable) (log : List TypeCall) : Prop where
  names : t.propertyNames = (TypeCall.occurrences (TypeCall.settled log)).eraseDups
  numbers : ∀ type ∈ t.types, ∀ p ∈ type.properties, ∀ g, p.globalIndex? = some g ↔
    t.propertyNames[g]? = some p.name ∧
      .addProperty type.name p.name p.accessor ∈ TypeCall.settled log
  known : ∀ typeName name accessor, .addProperty typeName name accessor ∈ TypeCall.settled log →
    name ∈ t.propertyNames

theorem Records.boundNames (h : t.Records log) :
    t.boundNames = (TypeCall.occurrences log).eraseDups := by
  rw [TypeTable.boundNames, h.occurrences]

theorem Numbers.changes (h : t.Numbers log) (hrec : t.Records log) (hc : t.Changes c t') :
    t'.Numbers (log ++ [c]) := by
  cases hc with
  | @addType name host hname hhost =>
    have hsettled : TypeCall.settled (log ++ [.addType name host]) = TypeCall.settled log :=
      TypeCall.settled_concat log rfl
    refine ⟨hsettled ▸ h.names, fun type htype p hp => hsettled ▸ ?_, hsettled ▸ h.known⟩
    rcases List.mem_append.1 htype with htype | htype
    · exact h.numbers type htype p hp
    · rw [List.mem_singleton.1 htype] at hp
      cases hp
  | @addProperty type name accessor htype hhost hname =>
    have hsettled : TypeCall.settled (log ++ [.addProperty type.name name accessor]) =
        TypeCall.settled log := TypeCall.settled_concat log rfl
    refine ⟨hsettled ▸ h.names, fun other hother p hp => hsettled ▸ ?_, hsettled ▸ h.known⟩
    obtain ⟨other, hmem, rfl⟩ := List.mem_map.1 hother
    rw [EntityType.bind_name]
    unfold EntityType.bind at hp
    split at hp
    · next heq =>
      rcases List.mem_append.1 hp with hp | hp
      · exact h.numbers other hmem p hp
      · -- The new property has no number, and was not bound before.
        rw [List.mem_singleton.1 hp, heq]
        refine fun g => ⟨nofun, fun ⟨_, hbound⟩ => ?_⟩
        obtain ⟨q, hq, hqname, -⟩ :=
          (hrec.addProperty_mem htype).1 (TypeCall.settled_subset log hbound)
        exact absurd hqname (hname q hq)
    · exact h.numbers other hmem p hp
  | rebuild =>
    have hsettled := TypeCall.settled_concat_rebuild log
    refine ⟨?_, fun type htype p hp g => ?_, fun typeName name accessor hbound => ?_⟩
    · rw [hsettled, TypeCall.occurrences_concat_rebuild]
      exact hrec.boundNames
    · obtain ⟨type, hmem, rfl⟩ := List.mem_map.1 htype
      obtain ⟨q, hq, rfl⟩ := List.mem_map.1 hp
      have hbound : .addProperty type.name q.name q.accessor ∈ log ++ [.rebuild] :=
        List.mem_append_left _ ((hrec.addProperty_mem hmem).2 ⟨q, hq, rfl, rfl⟩)
      rw [hsettled]
      exact (idxOf?_eq_some_iff_getElem? (nodup_eraseDups _)).trans (and_iff_left hbound).symm
    · rw [hsettled] at hbound
      rw [TypeTable.rebuild, hrec.boundNames, List.mem_eraseDups, hrec.mem_occurrences]
      exact ⟨typeName, accessor, by simpa using hbound⟩

theorem Built.numbers (h : Built log t) : t.Numbers log := by
  induction h with
  | empty => exact ⟨rfl, by simp, by simp [TypeCall.settled]⟩
  | call hbuilt changes ih => exact ih.changes hbuilt.records changes

theorem Numbers.nodup (h : t.Numbers log) : t.propertyNames.Nodup := h.names ▸ nodup_eraseDups _

theorem Numbers.globalIndex?_eq_some (h : t.Numbers log) :
    t.globalIndex? name = some g ↔ t.propertyNames[g]? = some name :=
  idxOf?_eq_some_iff_getElem? h.nodup

/-- A number means the one property of the type that has it. -/
theorem Numbers.propertyAt?_eq_some (h : t.Numbers log) (hsound : t.Sound)
    (htype : type ∈ t.types) :
    type.propertyAt? g = some p ↔ p ∈ type.properties ∧ p.globalIndex? = some g := by
  refine find?_eq_some_iff_of_unique fun p hp q hq hpg hqg => ?_
  have hpname := ((h.numbers type htype p hp g).1 hpg).1
  have hqname := ((h.numbers type htype q hq g).1 hqg).1
  exact (hsound.types type htype).eq_of_name hp hq (Option.some.inj (hpname.symm.trans hqname))

end TypeTable

end Danmaku
