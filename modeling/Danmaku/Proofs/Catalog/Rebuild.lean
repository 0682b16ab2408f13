import Danmaku.Proofs.Catalog.TypeIndex

/-!
# What a rebuild makes

A rebuild numbers every name that is bound, in the order in which the names first occur, type by
type (`TypeTable.NumbersAll`). A name that is bound to the type registered `k`-th keeps its number
at later rebuilds as long as nothing is bound to the types before that one
(`TypeTable.rebuild_numbers`), so code that was compiled with the number still means it.
-/

namespace Danmaku

namespace TypeCall

variable {log later : List TypeCall} {typeName : String} {host k : Nat}

/-- The calls bind nothing to the first `k` types of a history. -/
def SpareFirst (k : Nat) (log later : List TypeCall) : Prop :=
  ∀ typeName name accessor, addProperty typeName name accessor ∈ later →
    ∀ type ∈ (registered log).take k, type.1 ≠ typeName

/-- The property names of the first `k` types, and those of the next one. -/
def firstOccurrences (k : Nat) (typeName : String) (log : List TypeCall) : List String :=
  (((registered log).take k).flatMap fun type => (boundTo type.1 log).map Prod.fst) ++
    (boundTo typeName log).map Prod.fst

theorem firstOccurrences_isPrefix (hk : (registered log)[k]? = some (typeName, host))
    (hlater : SpareFirst k log later) :
    firstOccurrences k typeName log <+: occurrences (log ++ later) := by
  obtain ⟨hlt, hget⟩ := List.getElem?_eq_some_iff.1 hk
  have hsplit : registered (log ++ later) = (registered log).take k ++
      (typeName, host) :: ((registered log).drop (k + 1) ++ registered later) := by
    rw [registered_append, ← hget, ← List.cons_append, List.cons_getElem_drop_succ,
      ← List.append_assoc, List.take_append_drop]
  have hsame : ∀ type ∈ (registered log).take k,
      (boundTo type.1 log).map Prod.fst = (boundTo type.1 (log ++ later)).map Prod.fst := by
    intro type htype
    rw [boundTo_append, boundTo_eq_nil fun name accessor hmem => hlater _ _ _ hmem type htype rfl,
      List.append_nil]
  rw [firstOccurrences, occurrences, hsplit, List.flatMap_append, List.flatMap_cons,
    boundTo_append typeName, List.map_append, List.flatMap_congr hsame, List.append_assoc,
    List.prefix_append_right_inj]
  exact List.prefix_append _ _

/-- The names keep their first places. -/
theorem idxOf?_occurrences {name : String} {accessor : Accessor}
    (hk : (registered log)[k]? = some (typeName, host))
    (hbound : addProperty typeName name accessor ∈ log) (hlater : SpareFirst k log later) :
    (occurrences (log ++ later)).eraseDups.idxOf? name =
      (firstOccurrences k typeName log).eraseDups.idxOf? name := by
  have hname : name ∈ firstOccurrences k typeName log :=
    List.mem_append_right _ (List.mem_map_of_mem (mem_boundTo.2 hbound))
  obtain ⟨rest, hrest⟩ := firstOccurrences_isPrefix hk hlater
  rw [← hrest]
  exact idxOf?_of_isPrefix (eraseDups_isPrefix_append _ _) (List.mem_eraseDups.2 hname)

end TypeCall

namespace TypeTable

variable {t : TypeTable} {log : List TypeCall} {name : String}

theorem rebuild_rebuild (t : TypeTable) : t.rebuild.rebuild = t.rebuild := by
  have hnames : t.rebuild.boundNames = t.boundNames := by
    simp [boundNames, rebuild, EntityType.numbered, List.flatMap_map, Function.comp_def]
  rw [rebuild, hnames]
  simp [rebuild, EntityType.numbered, Function.comp_def]

/-- The numbering of a history. Every name that is bound has one number, and the numbers follow the
first occurrences of the names, type by type. A property has the number of its name, and within its
type the number means the property. Another rebuild changes nothing. -/
structure NumbersAll (t : TypeTable) (log : List TypeCall) : Prop where
  nodup : t.propertyNames.Nodup
  mem_iff : ∀ name, name ∈ t.propertyNames ↔
    ∃ typeName accessor, .addProperty typeName name accessor ∈ log
  order : t.propertyNames.Pairwise fun x y =>
    (TypeCall.occurrences log).idxOf x < (TypeCall.occurrences log).idxOf y
  inverse : ∀ name g, t.globalIndex? name = some g ↔ t.propertyNames[g]? = some name
  bound : ∀ typeName name accessor, .addProperty typeName name accessor ∈ log →
    ∃ type p g, t.find? typeName = some type ∧ type.property? name = some p ∧
      p.accessor = accessor ∧ p.globalIndex? = some g ∧ t.propertyNames[g]? = some name ∧
      type.propertyAt? g = some p
  meant : ∀ type ∈ t.types, ∀ g p,
    type.propertyAt? g = some p ↔ p ∈ type.properties ∧ p.globalIndex? = some g
  fixed : t.rebuild = t

theorem Built.numbersAll (h : Built log t) : t.rebuild.NumbersAll log := by
  have hbuilt : Built (log ++ [.rebuild]) t.rebuild := h.call .rebuild
  have hsound := hbuilt.sound
  have hrecords := hbuilt.records
  have hnumbers := hbuilt.numbers
  have hsettled := TypeCall.settled_concat_rebuild log
  have hnames : t.rebuild.propertyNames = (TypeCall.occurrences log).eraseDups :=
    h.records.boundNames
  refine ⟨hnumbers.nodup, fun name => ?_, ?_, fun name g => hnumbers.globalIndex?_eq_some, ?_,
    fun type htype g p => hnumbers.propertyAt?_eq_some hsound htype, rebuild_rebuild t⟩
  · rw [hnames, List.mem_eraseDups, h.records.mem_occurrences]
  · rw [hnames]
    exact pairwise_eraseDups _
  · intro typeName name accessor hbound
    have hbound' : .addProperty typeName name accessor ∈ log ++ [.rebuild] :=
      List.mem_append_left _ hbound
    obtain ⟨type, htype, rfl⟩ := hrecords.known _ _ _ hbound'
    obtain ⟨p, hp, rfl, rfl⟩ := (hrecords.addProperty_mem htype).1 hbound'
    rw [← hsettled] at hbound'
    obtain ⟨g, hg⟩ := List.mem_iff_getElem?.1 (hnumbers.known _ _ _ hbound')
    have hnumber := (hnumbers.numbers type htype p hp g).2 ⟨hg, hbound'⟩
    exact ⟨type, p, g, hsound.find?_eq_some.2 ⟨htype, rfl⟩,
      (hsound.types type htype).property?_eq_some.2 ⟨hp, rfl⟩, rfl, hnumber, hg,
      (hnumbers.propertyAt?_eq_some hsound htype).2 ⟨hp, hnumber⟩⟩

theorem globalIndex?_made (calls : List TypeCall) (name : String) :
    (made (calls ++ [.rebuild])).globalIndex? name =
      (TypeCall.occurrences (history calls)).eraseDups.idxOf? name := by
  rw [made_concat_rebuild, globalIndex?]
  exact congrArg (List.idxOf? name) (built_made calls).records.boundNames

/-- **After any calls, a rebuild numbers all names that are bound**, and the maps of the index lead
to the same. **A name that is bound to the type registered `k`-th**, whether or not it occurs there
first, **keeps its number** through later calls and another rebuild if these bind nothing to the
first `k` types. Types may be registered, rebuilds may come in between, and calls may be refused. -/
theorem rebuild_numbers (calls : List TypeCall) :
    (made (calls ++ [.rebuild])).NumbersAll (history calls) ∧
      (TypeIndex.made (calls ++ [.rebuild])).Answers (made (calls ++ [.rebuild])) ∧
      ∀ (k : Nat) (typeName name : String) (host : Nat) (accessor : Accessor)
        (later : List TypeCall),
        (TypeCall.registered (history calls))[k]? = some (typeName, host) →
        .addProperty typeName name accessor ∈ history calls →
        TypeCall.SpareFirst k (history calls) later →
        ∃ g, (made (calls ++ [.rebuild])).globalIndex? name = some g ∧
          (made (calls ++ later ++ [.rebuild])).globalIndex? name = some g := by
  have hall : (made (calls ++ [.rebuild])).NumbersAll (history calls) := by
    rw [made_concat_rebuild]
    exact (built_made calls).numbersAll
  refine ⟨hall, TypeIndex.made_answers _, ?_⟩
  intro k typeName name host accessor later hk hbound hlater
  obtain ⟨_, _, g, -, -, -, -, hg, -⟩ := hall.bound _ _ _ hbound
  have hnumber := (hall.inverse name g).2 hg
  refine ⟨g, hnumber, ?_⟩
  -- Both histories begin with the names of the first types, and this name is one of them.
  have hspare : TypeCall.SpareFirst k (history calls) ((made calls).accepted later) :=
    fun typeName name accessor hmem =>
      hlater typeName name accessor (accepted_subset (made calls) later hmem)
  have hhistory : history (calls ++ later) = history calls ++ (made calls).accepted later :=
    accepted_append _ _ _
  have hnone : TypeCall.SpareFirst k (history calls) [] := nofun
  have hold := TypeCall.idxOf?_occurrences hk hbound hnone
  rw [List.append_nil] at hold
  rw [globalIndex?_made] at hnumber ⊢
  rw [hhistory, TypeCall.idxOf?_occurrences hk hbound hspare, ← hold, hnumber]

/-- Two types that share a property name. -/
def sharing : List TypeCall :=
  [.addType "bullet" 0, .addType "emitter" 1, .addProperty "bullet" "x" ⟨0, .ofPlace 0⟩,
    .addProperty "bullet" "speed" ⟨0, .ofPlace 1⟩, .addProperty "emitter" "speed" ⟨1, .ofPlace 0⟩,
    .addProperty "emitter" "angle" ⟨1, .ofPlace 1⟩]

/-- More of the second type, and a third one. -/
def sharingMore : List TypeCall :=
  [.addProperty "emitter" "x" ⟨1, .ofPlace 2⟩, .addType "laser" 2, .rebuild,
    .addProperty "laser" "width" ⟨2, .ofPlace 0⟩, .addProperty "laser" "angle" ⟨2, .ofPlace 1⟩,
    .addProperty "emitter" "spin" ⟨1, .ofPlace 3⟩]

theorem sharing_numbers :
    (TypeCall.registered (history sharing))[1]? = some ("emitter", 1) ∧
      .addProperty "emitter" "angle" ⟨1, .ofPlace 1⟩ ∈ history sharing ∧
      TypeCall.SpareFirst 1 (history sharing) sharingMore ∧
      (made (sharing ++ sharingMore ++ [.rebuild])).propertyNames =
        ["x", "speed", "angle", "spin", "width"] ∧
      ∃ g, (made (sharing ++ [.rebuild])).globalIndex? "angle" = some g ∧
        (made (sharing ++ sharingMore ++ [.rebuild])).globalIndex? "angle" = some g := by
  have hk : (TypeCall.registered (history sharing))[1]? = some ("emitter", 1) := by decide
  have hbound : .addProperty "emitter" "angle" ⟨1, .ofPlace 1⟩ ∈ history sharing :=
    List.mem_of_getElem? (i := 5) rfl
  have hspare : TypeCall.SpareFirst 1 (history sharing) sharingMore := by
    have hfirst : (TypeCall.registered (history sharing)).take 1 = [("bullet", 0)] := by decide
    intro typeName name accessor hmem type htype
    rw [hfirst, List.mem_singleton] at htype
    subst htype
    rintro rfl
    simp [sharingMore] at hmem
  exact ⟨hk, hbound, hspare, by decide,
    (rebuild_numbers sharing).2.2 1 "emitter" "angle" 1 ⟨1, .ofPlace 1⟩ sharingMore hk hbound
      hspare⟩

end TypeTable

end Danmaku
