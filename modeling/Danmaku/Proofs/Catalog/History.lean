import Danmaku.Proofs.Compile.Success
import Mathlib.Data.List.DropRight
import Mathlib.Data.List.Nodup

/-!
# The history of a type table

A host makes a type table by calls, some of which the table may refuse (`TypeTable.made`). The calls
that it has accepted are its history (`TypeTable.history`), and they say all about it: which types
there are and what is bound to them, in which order (`TypeTable.Records`). Names and host types
belong to one entity type each, and an accessor works on the entities of the type that it is bound
to (`TypeTable.Sound`).
-/

namespace Danmaku

/-- What a host can ask of a type table. -/
inductive TypeCall
  /-- Register a host type under a name. -/
  | addType (name : String) (host : Nat)
  /-- Bind a property of an entity type. -/
  | addProperty (typeName name : String) (accessor : Accessor)
  /-- Number all property names anew. -/
  | rebuild

namespace TypeCall

/-- Whether a call numbers the property names. -/
def isRebuild : TypeCall → Bool
  | addType _ _ => false
  | addProperty _ _ _ => false
  | rebuild => true

/-- The name and the host type that a call registers. -/
@[simp] def registration? : TypeCall → Option (String × Nat)
  | addType name host => some (name, host)
  | addProperty _ _ _ => none
  | rebuild => none

/-- The property that a call binds to the type of a name. -/
@[simp] def binding? (typeName : String) : TypeCall → Option (String × Accessor)
  | addType _ _ => none
  | addProperty other name accessor => if other = typeName then some (name, accessor) else none
  | rebuild => none

/-- The names and host types that calls register, in order. -/
def registered (calls : List TypeCall) : List (String × Nat) := calls.filterMap registration?

/-- The properties that calls bind to the type of a name, in order. -/
def boundTo (typeName : String) (calls : List TypeCall) : List (String × Accessor) :=
  calls.filterMap (binding? typeName)

/-- The property names that calls bind, type by type. -/
def occurrences (calls : List TypeCall) : List String :=
  (registered calls).flatMap fun type => (boundTo type.1 calls).map Prod.fst

/-- The calls up to the last rebuild. There are none if nothing was ever numbered. -/
def settled (calls : List TypeCall) : List TypeCall :=
  calls.rdropWhile fun call => !call.isRebuild

variable {calls : List TypeCall} {typeName name : String} {host : Nat} {accessor : Accessor}

theorem mem_registered : (name, host) ∈ registered calls ↔ addType name host ∈ calls := by
  rw [registered, List.mem_filterMap]
  constructor
  · rintro ⟨call, hmem, heq⟩
    cases call with
    | addType => cases heq; exact hmem
    | addProperty => cases heq
    | rebuild => cases heq
  · exact fun hmem => ⟨_, hmem, rfl⟩

theorem mem_boundTo :
    (name, accessor) ∈ boundTo typeName calls ↔ addProperty typeName name accessor ∈ calls := by
  rw [boundTo, List.mem_filterMap]
  constructor
  · rintro ⟨call, hmem, heq⟩
    cases call with
    | addType => cases heq
    | addProperty =>
      rw [binding?, Option.ite_none_right_eq_some] at heq
      obtain ⟨rfl, heq⟩ := heq
      cases heq
      exact hmem
    | rebuild => cases heq
  · exact fun hmem => ⟨_, hmem, if_pos rfl⟩

theorem registered_append (calls later : List TypeCall) :
    registered (calls ++ later) = registered calls ++ registered later := List.filterMap_append

theorem boundTo_append (typeName : String) (calls later : List TypeCall) :
    boundTo typeName (calls ++ later) = boundTo typeName calls ++ boundTo typeName later :=
  List.filterMap_append

theorem occurrences_concat_rebuild (calls : List TypeCall) :
    occurrences (calls ++ [rebuild]) = occurrences calls := by
  have hbound : ∀ typeName, boundTo typeName (calls ++ [rebuild]) = boundTo typeName calls :=
    fun typeName => (boundTo_append _ _ _).trans (List.append_nil _)
  have hregistered : registered (calls ++ [rebuild]) = registered calls :=
    (registered_append _ _).trans (List.append_nil _)
  simp only [occurrences, hregistered, hbound]

/-- Nothing is bound to a type that no call names. -/
theorem boundTo_eq_nil (h : ∀ name accessor, addProperty typeName name accessor ∉ calls) :
    boundTo typeName calls = [] :=
  List.eq_nil_iff_forall_not_mem.2 fun _ hmem => h _ _ (mem_boundTo.1 hmem)

theorem settled_subset (calls : List TypeCall) : settled calls ⊆ calls := by
  have hle : settled calls <+: calls := List.rdropWhile_prefix _ calls
  exact hle.subset

theorem settled_concat_rebuild (calls : List TypeCall) :
    settled (calls ++ [rebuild]) = calls ++ [rebuild] :=
  List.rdropWhile_concat_neg _ _ _ (by decide)

theorem settled_concat (calls : List TypeCall) {call : TypeCall} (h : call.isRebuild = false) :
    settled (calls ++ [call]) = settled calls :=
  List.rdropWhile_concat_pos _ _ _ (by rw [h, Bool.not_false])

end TypeCall

/-- The type with one more property, if it is the type of a name. -/
def EntityType.bind (typeName : String) (property : Property) (type : EntityType) : EntityType :=
  if type.name = typeName then { type with properties := type.properties ++ [property] } else type

namespace TypeTable

/-! ## Calls -/

/-- The table that a call makes, unless it is refused. -/
def call (t : TypeTable) : TypeCall → Except RegistrationError TypeTable
  | .addType name host => (t.addType name host).map Prod.snd
  | .addProperty typeName name accessor => (t.addProperty typeName name accessor).map Prod.snd
  | .rebuild => .ok t.rebuild

/-- The table after calls. One that is refused leaves it as it is. -/
def after (t : TypeTable) : List TypeCall → TypeTable
  | [] => t
  | call :: calls =>
    match t.call call with
    | .ok t' => t'.after calls
    | .error _ => t.after calls

/-- The calls that are not refused. -/
def accepted (t : TypeTable) : List TypeCall → List TypeCall
  | [] => []
  | call :: calls =>
    match t.call call with
    | .ok t' => call :: t'.accepted calls
    | .error _ => t.accepted calls

/-- The table that calls make. -/
def made (calls : List TypeCall) : TypeTable := after {} calls

/-- The calls that made a table, without those that it refused. -/
def history (calls : List TypeCall) : List TypeCall := accepted {} calls

/-- What an accepted call does. -/
inductive Changes (t : TypeTable) : TypeCall → TypeTable → Prop
  /-- A type of a new name and a new host type comes last. -/
  | addType {name : String} {host : Nat} (hname : ∀ type ∈ t.types, type.name ≠ name)
      (hhost : ∀ type ∈ t.types, type.host ≠ host) :
      Changes t (.addType name host)
        { t with types := t.types ++ [⟨name, t.types.length, host, []⟩] }
  /-- A property of a new name comes last in a type of the accessor's host type. -/
  | addProperty {type : EntityType} {name : String} {accessor : Accessor} (htype : type ∈ t.types)
      (hhost : accessor.host = type.host) (hname : ∀ p ∈ type.properties, p.name ≠ name) :
      Changes t (.addProperty type.name name accessor)
        { t with
          types := t.types.map
            (EntityType.bind type.name ⟨name, type.properties.length, none, accessor⟩) }
  /-- All names are numbered anew. -/
  | rebuild : Changes t .rebuild t.rebuild

variable {t t' : TypeTable} {c : TypeCall} {log calls : List TypeCall} {type other : EntityType}

theorem changes_of_addType {name : String} {host i : Nat} (h : t.addType name host = .ok (i, t')) :
    t.Changes (.addType name host) t' := by
  unfold addType contains at h
  split at h
  · cases h
  · next hname =>
    split at h
    · cases h
    · next hhost =>
      cases h
      rw [Bool.not_eq_true, Option.isSome_eq_false_iff, Option.isNone_iff_eq_none, find?,
        List.find?_eq_none] at hname
      rw [ofHost?, List.find?_eq_none] at hhost
      exact .addType (by simpa using hname) (by simpa using hhost)

theorem changes_of_addProperty {typeName name : String} {accessor : Accessor} {i : Nat}
    (h : t.addProperty typeName name accessor = .ok (i, t')) :
    t.Changes (.addProperty typeName name accessor) t' := by
  unfold addProperty at h
  split at h
  · cases h
  · next type hfind =>
    have htype := List.mem_of_find?_eq_some hfind
    obtain rfl : type.name = typeName := by simpa using List.find?_some hfind
    split at h
    · cases h
    · next hhost =>
      split at h
      · cases h
      · next hname =>
        cases h
        rw [Bool.not_eq_true, Option.isSome_eq_false_iff, Option.isNone_iff_eq_none,
          EntityType.property?, List.find?_eq_none] at hname
        exact .addProperty htype (not_not.1 hhost).symm (by simpa using hname)

theorem changes_of_call (h : t.call c = .ok t') : t.Changes c t' := by
  cases c with
  | addType name host =>
    obtain ⟨⟨i, t'⟩, hadd, rfl⟩ := map_eq_ok.1 h
    exact changes_of_addType hadd
  | addProperty typeName name accessor =>
    obtain ⟨⟨i, t'⟩, hadd, rfl⟩ := map_eq_ok.1 h
    exact changes_of_addProperty hadd
  | rebuild =>
    cases h
    exact .rebuild

theorem after_append (t : TypeTable) (calls later : List TypeCall) :
    t.after (calls ++ later) = (t.after calls).after later := by
  induction calls generalizing t with
  | nil => rfl
  | cons call calls ih =>
    simp only [List.cons_append, after]
    split
    · exact ih _
    · exact ih _

theorem accepted_append (t : TypeTable) (calls later : List TypeCall) :
    t.accepted (calls ++ later) = t.accepted calls ++ (t.after calls).accepted later := by
  induction calls generalizing t with
  | nil => rfl
  | cons call calls ih =>
    simp only [List.cons_append, accepted, after]
    split
    · rw [ih, List.cons_append]
    · exact ih _

theorem accepted_subset (t : TypeTable) (calls : List TypeCall) : t.accepted calls ⊆ calls := by
  induction calls generalizing t with
  | nil => exact List.Subset.refl _
  | cons call calls ih =>
    simp only [accepted]
    split
    · exact List.cons_subset_cons _ (ih _)
    · exact List.subset_cons_of_subset _ (ih _)

theorem made_concat_rebuild (calls : List TypeCall) :
    made (calls ++ [.rebuild]) = (made calls).rebuild := after_append _ _ _

/-- The tables that accepted calls make. -/
inductive Built : List TypeCall → TypeTable → Prop
  | empty : Built [] {}
  | call {log : List TypeCall} {t t' : TypeTable} {c : TypeCall} (h : Built log t)
      (changes : t.Changes c t') : Built (log ++ [c]) t'

theorem Built.after (h : Built log t) (calls : List TypeCall) :
    Built (log ++ t.accepted calls) (t.after calls) := by
  induction calls generalizing log t with
  | nil => rwa [accepted, List.append_nil]
  | cons call calls ih =>
    simp only [accepted, TypeTable.after]
    split
    · next hcall => simpa using ih (h.call (changes_of_call hcall))
    · exact ih h

theorem built_made (calls : List TypeCall) : Built (history calls) (made calls) :=
  Built.empty.after calls

end TypeTable

/-! ## What holds of every table -/

/-- The properties of a type have names and places of their own, and accessors for its host type. -/
structure EntityType.Sound (type : EntityType) : Prop where
  names : (type.properties.map Property.name).Nodup
  places : ∀ i (p : Property), type.properties[i]? = some p → p.localIndex = i
  hosts : ∀ p ∈ type.properties, p.accessor.host = type.host

namespace EntityType

variable {type : EntityType} {p q : Property} {typeName : String}

theorem Sound.eq_of_name (h : type.Sound) (hp : p ∈ type.properties) (hq : q ∈ type.properties)
    (hname : p.name = q.name) : p = q :=
  List.inj_on_of_nodup_map h.names hp hq hname

theorem Sound.append (h : type.Sound) (hname : ∀ q ∈ type.properties, q.name ≠ p.name)
    (hplace : p.localIndex = type.properties.length) (hhost : p.accessor.host = type.host) :
    Sound { type with properties := type.properties ++ [p] } where
  names := by
    rw [List.map_append, List.nodup_append]
    refine ⟨h.names, List.nodup_singleton _, fun name hmem other hother => ?_⟩
    obtain ⟨q, hq, rfl⟩ := List.mem_map.1 hmem
    rw [List.mem_singleton.1 hother]
    exact hname q hq
  places := by
    intro i q hq
    rw [List.getElem?_append] at hq
    split at hq
    · exact h.places i q hq
    · obtain ⟨hi, rfl⟩ := List.getElem?_eq_some_iff.1 hq
      rw [List.length_singleton] at hi
      rw [List.getElem_singleton, hplace]
      omega
  hosts := by
    intro q hq
    rcases List.mem_append.1 hq with hq | hq
    · exact h.hosts q hq
    · rwa [List.mem_singleton.1 hq]

theorem Sound.numbered (h : type.Sound) (names : List String) : (type.numbered names).Sound where
  names := by
    simpa [EntityType.numbered, Function.comp_def] using h.names
  places := by
    intro i p hp
    rw [EntityType.numbered, List.getElem?_map, Option.map_eq_some_iff] at hp
    obtain ⟨q, hq, rfl⟩ := hp
    exact h.places i q hq
  hosts := by
    intro p hp
    obtain ⟨q, hq, rfl⟩ := List.mem_map.1 hp
    exact h.hosts q hq

@[simp] theorem bind_name (typeName : String) (p : Property) (type : EntityType) :
    (type.bind typeName p).name = type.name := by
  unfold bind
  split <;> rfl

@[simp] theorem bind_host (typeName : String) (p : Property) (type : EntityType) :
    (type.bind typeName p).host = type.host := by
  unfold bind
  split <;> rfl

end EntityType

namespace TypeTable

variable {t t' : TypeTable} {c : TypeCall} {log : List TypeCall} {type other : EntityType}
  {name : String} {host : Nat} {accessor : Accessor}

/-- Names and host types belong to one entity type each, and the types are sound. -/
structure Sound (t : TypeTable) : Prop where
  names : (t.types.map EntityType.name).Nodup
  hosts : (t.types.map EntityType.host).Nodup
  types : ∀ type ∈ t.types, type.Sound

theorem Sound.eq_of_name (h : t.Sound) (htype : type ∈ t.types) (hother : other ∈ t.types)
    (hname : type.name = other.name) : type = other :=
  List.inj_on_of_nodup_map h.names htype hother hname

theorem Sound.eq_of_host (h : t.Sound) (htype : type ∈ t.types) (hother : other ∈ t.types)
    (hhost : type.host = other.host) : type = other :=
  List.inj_on_of_nodup_map h.hosts htype hother hhost

/-- Only one type has the name, so it alone changes. -/
theorem Sound.map_bind (h : t.Sound) {i : Nat} (hi : t.types[i]? = some type) (p : Property) :
    t.types.map (EntityType.bind type.name p) =
      t.types.set i { type with properties := type.properties ++ [p] } := by
  refine List.ext_getElem? fun j => ?_
  rw [List.getElem?_map, List.getElem?_set]
  split
  · next hj =>
    obtain ⟨hlt, -⟩ := List.getElem?_eq_some_iff.1 hi
    rw [← hj, hi, if_pos hlt, Option.map_some, EntityType.bind, if_pos rfl]
  · next hj =>
    cases hother : t.types[j]? with
    | none => rfl
    | some other =>
      rw [Option.map_some, EntityType.bind, if_neg]
      intro hname
      have hlt : i < (t.types.map EntityType.name).length := by
        rw [List.length_map]
        exact (List.getElem?_eq_some_iff.1 hi).1
      refine hj ((List.getElem?_inj hlt h.names).1 ?_)
      rw [List.getElem?_map, List.getElem?_map, hi, hother, Option.map_some, Option.map_some, hname]

theorem Sound.changes (h : t.Sound) (hc : t.Changes c t') : t'.Sound := by
  cases hc with
  | @addType name host hname hhost =>
    refine ⟨?_, ?_, fun type htype => ?_⟩
    · simpa [List.nodup_append, h.names] using hname
    · simpa [List.nodup_append, h.hosts] using hhost
    · rcases List.mem_append.1 htype with htype | htype
      · exact h.types type htype
      · rw [List.mem_singleton.1 htype]
        exact ⟨List.nodup_nil, by simp, by simp⟩
  | @addProperty type name accessor htype hhost hname =>
    refine ⟨?_, ?_, fun other hother => ?_⟩
    · simpa [Function.comp_def] using h.names
    · simpa [Function.comp_def] using h.hosts
    · obtain ⟨other, hmem, rfl⟩ := List.mem_map.1 hother
      unfold EntityType.bind
      split
      · next heq =>
        obtain rfl := h.eq_of_name hmem htype heq
        exact (h.types _ hmem).append hname rfl hhost
      · exact h.types other hmem
  | rebuild =>
    refine ⟨?_, ?_, fun type htype => ?_⟩
    · simpa [rebuild, Function.comp_def, EntityType.numbered] using h.names
    · simpa [rebuild, Function.comp_def, EntityType.numbered] using h.hosts
    · obtain ⟨type, hmem, rfl⟩ := List.mem_map.1 htype
      exact (h.types type hmem).numbered _

theorem Built.sound (h : Built log t) : t.Sound := by
  induction h with
  | empty => exact ⟨List.nodup_nil, List.nodup_nil, by simp⟩
  | call _ changes ih => exact ih.changes changes

/-! ## What the history says -/

/-- The table holds the types and properties of its history, in order. -/
structure Records (t : TypeTable) (log : List TypeCall) : Prop where
  types : t.types.map (fun type => (type.name, type.host)) = TypeCall.registered log
  properties : ∀ type ∈ t.types,
    type.properties.map (fun p => (p.name, p.accessor)) = TypeCall.boundTo type.name log
  /-- Nothing was bound to a type before it was registered. -/
  known : ∀ typeName name accessor, .addProperty typeName name accessor ∈ log →
    ∃ type ∈ t.types, type.name = typeName

theorem Records.changes (h : t.Records log) (hc : t.Changes c t') : t'.Records (log ++ [c]) := by
  cases hc with
  | @addType name host hname hhost =>
    refine ⟨?_, fun type htype => ?_, fun typeName property accessor hmem => ?_⟩
    · rw [List.map_append, h.types, TypeCall.registered_append]
      rfl
    · rw [TypeCall.boundTo_append]
      rcases List.mem_append.1 htype with htype | htype
      · exact (h.properties type htype).trans (List.append_nil _).symm
      · rw [List.mem_singleton.1 htype, TypeCall.boundTo_eq_nil fun property accessor hmem => ?_]
        · rfl
        · obtain ⟨type, htype, heq⟩ := h.known _ _ _ hmem
          exact hname type htype heq
    · obtain ⟨type, htype, heq⟩ := h.known _ _ _ (by simpa using hmem)
      exact ⟨type, List.mem_append_left _ htype, heq⟩
  | @addProperty type name accessor htype hhost hname =>
    refine ⟨?_, fun other hother => ?_, fun typeName property accessor' hmem => ?_⟩
    · rw [TypeCall.registered_append, ← h.types]
      simp [Function.comp_def, TypeCall.registered]
    · obtain ⟨other, hmem, rfl⟩ := List.mem_map.1 hother
      rw [EntityType.bind_name, TypeCall.boundTo_append, ← h.properties other hmem]
      unfold EntityType.bind
      split
      · next heq => simp [TypeCall.boundTo, heq]
      · next hne => simp [TypeCall.boundTo, Ne.symm hne]
    · rcases List.mem_append.1 hmem with hmem | hmem
      · obtain ⟨other, hother, heq⟩ := h.known _ _ _ hmem
        exact ⟨_, List.mem_map_of_mem hother, by rwa [EntityType.bind_name]⟩
      · cases List.mem_singleton.1 hmem
        exact ⟨_, List.mem_map_of_mem htype, EntityType.bind_name _ _ _⟩
  | rebuild =>
    refine ⟨?_, fun type htype => ?_, fun typeName property accessor hmem => ?_⟩
    · rw [TypeCall.registered_append, ← h.types]
      simp [rebuild, Function.comp_def, EntityType.numbered, TypeCall.registered]
    · obtain ⟨type, hmem, rfl⟩ := List.mem_map.1 htype
      rw [TypeCall.boundTo_append]
      refine Eq.trans ?_ ((h.properties type hmem).trans (List.append_nil _).symm)
      simp [EntityType.numbered, Function.comp_def]
    · obtain ⟨type, htype, heq⟩ := h.known _ _ _ (by simpa using hmem)
      exact ⟨_, List.mem_map_of_mem htype, heq⟩

theorem Built.records (h : Built log t) : t.Records log := by
  induction h with
  | empty => exact ⟨rfl, by simp, by simp⟩
  | call _ changes ih => exact ih.changes changes

theorem Records.addType_mem (h : t.Records log) :
    .addType name host ∈ log ↔ ∃ type ∈ t.types, type.name = name ∧ type.host = host := by
  rw [← TypeCall.mem_registered, ← h.types, List.mem_map]
  simp

theorem Records.addProperty_mem (h : t.Records log) (htype : type ∈ t.types) :
    .addProperty type.name name accessor ∈ log ↔
      ∃ p ∈ type.properties, p.name = name ∧ p.accessor = accessor := by
  rw [← TypeCall.mem_boundTo, ← h.properties type htype, List.mem_map]
  simp

/-- The property names of a table are those of its history, type by type. -/
theorem Records.occurrences (h : t.Records log) :
    (t.types.flatMap fun type => type.properties.map Property.name) =
      TypeCall.occurrences log := by
  have hnames : ∀ type ∈ t.types, type.properties.map Property.name =
      (TypeCall.boundTo type.name log).map Prod.fst := fun type htype => by
    simp [← h.properties type htype, Function.comp_def]
  rw [TypeCall.occurrences, ← h.types, List.flatMap_map]
  exact List.flatMap_congr hnames

theorem Records.mem_occurrences (h : t.Records log) :
    name ∈ TypeCall.occurrences log ↔
      ∃ typeName accessor, .addProperty typeName name accessor ∈ log := by
  rw [TypeCall.occurrences, List.mem_flatMap]
  constructor
  · rintro ⟨⟨typeName, host⟩, -, hmem⟩
    obtain ⟨⟨_, accessor⟩, hbound, rfl⟩ := List.mem_map.1 hmem
    exact ⟨typeName, accessor, TypeCall.mem_boundTo.1 hbound⟩
  · rintro ⟨typeName, accessor, hbound⟩
    obtain ⟨type, htype, rfl⟩ := h.known _ _ _ hbound
    refine ⟨(type.name, type.host), h.types ▸ List.mem_map_of_mem htype, ?_⟩
    exact List.mem_map_of_mem (TypeCall.mem_boundTo.2 hbound)

end TypeTable

end Danmaku
