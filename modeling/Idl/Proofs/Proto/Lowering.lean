import Idl.Proofs.Compile.WellFormed
import Idl.Proto
import Mathlib.Data.List.Basic

/-!
# The protobuf file of a schema says what the schema says

A schema is lowered in one walk over its entities. The walk notes the comments and the files that
are needed as it comes to them, and it fills the groups of optional fields into a message that
already has all of its fields. What the walk leaves behind is the file of the schema.

Entity by entity the file repeats the schema: names, numbers and types, groups for the optional
fields, the messages of a method. Comments are tied to entities by paths of numbers, and such a path
leads to one entity, the one whose documentation the comment holds.

What a type becomes is said here by tables of its own: the plain type that has room for a built-in
one, the message that wraps it, and the full name of a message.

* §1 what has been noted, §2 groups, §3 what the walk leaves behind,
* §4 what the file has to say, §5 types, §6 messages and their groups, §7 the files that are needed,
* §8 paths, §9 comments, §10 the file of a schema.
-/

namespace Idl.Proto

/-! ## §1 What has been noted -/

/-- The file for plain values is needed. -/
def needsWrapper : Option Ty → Bool
  | none => false
  | some t => !t.isMessage

/-- The files that are needed for types, in order. -/
def needed (types : List (Option Ty)) : List Bytes :=
  (if types.any (·.isNone) then [emptyFile] else [])
    ++ (if types.any needsWrapper then [wrappersFile] else [])

theorem dependenciesOf_eq (s : Schema) : dependenciesOf s = needed (methodTypes s) := rfl

namespace Notes

/-- The notes on types and comments. -/
def of (types : List (Option Ty)) (locations : List Location) : Notes := ⟨needed types, locations⟩

variable {types : List (Option Ty)} {locations : List Location}

theorem document_eq (docs : List Bytes) (path : List Nat) :
    (of types locations).document docs path = of types (locations ++ locationsOf docs path) := by
  unfold document locationsOf
  split
  · rw [List.append_nil]
  · rfl

/-- Of the two files the one is noted in front of the other, whichever comes first. -/
theorem depend_of (locations : List Location) (e w : Bool) :
    let files (e w : Bool) := (if e then [emptyFile] else []) ++ (if w then [wrappersFile] else [])
    depend ⟨files e w, locations⟩ emptyFile = ⟨files true w, locations⟩
      ∧ depend ⟨files e w, locations⟩ wrappersFile = ⟨files e true, locations⟩ := by
  have hne : wrappersFile ≠ emptyFile := by decide +kernel
  have hle : Bytes.le emptyFile wrappersFile = true ∧ Bytes.le wrappersFile emptyFile = false := by
    decide +kernel
  cases e <;> cases w <;> simp [depend, hne, hne.symm, hle, List.mergeSort]

end Notes

theorem walkType_eq (package : Bytes) (types : List (Option Ty)) (locations : List Location)
    (t : Option Ty) : walkType package (.of types locations) t
      = (methodType package t, .of (types ++ [t]) locations) := by
  obtain ⟨hempty, hwrapper⟩ := Notes.depend_of locations (types.any (·.isNone))
    (types.any needsWrapper)
  rcases t with - | k | name | n
  · simpa [walkType, methodType, Notes.of, needed, needsWrapper] using hempty
  · simpa [walkType, methodType, Notes.of, needed, needsWrapper, Ty.isMessage] using hwrapper
  · simp [walkType, methodType, Notes.of, needed, needsWrapper, Ty.isMessage]
  · simpa [walkType, methodType, Notes.of, needed, needsWrapper, Ty.isMessage] using hwrapper

section Loops

variable (package : Bytes) (types : List (Option Ty)) (locations : List Location)

theorem walkMethods_eq (i j : Nat) (l : List Idl.Method) :
    walkMethods package i j (.of types locations) l
      = (l.map fun m => ⟨m.name, methodType package m.input, methodType package m.output⟩,
        .of (types ++ l.flatMap fun m => [m.input, m.output])
          (locations ++ (l.mapIdx fun k m => locationsOf m.docs (methodPath i (j + k))).flatten)) := by
  induction l generalizing j types locations with
  | nil => simp [walkMethods]
  | cons m r ih =>
    have hplace (k : Nat) : j + 1 + k = j + (k + 1) := by omega
    simp only [walkMethods, Notes.document_eq, walkType_eq, ih, List.map_cons, List.flatMap_cons,
      List.mapIdx_cons, List.flatten_cons, List.append_assoc, hplace, Nat.add_zero,
      List.cons_append, List.nil_append]

theorem walkServices_eq (i : Nat) (l : List Idl.Service) :
    walkServices package i (.of types locations) l
      = (l.map (lowerService package),
        .of (types ++ l.flatMap fun s => s.methods.flatMap fun m => [m.input, m.output])
          (locations ++ (l.mapIdx fun k s => serviceLocations (i + k) s).flatten)) := by
  induction l generalizing i types locations with
  | nil => simp [walkServices]
  | cons s r ih =>
    have hplace (k : Nat) : i + 1 + k = i + (k + 1) := by omega
    simp only [walkServices, Notes.document_eq, walkMethods_eq, ih, List.map_cons,
      List.flatMap_cons, List.mapIdx_cons, List.flatten_cons, List.append_assoc, hplace,
      Nat.add_zero, Nat.zero_add, serviceLocations, lowerService]

theorem walkFields_eq (i j : Nat) (l : List Idl.Field) :
    walkFields package i j (.of types locations) l
      = (l.map (ungrouped package), .of types
          (locations ++ (l.mapIdx fun k f => locationsOf f.docs (fieldPath i (j + k))).flatten)) := by
  induction l generalizing j locations with
  | nil => simp [walkFields]
  | cons f r ih =>
    have hplace (k : Nat) : j + 1 + k = j + (k + 1) := by omega
    simp only [walkFields, Notes.document_eq, ih, List.map_cons, List.mapIdx_cons,
      List.flatten_cons, List.append_assoc, hplace, Nat.add_zero]

end Loops

/-! ## §2 Groups -/

/-- The field behind those that have been gone through is changed in its place. -/
theorem modify_next {α : Type} (done : List α) (x : α) (r : List α) (g : α → α) :
    (done ++ x :: r).modify done.length g = done ++ g x :: r := by
  rw [List.modify_eq_take_cons_drop (by simp)]
  simp

/-- The fields that have been gone through are as they shall be, and the others are in no group. -/
theorem group_eq (package name : Bytes) (done : List Field) (groups : List Bytes)
    (l : List Idl.Field) :
    Message.group done.length ⟨name, done ++ l.map (ungrouped package), groups⟩ l
      = ⟨name, done ++ lowerFields package groups.length l,
        groups ++ (l.filter (·.optional)).map fun f => ("_" : Bytes) ++ f.name⟩ := by
  -- done and groups are what the loop has put into the message so far
  induction l generalizing done groups with
  | nil => simp [Message.group, lowerFields]
  | cons f r ih =>
    cases hoptional : f.optional with
    -- an optional field opens a group of its own, of which the index is how many there are
    | true =>
      have hrest := ih (done ++ [lowerField package groups.length f]) (groups ++ ["_" ++ f.name])
      simpa [Message.group, lowerFields, hoptional, lowerField, ungrouped, modify_next] using hrest
    | false =>
      have hrest := ih (done ++ [lowerField package groups.length f]) groups
      simpa [Message.group, lowerFields, hoptional, lowerField, ungrouped] using hrest

theorem group_lowerMessage (package : Bytes) (m : Idl.Message) :
    Message.group 0 ⟨m.name, m.fields.map (ungrouped package), []⟩ m.fields
      = lowerMessage package m :=
  group_eq package m.name [] [] m.fields

theorem walkMessages_eq (package : Bytes) (types : List (Option Ty)) (locations : List Location)
    (i : Nat) (l : List Idl.Message) :
    walkMessages package i (.of types locations) l
      = (l.map (lowerMessage package), .of types
          (locations ++ (l.mapIdx fun k m => messageLocations (i + k) m).flatten)) := by
  induction l generalizing i locations with
  | nil => simp [walkMessages]
  | cons m r ih =>
    have hplace (k : Nat) : i + 1 + k = i + (k + 1) := by omega
    simp only [walkMessages, Notes.document_eq, walkFields_eq, ih, group_lowerMessage,
      List.map_cons, List.mapIdx_cons, List.flatten_cons, List.append_assoc, hplace, Nat.add_zero,
      Nat.zero_add, messageLocations]

/-! ## §3 What the walk leaves behind -/

/-- The walk over a schema leaves the file of the schema behind. -/
theorem File.walk_eq (s : Schema) : walk s = ofSchema s := by
  have hstart : (⟨[], []⟩ : Notes) = .of [] [] := rfl
  simp only [walk, hstart, walkMessages_eq, walkServices_eq, List.nil_append, Nat.zero_add]
  rfl

end Idl.Proto

namespace Idl.Proto

/-! ## §4 What the file has to say -/

/-- An entity of a file, by its place. -/
inductive Entity where
  | message (i : Nat)
  | field (i j : Nat)
  | service (i : Nat)
  | method (i j : Nat)
deriving DecidableEq, Repr

/-- The documentation of an entity that a schema has. -/
def Entity.docs? (s : Schema) : Entity → Option (List Bytes)
  | .message i => s.messages[i]?.map (·.docs)
  | .field i j => (s.messages[i]?.bind fun m => m.fields[j]?).map (·.docs)
  | .service i => s.services[i]?.map (·.docs)
  | .method i j => (s.services[i]?.bind fun v => v.methods[j]?).map (·.docs)

/-- Where a path leads. The numbers in it are, by turns, that of a list in the definition of the
descriptors and a place in the list: the messages of a file are its list 4 and the services its list
6, fields are list 2 of a message and methods list 2 of a service. -/
def File.entityAt? (d : File) : List Nat → Option Entity
  | [4, i] => if i < d.messages.length then some (.message i) else none
  | [4, i, 2, j] =>
    d.messages[i]?.bind fun m => if j < m.fields.length then some (.field i j) else none
  | [6, i] => if i < d.services.length then some (.service i) else none
  | [6, i, 2, j] =>
    d.services[i]?.bind fun v => if j < v.methods.length then some (.method i j) else none
  | _ => none

/-- The plain type that a built-in type becomes. There are no plain integers below 32 bits, so the
small ones are widened and keep their sign; all others have an equivalent. -/
inductive Widens : Scalar → Kind → Prop where
  | bool : Widens .bool .bool
  | int8 : Widens .int8 .int32
  | int16 : Widens .int16 .int32
  | int32 : Widens .int32 .int32
  | int64 : Widens .int64 .int64
  | uint8 : Widens .uint8 .uint32
  | uint16 : Widens .uint16 .uint32
  | uint32 : Widens .uint32 .uint32
  | uint64 : Widens .uint64 .uint64
  | float32 : Widens .float32 .float
  | float64 : Widens .float64 .double
  | string : Widens .string .string
  | bytes : Widens .bytes .bytes

/-- The message whose only field is a plain value, for each built-in type. -/
inductive Wraps : Scalar → Bytes → Prop where
  | bool : Wraps .bool ".google.protobuf.BoolValue"
  | int8 : Wraps .int8 ".google.protobuf.Int32Value"
  | int16 : Wraps .int16 ".google.protobuf.Int32Value"
  | int32 : Wraps .int32 ".google.protobuf.Int32Value"
  | int64 : Wraps .int64 ".google.protobuf.Int64Value"
  | uint8 : Wraps .uint8 ".google.protobuf.UInt32Value"
  | uint16 : Wraps .uint16 ".google.protobuf.UInt32Value"
  | uint32 : Wraps .uint32 ".google.protobuf.UInt32Value"
  | uint64 : Wraps .uint64 ".google.protobuf.UInt64Value"
  | float32 : Wraps .float32 ".google.protobuf.FloatValue"
  | float64 : Wraps .float64 ".google.protobuf.DoubleValue"
  | string : Wraps .string ".google.protobuf.StringValue"
  | bytes : Wraps .bytes ".google.protobuf.BytesValue"

/-- The full name of a message begins with a point, and its package stands in front of its name, if
there is a package. -/
inductive Qualified : (package name full : Bytes) → Prop where
  | bare (name : Bytes) : Qualified [] name ("." ++ name)
  | inside {package : Bytes} (name : Bytes) (nonempty : package ≠ []) :
      Qualified package name ("." ++ package ++ "." ++ name)

section Says

variable (s : Schema)

/-- The type of a field: the plain type that has room for it, or the full name of its message. -/
inductive Types : Ty → FieldType → Prop where
  | scalar {k : Scalar} {d : Kind} (widens : Widens k d) : Types (.scalar k) (.plain d)
  | message {m : Idl.Message} {full : Bytes} (mem : m ∈ s.messages)
      (qualified : Qualified s.package m.name full) : Types (.message m.name) (.message full)

/-- The message that a method takes or gives: that of a missing type is empty, and a plain value is
wrapped. -/
inductive Calls : Option Ty → Bytes → Prop where
  | missing : Calls none ".google.protobuf.Empty"
  | scalar {k : Scalar} {wrapper : Bytes} (wraps : Wraps k wrapper) :
      Calls (some (.scalar k)) wrapper
  | message {m : Idl.Message} {full : Bytes} (mem : m ∈ s.messages)
      (qualified : Qualified s.package m.name full) : Calls (some (.message m.name)) full

/-- A field, which is in a group if it is optional. -/
structure Field.Says (f : Idl.Field) (d : Field) : Prop where
  name : d.name = f.name
  number : d.number = f.number
  type : Types s f.type d.type
  oneof : d.oneof.isSome = f.optional

/-- A message. Each optional field has a group of its own, named after the field, and the groups
are in the order of the fields. -/
structure Message.Says (m : Idl.Message) (d : Message) : Prop where
  name : d.name = m.name
  fields : List.Forall₂ (Field.Says s) m.fields d.fields
  indices : d.fields.filterMap (·.oneof) = List.range d.oneofs.length
  groups : d.oneofs.length = (m.fields.filter (·.optional)).length
  groupName : ∀ f ∈ d.fields, ∀ i ∈ f.oneof, d.oneofs[i]? = some ("_" ++ f.name)

/-- A method. -/
structure Method.Says (m : Idl.Method) (d : Method) : Prop where
  name : d.name = m.name
  input : Calls s m.input d.input
  output : Calls s m.output d.output

/-- A service. -/
structure Service.Says (v : Idl.Service) (d : Service) : Prop where
  name : d.name = v.name
  methods : List.Forall₂ (Method.Says s) v.methods d.methods

/-- A file: messages and services, the files that are needed, and one comment for each documented
entity. The file with the empty message is needed if a method takes or gives nothing, and the one
with the wrappers if a method takes or gives a plain value. -/
structure File.Says (d : File) : Prop where
  messages : List.Forall₂ (Message.Says s) s.messages d.messages
  services : List.Forall₂ (Service.Says s) s.services d.services
  ascending : d.dependencies.Pairwise (· < ·)
  standard : ∀ file ∈ d.dependencies,
    file = "google/protobuf/empty.proto" ∨ file = "google/protobuf/wrappers.proto"
  empty : ("google/protobuf/empty.proto" : Bytes) ∈ d.dependencies
    ↔ ∃ v ∈ s.services, ∃ m ∈ v.methods, m.input = none ∨ m.output = none
  wrappers : ("google/protobuf/wrappers.proto" : Bytes) ∈ d.dependencies
    ↔ ∃ v ∈ s.services, ∃ m ∈ v.methods, ∃ k,
      m.input = some (.scalar k) ∨ m.output = some (.scalar k)
  paths : (d.locations.map (·.path)).Nodup
  leads : ∀ l ∈ d.locations, (d.entityAt? l.path).isSome = true
  comments : ∀ (e : Entity) (comment : Bytes),
    (∃ l ∈ d.locations, d.entityAt? l.path = some e ∧ l.comment = comment)
      ↔ ∃ docs : List Bytes, e.docs? s = some docs ∧ docs ≠ []
        ∧ comment = (docs.flatMap fun t => " " ++ t ++ "\n" : Bytes)
  /-- Two paths do not lead to one entity. -/
  exact : ∀ p q e, d.entityAt? p = some e → d.entityAt? q = some e → p = q

end Says

/-! ## §5 Types -/

section Types

variable {s : Schema}

/-- Each built-in type becomes the plain type that the table of widenings gives it. -/
theorem widens_kindOf (k : Scalar) : Widens k (kindOf k) := by
  cases k <;> constructor

/-- The wrapper is that of the built-in type, although only its plain type is looked at. -/
theorem wraps_wrapperName (k : Scalar) : Wraps k (kindOf k).wrapperName := by
  cases k <;> constructor

/-- A full name is put together from a package and a name. -/
theorem qualified_fullName (package name : Bytes) :
    Qualified package name (fullName package name) := by
  cases package with
  | nil => exact .bare name
  | cons c r => exact .inside name (List.cons_ne_nil c r)

/-- A known type becomes what the tables give it. -/
theorem types_lowerType {t : Ty} (h : t.Known s) : Types s t (lowerType s.package t) := by
  cases t with
  | scalar k => exact .scalar (widens_kindOf k)
  | message name =>
    obtain ⟨m, hm, rfl⟩ := h
    exact .message hm (qualified_fullName s.package m.name)
  -- no source gives a type that is neither built in nor a message
  | unassigned n => exact h.elim

/-- A method of known types takes and gives the messages that the tables name. -/
theorem calls_methodType {t : Option Ty} (h : ∀ x ∈ t, x.Known s) :
    Calls s t (methodType s.package t) := by
  rcases t with - | k | name | n
  · exact .missing
  · exact .scalar (wraps_wrapperName k)
  · obtain ⟨m, hm, rfl⟩ := h _ rfl
    exact .message hm (qualified_fullName s.package m.name)
  · exact (h _ rfl).elim

end Types

/-! ## §6 Messages and their groups -/

section Groups

variable {s : Schema} (package : Bytes)

theorem says_lowerFields {l : List Idl.Field} (h : ∀ f ∈ l, f.type.Known s) (groups : Nat) :
    List.Forall₂ (Field.Says s) l (lowerFields s.package groups l) := by
  induction l generalizing groups with
  | nil => exact .nil
  | cons f r ih =>
    obtain ⟨hf, hr⟩ := List.forall_mem_cons.mp h
    refine .cons ⟨rfl, rfl, types_lowerType hf, ?_⟩ (ih hr _)
    cases hoptional : f.optional <;> simp [lowerField, hoptional]

/-- The groups are numbered in the order of the fields. -/
theorem indices_lowerFields (groups : Nat) (l : List Idl.Field) :
    (lowerFields package groups l).filterMap (·.oneof)
      = List.range' groups (l.filter (·.optional)).length := by
  induction l generalizing groups with
  | nil => rfl
  | cons f r ih =>
    cases hoptional : f.optional with
    | true => simp [lowerFields, lowerField, hoptional, ih, List.range'_succ]
    | false => simp [lowerFields, lowerField, hoptional, ih]

/-- The group of a field is that of its name. -/
theorem groupName_lowerFields (done : List Bytes) (l : List Idl.Field) :
    ∀ f ∈ lowerFields package done.length l, ∀ i ∈ f.oneof,
      (done ++ (l.filter (·.optional)).map fun f => ("_" : Bytes) ++ f.name)[i]?
        = some ("_" ++ f.name) := by
  -- the groups so far stand in front, so an index stays valid
  induction l generalizing done with
  | nil => nofun
  | cons f r ih =>
    cases hoptional : f.optional with
    | true =>
      have hrest := ih (done ++ ["_" ++ f.name])
      simp only [List.length_append, List.length_singleton, List.append_assoc] at hrest
      rw [lowerFields, List.filter_cons_of_pos hoptional, hoptional, List.map_cons]
      refine List.forall_mem_cons.mpr ⟨fun i hi => ?_, hrest⟩
      obtain rfl : done.length = i := by simpa [lowerField, hoptional] using hi
      simp [lowerField]
    | false =>
      rw [lowerFields, List.filter_cons_of_neg (by simp [hoptional]), hoptional]
      exact List.forall_mem_cons.mpr ⟨by simp [lowerField, hoptional], ih done⟩

theorem says_lowerMessage {m : Idl.Message} (h : ∀ f ∈ m.fields, f.type.Known s) :
    Message.Says s m (lowerMessage s.package m) where
  name := rfl
  fields := says_lowerFields h 0
  indices := by
    simpa [lowerMessage, List.range_eq_range'] using indices_lowerFields s.package 0 m.fields
  groups := List.length_map ..
  groupName := groupName_lowerFields s.package [] m.fields

end Groups

theorem says_lowerService {s : Schema} {v : Idl.Service}
    (h : ∀ m ∈ v.methods, (∀ t ∈ m.input, t.Known s) ∧ ∀ t ∈ m.output, t.Known s) :
    Service.Says s v (lowerService s.package v) where
  name := rfl
  methods := by
    refine List.forall₂_map_right_iff.mpr (List.forall₂_same.mpr fun m hm => ?_)
    exact ⟨rfl, calls_methodType (h m hm).1, calls_methodType (h m hm).2⟩

/-! ## §7 The files that are needed -/

section Needed

variable {types : List (Option Ty)}

theorem ascending_needed : (needed types).Pairwise (· < ·) := by
  have hlt : emptyFile < wrappersFile := by decide +kernel
  unfold needed
  split <;> split <;> simp [hlt]

/-- A file is needed for a missing type or for a scalar one. -/
theorem mem_needed {file : Bytes} : file ∈ needed types
    ↔ file = emptyFile ∧ none ∈ types
      ∨ file = wrappersFile ∧ ∃ t, some t ∈ types ∧ t.isMessage = false := by
  have hempty : types.any (·.isNone) = true ↔ none ∈ types := by simp
  -- a wrapper is needed for a type that is there and is no message
  have hwrapper : types.any needsWrapper = true ↔ ∃ t, some t ∈ types ∧ t.isMessage = false := by
    rw [List.any_eq_true]
    constructor
    · rintro ⟨- | t, ht, hneeds⟩
      · cases hneeds
      · exact ⟨t, ht, by simpa [needsWrapper] using hneeds⟩
    · rintro ⟨t, ht, hplain⟩
      exact ⟨some t, ht, by simp [needsWrapper, hplain]⟩
  rw [needed, List.mem_append, ← hempty, ← hwrapper]
  split <;> split <;> simp_all

theorem mem_methodTypes {s : Schema} {t : Option Ty} : t ∈ methodTypes s
    ↔ ∃ v ∈ s.services, ∃ m ∈ v.methods, m.input = t ∨ m.output = t := by
  simp [methodTypes, eq_comm]

end Needed

/-! ## §8 Paths -/

/-- The path to an entity. -/
def Entity.path : Entity → List Nat
  | .message i => messagePath i
  | .field i j => fieldPath i j
  | .service i => servicePath i
  | .method i j => methodPath i j

theorem length_lowerFields (package : Bytes) (groups : Nat) (l : List Idl.Field) :
    (lowerFields package groups l).length = l.length := by
  induction l generalizing groups with
  | nil => rfl
  | cons f r ih => rw [lowerFields, List.length_cons, List.length_cons, ih]

/-- A path that leads to an entity is the path to it. -/
theorem File.eq_path_of_entityAt? {d : File} {p : List Nat} {e : Entity}
    (h : d.entityAt? p = some e) : p = e.path := by
  unfold entityAt? at h
  -- the shapes of a path: a message, a field, a service, a method, and no other
  split at h
  · split at h <;> cases h
    rfl
  · obtain ⟨m, -, hm⟩ := Option.bind_eq_some_iff.mp h
    split at hm <;> cases hm
    rfl
  · split at h <;> cases h
    rfl
  · obtain ⟨v, -, hv⟩ := Option.bind_eq_some_iff.mp h
    split at hv <;> cases hv
    rfl
  · cases h

/-- The path to an entity leads there if the schema has the entity. -/
theorem File.entityAt?_path (s : Schema) (e : Entity) :
    (ofSchema s).entityAt? e.path = (e.docs? s).map fun _ => e := by
  -- an index points at an entity when it is in range, which is when there are documents to ask for
  have hplace {α : Type} (l : List α) (i : Nat) (e : Entity) :
      (if i < l.length then some e else none) = l[i]?.map fun _ => e := by
    split
    · next hi => rw [List.getElem?_eq_getElem hi, Option.map_some]
    · next hi => rw [List.getElem?_eq_none (Nat.le_of_not_lt hi), Option.map_none]
  have hdocs {α : Type} (docs : α → List Bytes) (x : Option α) :
      ((x.map docs).map fun _ => e) = x.map fun _ => e := by
    cases x <;> rfl
  cases e with
  | message i => simp [entityAt?, Entity.path, messagePath, ofSchema, Entity.docs?, hplace, hdocs]
  | service i => simp [entityAt?, Entity.path, servicePath, ofSchema, Entity.docs?, hplace, hdocs]
  | field i j =>
    have hpath : (Entity.field i j).path = [4, i, 2, j] := rfl
    rw [hpath, entityAt?, Entity.docs?, hdocs, ofSchema, List.getElem?_map]
    cases s.messages[i]? with
    | none => rfl
    | some m => simp [lowerMessage, length_lowerFields, ← hplace]
  | method i j =>
    have hpath : (Entity.method i j).path = [6, i, 2, j] := rfl
    rw [hpath, entityAt?, Entity.docs?, hdocs, ofSchema, List.getElem?_map]
    cases s.services[i]? with
    | none => rfl
    | some v => simp [lowerService, ← hplace]

/-! ## §9 Comments -/

theorem mem_locationsOf {docs : List Bytes} {p : List Nat} {l : Location} : l ∈ locationsOf docs p
    ↔ docs ≠ [] ∧ l = ⟨p, docs.flatMap fun t => " " ++ t ++ "\n"⟩ := by
  unfold locationsOf
  cases docs with
  | nil => simp
  | cons t r => simp

theorem mem_flatten_mapIdx {α β : Type} {f : Nat → α → List β} {l : List α} {b : β} :
    b ∈ (l.mapIdx f).flatten ↔ ∃ i x, l[i]? = some x ∧ b ∈ f i x := by
  rw [List.mem_flatten]
  constructor
  · rintro ⟨part, hpart, hb⟩
    obtain ⟨i, hi, rfl⟩ := List.mem_mapIdx.mp hpart
    exact ⟨i, l[i], List.getElem?_eq_getElem hi, hb⟩
  · rintro ⟨i, x, hx, hb⟩
    obtain ⟨hi, rfl⟩ := List.getElem?_eq_some_iff.mp hx
    exact ⟨f i l[i], List.mem_mapIdx.mpr ⟨i, hi, rfl⟩, hb⟩

/-- The comments are those of the documented entities. -/
theorem mem_locations {s : Schema} {l : Location} : l ∈ (File.ofSchema s).locations
    ↔ ∃ e docs, Entity.docs? s e = some docs ∧ l ∈ locationsOf docs e.path := by
  simp only [File.ofSchema, List.mem_append, mem_flatten_mapIdx, messageLocations, serviceLocations]
  constructor
  · -- the message or one of its fields, the service or one of its methods
    rintro (⟨i, m, hm, hl | ⟨j, f, hf, hl⟩⟩ | ⟨i, v, hv, hl | ⟨j, m, hm, hl⟩⟩)
    · exact ⟨.message i, m.docs, by simp [Entity.docs?, hm], hl⟩
    · exact ⟨.field i j, f.docs, by simp [Entity.docs?, hm, hf], hl⟩
    · exact ⟨.service i, v.docs, by simp [Entity.docs?, hv], hl⟩
    · exact ⟨.method i j, m.docs, by simp [Entity.docs?, hv, hm], hl⟩
  · rintro ⟨e, docs, hdocs, hl⟩
    cases e with
    | message i =>
      obtain ⟨m, hm, rfl⟩ := Option.map_eq_some_iff.mp hdocs
      exact .inl ⟨i, m, hm, .inl hl⟩
    | field i j =>
      obtain ⟨f, hf, rfl⟩ := Option.map_eq_some_iff.mp hdocs
      obtain ⟨m, hm, hf⟩ := Option.bind_eq_some_iff.mp hf
      exact .inl ⟨i, m, hm, .inr ⟨j, f, hf, hl⟩⟩
    | service i =>
      obtain ⟨v, hv, rfl⟩ := Option.map_eq_some_iff.mp hdocs
      exact .inr ⟨i, v, hv, .inl hl⟩
    | method i j =>
      obtain ⟨m, hm, rfl⟩ := Option.map_eq_some_iff.mp hdocs
      obtain ⟨v, hv, hm⟩ := Option.bind_eq_some_iff.mp hm
      exact .inr ⟨i, v, hv, .inr ⟨j, m, hm, hl⟩⟩

/-- Parts that are kept apart inside and from each other are kept apart in the whole. -/
theorem pairwise_flatten_mapIdx {α β : Type} {R : β → β → Prop} {f : Nat → α → List β}
    (hin : ∀ i x, (f i x).Pairwise R)
    (hout : ∀ i j x y, i ≠ j → ∀ a ∈ f i x, ∀ b ∈ f j y, R a b) (l : List α) :
    (l.mapIdx f).flatten.Pairwise R := by
  refine List.pairwise_flatten.mpr ⟨fun part hpart => ?_, List.pairwise_iff_getElem.mpr ?_⟩
  · obtain ⟨i, hi, rfl⟩ := List.mem_mapIdx.mp hpart
    exact hin i l[i]
  · intro i j hi hj hij
    rw [List.getElem_mapIdx, List.getElem_mapIdx]
    exact hout i j _ _ (Nat.ne_of_lt hij)

/-- Comments at different paths. -/
abbrev Apart (a b : Location) : Prop := a.path ≠ b.path

theorem apart_locationsOf (docs : List Bytes) (p : List Nat) :
    (locationsOf docs p).Pairwise Apart := by
  unfold locationsOf
  split
  · exact .nil
  · exact List.pairwise_singleton ..

/-- The comments of an entity at a path and of those inside it. -/
theorem apart_entity {α : Type} {docs : List Bytes} {p : List Nat} {inside : α → List Bytes}
    (l : List α) : (locationsOf docs p
      ++ (l.mapIdx fun j x => locationsOf (inside x) (p ++ [2, j])).flatten).Pairwise Apart := by
  refine List.pairwise_append.mpr ⟨apart_locationsOf docs p, pairwise_flatten_mapIdx ?_ ?_ l, ?_⟩
  · exact fun j x => apart_locationsOf _ _
  · intro j k x y hjk a ha b hb
    rw [Apart, (mem_locationsOf.mp ha).2, (mem_locationsOf.mp hb).2]
    simpa using hjk
  · intro a ha b hb
    obtain ⟨j, x, -, hb⟩ := mem_flatten_mapIdx.mp hb
    rw [Apart, (mem_locationsOf.mp ha).2, (mem_locationsOf.mp hb).2]
    simp

theorem exists_path_messageLocations {i : Nat} {m : Idl.Message} {l : Location}
    (h : l ∈ messageLocations i m) : ∃ r, l.path = 4 :: i :: r := by
  rcases List.mem_append.mp h with h | h
  · exact ⟨[], by rw [(mem_locationsOf.mp h).2]; rfl⟩
  · obtain ⟨j, f, -, h⟩ := mem_flatten_mapIdx.mp h
    exact ⟨[2, j], by rw [(mem_locationsOf.mp h).2]; rfl⟩

theorem exists_path_serviceLocations {i : Nat} {v : Idl.Service} {l : Location}
    (h : l ∈ serviceLocations i v) : ∃ r, l.path = 6 :: i :: r := by
  rcases List.mem_append.mp h with h | h
  · exact ⟨[], by rw [(mem_locationsOf.mp h).2]; rfl⟩
  · obtain ⟨j, m, -, h⟩ := mem_flatten_mapIdx.mp h
    exact ⟨[2, j], by rw [(mem_locationsOf.mp h).2]; rfl⟩

theorem apart_messageLocations (i : Nat) (m : Idl.Message) :
    (messageLocations i m).Pairwise Apart :=
  apart_entity m.fields

theorem apart_serviceLocations (i : Nat) (v : Idl.Service) :
    (serviceLocations i v).Pairwise Apart :=
  apart_entity v.methods

/-- No two comments are at one path. -/
theorem apart_locations (s : Schema) : (File.ofSchema s).locations.Pairwise Apart := by
  refine List.pairwise_append.mpr
    ⟨pairwise_flatten_mapIdx apart_messageLocations ?_ s.messages,
      pairwise_flatten_mapIdx apart_serviceLocations ?_ s.services, ?_⟩
  · -- paths of different messages differ in the index
    intro i j m m' hij a ha b hb
    obtain ⟨r, hr⟩ := exists_path_messageLocations ha
    obtain ⟨r', hr'⟩ := exists_path_messageLocations hb
    simp [Apart, hr, hr', hij]
  · intro i j v v' hij a ha b hb
    obtain ⟨r, hr⟩ := exists_path_serviceLocations ha
    obtain ⟨r', hr'⟩ := exists_path_serviceLocations hb
    simp [Apart, hr, hr', hij]
  · -- paths of messages and of services differ in the first number
    intro a ha b hb
    obtain ⟨i, m, -, ha⟩ := mem_flatten_mapIdx.mp ha
    obtain ⟨j, v, -, hb⟩ := mem_flatten_mapIdx.mp hb
    obtain ⟨r, hr⟩ := exists_path_messageLocations ha
    obtain ⟨r', hr'⟩ := exists_path_serviceLocations hb
    simp [Apart, hr, hr']

/-- The comments that paths lead to are the documentation of the entities, of all that have any. -/
theorem comments_ofSchema (s : Schema) (e : Entity) (comment : Bytes) :
    (∃ l ∈ (File.ofSchema s).locations, (File.ofSchema s).entityAt? l.path = some e
        ∧ l.comment = comment)
      ↔ ∃ docs : List Bytes, e.docs? s = some docs ∧ docs ≠ []
        ∧ comment = (docs.flatMap fun t => " " ++ t ++ "\n" : Bytes) := by
  constructor
  · -- the path of a location tells the entity, so it is the one it was made for
    rintro ⟨l, hl, hpath, rfl⟩
    obtain ⟨e', docs, hdocs, hl⟩ := mem_locations.mp hl
    obtain ⟨hnonempty, rfl⟩ := mem_locationsOf.mp hl
    rw [File.entityAt?_path, hdocs] at hpath
    cases hpath
    exact ⟨docs, hdocs, hnonempty, rfl⟩
  · rintro ⟨docs, hdocs, hnonempty, rfl⟩
    refine ⟨_, mem_locations.mpr ⟨e, docs, hdocs, mem_locationsOf.mpr ⟨hnonempty, rfl⟩⟩, ?_, rfl⟩
    rw [File.entityAt?_path, hdocs, Option.map_some]

/-! ## §10 The file of a schema -/

/-- The types of methods that are no messages are the built-in ones. -/
theorem exists_plain_iff {s : Schema} (h : s.WellFormed) :
    (∃ t, some t ∈ methodTypes s ∧ t.isMessage = false)
      ↔ ∃ v ∈ s.services, ∃ m ∈ v.methods, ∃ k,
        m.input = some (.scalar k) ∨ m.output = some (.scalar k) := by
  constructor
  · rintro ⟨t, ht, hplain⟩
    obtain ⟨v, hv, m, hm, hside⟩ := mem_methodTypes.mp ht
    -- types of a well-formed schema are scalars or messages it has
    have hknown : t.Known s := hside.elim (((h.services v hv).methods m hm).input t)
      (((h.services v hv).methods m hm).output t)
    cases t with
    | scalar k => exact ⟨v, hv, m, hm, k, hside⟩
    | message name => cases hplain
    | unassigned n => exact hknown.elim
  · rintro ⟨v, hv, m, hm, k, hside⟩
    exact ⟨.scalar k, mem_methodTypes.mpr ⟨v, hv, m, hm, hside⟩, rfl⟩

/-- The file of a schema whose types are known says what the schema says. -/
theorem File.says_ofSchema {s : Schema} (h : s.WellFormed) : File.Says s (ofSchema s) where
  messages := List.forall₂_map_right_iff.mpr (List.forall₂_same.mpr fun m hm =>
    says_lowerMessage fun f hf => ((h.messages m hm).fields f hf).type)
  services := List.forall₂_map_right_iff.mpr (List.forall₂_same.mpr fun v hv =>
    says_lowerService fun m hm =>
      ⟨((h.services v hv).methods m hm).input, ((h.services v hv).methods m hm).output⟩)
  ascending := ascending_needed
  standard := fun file hfile => (mem_needed.mp hfile).imp And.left And.left
  empty := by
    have hne : emptyFile ≠ wrappersFile := by decide +kernel
    change emptyFile ∈ (ofSchema s).dependencies ↔ _
    simp only [ofSchema, dependenciesOf_eq, mem_needed, hne, false_and, or_false, true_and,
      mem_methodTypes]
  wrappers := by
    have hne : wrappersFile ≠ emptyFile := by decide +kernel
    change wrappersFile ∈ (ofSchema s).dependencies ↔ _
    simp only [ofSchema, dependenciesOf_eq, mem_needed, hne, false_and, false_or, true_and]
    -- what needs a wrapper is no message, and of the types that are known only the built-in ones are
    exact exists_plain_iff h
  paths := List.pairwise_map.mpr (apart_locations s)
  leads := by
    intro l hl
    obtain ⟨e, docs, hdocs, hl⟩ := mem_locations.mp hl
    rw [(mem_locationsOf.mp hl).2, entityAt?_path, hdocs]
    rfl
  comments := comments_ofSchema s
  exact := fun p q e hp hq => (eq_path_of_entityAt? hp).trans (eq_path_of_entityAt? hq).symm

/-- The walk over a compiled schema gives the file of the schema, and the file says what the schema
says: the same entities in the same order, with their names, numbers, types and groups, exactly the
files that are needed, and a comment for each entity that is documented, at the path that leads to
this entity and to no other. -/
theorem File.says_of_compileSource {src sourcePath : Bytes} {allowMissingPackage : Bool}
    {c : Compilation} {s : Schema} (h : compileSource src sourcePath allowMissingPackage = .ok c)
    (hs : c.outcome = .ok s) : walk s = ofSchema s ∧ Says s (ofSchema s) :=
  ⟨walk_eq s, says_ofSchema (compileSource_wellFormed h hs)⟩

/-- Two groups with a field between them, an integer that is widened, a method with a plain value and
one with nothing, and three entities with documentation. -/
theorem File.says_of_compileSource_service :
    ∃ c s, compileSource ("package p;@doc('d')message M\x7bint8 a?;@doc('e')M b;string c?;\x7d"
        ++ "service S\x7brpc m(M);@doc('f')rpc n(M)->uint8;\x7d") [] false = .ok c
      ∧ c.outcome = .ok s ∧ Says s (ofSchema s)
      ∧ (ofSchema s).messages.map (·.oneofs) = [[("_a" : Bytes), "_c"]]
      ∧ (ofSchema s).messages.map (fun m => m.fields.map (·.type))
        = [[.plain .int32, .message ".p.M", .plain .string]]
      ∧ (ofSchema s).services.map (·.methods)
        = [[⟨"m", ".p.M", ".google.protobuf.Empty"⟩, ⟨"n", ".p.M", ".google.protobuf.UInt32Value"⟩]]
      ∧ (ofSchema s).dependencies = [emptyFile, wrappersFile]
      ∧ (ofSchema s).locations
        = [⟨[4, 0], " d\n"⟩, ⟨[4, 0, 2, 1], " e\n"⟩, ⟨[6, 0, 2, 1], " f\n"⟩] := by
  have hok : (compileSource ("package p;@doc('d')message M\x7bint8 a?;@doc('e')M b;string c?;\x7d"
      ++ "service S\x7brpc m(M);@doc('f')rpc n(M)->uint8;\x7d") [] false).toOption.any
        (·.outcome.toOption.any fun s =>
          decide ((ofSchema s).messages.map (·.oneofs) = [[("_a" : Bytes), "_c"]]
            ∧ (ofSchema s).messages.map (fun m => m.fields.map (·.type))
              = [[.plain .int32, .message ".p.M", .plain .string]]
            ∧ (ofSchema s).services.map (·.methods) = [[⟨"m", ".p.M", ".google.protobuf.Empty"⟩,
              ⟨"n", ".p.M", ".google.protobuf.UInt32Value"⟩]]
            ∧ (ofSchema s).dependencies = [emptyFile, wrappersFile]
            ∧ (ofSchema s).locations
              = [⟨[4, 0], " d\n"⟩, ⟨[4, 0, 2, 1], " e\n"⟩, ⟨[6, 0, 2, 1], " f\n"⟩])) = true := by
    decide +kernel
  obtain ⟨c, s, hc, hs, hfile⟩ := exists_outcome_of_any hok
  exact ⟨c, s, hc, hs, (says_of_compileSource hc hs).2, of_decide_eq_true hfile⟩

end Idl.Proto
