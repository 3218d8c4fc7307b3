import Idl.Proofs.Compile.Constants
import Idl.Proofs.Grammar.Surroundings
import Idl.Proofs.Spelling.Alike
import Idl.Proofs.Spelling.Coverage
import Idl.Proofs.Spelling.Rules

/-!
# What is meant around an annotation

What is wrong with a file is wrong with what is left of it without annotations, or with one of the
annotations by itself. So where an annotation with a named constant is right, it stays right with
another constant, as long as the two are both truth values or both are none, and nothing else of the
file changes its meaning. The places for an annotation are those that the grammar has.

* §1 files without their annotations, §2 places among written forms,
* §3 the tree around a place, §4 one named constant, §5 forms around an annotation,
* §6 forms among the phrases.
-/

namespace Idl

namespace Tree

/-! ## §1 Files without their annotations -/

/-- A field without its annotations. -/
def Field.bare (x : Field) : Field := { x with annots := [] }

/-- A method without its annotations. -/
def Method.bare (x : Method) : Method := { x with annots := [] }

/-- A message without annotations. -/
def Message.bare (m : Message) : Message :=
  { m with annots := [], fields := m.fields.map Field.bare }

/-- A service without annotations. -/
def Service.bare (s : Service) : Service :=
  { s with annots := [], methods := s.methods.map Method.bare }

/-- A declaration without annotations. -/
def Decl.bare : Decl → Decl
  | .message m => .message m.bare
  | .service s => .service s.bare

/-- A file without annotations. -/
def File.bare (f : File) : File := { f with decls := f.decls.map Decl.bare }

/-- What stands in a file besides declarations. -/
def File.header (f : File) : File := { f with decls := [] }

/-- The annotations of a message and of each of its fields, with what they stand in front of. -/
def Message.annotNodes (m : Message) : List (Target × List Annot) :=
  (.message, m.annots) :: m.fields.map fun x => (.field, x.annots)

/-- The annotations of a service and of each of its methods, with what they stand in front of. -/
def Service.annotNodes (s : Service) : List (Target × List Annot) :=
  (.service, s.annots) :: s.methods.map fun x => (.method, x.annots)

/-- The annotations of a file, those of each thing together. -/
def File.annotNodes (f : File) : List (Target × List Annot) :=
  f.messages.flatMap Message.annotNodes ++ f.services.flatMap Service.annotNodes

/-- Whether nothing is wrong with an annotation in front of a target. -/
def Annot.Accepted (target : Target) (a : Annot) : Prop := ∃ m, a.interpret target = .ok m

@[simp] theorem Decl.bare_name (d : Decl) : d.bare.name = d.name := by cases d <;> rfl

@[simp] theorem Decl.bare_kind (d : Decl) : d.bare.kind = d.kind := by cases d <;> rfl

@[simp] theorem numberOwner?_bare (l : List Field) (n : Nat) :
    numberOwner? (l.map Field.bare) n = (numberOwner? l n).map Field.bare := by
  rw [numberOwner?, List.find?_map]
  rfl

/-- The faults of explicit numbers do not depend on annotations. -/
theorem Message.bare_explicitError? (m : Message) (before : List Field) (x : Field) :
    m.bare.explicitError? (before.map Field.bare) x.bare = m.explicitError? before x := by
  have hexplicit : x.bare.explicit? = x.explicit? := rfl
  unfold Message.explicitError?
  rw [hexplicit, ← List.map_reverse]
  simp only [numberOwner?_bare]
  change x.number.bind _ = _
  congr 1
  funext lit
  cases x.explicit? with
  | none => rfl
  | some n =>
    simp only
    cases numberOwner? before.reverse n <;> rfl

theorem Message.bare_automaticError? (m : Message) (position : Nat) (x : Field) :
    m.bare.automaticError? position x.bare = m.automaticError? position x := by
  unfold Message.automaticError?
  change (if x.number.isSome = true then _ else _) = _
  split
  · rfl
  · rw [show m.bare.fields = m.fields.map Field.bare from rfl, numberOwner?_bare]
    cases numberOwner? m.fields position <;> rfl

@[simp] theorem Message.bare_numberErrors (m : Message) : m.bare.numberErrors = m.numberErrors := by
  have hnumbered : m.bare.numbered = m.numbered.map fun x => (x.1, x.2.bare) := by
    simp [Message.numbered, Message.bare, List.zipIdx_map, Function.comp_def]
  unfold Message.numberErrors
  rw [hnumbered, show m.bare.fields = m.fields.map Field.bare from rfl, withEarlier_map,
    List.filterMap_map, List.filterMap_map]
  congr 2
  · funext x
    exact m.bare_explicitError? x.1 x.2
  · funext x
    exact m.bare_automaticError? x.1 x.2

namespace File

variable (f : File)

@[simp] theorem bare_messages : f.bare.messages = f.messages.map Message.bare := by
  simp only [File.messages, File.bare, List.filterMap_map, List.map_filterMap]
  congr 1
  funext d
  cases d <;> rfl

@[simp] theorem bare_services : f.bare.services = f.services.map Service.bare := by
  simp only [File.services, File.bare, List.filterMap_map, List.map_filterMap]
  congr 1
  funext d
  cases d <;> rfl

@[simp] theorem bare_packageName : f.bare.packageName = f.packageName := rfl

@[simp] theorem bare_declared? : f.bare.declared? = f.declared? := by
  funext name
  simp [File.declared?, File.bare, List.find?_map, Function.comp_def]

@[simp] theorem bare_resolve? : f.bare.resolve? = f.resolve? := by
  funext r
  simp only [File.resolve?, bare_declared?]
  rfl

@[simp] theorem bare_typeErrors : f.bare.typeErrors = f.typeErrors := by
  funext scope entity r
  rw [File.typeErrors, bare_resolve?, File.typeErrors]

/-- A message has no errors when it has none without its annotations, and these are accepted. -/
theorem messageErrors_eq_nil_iff (m : Message) :
    f.messageErrors m = [] ↔ f.bare.messageErrors m.bare = []
      ∧ (∀ a ∈ m.annots, a.Accepted .message)
      ∧ ∀ x ∈ m.fields, ∀ a ∈ x.annots, a.Accepted .field := by
  -- repeated names and types are the same without annotations; the annotations are checked one by
  -- one
  have hrepeats : (repeats (fun x : Field => x.name.name) m.bare.fields).map
        (fun x => (⟨.duplicateField, x.name.loc, x.name.name, m.name.name⟩ : SchemaError))
      = (repeats (fun x : Field => x.name.name) m.fields).map
        (fun x => ⟨.duplicateField, x.name.loc, x.name.name, m.name.name⟩) := by
    rw [show m.bare.fields = m.fields.map Field.bare from rfl, repeats_map, List.map_map]
    rfl
  have hfields : m.bare.fields.flatMap (f.bare.fieldErrors m.bare)
      = m.fields.flatMap fun x => f.typeErrors m.name.name x.name.name x.type := by
    rw [show m.bare.fields = m.fields.map Field.bare from rfl, List.flatMap_map]
    simp only [fieldErrors, bare_typeErrors]
    congr 1
    funext x
    exact List.append_nil _
  have hannots : annotErrors .message f.bare.packageName m.bare.name.name m.bare.annots = [] := rfl
  unfold messageErrors
  rw [hannots, hfields, Message.bare_numberErrors]
  change _ ↔ [] ++ (repeats (fun x : Field => x.name.name) m.bare.fields).map
    (fun x => (⟨.duplicateField, x.name.loc, x.name.name, m.name.name⟩ : SchemaError))
      ++ _ ++ _ = [] ∧ _
  rw [hrepeats]
  simp only [List.append_eq_nil_iff, List.flatMap_eq_nil_iff, fieldErrors, annotErrors_eq_nil_iff,
    forall_and]
  tauto

/-- The same for a service. -/
theorem serviceErrors_eq_nil_iff (s : Service) :
    f.serviceErrors s = [] ↔ f.bare.serviceErrors s.bare = []
      ∧ (∀ a ∈ s.annots, a.Accepted .service)
      ∧ ∀ x ∈ s.methods, ∀ a ∈ x.annots, a.Accepted .method := by
  -- repeated names and types are the same without annotations
  have hrepeats : (repeats (fun x : Method => x.name.name) s.bare.methods).map
        (fun x => (⟨.duplicateMethod, x.name.loc, x.name.name, s.name.name⟩ : SchemaError))
      = (repeats (fun x : Method => x.name.name) s.methods).map
        (fun x => ⟨.duplicateMethod, x.name.loc, x.name.name, s.name.name⟩) := by
    rw [show s.bare.methods = s.methods.map Method.bare from rfl, repeats_map, List.map_map]
    rfl
  have hmethods : s.bare.methods.flatMap (f.bare.methodErrors s.bare)
      = s.methods.flatMap fun x => (x.input.toList ++ x.output.toList).flatMap
        (f.typeErrors s.name.name (s.name.name ++ "." ++ x.name.name)) := by
    rw [show s.bare.methods = s.methods.map Method.bare from rfl, List.flatMap_map]
    simp only [methodErrors, bare_typeErrors]
    congr 1
    funext x
    exact List.append_nil _
  have hannots : annotErrors .service f.bare.packageName s.bare.name.name s.bare.annots = [] := rfl
  unfold serviceErrors
  rw [hannots, hmethods]
  change _ ↔ [] ++ (repeats (fun x : Method => x.name.name) s.bare.methods).map
    (fun x => (⟨.duplicateMethod, x.name.loc, x.name.name, s.name.name⟩ : SchemaError))
      ++ _ = [] ∧ _
  rw [hrepeats]
  simp only [List.append_eq_nil_iff, List.flatMap_eq_nil_iff, methodErrors, annotErrors_eq_nil_iff,
    forall_and]
  tauto

/-- Nothing is wrong with a file if nothing is wrong with what is left of it without annotations,
and nothing with any of its annotations. -/
theorem errors_eq_nil_iff_bare :
    f.errors = [] ↔ f.bare.errors = [] ∧ ∀ x ∈ f.annotNodes, ∀ a ∈ x.2, a.Accepted x.1 := by
  have hdecls : f.bare.declErrors = f.declErrors := by
    unfold declErrors
    rw [show f.bare.decls = f.decls.map Decl.bare from rfl, repeats_map, List.filterMap_map]
    simp [Function.comp_def]
  have hrest : f.bare.packageErrors = f.packageErrors ∧ f.bare.optionErrors = f.optionErrors :=
    ⟨rfl, rfl⟩
  -- the annotations of a file are those of its messages, fields, services and methods
  have hnodes : (∀ x ∈ f.annotNodes, ∀ a ∈ x.2, a.Accepted x.1) ↔
      (∀ m ∈ f.messages, (∀ a ∈ m.annots, a.Accepted .message)
        ∧ ∀ x ∈ m.fields, ∀ a ∈ x.annots, a.Accepted .field)
      ∧ ∀ s ∈ f.services, (∀ a ∈ s.annots, a.Accepted .service)
        ∧ ∀ x ∈ s.methods, ∀ a ∈ x.annots, a.Accepted .method := by
    simp only [annotNodes, Message.annotNodes, Service.annotNodes, List.forall_mem_append,
      List.forall_mem_flatMap, List.forall_mem_cons, List.forall_mem_map]
  unfold errors
  rw [sortErrors_eq_nil_iff, sortErrors_eq_nil_iff, hdecls, hrest.1, hrest.2, hnodes]
  simp only [List.append_eq_nil_iff, List.flatMap_eq_nil_iff, messageErrors_eq_nil_iff f,
    serviceErrors_eq_nil_iff f, bare_messages, bare_services, List.forall_mem_map, forall_and]
  tauto

/-- The annotations of a schema are those that the annotations of its file leave, and the
options. -/
theorem annotLists_schema (sourcePath : Bytes) : (f.schema sourcePath).annotLists
    = f.lowerOptions :: f.annotNodes.map fun x => (meanings x.1 x.2).annots := by
  have hmessage (m : Message) : (f.lowerMessage m).annotLists
      = (meanings .message m.annots).annots
        :: m.fields.map fun x => (meanings .field x.annots).annots := by
    rw [Message.annotLists, lowerMessage, List.map_map, ← Message.map_snd_numbered, List.map_map]
    rfl
  have hservice (s : Service) : (f.lowerService s).annotLists
      = (meanings .service s.annots).annots
        :: s.methods.map fun x => (meanings .method x.annots).annots := by
    rw [Service.annotLists, lowerService, List.map_map]
    rfl
  -- identifying the services leaves their annotations alone
  have hidentified : (f.schema sourcePath).services.flatMap Service.annotLists
      = (f.services.map f.lowerService).flatMap Service.annotLists := by
    rw [schema, Schema.services_identify, List.flatMap_map]
    rfl
  rw [Schema.annotLists, hidentified]
  change f.lowerOptions :: ((f.messages.map f.lowerMessage).flatMap Message.annotLists ++ _) = _
  simp only [List.flatMap_map, hmessage, hservice, annotNodes, Message.annotNodes,
    Service.annotNodes, List.map_append, List.map_flatMap,
    List.map_cons, List.map_map, Function.comp_def]

/-- The annotations of a schema do not depend on where things stand in its file. -/
theorem annotLists_erase (sourcePath : Bytes) :
    (f.erase.schema sourcePath).annotLists = (f.schema sourcePath).annotLists := by
  have herase (s : Schema) : s.erase.annotLists = s.annotLists := by
    simp [Schema.annotLists, Schema.erase, Message.annotLists, Message.erase, Service.annotLists,
      Service.erase, Idl.Field.erase, Idl.Method.erase, List.flatMap_map, Function.comp_def]
    rfl
  rw [← herase, erase, schema_mapLoc, herase]

end File

end Tree

/-! ## §2 Places among written forms -/

namespace Spelling

variable {α β : Type}

/-- A place among items for an annotation, and an item behind it that can take it. -/
structure Item.Hole (α : Type) where
  before : List (Item α)
  between : List (Item α)
  member : α
  after : List (Item α)

/-- The items with an annotation at the place. -/
def Item.Hole.fill (h : Item.Hole α) (a : Annot) : List (Item α) :=
  h.before ++ .annot a :: (h.between ++ .member h.member :: h.after)

/-- A place in a file for an annotation: in front of a declaration, or of a member of one. -/
inductive Place where
  | decl (h : Item.Hole Statement) (takes : h.member.decl?.isSome = true)
  | field (before : List (Item Statement)) (name : Word) (h : Item.Hole Field)
      (after : List (Item Statement))
  | method (before : List (Item Statement)) (name : Word) (h : Item.Hole Method)
      (after : List (Item Statement))

/-- The file with an annotation at the place. -/
def Place.fill (p : Place) (a : Annot) : File :=
  ⟨match p with
    | decl h _ => h.fill a
    | field before name h after => before ++ .member (.message ⟨name, h.fill a⟩) :: after
    | method before name h after => before ++ .member (.service ⟨name, h.fill a⟩) :: after⟩

namespace Item

/-- What is meant by items, and then by others behind annotations that still wait. -/
theorem exists_gather_append (take? : α → Option (List Tree.Annot → β)) (before : List (Item α))
    (pending : List Tree.Annot) : ∃ done waiting, ∀ after,
      gather take? pending (before ++ after) = done ++ gather take? waiting after := by
  -- what waits changes from item to item, and a member takes it all
  induction before generalizing pending with
  | nil => exact ⟨[], pending, fun _ => rfl⟩
  | cons item before ih =>
    cases item with
    | semicolon => exact ih pending
    | annot a => exact ih (pending ++ [a.tree])
    | member x =>
      simp only [List.cons_append, gather]
      cases take? x with
      | none => exact ih pending
      | some put =>
        obtain ⟨done, waiting, hgather⟩ := ih []
        exact ⟨put pending :: done, waiting, fun after => by simp [hgather]⟩

/-- The first item that takes annotations takes the one at the place, with those around it. -/
theorem Hole.exists_gather (take? : α → Option (List Tree.Annot → β)) (h : Hole α)
    (htakes : (take? h.member).isSome = true) :
    ∃ done put P Q rest, (∃ x, take? x = some put) ∧ ∀ a : Annot,
      gather take? [] (h.fill a) = done ++ put (P ++ a.tree :: Q) :: rest := by
  obtain ⟨before, between, member, after⟩ := h
  obtain ⟨last, hlast⟩ : ∃ put, take? member = some put := Option.isSome_iff_exists.mp htakes
  clear htakes
  obtain ⟨done, waiting, hbefore⟩ := exists_gather_append take? before []
  -- among the items behind the place, one takes the annotations that wait
  have htaken (Q : List Tree.Annot) : ∃ put Q' rest, (∃ x, take? x = some put) ∧ ∀ a : Annot,
      gather take? (waiting ++ a.tree :: Q) (between ++ .member member :: after)
        = put (waiting ++ a.tree :: Q') :: rest := by
    induction between generalizing Q with
    | nil =>
      exact ⟨last, Q, gather take? [] after, ⟨member, hlast⟩, fun a => by simp [gather, hlast]⟩
    | cons item between ih =>
      cases item with
      | semicolon => exact ih Q
      | annot b =>
        obtain ⟨put, Q', rest, hput, hgather⟩ := ih (Q ++ [b.tree])
        exact ⟨put, Q', rest, hput, fun a => by simpa [gather] using hgather a⟩
      | member x =>
        simp only [List.cons_append, gather]
        cases hx : take? x with
        | none => exact ih Q
        | some put =>
          exact ⟨put, Q, gather take? [] (between ++ .member member :: after), ⟨x, hx⟩,
            fun _ => rfl⟩
  obtain ⟨put, Q, rest, hput, hgather⟩ := htaken []
  refine ⟨done, put, waiting, Q, rest, hput, fun a => ?_⟩
  rw [Hole.fill, hbefore, gather, hgather]

theorem members_append (before : List (Item α)) (x : α) (after : List (Item α)) :
    members (before ++ .member x :: after) = members before ++ x :: members after := by
  simp [members]

/-- An annotation is no particular item. -/
theorem Hole.members_fill (h : Hole α) (a : Annot) :
    members (h.fill a) = members h.before ++ members h.between ++ h.member :: members h.after := by
  simp [Hole.fill, members]

end Item

/-! ## §3 The tree around a place -/

/-- The trees are the same but for an annotation: the one that is given stands among others in front
of one thing. -/
structure Around (tree : Annot → Tree.File) (target : Target)
    (L R : List (Target × List Tree.Annot)) (P Q : List Tree.Annot) : Prop where
  bare : ∀ a b, (tree a).bare = (tree b).bare
  options : ∀ a b, (tree a).lowerOptions = (tree b).lowerOptions
  nodes : ∀ a, (tree a).annotNodes = L ++ (target, P ++ a.tree :: Q) :: R

section

variable {tree : Annot → Tree.File} {d : Annot → Tree.Decl} {target : Target}
  {before after : List Tree.Decl} {L R : List (Target × List Tree.Annot)} {P Q : List Tree.Annot}

theorem bare_eq_of_decls (hheader : ∀ a b, (tree a).header = (tree b).header)
    (hdecls : ∀ a, (tree a).decls = before ++ d a :: after)
    (hbare : ∀ a b, (d a).bare = (d b).bare) (a b : Annot) : (tree a).bare = (tree b).bare := by
  have hsplit (f : Tree.File) :
      f.bare = { f.header with decls := f.decls.map Tree.Decl.bare } := rfl
  rw [hsplit, hsplit, hdecls, hdecls, hheader a b]
  simp only [List.map_append, List.map_cons, hbare a b]

theorem options_eq_of_header (hheader : ∀ a b, (tree a).header = (tree b).header) (a b : Annot) :
    (tree a).lowerOptions = (tree b).lowerOptions := by
  change (tree a).header.lowerOptions = (tree b).header.lowerOptions
  rw [hheader a b]

/-- An annotation in a message that is among other declarations. -/
theorem exists_around_of_message {m : Annot → Tree.Message}
    (hheader : ∀ a b, (tree a).header = (tree b).header)
    (hdecls : ∀ a, (tree a).decls = before ++ .message (m a) :: after)
    (hbare : ∀ a b, (m a).bare = (m b).bare)
    (hnodes : ∀ a, (m a).annotNodes = L ++ (target, P ++ a.tree :: Q) :: R) :
    ∃ target L R P Q, Around tree target L R P Q := by
  -- only the one message differs, so its annotations stand among those of the others
  have hmessages (a : Annot) : (tree a).messages
      = before.filterMap Tree.Decl.message? ++ m a :: after.filterMap Tree.Decl.message? := by
    rw [Tree.File.messages, hdecls, List.filterMap_append, List.filterMap_cons]
    rfl
  have hservices (a : Annot) : (tree a).services
      = before.filterMap Tree.Decl.service? ++ after.filterMap Tree.Decl.service? := by
    rw [Tree.File.services, hdecls, List.filterMap_append, List.filterMap_cons]
    rfl
  refine ⟨target,
    (before.filterMap Tree.Decl.message?).flatMap Tree.Message.annotNodes ++ L,
    R ++ ((after.filterMap Tree.Decl.message?).flatMap Tree.Message.annotNodes
      ++ (before.filterMap Tree.Decl.service? ++ after.filterMap Tree.Decl.service?).flatMap
        Tree.Service.annotNodes), P, Q,
    bare_eq_of_decls hheader hdecls fun a b => congrArg Tree.Decl.message (hbare a b),
    options_eq_of_header hheader, fun a => ?_⟩
  simp only [Tree.File.annotNodes, hmessages, hservices, List.flatMap_append, List.flatMap_cons,
    hnodes, List.append_assoc, List.cons_append]

/-- An annotation in a service that is among other declarations. -/
theorem exists_around_of_service {s : Annot → Tree.Service}
    (hheader : ∀ a b, (tree a).header = (tree b).header)
    (hdecls : ∀ a, (tree a).decls = before ++ .service (s a) :: after)
    (hbare : ∀ a b, (s a).bare = (s b).bare)
    (hnodes : ∀ a, (s a).annotNodes = L ++ (target, P ++ a.tree :: Q) :: R) :
    ∃ target L R P Q, Around tree target L R P Q := by
  -- the messages are all the same here, and stand in front
  have hmessages (a : Annot) : (tree a).messages
      = before.filterMap Tree.Decl.message? ++ after.filterMap Tree.Decl.message? := by
    rw [Tree.File.messages, hdecls, List.filterMap_append, List.filterMap_cons]
    rfl
  have hservices (a : Annot) : (tree a).services
      = before.filterMap Tree.Decl.service? ++ s a :: after.filterMap Tree.Decl.service? := by
    rw [Tree.File.services, hdecls, List.filterMap_append, List.filterMap_cons]
    rfl
  refine ⟨target,
    (before.filterMap Tree.Decl.message? ++ after.filterMap Tree.Decl.message?).flatMap
      Tree.Message.annotNodes
      ++ ((before.filterMap Tree.Decl.service?).flatMap Tree.Service.annotNodes ++ L),
    R ++ (after.filterMap Tree.Decl.service?).flatMap Tree.Service.annotNodes, P, Q,
    bare_eq_of_decls hheader hdecls fun a b => congrArg Tree.Decl.service (hbare a b),
    options_eq_of_header hheader, fun a => ?_⟩
  simp only [Tree.File.annotNodes, hmessages, hservices, List.flatMap_append, List.flatMap_cons,
    hnodes, List.append_assoc, List.cons_append]

end

namespace Place

/-- What stands in a file besides declarations does not depend on the annotation. -/
theorem header_eq (p : Place) (a b : Annot) :
    (p.fill a).tree.header = (p.fill b).tree.header := by
  cases p with
  -- the header is read off the statements that are no declarations
  | decl h takes =>
    simp only [fill, File.tree, File.package?, File.packages, Item.Hole.members_fill,
      Tree.File.header]
  | field before name h after =>
    simp only [fill, File.tree, File.package?, File.packages, Item.members_append,
      List.filterMap_append, List.filterMap_cons, Statement.version?, Statement.package?,
      Statement.setting?, Tree.File.header]
  | method before name h after =>
    simp only [fill, File.tree, File.package?, File.packages, Item.members_append,
      List.filterMap_append, List.filterMap_cons, Statement.version?, Statement.package?,
      Statement.setting?, Tree.File.header]

/-- The trees of a file with annotations at a place. -/
theorem exists_around (p : Place) :
    ∃ target L R P Q, Around (fun a => (p.fill a).tree) target L R P Q := by
  have hheader := p.header_eq
  cases p with
  | decl h takes =>
    -- only the list of the declaration's own annotations changes
    obtain ⟨done, put, P, Q, rest, ⟨x, hx⟩, hgather⟩ := h.exists_gather Statement.decl? takes
    cases x with
    | message m =>
      cases hx
      have hnodes (a : Annot) : (m.tree (P ++ a.tree :: Q)).annotNodes
          = [] ++ (Target.message, P ++ a.tree :: Q) :: (m.tree []).annotNodes.tail := rfl
      exact exists_around_of_message hheader hgather (fun _ _ => rfl) hnodes
    | service s =>
      cases hx
      have hnodes (a : Annot) : (s.tree (P ++ a.tree :: Q)).annotNodes
          = [] ++ (Target.service, P ++ a.tree :: Q) :: (s.tree []).annotNodes.tail := rfl
      exact exists_around_of_service hheader hgather (fun _ _ => rfl) hnodes
    | _ => cases hx
  | field before name h after =>
    obtain ⟨done, put, P, Q, rest, ⟨d, hd⟩, hgather⟩ := h.exists_gather (fun d => some d.tree) rfl
    cases hd
    -- what waits in front of the message belongs to the message itself
    obtain ⟨earlier, waiting, hbefore⟩ := Item.exists_gather_append Statement.decl? before []
    have hdecls (a : Annot) := hbefore (.member (.message ⟨name, h.fill a⟩) :: after)
    have hfields (a : Annot) : (Message.tree ⟨name, h.fill a⟩ waiting).fields
        = done ++ d.tree (P ++ a.tree :: Q) :: rest := hgather a
    have hbare (a b : Annot) : (Message.tree ⟨name, h.fill a⟩ waiting).bare
        = (Message.tree ⟨name, h.fill b⟩ waiting).bare := by
      rw [Tree.Message.bare, hfields, Tree.Message.bare, hfields, List.map_append, List.map_append]
      rfl
    have hnodes (a : Annot) : (Message.tree ⟨name, h.fill a⟩ waiting).annotNodes
        = ((Target.message, waiting) :: done.map fun x => (Target.field, x.annots))
          ++ (Target.field, P ++ a.tree :: Q) :: rest.map fun x => (Target.field, x.annots) := by
      rw [Tree.Message.annotNodes, hfields, List.map_append]
      rfl
    exact exists_around_of_message hheader hdecls hbare hnodes
  | method before name h after =>
    obtain ⟨done, put, P, Q, rest, ⟨d, hd⟩, hgather⟩ := h.exists_gather (fun d => some d.tree) rfl
    cases hd
    -- what waits in front of the service belongs to the service itself
    obtain ⟨earlier, waiting, hbefore⟩ := Item.exists_gather_append Statement.decl? before []
    have hdecls (a : Annot) := hbefore (.member (.service ⟨name, h.fill a⟩) :: after)
    have hmethods (a : Annot) : (Service.tree ⟨name, h.fill a⟩ waiting).methods
        = done ++ d.tree (P ++ a.tree :: Q) :: rest := hgather a
    have hbare (a b : Annot) : (Service.tree ⟨name, h.fill a⟩ waiting).bare
        = (Service.tree ⟨name, h.fill b⟩ waiting).bare := by
      rw [Tree.Service.bare, hmethods, Tree.Service.bare, hmethods, List.map_append,
        List.map_append]
      rfl
    have hnodes (a : Annot) : (Service.tree ⟨name, h.fill a⟩ waiting).annotNodes
        = ((Target.service, waiting) :: done.map fun x => (Target.method, x.annots))
          ++ (Target.method, P ++ a.tree :: Q) :: rest.map fun x => (Target.method, x.annots) := by
      rw [Tree.Service.annotNodes, hmethods, List.map_append]
      rfl
    exact exists_around_of_service hheader hdecls hbare hnodes

end Place

end Spelling

/-! ## §4 One named constant -/

/-- A constant that can stand for another one in an annotation: a truth value for a truth value, and
an empty text for any other. -/
def Value.standIn : Value → Value
  | .bool _ => .bool true
  | _ => .text []

theorem Value.standIn_standIn (v : Value) : v.standIn.standIn = v.standIn := by
  cases v <;> rfl

/-- An annotation that is right with a constant in the place of another one is right with that. -/
theorem Tree.Annot.exists_interpret_of_standIn {a b : Tree.Annot} {target : Target}
    {name key : Bytes} {v : Idl.Value} (ha : a.name.dotted = name) (hb : b.name.dotted = name)
    (hlowera : a.lower = .ok ⟨name, none, [⟨key, v.standIn⟩]⟩)
    (hlowerb : b.lower = .ok ⟨name, none, [⟨key, v⟩]⟩) (h : a.Accepted target) :
    ∃ m, b.interpret target = .ok m ∧ m.annot? = some ⟨name, none, [⟨key, v⟩]⟩ := by
  obtain ⟨m, hm⟩ := h
  obtain ⟨x, hx, hsays⟩ := interpret_eq_ok_iff.mp hm
  obtain rfl := Except.ok.inj (hlowera.symm.trans hx)
  have hname : a.name.dotted = b.name.dotted := ha.trans hb.symm
  suffices hsuffices : ∃ m, b.Says target ⟨name, none, [⟨key, v⟩]⟩ m
      ∧ m.annot? = some ⟨name, none, [⟨key, v⟩]⟩ by
    obtain ⟨m, hsays, hannot⟩ := hsuffices
    exact ⟨m, interpret_eq_ok_iff.mpr ⟨_, hlowerb, hsays⟩, hannot⟩
  cases hsays with
  | doc _ h => cases h
  | source _ h =>
    -- no stand-in is a coordinate
    cases v <;> cases h
  | codegen codegen service h =>
    cases v with
    | bool b =>
      have hside (c : Bool) : sidesOf ⟨name, none, [⟨key, .bool c⟩]⟩
          = setSide (none, none) ⟨key, .bool c⟩ := bind_pure _
      obtain ⟨sides, hsides⟩ : ∃ sides, sidesOf ⟨name, none, [⟨key, .bool b⟩]⟩ = .ok sides := by
        have hset : setSide (none, none) ⟨key, .bool true⟩ = _ := (hside true).symm.trans h
        rw [hside]
        simp only [setSide] at hset ⊢
        split at hset
        · next hclient => exact ⟨_, if_pos hclient⟩
        next hclient =>
        rw [if_neg hclient]
        split at hset
        · next hserver => exact ⟨_, if_pos hserver⟩
        · cases hset
      exact ⟨_, .codegen (hname ▸ codegen) service hsides, rfl⟩
    | _ => cases h
  | default default field h => exact ⟨_, .default (hname ▸ default) field h, rfl⟩
  | other doc source codegen default =>
    exact ⟨_, .other (hname ▸ doc) (hname ▸ source) (hname ▸ codegen) (hname ▸ default), rfl⟩

/-- An annotation that is kept stands between those that are kept of the others. -/
theorem Tree.annots_meanings {target : Target} {a : Annot} {m : Meaning} {x : Idl.Annot}
    (ha : a.interpret target = .ok m) (hx : m.annot? = some x) (P Q : List Annot) :
    (meanings target (P ++ a :: Q)).annots
      = (meanings target P).annots ++ x :: (meanings target Q).annots := by
  simp [meanings, List.filterMap_append, List.filterMap_cons, ha, hx, Except.toOption]

namespace Spelling

/-- An annotation with a constant under a name. -/
def Annot.ofPair (name : Path) (key : Key) (v : Value) : Annot :=
  ⟨name, some ⟨[.pair key v], false⟩⟩

theorem Annot.lower_ofPair (name : Path) (key : Key) (v : Value) : (ofPair name key v).tree.lower
    = .ok ⟨name.tree.dotted, none, [⟨key.text, v.tree.lower⟩]⟩ := rfl

/-- Where a file is right with a stand-in for a constant, it is right with the constant. The schema
has the constant in the place of the stand-in, and all other annotations are the same. -/
theorem Place.exchange (p : Place) {f f' : Tree.File} {name : Path} {key : Key} {u v : Value}
    (hu : u.tree.lower = v.tree.lower.standIn) (hf : f.erase = (p.fill (.ofPair name key u)).tree)
    (hf' : f'.erase = (p.fill (.ofPair name key v)).tree) (herrors : f.errors = [])
    (sourcePath : Bytes) : f'.errors = [] ∧ ∃ L R P Q,
      (f.schema sourcePath).annotLists
        = L ++ (P ++ ⟨name.tree.dotted, none, [⟨key.text, v.tree.lower.standIn⟩]⟩ :: Q) :: R
      ∧ (f'.schema sourcePath).annotLists
        = L ++ (P ++ ⟨name.tree.dotted, none, [⟨key.text, v.tree.lower⟩]⟩ :: Q) :: R := by
  obtain ⟨target, L, R, P, Q, haround⟩ := p.exists_around
  have hlower : (Annot.ofPair name key u).tree.lower
      = .ok ⟨name.tree.dotted, none, [⟨key.text, v.tree.lower.standIn⟩]⟩ := by
    rw [Annot.lower_ofPair, hu]
  have hstandIn : (Annot.ofPair name key u).tree.lower
      = .ok ⟨name.tree.dotted, none, [⟨key.text, v.tree.lower.standIn.standIn⟩]⟩ := by
    rw [hlower, Value.standIn_standIn]
  -- nothing is wrong with the annotations of the file, the one with the stand-in among them
  rw [← Tree.File.errors_erase_eq_nil_iff, hf, Tree.File.errors_eq_nil_iff_bare] at herrors
  obtain ⟨hbare, haccepted⟩ := herrors
  rw [haround.nodes] at haccepted
  obtain ⟨hL, hnodes, hR⟩ : (∀ x ∈ L, ∀ a ∈ x.2, a.Accepted x.1)
      ∧ (∀ a ∈ P ++ (Annot.ofPair name key u).tree :: Q, a.Accepted target)
      ∧ ∀ x ∈ R, ∀ a ∈ x.2, a.Accepted x.1 := by
    simpa only [List.forall_mem_append, List.forall_mem_cons] using haccepted
  obtain ⟨hP, hnode, hQ⟩ := List.forall_mem_append.mp hnodes |>.imp_right List.forall_mem_cons.mp
  have hname (w : Value) : (Annot.ofPair name key w).tree.name.dotted = name.tree.dotted := rfl
  obtain ⟨m, hm, hmannot⟩ := Tree.Annot.exists_interpret_of_standIn (hname u) (hname u) hstandIn
    hlower hnode
  obtain ⟨m', hm', hmannot'⟩ := Tree.Annot.exists_interpret_of_standIn (hname u) (hname v) hlower
    (Annot.lower_ofPair name key v) hnode
  refine ⟨?_, f.lowerOptions :: L.map fun x => (meanings x.1 x.2).annots,
    R.map fun x => (meanings x.1 x.2).annots, (meanings target P).annots,
    (meanings target Q).annots, ?_, ?_⟩
  · rw [← Tree.File.errors_erase_eq_nil_iff, hf', Tree.File.errors_eq_nil_iff_bare, haround.nodes]
    refine ⟨haround.bare (.ofPair name key u) (.ofPair name key v) ▸ hbare, ?_⟩
    simp only [List.forall_mem_append, List.forall_mem_cons]
    exact ⟨hL, ⟨hP, ⟨m', hm'⟩, hQ⟩, hR⟩
  · rw [← Tree.File.annotLists_erase, hf, Tree.File.annotLists_schema, haround.nodes,
      List.map_append, List.map_cons, Tree.annots_meanings hm hmannot, ← hf, Tree.File.erase,
      Tree.File.mapLoc_lowerOptions]
    rfl
  · rw [← Tree.File.annotLists_erase, hf', Tree.File.annotLists_schema, haround.nodes,
      List.map_append, List.map_cons, Tree.annots_meanings hm' hmannot',
      haround.options (.ofPair name key v) (.ofPair name key u), ← hf, Tree.File.erase,
      Tree.File.mapLoc_lowerOptions]
    rfl

/-! ## §5 Forms around an annotation -/

open scoped Computability

section

variable {α : Type} {lexemes : α → List Lexeme} {x y : List Token}

theorem hasItems_between {w : List Token} (hw : Named w) (h : w ∈ Phrase.between) :
    HasItems lexemes w := by
  refine hasItems_kstar ?_ hw h
  rintro v (hv | hv) hnamed
  · exact hasItems_semicolon hv
  · obtain ⟨a, ha⟩ := exists_bareAnnot hnamed hv
    exact ⟨[.annot a], by simp [ha, Item.lexemesOf]⟩

/-- The tokens around a place are those of items around a place. -/
theorem exists_hole {member : Language Token}
    (hmember : ∀ v ∈ member, Named v → ∃ d, v.map Token.lexeme = lexemes d)
    (h : Phrase.InItems member x y) (hx : Named x) (hy : Named y) :
    ∃ hole : Item.Hole α, ∀ (a : Annot) (b : List Token), b.map Token.lexeme = a.lexemes →
      (x ++ (b ++ y)).map Token.lexeme = Item.lexemesOf lexemes (hole.fill a) := by
  -- items have a form when their members have one
  have hitems {w : List Token} (hw : Named w) (h : w ∈ Phrase.items member) :
      HasItems lexemes w := by
    refine hasItems_kstar ?_ hw h
    rintro v (hv | hv) hnamed
    · exact hasItems_semicolon hv
    · obtain ⟨f, hf, m, hm, rfl⟩ := Language.mem_mul.mp hv
      obtain ⟨d, hd⟩ := hmember m hm hnamed.right
      exact (hasItems_front hnamed.left hf).append (hasItems_member hd)
  obtain ⟨hp, hf, hk, hm, hq⟩ := h
  obtain ⟨before, hbefore⟩ := (hitems hx.left hp).append (hasItems_front hx.right hf)
  obtain ⟨between, hbetween⟩ : HasItems lexemes _ := hasItems_between hy.left hk
  obtain ⟨d, hd⟩ := hmember _ hm hy.right.left
  obtain ⟨after, hafter⟩ := hitems hy.right.right hq
  refine ⟨⟨before, between, d, after⟩, fun a b hb => ?_⟩
  rw [List.map_append, hbefore]
  simp [Item.Hole.fill, Item.lexemesOf_append, Item.lexemesOf, hb, hbetween, hd, hafter]

/-- What opens the body of a declaration. -/
theorem exists_opening {text : Bytes} (hw : Named x)
    (h : x ∈ Phrase.word text * Phrase.name * Phrase.sign .openCurl) :
    ∃ n : Word, x.map Token.lexeme = [name text, name n.text, sign .openCurl] := by
  obtain ⟨_, hu, o, ho, rfl⟩ := Language.mem_mul.mp h
  obtain ⟨k, hk, n, hn, rfl⟩ := Language.mem_mul.mp hu
  obtain ⟨n', hn'⟩ := exists_name hw.left.right hn
  exact ⟨n', by simp [lexemes_of_word hk, hn', lexemes_of_sign rfl ho]⟩

/-- The tokens around a place in a file are those of a form around a place. -/
theorem exists_place {requirePackage : Bool} (h : Phrase.InFile requirePackage x y) (hx : Named x)
    (hy : Named y) : ∃ p : Place, ∀ (a : Annot) (b : List Token), b.map Token.lexeme = a.lexemes →
      (x ++ (b ++ y)).map Token.lexeme = (p.fill a).lexemes := by
  obtain ⟨hp, hxy, hq, -⟩ := h
  have hfront := hx.right
  have hback := hy.left
  -- whatever stands on both sides is a list of items
  obtain ⟨l, hl⟩ := hasItems_file hx.left hp
  obtain ⟨m, hm⟩ := hasItems_file hy.right hq
  cases hxy with
  | front hf hk hd =>
    obtain ⟨f, hf⟩ : HasItems Statement.lexemes _ := hasItems_front hfront hf
    obtain ⟨k, hk⟩ : HasItems Statement.lexemes _ := hasItems_between hback.left hk
    obtain ⟨d, hd, htakes⟩ : ∃ d : Statement, _ = d.lexemes ∧ d.decl?.isSome = true := by
      rcases hd with hd | hd
      · obtain ⟨d, hd⟩ := exists_message hback.right hd
        exact ⟨.message d, hd, rfl⟩
      · obtain ⟨d, hd⟩ := exists_service hback.right hd
        exact ⟨.service d, hd, rfl⟩
    refine ⟨.decl ⟨l ++ f, k, d, m⟩ htakes, fun a b hb => ?_⟩
    simp [Place.fill, File.lexemes, Item.Hole.fill, Item.lexemesOf_append, Item.lexemesOf, hb, hl,
      hf, hk, hd, hm]
  | message hf hnamed =>
    -- a field stands among the items of its message
    obtain ⟨ha, hitems, hc⟩ := hnamed
    obtain ⟨f, hf⟩ : HasItems Statement.lexemes _ := hasItems_front hfront.left hf
    obtain ⟨n, ha⟩ := exists_opening hfront.right.left ha
    obtain ⟨hole, hhole⟩ := exists_hole (fun v hv hnamed => exists_field hnamed hv) hitems
      hfront.right.right hback.left
    refine ⟨.field (l ++ f) n hole m, fun a b hb => ?_⟩
    have hbody := hhole a b hb
    simp only [List.map_append, hb] at hbody
    simp [Place.fill, File.lexemes, Item.lexemesOf_append, Item.lexemesOf, Statement.lexemes,
      Message.lexemes, ← hbody, hb, hl, hf, ha, hm, lexemes_of_sign rfl hc]
  | service hf hnamed =>
    obtain ⟨ha, hitems, hc⟩ := hnamed
    obtain ⟨f, hf⟩ : HasItems Statement.lexemes _ := hasItems_front hfront.left hf
    obtain ⟨n, ha⟩ := exists_opening hfront.right.left ha
    obtain ⟨hole, hhole⟩ := exists_hole (fun v hv hnamed => exists_method hnamed hv) hitems
      hfront.right.right hback.left
    refine ⟨.method (l ++ f) n hole m, fun a b hb => ?_⟩
    have hbody := hhole a b hb
    simp only [List.map_append, hb] at hbody
    simp [Place.fill, File.lexemes, Item.lexemesOf_append, Item.lexemesOf, Statement.lexemes,
      Service.lexemes, ← hbody, hb, hl, hf, ha, hm, lexemes_of_sign rfl hc]

end

/-! ## §6 Forms among the phrases -/

open Grammar (text_of_lexeme)

theorem kind_of_lexeme {t : Token} {x : Lexeme} (h : t.lexeme = x) : t.kind = x.1 :=
  congrArg Prod.fst h

/-- The rest of a dotted name, by its lexemes. -/
theorem moreLexemes_mem {l : List (Separator × Word)} {w : List Token}
    (h : w.map Token.lexeme = Path.moreLexemes l) :
    w ∈ ((Phrase.sign .dot + Phrase.sign .doubleColon) * Phrase.name)∗ := by
  induction l generalizing w with
  | nil =>
    obtain rfl : w = [] := List.map_eq_nil_iff.mp h
    exact Language.nil_mem_kstar _
  | cons x l ih =>
    obtain ⟨s, w, rfl, hs, hw⟩ := List.map_eq_cons_iff.mp h
    obtain ⟨n, w, rfl, hn, hw⟩ := List.map_eq_cons_iff.mp hw
    -- the form says which separator it is
    have hseparator : [s] ∈ Phrase.sign .dot + Phrase.sign .doubleColon := by
      obtain ⟨separator, n⟩ := x
      cases separator with
      | dot => exact .inl ⟨s, rfl, kind_of_lexeme hs⟩
      | doubleColon => exact .inr ⟨s, rfl, kind_of_lexeme hs⟩
    have hpart : [s, n] ∈ (Phrase.sign .dot + Phrase.sign .doubleColon) * Phrase.name :=
      Language.append_mem_mul hseparator ⟨n, rfl, kind_of_lexeme hn⟩
    exact (mul_kstar_le_kstar (a := (Phrase.sign .dot + Phrase.sign .doubleColon) * Phrase.name))
      (Language.append_mem_mul hpart (ih hw))

/-- Tokens with the lexemes of a dotted name are one. -/
theorem Path.mem_phrase {p : Path} {words : List Bytes} (hp : p.first.text ∉ words)
    {w : List Token} (h : w.map Token.lexeme = p.lexemes) : w ∈ Phrase.pathBut words := by
  obtain ⟨t, w, rfl, ht, hw⟩ := List.map_eq_cons_iff.mp h
  have htext : t.text = p.first.text := text_of_lexeme ht rfl
  exact Language.append_mem_mul (a := [t]) ⟨t, rfl, kind_of_lexeme ht, htext ▸ hp⟩
    (moreLexemes_mem hw)

/-- A constant can be read if its number is not too large and its text has no bad escape. -/
def Value.Sound : Value → Prop
  | literal (.int n) => fitsLiteral n.value = true
  | literal (.float raw) => (Binary64.ofNumeral? raw).isSome = true
  | literal (.text raw) => ∃ v, textLitValue raw = .ok v
  | _ => True

/-- Tokens with the lexemes of a constant are one, if it can be read. -/
theorem Value.mem_phrase {x : Value} (hx : x.Sound) {w : List Token}
    (h : w.map Token.lexeme = x.lexemes) : w ∈ Phrase.value := by
  cases x with
  | path p free => exact .inr (p.mem_phrase free h)
  | literal l =>
    obtain ⟨t, rfl, ht⟩ := List.map_eq_singleton_iff.mp h
    refine .inl ?_
    -- four literals are words
    have hword {text : Bytes} (ht : t.lexeme = name text) (htext : text ∈ Phrase.constantWords) :
        [t] ∈ Phrase.literal :=
      .inr ⟨t, rfl, kind_of_lexeme ht, (text_of_lexeme ht rfl).symm ▸ htext⟩
    cases l with
    -- the range of a number is a part of the phrase
    | int n =>
      have hkind : t.kind = n.base.kind := kind_of_lexeme ht
      have htext : t.text = n.text := text_of_lexeme ht (by cases n.base <;> rfl)
      refine .inl (.inl (.inl ⟨t, rfl, ?_, ?_⟩))
      · rw [hkind]
        cases n.base <;> rfl
      · rw [hkind, htext]
        change fitsLiteral (intLitValue _ _) = true at hx
        simp only [fitsLiteral, Bool.and_eq_true, decide_eq_true_eq] at hx
        omega
    | float raw =>
      have htext : t.text = raw := text_of_lexeme ht rfl
      exact .inl (.inl (.inr ⟨t, rfl, kind_of_lexeme ht, htext ▸ hx⟩))
    | text raw =>
      have htext : t.text = raw := text_of_lexeme ht rfl
      obtain ⟨v, hv⟩ := hx
      exact .inl (.inr ⟨v, t, rfl, kind_of_lexeme ht, htext ▸ hv⟩)
    | bool b => cases b <;> exact hword ht (by decide)
    | infinity => exact hword ht (by decide)
    | nan => exact hword ht (by decide)

/-- Tokens with the lexemes of an annotation with a named constant are one with arguments. -/
theorem hasArgs_of_lexemes {p : Path} {key : Key} {x : Value} (hx : x.Sound) {w : List Token}
    (h : w.map Token.lexeme = (Annot.ofPair p key x).lexemes) : Phrase.HasArgs w := by
  obtain ⟨s, w, rfl, hs, hw⟩ := List.map_eq_cons_iff.mp h
  obtain ⟨n, w, rfl, hn, hw⟩ := List.map_eq_append_iff.mp hw
  obtain ⟨o, w, rfl, ho, hw⟩ := List.map_eq_cons_iff.mp hw
  obtain ⟨as, w, rfl, has, hw⟩ := List.map_eq_append_iff.mp hw
  obtain ⟨c, rfl, hc⟩ := List.map_eq_singleton_iff.mp hw
  refine ⟨s, n, o, as, c, rfl, kind_of_lexeme hs, p.mem_phrase List.not_mem_nil hn,
    kind_of_lexeme ho, ?_, kind_of_lexeme hc⟩
  have has : as.map Token.lexeme = name key.text :: sign .eq :: x.lexemes := by
    rw [has]
    exact List.append_nil _
  obtain ⟨k, as, rfl, hk, has⟩ := List.map_eq_cons_iff.mp has
  obtain ⟨e, v, rfl, he, hv⟩ := List.map_eq_cons_iff.mp has
  have hkey : k.text = key.text := text_of_lexeme hk rfl
  -- the one argument: a key, an equals sign and the value
  have hpair : k :: e :: v ∈ Phrase.arg := by
    refine .inr (Language.append_mem_mul (a := [k]) ⟨k, rfl, kind_of_lexeme hk, hkey ▸ key.free⟩ ?_)
    exact Phrase.mem_maybe (Language.append_mem_mul (a := [e]) ⟨e, rfl, kind_of_lexeme he⟩
      (Value.mem_phrase hx hv))
  refine Phrase.mem_maybe ?_
  have := Language.append_mem_mul (Language.append_mem_mul hpair
    (Language.nil_mem_kstar (Phrase.sign .comma * Phrase.arg)))
    (Phrase.nil_mem_maybe (L := Phrase.sign .comma))
  simpa [Phrase.args] using this

end Spelling

end Idl
