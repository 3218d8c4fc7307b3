import Idl.Bindings
import Idl.Proofs.Bindings.Files
import Idl.Proofs.Bindings.Scope
import Idl.Proofs.Document.Nulls
import Idl.Proofs.Hash.Numbers
import Idl.Proofs.Schema.Exact
import Idl.Proofs.Schema.Identity
import Idl.Proofs.Text.Base64
import Idl.Proofs.Tree.Rewording

/-!
# What an identifier says about generated code

A target reads a part of a schema only: what is declared, with its documentation and identifiers,
the option that names a package, and for each service whether there is a client and a server. All of
this but the last is covered by the canonical encoding. So two documents with one identifier lead to
the same code if they ask for the same clients and servers; a document that asks for something else
has the same identifier and leads to other code.

* §1 what targets read, §2 targets read no more than that,
* §3 alike schemas, §4 code with and without a client,
* §5 documents with one identifier.
-/

namespace Idl

open Bindings

/-! ## §1 What targets read -/

/-- What targets read of a field. -/
def Field.rendered (f : Field) : Field := { f with number := 0, annots := [], source := .unknown }

/-- What targets read of a message. -/
def Message.rendered (m : Message) : Message :=
  { m with annots := [], source := .unknown, fields := m.fields.map Field.rendered }

/-- What targets read of a method. -/
def Method.rendered (m : Method) : Method := { m with annots := [], source := .unknown }

/-- What targets read of a service. -/
def Service.rendered (v : Service) : Service :=
  { v with annots := [], source := .unknown, methods := v.methods.map Method.rendered }

/-- The path that a schema chooses for its package. -/
def Schema.packagePath? (s : Schema) : Option Bytes :=
  match s.option? "go_package" with
  | some (.text path) => some path
  | _ => none

/-- What targets read of a schema. -/
def Schema.rendered (s : Schema) : Schema :=
  { Schema.empty with
    package := s.package
    annots := (s.packagePath?.map fun path =>
      ⟨Annot.optionName, none, [⟨"go_package", .text path⟩]⟩).toList
    messages := s.messages.map Message.rendered
    services := s.services.map Service.rendered }

/-! ## §2 Targets read no more than that -/

section

variable (s : Schema)

theorem Schema.isSome_message?_rendered (name : Bytes) :
    (s.rendered.message? name).isSome = (s.message? name).isSome := by
  simp [message?, rendered, List.find?_map, Function.comp_def, Message.rendered]

@[simp]
theorem Schema.package_rendered : s.rendered.package = s.package := rfl

@[simp]
theorem Schema.messages_rendered : s.rendered.messages = s.messages.map Message.rendered := rfl

@[simp]
theorem Schema.services_rendered : s.rendered.services = s.services.map Service.rendered := rfl

theorem Schema.packagePath?_rendered : s.rendered.packagePath? = s.packagePath? := by
  unfold rendered
  generalize s.packagePath? = path
  cases path with
  | none => rfl
  | some path => simp [packagePath?, option?, Annot.named, Annot.get?]

namespace GoView

theorem typeName_rendered (entity : Bytes) (t : Ty) :
    typeName s.rendered entity t = typeName s entity t := by
  cases t <;> simp [typeName, s.isSome_message?_rendered]

theorem paramView_rendered (entity : Bytes) (t : Option Ty) :
    paramView s.rendered entity t = paramView s entity t := by
  cases t <;> simp [paramView, typeName_rendered]

theorem fieldView_rendered (message : Bytes) (f : Idl.Field) :
    fieldView s.rendered message f.rendered = fieldView s message f := by
  simp only [fieldView, Field.rendered, typeName_rendered]
  rfl

theorem messageView_rendered (m : Idl.Message) :
    messageView s.rendered m.rendered = messageView s m := by
  simp only [messageView, Message.rendered, List.mapM_map, Function.comp_def, fieldView_rendered]

theorem methodView_rendered (service : Bytes) (m : Idl.Method) :
    methodView s.rendered service m.rendered = methodView s service m := by
  simp only [methodView, Method.rendered, paramView_rendered]

theorem serviceView_rendered (v : Idl.Service) :
    serviceView s.rendered v.rendered = serviceView s v := by
  simp only [serviceView, Service.rendered, List.mapM_map, Function.comp_def, methodView_rendered]

theorem packageName_eq (o : Options) : packageName s o = match o.get? "package" with
    | some name => checkPackage "package" name
    | none => match s.packagePath? with
      | some path => checkPackage "go_package" (packageOfPath path)
      | none => .ok (defaultPackage s.package) := by
  unfold packageName Schema.packagePath?
  cases o.get? "package" with
  | some name => rfl
  | none =>
    cases h : s.option? "go_package" with
    | none => rfl
    | some v => cases v <;> rfl

theorem ofSchema_rendered (o : Options) : ofSchema s.rendered o = ofSchema s o := by
  simp only [ofSchema, packageName_eq, s.packagePath?_rendered, s.package_rendered,
    s.messages_rendered, s.services_rendered, List.mapM_map, Function.comp_def,
    messageView_rendered, serviceView_rendered]

end GoView

namespace RustView

theorem typeName_rendered (entity : Bytes) (t : Ty) :
    typeName s.rendered entity t = typeName s entity t := by
  cases t <;> simp [typeName, s.isSome_message?_rendered]

theorem paramView_rendered (entity : Bytes) (t : Option Ty) :
    paramView s.rendered entity t = paramView s entity t := by
  cases t <;> simp [paramView, typeName_rendered]

theorem fieldView_rendered (message : Bytes) (f : Idl.Field) :
    fieldView s.rendered message f.rendered = fieldView s message f := by
  simp only [fieldView, Field.rendered, typeName_rendered, serdeOf]
  rfl

theorem messageView_rendered (m : Idl.Message) :
    messageView s.rendered m.rendered = messageView s m := by
  simp only [messageView, Message.rendered, List.mapM_map, Function.comp_def, fieldView_rendered]

theorem methodView_rendered (service : Bytes) (m : Idl.Method) :
    methodView s.rendered service m.rendered = methodView s service m := by
  simp only [methodView, Method.rendered, paramView_rendered, typeName_rendered]

theorem serviceViews_rendered (modules : Scope) (l : List Idl.Service) :
    serviceViews s.rendered modules (l.map Service.rendered) = serviceViews s modules l := by
  induction l generalizing modules with
  | nil => rfl
  | cons v r ih =>
    simp only [List.map_cons, serviceViews, ih]
    simp only [Service.rendered, List.mapM_map, Function.comp_def, methodView_rendered]

theorem ofSchema_rendered (o : Options) : ofSchema s.rendered o = ofSchema s o := by
  simp only [ofSchema, s.package_rendered, s.messages_rendered, s.services_rendered,
    List.mapM_map, Function.comp_def, messageView_rendered, serviceViews_rendered]

end RustView

/-- Generating code reads no more of a schema than targets do. -/
theorem Bindings.generate_rendered (target : Bytes) (o : Options) :
    generate s.rendered target o = generate s target o := by
  have hrender (t : Bindings.Target) : t.render s.rendered o = t.render s o := by
    cases t
    · simp only [Target.render, GoView.ofSchema_rendered]
      rfl
    · simp only [Target.render, RustView.ofSchema_rendered]
      rfl
  simp only [generate, hrender]

end

/-! ## §3 Alike schemas -/

theorem Field.Alike.rendered_eq {f g : Field} (h : f.Alike g) : g.rendered = f.rendered := by
  simp only [rendered, h.name, h.type, h.optional, h.docs]

theorem Message.Alike.rendered_eq {m n : Message} (h : m.Alike n) : n.rendered = m.rendered := by
  simp only [rendered, h.name, h.docs,
    map_eq_of_forall₂ h.fields fun _ _ hfield => hfield.rendered_eq]

theorem Method.Alike.rendered_eq {m n : Method} (h : m.Alike n) : n.rendered = m.rendered := by
  simp only [rendered, h.name, h.input, h.output, h.docs]

/-- What is generated for a service: a client, a server. -/
def Service.sides (v : Service) : Bool × Bool := (v.client, v.server)

/-- Alike services that ask for the same and in which the same is filled in. -/
theorem Service.Alike.rendered_eq {v w : Service} (h : v.Alike w) (hsides : w.sides = v.sides)
    (hid : w.id = v.id) (hcanonical : w.canonical = v.canonical) : w.rendered = v.rendered := by
  obtain ⟨hclient, hserver⟩ := Prod.mk.inj hsides
  simp only [rendered, h.name, h.docs, hid, hcanonical, hclient, hserver,
    map_eq_of_forall₂ h.methods fun _ _ hmethod => hmethod.rendered_eq]

theorem Annot.Alike.get?_rel {a b : Annot} (h : a.Alike b) (key : Bytes) :
    Option.Rel Value.Alike (a.get? key) (b.get? key) := by
  have hhead (a : Annot) : a.get? key = (a.valuesOf key).head? := by
    rw [get?, valuesOf, List.head?_map, List.head?_filter]
  have hvalues := h.pairs key
  rw [hhead, hhead]
  generalize a.valuesOf key = values, b.valuesOf key = values' at hvalues ⊢
  cases hvalues with
  | nil => exact .none
  | cons hvalue _ => exact .some hvalue

/-- The first value of a key in alike annotations. -/
theorem findSome?_get?_rel {l m : List Annot} (h : List.Forall₂ Annot.Alike l m) (key : Bytes) :
    Option.Rel Value.Alike (l.findSome? (·.get? key)) (m.findSome? (·.get? key)) := by
  induction h with
  | nil => exact .none
  | @cons a b l m hannot _ ih =>
    have hget := hannot.get?_rel key
    rw [List.findSome?_cons, List.findSome?_cons]
    generalize a.get? key = value, b.get? key = value' at hget ⊢
    cases hget with
    | none => exact ih
    | some hvalue => exact .some hvalue

namespace Schema

variable {s t : Schema}

/-- The path of the package is read off the option, which is part of the encoding. -/
theorem Alike.packagePath?_eq (h : s.Alike t) : t.packagePath? = s.packagePath? := by
  -- what the encoding leaves out is never the option
  have hnamed (l : List Annot) : Annot.named Annot.optionName l
      = Annot.named Annot.optionName (l.filter (·.name != Annot.sourceName)) := by
    have hne : Annot.optionName ≠ Annot.sourceName := by decide
    rw [Annot.named, Annot.named, List.filter_filter]
    refine List.filter_congr fun a _ => ?_
    by_cases hname : a.name = Annot.optionName <;> simp [hname, hne]
  have halike : List.Forall₂ Annot.Alike (Annot.named Annot.optionName s.annots)
      (Annot.named Annot.optionName t.annots) := by
    rw [hnamed, hnamed t.annots]
    exact List.rel_filter (fun a b hab => by simp [hab.name]) h.annots
  have hoption : Option.Rel Value.Alike (s.option? "go_package") (t.option? "go_package") :=
    findSome?_get?_rel halike "go_package"
  unfold packagePath?
  generalize s.option? "go_package" = value, t.option? "go_package" = value' at hoption ⊢
  cases hoption with
  | none => rfl
  | some hvalue =>
    -- the same constant, or two that are not numbers and both no text
    cases hvalue with
    | refl => rfl
    | nan hx hy => rfl

/-- The encodings and identifiers of services are filled in. -/
def Filled (s : Schema) : Prop :=
  ∀ v ∈ s.services, v.canonical = v.encoding ∧ v.id = s.serviceIdentity v

theorem filled_identify (s : Schema) : s.identify.Filled := fun _ hv => identify_fills s hv

/-- Alike schemas, filled in, that ask for the same clients and servers are read alike. -/
theorem Alike.rendered_eq (h : s.Alike t) (hs : s.Filled) (ht : t.Filled)
    (hsides : t.services.map Service.sides = s.services.map Service.sides) :
    t.rendered = s.rendered := by
  have htypes := h.typesEncoding_eq
  -- the identifiers are those of the contents, so they agree as well
  have hservices : t.services.map Service.rendered = s.services.map Service.rendered := by
    have halike := h.services
    unfold Filled serviceIdentity at hs ht
    rw [htypes] at ht
    generalize s.services = l, t.services = m at halike hs ht hsides
    induction halike with
    | nil => rfl
    | @cons v w l m hvw _ ih =>
      obtain ⟨⟨hcanonical, hid⟩, hl⟩ := List.forall_mem_cons.mp hs
      obtain ⟨⟨hcanonical', hid'⟩, hm⟩ := List.forall_mem_cons.mp ht
      obtain ⟨hfirst, hrest⟩ := List.cons.inj hsides
      rw [hvw.encoding_eq] at hcanonical' hid'
      rw [List.map_cons, List.map_cons, ih hl hm hrest,
        hvw.rendered_eq hfirst (hid'.trans hid.symm) (hcanonical'.trans hcanonical.symm)]
  have hmessages := map_eq_of_forall₂ h.messages fun _ _ hmessage => hmessage.rendered_eq
  rw [rendered, rendered, h.package, h.packagePath?_eq, hmessages, hservices]

end Schema

/-! ## §4 Code with and without a client -/

namespace RustView

open Template Template.Short

/-- What the file has for a service, up to the part about its client. -/
def Service.common : List Node :=
  [t "\n", use "service", cond "Server" [t "\n", use "receiver"] []]

/-- What the file has for the client of a service. -/
def Service.sending : List Node := [t "\n", use "sender"]

/-- In the file of a lone service without methods, only one part depends on whether there is a
client. -/
theorem exists_render_lone (source runtime name module id canonical : Bytes) :
    ∃ before after, after ≠ [] ∧ ∀ client : Bool,
      Template.render builtins fileTemplate (RustView.toData ⟨source, runtime, [],
          [⟨name, module, id, canonical, client, true, [], []⟩]⟩)
        = .ok (before ++ ((if client then after else []) ++ Bytes.ofString "\n")) := by
  let v (client : Bool) : Service := ⟨name, module, id, canonical, client, true, [], []⟩
  let w (client : Bool) : RustView := ⟨source, runtime, [], [v client]⟩
  let call := fillNamed builtins 34
  -- no other part looks at the flag, so that both cases evaluate to one text
  obtain ⟨front, hfront⟩ : ∃ front, ∀ client,
      fill call (w client).toData (w client).toData (file.take 11) = .ok front := by
    obtain ⟨front, h⟩ := exists_of_isOk
      (r := fill call (w true).toData (w true).toData (file.take 11)) rfl
    exact ⟨front, fun client => by cases client <;> exact h⟩
  obtain ⟨head, hhead⟩ : ∃ head, ∀ client,
      fill call (w client).toData (v client).toData Service.common = .ok head := by
    obtain ⟨head, h⟩ := exists_of_isOk
      (r := fill call (w true).toData (v true).toData Service.common) rfl
    exact ⟨head, fun client => by cases client <;> exact h⟩
  obtain ⟨sent, hsent⟩ := exists_of_isOk
    (r := fill call (w true).toData (v true).toData [use "sender"]) rfl
  refine ⟨front ++ head, Bytes.ofString "\n" ++ sent,
    List.append_ne_nil_of_left_ne_nil (by decide) sent, fun client => ?_⟩
  -- the lines that depend on the flag, and are behind all others of the service
  have hsending : fill call (w client).toData (v client).toData
      [cond "Client" Service.sending []]
        = .ok (if client then Bytes.ofString "\n" ++ sent else []) := by
    cases client with
    | false => rfl
    | true =>
      have hnode : fillNode call (w true).toData (v true).toData
          (cond "Client" Service.sending []) = .ok (Bytes.ofString "\n" ++ sent) :=
        fill_cons (fillNode_t _) hsent
      have hall := fill_cons hnode (fill_nil call (w true).toData (v true).toData)
      rwa [List.append_nil] at hall
  have hservices : fillNode call (w client).toData (w client).toData
      (each "Services" (Service.common ++ [cond "Client" Service.sending []]))
        = .ok (head ++ (if client then Bytes.ofString "\n" ++ sent else [])) := by
    have hlist : (w client).toData.field "Services" = .ok (.list ([v client].map Service.toData)) :=
      rfl
    have hitem : ∀ x ∈ [v client], fill call (w client).toData x.toData
        (Service.common ++ [cond "Client" Service.sending []])
          = .ok (head ++ (if client then Bytes.ofString "\n" ++ sent else [])) :=
      List.forall_mem_singleton.mpr (fill_append (hhead client) hsending)
    have heach := fillNode_each hlist hitem
    rwa [List.flatMap_singleton] at heach
  have hfile := fill_append (hfront client) (fill_cons hservices
    (fill_cons (fillNode_t "\n") (fill_nil call (w client).toData (w client).toData)))
  rw [List.append_nil, List.append_assoc, ← List.append_assoc front] at hfile
  exact hfile

/-- The view of a schema with a service that has no methods. -/
theorem ofSchema_lone (s : Schema) (client : Bool) (id : Identifier) (canonical : Bytes) :
    ofSchema { s with
      messages := [], services := [⟨"S", [], [], [], .unknown, client, true, id, canonical⟩] } {}
      = .ok ⟨s.package, defaultRuntime, [], [⟨Naming.pascal "S", ident (Naming.snake "S"),
        id.text, canonical, client, true, [], []⟩]⟩ := by
  let claims : Except BindingError (PUnit × Scope) :=
    ((declaredNames (Naming.pascal "S") client true).forM (claim target "S")).run []
  let v : Service := ⟨Naming.pascal "S", ident (Naming.snake "S"), id.text, canonical, client, true,
    [], []⟩
  have hview : ofSchema { s with
      messages := [], services := [⟨"S", [], [], [], .unknown, client, true, id, canonical⟩] } {}
      = (·.1) <$> ((claims >>= fun p => .ok ([v], p.2)) >>= fun p =>
        .ok (⟨s.package, defaultRuntime, [], p.1⟩, p.2)) := rfl
  -- all names belong to the service
  have hscope : Scope.Consistent
      ((declaredNames (Naming.pascal "S") client true).map (·, Bytes.ofString "S") ++ []) := by
    rw [List.append_nil]
    intro p hp q hq _
    obtain ⟨_, -, rfl⟩ := List.mem_map.mp hp
    obtain ⟨_, -, rfl⟩ := List.mem_map.mp hq
    rfl
  obtain ⟨names, hnames, -⟩ :=
    (Gives.forM fun name _ => .claim target "S" name).ok [] hscope trivial
  rw [show claims = .ok ((), names) from hnames] at hview
  exact hview

end RustView

/-- A file of a target is what its template is filled in to. -/
theorem generate_rust {s : Schema} {v : RustView} {text : Bytes}
    (hview : RustView.ofSchema s {} = .ok v)
    (htext : Template.render RustView.builtins RustView.fileTemplate v.toData = .ok text)
    (hpackage : ∀ b ∈ s.package, Bytes.isWord b = true ∨ b = 0x2E) :
    generate s "rust" {} = .ok [⟨RustView.fileName s, text⟩] := by
  have hname : Target.ofName? "rust" = some .rust := by decide
  have hcheck : Options.check RustView.target ["runtime"] {} = .ok () :=
    Options.check_nil _ _
  -- no template is laid over those built in
  have hlibrary : library RustView.target RustView.builtins {} = .ok RustView.builtins := by
    simp only [library, overlayFiles, Option.getD_none, List.filterMap_nil, List.mergeSort_nil]
    rfl
  have hfill : fillTemplate RustView.target RustView.builtins RustView.fileTemplate v.toData
      = .ok text := by
    rw [fillTemplate, htext]
  have hrendered : Target.rust.render s {} = .ok [⟨RustView.fileName s, text⟩] := by
    simp only [Target.render, hcheck, hlibrary, hview]
    change (fillTemplate RustView.target RustView.builtins RustView.fileTemplate v.toData
      >>= fun text => .ok [OutputFile.mk (RustView.fileName s) text]) = _
    rw [hfill]
    rfl
  -- the one path is relative, and stands alone
  have hfault : pathFault? "rust" none [⟨RustView.fileName s, text⟩] = none := by
    have hlength : 3 ≤ (RustView.fileName s).length := Target.rust.three_le_length_fileName hpackage
    have hne : RustView.fileName s ≠ [] := List.ne_nil_of_length_pos (by omega)
    have hslash : (RustView.fileName s).head? ≠ some 0x2F := fun h =>
      absurd (Target.rust.octets_fileName hpackage _ (List.mem_of_head? h)) (by decide)
    simp [pathFault?, hne, hslash]
  rw [generate, hname]
  dsimp only
  rw [hrendered]
  change collect "rust" [⟨RustView.fileName s, text⟩] = _
  rw [collect, List.mergeSort_singleton]
  simp only [hfault]

/-- The code for a service has more to it if there is a client. -/
theorem generate_without_client_ne (id service : Identifier) (canonical : Bytes) :
    let s (client : Bool) : Schema := { Schema.empty with
      package := "p", id
      services := [⟨"S", [], [], [], .unknown, client, true, service, canonical⟩] }
    generate (s false) "rust" {} ≠ generate (s true) "rust" {} := by
  intro s
  let path := RustView.fileName { Schema.empty with package := "p" }
  have hpackage : ∀ b ∈ Bytes.ofString "p", Bytes.isWord b = true ∨ b = 0x2E := by
    decide +kernel
  -- the part of the client stands between two that are always there
  obtain ⟨before, after, hafter, hrender⟩ := RustView.exists_render_lone "p"
    RustView.defaultRuntime (Naming.pascal "S") (RustView.ident (Naming.snake "S")) service.text
    canonical
  have hgenerate (client : Bool) : generate (s client) "rust" {}
      = .ok [⟨path, before ++ ((if client then after else []) ++ Bytes.ofString "\n")⟩] :=
    generate_rust
      (RustView.ofSchema_lone { Schema.empty with package := "p", id } client service canonical)
      (hrender client) hpackage
  rw [hgenerate, hgenerate]
  simp [hafter]

/-! ## §5 Documents with one identifier -/

theorem Identifier.text_injective {i j : Identifier} (h : i.text = j.text) : i = j := by
  have hoctets : i.octets = j.octets := Base64.encodeRaw_injective h
  cases i
  cases j
  cases hoctets
  rfl

/-- Texts apart, the canonical encoding tells schemas apart. -/
theorem Schema.alike_of_encoding_eq {s t : Schema} (hs : s.Textual) (ht : t.Textual)
    (h : s.encoding = t.encoding) : s.Alike t := by
  rw [← Canonical.schema_eq_iff]
  exact (Canonical.plain_schema hs).eq_of_compact_eq (Canonical.plain_schema ht) (by decide) h

namespace Document

/-- What a document asks for, service by service. -/
def sides (d : Document) : List (Option (Bool × Bool)) :=
  d.services.map (·.map fun v => (v.client, v.server))

theorem gives_sides (v : Service) :
    Gives (fun w : Idl.Service => w.sides = (v.client, v.server)) v.toSchema :=
  (gives_true _).bind fun _ _ => (gives_true _).bind fun _ _ => (gives_true _).bind fun _ _ =>
    gives_ok rfl

/-- Services ask for what their document asks for. -/
theorem gives_sides_entries (l : List (Option Service)) :
    Gives (fun r : List Idl.Service =>
        r.map (fun v => some v.sides) = l.map (·.map fun v => (v.client, v.server)))
      (entries Service.toSchema l) := by
  rw [entries]
  induction l with
  | nil => exact gives_ok rfl
  | cons v l ih =>
    rw [List.mapM_cons]
    cases v with
    -- a null entry is refused
    | none => exact gives_error _
    | some v =>
      refine (gives_sides v).bind fun w hw => ih.bind fun r hr => gives_ok ?_
      rw [List.map_cons, List.map_cons, hr, hw]
      rfl

/-- An accepted document has the identifiers of its content, and what it asks for is in its
schema. -/
theorem gives_identified (d : Document) :
    Gives (fun s : Schema => s.Filled ∧ s.id = s.identity
        ∧ s.services.map (fun v => some v.sides) = d.sides ∧ (d.id ≠ [] → d.id = s.id.text))
      d.toSchema := by
  rw [toSchema_eq]
  split
  · exact gives_error _
  · refine Gives.bind (P := fun s => s.services.map (fun v => some v.sides) = d.sides) ?_
      fun s hs => ?_
    · exact (gives_true _).bind fun _ _ => (gives_true _).bind fun _ _ =>
        (gives_sides_entries d.services).bind fun _ hservices => gives_ok hservices
    · unfold verify
      split
      · exact gives_error _
      · -- the recorded identifier is the one of the content, or was left out
        next hid =>
        refine (gives_true _).map fun _ _ => ⟨s.filled_identify, s.identify_id, ?_, fun hne => ?_⟩
        · rw [Schema.services_identify, List.map_map]
          exact hs
        · simpa [hne] using hid

variable {d d' : Document} {s s' : Schema}

/-- Documents with one identifier describe alike schemas. -/
theorem alike_of_same_id (hs : d.toSchema = .ok s) (hs' : d'.toSchema = .ok s')
    (hid : d.id = d'.id) (hne : d.id ≠ []) (htext : s.Textual) (htext' : s'.Textual)
    (hfree : CollisionFree [s.encoding, s'.encoding]) : s.Alike s' := by
  obtain ⟨-, hidentity, -, hrecorded⟩ := gives_identified d s hs
  obtain ⟨-, hidentity', -, hrecorded'⟩ := gives_identified d' s' hs'
  have htexts : s.id.text = s'.id.text :=
    (hrecorded hne).symm.trans (hid.trans (hrecorded' (hid ▸ hne)))
  have hdigest : s.identity = s'.identity := by
    rw [← hidentity, ← hidentity', Identifier.text_injective htexts]
  exact Schema.alike_of_encoding_eq htext htext' (hfree _ (by simp) _ (by simp) hdigest)

/-- Documents that have one identifier and ask for the same clients and servers lead to the same
code, or to the same error, for every target and all options. -/
theorem generate_of_same_id (hs : d.toSchema = .ok s) (hs' : d'.toSchema = .ok s')
    (hid : d.id = d'.id) (hne : d.id ≠ []) (htext : s.Textual) (htext' : s'.Textual)
    (hfree : CollisionFree [s.encoding, s'.encoding]) (hsides : d.sides = d'.sides)
    (target : Bytes) (o : Options) : generate s' target o = generate s target o := by
  have halike := alike_of_same_id hs hs' hid hne htext htext' hfree
  obtain ⟨hfilled, -, hservices, -⟩ := gives_identified d s hs
  obtain ⟨hfilled', -, hservices', -⟩ := gives_identified d' s' hs'
  have heq : s'.services.map Service.sides = s.services.map Service.sides := by
    have hsome := hservices'.trans (hsides.symm.trans hservices.symm)
    rw [← Function.comp_def some, ← List.map_map, ← List.map_map] at hsome
    exact List.map_injective_iff.mpr (Option.some_injective _) hsome
  rw [← generate_rendered, halike.rendered_eq hfilled hfilled' heq, generate_rendered]

/-- Two documents that were made by different versions, and one that asks for no client; all have
the identifier of the first. The second leads to the same code, the third does not. -/
theorem generate_of_same_id_without_client :
    let v : Idl.Service := ⟨"S", [], [], [], .unknown, true, true, .zero, []⟩
    let r : Schema := { Schema.empty with package := "p", services := [v] }
    let s := r.identify
    let t := Schema.identify { r with parserVersion := "1" }
    let u := Schema.identify { r with services := [{ v with client := false }] }
    generate t "rust" {} = generate s "rust" {}
      ∧ (ofSchema u).toSchema = .ok u ∧ (ofSchema u).id = (ofSchema s).id
      ∧ generate u "rust" {} ≠ generate s "rust" {} := by
  intro v r s t u
  have hunknown : Pos.unknown.Portable := ⟨by decide, by decide⟩
  have hportable (client : Bool) (version : Bytes) : (Schema.identify { r with
      services := [{ v with client }], parserVersion := version }).Portable := by
    refine portable_identify nofun nofun fun w hw => ?_
    obtain rfl := List.mem_singleton.mp hw
    exact ⟨List.forall_mem_nil _, hunknown, List.forall_mem_nil _⟩
  have htextual (version : Bytes) :
      (Schema.identify { r with parserVersion := version }).Textual := by
    refine textual_identify ⟨rfl, nofun, nofun, fun w hw => ?_⟩
    obtain rfl := List.mem_singleton.mp hw
    exact ⟨by decide, List.forall_mem_nil _, List.forall_mem_nil _, List.forall_mem_nil _⟩
  have hne : (ofSchema s).id ≠ [] := by
    simp only [ofSchema, s, Schema.identify, Schema.identity, Identifier.digest, Sha256.hash_eq]
    decide +kernel
  -- one content, so nothing to collide
  have hfree : CollisionFree [s.encoding, t.encoding] := by
    have hencoding : t.encoding = s.encoding := rfl
    simp [CollisionFree, hencoding]
  refine ⟨?_, toSchema_ofSchema (hportable false []), rfl, generate_without_client_ne s.id _ _⟩
  exact generate_of_same_id (toSchema_ofSchema (hportable true []))
    (toSchema_ofSchema (hportable true "1")) rfl hne (htextual []) (htextual "1") hfree rfl
    "rust" {}

end Document

end Idl
