import Idl.Bindings.GoView
import Idl.Proofs.Bindings.Naming
import Idl.Proofs.Bindings.Scope
import Idl.Proofs.Compile.Portable

/-!
# Names in a Go file

A Go file declares no name twice, and it is refused only if two entities of one scope would have one
name, or if an option cannot be used. The scopes are the top level, the fields of each struct and
the methods of each service; the methods share theirs with the fields of the client.

* §1 the view without its scopes, §2 the names of each scope,
* §3 what is given out, §4 entities that can be told apart,
* §5 options, §6 the names of a compiled schema.
-/

namespace Idl

namespace GoView

open Bindings

/-! ## §1 The view without its scopes -/

/-- The Go type of a type that the schema knows. -/
def knownType : Ty → Bytes
  | .scalar k => scalarType k
  | .message name => Naming.pascal name
  | .unassigned _ => []

/-- The view of a field. -/
def Field.of (f : Idl.Field) : Field where
  name := Naming.pascal f.name
  type :=
    if f.type.isMessage || (f.optional && f.type != .scalar .bytes) then "*" ++ knownType f.type
    else knownType f.type
  wireName := f.name
  omitEmpty := f.optional || f.type.isMessage
  docs := f.docs

/-- The view of a message. -/
def Message.of (m : Idl.Message) : Message where
  name := Naming.pascal m.name
  fields := m.fields.map .of
  docs := m.docs

/-- The view of an argument or a result. -/
def Param.of (t : Ty) : Param := ⟨knownType t, t.isMessage, zeroValue t⟩

/-- The view of a method. -/
def Method.of (m : Idl.Method) : Method where
  name := Naming.pascal m.name
  input := m.input.map .of
  output := m.output.map .of
  docs := m.docs

/-- The view of a service. -/
def Service.of (v : Idl.Service) : Service where
  name := Naming.pascal v.name
  id := v.id.text
  canonical := v.canonical
  client := v.client
  server := v.server
  methods := v.methods.map .of
  docs := v.docs

/-- The view of a schema. -/
def of (s : Schema) (package rpcImport : Bytes) : GoView where
  package
  source := s.package
  rpcImport
  messages := s.messages.map .of
  services := s.services.map .of

/-! ## §2 The names of each scope -/

/-- The names that a service declares at the top level: its interface, its identifier and its schema,
and for a server and a client a type and the function that makes one. -/
def serviceNames (name : Bytes) (client server : Bool) : List Bytes :=
  [name, name ++ "SchemaID", name ++ "Schema"]
    ++ (if server then [name ++ "Receiver", "New" ++ name ++ "Receiver"] else [])
    ++ (if client then [name ++ "Client", "New" ++ name ++ "Client"] else [])

/-- These are the names that the view claims. -/
theorem declaredNames_eq (name : Bytes) (client server : Bool) :
    declaredNames name client server = serviceNames name client server := rfl

/-- The names of each declaration at the top level. -/
def topNames (s : Schema) : List (List Bytes) :=
  s.messages.map (fun m => [Naming.pascal m.name])
    ++ s.services.map fun v => serviceNames (Naming.pascal v.name) v.client v.server

/-- The names of the fields of a struct. -/
def fieldNames (m : Idl.Message) : List Bytes := m.fields.map fun f => Naming.pascal f.name

/-- The fields of a client, if there is one. -/
def clientFields (client : Bool) : List Bytes := if client then ["Transport", "Codec"] else []

/-- The names of the methods of a service and of the fields of its client. -/
def methodNames (v : Idl.Service) : List Bytes :=
  v.methods.map (fun m => Naming.pascal m.name) ++ clientFields v.client

/-- No two entities of one scope have one name. -/
structure NamesApart (s : Schema) : Prop where
  top : Apart (topNames s)
  fields : ∀ m ∈ s.messages, (fieldNames m).Nodup
  methods : ∀ v ∈ s.services, (methodNames v).Nodup

/-! ## §3 What is given out -/

section

variable {s : Schema}

theorem typeName_of_known {entity : Bytes} {t : Ty} (h : t.Known s) :
    typeName s entity t = .ok (knownType t) := by
  cases t with
  | scalar k => rfl
  | message name =>
    obtain ⟨m, hm, hname⟩ := h
    have hfound : (s.message? name).isSome = true :=
      List.find?_isSome.mpr ⟨m, hm, by simpa using hname⟩
    rw [typeName, if_pos hfound]
    rfl
  | unassigned n => cases h

theorem paramView_of_known {entity : Bytes} {t : Option Ty} (h : ∀ x ∈ t, x.Known s) :
    paramView s entity t = .ok (t.map .of) := by
  cases t with
  | none => rfl
  | some t =>
    rw [paramView, typeName_of_known (h t rfl)]
    rfl

theorem gives_fieldView (message : Bytes) {f : Idl.Field} (h : f.type.Known s) :
    Gives (fieldView s message f) [(Naming.pascal f.name, message ++ "." ++ f.name)] True
      (.of f) := by
  unfold fieldView
  exact ((Gives.claim _ _ _).bind
    (.lift_bind (typeName_of_known h) (.pure (Field.of f)))).conseq (by simp) (by simp)

theorem gives_messageView {m : Idl.Message} (h : m.WellFormed s) :
    Gives (messageView s m) [(Naming.pascal m.name, m.name)] (fieldNames m).Nodup (.of m) := by
  unfold messageView
  have hfields := Gives.mapM_singleton (l := m.fields) fun f hf =>
    gives_fieldView m.name (h.fields f hf).type
  refine ((Gives.claim _ _ _).bind
    (.inNewScope_bind Scope.consistent_nil hfields (.pure (Message.of m)))).conseq (by simp) ?_
  rw [List.append_nil, consistent_members_iff h.names]
  simp [fieldNames]

theorem gives_methodView (service : Bytes) {m : Idl.Method} (h : m.WellFormed s) :
    Gives (methodView s service m) [(Naming.pascal m.name, service ++ "." ++ m.name)] True
      (.of m) := by
  unfold methodView
  exact ((Gives.claim _ _ _).bind (.lift_bind (paramView_of_known h.input)
    (.lift_bind (paramView_of_known h.output) (.pure (Method.of m))))).conseq (by simp) (by simp)

/-- The names of the methods of a service and of the fields of its client, and what they are called
in messages about them. -/
def methodScope (v : Idl.Service) : Scope :=
  v.methods.map (fun m => (Naming.pascal m.name, v.name ++ "." ++ m.name))
    ++ clientScope (Naming.pascal v.name) v.client

theorem clientScope_eq (name : Bytes) (client : Bool) :
    clientScope name client = (clientFields client).map fun f => (f, name ++ "Client." ++ f) := by
  cases client <;> rfl

theorem nodup_clientFields (client : Bool) : (clientFields client).Nodup := by
  cases client <;> decide

theorem map_fst_methodScope (v : Idl.Service) : (methodScope v).map (·.1) = methodNames v := by
  simp [methodScope, methodNames, clientScope_eq, Function.comp_def]

/-- The view of a service claims the names of its declarations, and of its methods in a scope of
their own. -/
theorem gives_serviceView {v : Idl.Service} (h : v.WellFormed s)
    (hentities : ((methodScope v).map (·.2)).Nodup) :
    Gives (serviceView s v)
      ((serviceNames (Naming.pascal v.name) v.client v.server).map fun n => (n, v.name))
      (methodNames v).Nodup (.of v) := by
  unfold serviceView
  simp only [declaredNames_eq]
  have hmethods := Gives.mapM_singleton (l := v.methods) fun m hm =>
    gives_methodView v.name (h.methods m hm)
  -- the fields of the client are in that scope before the methods
  have hclient : (clientScope (Naming.pascal v.name) v.client).Consistent := by
    rw [methodScope, List.map_append] at hentities
    refine (consistent_iff_nodup hentities.of_append_right).mpr ?_
    rw [clientScope_eq, List.map_map]
    exact (nodup_clientFields v.client).map fun _ _ h => h
  refine ((Gives.forM fun n _ => Gives.claim target v.name n).bind
    (.inNewScope_bind hclient hmethods (.pure (Service.of v)))).conseq (by simp) ?_
  rw [← methodScope, consistent_iff_nodup hentities, map_fst_methodScope]
  simp

end

/-! ## §4 Entities that can be told apart -/

theorem nodup_serviceNames (name : Bytes) (client server : Bool) :
    (serviceNames name client server).Nodup := by
  have hall : (serviceNames name true true).Nodup := by
    -- names of different lengths differ, and names of one length end differently
    have hlength {x y : Bytes} (h : x.length ≠ y.length) : x ≠ y := fun heq => h (congrArg _ heq)
    have hreceiver : name ++ "SchemaID" ≠ name ++ "Receiver" := fun heq =>
      absurd (List.append_cancel_left heq) (by decide)
    have hclient : name ++ "Schema" ≠ name ++ "Client" := fun heq =>
      absurd (List.append_cancel_left heq) (by decide)
    have hlengths : ("SchemaID" : Bytes).length = 8 ∧ ("Schema" : Bytes).length = 6
        ∧ ("Receiver" : Bytes).length = 8 ∧ ("Client" : Bytes).length = 6
        ∧ ("New" : Bytes).length = 3 := by decide
    simp only [serviceNames, if_true, List.cons_append, List.nil_append, List.nodup_cons,
      List.mem_cons, List.not_mem_nil, or_false, not_or, not_false_eq_true, List.nodup_nil,
      and_true]
    refine ⟨⟨?_, ?_, ?_, ?_, ?_, ?_⟩, ⟨?_, hreceiver, ?_, ?_, ?_⟩, ⟨?_, ?_, hclient, ?_⟩,
      ⟨?_, ?_, ?_⟩, ⟨?_, ?_⟩, ?_⟩ <;> apply hlength <;>
      simp only [List.length_append, hlengths] <;> omega
  have hsub : (serviceNames name client server).Sublist (serviceNames name true true) := by
    cases client <;> cases server <;> simp [serviceNames]
  exact hall.sublist hsub

/-- A method and a field of the client are called by different names in messages about them, since
the name of a service in Go has no more letters and digits than the service. -/
theorem entity_ne {service method field : Bytes} (h : Naming.IsPlain service) :
    service ++ "." ++ method ≠ Naming.pascal service ++ "Client." ++ field := by
  intro heq
  have hpascal := Naming.restyled_pascal h
  have hclient : Naming.IsPlain "Client" := by
    unfold Naming.IsPlain
    decide +kernel
  have hmark : ("Client." : Bytes) = ("Client" : Bytes) ++ ("." : Bytes) := by decide
  have hsplit : service ++ (0x2E : UInt8) :: method
      = (Naming.pascal service ++ "Client") ++ (0x2E : UInt8) :: field := by
    rw [hmark] at heq
    simpa [show ("." : Bytes) = [(0x2E : UInt8)] from by decide] using heq
  have hservice := Naming.IsPlain.eq_of_append (by decide) h (hpascal.plain.append hclient) hsplit
  -- both names would have the letters of the service, and one of them those of Client besides
  have hcore := congrArg (fun x => (Naming.core x).length) hservice
  simp only [Naming.core_append, hpascal.core, List.length_append] at hcore
  have hlength : (Naming.core "Client").length = 6 := by decide
  omega

theorem nodup_methodScope {v : Idl.Service} (h : (v.methods.map (·.name)).Nodup)
    (hname : Naming.IsPlain v.name) : ((methodScope v).map (·.2)).Nodup := by
  have heq : (methodScope v).map (·.2) = (v.methods.map fun m => v.name ++ "." ++ m.name)
      ++ (clientFields v.client).map (Naming.pascal v.name ++ "Client." ++ ·) := by
    simp [methodScope, clientScope_eq, Function.comp_def]
  rw [heq, List.nodup_append]
  refine ⟨nodup_members h v.name,
    (nodup_clientFields v.client).map fun _ _ => List.append_cancel_left, fun x hx y hy => ?_⟩
  obtain ⟨m, -, rfl⟩ := List.mem_map.mp hx
  obtain ⟨f, -, rfl⟩ := List.mem_map.mp hy
  exact entity_ne hname

/-- The declarations at the top level and what they are called in messages about them. -/
def topItems (s : Schema) : List (Bytes × List Bytes) :=
  s.messages.map (fun m => (m.name, [Naming.pascal m.name]))
    ++ s.services.map fun v => (v.name, serviceNames (Naming.pascal v.name) v.client v.server)

/-! ## §5 Options -/

section

variable {s : Schema} {o : Options}

/-- The package name, whether the caller or the schema chooses it, can be declared. -/
def PackageUsable (s : Schema) (o : Options) : Prop :=
  match o.get? "package" with
  | some name => isIdentifier name = true
  | none => ∀ path, s.option? "go_package" = some (.text path) →
      isIdentifier (packageOfPath path) = true

/-- The options name a package and an import path. -/
structure Usable (s : Schema) (o : Options) : Prop where
  package : PackageUsable s o
  rpcImport : o.get? "rpc_import" ≠ some []

theorem packageName_ok (h : PackageUsable s o) : ∃ name, packageName s o = .ok name := by
  unfold PackageUsable at h
  unfold packageName
  split
  · next name hname =>
    rw [hname] at h
    exact ⟨name, if_pos h⟩
  · next hnone =>
    rw [hnone] at h
    split
    · next path hpath => exact ⟨_, if_pos (h path hpath)⟩
    · exact ⟨_, rfl⟩

/-- A package that cannot be used is refused. -/
theorem packageName_error (h : ¬PackageUsable s o) :
    ∃ e, packageName s o = .error e ∧ e.cause.code = 5006 := by
  unfold PackageUsable at h
  unfold packageName
  split
  · -- it was given as an option
    next name hname =>
    rw [hname] at h
    exact ⟨_, if_neg h, rfl⟩
  · -- it was told by the schema
    next hnone =>
    rw [hnone] at h
    push Not at h
    obtain ⟨path, hpath, hword⟩ := h
    rw [hpath]
    exact ⟨_, if_neg hword, rfl⟩

theorem rpcImportOf_ok (h : o.get? "rpc_import" ≠ some []) : ∃ path, rpcImportOf o = .ok path := by
  unfold rpcImportOf
  split
  · next hempty => exact absurd hempty h
  · exact ⟨_, rfl⟩
  · exact ⟨_, rfl⟩

theorem rpcImportOf_error (h : o.get? "rpc_import" = some []) :
    ∃ e, rpcImportOf o = .error e ∧ e.cause.code = 5006 := by
  rw [rpcImportOf, h]
  exact ⟨_, rfl, rfl⟩

/-- Options that cannot be used are refused, whatever the names are. -/
theorem ofSchema_of_not_usable (h : ¬Usable s o) :
    ∃ e, ofSchema s o = .error e ∧ e.cause.code = 5006 := by
  unfold ofSchema
  -- the package is looked at first, then the path of the library
  by_cases hpackage : PackageUsable s o
  · obtain ⟨name, hname⟩ := packageName_ok hpackage
    have hempty : o.get? "rpc_import" = some [] := by
      by_contra hne
      exact h ⟨hpackage, hne⟩
    obtain ⟨e, herror, hcode⟩ := rpcImportOf_error hempty
    refine ⟨e, ?_, hcode⟩
    rw [hname, herror]
    rfl
  · obtain ⟨e, herror, hcode⟩ := packageName_error hpackage
    refine ⟨e, ?_, hcode⟩
    rw [herror]
    rfl

/-! ## §6 A compiled schema -/

/-- What the view of a schema gives out. -/
theorem gives_of (hwell : s.WellFormed) (hnamed : s.Named) (package rpcImport : Bytes) :
    Gives (do
        let messages ← s.messages.mapM (messageView s)
        let services ← s.services.mapM (serviceView s)
        return { package, rpcImport, messages, services, source := s.package })
      (entriesOf (topItems s))
      ((∀ m ∈ s.messages, (fieldNames m).Nodup) ∧ ∀ v ∈ s.services, (methodNames v).Nodup)
      (of s package rpcImport) := by
  have hmessages := Gives.mapM (l := s.messages) fun m hm =>
    gives_messageView (hwell.messages m hm)
  -- the messages claim before the services, all in one scope
  have hservices := Gives.mapM (l := s.services) fun v hv =>
    gives_serviceView (hwell.services v hv)
      (nodup_methodScope (hwell.services v hv).names (hnamed.services v hv).2)
  refine (hmessages.bind (hservices.bind (.pure (of s package rpcImport)))).conseq ?_ (by simp)
  intro p
  simp [entriesOf, topItems, List.flatMap_map]

/-- With options that can be used, names decide about the view. -/
theorem ofSchema_of_usable (hwell : s.WellFormed) (hnamed : s.Named) (h : Usable s o) :
    (NamesApart s → ∃ package rpcImport, ofSchema s o = .ok (of s package rpcImport))
      ∧ (¬NamesApart s → ∃ e, ofSchema s o = .error e ∧ e.cause.code = 5003) := by
  obtain ⟨package, hpackage⟩ := packageName_ok h.package
  obtain ⟨rpcImport, hrpc⟩ := rpcImportOf_ok h.rpcImport
  obtain ⟨hok, herror⟩ :=
    (gives_of hwell hnamed package rpcImport).inNewScope Scope.consistent_nil
  rw [List.append_nil, topItems, consistent_entriesOf_append_iff hwell.names, ← topNames]
    at hok herror
  -- with usable options only the names are left to decide
  have hview : ofSchema s o = inNewScope [] (do
      let messages ← s.messages.mapM (messageView s)
      let services ← s.services.mapM (serviceView s)
      return { package, rpcImport, messages, services, source := s.package }) := by
    rw [ofSchema, hpackage, hrpc]
    rfl
  rw [hview]
  exact ⟨fun hapart => ⟨package, rpcImport, hok ⟨hapart.top, hapart.fields, hapart.methods⟩⟩,
    fun hne => herror fun hall => hne ⟨hall.1, hall.2.1, hall.2.2⟩⟩

/-- The view of a compiled schema is the view without scopes, and its names are apart. -/
theorem eq_of_of_ofSchema (hwell : s.WellFormed) (hnamed : s.Named) {v : GoView}
    (h : ofSchema s o = .ok v) :
    NamesApart s ∧ ∃ package rpcImport, v = of s package rpcImport := by
  -- a view that is given was refused by neither check
  by_cases husable : Usable s o
  · obtain ⟨hok, herror⟩ := ofSchema_of_usable hwell hnamed husable
    by_cases hapart : NamesApart s
    · obtain ⟨package, rpcImport, heq⟩ := hok hapart
      rw [heq] at h
      exact ⟨hapart, package, rpcImport, (Except.ok.inj h).symm⟩
    · obtain ⟨e, heq, -⟩ := herror hapart
      rw [heq] at h
      cases h
  · obtain ⟨e, heq, -⟩ := ofSchema_of_not_usable husable
    rw [heq] at h
    cases h

end

/-- The names that a file declares at the top level. -/
def declared (v : GoView) : List Bytes :=
  v.messages.map (·.name) ++ v.services.flatMap fun w => serviceNames w.name w.client w.server

/-- A file declares no name twice: not at the top level, not in a struct, not in an interface, and
no method is called like a field of the client. -/
structure Distinct (v : GoView) : Prop where
  declared : v.declared.Nodup
  fields : ∀ m ∈ v.messages, (m.fields.map (·.name)).Nodup
  methods : ∀ w ∈ v.services, (w.methods.map (·.name)).Nodup
  client : ∀ w ∈ v.services, w.client = true → ∀ m ∈ w.methods,
    m.name ≠ "Transport" ∧ m.name ≠ "Codec"

/-- The view of names that are apart is distinct. -/
theorem distinct_of {s : Schema} (h : NamesApart s) (package rpcImport : Bytes) :
    (of s package rpcImport).Distinct := by
  -- the methods of a service and the fields of its client share a scope
  have hmethods (v : Idl.Service) : ((Service.of v).methods.map (·.name)) ++ clientFields v.client
      = methodNames v := by
    simp [Service.of, Method.of, methodNames, Function.comp_def]
  refine ⟨?_, fun m hm => ?_, fun w hw => ?_, fun w hw hclient m hm => ?_⟩
  · have hall := nodup_of_apart (fun v _ => nodup_serviceNames _ v.client v.server) h.top
    simpa [declared, of, Message.of, Service.of, List.flatMap_map, Function.comp_def] using hall
  · obtain ⟨x, hx, rfl⟩ := List.mem_map.mp hm
    simpa [Message.of, Field.of, fieldNames, Function.comp_def] using h.fields x hx
  all_goals
    obtain ⟨x, hx, rfl⟩ := List.mem_map.mp hw
    have hnodup := h.methods x hx
    rw [← hmethods] at hnodup
  · exact hnodup.of_append_left
  · have hdisjoint := List.disjoint_of_nodup_append hnodup (List.mem_map_of_mem hm)
    have hfields : clientFields x.client = ["Transport", "Codec"] := if_pos hclient
    simpa [hfields] using hdisjoint

/-- A file for a compiled schema declares no name twice. If the options can be used, it is refused
exactly if two entities of a scope have one name, and that is what the error says; if they cannot,
the error says so. -/
theorem distinct_of_compileSource {src sourcePath : Bytes} {allowMissingPackage : Bool}
    {c : Compilation} {s : Schema} (h : compileSource src sourcePath allowMissingPackage = .ok c)
    (hs : c.outcome = .ok s) (o : Options) :
    (∀ v, ofSchema s o = .ok v → v.Distinct)
      ∧ (Usable s o → ((∃ e, ofSchema s o = .error e) ↔ ¬NamesApart s)
        ∧ ∀ e, ofSchema s o = .error e → e.cause.code = 5003)
      ∧ (¬Usable s o → ∃ e, ofSchema s o = .error e ∧ e.cause.code = 5006) := by
  have hwell := compileSource_wellFormed h hs
  have hnamed := named_of_compileSource h hs
  refine ⟨fun v hv => ?_, fun husable => ?_, ofSchema_of_not_usable⟩
  · -- a view is given only where the names are apart
    obtain ⟨hapart, package, rpcImport, rfl⟩ := eq_of_of_ofSchema hwell hnamed hv
    exact distinct_of hapart package rpcImport
  · obtain ⟨hok, herror⟩ := ofSchema_of_usable hwell hnamed husable
    by_cases hapart : NamesApart s
    · obtain ⟨package, rpcImport, heq⟩ := hok hapart
      simp [heq, hapart]
    · obtain ⟨e, heq, hcode⟩ := herror hapart
      simp [heq, hapart, hcode]

/-- A service next to a message that is almost called like its client: there is a view, which
declares no name twice. With an import path that is empty there is none. -/
theorem distinct_of_compileSource_client :
    ∃ c s, compileSource ("package p;message client_bar\x7bbool get;client_bar x;\x7d"
        ++ "service Bar\x7brpc send(client_bar)->bool;\x7d") [] false = .ok c ∧ c.outcome = .ok s
      ∧ (∃ v, ofSchema s {} = .ok v ∧ v.Distinct)
      ∧ ∃ e, ofSchema s { values := [("rpc_import", [])] } = .error e ∧ e.cause.code = 5006 := by
  have hok : (compileSource ("package p;message client_bar\x7bbool get;client_bar x;\x7d"
      ++ "service Bar\x7brpc send(client_bar)->bool;\x7d") [] false).toOption.any
        (·.outcome.toOption.any fun s => (ofSchema s {}).isOk) = true := by decide +kernel
  obtain ⟨c, s, hc, hs, hview⟩ := exists_outcome_of_any hok
  refine ⟨c, s, hc, hs, ?_, ?_⟩
  · -- the view is computed; that it is distinct is the theorem
    cases hv : ofSchema s {} with
    | error e => simp [hv, Except.isOk, Except.toBool] at hview
    | ok v => exact ⟨v, rfl, (distinct_of_compileSource hc hs {}).1 v hv⟩
  · exact (distinct_of_compileSource hc hs _).2.2 fun h => h.rpcImport (by decide)

end GoView

end Idl
