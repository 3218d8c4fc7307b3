import Idl.Bindings.RustView
import Idl.Proofs.Bindings.Naming
import Idl.Proofs.Bindings.Scope
import Idl.Proofs.Compile.Portable

/-!
# Names in a Rust file

The scopes of a Rust file are its types, its modules, the fields of each struct and the functions of
each trait. They are checked for names in the style of the target, and what is written out is such a
name with a mark if it is spelled like a reserved word. A few reserved words cannot be marked and
get an underscore behind them; where the name with the underscore is taken as well, it is declared
twice.

* §1 the view without its scopes, §2 the names of each scope, §3 what is given out,
* §4 a compiled schema, §5 reserved words, §6 the names of a file.
-/

namespace Idl

namespace RustView

open Bindings

/-! ## §1 The view without its scopes -/

/-- The Rust type of a type that the schema knows. -/
def knownType : Ty → Bytes
  | .scalar k => scalarType k
  | .message name => Naming.pascal name
  | .unassigned _ => []

/-- The view of a field. -/
def Field.of (f : Idl.Field) : Field :=
  let held := if f.type.isMessage then "Box<" ++ knownType f.type ++ ">" else knownType f.type
  let name := ident (Naming.snake f.name)
  { name, docs := f.docs, serde := serdeOf f name
    type := if f.optional then "Option<" ++ held ++ ">" else held }

/-- The view of a message. -/
def Message.of (m : Idl.Message) : Message where
  name := Naming.pascal m.name
  fields := m.fields.map .of
  docs := m.docs

/-- The view of an argument. -/
def Param.of (t : Ty) : Param :=
  let declared := parameterType (knownType t) t
  ⟨knownType t, declared, declared.head? == some 0x26⟩

/-- The view of a method. -/
def Method.of (m : Idl.Method) : Method where
  label := Naming.pascal m.name
  function := ident (Naming.snake m.name)
  input := m.input.map .of
  output := m.output.map knownType
  docs := m.docs

/-- The view of a service. -/
def Service.of (v : Idl.Service) : Service where
  name := Naming.pascal v.name
  module := ident (Naming.snake v.name)
  id := v.id.text
  canonical := v.canonical
  client := v.client
  server := v.server
  methods := v.methods.map .of
  docs := v.docs

/-- The view of a schema. -/
def of (s : Schema) (runtime : Bytes) : RustView where
  source := s.package
  runtime
  messages := s.messages.map .of
  services := s.services.map .of

/-! ## §2 The names of each scope -/

/-- The types that a service declares: its trait, and for a server and a client a type each. -/
def serviceNames (name : Bytes) (client server : Bool) : List Bytes :=
  [name] ++ (if server then [name ++ "Receiver"] else [])
    ++ (if client then [name ++ "Sender"] else [])

/-- These are the types that the view claims. -/
theorem declaredNames_eq (name : Bytes) (client server : Bool) :
    declaredNames name client server = serviceNames name client server := rfl

/-- The names of each type. -/
def topNames (s : Schema) : List (List Bytes) :=
  s.messages.map (fun m => [Naming.pascal m.name])
    ++ s.services.map fun v => serviceNames (Naming.pascal v.name) v.client v.server

/-- The names of the modules, before they are marked. -/
def moduleNames (s : Schema) : List Bytes := s.services.map fun v => Naming.snake v.name

/-- The names of the fields of a struct, before they are marked. -/
def fieldNames (m : Idl.Message) : List Bytes := m.fields.map fun f => Naming.snake f.name

/-- The names of the methods of a service on the wire. -/
def labels (v : Idl.Service) : List Bytes := v.methods.map fun m => Naming.pascal m.name

/-- No two entities of one scope have one name. -/
structure NamesApart (s : Schema) : Prop where
  top : Apart (topNames s)
  modules : (moduleNames s).Nodup
  fields : ∀ m ∈ s.messages, (fieldNames m).Nodup
  labels : ∀ v ∈ s.services, (labels v).Nodup

/-! ## §3 What is given out -/

section

variable {s : Schema}

theorem typeName_of_known {entity : Bytes} {t : Ty} (h : t.Known s) :
    typeName s entity t = .ok (knownType t) := by
  cases t with
  | scalar k => rfl
  | message name =>
    obtain ⟨m, hm, hname⟩ := h
    have hfound : (s.message? name).isSome = true :=
      List.find?_isSome.mpr ⟨m, hm, by simpa using hname⟩
    rw [typeName, if_pos hfound]
    rfl
  | unassigned n => cases h

theorem paramView_of_known {entity : Bytes} {t : Option Ty} (h : ∀ x ∈ t, x.Known s) :
    paramView s entity t = .ok (t.map .of) := by
  cases t with
  | none => rfl
  | some t =>
    rw [paramView, typeName_of_known (h t rfl)]
    rfl

theorem gives_fieldView (message : Bytes) {f : Idl.Field} (h : f.type.Known s) :
    Gives (fieldView s message f) [(Naming.snake f.name, message ++ "." ++ f.name)] True
      (.of f) := by
  unfold fieldView
  exact ((Gives.claim _ _ _).bind
    (.lift_bind (typeName_of_known h) (.pure (Field.of f)))).conseq (by simp) (by simp)

theorem gives_messageView {m : Idl.Message} (h : m.WellFormed s) :
    Gives (messageView s m) [(Naming.pascal m.name, m.name)] (fieldNames m).Nodup (.of m) := by
  unfold messageView
  have hfields := Gives.mapM_singleton (l := m.fields) fun f hf =>
    gives_fieldView m.name (h.fields f hf).type
  refine ((Gives.claim _ _ _).bind
    (.inNewScope_bind Scope.consistent_nil hfields (.pure (Message.of m)))).conseq (by simp) ?_
  rw [List.append_nil, consistent_members_iff h.names]
  simp [fieldNames]

/-- The type of a result, with what is done with it. -/
theorem gives_output {β : Type} {entity : Bytes} {t : Option Ty} {k : Option Bytes → Claiming β}
    {given : Scope} {inner : Prop} {b : β} (h : ∀ x ∈ t, x.Known s)
    (hk : Gives (k (t.map knownType)) given inner b) :
    Gives (match t with
      | none => pure none >>= k
      | some t => some <$> (liftM (typeName s entity t) : Claiming Bytes) >>= k) given inner b := by
  cases t with
  | none => exact hk
  | some t =>
    dsimp only
    rw [typeName_of_known (h t rfl)]
    exact hk

theorem gives_methodView (service : Bytes) {m : Idl.Method} (h : m.WellFormed s) :
    Gives (methodView s service m) [(Naming.pascal m.name, service ++ "." ++ m.name)] True
      (.of m) := by
  unfold methodView
  exact ((Gives.claim _ _ _).bind (.lift_bind (paramView_of_known h.input)
    (gives_output h.output (.pure (Method.of m))))).conseq (by simp) (by simp)

/-- The types of a service and what the service is called in messages about them. -/
def serviceScope (v : Idl.Service) : Scope :=
  (serviceNames (Naming.pascal v.name) v.client v.server).map fun name => (name, v.name)

/-- The modules of services and what the services are called in messages about them. -/
def moduleScope (l : List Idl.Service) : Scope := l.map fun v => (Naming.snake v.name, v.name)

theorem gives_serviceViews {l : List Idl.Service} (h : ∀ v ∈ l, v.WellFormed s)
    {modules : Scope} (hm : modules.Consistent) :
    Gives (serviceViews s modules l) (l.flatMap serviceScope)
      ((moduleScope l ++ modules).Consistent ∧ ∀ v ∈ l, (labels v).Nodup) (l.map .of) := by
  induction l generalizing modules with
  | nil => exact (Gives.pure []).conseq (fun _ => Iff.rfl) (by simpa [moduleScope] using hm)
  | cons v r ih =>
    obtain ⟨hv, hr⟩ := List.forall_mem_cons.mp h
    have hmethods := Gives.mapM_singleton (l := v.methods) fun m hm =>
      gives_methodView v.name (hv.methods m hm)
    -- what is left of the loop once the names of the module are claimed
    have hrest (m' : Scope) (hm' : m'.Consistent)
        (hmem : ∀ p, p ∈ m' ↔ p ∈ (Naming.snake v.name, v.name) :: modules) :
        Gives (do
          let methods ← inNewScope [] (v.methods.mapM (methodView s v.name))
          let view : Service := {
            name := Naming.pascal v.name, module := ident (Naming.snake v.name), methods
            id := v.id.text, canonical := v.canonical, client := v.client, server := v.server
            docs := v.docs }
          return view :: (← serviceViews s m' r)) (r.flatMap serviceScope)
          ((labels v).Nodup ∧ (moduleScope (v :: r) ++ modules).Consistent
            ∧ ∀ w ∈ r, (labels w).Nodup) ((v :: r).map .of) := by
      refine (Gives.inNewScope_bind Scope.consistent_nil hmethods
        ((ih hr hm').bind (.pure (Service.of v :: r.map .of)))).conseq (by simp) ?_
      have hmodules : (moduleScope r ++ m').Consistent
          ↔ (moduleScope (v :: r) ++ modules).Consistent :=
        Scope.consistent_congr fun p => by simp [moduleScope, hmem, or_left_comm]
      rw [List.append_nil, consistent_members_iff hv.names, hmodules]
      simp [labels]
    rw [serviceViews, declaredNames_eq]
    refine ((Gives.forM fun n _ => Gives.claim target v.name n).bind
      (.lift_claim_bind hm hrest)).conseq (by simp [serviceScope]) ?_
    have hfirst : (moduleScope (v :: r) ++ modules).Consistent →
        Scope.Consistent ((Naming.snake v.name, v.name) :: modules) := fun hall =>
      hall.mono fun p hp => by simp [moduleScope] at hp ⊢; tauto
    simp only [List.forall_mem_cons]
    tauto

/-! ## §4 A compiled schema -/

/-- The types of a file, and what they are called in messages about them. -/
def topItems (s : Schema) : List (Bytes × List Bytes) :=
  s.messages.map (fun m => (m.name, [Naming.pascal m.name]))
    ++ s.services.map fun v => (v.name, serviceNames (Naming.pascal v.name) v.client v.server)

/-- What the view of a schema gives out. -/
theorem gives_of (hwell : s.WellFormed) (runtime : Bytes) :
    Gives (do
        let messages ← s.messages.mapM (messageView s)
        let services ← serviceViews s [] s.services
        return { runtime, messages, services, source := s.package })
      (entriesOf (topItems s))
      ((∀ m ∈ s.messages, (fieldNames m).Nodup) ∧ (moduleNames s).Nodup
        ∧ ∀ v ∈ s.services, (labels v).Nodup)
      (of s runtime) := by
  -- fields are claimed in scopes of their own, services share one
  have hmessages := Gives.mapM (l := s.messages) fun m hm =>
    gives_messageView (hwell.messages m hm)
  have hservices := gives_serviceViews (fun v hv => hwell.services v hv) Scope.consistent_nil
  refine (hmessages.bind (hservices.bind (.pure (of s runtime)))).conseq ?_ ?_
  · intro p
    simp [entriesOf, topItems, serviceScope, List.flatMap_map]
  · -- no two services have one name, so a clash is one of casing
    have hentities : ((moduleScope s.services).map (·.2)).Nodup := by
      simpa [moduleScope, Function.comp_def] using hwell.names.of_append_right
    rw [List.append_nil, consistent_iff_nodup hentities]
    simp [moduleScope, moduleNames, Function.comp_def]

/-- If there is a view, it is the view without scopes, and the names are apart. -/
theorem eq_of_of_ofSchema (hwell : s.WellFormed) {o : Options} {v : RustView}
    (h : ofSchema s o = .ok v) : NamesApart s ∧ ∃ runtime, v = of s runtime := by
  unfold ofSchema at h
  cases hruntime : runtimeOf o with
  | error e =>
    rw [hruntime] at h
    cases h
  | ok runtime =>
    -- the view is built when the option of the runtime is good
    have hview : inNewScope [] (do
        let messages ← s.messages.mapM (messageView s)
        let services ← serviceViews s [] s.services
        return { runtime, messages, services, source := s.package }) = .ok v := by
      rw [hruntime] at h
      exact h
    obtain ⟨hok, herror⟩ := (gives_of hwell runtime).inNewScope Scope.consistent_nil
    rw [List.append_nil, topItems, consistent_entriesOf_append_iff hwell.names, ← topNames]
      at hok herror
    -- the names are apart, or the view is refused
    by_cases hapart : Apart (topNames s) ∧ (∀ m ∈ s.messages, (fieldNames m).Nodup)
        ∧ (moduleNames s).Nodup ∧ ∀ v ∈ s.services, (labels v).Nodup
    · have heq := hok hapart
      rw [hview] at heq
      obtain ⟨htop, hfields, hmodules, hlabels⟩ := hapart
      exact ⟨⟨htop, hmodules, hfields, hlabels⟩, runtime, Except.ok.inj heq⟩
    · obtain ⟨e, heq, -⟩ := herror hapart
      rw [hview] at heq
      cases heq

end

/-! ## §5 Reserved words -/

/-- No name is a reserved word that cannot be marked while another name is that word with the
underscore it gets. -/
def Unreserved (names : List Bytes) : Prop := ∀ w ∈ reserved, w ∈ names → w ++ "_" ∉ names

theorem ident_of_reserved {w : Bytes} (h : w ∈ reserved) :
    ident w = w ++ "_" ∧ ident (w ++ "_") = w ++ "_" := by
  revert w
  decide

/-- A name is written out with an underscore, with a mark, or as it is. -/
theorem ident_cases (x : Bytes) :
    (x ∈ reserved ∧ ident x = x ++ "_") ∨ ident x = rawMark ++ x ∨ ident x = x := by
  unfold ident
  split
  · next h => exact .inl ⟨List.contains_iff_mem.mp h, rfl⟩
  · split
    · exact .inr (.inl rfl)
    · exact .inr (.inr rfl)

/-- Two names become one only if one is a reserved word and the other is that word with an
underscore. -/
theorem eq_of_ident_eq {x y : Bytes} (hx : Naming.IsPlain x) (hy : Naming.IsPlain y)
    (h : ident x = ident y) (hxy : x ∈ reserved → y ≠ x ++ "_")
    (hyx : y ∈ reserved → x ≠ y ++ "_") : x = y := by
  -- a plain name does not begin with the mark of a raw identifier
  have hmark {z w : Bytes} (hz : Naming.IsPlain z) : z ≠ rawMark ++ w := by
    rintro rfl
    exact absurd (hz 0x23 (List.mem_append_left _ (by decide))) (by decide)
  have hunder {z : Bytes} (hz : Naming.IsPlain z) : Naming.IsPlain (z ++ "_") :=
    hz.append Naming.restyled_underscore.plain
  -- three forms on each side: with a line behind, raw, or as it is
  rcases ident_cases x with ⟨hxres, hidx⟩ | hidx | hidx <;>
    rcases ident_cases y with ⟨hyres, hidy⟩ | hidy | hidy <;> rw [hidx, hidy] at h
  · exact List.append_cancel_right h
  · exact absurd h (hmark (hunder hx))
  · exact absurd h.symm (hxy hxres)
  · exact absurd h.symm (hmark (hunder hy))
  · exact List.append_cancel_left h
  · exact absurd h.symm (hmark hy)
  · exact absurd h (hyx hyres)
  · exact absurd h (hmark hx)
  · exact h

/-- Different names are different as they are written out, unless one looks like another one that is
reserved. -/
theorem nodup_map_ident_iff {names : List Bytes} (hplain : ∀ x ∈ names, Naming.IsPlain x)
    (h : names.Nodup) : (names.map ident).Nodup ↔ Unreserved names := by
  constructor
  · -- the two names would be written in one way, though one is longer
    intro hnodup w hw hmem hunder
    obtain ⟨hident, hident'⟩ := ident_of_reserved hw
    have heq := List.inj_on_of_nodup_map hnodup hmem hunder (hident.trans hident'.symm)
    have hlength := congrArg List.length heq
    rw [List.length_append] at hlength
    have hone : ("_" : Bytes).length = 1 := by decide
    omega
  · intro hall
    refine h.map_on fun x hx y hy heq => ?_
    refine eq_of_ident_eq (hplain x hx) (hplain y hy) heq ?_ ?_
    · rintro hres rfl
      exact hall x hres hx hy
    · rintro hres rfl
      exact hall y hres hy hx

/-! ## §6 The names of a file -/

/-- The types that a file declares. -/
def declared (v : RustView) : List Bytes :=
  v.messages.map (·.name) ++ v.services.flatMap fun w => serviceNames w.name w.client w.server

/-- The names of the functions of a trait, before they are marked. -/
def functionNames (v : Idl.Service) : List Bytes := v.methods.map fun m => Naming.snake m.name

theorem nodup_serviceNames (name : Bytes) (client server : Bool) :
    (serviceNames name client server).Nodup := by
  have hsender : ("Receiver" : Bytes).length = 8 ∧ ("Sender" : Bytes).length = 6 := by decide
  -- the names have different lengths
  have hlength {x y : Bytes} (h : x.length ≠ y.length) : x ≠ y := fun heq => h (congrArg _ heq)
  have hall : [name, name ++ "Receiver", name ++ "Sender"].Nodup := by
    simp only [List.nodup_cons, List.mem_cons, List.not_mem_nil, or_false, not_or,
      not_false_eq_true, List.nodup_nil, and_true]
    refine ⟨⟨?_, ?_⟩, ?_⟩ <;> apply hlength <;> simp only [List.length_append, hsender] <;> omega
  have hsub : (serviceNames name client server).Sublist
      [name, name ++ "Receiver", name ++ "Sender"] := by
    cases client <;> cases server <;> simp [serviceNames]
  exact hall.sublist hsub

section

variable {s : Schema}

theorem nodup_declared (h : Apart (topNames s)) (runtime : Bytes) :
    (of s runtime).declared.Nodup := by
  have hall := nodup_of_apart (fun v _ => nodup_serviceNames _ v.client v.server) h
  simpa [declared, of, Message.of, Service.of, List.flatMap_map, Function.comp_def] using hall

/-- Labels are made from the names of functions. -/
theorem nodup_functionNames {v : Idl.Service} (h : (labels v).Nodup) : (functionNames v).Nodup := by
  have heq : labels v = (functionNames v).map fun x =>
      Utf8.ofChars (Naming.capitalize (Utf8.chars x)) := by
    simp [labels, functionNames, Naming.pascal, Function.comp_def]
  rw [heq] at h
  exact h.of_map _

theorem plain_snake {name : Bytes} (h : Bytes.IsName name) : Naming.IsPlain (Naming.snake name) :=
  (Naming.restyled_snake h.2).plain

/-- A file for a compiled schema declares no type and no label twice. Its modules, the fields of
each struct and the functions of each trait are different exactly if no two of them are a reserved
word and that word with an underscore. -/
theorem nodup_iff_unreserved {src sourcePath : Bytes} {allowMissingPackage : Bool}
    {c : Compilation} (h : compileSource src sourcePath allowMissingPackage = .ok c)
    (hs : c.outcome = .ok s) {o : Options} {v : RustView} (hv : ofSchema s o = .ok v) :
    v.declared.Nodup
      ∧ (∀ w ∈ v.services, (w.methods.map (·.label)).Nodup)
      ∧ ((v.services.map (·.module)).Nodup ↔ Unreserved (moduleNames s))
      ∧ v.messages = s.messages.map .of
      ∧ (∀ m ∈ s.messages,
          ((Message.of m).fields.map (·.name)).Nodup ↔ Unreserved (fieldNames m))
      ∧ v.services = s.services.map .of
      ∧ ∀ w ∈ s.services,
          ((Service.of w).methods.map (·.function)).Nodup ↔ Unreserved (functionNames w) := by
  have hnamed := named_of_compileSource h hs
  obtain ⟨hapart, runtime, rfl⟩ := eq_of_of_ofSchema (compileSource_wellFormed h hs) hv
  refine ⟨nodup_declared hapart.top runtime, fun w hw => ?_, ?_, rfl, fun m hm => ?_, rfl,
    fun w hw => ?_⟩
  · obtain ⟨x, hx, rfl⟩ := List.mem_map.mp hw
    simpa [Service.of, Method.of, labels, Function.comp_def] using hapart.labels x hx
  -- escaping makes two names equal only if one of them is reserved
  · have heq : (of s runtime).services.map (·.module) = (moduleNames s).map ident := by
      simp [of, Service.of, moduleNames, Function.comp_def]
    rw [heq]
    refine nodup_map_ident_iff (fun x hx => ?_) hapart.modules
    obtain ⟨w, hw, rfl⟩ := List.mem_map.mp hx
    exact plain_snake (hnamed.services w hw)
  · have heq : (Message.of m).fields.map (·.name) = (fieldNames m).map ident := by
      simp [Message.of, Field.of, fieldNames, Function.comp_def]
    rw [heq]
    refine nodup_map_ident_iff (fun x hx => ?_) (hapart.fields m hm)
    obtain ⟨f, hf, rfl⟩ := List.mem_map.mp hx
    exact plain_snake (hnamed.fields m hm f hf)
  · have heq : (Service.of w).methods.map (·.function) = (functionNames w).map ident := by
      simp [Service.of, Method.of, functionNames, Function.comp_def]
    rw [heq]
    refine nodup_map_ident_iff (fun x hx => ?_) (nodup_functionNames (hapart.labels w hw))
    obtain ⟨m, hm, rfl⟩ := List.mem_map.mp hx
    exact plain_snake (hnamed.methods w hw m hm)

end

/-- A message with the fields `self` and `self_`: there is a view, which has the field `self_`
twice. -/
theorem nodup_iff_unreserved_self :
    ∃ c s v, compileSource "package p;message M\x7bint32 self;int32 self_;\x7d" [] false = .ok c
      ∧ c.outcome = .ok s ∧ ofSchema s {} = .ok v
      ∧ ∃ m ∈ v.messages, ¬(m.fields.map (·.name)).Nodup := by
  have hok : (compileSource "package p;message M\x7bint32 self;int32 self_;\x7d" []
      false).toOption.any (·.outcome.toOption.any fun s => (ofSchema s {}).isOk
        && s.messages.any fun m => fieldNames m == ["self", "self_"]) = true := by
    decide +kernel
  obtain ⟨c, s, hc, hs, hany⟩ := exists_outcome_of_any hok
  obtain ⟨hview, hfields⟩ := Bool.and_eq_true_iff.mp hany
  obtain ⟨m, hm, hnames⟩ := List.any_eq_true.mp hfields
  cases hv : ofSchema s {} with
  | error e => simp [hv, Except.isOk, Except.toBool] at hview
  | ok v =>
    obtain ⟨-, -, -, hmessages, hmarked, -⟩ := nodup_iff_unreserved hc hs hv
    refine ⟨c, s, v, hc, hs, hv, .of m, ?_, fun hnodup => ?_⟩
    · rw [hmessages]
      exact List.mem_map_of_mem hm
    · have hall := (hmarked m hm).mp hnodup "self" (by decide)
      rw [beq_iff_eq.mp hnames] at hall
      exact absurd hall (by decide)

end RustView

end Idl
