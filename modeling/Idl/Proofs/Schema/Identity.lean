import Idl.Proofs.Document.Conversion
import Idl.Proofs.Hash.Numbers

/-!
# What the identifier of a service stands for

The identifier of a service is the digest of its encoding followed by the digest of the encoding of
all types. A digest has a fixed length, so that the two parts can be told apart without a mark
between them. As far as digests tell texts apart, the identifier then stands for exactly the service
and the types: other services do not count, and neither does anything that says where something was
declared.

* §1 where something was declared, §2 what is filled in,
* §3 digests without collisions, §4 the identifier of a service.
-/

namespace Idl

/-! ## §1 Where something was declared -/

/-- The annotations but those that say where something was declared. -/
def Annot.unsourced (l : List Annot) : List Annot := l.filter (·.name != sourceName)

/-- The field without where it was declared. -/
def Field.unsourced (f : Field) : Field :=
  { f with source := .unknown, annots := Annot.unsourced f.annots }

/-- The message without where it and its fields were declared. -/
def Message.unsourced (m : Message) : Message :=
  { m with source := .unknown, annots := Annot.unsourced m.annots,
           fields := m.fields.map Field.unsourced }

/-- The method without where it was declared. -/
def Method.unsourced (m : Method) : Method :=
  { m with source := .unknown, annots := Annot.unsourced m.annots }

/-- The service without where it and its methods were declared, without what is generated for it and
without what is filled in. -/
def Service.unsourced (v : Service) : Service :=
  { v with source := .unknown, annots := Annot.unsourced v.annots,
           methods := v.methods.map Method.unsourced,
           client := false, server := false, id := .zero, canonical := [] }

/-- What all services of a schema depend on, without where it was declared. -/
def Schema.types (s : Schema) : Schema :=
  { Schema.empty with
    package := s.package
    annots := Annot.unsourced s.annots
    messages := s.messages.map Message.unsourced }

namespace Canonical

@[simp]
theorem annots_unsourced (l : List Annot) : annots (Annot.unsourced l) = annots l := by
  simp [annots, Annot.unsourced, List.filter_filter]

@[simp]
theorem field_unsourced (f : Field) : field f.unsourced = field f := by
  simp [field, Field.unsourced]

@[simp]
theorem message_unsourced (m : Message) : message m.unsourced = message m := by
  simp [message, Message.unsourced, Function.comp_def]

@[simp]
theorem method_unsourced (m : Method) : method m.unsourced = method m := by
  simp [method, Method.unsourced]

@[simp]
theorem service_unsourced (v : Service) : service v.unsourced = service v := by
  simp [service, Service.unsourced, Function.comp_def]

end Canonical

theorem Service.encoding_unsourced (v : Service) : v.unsourced.encoding = v.encoding := by
  rw [encoding, encoding, Canonical.service_unsourced]

theorem Schema.typesEncoding_types (s : Schema) : s.types.typesEncoding = s.typesEncoding := by
  have hmessages : (s.messages.map Message.unsourced).map Canonical.message
      = s.messages.map Canonical.message := by
    rw [List.map_map]
    exact List.map_congr_left fun m _ => Canonical.message_unsourced m
  simp only [typesEncoding, Canonical.typeMembers, types, hmessages, Canonical.annots_unsourced]

/-! ## §2 What is filled in -/

namespace Schema

/-- The service with what belongs to it filled in. -/
def filled (s : Schema) (v : Service) : Service :=
  { v with canonical := v.encoding, id := s.serviceIdentity v }

theorem encoding_filled (s : Schema) (v : Service) : (s.filled v).encoding = v.encoding := rfl

theorem unsourced_filled (s : Schema) (v : Service) : (s.filled v).unsourced = v.unsourced := rfl

theorem typesEncoding_identify (s : Schema) : s.identify.typesEncoding = s.typesEncoding := rfl

theorem services_identify (s : Schema) : s.identify.services = s.services.map s.filled := rfl

theorem mem_identify {s : Schema} {v : Service} (hv : v ∈ s.services) :
    s.filled v ∈ s.identify.services := List.mem_map_of_mem hv

/-- Identifying a schema changes no more than what it fills in. -/
theorem identify_keeps (s : Schema) :
    { s.identify with services := s.services, id := s.id } = s
      ∧ List.Forall₂ (fun v w : Service => { w with id := v.id, canonical := v.canonical } = v)
          s.services s.identify.services := by
  refine ⟨rfl, ?_⟩
  rw [services_identify, List.forall₂_map_right_iff, List.forall₂_same]
  exact fun v _ => rfl

/-- What is filled in belongs to the schema that it is filled in. -/
theorem identify_fills (s : Schema) {v : Service} (hv : v ∈ s.identify.services) :
    v.canonical = v.encoding ∧ v.id = s.identify.serviceIdentity v := by
  obtain ⟨u, -, rfl⟩ := List.mem_map.mp hv
  exact ⟨rfl, rfl⟩

theorem identify_id (s : Schema) : s.identify.id = s.identify.identity := by
  rw [← congrArg id (Document.identify_identify s)]
  rfl

end Schema

/-! ## §3 Digests without collisions -/

/-- Of these texts, no two different ones have the same digest. -/
def CollisionFree (texts : List Bytes) : Prop :=
  ∀ x ∈ texts, ∀ y ∈ texts, Identifier.digest x = Identifier.digest y → x = y

/-- It is enough that the digests begin with different octets. -/
theorem collisionFree_of_nodup {texts : List Bytes}
    (h : (texts.map fun x => (Identifier.digest x).octets.head?).Nodup) : CollisionFree texts :=
  fun _ hx _ hy heq => List.inj_on_of_nodup_map h hx hy (congrArg (·.octets.head?) heq)

/-- The texts whose digests make the identifier of a service. -/
def Schema.hashed (s : Schema) (v : Service) : List Bytes :=
  [s.typesEncoding, v.encoding ++ (Identifier.digest s.typesEncoding).octets]

theorem Schema.hashed_filled (s t : Schema) (v : Service) :
    s.identify.hashed (t.filled v) = s.hashed v := rfl

/-- The digest at the end of a text can be told from what stands in front of it. -/
theorem Identifier.append_octets_inj {x y : Bytes} {i j : Identifier}
    (h : x ++ i.octets = y ++ j.octets) : x = y ∧ i = j := by
  obtain ⟨hx, hi⟩ := List.append_inj' h (i.size.trans j.size.symm)
  cases i
  cases j
  exact ⟨hx, by cases hi; rfl⟩

theorem Schema.serviceIdentity_eq_iff {s t : Schema} {v w : Service}
    (h : CollisionFree (s.hashed v ++ t.hashed w)) :
    s.serviceIdentity v = t.serviceIdentity w
      ↔ v.encoding = w.encoding ∧ s.typesEncoding = t.typesEncoding := by
  constructor
  · intro heq
    -- the outer digest first, which gives the inner one
    have htexts := h _ (by simp [hashed]) _ (by simp [hashed]) heq
    obtain ⟨hservice, htypes⟩ := Identifier.append_octets_inj htexts
    exact ⟨hservice, h _ (by simp [hashed]) _ (by simp [hashed]) htypes⟩
  · rintro ⟨hservice, htypes⟩
    rw [serviceIdentity, serviceIdentity, hservice, htypes]

/-! ## §4 The identifier of a service -/

/-- Identifying a schema fills in the encoding and the identifier of each service and the identifier
of the schema, no more than that, and once and for all. As far as digests tell the texts in question
apart, two services have the same identifier exactly if their encodings and the encodings of the
types of their schemas are the same. Neither other services nor anything that says where something
was declared counts. -/
theorem identify_exact :
    (∀ s : Schema, s.identify.id = s.identify.identity ∧ s.identify.identify = s.identify
      ∧ (∀ v ∈ s.identify.services,
          v.canonical = v.encoding ∧ v.id = s.identify.serviceIdentity v)
      ∧ { s.identify with services := s.services, id := s.id } = s
      ∧ List.Forall₂ (fun v w : Service => { w with id := v.id, canonical := v.canonical } = v)
          s.services s.identify.services)
    ∧ ∀ s t : Schema, ∀ v ∈ s.identify.services, ∀ w ∈ t.identify.services,
      (CollisionFree (s.identify.hashed v ++ t.identify.hashed w) →
        (v.id = w.id
          ↔ v.encoding = w.encoding ∧ s.identify.typesEncoding = t.identify.typesEncoding))
      ∧ (s.types = t.types → v.unsourced = w.unsourced → v.id = w.id) := by
  refine ⟨fun s => ?_, fun s t v hv w hw => ⟨fun hfree => ?_, fun htypes hsame => ?_⟩⟩
  · exact ⟨s.identify_id, Document.identify_identify s, fun v hv => s.identify_fills hv,
      s.identify_keeps⟩
  · rw [(s.identify_fills hv).2, (t.identify_fills hw).2]
    exact Schema.serviceIdentity_eq_iff hfree
  · have hencoding : v.encoding = w.encoding := by
      rw [← v.encoding_unsourced, hsame, w.encoding_unsourced]
    have htypesEncoding : s.typesEncoding = t.typesEncoding := by
      rw [← s.typesEncoding_types, htypes, t.typesEncoding_types]
    rw [(s.identify_fills hv).2, (t.identify_fills hw).2]
    change Identifier.digest (v.encoding ++ (Identifier.digest s.typesEncoding).octets)
      = .digest (w.encoding ++ (Identifier.digest t.typesEncoding).octets)
    rw [hencoding, htypesEncoding]

/-- A service in two schemas, of which the second has one more message, and in a third one with
another service in front and another path. -/
theorem identify_exact_types :
    let svc : Service := ⟨"S", [], [], [], ⟨1, 20⟩, true, true, .zero, []⟩
    let s : Schema := { Schema.empty with package := "p", services := [svc] }
    let t : Schema := { s with messages := [⟨"M", [], [], [], ⟨1, 1⟩⟩] }
    let u : Schema := { s with services := [{ svc with name := "T" }, svc], sourcePath := "f" }
    ∃ v ∈ s.identify.services, ∃ w ∈ t.identify.services, ∃ x ∈ u.identify.services,
      CollisionFree (s.identify.hashed v ++ t.identify.hashed w)
        ∧ v.encoding = w.encoding ∧ v.id ≠ w.id ∧ v.id = x.id := by
  intro svc s t u
  have hv : s.filled svc ∈ s.identify.services := Schema.mem_identify (by simp [s])
  have hw : t.filled svc ∈ t.identify.services := Schema.mem_identify (by simp [s, t])
  have hx : u.filled svc ∈ u.identify.services := Schema.mem_identify (by simp [u])
  have hheads : (s.hashed svc ++ t.hashed svc).map (fun x => (Identifier.digest x).octets.head?)
      = [some 11, some 151, some 181, some 16] := by
    simp only [Schema.hashed, Identifier.digest, Sha256.hash_eq]
    decide +kernel
  have hfree : CollisionFree (s.hashed svc ++ t.hashed svc) :=
    collisionFree_of_nodup (hheads ▸ by decide)
  have htypes : s.typesEncoding ≠ t.typesEncoding := by decide +kernel
  have hencoding : (s.filled svc).encoding = (t.filled svc).encoding :=
    (s.encoding_filled svc).trans (t.encoding_filled svc).symm
  have hunsourced : (s.filled svc).unsourced = (u.filled svc).unsourced :=
    (s.unsourced_filled svc).trans (u.unsourced_filled svc).symm
  obtain ⟨hexact, -⟩ := identify_exact.2 s t _ hv _ hw
  obtain ⟨-, hsame⟩ := identify_exact.2 s u _ hv _ hx
  rw [Schema.hashed_filled, Schema.hashed_filled, Schema.typesEncoding_identify,
    Schema.typesEncoding_identify] at hexact
  refine ⟨_, hv, _, hw, _, hx, ?_, hencoding, fun heq => ?_, hsame rfl hunsourced⟩
  · rwa [Schema.hashed_filled, Schema.hashed_filled]
  · exact htypes ((hexact hfree).mp heq).2

end Idl
