import Idl.Proofs.Document.Textual
import Idl.Proofs.Schema.Alike
import Idl.Proofs.Schema.Textual

/-!
# The canonical encoding is exact

Two schemas of well-formed text have the same canonical encoding exactly if they are alike. The
text of a plain JSON value can be read back, so that it is enough to compare the values.

* §1 canonical values of schemas,
* §2 what says where and how a schema came about,
* §3 exactness.
-/

namespace Idl

/-! ## §1 Canonical values of schemas -/

namespace Canonical

open Json (Plain member)

/-- The value whose text is the canonical encoding. -/
def schema (s : Schema) : Json :=
  .obj (typeMembers s ++ [member "services" (.arr (s.services.map service))])

theorem plain_schema {s : Schema} (h : s.Textual) : Plain 10 (schema s) := by
  refine plain_obj ?_
  unfold typeMembers
  simp only [List.cons_append, List.forall_mem_append, List.forall_mem_cons]
  refine ⟨⟨rfl, .str h.package⟩, ⟨fun x hx => (plain_annots h.annots x hx).mono (by decide),
    ⟨rfl, .arr fun v hv => ?_⟩, nofun⟩, ⟨rfl, .arr fun v hv => ?_⟩, nofun⟩
  · obtain ⟨m, hm, rfl⟩ := List.mem_map.mp hv
    exact plain_message (h.messages m hm)
  · obtain ⟨svc, hsvc, rfl⟩ := List.mem_map.mp hv
    exact plain_service (h.services svc hsvc)

/-- Schemas have the same canonical value exactly if they are alike. -/
theorem schema_eq_iff (s t : Schema) : schema s = schema t ↔ s.Alike t := by
  let rest (u : Schema) : List (Bytes × Json) :=
    [("messages", .arr (u.messages.map message)), ("services", .arr (u.services.map service))]
  have hhead (u : Schema) : ∀ m ∈ (rest u).head?, m.1 ≠ "annotations" := by
    rintro _ ⟨⟩
    have hkey : ("messages" : Bytes) ≠ "annotations" := by decide
    exact hkey
  have hrest : rest s = rest t ↔ List.Forall₂ Message.Alike s.messages t.messages
      ∧ List.Forall₂ Service.Alike s.services t.services := by
    rw [← map_eq_map_iff message_eq_iff, ← map_eq_map_iff service_eq_iff]
    simp [rest]
  have hparts (u : Schema) :
      schema u = .obj (("package", .str u.package) :: (annots u.annots ++ rest u)) := by
    simp [schema, typeMembers, member, rest]
  rw [hparts, hparts, Json.obj.injEq, List.cons.injEq, annots_append_eq_iff (hhead s) (hhead t),
    hrest, Schema.alike_iff]
  simp

end Canonical

/-! ## §2 Where and how a schema came about -/

/-- The message without positions. -/
def Message.bare (m : Message) : Message :=
  { m with source := .unknown, fields := m.fields.map ({ · with source := .unknown }) }

/-- The service without positions, without what is generated for it and without what has been
filled in. -/
def Service.bare (s : Service) : Service :=
  { s with source := .unknown, client := false, server := false, id := .zero, canonical := [],
           methods := s.methods.map ({ · with source := .unknown }) }

/-- The schema without anything that says where and how it came about. -/
def Schema.bare (s : Schema) : Schema :=
  { s with parserVersion := [], sourcePath := [], id := .zero,
           messages := s.messages.map Message.bare, services := s.services.map Service.bare }

theorem Message.canonical_bare (m : Message) : Canonical.message m.bare = Canonical.message m := by
  rw [Canonical.message, Canonical.message, bare, List.map_map]
  rfl

theorem Service.canonical_bare (s : Service) : Canonical.service s.bare = Canonical.service s := by
  rw [Canonical.service, Canonical.service, bare, List.map_map]
  rfl

theorem Schema.canonical_bare (s : Schema) : Canonical.schema s.bare = Canonical.schema s := by
  have hmessages : s.bare.messages.map Canonical.message = s.messages.map Canonical.message := by
    rw [bare, List.map_map]
    exact List.map_congr_left fun m _ => m.canonical_bare
  have hservices : s.bare.services.map Canonical.service = s.services.map Canonical.service := by
    rw [bare, List.map_map]
    exact List.map_congr_left fun svc _ => svc.canonical_bare
  rw [Canonical.schema, Canonical.schema, Canonical.typeMembers, Canonical.typeMembers, hmessages,
    hservices]
  rfl

/-! ## §3 Exactness -/

/-- The canonical encoding tells schemas of well-formed text apart exactly if they are not alike;
every schema that is read is such a schema, and nothing that says where or how a schema came about
counts. -/
theorem encoding_eq_iff_alike :
    (∀ s t : Schema, s.Textual → t.Textual → (s.encoding = t.encoding ↔ s.Alike t))
      ∧ (∀ (text : Bytes) (s : Schema), Schema.ofJsonText text = .ok s → s.Textual)
      ∧ ∀ s : Schema, s.bare.encoding = s.encoding := by
  refine ⟨fun s t hs ht => ?_, fun text s => Document.textual_of_ofJsonText, fun s => ?_⟩
  · rw [← Canonical.schema_eq_iff]
    constructor
    · intro h
      exact (Canonical.plain_schema hs).eq_of_compact_eq (Canonical.plain_schema ht) (by decide) h
    · intro h
      exact congrArg Json.compact h
  · exact congrArg Json.compact s.canonical_bare

/-- Two schemas with the named values of an annotation in different orders, an annotation that does
not count and a path that does not count; and a text with a stray octet. -/
theorem encoding_eq_iff_alike_reordered :
    let s : Schema := { Schema.empty with
      package := "p"
      annots := [⟨"a", none, [⟨"y", .int 1⟩, ⟨"x", .ident "u"⟩]⟩, ⟨Annot.sourceName, none, []⟩] }
    let t : Schema := { Schema.empty with
      package := "p"
      sourcePath := "f"
      annots := [⟨"a", none, [⟨"x", .ident "u"⟩, ⟨"y", .int 1⟩]⟩] }
    let text : Bytes := "\x7b\"package\":\"" ++ ([0xFF] : Bytes) ++ "\"\x7d"
    s.Textual ∧ t.Textual ∧ s.encoding = t.encoding ∧ s.Alike t
      ∧ ∃ u, Schema.ofJsonText text = .ok u ∧ u.Textual := by
  intro s t text
  have hsource : Annot.Textual ⟨Annot.sourceName, none, []⟩ := ⟨rfl, nofun, nofun, nofun⟩
  have hs : s.Textual := by
    refine ⟨rfl, List.forall_mem_cons.mpr ⟨⟨rfl, nofun, by decide, ?_⟩, ?_⟩, nofun, nofun⟩
    · exact List.forall_mem_cons.mpr ⟨trivial, List.forall_mem_cons.mpr ⟨rfl, nofun⟩⟩
    · exact List.forall_mem_cons.mpr ⟨hsource, nofun⟩
  have ht : t.Textual := by
    refine ⟨rfl, List.forall_mem_cons.mpr ⟨⟨rfl, nofun, by decide, ?_⟩, nofun⟩, nofun, nofun⟩
    exact List.forall_mem_cons.mpr ⟨rfl, List.forall_mem_cons.mpr ⟨trivial, nofun⟩⟩
  -- under each key there is one value, whichever of the two pairs comes first
  have hpairs (key : Bytes) : Annot.valuesOf ⟨"a", none, [⟨"y", .int 1⟩, ⟨"x", .ident "u"⟩]⟩ key
      = Annot.valuesOf ⟨"a", none, [⟨"x", .ident "u"⟩, ⟨"y", .int 1⟩]⟩ key := by
    by_cases hkey : ("x" : Bytes) = key
    · subst hkey
      rfl
    · simp [Annot.valuesOf, List.filter_cons, hkey]
  have hannots : AnnotsAlike s.annots t.annots := by
    refine .cons ⟨rfl, .none, fun key => ?_⟩ .nil
    rw [hpairs]
    exact List.forall₂_same.mpr fun v _ => .refl v
  have halike : s.Alike t := ⟨rfl, hannots, .nil, .nil⟩
  have hok : (Schema.ofJsonText text).isOk = true := by decide +kernel
  refine ⟨hs, ht, (encoding_eq_iff_alike.1 s t hs ht).mpr halike, halike, ?_⟩
  cases hu : Schema.ofJsonText text with
  | error e =>
    rw [hu] at hok
    cases hok
  | ok u => exact ⟨u, rfl, encoding_eq_iff_alike.2.1 _ u hu⟩

end Idl
