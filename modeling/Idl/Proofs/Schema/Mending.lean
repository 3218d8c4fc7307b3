import Idl.Proofs.Compile.Portable
import Idl.Proofs.Document.Reading
import Idl.Proofs.Schema.Sourced

/-!
# Stray octets in texts

JSON cannot hold a text that is not well formed: it is written with U+FFFD in place of each stray
octet, in the canonical encoding as well as in an export. So a schema has the same encodings, the
same identifiers and the same exports as the one with these texts mended.

A schema that comes from a source is exported as JSON, compactly or with indentation, and the text is
always read again. What is read is the schema with its texts mended, under the same identifiers. So
nothing is lost exactly if the texts and the path of the source are well formed.

* §1 mending, §2 values with the same text,
* §3 canonical encodings, §4 exports,
* §5 mended schemas, §6 schemas that need no mending, §7 export and import.
-/

namespace Idl

/-! ## §1 Mending -/

/-- The constant with U+FFFD in place of stray octets in a text. -/
def Value.mend : Value → Value
  | .text s => .text (Utf8.sanitize s)
  | v => v

/-- The named value with its text mended. -/
def Pair.mend (p : Pair) : Pair := { p with value := p.value.mend }

/-- The annotation with its texts mended. -/
def Annot.mend (a : Annot) : Annot :=
  { a with value := a.value.map Value.mend, pairs := a.pairs.map Pair.mend }

/-- The field with its texts mended. -/
def Field.mend (f : Field) : Field :=
  { f with docs := f.docs.map Utf8.sanitize, annots := f.annots.map Annot.mend }

/-- The message with its texts mended. -/
def Message.mend (m : Message) : Message :=
  { m with fields := m.fields.map Field.mend, docs := m.docs.map Utf8.sanitize,
           annots := m.annots.map Annot.mend }

/-- The method with its texts mended. -/
def Method.mend (m : Method) : Method :=
  { m with docs := m.docs.map Utf8.sanitize, annots := m.annots.map Annot.mend }

/-- The service with its texts mended, under the same identifier. -/
def Service.mend (s : Service) : Service :=
  { s with methods := s.methods.map Method.mend, docs := s.docs.map Utf8.sanitize,
           annots := s.annots.map Annot.mend }

/-- The schema with its texts mended, the path of its source among them, under the same
identifier. -/
def Schema.mend (s : Schema) : Schema :=
  { s with messages := s.messages.map Message.mend, services := s.services.map Service.mend,
           annots := s.annots.map Annot.mend, sourcePath := Utf8.sanitize s.sourcePath }

/-- A mended text is well formed. -/
theorem Utf8.isValid_sanitize (b : Bytes) : isValid (sanitize b) = true := isValid_ofChars _

/-- Exactly the well-formed texts need no mending. -/
theorem Utf8.sanitize_eq_self_iff {b : Bytes} : sanitize b = b ↔ isValid b = true := by
  refine ⟨fun h => ?_, ofChars_chars⟩
  rw [← h]
  exact isValid_sanitize b

/-- Mending makes no text empty. -/
theorem Utf8.sanitize_eq_nil_iff {b : Bytes} : sanitize b = [] ↔ b = [] := by
  refine ⟨fun h => ?_, ?_⟩
  · have hchars : chars b = [] := by
      rw [← chars_ofChars (chars b)]
      exact congrArg chars h
    cases b with
    | nil => rfl
    | cons a r =>
      rw [chars, glyphs_cons] at hchars
      cases hchars
  · rintro rfl
    rfl

/-! ## §2 Values with the same text -/

namespace Json

/-- Values that are written in the same way, compactly and with indentation. -/
structure SameText (v w : Json) : Prop where
  compact : v.compact = w.compact
  indented : ∀ markup depth, v.indented markup depth = w.indented markup depth

theorem SameText.refl (v : Json) : SameText v v := ⟨rfl, fun _ _ => rfl⟩

/-- A mended text is written like the text itself. -/
theorem sameText_sanitize (s : Bytes) : SameText (.str (Utf8.sanitize s)) (.str s) := by
  refine ⟨?_, fun markup depth => ?_⟩
  · rw [Json.compact, Json.compact, writeString_sanitize]
  · rw [Json.indented, Json.indented, writeString_sanitize]

/-- Lists are written alike if their elements are. -/
theorem joined_congr {α : Type} {write : α → Bytes} {R : α → α → Prop} {l m : List α}
    (h : List.Forall₂ R l m) (hwrite : ∀ a b, R a b → write a = write b) :
    joined write l = joined write m := by
  induction h with
  | nil => rfl
  | @cons a b l m head tail ih =>
    cases tail with
    | nil => exact hwrite a b head
    | cons head' tail' => rw [joined_cons_cons, joined_cons_cons, hwrite a b head, ih]

/-- Lists of values with the same texts have the same text. -/
theorem sameText_arr {l m : List Json} (h : List.Forall₂ SameText l m) :
    SameText (.arr l) (.arr m) := by
  refine ⟨?_, fun markup depth => ?_⟩
  · rw [Json.compact, Json.compact, compactItems_eq, compactItems_eq,
      joined_congr h fun v w hvw => hvw.compact]
  · cases h with
    | nil => rfl
    | cons head tail =>
      rw [Json.indented, Json.indented, indentedItems_eq, indentedItems_eq,
        joined_congr (.cons head tail) fun v w hvw => by rw [hvw.indented]]

/-- Members of the same names with values that are written in the same way. -/
structure SameMember (m n : Bytes × Json) : Prop where
  key : m.1 = n.1
  value : SameText m.2 n.2

theorem SameMember.refl (m : Bytes × Json) : SameMember m m := ⟨rfl, .refl _⟩

theorem sameMembers_refl (l : List (Bytes × Json)) : List.Forall₂ SameMember l l :=
  List.forall₂_same.mpr fun m _ => .refl m

/-- Objects with the same members have the same text. -/
theorem sameText_obj {l m : List (Bytes × Json)} (h : List.Forall₂ SameMember l m) :
    SameText (.obj l) (.obj m) := by
  refine ⟨?_, fun markup depth => ?_⟩
  · rw [Json.compact, Json.compact, compactMembers_eq, compactMembers_eq,
      joined_congr h fun v w hvw => by rw [compactMember, compactMember, hvw.key, hvw.value.compact]]
  · cases h with
    | nil => rfl
    | cons head tail =>
      rw [Json.indented, Json.indented, indentedMembers_eq, indentedMembers_eq,
        joined_congr (.cons head tail) fun v w hvw => by
          rw [indentedMember, indentedMember, hvw.key, hvw.value.indented]]

/-- What is written for mended parts is what is written for the parts. -/
theorem sameText_map {α : Type} {f : α → Json} {mend : α → α} (h : ∀ a, SameText (f (mend a)) (f a))
    (l : List α) : List.Forall₂ SameText ((l.map mend).map f) (l.map f) := by
  rw [List.map_map, List.forall₂_map_left_iff, List.forall₂_map_right_iff]
  exact List.forall₂_same.mpr fun a _ => h a

/-- Lists that are left out when empty. -/
theorem sameMembers_list (key : Bytes) {l m : List Json} (h : List.Forall₂ SameText l m) :
    List.Forall₂ SameMember (if l.isEmpty then [] else [(key, .arr l)])
      (if m.isEmpty then [] else [(key, .arr m)]) := by
  cases h with
  | nil => exact .nil
  | cons head tail => exact .cons ⟨rfl, sameText_arr (.cons head tail)⟩ .nil

theorem sameMembers_single (key : Bytes) {v w : Json} (h : SameText v w) :
    List.Forall₂ SameMember [member key v] [member key w] := .cons ⟨rfl, h⟩ .nil

end Json

/-! ## §3 Canonical encodings -/

namespace Canonical

open Json (SameText SameMember sameText_sanitize sameText_arr sameText_obj sameText_map
  sameMembers_refl sameMembers_list sameMembers_single member)

theorem sameText_value (v : Value) : SameText (value v.mend) (value v) := by
  cases v with
  | text s => exact sameText_arr (.cons (.refl _) (.cons (sameText_sanitize s) .nil))
  | _ => exact .refl _

/-- Mending values does not change the order of their keys. -/
theorem sortedPairs_mend (l : List Pair) :
    sortedPairs (l.map Pair.mend) = (sortedPairs l).map Pair.mend := by
  unfold sortedPairs
  exact (List.map_mergeSort (f := Pair.mend) fun p _ q _ => rfl).symm

theorem sameText_annot (a : Annot) : SameText (annot a.mend) (annot a) := by
  have hpair (p : Pair) : SameText (.arr [.str p.mend.key, value p.mend.value])
      (.arr [.str p.key, value p.value]) :=
    sameText_arr (.cons (.refl _) (.cons (sameText_value p.value) .nil))
  have hpairs : List.Forall₂ SameMember
      (listMember "pairs" ((sortedPairs (a.pairs.map Pair.mend)).map
        fun p => .arr [.str p.key, value p.value]))
      (listMember "pairs" ((sortedPairs a.pairs).map fun p => .arr [.str p.key, value p.value])) := by
    rw [sortedPairs_mend]
    exact sameMembers_list "pairs" (sameText_map hpair _)
  obtain ⟨name, single, pairs⟩ := a
  refine sameText_obj (List.rel_append (.cons (.refl _) ?_) hpairs)
  cases single with
  | none => exact .nil
  | some v => exact sameMembers_single "value" (sameText_value v)

/-- The members for annotations have the same text after mending. -/
theorem sameMembers_annots (l : List Annot) :
    List.Forall₂ SameMember (annots (l.map Annot.mend)) (annots l) := by
  unfold annots
  rw [List.filter_map]
  exact sameMembers_list "annotations" (sameText_map sameText_annot _)

theorem sameMembers_docs (l : List Bytes) :
    List.Forall₂ SameMember (docs (l.map Utf8.sanitize)) (docs l) :=
  sameMembers_list "docs" (sameText_map sameText_sanitize l)

/-- A field has the same canonical text after mending. -/
theorem sameText_field (f : Field) : SameText (field f.mend) (field f) :=
  sameText_obj (List.rel_append (List.rel_append (sameMembers_refl _) (sameMembers_docs f.docs))
    (sameMembers_annots f.annots))

theorem sameText_message (m : Message) : SameText (message m.mend) (message m) :=
  sameText_obj (List.rel_append (List.rel_append (.cons (.refl _) (sameMembers_docs m.docs))
    (sameMembers_annots m.annots))
    (sameMembers_single "fields" (sameText_arr (sameText_map sameText_field m.fields))))

theorem sameText_method (m : Method) : SameText (method m.mend) (method m) :=
  sameText_obj (List.rel_append (List.rel_append (sameMembers_refl _) (sameMembers_docs m.docs))
    (sameMembers_annots m.annots))

theorem sameText_service (s : Service) : SameText (service s.mend) (service s) :=
  sameText_obj (List.rel_append (List.rel_append (.cons (.refl _) (sameMembers_docs s.docs))
    (sameMembers_annots s.annots))
    (sameMembers_single "methods" (sameText_arr (sameText_map sameText_method s.methods))))

theorem sameMembers_types (s : Schema) :
    List.Forall₂ SameMember (typeMembers s.mend) (typeMembers s) :=
  List.rel_append (.cons (.refl _) (sameMembers_annots s.annots))
    (sameMembers_single "messages" (sameText_arr (sameText_map sameText_message s.messages)))

end Canonical

/-- So a service is encoded alike after mending. -/
theorem Service.encoding_mend (s : Service) : s.mend.encoding = s.encoding :=
  (Canonical.sameText_service s).compact

namespace Schema

/-- And so are the types of a schema. -/
theorem typesEncoding_mend (s : Schema) : s.mend.typesEncoding = s.typesEncoding :=
  (Json.sameText_obj (Canonical.sameMembers_types s)).compact

/-- Stray octets in texts do not count for the canonical encoding. -/
theorem encoding_mend (s : Schema) : s.mend.encoding = s.encoding := by
  have hservices := Json.sameMembers_single "services"
    (Json.sameText_arr (Json.sameText_map Canonical.sameText_service s.services))
  exact (Json.sameText_obj (List.rel_append (Canonical.sameMembers_types s) hservices)).compact

/-- To mend what is identified gives what is identified. -/
theorem identify_mend (s : Schema) : s.mend.identify = s.identify.mend := by
  unfold identify identity
  rw [typesEncoding_mend, encoding_mend]
  simp only [mend, List.map_map, Schema.mk.injEq, true_and, and_true]
  refine List.map_congr_left fun svc _ => ?_
  simp only [Function.comp_apply, Service.encoding_mend]
  rfl

end Schema

/-! ## §4 Exports -/

namespace Document

open Json (SameText SameMember sameText_sanitize sameText_arr sameText_obj sameText_map
  sameMembers_refl sameMembers_list sameMembers_single member)

theorem sameText_value (v : Idl.Value) :
    SameText (Value.ofSchema v.mend).toJson (Value.ofSchema v).toJson := by
  cases v with
  | text s => exact sameText_obj (.cons (.refl _) (.cons ⟨rfl, sameText_sanitize s⟩ .nil))
  | _ => exact .refl _

/-- The entries of a list of a document. -/
theorem sameText_entries {α β : Type} {f : α → β} {g : β → Json} {mend : α → α}
    (h : ∀ a, SameText (g (f (mend a))) (g (f a))) (l : List α) :
    List.Forall₂ SameText (((l.map mend).map fun a => some (f a)).map (orNull g))
      ((l.map fun a => some (f a)).map (orNull g)) := by
  simp only [List.forall₂_map_left_iff, List.forall₂_map_right_iff]
  exact List.forall₂_same.mpr fun a _ => h a

theorem sameText_pair (p : Idl.Pair) :
    SameText (Pair.ofSchema p.mend).toJson (Pair.ofSchema p).toJson :=
  sameText_obj (.cons (.refl _) (sameMembers_single "value" (sameText_value p.value)))

theorem sameText_annot (a : Idl.Annot) :
    SameText (Annot.ofSchema a.mend).toJson (Annot.ofSchema a).toJson := by
  obtain ⟨name, single, pairs⟩ := a
  refine sameText_obj (List.rel_append (.cons (.refl _) ?_)
    (sameMembers_list "pairs" (sameText_entries sameText_pair pairs)))
  cases single with
  | none => exact .nil
  | some v => exact sameMembers_single "value" (sameText_value v)

theorem sameMembers_annots (l : List Idl.Annot) :
    List.Forall₂ SameMember (annotsMember (annotsOfSchema (l.map Idl.Annot.mend)))
      (annotsMember (annotsOfSchema l)) :=
  sameMembers_list "annotations" (sameText_entries sameText_annot l)

theorem sameMembers_docs (l : List Bytes) :
    List.Forall₂ SameMember (docsMember (l.map Utf8.sanitize)) (docsMember l) :=
  sameMembers_list "docs" (sameText_map sameText_sanitize l)

theorem sameText_field (f : Idl.Field) :
    SameText (Field.ofSchema f.mend).toJson (Field.ofSchema f).toJson :=
  sameText_obj (List.rel_append (List.rel_append (List.rel_append (sameMembers_refl _)
    (sameMembers_docs f.docs)) (sameMembers_annots f.annots)) (sameMembers_refl _))

theorem sameText_message (m : Idl.Message) :
    SameText (Message.ofSchema m.mend).toJson (Message.ofSchema m).toJson :=
  sameText_obj (List.rel_append (List.rel_append (List.rel_append
    (.cons (.refl _) (sameMembers_docs m.docs)) (sameMembers_annots m.annots)) (sameMembers_refl _))
    (sameMembers_single "fields" (sameText_arr (sameText_entries sameText_field m.fields))))

theorem sameText_method (m : Idl.Method) :
    SameText (Method.ofSchema m.mend).toJson (Method.ofSchema m).toJson :=
  sameText_obj (List.rel_append (List.rel_append (List.rel_append (sameMembers_refl _)
    (sameMembers_docs m.docs)) (sameMembers_annots m.annots)) (sameMembers_refl _))

/-- A service is exported alike after mending. -/
theorem sameText_service (s : Idl.Service) :
    SameText (Service.ofSchema s.mend).toJson (Service.ofSchema s).toJson := by
  have hmethods := sameText_arr (sameText_entries sameText_method s.methods)
  exact sameText_obj (List.rel_append (List.rel_append (List.rel_append (List.rel_append
    (sameMembers_refl _) (sameMembers_docs s.docs)) (sameMembers_annots s.annots))
    (sameMembers_refl _)) (.cons (.refl _) (.cons (.refl _) (sameMembers_single "methods" hmethods))))

theorem sameMembers_path (path : Bytes) :
    List.Forall₂ SameMember (textMember "source_path" (Utf8.sanitize path))
      (textMember "source_path" path) := by
  unfold textMember
  simp only [List.isEmpty_iff, Utf8.sanitize_eq_nil_iff]
  split
  · exact .nil
  · exact sameMembers_single "source_path" (sameText_sanitize path)

/-- A schema and the mended one have the same export. -/
theorem sameText_document (s : Schema) :
    SameText (ofSchema s.mend).toJson (ofSchema s).toJson := by
  have hmessages := sameText_arr (sameText_entries sameText_message s.messages)
  have hservices := sameText_arr (sameText_entries sameText_service s.services)
  exact sameText_obj (List.rel_append (List.rel_append (List.rel_append (sameMembers_refl _)
    (sameMembers_path s.sourcePath)) (sameMembers_annots s.annots))
    (.cons ⟨rfl, hmessages⟩ (sameMembers_single "services" hservices)))

end Document

/-- An export is the same after mending. -/
theorem Schema.toJsonText_mend (s : Schema) : s.mend.toJsonText = s.toJsonText :=
  (Document.sameText_document s).compact

/-- And so is one with indentation. -/
theorem Schema.toPrettyJsonText_mend (s : Schema) :
    s.mend.toPrettyJsonText = s.toPrettyJsonText :=
  congrArg (· ++ _) ((Document.sameText_document s).indented false 0)

/-! ## §5 Mended schemas -/

/-- A constant of a source, once it is mended, can be written and read again. -/
theorem Value.Sourced.mend {v : Value} (h : v.Sourced) : v.mend.Portable ∧ v.mend.Textual := by
  cases v with
  | text s => exact ⟨trivial, Utf8.isValid_sanitize s⟩
  | ident name => exact ⟨trivial, h.name name rfl⟩
  | _ => exact ⟨h.portable, trivial⟩

/-- An annotation of a source, once it is mended, can be written and read again. -/
theorem Annot.Sourced.mend {a : Annot} (h : a.Sourced) : a.mend.Portable ∧ a.mend.Textual := by
  have hvalue : ∀ v ∈ a.mend.value, v.Portable ∧ v.Textual := by
    intro v hv
    obtain ⟨u, hu, rfl⟩ := Option.mem_map.mp hv
    exact (h.value u hu).mend
  have hpairs : ∀ p ∈ a.mend.pairs, Utf8.isValid p.key = true ∧ p.value.Portable ∧ p.value.Textual :=
    List.forall_mem_map.mpr fun p hp => ⟨(h.pairs p hp).key, (h.pairs p hp).value.mend⟩
  exact ⟨⟨fun v hv => (hvalue v hv).1, fun p hp => (hpairs p hp).2.1⟩, h.name,
    fun v hv => (hvalue v hv).2, fun p hp => (hpairs p hp).1, fun p hp => (hpairs p hp).2.2⟩

theorem annots_mend {l : List Annot} (h : ∀ a ∈ l, a.Sourced) :
    ∀ a ∈ l.map Annot.mend, a.Portable ∧ a.Textual :=
  List.forall_mem_map.mpr fun a ha => (h a ha).mend

theorem docs_mend (l : List Bytes) : ∀ t ∈ l.map Utf8.sanitize, Utf8.isValid t = true :=
  List.forall_mem_map.mpr fun t _ => Utf8.isValid_sanitize t

theorem Field.Sourced.mend {f : Field} (h : f.Sourced) : f.mend.Portable ∧ f.mend.Textual := by
  have hannots := annots_mend h.annots
  exact ⟨⟨h.type.portable, fun a ha => (hannots a ha).1, h.source⟩, h.name, h.type.textual,
    docs_mend f.docs, fun a ha => (hannots a ha).2⟩

/-- A message of a source, once it is mended, can be written and read again. -/
theorem Message.Sourced.mend {m : Message} (h : m.Sourced) :
    m.mend.Portable ∧ m.mend.Textual := by
  have hannots := annots_mend h.annots
  have hfields : ∀ f ∈ m.mend.fields, f.Portable ∧ f.Textual :=
    List.forall_mem_map.mpr fun f hf => (h.fields f hf).mend
  exact ⟨⟨fun a ha => (hannots a ha).1, h.source, fun f hf => (hfields f hf).1⟩, h.name,
    docs_mend m.docs, fun a ha => (hannots a ha).2, fun f hf => (hfields f hf).2⟩

theorem Method.Sourced.mend {m : Method} (h : m.Sourced) : m.mend.Portable ∧ m.mend.Textual := by
  have hannots := annots_mend h.annots
  exact ⟨⟨fun t ht => (h.input t ht).portable, fun t ht => (h.output t ht).portable,
    fun a ha => (hannots a ha).1, h.source⟩, h.name, fun t ht => (h.input t ht).textual,
    fun t ht => (h.output t ht).textual, docs_mend m.docs, fun a ha => (hannots a ha).2⟩

/-- A service of a source, once it is mended, can be written and read again. -/
theorem Service.Sourced.mend {s : Service} (h : s.Sourced) :
    s.mend.Portable ∧ s.mend.Textual := by
  have hannots := annots_mend h.annots
  have hmethods : ∀ m ∈ s.mend.methods, m.Portable ∧ m.Textual :=
    List.forall_mem_map.mpr fun m hm => (h.methods m hm).mend
  exact ⟨⟨fun a ha => (hannots a ha).1, h.source, fun m hm => (hmethods m hm).1⟩, h.name,
    docs_mend s.docs, fun a ha => (hannots a ha).2, fun m hm => (hmethods m hm).2⟩

/-- What comes from a source is portable and of well-formed strings once it is mended. -/
theorem Schema.Sourced.mend {s : Schema} (h : s.Sourced) : s.mend.Portable ∧ s.mend.Textual := by
  have hannots := annots_mend h.annots
  have hmessages : ∀ m ∈ s.mend.messages, m.Portable ∧ m.Textual :=
    List.forall_mem_map.mpr fun m hm => (h.messages m hm).mend
  have hservices : ∀ svc ∈ s.mend.services, svc.Portable ∧ svc.Textual :=
    List.forall_mem_map.mpr fun svc hsvc => (h.services svc hsvc).mend
  have hidentified : s.mend.identify = s.mend := by rw [identify_mend, h.identified]
  exact ⟨⟨fun a ha => (hannots a ha).1, fun m hm => (hmessages m hm).1,
    fun svc hsvc => (hservices svc hsvc).1, hidentified⟩, h.package, fun a ha => (hannots a ha).2,
    fun m hm => (hmessages m hm).2, fun svc hsvc => (hservices svc hsvc).2⟩

/-! ## §6 Schemas that need no mending -/

/-- What changes no element changes no list. -/
theorem map_eq_self {α : Type} {f : α → α} {l : List α} (h : ∀ a ∈ l, f a = a) : l.map f = l :=
  (List.map_congr_left h).trans (List.map_id l)

theorem map_sanitize_eq {l : List Bytes} (h : ∀ t ∈ l, Utf8.isValid t = true) :
    l.map Utf8.sanitize = l :=
  map_eq_self fun t ht => Utf8.sanitize_eq_self_iff.mpr (h t ht)

/-- A constant of well-formed text needs no mending. -/
theorem Value.Textual.mend_eq {v : Value} (h : v.Textual) : v.mend = v := by
  cases v with
  | text s => exact congrArg Value.text (Utf8.sanitize_eq_self_iff.mpr h)
  | _ => rfl

theorem Annot.Textual.mend_eq {a : Annot} (h : a.Textual) : a.mend = a := by
  obtain ⟨name, value, pairs⟩ := a
  have hvalue : value.map Value.mend = value := by
    cases value with
    | none => rfl
    | some v => exact congrArg some (h.value v rfl).mend_eq
  have hpairs : pairs.map Pair.mend = pairs :=
    map_eq_self fun p hp => by rw [Pair.mend, (h.values p hp).mend_eq]
  rw [Annot.mend]
  dsimp only
  rw [hvalue, hpairs]

theorem map_mend_eq {l : List Annot} (h : ∀ a ∈ l, a.Textual) : l.map Annot.mend = l :=
  map_eq_self fun a ha => (h a ha).mend_eq

theorem Field.Textual.mend_eq {f : Field} (h : f.Textual) : f.mend = f := by
  rw [Field.mend, map_sanitize_eq h.docs, map_mend_eq h.annots]

/-- A message of well-formed texts needs no mending. -/
theorem Message.Textual.mend_eq {m : Message} (h : m.Textual) : m.mend = m := by
  rw [Message.mend, map_eq_self fun f hf => (h.fields f hf).mend_eq, map_sanitize_eq h.docs,
    map_mend_eq h.annots]

theorem Method.Textual.mend_eq {m : Method} (h : m.Textual) : m.mend = m := by
  rw [Method.mend, map_sanitize_eq h.docs, map_mend_eq h.annots]

/-- A service of well-formed texts needs no mending. -/
theorem Service.Textual.mend_eq {s : Service} (h : s.Textual) : s.mend = s := by
  rw [Service.mend, map_eq_self fun m hm => (h.methods m hm).mend_eq, map_sanitize_eq h.docs,
    map_mend_eq h.annots]

/-- The identifier of a schema need not be looked at to see that nothing has to be mended. -/
theorem Schema.mend_eq_self {s : Schema} (hmessages : s.mend.messages = s.messages)
    (hservices : s.mend.services = s.services) (hannots : s.mend.annots = s.annots)
    (hpath : s.mend.sourcePath = s.sourcePath) : s.mend = s := by
  cases s
  simp_all [mend]

/-- A schema from a source is mended already exactly if its strings are well formed. -/
theorem Schema.Sourced.mend_eq_iff {s : Schema} (h : s.Sourced) :
    s.mend = s ↔ s.Textual ∧ Utf8.isValid s.sourcePath = true := by
  constructor
  · intro heq
    refine ⟨heq ▸ h.mend.2, Utf8.sanitize_eq_self_iff.mp ?_⟩
    exact congrArg Schema.sourcePath heq
  · rintro ⟨htextual, hpath⟩
    rw [Schema.mend, map_eq_self fun m hm => (htextual.messages m hm).mend_eq,
      map_eq_self fun svc hsvc => (htextual.services svc hsvc).mend_eq,
      map_mend_eq htextual.annots, Utf8.sanitize_eq_self_iff.mpr hpath]

/-! ## §7 Export and import -/

theorem Schema.id_mend (s : Schema) : s.mend.id = s.id := rfl

/-- Mending keeps the identifiers of services. -/
theorem Schema.serviceIds_mend (s : Schema) :
    s.mend.services.map (·.id) = s.services.map (·.id) := by
  rw [Schema.mend, List.map_map]
  rfl

/-- The compiler leaves its version in every schema. -/
theorem parserVersion_of_compileSource {src sourcePath : Bytes} {allowMissingPackage : Bool}
    {c : Compilation} {s : Schema} (h : compileSource src sourcePath allowMissingPackage = .ok c)
    (hs : c.outcome = .ok s) : s.parserVersion = languageVersion := by
  obtain ⟨f, -, -, rfl⟩ := exists_of_compileSource h hs
  rfl

/-- What is compiled can be written once it is mended. -/
theorem writable_mend_of_compileSource {src sourcePath : Bytes} {allowMissingPackage : Bool}
    {c : Compilation} {s : Schema} (h : compileSource src sourcePath allowMissingPackage = .ok c)
    (hs : c.outcome = .ok s) : s.mend.Writable := by
  have hwellFormed := compileSource_wellFormed h hs
  refine ⟨(sourced_of_compileSource h hs).mend.2, ?_, Utf8.isValid_sanitize _, ?_⟩
  · change Utf8.isValid s.parserVersion = true
    rw [parserVersion_of_compileSource h hs]
    rfl
  · refine List.forall_mem_map.mpr fun m hm => List.forall_mem_map.mpr fun f hf => ?_
    have hle := ((hwellFormed.messages m hm).fields f hf).number_le
    change f.number < 2 ^ 32
    omega

/-- The export of what is compiled is read as the mended schema, which has the same identifiers and
is the same schema exactly if all of its texts are well formed. -/
theorem ofJsonText_of_compileSource {src sourcePath : Bytes} {allowMissingPackage : Bool}
    {c : Compilation} {s : Schema} (h : compileSource src sourcePath allowMissingPackage = .ok c)
    (hs : c.outcome = .ok s) :
    Schema.ofJsonText s.toJsonText = .ok s.mend
      ∧ Schema.ofJsonText s.toPrettyJsonText = .ok s.mend
      ∧ s.mend.id = s.id
      ∧ s.mend.services.map (·.id) = s.services.map (·.id)
      ∧ (s.mend = s ↔ s.Textual ∧ Utf8.isValid s.sourcePath = true) := by
  have hsourced := sourced_of_compileSource h hs
  have hwritable := writable_mend_of_compileSource h hs
  refine ⟨?_, ?_, s.id_mend, s.serviceIds_mend, hsourced.mend_eq_iff⟩
  · rw [← s.toJsonText_mend]
    exact hwritable.ofJsonText_toJsonText hsourced.mend.1
  · rw [← s.toPrettyJsonText_mend]
    exact hwritable.ofJsonText_toPrettyJsonText hsourced.mend.1

/-- A text of one stray octet is not read back. -/
theorem ofJsonText_of_compileSource_stray :
    ∃ c s, compileSource "package p;@doc(\"\\xff\")message M\x7b\x7d" [] false = .ok c
      ∧ c.outcome = .ok s ∧ Schema.ofJsonText s.toJsonText = .ok s.mend
      ∧ s.messages.map (·.docs) = [[[0xFF]]] ∧ s.mend.messages.map (·.docs) = [[[0xEF, 0xBF, 0xBD]]]
      ∧ s.mend.id = s.id := by
  have hcompiles : (compileSource "package p;@doc(\"\\xff\")message M\x7b\x7d" [] false).toOption.any
      (·.outcome.isOk) = true := by decide +kernel
  have hdocs : (compileSource "package p;@doc(\"\\xff\")message M\x7b\x7d" [] false).toOption.all
      (fun c => c.outcome.toOption.all fun s => s.messages.map (·.docs) == [[[0xFF]]]) = true := by
    decide +kernel
  obtain ⟨c, s, hc, hs⟩ := exists_outcome_eq_ok hcompiles
  simp only [hc, hs, Except.toOption, Option.all_some, beq_iff_eq] at hdocs
  -- the documentation is mended octet by octet, and nothing else is
  have hmended : s.mend.messages.map (·.docs)
      = (s.messages.map (·.docs)).map (List.map Utf8.sanitize) := by
    rw [Schema.mend, List.map_map, List.map_map]
    rfl
  obtain ⟨hread, -, hid, -, -⟩ := ofJsonText_of_compileSource hc hs
  refine ⟨c, s, hc, hs, hread, hdocs, ?_, hid⟩
  rw [hmended, hdocs]
  decide

end Idl
