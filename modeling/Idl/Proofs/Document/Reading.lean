import Idl.Proofs.Document.Conversion
import Idl.Proofs.Json.Conforming

/-!
# Documents are read back

The JSON of a document, written compactly or with indentation, is read back as the same document if
its strings are well formed and its field numbers have 32 bits. Together with the conversion between
schemas and documents this makes the export of a portable schema exact.

* §1 members of an object, §2 reading the parts off,
* §3 shapes, §4 texts of documents.
-/

namespace Idl

/-- Names of members are told apart by their bytes. -/
theorem Bytes.ofString_inj {s t : String} : ofString s = ofString t ↔ s = t := by
  constructor
  · intro h
    have hdata : s.toUTF8.data = t.toUTF8.data := Array.toList_inj.mp h
    exact String.toByteArray_inj.mp (ByteArray.ext hdata)
  · rintro rfl
    rfl

/-- All strings of a schema are well formed, and its field numbers have 32 bits. -/
structure Schema.Writable (s : Schema) : Prop where
  textual : s.Textual
  parserVersion : Utf8.isValid s.parserVersion = true
  sourcePath : Utf8.isValid s.sourcePath = true
  numbers : ∀ m ∈ s.messages, ∀ f ∈ m.fields, f.number < 2 ^ 32

/-! ## §1 Members of an object -/

namespace Json

/-- The first member of a name, if there is one. -/
def member? (members : List (Bytes × Json)) (name : Bytes) : Option Json :=
  (members.find? (·.1 == name)).map (·.2)

/-- To get a member is to look it up, with null for a missing one. -/
@[simp] theorem get_obj (members : List (Bytes × Json)) (name : Bytes) :
    get (.obj members) name = (member? members name).getD .null := rfl

/-- No member at all. -/
@[simp] theorem member?_nil (name : Bytes) : member? [] name = none := rfl

/-- The first member of the name counts. -/
@[simp] theorem member?_cons (key : Bytes) (v : Json) (l : List (Bytes × Json)) (name : Bytes) :
    member? (member key v :: l) name = if key = name then some v else member? l name := by
  unfold member? member
  by_cases h : key = name
  · rw [List.find?_cons_of_pos (by simpa using h), if_pos h, Option.map_some]
  · rw [List.find?_cons_of_neg (by simpa using h), if_neg h]

/-- Members in front of others. -/
@[simp] theorem member?_append (l r : List (Bytes × Json)) (name : Bytes) :
    member? (l ++ r) name = (member? l name).or (member? r name) := by
  rw [member?, member?, member?, List.find?_append, Option.map_or]

end Json

namespace Document

open Json (member member? member?_nil member?_cons)

/-- A text is left out when it is empty. -/
@[simp] theorem member?_textMember (key t name : Bytes) :
    member? (textMember key t) name
      = if key = name then (if t = [] then none else some (.str t)) else none := by
  unfold textMember
  simp only [List.isEmpty_iff]
  split
  · rw [member?_nil, ite_self]
  · exact member?_cons key (.str t) [] name

/-- So is a list. -/
@[simp] theorem member?_listMember (key : Bytes) (l : List Json) (name : Bytes) :
    member? (listMember key l) name
      = if key = name then (if l = [] then none else some (.arr l)) else none := by
  unfold listMember
  simp only [List.isEmpty_iff]
  split
  · rw [member?_nil, ite_self]
  · exact member?_cons key (.arr l) [] name

/-! ## §2 Reading the parts off -/

/-- A text is read as written. -/
@[simp] theorem asText_str (t : Bytes) : (Json.str t).asText = t := rfl

/-- So is a truth value. -/
@[simp] theorem asBool_bool (b : Bool) : (Json.bool b).asBool = b := rfl

/-- A text that is left out when empty reads as itself. -/
@[simp] theorem asText_getD (t : Bytes) :
    ((if t = [] then none else some (Json.str t)).getD .null).asText = t := by
  cases t <;> rfl

/-- A list that is left out when empty reads as itself. -/
theorem asList_getD {α : Type} (f : α → Json) (l : List α) :
    ((if l = [] then none else some (Json.arr (l.map f))).getD .null).asList = l.map f := by
  cases l <;> rfl

/-- Texts are read back, and none from a list that was left out. -/
@[simp] theorem textsOfJson_getD (l : List Bytes) :
    textsOfJson ((if l = [] then none else some (Json.arr (l.map .str))).getD .null) = l := by
  rw [textsOfJson, asList_getD, List.map_map]
  exact (List.map_congr_left fun t _ => rfl).trans (List.map_id l)

section Entries

variable {α : Type} {f : α → Json} {g : Json → α} (hf : ∀ a, (f a).asOption = some (f a))
  (hg : ∀ a, g (f a) = a)

include hf hg

/-- What may be missing is read back. -/
theorem asOption_orNull (a : Option α) : (orNull f a).asOption.map g = a := by
  cases a with
  | none => rfl
  | some a => rw [orNull, Option.map_some, Option.getD_some, hf, Option.map_some, hg]

/-- Entries, some of which may be missing, are read back. -/
theorem entriesOfJson_arr (l : List (Option α)) : entriesOfJson g (.arr (l.map (orNull f))) = l := by
  rw [entriesOfJson, Json.asList, List.map_map]
  exact (List.map_congr_left fun a _ => asOption_orNull hf hg a).trans (List.map_id l)

/-- The same when an empty list was left out. -/
theorem entriesOfJson_getD (l : List (Option α)) :
    entriesOfJson g ((if l = [] then none else some (Json.arr (l.map (orNull f)))).getD .null)
      = l := by
  rw [entriesOfJson, asList_getD]
  exact entriesOfJson_arr hf hg l

end Entries

/-- Values are read back, whatever their payload. -/
theorem ofJson_toJson_value (v : Value) : Value.ofJson v.toJson = v := by
  simp [Value.ofJson, Value.toJson, Bytes.ofString_inj]

/-- Pairs are read back. -/
theorem ofJson_toJson_pair (p : Pair) : Pair.ofJson p.toJson = p := by
  have hvalue := asOption_orNull (fun _ => rfl) ofJson_toJson_value p.value
  simp [Pair.ofJson, Pair.toJson, Bytes.ofString_inj, hvalue]

/-- Annotations are read back. -/
theorem ofJson_toJson_annot (a : Annot) : Annot.ofJson a.toJson = a := by
  obtain ⟨name, value, pairs⟩ := a
  have hpairs := entriesOfJson_getD (fun _ => rfl) ofJson_toJson_pair pairs
  cases value with
  | none => simp [Annot.ofJson, Annot.toJson, Bytes.ofString_inj, Json.asOption, hpairs]
  | some v =>
    have hvalue : v.toJson.asOption.map Value.ofJson = some v :=
      asOption_orNull (fun _ => rfl) ofJson_toJson_value (some v)
    simp [Annot.ofJson, Annot.toJson, Bytes.ofString_inj, hvalue, hpairs]

/-- Annotations in a list. -/
@[simp] theorem entriesOfJson_annots (l : List (Option Annot)) :
    entriesOfJson Annot.ofJson
      ((if l = [] then none else some (Json.arr (l.map (orNull Annot.toJson)))).getD .null) = l :=
  entriesOfJson_getD (fun _ => rfl) ofJson_toJson_annot l

/-- Types are read back. -/
theorem ofJson_toJson_type (t : TypeName) : TypeName.ofJson t.toJson = t := by
  simp [TypeName.ofJson, TypeName.toJson, Bytes.ofString_inj]

/-- A type that may be missing. -/
@[simp] theorem asOption_orNull_type (t : Option TypeName) :
    (orNull TypeName.toJson t).asOption.map TypeName.ofJson = t :=
  asOption_orNull (fun _ => rfl) ofJson_toJson_type t

/-- Fields are read back. -/
theorem ofJson_toJson_field (f : Field) : Field.ofJson f.toJson = f := by
  obtain ⟨name, type, optional, number, docs, annots, source⟩ := f
  cases optional <;>
    simp [Field.ofJson, Field.toJson, docsMember, annotsMember, Bytes.ofString_inj, Json.asBool]

/-- Messages are read back. -/
theorem ofJson_toJson_message (m : Message) : Message.ofJson m.toJson = m := by
  have hfields := entriesOfJson_arr (fun _ => rfl) ofJson_toJson_field m.fields
  simp [Message.ofJson, Message.toJson, docsMember, annotsMember, Bytes.ofString_inj, hfields]

/-- Methods are read back. -/
theorem ofJson_toJson_method (m : Method) : Method.ofJson m.toJson = m := by
  simp [Method.ofJson, Method.toJson, docsMember, annotsMember, Bytes.ofString_inj]

/-- Services are read back. -/
theorem ofJson_toJson_service (s : Service) : Service.ofJson s.toJson = s := by
  have hmethods := entriesOfJson_arr (fun _ => rfl) ofJson_toJson_method s.methods
  simp [Service.ofJson, Service.toJson, docsMember, annotsMember, Bytes.ofString_inj, hmethods]

/-- A document is read off the value that is written for it. -/
theorem ofJson_toJson (d : Document) : ofJson d.toJson = d := by
  have hmessages := entriesOfJson_arr (fun _ => rfl) ofJson_toJson_message d.messages
  have hservices := entriesOfJson_arr (fun _ => rfl) ofJson_toJson_service d.services
  simp [ofJson, toJson, annotsMember, Bytes.ofString_inj, hmessages, hservices]

/-! ## §3 Shapes -/

open Json (Fits Fills fits_null fits_str fits_bool fits_nat fits_arr)

/-- The characters of an encoded identifier are ASCII. -/
theorem ascii_character (n : Nat) : (Base64.character n).toNat < 0x80 := by
  unfold Base64.character
  split_ifs <;> simp <;> omega

/-- So is the whole of it. -/
theorem ascii_encodeOnto {padded : Bool} {acc b : Bytes} (h : ∀ c ∈ acc, c.toNat < 0x80) :
    ∀ c ∈ Base64.encodeOnto padded acc b, c.toNat < 0x80 := by
  fun_induction Base64.encodeOnto padded acc b with
  -- three octets give four characters
  | case1 acc a b c r n ih =>
    refine ih ?_
    simp only [List.forall_mem_cons]
    exact ⟨ascii_character _, ascii_character _, ascii_character _, ascii_character _, h⟩
  -- two octets at the end, one character of padding
  | case2 acc a b n pad =>
    have hpad : ∀ c ∈ pad, c.toNat < 0x80 := by
      cases padded <;> exact Bytes.ascii_of_all rfl
    simp only [List.mem_reverse, List.forall_mem_append, List.forall_mem_cons]
    exact ⟨hpad, ascii_character _, ascii_character _, ascii_character _, h⟩
  -- one octet at the end
  | case3 acc a n pad =>
    have hpad : ∀ c ∈ pad, c.toNat < 0x80 := by
      cases padded <;> exact Bytes.ascii_of_all rfl
    simp only [List.mem_reverse, List.forall_mem_append, List.forall_mem_cons]
    exact ⟨hpad, ascii_character _, ascii_character _, h⟩
  | case4 acc => simpa using h

/-- An identifier is written in UTF-8. -/
theorem isValid_textOrEmpty (i : Identifier) : Utf8.isValid i.textOrEmpty = true := by
  rcases textOrEmpty_cases i with h | h
  · rw [h]
    rfl
  · rw [h]
    exact Utf8.isValid_of_ascii (ascii_encodeOnto nofun)

/-- So is a place. -/
theorem isValid_placeOf (p : Pos) : Utf8.isValid (placeOf p) = true := by
  unfold placeOf
  split
  · rfl
  · exact Utf8.isValid_of_ascii (ascii_render p)

variable {d : Nat} {strict : Bool} {fields : List (Bytes × Json.Shape)} {key : Bytes}

/-- A text fills a field for texts. -/
theorem fills_textMember {t : Bytes} (hkey : Utf8.isValid key = true)
    (hfolded : Json.foldName key = key) (hlookup : fields.lookup key = some .text)
    (ht : Utf8.isValid t = true) : Fills d fields [key] (textMember key t) := by
  rw [textMember]
  exact (Fills.cons hkey hfolded hlookup (fits_str ht) .nil).ite

/-- A list fills a field for lists when its items fit. -/
theorem fills_listMember {item : Json.Shape} {l : List Json} (hkey : Utf8.isValid key = true)
    (hfolded : Json.foldName key = key) (hlookup : fields.lookup key = some (.list item))
    (hl : ∀ v ∈ l, Fits d item v) : Fills (d + 1) fields [key] (listMember key l) := by
  rw [listMember]
  exact (Fills.cons hkey hfolded hlookup (fits_arr hl) .nil).ite

/-- The entries of a list of a document fit if the entries of the schema's list do. -/
theorem fits_entries {α β : Type} {f : α → β} {g : β → Json} {item : Json.Shape} {l : List α}
    (h : ∀ a ∈ l, Fits d item (g (f a))) :
    ∀ v ∈ (l.map fun a => some (f a)).map (orNull g), Fits d item v := by
  intro v hv
  rw [List.map_map] at hv
  obtain ⟨a, ha, rfl⟩ := List.mem_map.mp hv
  exact h a ha

/-- A value fits. -/
theorem fits_value {v : Idl.Value} (h : v.Textual) :
    Fits (d + 1) (Shape.value strict) (Value.ofSchema v).toJson := by
  have hkind : Fits d .text (.str v.kindName) := fits_str v.isValid_kindName
  have htext : Fits d .text (.str v.payload) := fits_str h.isValid_payload
  exact (Fills.cons rfl rfl rfl hkind (.cons rfl rfl rfl htext .nil)).fits (by decide)

/-- A pair fits. -/
theorem fits_pair {p : Idl.Pair} (hkey : Utf8.isValid p.key = true) (h : p.value.Textual) :
    Fits (d + 2) (Shape.pair strict) (Pair.ofSchema p).toJson :=
  (Fills.cons rfl rfl rfl (fits_str hkey) (.cons rfl rfl rfl (fits_value h) .nil)).fits (by decide)

/-- The members of an annotation. -/
def annotFields (strict : Bool) : List (Bytes × Json.Shape) :=
  [Shape.field "name" .text, Shape.field "value" (Shape.value strict),
    Shape.field "pairs" (.list (Shape.pair strict))]

/-- An annotation fits. -/
theorem fits_annot {a : Idl.Annot} (h : a.Textual) :
    Fits (d + 4) (.record strict (annotFields strict)) (Annot.ofSchema a).toJson := by
  have hpairs : Fills (d + 3) (annotFields strict) ["pairs"]
      (listMember "pairs" ((a.pairs.map fun p => some (Pair.ofSchema p)).map (orNull Pair.toJson))) :=
    fills_listMember rfl rfl rfl
      (fits_entries fun p hp => fits_pair (h.keys p hp) (h.values p hp))
  obtain ⟨name, value, pairs⟩ := a
  cases value with
  | none =>
    exact ((Fills.cons rfl rfl rfl (fits_str h.name) .nil).append hpairs).fits (by decide)
  | some v =>
    have hvalue : Fits (d + 3) (Shape.value strict) (Value.ofSchema v).toJson :=
      fits_value (h.value v rfl)
    exact ((Fills.cons rfl rfl rfl (fits_str h.name)
      (.cons rfl rfl rfl hvalue .nil)).append hpairs).fits (by decide)

/-- A type fits. -/
theorem fits_type {t : Ty} (h : t.Textual) :
    Fits (d + 1) (Shape.type strict) (TypeName.ofSchema t).toJson := by
  have hfits {n : TypeName} (hscalar : Utf8.isValid n.scalar = true)
      (hmessage : Utf8.isValid n.message = true) : Fits (d + 1) (Shape.type strict) n.toJson :=
    ((fills_textMember rfl rfl rfl hscalar).append (fills_textMember rfl rfl rfl hmessage)).fits
      (by decide)
  cases t with
  | message name => exact hfits rfl h
  | scalar s => exact hfits (Ty.scalar s).isValid_kindName rfl
  | unassigned n => exact hfits (Ty.unassigned n).isValid_kindName rfl

/-- And one that may be missing. -/
theorem fits_type? {t : Option Ty} (h : ∀ u ∈ t, u.Textual) :
    Fits (d + 1) (Shape.type strict) (orNull TypeName.toJson (t.map TypeName.ofSchema)) := by
  cases t with
  | none => exact fits_null _ _
  | some t => exact fits_type (h t rfl)

/-- The members that a field has besides those of all entities. -/
def fieldFields (strict : Bool) : List (Bytes × Json.Shape) :=
  [Shape.field "type" (Shape.type strict), Shape.field "optional" .bool,
    Shape.field "number" (.whole 0 (2 ^ 32))]

section Entity

variable {docs : List Bytes} {annots : List Idl.Annot} {more : List (Bytes × Json.Shape)}

/-- Documentation fills its field. -/
theorem fills_docs (h : ∀ t ∈ docs, Utf8.isValid t = true) :
    Fills (d + 1) (Shape.entity strict ++ more) ["docs"] (docsMember docs) := by
  have hitems : ∀ v ∈ docs.map Json.str, Fits d .text v := by
    intro v hv
    obtain ⟨t, ht, rfl⟩ := List.mem_map.mp hv
    exact fits_str (h t ht)
  exact fills_listMember rfl rfl rfl hitems

/-- Annotations fill theirs. -/
theorem fills_annots (h : ∀ a ∈ annots, a.Textual) :
    Fills (d + 5) (Shape.entity strict ++ more) ["annotations"]
      (annotsMember (annotsOfSchema annots)) :=
  fills_listMember rfl rfl rfl (fits_entries fun a ha => fits_annot (h a ha))

/-- And the place its own. -/
theorem fills_source (p : Pos) :
    Fills d (Shape.entity strict ++ more) ["source"] (textMember "source" (placeOf p)) :=
  fills_textMember rfl rfl rfl (isValid_placeOf p)

end Entity

/-- A field fits, since its number has 32 bits. -/
theorem fits_field {f : Idl.Field} (h : f.Textual) (hnumber : f.number < 2 ^ 32) :
    Fits (d + 6) (.record strict (Shape.entity strict ++ fieldFields strict))
      (Field.ofSchema f).toJson := by
  have hoptional : Fills (d + 5) (Shape.entity strict ++ fieldFields strict) ["optional"]
      (if f.optional then [member "optional" (.bool true)] else []) := by
    split
    · exact .cons rfl rfl rfl (fits_bool _ true) .nil
    · exact .skip _
  have htype : Fits (d + 5) (Shape.type strict) (TypeName.ofSchema f.type).toJson := fits_type h.type
  have hnumber : Fills (d + 5) (Shape.entity strict ++ fieldFields strict) ["number"]
      [member "number" (.nat f.number)] :=
    .cons rfl rfl rfl (fits_nat hnumber) .nil
  exact ((((((Fills.cons rfl rfl rfl (fits_str h.name) (.cons rfl rfl rfl htype .nil)).append
    hoptional).append hnumber).append (fills_docs h.docs)).append (fills_annots h.annots)).append
    (fills_source f.source)).fits (by decide)

/-- A message fits. -/
theorem fits_message {m : Idl.Message} (h : m.Textual)
    (hnumbers : ∀ f ∈ m.fields, f.number < 2 ^ 32) :
    Fits (d + 8) (Shape.message strict) (Message.ofSchema m).toJson := by
  have hfields := fits_arr (fits_entries fun f hf =>
    (fits_field (h.fields f hf) (hnumbers f hf) : Fits (d + 6) (.record strict _) _))
  exact (((((Fills.cons rfl rfl rfl (fits_str h.name) .nil).append (fills_docs h.docs)).append
    (fills_annots h.annots)).append (fills_source m.source)).append
    (.cons rfl rfl rfl hfields .nil)).fits (by decide)

/-- A method fits. -/
theorem fits_method {m : Idl.Method} (h : m.Textual) :
    Fits (d + 6) (.record strict (Shape.entity strict
      ++ [Shape.field "input" (Shape.type strict), Shape.field "output" (Shape.type strict)]))
      (Method.ofSchema m).toJson := by
  have hinput : Fits (d + 5) (Shape.type strict)
      (orNull TypeName.toJson (m.input.map TypeName.ofSchema)) := fits_type? h.input
  have houtput : Fits (d + 5) (Shape.type strict)
      (orNull TypeName.toJson (m.output.map TypeName.ofSchema)) := fits_type? h.output
  exact ((((Fills.cons rfl rfl rfl (fits_str h.name) (.cons rfl rfl rfl hinput
    (.cons rfl rfl rfl houtput .nil))).append (fills_docs h.docs)).append
    (fills_annots h.annots)).append (fills_source m.source)).fits (by decide)

/-- A service fits. -/
theorem fits_service {s : Idl.Service} (h : s.Textual) :
    Fits (d + 8) (Shape.service strict) (Service.ofSchema s).toJson := by
  have hmethods := fits_arr (fits_entries fun m hm =>
    (fits_method (h.methods m hm) : Fits (d + 6) (.record strict _) _))
  exact ((((((Fills.cons rfl rfl rfl (fits_str h.name) .nil).append
    (fills_textMember rfl rfl rfl (isValid_textOrEmpty s.id))).append (fills_docs h.docs)).append
    (fills_annots h.annots)).append (fills_source s.source)).append
    (.cons rfl rfl rfl (fits_bool _ s.client) (.cons rfl rfl rfl (fits_bool _ s.server)
      (.cons rfl rfl rfl hmethods .nil)))).fits (by decide)

/-- The members of a document. -/
def documentFields (strict : Bool) : List (Bytes × Json.Shape) :=
  [Shape.field "package" .text, Shape.field "id" .text, Shape.field "parser_version" .text,
    Shape.field "source_path" .text, Shape.field "annotations" (Shape.annots strict),
    Shape.field "messages" (.list (Shape.message strict)),
    Shape.field "services" (.list (Shape.service strict))]

/-- A schema that can be written fits, strictly or not. -/
theorem fits_document {s : Schema} (h : s.Writable) :
    Fits 10 (Shape.document strict) (ofSchema s).toJson := by
  have hannots : Fills 9 (documentFields strict) ["annotations"]
      (annotsMember (annotsOfSchema s.annots)) :=
    fills_listMember rfl rfl rfl (fits_entries fun a ha => fits_annot (h.textual.annots a ha))
  have hmessages := fits_arr (fits_entries fun m hm =>
    (fits_message (h.textual.messages m hm) (h.numbers m hm) : Fits 8 (Shape.message strict) _))
  have hservices := fits_arr (fits_entries fun svc hsvc =>
    (fits_service (h.textual.services svc hsvc) : Fits 8 (Shape.service strict) _))
  exact ((((((Fills.cons rfl rfl rfl (fits_str h.textual.package) .nil).append
    (fills_textMember rfl rfl rfl (isValid_textOrEmpty s.id))).append
    (fills_textMember rfl rfl rfl h.parserVersion)).append
    (fills_textMember rfl rfl rfl h.sourcePath)).append hannots).append
    (.cons rfl rfl rfl hmessages (.cons rfl rfl rfl hservices .nil))).fits (by decide)

/-! ## §4 Texts of documents -/

/-- A text whose first value is that of a writable schema's document is read as the document. -/
theorem readJson_eq {s : Schema} (h : s.Writable) {text : Bytes}
    (htext : Json.readFirst? text = some (ofSchema s).toJson) :
    readJson text = .ok (ofSchema s) := by
  have hfits : Fits 10 (Shape.document true) (ofSchema s).toJson := fits_document h
  rw [readJson, htext]
  dsimp only
  rw [hfits.conform]
  dsimp only
  rw [ofJson_toJson]

end Document

namespace Schema

variable {s : Schema}

/-- A text that reads as the document of such a schema is decoded to it. -/
theorem Writable.ofJsonText_eq (h : s.Writable) (hs : s.Portable) {text : Bytes}
    (htext : Json.readFirst? text = some (Document.ofSchema s).toJson) :
    ofJsonText text = .ok s := by
  have hschema : (Document.ofSchema s).toSchema = .ok s := Document.toSchema_ofSchema hs
  rw [ofJsonText, Document.readJson_eq h htext]
  exact congrArg (Except.mapError Document.ReadError.fault) hschema

/-- Reading the compact text of a schema gives the schema back. -/
theorem Writable.ofJsonText_toJsonText (h : s.Writable) (hs : s.Portable) :
    ofJsonText s.toJsonText = .ok s := by
  have hfits : Json.Fits 10 (Document.Shape.document true) (Document.ofSchema s).toJson :=
    Document.fits_document h
  have hread := hfits.plain.readsBack.readFirst? (by decide) Json.ends_nil
  rw [List.append_nil] at hread
  exact h.ofJsonText_eq hs hread

/-- Reading the indented text of a schema gives the schema back; the new line at its end counts for
nothing. -/
theorem Writable.ofJsonText_toPrettyJsonText (h : s.Writable) (hs : s.Portable) :
    ofJsonText s.toPrettyJsonText = .ok s := by
  have hfits : Json.Fits 10 (Document.Shape.document true) (Document.ofSchema s).toJson :=
    Document.fits_document h
  exact h.ofJsonText_eq hs ((hfits.plain.readsBack_indented false 0).readFirst? (by decide)
    (Json.ends_cons (by decide) []))

end Schema

end Idl
