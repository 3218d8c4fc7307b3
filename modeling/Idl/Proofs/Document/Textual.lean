import Idl.Document.Json
import Idl.Proofs.Json.RoundTrip
import Idl.Proofs.Schema.Textual

/-!
# Reading gives well-formed text

A string of a JSON text is well-formed UTF-8 once it is read, whatever octets the text has. So are
the strings of a settled value, and of the schema that is read off it.

* §1 settled values, §2 results, §3 parts of a document, §4 documents.
-/

namespace Idl

/-! ## §1 Settled values -/

namespace Json

/-- What has been written to a place is of well-formed strings. -/
inductive Slot.Textual : Slot → Prop
  | plain {v : Json} (h : v.Textual) : Textual (.plain v)
  | list {items left : List Slot} (hitems : ∀ s ∈ items, Textual s)
      (hleft : ∀ s ∈ left, Textual s) : Textual (.list items left)
  | object {members : List (Bytes × Slot)} (h : ∀ m ∈ members, Textual m.2) :
    Textual (.object members)

namespace Slot

/-- Nothing has been written yet. -/
theorem textual_fresh : fresh.Textual := .plain .null

/-- The items of a list, one by one. -/
theorem toItems_eq_map (l : List Slot) : toItems l = l.map toJson := by
  induction l with
  | nil => rfl
  | cons s r ih => rw [toItems, ih, List.map_cons]

/-- The members of an object, one by one. -/
theorem toMembers_eq_map (l : List (Bytes × Slot)) :
    toMembers l = l.map fun m => (m.1, m.2.toJson) := by
  induction l with
  | nil => rfl
  | cons m r ih => rw [toMembers, ih, List.map_cons]

/-- What is read out of such a place is of well-formed strings. -/
theorem Textual.toJson {s : Slot} (h : s.Textual) : s.toJson.Textual := by
  induction h with
  | plain h => exact h
  | list hitems hleft ih =>
    rw [Slot.toJson, toItems_eq_map]
    exact .arr (List.forall_mem_map.mpr ih)
  | object h ih =>
    rw [Slot.toJson, toMembers_eq_map]
    exact .obj (List.forall_mem_map.mpr ih)

/-- A null erases what was there. -/
theorem Textual.erase {s : Slot} (h : s.Textual) : s.erase.Textual := by
  cases h with
  | plain h => exact .plain h
  | list => exact textual_fresh
  | object => exact textual_fresh

/-- The items that are there already. -/
theorem Textual.items {s : Slot} (h : s.Textual) : ∀ i ∈ s.items, i.Textual := by
  cases h with
  | list hitems hleft => exact List.forall_mem_append.mpr ⟨hitems, hleft⟩
  | plain => nofun
  | object => nofun

/-- The members that are there already. -/
theorem Textual.members {s : Slot} (h : s.Textual) : ∀ m ∈ s.members, m.2.Textual := by
  cases h with
  | object h => exact h
  | plain => nofun
  | list => nofun

/-- A member is replaced or added. -/
theorem textual_set {name : Bytes} {s : Slot} {l : List (Bytes × Slot)} (hs : s.Textual)
    (hl : ∀ m ∈ l, m.2.Textual) : ∀ m ∈ set name s l, m.2.Textual := by
  induction l with
  | nil => exact List.forall_mem_cons.mpr ⟨hs, nofun⟩
  | cons m l ih =>
    obtain ⟨hm, hl⟩ := List.forall_mem_cons.mp hl
    rw [set]
    split
    · exact List.forall_mem_cons.mpr ⟨hs, hl⟩
    · exact List.forall_mem_cons.mpr ⟨hm, ih hl⟩

/-- A member that is looked for is there, or it is fresh. -/
theorem textual_found {l : List (Bytes × Slot)} (hl : ∀ m ∈ l, m.2.Textual)
    (p : Bytes × Slot → Bool) : (((l.find? p).map (·.2)).getD fresh).Textual := by
  cases hfind : l.find? p with
  | none => exact textual_fresh
  | some m => exact hl m (List.mem_of_find?_eq_some hfind)

/-- Items that keep strings well formed keep the places of a list so. -/
theorem textual_writeItems {item : Shape} {l : List Json} {old : List Slot}
    (hl : ∀ v ∈ l, ∀ s : Slot, s.Textual → (write item s v).Textual)
    (hold : ∀ s ∈ old, s.Textual) : ∀ s ∈ writeItems item old l, s.Textual := by
  induction l generalizing old with
  | nil =>
    rw [writeItems]
    nofun
  | cons v l ih =>
    obtain ⟨hv, hl⟩ := List.forall_mem_cons.mp hl
    cases old with
    -- beyond the items that are there, each one begins fresh
    | nil =>
      rw [writeItems]
      exact List.forall_mem_cons.mpr ⟨hv _ textual_fresh, ih hl nofun⟩
    | cons s old =>
      obtain ⟨hs, hold⟩ := List.forall_mem_cons.mp hold
      rw [writeItems]
      exact List.forall_mem_cons.mpr ⟨hv _ hs, ih hl hold⟩

/-- Members that keep strings well formed keep the places of an object so. -/
theorem textual_writeMembers {shape : Shape} {l : List (Bytes × Json)} {old : List (Bytes × Slot)}
    (hl : ∀ m ∈ l, ∀ (inner : Shape) (s : Slot), s.Textual → (write inner s m.2).Textual)
    (hold : ∀ m ∈ old, m.2.Textual) : ∀ m ∈ writeMembers shape old l, m.2.Textual := by
  induction l generalizing old with
  | nil =>
    rw [writeMembers]
    exact hold
  | cons m l ih =>
    obtain ⟨hm, hl⟩ := List.forall_mem_cons.mp hl
    rw [writeMembers]
    refine ih hl (textual_set (hm _ _ ?_) hold)
    split
    · exact textual_fresh
    · exact textual_found hold _

/-- Writing keeps strings well formed. -/
theorem textual_write {v : Json} (hv : v.Textual) (shape : Shape) {s : Slot} (hs : s.Textual) :
    (s.write shape v).Textual := by
  -- By induction on the value written; what was there before stays where the value says nothing.
  induction hv generalizing shape s with
  | null => exact hs.erase
  | bool b => exact .plain (.bool b)
  | num t => exact .plain (.num t)
  | str h => exact .plain (.str h)
  | arr h ih =>
    rw [Slot.write]
    refine .list (textual_writeItems (fun v hv s hs => ih v hv _ hs) hs.items) ?_
    split
    · nofun
    · -- items behind the last one written are kept
      exact fun i hi => hs.items i (List.mem_of_mem_drop hi)
  | obj h ih =>
    rw [Slot.write]
    exact .object (textual_writeMembers (fun m hm inner s hs => ih m hm inner hs) hs.members)

end Slot

/-- A value that conforms to a shape is of well-formed strings if the value read is. -/
theorem Textual.conform {shape : Shape} {v w : Json} (hv : v.Textual)
    (h : conform shape v = .ok w) : w.Textual := by
  unfold Json.conform at h
  split at h
  · cases h
  · cases h
    exact (Slot.textual_write hv shape Slot.textual_fresh).toJson

/-- So is a member of it. -/
theorem Textual.get {v : Json} (h : v.Textual) (name : Bytes) : (v.get name).Textual := by
  cases h with
  | @obj members h =>
    rw [Json.get]
    cases hfind : members.find? (·.1 == name) with
    | none => exact .null
    | some m => exact h m (List.mem_of_find?_eq_some hfind)
  | _ => exact .null

/-- A text that is read is UTF-8. -/
theorem Textual.asText {v : Json} (h : v.Textual) : Utf8.isValid v.asText = true := by
  cases h with
  | str hs => exact hs
  | _ => rfl

/-- The items of a list. -/
theorem Textual.asList {v : Json} (h : v.Textual) : ∀ w ∈ v.asList, w.Textual := by
  cases h with
  | arr h => exact h
  | _ => nofun

/-- A value that may be missing. -/
theorem Textual.asOption {v : Json} (h : v.Textual) : ∀ w ∈ v.asOption, w.Textual := by
  cases h with
  | null => nofun
  | bool b => rintro _ ⟨⟩; exact .bool b
  | num t => rintro _ ⟨⟩; exact .num t
  | str hs => rintro _ ⟨⟩; exact .str hs
  | arr h => rintro _ ⟨⟩; exact .arr h
  | obj h => rintro _ ⟨⟩; exact .obj h

end Json

/-! ## §2 Results -/

namespace Document

/-- Every value that a check lets pass has a property. -/
def Gives {ε α : Type} (P : α → Prop) (r : Except ε α) : Prop := ∀ a, r = .ok a → P a

section Gives

variable {ε δ α β : Type} {P : α → Prop} {Q : β → Prop}

/-- A value that is let pass. -/
theorem gives_ok {a : α} (h : P a) : Gives P (.ok a : Except ε α) := by
  rintro _ ⟨⟩
  exact h

/-- Nothing is let pass. -/
theorem gives_error (e : ε) : Gives P (.error e : Except ε α) := nofun

/-- One check after another. -/
theorem Gives.bind {r : Except ε α} {f : α → Except ε β} (h : Gives P r)
    (hf : ∀ a, P a → Gives Q (f a)) : Gives Q (r >>= f) := by
  cases r with
  | error e => exact gives_error e
  | ok a => exact hf a (h a rfl)

/-- What is done to the value. -/
theorem Gives.map {r : Except ε α} {f : α → β} (h : Gives P r) (hf : ∀ a, P a → Q (f a)) :
    Gives Q (r.map f) := by
  cases r with
  | error e => exact gives_error e
  | ok a => exact gives_ok (hf a (h a rfl))

/-- Errors may be renamed. -/
theorem Gives.mapError {r : Except ε α} {f : ε → δ} (h : Gives P r) : Gives P (r.mapError f) := by
  cases r with
  | error e => exact gives_error (f e)
  | ok a => exact gives_ok (h a rfl)

/-- Nothing is asked. -/
theorem gives_true (r : Except ε α) : Gives (fun _ => True) r := fun _ _ => trivial

end Gives

/-! ## §3 Parts of a document -/

/-- Where each entry gives a value with a property, all values of the list have it. -/
theorem gives_entries {α β : Type} {P : β → Prop} {part : Json → α} {f : α → Except Fault β}
    {v : Json} (hv : v.Textual) (h : ∀ w : Json, w.Textual → Gives P (f (part w))) :
    Gives (fun l => ∀ b ∈ l, P b) (entries f (entriesOfJson part v)) := by
  rw [entries, entriesOfJson]
  have hitems := hv.asList
  generalize v.asList = items at hitems ⊢
  induction items with
  | nil => exact gives_ok nofun
  | cons w items ih =>
    obtain ⟨hw, hitems⟩ := List.forall_mem_cons.mp hitems
    rw [List.map_cons, List.mapM_cons]
    refine Gives.bind (P := P) ?_ fun b hb => (ih hitems).bind fun l hl =>
      gives_ok (List.forall_mem_cons.mpr ⟨hb, hl⟩)
    cases hopt : w.asOption with
    -- an entry that is null is refused
    | none => exact gives_error _
    | some u => exact h u (hw.asOption u hopt)

/-- Texts that are read are UTF-8. -/
theorem isValid_textsOfJson {v : Json} (hv : v.Textual) :
    ∀ t ∈ textsOfJson v, Utf8.isValid t = true :=
  List.forall_mem_map.mpr fun w hw => (hv.asList w hw).asText

/-- A value that is accepted. -/
theorem gives_value {v : Json} (hv : v.Textual) :
    Gives Idl.Value.Textual (Value.ofJson v).toSchema := by
  have htext : Utf8.isValid (Value.ofJson v).text = true := (hv.get "text").asText
  generalize Value.ofJson v = d at htext ⊢
  -- a constant that is read from its text has no strings
  have hread {α : Type} {reader : Bytes} {r : Except ReadFault α} {f : α → Idl.Value}
      (hf : ∀ a, (f a).Textual) :
      Gives Idl.Value.Textual ((r.map f).mapError (Fault.badConstant reader d.text)) :=
    ((gives_true r).map fun a _ => hf a).mapError
  unfold Value.toSchema
  split
  · exact hread fun _ => trivial
  split
  · exact hread fun _ => trivial
  split
  · exact hread fun _ => trivial
  split
  · exact hread fun _ => trivial
  split
  · exact gives_ok htext
  split
  · exact gives_ok htext
  · exact gives_error _

/-- A type. -/
theorem gives_type {v : Json} (hv : v.Textual) : Gives Ty.Textual (TypeName.ofJson v).toSchema := by
  have hmessage : Utf8.isValid (TypeName.ofJson v).message = true := (hv.get "message").asText
  generalize TypeName.ofJson v = t at hmessage ⊢
  unfold TypeName.toSchema
  split
  · exact gives_ok hmessage
  split
  · split
    · exact gives_ok trivial
    · exact gives_error _
  · exact gives_error _

/-- A type that may be missing. -/
theorem gives_type? {v : Json} (hv : v.Textual) :
    Gives (fun t : Option Ty => ∀ u ∈ t, u.Textual)
      (typeToSchema? (v.asOption.map TypeName.ofJson)) := by
  cases hopt : v.asOption with
  | none => exact gives_ok nofun
  | some w =>
    refine (gives_type (hv.asOption w hopt)).map fun t ht => ?_
    rintro _ ⟨⟩
    exact ht

/-- A pair. -/
theorem gives_pair {v : Json} (hv : v.Textual) :
    Gives (fun p : Idl.Pair => Utf8.isValid p.key = true ∧ p.value.Textual)
      (Pair.ofJson v).toSchema := by
  rw [Pair.ofJson, Pair.toSchema]
  cases hopt : (v.get "value").asOption with
  | none => exact gives_error _
  | some w =>
    have hw := (hv.get "value").asOption w hopt
    exact (gives_value hw).map fun u hu => ⟨(hv.get "key").asText, hu⟩

/-- An annotation. -/
theorem gives_annot {v : Json} (hv : v.Textual) :
    Gives Idl.Annot.Textual (Annot.ofJson v).toSchema := by
  -- the pairs follow the value, whether there is one or not
  have hrest {u : Option Idl.Value} (hu : ∀ w ∈ u, w.Textual) : Gives Idl.Annot.Textual (do
      let pairs ← entries Pair.toSchema (Annot.ofJson v).pairs
      pure ⟨(Annot.ofJson v).name, u, pairs⟩) := by
    refine (gives_entries (hv.get "pairs") fun w => gives_pair).bind fun pairs hpairs => gives_ok ?_
    exact ⟨(hv.get "name").asText, hu, fun p hp => (hpairs p hp).1, fun p hp => (hpairs p hp).2⟩
  have hvalue : (Annot.ofJson v).value = (v.get "value").asOption.map Value.ofJson := rfl
  unfold Annot.toSchema
  rw [hvalue]
  cases hopt : (v.get "value").asOption with
  | none => exact hrest nofun
  | some w =>
    have hw := gives_value ((hv.get "value").asOption w hopt)
    refine (hw.map fun u hu => ?_ : Gives (fun u => ∀ w ∈ u, w.Textual) _).bind fun u hu => hrest hu
    rintro _ ⟨⟩
    exact hu

/-- The annotations of an entity. -/
theorem gives_annots {v : Json} (hv : v.Textual) :
    Gives (fun l => ∀ a ∈ l, a.Textual) (annotsToSchema (entriesOfJson Annot.ofJson v)) :=
  gives_entries hv fun _ => gives_annot

/-- A field. -/
theorem gives_field {message : Bytes} {v : Json} (hv : v.Textual) :
    Gives Idl.Field.Textual ((Field.ofJson v).toSchema message) := by
  have htype : (Field.ofJson v).type = (v.get "type").asOption.map TypeName.ofJson := rfl
  unfold Field.toSchema
  rw [htype]
  cases hopt : (v.get "type").asOption with
  | none => exact gives_error _
  | some w =>
    refine (gives_type ((hv.get "type").asOption w hopt)).bind fun t ht =>
      (gives_annots (hv.get "annotations")).bind fun annots hannots =>
      (gives_true _).bind fun source _ => gives_ok ?_
    exact ⟨(hv.get "name").asText, ht, isValid_textsOfJson (hv.get "docs"), hannots⟩

/-- A message. -/
theorem gives_message {v : Json} (hv : v.Textual) :
    Gives Idl.Message.Textual (Message.ofJson v).toSchema := by
  unfold Message.toSchema
  refine (gives_annots (hv.get "annotations")).bind fun annots hannots =>
    (gives_true _).bind fun source _ =>
    (gives_entries (hv.get "fields") fun w => gives_field).bind fun fields hfields => gives_ok ?_
  exact ⟨(hv.get "name").asText, isValid_textsOfJson (hv.get "docs"), hannots, hfields⟩

/-- A method. -/
theorem gives_method {v : Json} (hv : v.Textual) :
    Gives Idl.Method.Textual (Method.ofJson v).toSchema := by
  unfold Method.toSchema
  refine (gives_type? (hv.get "input")).bind fun input hinput =>
    (gives_type? (hv.get "output")).bind fun output houtput =>
    (gives_annots (hv.get "annotations")).bind fun annots hannots =>
    (gives_true _).bind fun source _ => gives_ok ?_
  exact ⟨(hv.get "name").asText, hinput, houtput, isValid_textsOfJson (hv.get "docs"), hannots⟩

/-- A service. -/
theorem gives_service {v : Json} (hv : v.Textual) :
    Gives Idl.Service.Textual (Service.ofJson v).toSchema := by
  unfold Service.toSchema
  refine (gives_annots (hv.get "annotations")).bind fun annots hannots =>
    (gives_true _).bind fun source _ =>
    (gives_entries (hv.get "methods") fun w => gives_method).bind fun methods hmethods =>
      gives_ok ?_
  exact ⟨(hv.get "name").asText, isValid_textsOfJson (hv.get "docs"), hannots, hmethods⟩

/-! ## §4 Documents -/

/-- Filling in identifiers changes no string that is part of an identity. -/
theorem textual_identify {s : Schema} (h : s.Textual) : s.identify.Textual := by
  refine ⟨h.package, h.annots, h.messages, List.forall_mem_map.mpr fun svc hsvc => ?_⟩
  obtain ⟨name, docs, annots, methods⟩ := h.services svc hsvc
  exact ⟨name, docs, annots, methods⟩

/-- A document that is accepted is a schema of well-formed strings. -/
theorem gives_document {v : Json} (hv : v.Textual) :
    Gives Schema.Textual (ofJson v).toSchema := by
  unfold toSchema
  split
  · exact gives_error _
  refine (gives_annots (hv.get "annotations")).bind fun annots hannots =>
    (gives_entries (hv.get "messages") fun w => gives_message).bind fun messages hmessages =>
    (gives_entries (hv.get "services") fun w => gives_service).bind fun services hservices => ?_
  have hschema : Schema.Textual ⟨(ofJson v).package, messages, services, annots,
      (ofJson v).parserVersion, (ofJson v).sourcePath, .zero⟩ :=
    ⟨(hv.get "package").asText, hannots, hmessages, hservices⟩
  dsimp only
  split
  · exact gives_error _
  · exact (gives_true _).bind fun _ _ => gives_ok (textual_identify hschema)

/-- The decoder gives documents of well-formed strings only. -/
theorem gives_readJson (text : Bytes) :
    Gives (fun d => ∃ v : Json, v.Textual ∧ d = ofJson v) (readJson text) := by
  rw [readJson]
  cases hread : Json.readFirst? text with
  | none => exact gives_error _
  | some v =>
    obtain ⟨⟨w, rest⟩, hfrom, rfl⟩ := Option.map_eq_some_iff.mp hread
    have hw := Json.textual_of_readFrom (List.forall_mem_nil _) hfrom
    dsimp only
    split
    · exact gives_error _
    · exact gives_error _
    · next u hu => exact gives_ok ⟨u, hw.conform hu, rfl⟩

/-- A schema that is read from a JSON text is of well-formed strings. -/
theorem textual_of_ofJsonText {text : Bytes} {s : Schema} (h : Schema.ofJsonText text = .ok s) :
    s.Textual := by
  have hread : Gives Schema.Textual (Schema.ofJsonText text) := by
    refine (gives_readJson text).bind ?_
    rintro _ ⟨v, hv, rfl⟩
    exact (gives_document hv).mapError
  exact hread s h

end Document

end Idl
