import Idl.Proofs.Document.Textual
import Idl.Proofs.Numeric.Reading

/-!
# Documents keep schemas

A document writes every constant, type and place of a schema as text. Where these are of the kind
that text can carry, the document gives the schema back, identifiers included. Whatever a document
gives is of that kind, so that converting it to a document and back changes nothing.

* §1 what text can carry, §2 places,
* §3 parts of a schema, §4 schemas,
* §5 what a document gives.
-/

namespace Idl

/-! ## §1 What text can carry -/

/-- A constant of a known kind, in the range of the kind. Of the numbers that are not a number, text
can tell only one. -/
def Value.Portable : Value → Prop
  | .int n => -2 ^ 63 ≤ n ∧ n < 2 ^ 63
  | .uint n => n < 2 ^ 64
  | .float x => x.isNaN = true → x = .nan
  | .bool _ | .text _ | .ident _ => True
  | .unassigned _ => False

/-- The constants of an annotation. -/
structure Annot.Portable (a : Annot) : Prop where
  value : ∀ v ∈ a.value, v.Portable
  pairs : ∀ p ∈ a.pairs, p.value.Portable

/-- A built-in type or a message that has a name. -/
def Ty.Portable : Ty → Prop
  | .scalar _ => True
  | .message name => name ≠ []
  | .unassigned _ => False

/-- A place whose coordinates have 32 bits. -/
structure Pos.Portable (p : Pos) : Prop where
  line : p.line < 2 ^ 32
  col : p.col < 2 ^ 32

/-- The parts of a field. -/
structure Field.Portable (f : Field) : Prop where
  type : f.type.Portable
  annots : ∀ a ∈ f.annots, a.Portable
  source : f.source.Portable

/-- The parts of a message. -/
structure Message.Portable (m : Message) : Prop where
  annots : ∀ a ∈ m.annots, a.Portable
  source : m.source.Portable
  fields : ∀ f ∈ m.fields, f.Portable

/-- The parts of a method. -/
structure Method.Portable (m : Method) : Prop where
  input : ∀ t ∈ m.input, t.Portable
  output : ∀ t ∈ m.output, t.Portable
  annots : ∀ a ∈ m.annots, a.Portable
  source : m.source.Portable

/-- The parts of a service. -/
structure Service.Portable (s : Service) : Prop where
  annots : ∀ a ∈ s.annots, a.Portable
  source : s.source.Portable
  methods : ∀ m ∈ s.methods, m.Portable

/-- A schema all parts of which text can carry, and whose identifiers are those of its content. -/
structure Schema.Portable (s : Schema) : Prop where
  annots : ∀ a ∈ s.annots, a.Portable
  messages : ∀ m ∈ s.messages, m.Portable
  services : ∀ svc ∈ s.services, svc.Portable
  identified : s.identify = s

/-! ## §2 Places -/

namespace Document

/-- A digit is no blank. -/
theorem not_isSpace_of_isDigit {c : Char} (h : c.isDigit = true) : isSpace c = false := by
  obtain ⟨hlo, hhi⟩ : 0x30 ≤ c.toNat ∧ c.toNat ≤ 0x39 := by
    simpa [Char.isDigit, UInt32.le_iff_toNat_le] using h
  simp only [isSpace, inRanges, spaceRanges, List.any_cons, List.any_nil, Bool.or_false,
    Bool.or_eq_false_iff, Bool.and_eq_false_iff, decide_eq_false_iff_not]
  omega

/-- In front of a digit there is nothing to skip. -/
theorem skipBlanks?_of_isDigit {c : Char} (h : c.isDigit = true) (r : List Char) :
    skipBlanks? (c :: r) = some (c :: r) := by
  unfold skipBlanks?
  split
  · -- the two blanks that are told first are no digits
    next heq =>
    obtain ⟨rfl, -⟩ := List.cons.inj heq
    exact absurd h (by decide)
  · next heq =>
    obtain ⟨rfl, -⟩ := List.cons.inj heq
    exact absurd h (by decide)
  · next heq =>
    obtain ⟨rfl, rfl⟩ := List.cons.inj heq
    rw [not_isSpace_of_isDigit h]
    rfl
  · next heq => cases heq

/-- The digits of a number are read up to what follows them. -/
theorem coordinate?_toDigits {n : Nat} (hn : n < 2 ^ 32) {t : List Char}
    (ht : ∀ c ∈ t.head?, c.isDigit = false) :
    coordinate? (Nat.toDigits 10 n ++ t) = some (n, t) := by
  have hdigits : ∀ c ∈ Nat.toDigits 10 n, c.isDigit = true :=
    fun c hc => Nat.isDigit_of_mem_toDigits (by decide) (by decide) hc
  have hvalue : Bytes.toNat 10 ((Nat.toDigits 10 n).map fun c => c.toNat.toUInt8) = n :=
    Bytes.toNat_ofNat n
  have hne : Nat.toDigits 10 n ≠ [] := by
    intro hnil
    exact Bytes.ofNat_ne_nil n (by rw [Bytes.ofNat, hnil]; rfl)
  have hisDigit : (fun c : Char => decide ('0' ≤ c) && decide (c ≤ '9')) = Char.isDigit := rfl
  -- the digits end where those of the number do
  have htake : (Nat.toDigits 10 n ++ t).takeWhile Char.isDigit = Nat.toDigits 10 n := by
    have hstop : t.takeWhile Char.isDigit = [] := by
      cases t with
      | nil => rfl
      | cons c r => exact List.takeWhile_cons_of_neg (by simpa using ht c rfl)
    rw [List.takeWhile_append_of_pos hdigits, hstop, List.append_nil]
  have hskip : skipBlanks? (Nat.toDigits 10 n ++ t) = some (Nat.toDigits 10 n ++ t) := by
    obtain ⟨c, r, hcons⟩ := List.exists_cons_of_ne_nil hne
    rw [hcons, List.cons_append]
    exact skipBlanks?_of_isDigit (hdigits c (by rw [hcons]; exact List.mem_cons_self)) _
  unfold coordinate?
  rw [hskip, Option.bind_eq_bind, Option.bind_some, hisDigit, htake]
  dsimp only
  rw [hvalue, if_neg (by simpa [hne] using hn), List.drop_left]

/-- A place is written in ASCII. -/
theorem ascii_render (p : Pos) : ∀ b ∈ p.render, b.toNat < 0x80 := by
  intro b hb
  rcases List.mem_append.mp hb with hb | hb
  · rcases List.mem_append.mp hb with hb | hb
    · exact Bytes.ascii_ofNat _ b hb
    · exact Bytes.ascii_of_all (t := ":") rfl b hb
  · exact Bytes.ascii_ofNat _ b hb

/-- A place is written as its line, a colon and its column. -/
theorem chars_render (p : Pos) :
    Utf8.chars p.render = Nat.toDigits 10 p.line ++ ':' :: Nat.toDigits 10 p.col := by
  -- the octets of a number are the characters of its digits
  have hdigits (n : Nat) :
      (Bytes.ofNat n).map (fun a => Char.ofNat a.toNat) = Nat.toDigits 10 n := by
    rw [Bytes.ofNat, List.map_map]
    refine (List.map_congr_left fun c hc => ?_).trans (List.map_id _)
    have hc : c.isDigit = true := Nat.isDigit_of_mem_toDigits (by decide) (by decide) hc
    have hsmall : c.toNat < 256 := by
      simp only [Char.isDigit, Bool.and_eq_true, decide_eq_true_eq, UInt32.le_iff_toNat_le] at hc
      have hle : c.toNat ≤ 57 := hc.2
      omega
    rw [Function.comp_apply, Nat.toUInt8, Utf8.toNat_octet hsmall, Char.ofNat_toNat]
    rfl
  rw [Utf8.chars_of_ascii (ascii_render p), Pos.render, List.map_append, List.map_append, hdigits,
    hdigits, List.append_assoc]
  rfl

theorem place?_render {p : Pos} (h : p.Portable) : place? p.render = some p := by
  have hline := coordinate?_toDigits h.line (t := ':' :: Nat.toDigits 10 p.col) (by simp)
  have hcol := coordinate?_toDigits h.col (t := []) nofun
  rw [List.append_nil] at hcol
  unfold place?
  rw [chars_render, hline]
  simp [hcol]

theorem placeOfText_placeOf {p : Pos} (h : p.Portable) : placeOfText (placeOf p) = .ok p := by
  unfold placeOf
  split
  · next hp =>
    subst hp
    rfl
  · have hne : p.render.isEmpty = false := by
      simp [Pos.render, Bytes.ofNat_ne_nil]
    rw [placeOfText, if_neg (by simp [hne]), place?_render h]

/-! ## §3 Parts of a schema -/

/-- Where each entry is read as something, so is the list. -/
theorem entries_map_eq {α β γ : Type} {f : β → Except Fault γ} {g : α → β} {k : α → γ} {l : List α}
    (h : ∀ a ∈ l, f (g a) = .ok (k a)) : entries f (l.map fun a => some (g a)) = .ok (l.map k) := by
  induction l with
  | nil => rfl
  | cons a l ih =>
    obtain ⟨ha, hl⟩ := List.forall_mem_cons.mp h
    have hrest := ih hl
    unfold entries at hrest ⊢
    rw [List.map_cons, List.mapM_cons, hrest]
    dsimp only
    rw [ha]
    rfl

/-- Entries that all read back do so as a list. -/
theorem entries_map {α β : Type} {f : β → Except Fault α} {g : α → β} {l : List α}
    (h : ∀ a ∈ l, f (g a) = .ok a) : entries f (l.map fun a => some (g a)) = .ok l := by
  simpa using entries_map_eq (k := fun a => a) h

theorem toSchema_ofSchema_value {v : Idl.Value} (h : v.Portable) :
    (Value.ofSchema v).toSchema = .ok v := by
  cases v with
  | int n =>
    change ((readInt64 (Bytes.ofInt n)).map Idl.Value.int).mapError _ = _
    rw [readInt64_ofInt h.1 h.2]
    rfl
  | uint n =>
    change ((readUInt64 (Bytes.ofNat n)).map Idl.Value.uint).mapError _ = _
    rw [readUInt64_ofNat h]
    rfl
  | float x =>
    change ((readFloat x.render).map Idl.Value.float).mapError _ = _
    rw [Binary64.readFloat_render h]
    rfl
  | bool b =>
    change ((readBool (Idl.Value.boolName b)).map Idl.Value.bool).mapError _ = _
    rw [readBool_boolName]
    rfl
  | text t => rfl
  | ident name => rfl
  | unassigned n => exact absurd h not_false

/-- A pair keeps its value. -/
theorem toSchema_ofSchema_pair {p : Idl.Pair} (h : p.value.Portable) :
    (Pair.ofSchema p).toSchema = .ok p := by
  rw [Pair.ofSchema, Pair.toSchema]
  dsimp only
  rw [toSchema_ofSchema_value h]
  rfl

/-- An annotation is kept. -/
theorem toSchema_ofSchema_annot {a : Idl.Annot} (h : a.Portable) :
    (Annot.ofSchema a).toSchema = .ok a := by
  -- the pairs are read one by one
  have hpairs : entries Pair.toSchema (a.pairs.map fun p => some (Pair.ofSchema p)) = .ok a.pairs :=
    entries_map fun p hp => toSchema_ofSchema_pair (h.pairs p hp)
  obtain ⟨name, value, pairs⟩ := a
  unfold Annot.toSchema Annot.ofSchema
  cases value with
  | none =>
    dsimp only [Option.map_none] at hpairs ⊢
    rw [hpairs]
    rfl
  | some v =>
    dsimp only [Option.map_some] at hpairs ⊢
    rw [toSchema_ofSchema_value (h.value v rfl), hpairs]
    rfl

/-- So are annotations in a list. -/
theorem annotsToSchema_annotsOfSchema {l : List Idl.Annot} (h : ∀ a ∈ l, a.Portable) :
    annotsToSchema (annotsOfSchema l) = .ok l :=
  entries_map fun a ha => toSchema_ofSchema_annot (h a ha)

/-- A type is kept. -/
theorem toSchema_ofSchema_type {t : Ty} (h : t.Portable) :
    (TypeName.ofSchema t).toSchema = .ok t := by
  cases t with
  | scalar s => cases s <;> decide
  | message name =>
    have hne : name.isEmpty = false := by
      rw [List.isEmpty_eq_false_iff]
      exact h
    simp [TypeName.ofSchema, TypeName.toSchema, hne]
  | unassigned n => exact absurd h not_false

/-- So is one that may be missing. -/
theorem typeToSchema?_ofSchema {t : Option Ty} (h : ∀ u ∈ t, u.Portable) :
    typeToSchema? (t.map .ofSchema) = .ok t := by
  cases t with
  | none => rfl
  | some u =>
    rw [Option.map_some, typeToSchema?, toSchema_ofSchema_type (h u rfl)]
    rfl

/-- A field is kept. -/
theorem toSchema_ofSchema_field {message : Bytes} {f : Idl.Field} (h : f.Portable) :
    (Field.ofSchema f).toSchema message = .ok f := by
  unfold Field.toSchema Field.ofSchema
  dsimp only
  rw [toSchema_ofSchema_type h.type, annotsToSchema_annotsOfSchema h.annots,
    placeOfText_placeOf h.source]
  rfl

/-- A message is kept. -/
theorem toSchema_ofSchema_message {m : Idl.Message} (h : m.Portable) :
    (Message.ofSchema m).toSchema = .ok m := by
  unfold Message.toSchema Message.ofSchema
  dsimp only
  rw [annotsToSchema_annotsOfSchema h.annots, placeOfText_placeOf h.source,
    entries_map fun f hf => toSchema_ofSchema_field (h.fields f hf)]
  rfl

/-- A method is kept. -/
theorem toSchema_ofSchema_method {m : Idl.Method} (h : m.Portable) :
    (Method.ofSchema m).toSchema = .ok m := by
  unfold Method.toSchema Method.ofSchema
  dsimp only
  rw [typeToSchema?_ofSchema h.input, typeToSchema?_ofSchema h.output,
    annotsToSchema_annotsOfSchema h.annots, placeOfText_placeOf h.source]
  rfl

/-- A service that has not been identified. -/
def blank (s : Idl.Service) : Idl.Service := { s with id := .zero, canonical := [] }

/-- A service reads back, its identifier apart. -/
theorem toSchema_ofSchema_service {s : Idl.Service} (h : s.Portable) :
    (Service.ofSchema s).toSchema = .ok (blank s) := by
  unfold Service.toSchema Service.ofSchema
  dsimp only
  rw [annotsToSchema_annotsOfSchema h.annots, placeOfText_placeOf h.source,
    entries_map fun m hm => toSchema_ofSchema_method (h.methods m hm)]
  rfl

/-! ## §4 Schemas -/

/-- Where nothing is missing inside, nothing is missing. -/
theorem anyMissing_map {α β : Type} {inside : β → Bool} {g : α → β} {l : List α}
    (h : ∀ a ∈ l, inside (g a) = false) : anyMissing inside (l.map fun a => some (g a)) = false := by
  rw [anyMissing, List.any_eq_false]
  intro b hb
  obtain ⟨a, ha, rfl⟩ := List.mem_map.mp hb
  simpa using h a ha

/-- No annotation of a schema is missing. -/
theorem annotsMissing_annotsOfSchema (l : List Idl.Annot) :
    annotsMissing (annotsOfSchema l) = false :=
  anyMissing_map fun _ _ => anyMissing_map fun _ _ => rfl

/-- A document made of a schema misses nothing. -/
theorem hasMissing_ofSchema (s : Schema) : (ofSchema s).hasMissing = false := by
  -- every list is that of some entries, none of them null
  have hmessages : anyMissing (fun m : Message => annotsMissing m.annots
      || anyMissing (fun f : Field => annotsMissing f.annots) m.fields)
      (s.messages.map fun m => some (.ofSchema m)) = false := by
    refine anyMissing_map fun m _ => ?_
    rw [Bool.or_eq_false_iff]
    exact ⟨annotsMissing_annotsOfSchema _, anyMissing_map fun _ _ => annotsMissing_annotsOfSchema _⟩
  have hservices : anyMissing (fun s : Service => annotsMissing s.annots
      || anyMissing (fun m : Method => annotsMissing m.annots) s.methods)
      (s.services.map fun m => some (.ofSchema m)) = false := by
    refine anyMissing_map fun m _ => ?_
    rw [Bool.or_eq_false_iff]
    exact ⟨annotsMissing_annotsOfSchema _, anyMissing_map fun _ _ => annotsMissing_annotsOfSchema _⟩
  rw [hasMissing, Bool.or_eq_false_iff, Bool.or_eq_false_iff]
  exact ⟨⟨annotsMissing_annotsOfSchema _, hmessages⟩, hservices⟩

/-- Identifiers do not depend on the identifiers that are there. -/
theorem identify_blank (s : Schema) :
    Schema.identify { s with services := s.services.map blank, id := .zero } = s.identify := by
  have hservices : (s.services.map blank).map Canonical.service
      = s.services.map Canonical.service := by
    rw [List.map_map]
    rfl
  simp only [Schema.identify, Schema.identity, Schema.encoding, hservices, List.map_map]
  rfl

/-- A recorded identifier is the one that is found, or there is none. -/
theorem textOrEmpty_cases (i : Identifier) : i.textOrEmpty = [] ∨ i.textOrEmpty = i.text := by
  unfold Identifier.textOrEmpty
  split
  · exact .inl rfl
  · exact .inr rfl

/-- A service passes the check against itself. -/
theorem checkService_ofSchema (s : Idl.Service) : checkService (some (.ofSchema s)) s = .ok () := by
  have hid : (Service.ofSchema s).id = s.id.textOrEmpty := rfl
  rw [checkService, hid]
  rcases textOrEmpty_cases s.id with h | h
  · simp [h]
  · simp [h]

/-- What text can carry comes back from the document. -/
theorem toSchema_ofSchema {s : Schema} (h : s.Portable) : (ofSchema s).toSchema = .ok s := by
  have hannots : annotsToSchema (ofSchema s).annots = .ok s.annots :=
    annotsToSchema_annotsOfSchema h.annots
  have hmessages : entries Message.toSchema (ofSchema s).messages = .ok s.messages :=
    entries_map fun m hm => toSchema_ofSchema_message (h.messages m hm)
  have hservices : entries Service.toSchema (ofSchema s).services = .ok (s.services.map blank) :=
    entries_map_eq fun svc hsvc => toSchema_ofSchema_service (h.services svc hsvc)
  -- the recorded identifier is empty or the schema's own, and either is accepted
  have hid : (!(ofSchema s).id.isEmpty && (ofSchema s).id != s.id.text) = false := by
    have hrecorded : (ofSchema s).id = s.id.textOrEmpty := rfl
    rw [hrecorded]
    rcases textOrEmpty_cases s.id with h | h <;> simp [h]
  have hchecks : ((ofSchema s).services.zip s.services).mapM (fun x => checkService x.1 x.2)
      = .ok (s.services.map fun _ => ()) := by
    change ((s.services.map fun svc => some (Service.ofSchema svc)).zip s.services).mapM _ = _
    induction s.services with
    | nil => rfl
    | cons svc l ih =>
      rw [List.map_cons, List.zip_cons_cons, List.mapM_cons, checkService_ofSchema, ih]
      rfl
  -- the identifiers of the services were blanked: the schema computes them again
  have hidentify : Schema.identify ⟨s.package, s.messages, s.services.map blank, s.annots,
      s.parserVersion, s.sourcePath, .zero⟩ = s := (identify_blank s).trans h.identified
  unfold toSchema
  rw [hasMissing_ofSchema, hannots, hmessages, hservices]
  change (do
    let s' := Schema.identify ⟨s.package, s.messages, s.services.map blank, s.annots,
      s.parserVersion, s.sourcePath, .zero⟩
    if !(ofSchema s).id.isEmpty && (ofSchema s).id != s'.id.text then
      throw (.wrongIdentifier (ofSchema s).id s'.id)
    let _ ← ((ofSchema s).services.zip s'.services).mapM fun x => checkService x.1 x.2
    return s' : Except Fault Schema) = .ok s
  rw [hidentify]
  simp [hid, hchecks]

/-! ## §5 What a document gives -/

/-- Where each entry gives values with a property, so does the list. -/
theorem Gives.entries {α β : Type} {P : β → Prop} {f : α → Except Fault β} (h : ∀ a, Gives P (f a))
    (l : List (Option α)) : Gives (fun r => ∀ b ∈ r, P b) (entries f l) := by
  unfold Document.entries
  induction l with
  | nil => exact gives_ok nofun
  | cons o l ih =>
    rw [List.mapM_cons]
    -- one entry, and then the rest
    refine Gives.bind (P := P) ?_ fun b hb => ih.bind fun r hr =>
      gives_ok (List.forall_mem_cons.mpr ⟨hb, hr⟩)
    cases o with
    | none => exact gives_error _
    | some a => exact h a

/-- A value that is accepted is in range. -/
theorem gives_portable_value (v : Value) : Gives Idl.Value.Portable v.toSchema := by
  -- what a reader gives is in the range of its kind
  have hread {α : Type} {reader : Bytes} {r : Except ReadFault α} {f : α → Idl.Value}
      (hf : ∀ a, r = .ok a → (f a).Portable) :
      Gives Idl.Value.Portable ((r.map f).mapError (Fault.badConstant reader v.text)) := by
    have hgives : Gives (fun a => r = .ok a) r := fun a ha => ha
    exact (hgives.map hf).mapError
  unfold Value.toSchema
  split
  · exact hread fun n hn => bounds_of_readInt64 hn
  split
  · exact hread fun n hn => lt_of_readNat hn
  split
  · exact hread fun x hx => isNaN_of_readFloat hx
  split
  · exact hread fun _ _ => trivial
  split
  · exact gives_ok trivial
  split
  · exact gives_ok trivial
  · exact gives_error _

/-- So is that of a pair. -/
theorem gives_portable_pair (p : Pair) :
    Gives (fun q : Idl.Pair => q.value.Portable) p.toSchema := by
  unfold Pair.toSchema
  split
  · exact gives_error _
  · next v _ => exact (gives_portable_value v).map fun _ h => h

/-- So are those of an annotation. -/
theorem gives_portable_annot (a : Annot) : Gives Idl.Annot.Portable a.toSchema := by
  -- the pairs, whatever the value was
  have hrest {u : Option Idl.Value} (hu : ∀ w ∈ u, w.Portable) : Gives Idl.Annot.Portable (do
      let pairs ← entries Pair.toSchema a.pairs
      pure ⟨a.name, u, pairs⟩) :=
    (Gives.entries gives_portable_pair a.pairs).bind fun pairs hpairs => gives_ok ⟨hu, hpairs⟩
  unfold Annot.toSchema
  cases a.value with
  | none => exact hrest nofun
  | some v =>
    -- the value, when there is one
    have hvalue : Gives (fun u : Option Idl.Value => ∀ w ∈ u, w.Portable)
        (v.toSchema.map some) := by
      refine (gives_portable_value v).map fun u hu => ?_
      rintro _ ⟨⟩
      exact hu
    exact hvalue.bind fun u hu => hrest hu

/-- The annotations of an entity. -/
theorem gives_portable_annots (l : List (Option Annot)) :
    Gives (fun r => ∀ a ∈ r, a.Portable) (annotsToSchema l) :=
  Gives.entries gives_portable_annot l

/-- A type that is accepted is a known one. -/
theorem gives_portable_type (t : TypeName) : Gives Ty.Portable t.toSchema := by
  unfold TypeName.toSchema
  split
  · next h =>
    refine gives_ok ?_
    -- a message is named, so the name is not empty
    rintro hnil
    simp [hnil] at h
  split
  · split
    · exact gives_ok trivial
    · exact gives_error _
  · exact gives_error _

/-- Or missing. -/
theorem gives_portable_type? (t : Option TypeName) :
    Gives (fun u : Option Ty => ∀ w ∈ u, w.Portable) (typeToSchema? t) := by
  cases t with
  | none => exact gives_ok nofun
  | some t =>
    refine (gives_portable_type t).map fun u hu => ?_
    rintro _ ⟨⟩
    exact hu

/-- A coordinate has 32 bits. -/
theorem lt_of_coordinate? {t r : List Char} {n : Nat} (h : coordinate? t = some (n, r)) :
    n < 2 ^ 32 := by
  unfold coordinate? at h
  cases hskip : skipBlanks? t with
  | none =>
    rw [hskip] at h
    cases h
  | some u =>
    rw [hskip, Option.bind_eq_bind, Option.bind_some] at h
    dsimp only at h
    split at h
    · cases h
    · -- anything larger was refused
      next hlt =>
      cases h
      simp only [Bool.or_eq_true, decide_eq_true_eq, not_or] at hlt
      omega

/-- A place that is accepted has coordinates of 32 bits. -/
theorem gives_portable_place (t : Bytes) : Gives Pos.Portable (placeOfText t) := by
  unfold placeOfText
  split
  · -- a place left out
    exact gives_ok ⟨by decide, by decide⟩
  split
  · next p hp =>
    refine gives_ok ?_
    unfold place? at hp
    cases hline : coordinate? (Utf8.chars t) with
    | none =>
      rw [hline] at hp
      cases hp
    | some x =>
      rw [hline, Option.bind_eq_bind, Option.bind_some] at hp
      obtain ⟨line, rest⟩ := x
      dsimp only at hp
      split at hp
      · next rest' =>
        cases hcol : coordinate? rest' with
        | none =>
          rw [hcol] at hp
          cases hp
        | some y =>
          rw [hcol] at hp
          cases hp
          -- a line, a colon and a column
          exact ⟨lt_of_coordinate? hline, lt_of_coordinate? hcol⟩
      · cases hp
  · exact gives_error _

/-- A field that is accepted. -/
theorem gives_portable_field (message : Bytes) (f : Field) :
    Gives Idl.Field.Portable (f.toSchema message) := by
  unfold Field.toSchema
  cases f.type with
  | none => exact gives_error _
  | some t =>
    exact (gives_portable_type t).bind fun t ht =>
      (gives_portable_annots f.annots).bind fun annots hannots =>
      (gives_portable_place f.source).bind fun source hsource => gives_ok ⟨ht, hannots, hsource⟩

/-- A message that is accepted. -/
theorem gives_portable_message (m : Message) : Gives Idl.Message.Portable m.toSchema := by
  unfold Message.toSchema
  exact (gives_portable_annots m.annots).bind fun annots hannots =>
    (gives_portable_place m.source).bind fun source hsource =>
    (Gives.entries (gives_portable_field m.name) m.fields).bind fun fields hfields =>
      gives_ok ⟨hannots, hsource, hfields⟩

/-- A method that is accepted. -/
theorem gives_portable_method (m : Method) : Gives Idl.Method.Portable m.toSchema := by
  unfold Method.toSchema
  exact (gives_portable_type? m.input).bind fun input hinput =>
    (gives_portable_type? m.output).bind fun output houtput =>
    (gives_portable_annots m.annots).bind fun annots hannots =>
    (gives_portable_place m.source).bind fun source hsource =>
      gives_ok ⟨hinput, houtput, hannots, hsource⟩

/-- A service that is accepted. -/
theorem gives_portable_service (s : Service) : Gives Idl.Service.Portable s.toSchema := by
  unfold Service.toSchema
  exact (gives_portable_annots s.annots).bind fun annots hannots =>
    (gives_portable_place s.source).bind fun source hsource =>
    (Gives.entries gives_portable_method s.methods).bind fun methods hmethods =>
      gives_ok ⟨hannots, hsource, hmethods⟩

/-- Filling in identifiers a second time changes nothing. -/
theorem identify_identify (s : Schema) : s.identify.identify = s.identify := by
  have hblank : Schema.identify { s.identify with services := s.identify.services.map blank, id := .zero }
      = s.identify.identify := identify_blank _
  rw [← hblank, ← identify_blank s]
  simp only [Schema.identify, List.map_map]
  rfl

/-- What is identified is portable if its parts are. -/
theorem portable_identify {s : Schema} (hannots : ∀ a ∈ s.annots, a.Portable)
    (hmessages : ∀ m ∈ s.messages, m.Portable) (hservices : ∀ svc ∈ s.services, svc.Portable) :
    s.identify.Portable := by
  refine ⟨hannots, hmessages, List.forall_mem_map.mpr fun svc hsvc => ?_, identify_identify s⟩
  obtain ⟨annots, source, methods⟩ := hservices svc hsvc
  exact ⟨annots, source, methods⟩

/-- What a document gives is portable. -/
theorem portable_of_toSchema {d : Document} {s : Schema} (h : d.toSchema = .ok s) : s.Portable := by
  -- each part is checked on its own
  have hgives : Gives Schema.Portable d.toSchema := by
    unfold toSchema
    split
    · exact gives_error _
    refine (gives_portable_annots d.annots).bind fun annots hannots =>
      (Gives.entries gives_portable_message d.messages).bind fun messages hmessages =>
      (Gives.entries gives_portable_service d.services).bind fun services hservices => ?_
    dsimp only
    split
    · exact gives_error _
    · exact (gives_true _).bind fun _ _ => gives_ok (portable_identify hannots hmessages hservices)
  exact hgives s h

end Document

end Idl
