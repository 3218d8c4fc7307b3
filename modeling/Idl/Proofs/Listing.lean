import Idl.Listing
import Idl.Proofs.Compile.Constants
import Idl.Proofs.Files.Walk
import Idl.Proofs.Text.Pieces

/-!
# Listings

A text is quoted in a listing character by character, and what is quoted is a literal of the
language: it is read as one token, which denotes the text. Nothing that is quoted, nor anything else
in the listing of a schema, breaks the line on which it stands.

* §1 quoted texts, §2 the properties of a schema, §3 the parts of a schema,
* §4 the lines of a listing.
-/

namespace Idl

open Bytes (Legible legible_append)

namespace Listing

open Quoted (Piece enclosed piece_sign piece_hex piece_ofChar)

variable {o : Options}

/-! ## §1 Quoted texts -/

/-- The two hexadecimal digits, with capital letters, of a number that fits in them. -/
theorem toUpper_hexDigits : ∀ n < 0x80, (Bytes.toUpper (Bytes.hexDigits 2 n)).length = 2
    ∧ (Bytes.toUpper (Bytes.hexDigits 2 n)).all Bytes.isHexDigit = true
    ∧ Bytes.toNat 16 (Bytes.toUpper (Bytes.hexDigits 2 n)) = n := by
  decide

/-- What is written for a character denotes the octets of the character. -/
theorem piece_quoteChar (c : Char) : Piece (quoteChar c) (Utf8.ofChar c) := by
  unfold quoteChar
  split
  · next hmark =>
    simp only [Bool.or_eq_true, beq_iff_eq] at hmark
    rcases hmark with rfl | rfl
    · exact piece_sign (c := 0x5C) (by decide)
    · exact piece_sign (c := 0x22) (by decide)
  next hmark =>
  split
  · next htab =>
    obtain rfl := beq_iff_eq.mp htab
    exact piece_sign (c := 0x74) (x := 0x09) (by decide)
  split
  · next hnewline =>
    obtain rfl := beq_iff_eq.mp hnewline
    exact piece_sign (c := 0x6E) (x := 0x0A) (by decide)
  split
  · next hcontrol =>
    -- a control character is below 0x80, so two hexadecimal digits write it
    have hascii : c.toNat < 0x80 := by
      simp only [Bool.or_eq_true, decide_eq_true_eq, beq_iff_eq] at hcontrol
      omega
    obtain ⟨hlength, hdigits, hvalue⟩ := toUpper_hexDigits c.toNat hascii
    rcases Utf8.ofChar_cases c with ⟨-, hoctets⟩ | ⟨hlow, -⟩
    · rw [hoctets]
      refine piece_hex hlength (List.all_eq_true.mp hdigits) ?_
      exact (Utf8.toNat_octet (by omega)).trans hvalue.symm
    · omega
  · next hcontrol =>
    simp only [Bool.or_eq_true, decide_eq_true_eq, beq_iff_eq, not_or] at hmark hcontrol
    exact piece_ofChar (by omega) hcontrol.2 hmark.2 hmark.1

/-- What is written for a text. -/
theorem exists_piece (t : Bytes) : ∃ p, Piece p (Utf8.sanitize t) ∧ quoted t = enclosed p :=
  ⟨(Utf8.chars t).flatMap quoteChar, .flatMap fun c _ => piece_quoteChar c, rfl⟩

/-- There is no control character in what is quoted, whatever the text is. -/
theorem shown_quoted (t : Bytes) : ∀ c ∈ quoted t, Quoted.IsShown c := by
  obtain ⟨p, hp, hquoted⟩ := exists_piece t
  exact hquoted ▸ hp.shown_enclosed

theorem textLitValue_quoted {t : Bytes} (ht : Utf8.isValid t = true) :
    textLitValue (quoted t) = .ok t := by
  obtain ⟨p, hp, hquoted⟩ := exists_piece t
  have hvalue := hp.textLitValue
  have htext : Utf8.sanitize t = t := Utf8.ofChars_chars ht
  rw [hquoted, hvalue, htext]

/-- A source that is a quoted text is one token. -/
theorem lex_quoted {t : Bytes} (hsize : (quoted t).length ≤ maxTokenSize) :
    ∃ token e, lex (quoted t) = .ok ⟨[token], .ok e⟩ ∧ token.kind = .textLit
      ∧ token.text = quoted t := by
  obtain ⟨p, hp, hquoted⟩ := exists_piece t
  rw [hquoted] at hsize ⊢
  exact hp.lex hsize

/-- Well-formed texts can be told apart by how they are quoted. -/
theorem quoted_injective {t u : Bytes} (ht : Utf8.isValid t = true) (hu : Utf8.isValid u = true)
    (h : quoted t = quoted u) : t = u := by
  have hvalue := textLitValue_quoted ht
  rw [h, textLitValue_quoted hu] at hvalue
  exact (Except.ok.inj hvalue).symm

/-! ## §2 The properties of a schema -/

theorem legible_quoted (t : Bytes) : Legible (quoted t) := fun c hc => (shown_quoted t c hc).1

theorem legible_property {name value : Bytes} (hname : Legible name) (hvalue : Legible value) :
    Legible (property name value) :=
  legible_append.mpr ⟨legible_append.mpr ⟨hname, by decide⟩, hvalue⟩

theorem legible_flag (b : Bool) : Legible (flag b) := by
  cases b
  · decide
  · decide

theorem legible_place (p : Pos) : Legible p.render :=
  legible_append.mpr
    ⟨legible_append.mpr ⟨Bytes.legible_ofNat p.line, by decide⟩, Bytes.legible_ofNat p.col⟩

/-- A line of a listing: tabs, and then a text without control characters. -/
def IsLine (l : Bytes) : Prop := ∃ n p, l = List.replicate n 0x09 ++ p ∧ Legible p

theorem isLine_of_legible {l : Bytes} (h : Legible l) : IsLine l := ⟨0, l, rfl, h⟩

theorem IsLine.indent {l : Bytes} (h : IsLine l) : IsLine (("\t" : Bytes) ++ l) := by
  obtain ⟨n, p, rfl, hp⟩ := h
  exact ⟨n + 1, p, rfl, hp⟩

/-- A line does not go over the end of a line. -/
theorem IsLine.not_mem {l : Bytes} (h : IsLine l) : 0x0A ∉ l := by
  obtain ⟨n, p, rfl, hp⟩ := h
  intro hmem
  rcases List.mem_append.mp hmem with hmem | hmem
  · exact absurd (List.mem_replicate.mp hmem).2 (by decide)
  · exact hp.not_mem (by decide) hmem

/-- All of the lines are such lines. -/
abbrev AreLines (l : List Bytes) : Prop := ∀ line ∈ l, IsLine line

section Lines

variable {l m : List Bytes} {line : Bytes}

theorem areLines_append (hl : AreLines l) (hm : AreLines m) : AreLines (l ++ m) :=
  List.forall_mem_append.mpr ⟨hl, hm⟩

theorem areLines_cons (hline : Legible line) (hl : AreLines l) : AreLines (line :: l) :=
  List.forall_mem_cons.mpr ⟨isLine_of_legible hline, hl⟩

theorem areLines_singleton (hline : Legible line) : AreLines [line] :=
  List.forall_mem_singleton.mpr (isLine_of_legible hline)

theorem areLines_map {α : Type} {f : α → Bytes} {l : List α} (h : ∀ x ∈ l, Legible (f x)) :
    AreLines (l.map f) := by
  intro line hline
  obtain ⟨x, hx, rfl⟩ := List.mem_map.mp hline
  exact isLine_of_legible (h x hx)

theorem areLines_flatMap {α : Type} {f : α → List Bytes} {l : List α}
    (h : ∀ x ∈ l, AreLines (f x)) : AreLines (l.flatMap f) := by
  intro line hline
  obtain ⟨x, hx, hline⟩ := List.mem_flatMap.mp hline
  exact h x hx line hline

theorem areLines_block {heading : Bytes} (hheading : Legible heading) (hl : AreLines l) :
    AreLines (block heading l) := by
  refine areLines_append (areLines_cons ?_ fun line hline => ?_) (areLines_singleton ?_)
  · exact legible_append.mpr ⟨hheading, by decide⟩
  · obtain ⟨inner, hinner, rfl⟩ := List.mem_map.mp hline
    exact (hl inner hinner).indent
  · decide

end Lines

/-! ## §3 The parts of a schema -/

/-- The words and annotations of a schema that are listed without quotes are texts of one line. -/
structure Legibly (s : Schema) : Prop where
  annots : ∀ l ∈ s.annotLists, ∀ a ∈ l, Legible a.render
  messages : ∀ m ∈ s.messages, Legible m.name
  fields : ∀ m ∈ s.messages, ∀ f ∈ m.fields, Legible f.name ∧ Legible f.type.name
  services : ∀ v ∈ s.services, Legible v.name
  methods : ∀ v ∈ s.services, ∀ m ∈ v.methods, Legible m.name
    ∧ Legible (Ty.nameOrVoid m.input) ∧ Legible (Ty.nameOrVoid m.output)

theorem areLines_common {docs : List Bytes} {l : List Annot} {source : Pos}
    (h : ∀ a ∈ l, Legible a.render) : AreLines (common o docs l source) := by
  refine areLines_append (areLines_append ?_ ?_) ?_
  · split
    · nofun
    · exact areLines_singleton (legible_property (by decide) (legible_place source))
  · exact areLines_map fun d _ => legible_property (by decide) (legible_quoted d)
  · exact areLines_map fun a ha => legible_property (by decide) (h a ha)

theorem areLines_identity (i : Identifier) : AreLines (identity o i) := by
  unfold identity
  split
  · nofun
  · exact areLines_singleton (legible_property (by decide) (legible_quoted i.text))

theorem areLines_provenance (s : Schema) : AreLines (provenance o s) := by
  unfold provenance
  split
  · nofun
  · refine areLines_cons (legible_property (by decide) (legible_quoted _)) ?_
    split
    · nofun
    · exact areLines_singleton (legible_property (by decide) (legible_quoted _))

namespace Legibly

variable {s : Schema}

/-- The lines of a message and of its fields. -/
theorem message (h : Legibly s) {m : Message} (hm : m ∈ s.messages) :
    AreLines (Listing.message o m) := by
  -- the annotations of the message come first, those of its fields behind them
  have hlists : ∀ l ∈ m.annotLists, ∀ a ∈ l, Legible a.render := fun l hl =>
    h.annots l (List.mem_cons_of_mem _ (List.mem_append_left _ (List.mem_flatMap.mpr ⟨m, hm, hl⟩)))
  refine areLines_block (legible_append.mpr ⟨by decide, h.messages m hm⟩) ?_
  refine areLines_append (areLines_common (hlists _ List.mem_cons_self)) ?_
  refine areLines_flatMap fun f hf => ?_
  obtain ⟨hname, htype⟩ := h.fields m hm f hf
  have hannots := hlists f.annots (List.mem_cons_of_mem _ (List.mem_map_of_mem hf))
  refine areLines_block (legible_append.mpr ⟨by decide, hname⟩) ?_
  refine areLines_append (areLines_common hannots) ?_
  exact areLines_cons (legible_property (by decide) htype)
    (areLines_cons (legible_property (by decide) (Bytes.legible_ofNat _))
      (areLines_singleton (legible_property (by decide) (legible_flag _))))

/-- The lines of a service and of its methods. -/
theorem service (h : Legibly s) {v : Service} (hv : v ∈ s.services) :
    AreLines (Listing.service o v) := by
  have hlists : ∀ l ∈ v.annotLists, ∀ a ∈ l, Legible a.render := fun l hl =>
    h.annots l (List.mem_cons_of_mem _ (List.mem_append_right _ (List.mem_flatMap.mpr ⟨v, hv, hl⟩)))
  -- the two sides stand behind the identifier and the annotations
  have hsides : AreLines [property "client" (flag v.client), property "server" (flag v.server)] :=
    areLines_cons (legible_property (by decide) (legible_flag _))
      (areLines_singleton (legible_property (by decide) (legible_flag _)))
  refine areLines_block (legible_append.mpr ⟨by decide, h.services v hv⟩) ?_
  refine areLines_append (areLines_append (areLines_append (areLines_identity v.id)
    (areLines_common (hlists _ List.mem_cons_self))) hsides) ?_
  refine areLines_flatMap fun m hm => ?_
  obtain ⟨hname, hinput, houtput⟩ := h.methods v hv m hm
  have hannots := hlists m.annots (List.mem_cons_of_mem _ (List.mem_map_of_mem hm))
  refine areLines_block (legible_append.mpr ⟨by decide, hname⟩) ?_
  refine areLines_append (areLines_common hannots) ?_
  exact areLines_cons (legible_property (by decide) hinput)
    (areLines_singleton (legible_property (by decide) houtput))

theorem lines (h : Legibly s) : AreLines (Listing.lines o s) := by
  refine areLines_append (areLines_append (areLines_append (areLines_append ?_ ?_) ?_) ?_) ?_
  · exact areLines_cons (legible_property (by decide) (legible_quoted _))
      (areLines_provenance s)
  · exact areLines_identity s.id
  · exact areLines_map fun a ha => legible_property (by decide)
      (h.annots s.annots List.mem_cons_self a ha)
  · exact areLines_flatMap fun m hm => h.message hm
  · exact areLines_flatMap fun v hv => h.service hv

end Legibly

end Listing

open Listing (Legibly)

section Compiled

variable {src sourcePath : Bytes} {allowMissingPackage : Bool} {c : Compilation} {s : Schema}

theorem Ty.legible_name_of_known {t : Ty} (h : t.Known s)
    (hmessages : ∀ m ∈ s.messages, Legible m.name) : Legible t.name := by
  cases t with
  | scalar x => cases x <;> decide
  | message name =>
    obtain ⟨m, hm, rfl⟩ := h
    exact hmessages m hm
  | unassigned n => exact h.elim

theorem Ty.legible_nameOrVoid {t : Option Ty} (h : ∀ x ∈ t, Legible x.name) :
    Legible (nameOrVoid t) := by
  cases t with
  | none => decide
  | some x => exact h x rfl

/-- The words and annotations of every schema that is compiled are texts of one line. -/
theorem legibly_of_compileSource
    (h : compileSource src sourcePath allowMissingPackage = .ok c) (hs : c.outcome = .ok s) :
    Legibly s := by
  have hnamed := named_of_compileSource h hs
  have hwell := compileSource_wellFormed h hs
  -- a name is made of letters, digits and underscores
  have hword {b : Bytes} (hb : Bytes.IsName b) : Legible b := Bytes.legible_of_isWord hb.octets
  have hmessages : ∀ m ∈ s.messages, Legible m.name := fun m hm => hword (hnamed.messages m hm)
  refine ⟨?_, hmessages, fun m hm f hf => ⟨hword (hnamed.fields m hm f hf), ?_⟩,
    fun v hv => hword (hnamed.services v hv),
    fun v hv m hm => ⟨hword (hnamed.methods v hv m hm), ?_, ?_⟩⟩
  · obtain ⟨f, hparse, -, rfl⟩ := exists_of_compileSource h hs
    -- the annotations are those that the source says
    intro l hl a ha
    exact (Tree.File.Says.of_mem_annotLists hl a ha).legible_render
      (Tree.File.legible_of_parseFile hparse)
  · exact Ty.legible_name_of_known ((hwell.messages m hm).fields f hf).type hmessages
  · exact Ty.legible_nameOrVoid fun t ht =>
      Ty.legible_name_of_known (((hwell.services v hv).methods m hm).input t ht) hmessages
  · exact Ty.legible_nameOrVoid fun t ht =>
      Ty.legible_name_of_known (((hwell.services v hv).methods m hm).output t ht) hmessages

end Compiled

/-! ## §4 The lines of a listing -/

/-- What is quoted in a listing is read back. The text between quotes is read as one token, and the
token denotes the text; there is no control character in it. So texts can be told apart by how they
are quoted, and the lines of the listing of a schema are the lines that were put into it. -/
theorem quoted_reads_back :
    (∀ t, Utf8.isValid t = true → (Listing.quoted t).length ≤ maxTokenSize →
      ∃ token e, lex (Listing.quoted t) = .ok ⟨[token], .ok e⟩ ∧ token.kind = .textLit
        ∧ token.text = Listing.quoted t ∧ textLitValue token.text = .ok t)
    ∧ (∀ t, ∀ c ∈ Listing.quoted t, 0x20 ≤ c.toNat ∧ c ≠ 0x7F)
    ∧ (∀ t u, Utf8.isValid t = true → Utf8.isValid u = true →
      Listing.quoted t = Listing.quoted u → t = u)
    ∧ ∀ src sourcePath allowMissingPackage c s o,
      compileSource src sourcePath allowMissingPackage = .ok c → c.outcome = .ok s →
      Bytes.split 0x0A (s.listing o) = Listing.lines o s ++ [[]] := by
  refine ⟨fun t ht hsize => ?_, Listing.shown_quoted, fun t u => Listing.quoted_injective,
    fun src sourcePath allowMissingPackage c s o h hs => ?_⟩
  · obtain ⟨token, e, hlex, hkind, htext⟩ := Listing.lex_quoted hsize
    exact ⟨token, e, hlex, hkind, htext, htext ▸ Listing.textLitValue_quoted ht⟩
  · -- no line of the dump holds a line break
    exact Bytes.split_flatMap_append fun line hline =>
      ((legibly_of_compileSource h hs).lines line hline).not_mem

/-- A tab, the end of a line, a control character with a digit behind it, quotes and letters: all of
them are read back. -/
theorem quoted_reads_back_escapes :
    Listing.quoted [0x09, 0x0A, 0x01, 0x35, 0x22, 0x5C, 0xC3, 0xA9]
        = "\"\\t\\n\\x015\\\"\\\\é\""
      ∧ textLitValue (Listing.quoted [0x09, 0x0A, 0x01, 0x35, 0x22, 0x5C, 0xC3, 0xA9])
        = .ok [0x09, 0x0A, 0x01, 0x35, 0x22, 0x5C, 0xC3, 0xA9] := by
  obtain ⟨token, e, -, -, htext, hvalue⟩ := quoted_reads_back.1
    [0x09, 0x0A, 0x01, 0x35, 0x22, 0x5C, 0xC3, 0xA9] (by decide) (by decide)
  exact ⟨by decide, htext ▸ hvalue⟩

end Idl
