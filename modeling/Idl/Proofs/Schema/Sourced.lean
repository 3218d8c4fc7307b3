import Idl.Proofs.Document.Conversion

/-!
# What a source can say

The names in a source are words of ASCII characters, its literals denote numbers that text can
carry, and its places have coordinates of 32 bits. Nothing is said of its texts: by their escapes
they can hold any octets.

* §1 names, §2 parts of a source, §3 documents.
-/

namespace Idl

/-! ## §1 Names -/

theorem Bytes.ascii_of_isWord {b : UInt8} (h : isWord b = true) : b.toNat < 0x80 := by
  simp only [isWord, isLetter, isDigit, Bool.or_eq_true, Bool.and_eq_true, decide_eq_true_eq,
    beq_iff_eq, UInt8.le_iff_toNat_le] at h
  rcases h with ((⟨-, h⟩ | ⟨-, h⟩) | ⟨-, h⟩) | rfl
  · exact Nat.lt_of_le_of_lt h (by decide)
  · exact Nat.lt_of_le_of_lt h (by decide)
  · exact Nat.lt_of_le_of_lt h (by decide)
  · decide

/-- What holds of the octets of all pieces and of a separator holds of them when joined. -/
theorem Bytes.forall_mem_join {P : UInt8 → Prop} {sep : Bytes} {pieces : List Bytes}
    (hsep : ∀ b ∈ sep, P b) (hpieces : ∀ t ∈ pieces, ∀ b ∈ t, P b) :
    ∀ b ∈ join sep pieces, P b := by
  unfold join
  induction pieces with
  | nil => nofun
  | cons t r ih =>
    obtain ⟨ht, hr⟩ := List.forall_mem_cons.mp hpieces
    cases r with
    | nil =>
      rw [List.intercalate_singleton]
      exact ht
    | cons u r =>
      rw [List.intercalate_cons_cons, List.forall_mem_append, List.forall_mem_append]
      exact ⟨⟨ht, hsep⟩, ih hr⟩

/-! ## §2 Parts of a source -/

/-- A constant of a source. -/
structure Value.Sourced (v : Value) : Prop where
  portable : v.Portable
  name : ∀ name, v = .ident name → Utf8.isValid name = true

/-- A named value of an annotation of a source. -/
structure Pair.Sourced (p : Pair) : Prop where
  key : Utf8.isValid p.key = true
  value : p.value.Sourced

/-- An annotation of a source. -/
structure Annot.Sourced (a : Annot) : Prop where
  name : Utf8.isValid a.name = true
  value : ∀ v ∈ a.value, v.Sourced
  pairs : ∀ p ∈ a.pairs, p.Sourced

/-- A type of a source. -/
structure Ty.Sourced (t : Ty) : Prop where
  portable : t.Portable
  textual : t.Textual

/-- A field of a source. -/
structure Field.Sourced (f : Field) : Prop where
  name : Utf8.isValid f.name = true
  type : f.type.Sourced
  annots : ∀ a ∈ f.annots, a.Sourced
  source : f.source.Portable

/-- A message of a source. -/
structure Message.Sourced (m : Message) : Prop where
  name : Utf8.isValid m.name = true
  annots : ∀ a ∈ m.annots, a.Sourced
  source : m.source.Portable
  fields : ∀ f ∈ m.fields, f.Sourced

/-- A method of a source. -/
structure Method.Sourced (m : Method) : Prop where
  name : Utf8.isValid m.name = true
  input : ∀ t ∈ m.input, t.Sourced
  output : ∀ t ∈ m.output, t.Sourced
  annots : ∀ a ∈ m.annots, a.Sourced
  source : m.source.Portable

/-- A service of a source. -/
structure Service.Sourced (s : Service) : Prop where
  name : Utf8.isValid s.name = true
  annots : ∀ a ∈ s.annots, a.Sourced
  source : s.source.Portable
  methods : ∀ m ∈ s.methods, m.Sourced

/-- A schema of a source, which is identified by its content. -/
structure Schema.Sourced (s : Schema) : Prop where
  package : Utf8.isValid s.package = true
  annots : ∀ a ∈ s.annots, a.Sourced
  messages : ∀ m ∈ s.messages, m.Sourced
  services : ∀ svc ∈ s.services, svc.Sourced
  identified : s.identify = s

/-! ## §3 Documents -/

theorem Annot.Sourced.portable {a : Annot} (h : a.Sourced) : a.Portable :=
  ⟨fun v hv => (h.value v hv).portable, fun p hp => (h.pairs p hp).value.portable⟩

theorem Field.Sourced.portable {f : Field} (h : f.Sourced) : f.Portable :=
  ⟨h.type.portable, fun a ha => (h.annots a ha).portable, h.source⟩

theorem Message.Sourced.portable {m : Message} (h : m.Sourced) : m.Portable :=
  ⟨fun a ha => (h.annots a ha).portable, h.source, fun f hf => (h.fields f hf).portable⟩

theorem Method.Sourced.portable {m : Method} (h : m.Sourced) : m.Portable :=
  ⟨fun t ht => (h.input t ht).portable, fun t ht => (h.output t ht).portable,
    fun a ha => (h.annots a ha).portable, h.source⟩

theorem Service.Sourced.portable {s : Service} (h : s.Sourced) : s.Portable :=
  ⟨fun a ha => (h.annots a ha).portable, h.source, fun m hm => (h.methods m hm).portable⟩

/-- What comes from a source can be written as a document. -/
theorem Schema.Sourced.portable {s : Schema} (h : s.Sourced) : s.Portable :=
  ⟨fun a ha => (h.annots a ha).portable, fun m hm => (h.messages m hm).portable,
    fun svc hsvc => (h.services svc hsvc).portable, h.identified⟩

end Idl
