import Idl.Proofs.Json.RoundTrip
import Idl.Proofs.Numeric.Notation
import Idl.Schema.Canonical

/-!
# Schemas of well-formed text

All strings of a schema may be well-formed UTF-8. The canonical encoding of such a schema is a
plain JSON value.

* §1 strings of a schema, §2 texts of constants and types, §3 the canonical encoding.
-/

namespace Idl

/-! ## §1 Strings of a schema -/

/-- The strings of a constant are well formed. -/
def Value.Textual : Value → Prop
  | .text s => Utf8.isValid s = true
  | .ident name => Utf8.isValid name = true
  | _ => True

/-- The strings of an annotation are well formed. -/
structure Annot.Textual (a : Annot) : Prop where
  name : Utf8.isValid a.name = true
  value : ∀ v ∈ a.value, v.Textual
  keys : ∀ p ∈ a.pairs, Utf8.isValid p.key = true
  values : ∀ p ∈ a.pairs, p.value.Textual

/-- The strings of a type are well formed. -/
def Ty.Textual : Ty → Prop
  | .message name => Utf8.isValid name = true
  | _ => True

/-- The strings of a field are well formed. -/
structure Field.Textual (f : Field) : Prop where
  name : Utf8.isValid f.name = true
  type : f.type.Textual
  docs : ∀ t ∈ f.docs, Utf8.isValid t = true
  annots : ∀ a ∈ f.annots, a.Textual

/-- The strings of a message are well formed. -/
structure Message.Textual (m : Message) : Prop where
  name : Utf8.isValid m.name = true
  docs : ∀ t ∈ m.docs, Utf8.isValid t = true
  annots : ∀ a ∈ m.annots, a.Textual
  fields : ∀ f ∈ m.fields, f.Textual

/-- The strings of a method are well formed. -/
structure Method.Textual (m : Method) : Prop where
  name : Utf8.isValid m.name = true
  input : ∀ t ∈ m.input, t.Textual
  output : ∀ t ∈ m.output, t.Textual
  docs : ∀ t ∈ m.docs, Utf8.isValid t = true
  annots : ∀ a ∈ m.annots, a.Textual

/-- The strings of a service are well formed. -/
structure Service.Textual (s : Service) : Prop where
  name : Utf8.isValid s.name = true
  docs : ∀ t ∈ s.docs, Utf8.isValid t = true
  annots : ∀ a ∈ s.annots, a.Textual
  methods : ∀ m ∈ s.methods, m.Textual

/-- The strings of a schema that are part of its identity are well formed. -/
structure Schema.Textual (s : Schema) : Prop where
  package : Utf8.isValid s.package = true
  annots : ∀ a ∈ s.annots, a.Textual
  messages : ∀ m ∈ s.messages, m.Textual
  services : ∀ svc ∈ s.services, svc.Textual

/-! ## §2 Texts of constants and types -/

theorem Bytes.ascii_of_all {t : Bytes} (h : t.all (fun b => b.toNat < 0x80) = true) :
    ∀ b ∈ t, b.toNat < 0x80 := by
  simpa using h

theorem Bytes.ascii_of_isDigit {b : UInt8} (h : isDigit b = true) : b.toNat < 0x80 := by
  simp only [isDigit, Bool.and_eq_true, decide_eq_true_eq, UInt8.le_iff_toNat_le] at h
  have := h.2
  simp only [UInt8.reduceToNat] at this
  omega

theorem Bytes.ascii_ofNat (n : Nat) : ∀ b ∈ ofNat n, b.toNat < 0x80 :=
  fun _ hb => ascii_of_isDigit (isDigit_of_mem_ofNat hb)

theorem Bytes.ascii_ofInt (n : Int) : ∀ b ∈ ofInt n, b.toNat < 0x80 := by
  cases n with
  | ofNat n => exact ascii_ofNat n
  | negSucc n => exact List.forall_mem_cons.mpr ⟨by decide, ascii_ofNat (n + 1)⟩

theorem Numeral.ascii_text {n : Numeral} (h : n.Proper) : ∀ b ∈ n.text, b.toNat < 0x80 := by
  have hdigits {t : Bytes} (ht : ∀ b ∈ t, Bytes.isDigit b = true) : ∀ b ∈ t, b.toNat < 0x80 :=
    fun b hb => Bytes.ascii_of_isDigit (ht b hb)
  unfold text
  simp only [List.forall_mem_append]
  refine ⟨?_, hdigits h.whole, ?_, ?_⟩
  · split
    · exact Bytes.ascii_of_all rfl
    · nofun
  · split
    · nofun
    · exact List.forall_mem_cons.mpr ⟨by decide, hdigits h.fraction⟩
  · split
    · nofun
    · refine List.forall_mem_cons.mpr ⟨by decide, List.forall_mem_cons.mpr ⟨?_, hdigits h.exponent⟩⟩
      split <;> decide

theorem Binary64.ascii_render (x : Binary64) : ∀ b ∈ x.render, b.toNat < 0x80 := by
  rw [render]
  cases hx : x.classify with
  | nan => exact Bytes.ascii_of_all rfl
  | infinite negative => cases negative <;> exact Bytes.ascii_of_all rfl
  | finite negative m q narrow =>
    obtain ⟨-, hfinite, hrep⟩ := FloatFormat.classify_eq_finite x.bits_lt hx
    obtain ⟨k, hk, -, htext, -⟩ := FloatNotation.constant.exists_text_eq_render
      FloatFormat.double_moderate hrep hfinite negative
    rw [← htext]
    exact Numeral.ascii_text hk

theorem Value.isValid_kindName (v : Value) : Utf8.isValid v.kindName = true := by
  cases v with
  | unassigned n =>
    apply Utf8.isValid_of_ascii
    rw [kindName]
    simp only [List.forall_mem_append]
    exact ⟨⟨Bytes.ascii_of_all rfl, Bytes.ascii_ofNat _⟩, Bytes.ascii_of_all rfl⟩
  | _ => rfl

theorem Value.Textual.isValid_payload {v : Value} (h : v.Textual) :
    Utf8.isValid v.payload = true := by
  cases v with
  | int n => exact Utf8.isValid_of_ascii (Bytes.ascii_ofInt n)
  | uint n => exact Utf8.isValid_of_ascii (Bytes.ascii_ofNat n)
  | float x => exact Utf8.isValid_of_ascii x.ascii_render
  | bool b => cases b <;> decide
  | text s => exact h
  | ident name => exact h
  | unassigned n => rfl

theorem Ty.isValid_kindName (t : Ty) : Utf8.isValid t.kindName = true := by
  cases t with
  | scalar s => cases s <;> decide
  | message name => rfl
  | unassigned n =>
    apply Utf8.isValid_of_ascii
    rw [kindName]
    simp only [List.forall_mem_append]
    exact ⟨⟨Bytes.ascii_of_all rfl, Bytes.ascii_ofNat _⟩, Bytes.ascii_of_all rfl⟩

/-! ## §3 The canonical encoding -/

namespace Canonical

open Json (Plain member)

/-- A member with a well-formed name and a plain value. -/
def PlainMember (d : Nat) (m : Bytes × Json) : Prop := Utf8.isValid m.1 = true ∧ Plain d m.2

theorem plain_obj {d : Nat} {members : List (Bytes × Json)}
    (h : ∀ m ∈ members, PlainMember d m) : Plain (d + 1) (.obj members) :=
  .obj (fun m hm => (h m hm).1) fun m hm => (h m hm).2

theorem PlainMember.mono {d e : Nat} {m : Bytes × Json} (h : PlainMember d m) (hle : d ≤ e) :
    PlainMember e m :=
  ⟨h.1, h.2.mono hle⟩

theorem plain_listMember {d : Nat} {key : Bytes} {items : List Json}
    (hkey : Utf8.isValid key = true) (h : ∀ v ∈ items, Plain d v) :
    ∀ m ∈ listMember key items, PlainMember (d + 1) m := by
  unfold listMember
  split
  · nofun
  · exact List.forall_mem_cons.mpr ⟨⟨hkey, .arr h⟩, nofun⟩

theorem plain_value {v : Value} (h : v.Textual) : Plain 1 (value v) := by
  refine .arr (List.forall_mem_cons.mpr ⟨.str v.isValid_kindName, ?_⟩)
  exact List.forall_mem_cons.mpr ⟨.str h.isValid_payload, nofun⟩

theorem plain_annot {a : Annot} (h : a.Textual) : Plain 4 (annot a) := by
  refine plain_obj (List.forall_mem_cons.mpr ⟨⟨rfl, .str h.name⟩, ?_⟩)
  refine List.forall_mem_append.mpr ⟨?_, plain_listMember rfl fun v hv => ?_⟩
  · cases hvalue : a.value with
    | none => nofun
    | some v =>
      have hplain := (plain_value (h.value v hvalue)).mono (show 1 ≤ 3 by decide)
      exact List.forall_mem_cons.mpr ⟨⟨rfl, hplain⟩, nofun⟩
  · obtain ⟨p, hp, rfl⟩ := List.mem_map.mp hv
    have hp : p ∈ a.pairs := List.mem_mergeSort.mp hp
    exact .arr (List.forall_mem_cons.mpr ⟨.str (h.keys p hp),
      List.forall_mem_cons.mpr ⟨plain_value (h.values p hp), nofun⟩⟩)

theorem plain_annots {l : List Annot} (h : ∀ a ∈ l, a.Textual) :
    ∀ m ∈ annots l, PlainMember 5 m := by
  refine plain_listMember rfl fun v hv => ?_
  obtain ⟨a, ha, rfl⟩ := List.mem_map.mp hv
  exact plain_annot (h a (List.mem_filter.mp ha).1)

theorem plain_docs {l : List Bytes} (h : ∀ t ∈ l, Utf8.isValid t = true) :
    ∀ m ∈ docs l, PlainMember 5 m := by
  refine plain_listMember rfl fun v hv => ?_
  obtain ⟨t, ht, rfl⟩ := List.mem_map.mp hv
  exact .str (h t ht)

theorem plain_type {t : Ty} (h : t.Textual) : Plain 1 (type t) := by
  cases t with
  | message name => exact plain_obj (List.forall_mem_cons.mpr ⟨⟨rfl, .str h⟩, nofun⟩)
  | scalar s => exact .str (Ty.scalar s).isValid_kindName
  | unassigned n => exact .str (Ty.unassigned n).isValid_kindName

theorem plain_type? {t : Option Ty} (h : ∀ u ∈ t, u.Textual) : Plain 1 (type? t) := by
  cases t with
  | none => exact .null
  | some t => exact plain_type (h t rfl)

theorem plain_field {f : Field} (h : f.Textual) : Plain 6 (field f) := by
  refine plain_obj ?_
  simp only [List.forall_mem_append, List.forall_mem_cons]
  exact ⟨⟨⟨⟨rfl, .str h.name⟩, ⟨rfl, (plain_type h.type).mono (by decide)⟩, ⟨rfl, .bool _⟩,
    ⟨rfl, .nat _⟩, nofun⟩, plain_docs h.docs⟩, plain_annots h.annots⟩

theorem plain_message {m : Message} (h : m.Textual) : Plain 8 (message m) := by
  refine plain_obj ?_
  simp only [List.cons_append, List.forall_mem_append, List.forall_mem_cons]
  refine ⟨⟨rfl, .str h.name⟩, ⟨fun x hx => (plain_docs h.docs x hx).mono (by decide),
    fun x hx => (plain_annots h.annots x hx).mono (by decide)⟩, ⟨rfl, .arr fun v hv => ?_⟩, nofun⟩
  obtain ⟨f, hf, rfl⟩ := List.mem_map.mp hv
  exact plain_field (h.fields f hf)

theorem plain_method {m : Method} (h : m.Textual) : Plain 6 (method m) := by
  refine plain_obj ?_
  simp only [List.forall_mem_append, List.forall_mem_cons]
  exact ⟨⟨⟨⟨rfl, .str h.name⟩, ⟨rfl, (plain_type? h.input).mono (by decide)⟩,
    ⟨rfl, (plain_type? h.output).mono (by decide)⟩, nofun⟩, plain_docs h.docs⟩,
    plain_annots h.annots⟩

theorem plain_service {s : Service} (h : s.Textual) : Plain 8 (service s) := by
  refine plain_obj ?_
  simp only [List.cons_append, List.forall_mem_append, List.forall_mem_cons]
  refine ⟨⟨rfl, .str h.name⟩, ⟨fun x hx => (plain_docs h.docs x hx).mono (by decide),
    fun x hx => (plain_annots h.annots x hx).mono (by decide)⟩, ⟨rfl, .arr fun v hv => ?_⟩, nofun⟩
  obtain ⟨m, hm, rfl⟩ := List.mem_map.mp hv
  exact plain_method (h.methods m hm)

end Canonical

end Idl
