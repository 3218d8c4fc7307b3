import Idl.Proofs.Bindings.GoNames
import Idl.Proofs.Bindings.RustNames

/-!
# Bindings agree on the wire

Programs that use bindings of one schema in different languages understand each other: the bindings
have the same services with the same methods, called the same on the wire, and the same messages
with the same fields, called there as in the schema. What a binding says about the wire is read off
what it declares, as its encoders would read it.

* §1 what a binding says about the wire, §2 tags, §3 attributes, §4 labels,
* §5 agreement.
-/

namespace Idl

open Bindings

/-! ## §1 What a binding says -/

/-- A method as it is called. -/
structure Contract.Method where
  /-- What a request is told by within its service. -/
  label : Bytes
  wire : Bytes
  hasInput : Bool
  hasOutput : Bool
deriving DecidableEq, Repr

/-- A service as it is called. -/
structure Contract.Service where
  name : Bytes
  id : Bytes
  canonical : Bytes
  client : Bool
  server : Bool
  methods : List Contract.Method
deriving DecidableEq, Repr

/-- What a binding says about the wire. -/
structure Contract where
  /-- The messages with the names of their fields, where a name can be found. -/
  messages : List (Bytes × List (Option Bytes))
  services : List Contract.Service
deriving DecidableEq, Repr

namespace GoView

/-- The keys of a tag with their values; pieces are what stands between quotes. -/
def tagEntries : List Bytes → List (Bytes × Bytes)
  | key :: value :: r => (key.dropWhile (· == 0x20), value) :: tagEntries r
  | _ => []

/-- The name in a tag for an encoding: the value of the key, up to a comma. -/
def tagName? (tag encoding : Bytes) : Option Bytes :=
  ((tagEntries (Bytes.split 0x22 tag)).find? (·.1 == encoding ++ ":")).map
    (·.2.takeWhile (· != 0x2C))

/-- What a Go file says about the wire in an encoding. -/
def contract (v : GoView) (encoding : Bytes) : Contract where
  messages := v.messages.map fun m => (m.name, m.fields.map fun f => tagName? f.tag encoding)
  services := v.services.map fun w =>
    { name := w.name, id := w.id, canonical := w.canonical, client := w.client, server := w.server
      methods := w.methods.map fun m => ⟨m.name, w.wire m, m.input.isSome, m.output.isSome⟩ }

end GoView

namespace RustView

/-- How an attribute starts that gives a field another name. -/
def renameMark : Bytes := "rename = \""

/-- The name that attributes give a field. -/
def renamed? (serde : List Bytes) : Option Bytes :=
  serde.findSome? fun a =>
    if Bytes.startsWith a renameMark then
      some ((a.drop renameMark.length).takeWhile (· != 0x22))
    else none

/-- The name of a field on the wire: from its attributes, or else its own without the mark. -/
def Field.wire (f : Field) : Bytes := (renamed? f.serde).getD (Bytes.trimStart f.name rawMark)

/-- What a Rust file says about the wire. -/
def contract (v : RustView) : Contract where
  messages := v.messages.map fun m => (m.name, m.fields.map fun f => some f.wire)
  services := v.services.map fun w =>
    { name := w.name, id := w.id, canonical := w.canonical, client := w.client, server := w.server
      methods := w.methods.map fun m => ⟨m.label, w.wire m, m.input.isSome, m.output.isSome⟩ }

end RustView

/-- What bindings of a schema say about the wire. -/
def Schema.contract (s : Schema) : Contract where
  messages := s.messages.map fun m => (Naming.pascal m.name, m.fields.map fun f => some f.name)
  services := s.services.map fun w =>
    { name := Naming.pascal w.name, id := w.id.text, canonical := w.canonical
      client := w.client, server := w.server
      methods := w.methods.map fun m =>
        ⟨Naming.pascal m.name, Naming.pascal w.name ++ "." ++ Naming.pascal m.name,
          m.input.isSome, m.output.isSome⟩ }

/-! ## §2 Tags -/

namespace GoView

/-- The pieces of a tag. -/
theorem split_tag {f : Field} {name : Bytes}
    (hname : f.wireName ++ (if f.omitEmpty then (",omitempty" : Bytes) else []) = name)
    (hquote : (0x22 : UInt8) ∉ name) :
    Bytes.split 0x22 f.tag = [("json:" : Bytes), name, (" bson:" : Bytes), name, []] := by
  have hjson : ("json:\"" : Bytes) = ("json:" : Bytes) ++ [(0x22 : UInt8)] := by decide
  have hbson : ("\" bson:\"" : Bytes) = (0x22 : UInt8) :: (" bson:" : Bytes) ++ [(0x22 : UInt8)] :=
    by decide
  have hend : ("\"" : Bytes) = [(0x22 : UInt8)] := by decide
  -- the tag is five parts with a quotation mark between any two
  have hjoin : f.tag
      = Bytes.join [0x22] [("json:" : Bytes), name, (" bson:" : Bytes), name, []] := by
    simp [Field.tag, hname, hjson, hbson, hend, Bytes.join]
  rw [hjoin]
  refine Bytes.split_join ?_
  simp only [List.forall_mem_cons, hquote, not_false_eq_true, true_and]
  exact ⟨by decide, by decide, List.not_mem_nil, List.forall_mem_nil _⟩

/-- Both encodings find the name of the field. -/
theorem tagName?_tag {f : Field} (h : Naming.IsPlain f.wireName) {encoding : Bytes}
    (hencoding : encoding = "json" ∨ encoding = "bson") :
    tagName? f.tag encoding = some f.wireName := by
  generalize hname : f.wireName ++ (if f.omitEmpty then (",omitempty" : Bytes) else []) = name
  -- a plain name holds no quotation mark, and no comma
  have hquote : (0x22 : UInt8) ∉ name := by
    rw [← hname, List.mem_append, not_or]
    refine ⟨h.not_mem (by decide), ?_⟩
    cases f.omitEmpty <;> decide
  have hvalue : name.takeWhile (· != 0x2C) = f.wireName := by
    have hcomma : ∀ b ∈ f.wireName, (b != 0x2C) = true := by
      intro b hb
      rw [bne_iff_ne]
      rintro rfl
      exact h.not_mem (by decide) hb
    rw [← hname, List.takeWhile_append_of_pos hcomma]
    cases f.omitEmpty <;> simp
    decide
  -- the parts are paired: a key and a quoted value
  have hentries : tagEntries (Bytes.split 0x22 f.tag)
      = [(("json:" : Bytes), name), (("bson:" : Bytes), name)] := by
    rw [split_tag hname hquote]
    rfl
  rw [tagName?, hentries]
  rcases hencoding with rfl | rfl
  · exact congrArg some hvalue
  · exact congrArg some hvalue

end GoView

/-! ## §3 Attributes -/

namespace RustView

/-- An attribute gives a field the name between the quotes. -/
theorem renamed?_rename {name : Bytes} (h : Naming.IsPlain name) (r : List Bytes) :
    renamed? (("rename = \"" ++ name ++ "\"") :: r) = some name := by
  have hquote : ∀ b ∈ name, (b != 0x22) = true := by
    intro b hb
    rw [bne_iff_ne]
    rintro rfl
    exact h.not_mem (by decide) hb
  have hend : ("\"" : Bytes) = [(0x22 : UInt8)] := by decide
  -- the attribute begins with the mark that is searched for
  have hmark : renameMark ++ (name ++ ("\"" : Bytes)) = "rename = \"" ++ name ++ "\"" := by
    rw [List.append_assoc]
    rfl
  have hstart : Bytes.startsWith (renameMark ++ (name ++ ("\"" : Bytes))) renameMark = true :=
    List.isPrefixOf_iff_prefix.mpr (List.prefix_append _ _)
  have hname : (name ++ ("\"" : Bytes)).takeWhile (· != 0x22) = name := by
    rw [hend, List.takeWhile_append_of_pos hquote]
    simp
  rw [renamed?, ← hmark, List.findSome?_cons, if_pos hstart, List.drop_left, hname]

/-- The other attributes give it no name. -/
theorem renamed?_others (octets optional : Bool) : renamed?
    ((if octets then [("with = \"serde_bytes\"" : Bytes)] else [])
      ++ (if octets && optional then [("default" : Bytes)] else [])
      ++ (if optional then [("skip_serializing_if = \"Option::is_none\"" : Bytes)] else [])
      ++ (if !octets && optional then [("default" : Bytes)] else [])) = none := by
  cases octets <;> cases optional <;> decide +kernel

/-- The name of a field on the wire is that of the schema, whatever it is called in a struct. -/
theorem wire_of {f : Idl.Field} (h : Naming.IsPlain f.name) : (Field.of f).wire = f.name := by
  unfold Field.wire Field.of serdeOf
  dsimp only
  by_cases hsame : Bytes.trimStart (ident (Naming.snake f.name)) rawMark = f.name
  · have hnone := renamed?_others (f.type == .scalar .bytes) f.optional
    rw [hsame]
    simp only [bne_self_eq_false, Bool.false_eq_true, if_false, List.nil_append]
    rw [hnone]
    rfl
  · rw [if_pos (by simpa using hsame)]
    simp only [List.cons_append, List.nil_append, renamed?_rename h]
    rfl

end RustView

/-! ## §4 Labels -/

/-- Neither the name of a service nor a label has a dot, so that both can be told from the name of a
method on the wire. -/
def Contract.Service.Dotted (w : Contract.Service) : Prop :=
  (0x2E : UInt8) ∉ w.name ∧ ∀ m ∈ w.methods,
    m.wire = w.name ++ "." ++ m.label ∧ (0x2E : UInt8) ∉ m.label

theorem dotted_contract {s : Schema} (h : s.Named) : ∀ w ∈ s.contract.services, w.Dotted := by
  have hdot {name : Bytes} (hname : Bytes.IsName name) : (0x2E : UInt8) ∉ Naming.pascal name :=
    (Naming.restyled_pascal hname.2).plain.not_mem (by decide)
  intro w hw
  obtain ⟨v, hv, rfl⟩ := List.mem_map.mp hw
  refine ⟨hdot (h.services v hv), fun m hm => ?_⟩
  obtain ⟨x, hx, rfl⟩ := List.mem_map.mp hm
  exact ⟨rfl, hdot (h.methods v hv x hx)⟩

/-! ## §5 Agreement -/

/-- The contract read off the tags is that of the schema. -/
theorem GoView.contract_of {s : Schema} (h : s.Named) (package rpcImport : Bytes)
    {encoding : Bytes} (hencoding : encoding = "json" ∨ encoding = "bson") :
    (of s package rpcImport).contract encoding = s.contract := by
  -- each tag holds the name of its field
  have hfields (m : Idl.Message) (hm : m ∈ s.messages) :
      (Message.of m).fields.map (fun f => tagName? f.tag encoding)
        = m.fields.map fun f => some f.name := by
    rw [Message.of, List.map_map]
    exact List.map_congr_left fun f hf =>
      tagName?_tag (f := Field.of f) (h.fields m hm f hf).2 hencoding
  unfold contract Schema.contract
  congr 1
  · rw [of, List.map_map]
    exact List.map_congr_left fun m hm => congrArg (Prod.mk _) (hfields m hm)
  · rw [of, List.map_map]
    refine List.map_congr_left fun v _ => ?_
    simp [Service.of, Method.of, Service.wire, Function.comp_def]

theorem RustView.contract_of {s : Schema} (h : s.Named) (runtime : Bytes) :
    (of s runtime).contract = s.contract := by
  have hfields (m : Idl.Message) (hm : m ∈ s.messages) :
      (Message.of m).fields.map (fun f => some f.wire) = m.fields.map fun f => some f.name := by
    rw [Message.of, List.map_map]
    exact List.map_congr_left fun f hf => congrArg some (wire_of (h.fields m hm f hf).2)
  unfold contract Schema.contract
  congr 1
  · rw [of, List.map_map]
    exact List.map_congr_left fun m hm => congrArg (Prod.mk _) (hfields m hm)
  · rw [of, List.map_map]
    refine List.map_congr_left fun v _ => ?_
    simp [Service.of, Method.of, Service.wire, Function.comp_def]

/-- The bindings of a compiled schema in Go and in Rust say the same about the wire, for each
encoding and whatever the options are: the same services, methods and labels, and for each field its
name in the schema. -/
theorem contract_eq_of_compileSource {src sourcePath : Bytes} {allowMissingPackage : Bool}
    {c : Compilation} {s : Schema} (h : compileSource src sourcePath allowMissingPackage = .ok c)
    (hs : c.outcome = .ok s) {o o' : Options} {v : GoView} {w : RustView}
    (hv : GoView.ofSchema s o = .ok v) (hw : RustView.ofSchema s o' = .ok w) :
    v.contract "json" = w.contract ∧ v.contract "bson" = w.contract ∧ w.contract = s.contract
      ∧ ∀ x ∈ w.contract.services, x.Dotted := by
  have hwell := compileSource_wellFormed h hs
  have hnamed := named_of_compileSource h hs
  obtain ⟨-, package, rpcImport, rfl⟩ := GoView.eq_of_of_ofSchema hwell hnamed hv
  obtain ⟨-, runtime, rfl⟩ := RustView.eq_of_of_ofSchema hwell hw
  -- both views are compared with the schema, not with one another
  have hrust := RustView.contract_of hnamed runtime
  refine ⟨(GoView.contract_of hnamed package rpcImport (.inl rfl)).trans hrust.symm,
    (GoView.contract_of hnamed package rpcImport (.inr rfl)).trans hrust.symm, hrust, ?_⟩
  rw [hrust]
  exact dotted_contract hnamed

/-- A field that is a reserved word in one language, one that is spelled in another style, and one
that may be missing. -/
theorem contract_eq_of_compileSource_reserved :
    ∃ c s v w, compileSource ("package p;message M\x7bbool type;M user_Id;string self?;\x7d"
        ++ "service get_it\x7brpc do(M)->M;\x7d") [] false = .ok c
      ∧ c.outcome = .ok s ∧ GoView.ofSchema s {} = .ok v ∧ RustView.ofSchema s {} = .ok w
      ∧ v.contract "json" = w.contract := by
  have hok : (compileSource ("package p;message M\x7bbool type;M user_Id;string self?;\x7d"
      ++ "service get_it\x7brpc do(M)->M;\x7d") [] false).toOption.any
        (·.outcome.toOption.any fun s =>
          (GoView.ofSchema s {}).isOk && (RustView.ofSchema s {}).isOk) = true := by
    decide +kernel
  obtain ⟨c, s, hc, hs, hviews⟩ := exists_outcome_of_any hok
  cases hv : GoView.ofSchema s {} with
  | error e => simp [hv, Except.isOk, Except.toBool] at hviews
  | ok v =>
    cases hw : RustView.ofSchema s {} with
    | error e => simp [hw, Except.isOk, Except.toBool] at hviews
    | ok w => exact ⟨c, s, v, w, hc, hs, hv, hw, (contract_eq_of_compileSource hc hs hv hw).1⟩

end Idl
