import Idl.Proofs.Compile.Misuse
import Idl.Proofs.Places

/-!
# The nodes of a file

A file has the nodes of its statements, with the annotations in front of them, and the parts of its
nodes. Where the file has been read from a source, each of its nodes is made up of a run of the
significant tokens of the source.

* §1 parts of nodes, §2 nodes of a file, §3 the tokens of a node.
-/

namespace Idl

/-! ## §1 Parts of nodes -/

/-- A node is another one, or a part of it at any depth. -/
inductive Node.Has : Node → Node → Prop where
  | self (n : Node) : Has n n
  | part {n p m : Node} (part : p ∈ n.parts) (h : Has p m) : Has n m

theorem Node.Has.of_part {n p : Node} (h : p ∈ n.parts) : n.Has p := .part h (.self p)

theorem Node.Has.trans {n p m : Node} (h : n.Has p) (h' : p.Has m) : n.Has m := by
  induction h with
  | self => exact h'
  | part part _ ih => exact .part part (ih h')

namespace Tree

theorem Path.has_ident {p : Path} {i : Ident} (h : i ∈ p.parts) : p.node.Has i.node :=
  .of_part (List.mem_map_of_mem h)

theorem TypeRef.has_name (r : TypeRef) : r.node.Has r.name.node :=
  .of_part (List.mem_singleton_self _)

namespace Annot

variable {a : Annot}

theorem has_name : a.node.Has a.name.node := .of_part List.mem_cons_self

/-- The keys of an annotation are written in it. -/
theorem has_key {key : Bytes} (h : key ∈ a.named.map (·.key)) :
    ∃ i : Ident, a.node.Has i.node ∧ i.name = key := by
  obtain ⟨p, hp, rfl⟩ := List.mem_map.mp h
  obtain ⟨form, hform, hpair⟩ := List.mem_filterMap.mp hp
  obtain ⟨arg, harg, rfl⟩ := List.mem_map.mp hform
  have hnode : a.node.Has arg.node := .of_part (List.mem_cons_of_mem _ (List.mem_map_of_mem harg))
  cases hargForm : arg.form with
  | positional v =>
    rw [hargForm] at hpair
    cases hpair
  | flag i =>
    rw [hargForm] at hpair
    cases hpair
    have hpart : i.node ∈ arg.node.parts := by simp [Arg.node, Node.parts, hargForm, ArgForm.nodes]
    exact ⟨i, hnode.trans (.of_part hpart), rfl⟩
  | pair i v =>
    rw [hargForm] at hpair
    cases hpair
    have hpart : i.node ∈ arg.node.parts := by simp [Arg.node, Node.parts, hargForm, ArgForm.nodes]
    exact ⟨i, hnode.trans (.of_part hpart), rfl⟩

end Annot

namespace Field

variable {x : Field}

theorem has_name (x : Field) : x.node.Has x.name.node := .of_part (by simp [node, Node.parts])

end Field

namespace Message

variable {m : Message} {x : Field}

theorem has_name (m : Message) : m.node.Has m.name.node := .of_part List.mem_cons_self

theorem has_field (h : x ∈ m.fields) : m.node.Has x.node :=
  .of_part (List.mem_cons_of_mem _ (List.mem_flatMap.mpr ⟨x, h, by simp [Field.nodes]⟩))

theorem has_fieldAnnot {a : Annot} (h : x ∈ m.fields) (ha : a ∈ x.annots) : m.node.Has a.node :=
  .of_part (List.mem_cons_of_mem _ (List.mem_flatMap.mpr
    ⟨x, h, List.mem_append_left _ (List.mem_map_of_mem ha)⟩))

end Message

namespace Method

variable {x : Method} {r : TypeRef}

theorem has_name (x : Method) : x.node.Has x.name.node := .of_part List.mem_cons_self

end Method

namespace Service

variable {s : Service} {x : Method}

theorem has_name (s : Service) : s.node.Has s.name.node := .of_part List.mem_cons_self

theorem has_method (h : x ∈ s.methods) : s.node.Has x.node :=
  .of_part (List.mem_cons_of_mem _ (List.mem_flatMap.mpr ⟨x, h, by simp [Method.nodes]⟩))

theorem has_methodAnnot {a : Annot} (h : x ∈ s.methods) (ha : a ∈ x.annots) : s.node.Has a.node :=
  .of_part (List.mem_cons_of_mem _ (List.mem_flatMap.mpr
    ⟨x, h, List.mem_append_left _ (List.mem_map_of_mem ha)⟩))

end Service

/-! ## §2 Nodes of a file -/

/-- A file has a node: in the statement that names the package, in an option, or in a declaration or
the annotations in front of it. -/
inductive File.Has (f : File) (n : Node) : Prop where
  | package {p : Package} (package : f.package = some p) (h : p.node.Has n)
  | setting {s : Setting} (setting : s ∈ f.options) (h : s.node.Has n)
  | decl {d : Decl} {r : Node} (decl : d ∈ f.decls) (root : r ∈ d.nodes) (h : r.Has n)

namespace File

variable {f : File}

theorem Has.trans {n p : Node} (h : f.Has n) (h' : n.Has p) : f.Has p := by
  cases h with
  | package hp h => exact .package hp (h.trans h')
  | setting hs h => exact .setting hs (h.trans h')
  | decl hd hr h => exact .decl hd hr (h.trans h')

theorem mem_decls_of_mem_messages {m : Message} (h : m ∈ f.messages) : .message m ∈ f.decls := by
  obtain ⟨d, hd, hm⟩ := List.mem_filterMap.mp h
  cases d with
  | message m' =>
    cases hm
    exact hd
  | service s => cases hm

theorem mem_decls_of_mem_services {s : Service} (h : s ∈ f.services) : .service s ∈ f.decls := by
  obtain ⟨d, hd, hs⟩ := List.mem_filterMap.mp h
  cases d with
  | message m => cases hs
  | service s' =>
    cases hs
    exact hd

theorem has_message {m : Message} (h : m ∈ f.messages) : f.Has m.node :=
  .decl (mem_decls_of_mem_messages h) (by simp [Decl.nodes]) (.self _)

theorem has_messageAnnot {m : Message} {a : Annot} (h : m ∈ f.messages) (ha : a ∈ m.annots) :
    f.Has a.node :=
  .decl (mem_decls_of_mem_messages h) (List.mem_append_left _ (List.mem_map_of_mem ha)) (.self _)

theorem has_service {s : Service} (h : s ∈ f.services) : f.Has s.node :=
  .decl (mem_decls_of_mem_services h) (by simp [Decl.nodes]) (.self _)

theorem has_serviceAnnot {s : Service} {a : Annot} (h : s ∈ f.services) (ha : a ∈ s.annots) :
    f.Has a.node :=
  .decl (mem_decls_of_mem_services h) (List.mem_append_left _ (List.mem_map_of_mem ha)) (.self _)

theorem has_packageName {p : Package} (h : f.package = some p) : f.Has p.name.node :=
  .package h (.of_part (List.mem_singleton_self _))

theorem has_setting {s : Setting} (h : s ∈ f.options) : f.Has s.node := .setting h (.self _)

theorem has_settingName {s : Setting} (h : s ∈ f.options) : f.Has s.name.node :=
  .setting h (.of_part List.mem_cons_self)

end File

end Tree

/-! ## §3 The tokens of a node -/

/-- Nodes in a row are each made up of a run of the tokens. -/
theorem LaidIn.of_mem {l : List Node} {n : Node} {w : List Token} (h : LaidIn l w) (hn : n ∈ l) :
    ∃ v, v <:+: w ∧ Laid n v := by
  induction l generalizing w with
  | nil => cases hn
  | cons m l ih =>
    cases h with
    | @cons _ _ gap v w first rest =>
      rcases List.mem_cons.mp hn with rfl | hn
      · exact ⟨v, ⟨gap, w, rfl⟩, first⟩
      · obtain ⟨u, hu, hlaid⟩ := ih rest hn
        exact ⟨u, hu.trans (List.suffix_append _ _).isInfix, hlaid⟩

/-- So is each part of a node, by induction on its depth. -/
theorem Laid.of_has {n m : Node} {w : List Token} (h : Laid n w) (hm : n.Has m) :
    ∃ v, v <:+: w ∧ Laid m v := by
  induction hm generalizing w with
  | self => exact ⟨w, List.infix_rfl, h⟩
  | @part n p m part _ ih =>
    have hparts : LaidIn n.parts w := by
      cases h with
      | mk phrase text laid => exact laid
    obtain ⟨v, hv, hlaid⟩ := hparts.of_mem part
    obtain ⟨u, hu, hlaid⟩ := ih hlaid
    exact ⟨u, hu.trans hv, hlaid⟩

/-- The nodes of a file that has been read from a source. -/
theorem exists_laid_of_parseFile {src : Bytes} {allowMissingPackage : Bool} {f : Tree.File}
    (hf : parseFile src allowMissingPackage = .ok f) :
    ∃ l, lex src = .ok l ∧ ∀ n, f.Has n → ∃ v, v <:+: l.significant ∧ Laid n v := by
  obtain ⟨l, parts, hlex, hparts, -, -, hlaid, -⟩ := liesOver_of_parseFile hf
  refine ⟨l, hlex, fun n hn => ?_⟩
  -- a node lies in one of the nodes that the statements consist of
  have hroot : ∃ r ∈ parts.flatMap Tree.Statement.nodes, r.Has n := by
    cases hn with
    | @package p hp h =>
      have hmem : p ∈ parts.filterMap Tree.Statement.package? := by simp [← hparts.package, hp]
      obtain ⟨s, hs, hsp⟩ := List.mem_filterMap.mp hmem
      refine ⟨p.node, List.mem_flatMap.mpr ⟨s, hs, ?_⟩, h⟩
      cases s with
      | package q =>
        cases hsp
        exact List.mem_singleton_self _
      | _ => cases hsp
    | @setting o ho h =>
      obtain ⟨s, hs, hso⟩ := List.mem_filterMap.mp (hparts.options ▸ ho)
      refine ⟨o.node, List.mem_flatMap.mpr ⟨s, hs, ?_⟩, h⟩
      cases s with
      | setting q =>
        cases hso
        exact List.mem_singleton_self _
      | _ => cases hso
    | @decl d r hd hr h =>
      obtain ⟨s, hs, hsd⟩ := List.mem_filterMap.mp (hparts.decls ▸ hd)
      refine ⟨r, List.mem_flatMap.mpr ⟨s, hs, ?_⟩, h⟩
      cases s with
      | decl q =>
        cases hsd
        exact hr
      | _ => cases hsd
  obtain ⟨r, hr, hhas⟩ := hroot
  obtain ⟨v, hv, hrlaid⟩ := hlaid.of_mem hr
  obtain ⟨u, hu, hnlaid⟩ := hrlaid.of_has hhas
  exact ⟨u, hu.trans hv, hnlaid⟩

end Idl
