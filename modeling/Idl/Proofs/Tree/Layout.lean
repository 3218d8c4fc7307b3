import Idl.Outline
import Idl.Proofs.Grammar.Phrase
import Idl.Proofs.Token.Located

/-!
# How a syntax tree lies over its source

A tree is looked at as nodes with a place, perhaps a text of their own, and parts. `Laid` says which
of the tokens make up a node: they form a phrase of its kind, its place goes from the first to the
last of them, and its parts are made up of runs of them, one after the other. `Placed` says what
follows for the octets of the source.

* §1 nodes, §2 the nodes of a tree,
* §3 nodes over tokens, §4 nodes over octets.
-/

namespace Idl

/-! ## §1 Nodes -/

namespace Phrase

variable {w : List Token}

theorem literal_ne_nil : ∀ w ∈ literal, w ≠ [] := by
  rintro w (((h | h) | ⟨value, h⟩) | h)
  · exact one_ne_nil w h
  · exact one_ne_nil w h
  · exact one_ne_nil w h
  · exact one_ne_nil w h

theorem value_ne_nil : ∀ w ∈ value, w ≠ [] := by
  rintro w (h | h)
  · exact literal_ne_nil w h
  · exact pathBut_ne_nil w h

theorem arg_ne_nil : ∀ w ∈ arg, w ≠ [] := by
  rintro w (h | h)
  · exact literal_ne_nil w h
  · exact mul_ne_nil one_ne_nil w h

end Phrase

/-- What a node stands for. -/
inductive NodeKind where
  | name
  | keyword
  | intLit
  | textLit
  | path
  | value
  | arg
  | annot
  | type
  | field
  | message
  | method
  | service
  | package
  | setting

namespace NodeKind

/-- The tokens that may make up a node. -/
def phrase : NodeKind → Language Token
  | name => Phrase.name
  | keyword => Phrase.label
  | intLit => Phrase.intLit
  | textLit => Phrase.textLit
  | path => Phrase.path
  | value => Phrase.value
  | arg => Phrase.arg
  | annot => Phrase.annot
  | type => Phrase.type
  | field => Phrase.field
  | message => Phrase.message
  | method => Phrase.method
  | service => Phrase.service
  | package => Phrase.package
  | setting => Phrase.setting

theorem ne_nil_of_mem_phrase {kind : NodeKind} {w : List Token} (h : w ∈ kind.phrase) :
    w ≠ [] := by
  cases kind with
  | name => exact Phrase.one_ne_nil w h
  | keyword => exact h.elim (Phrase.one_ne_nil w) (Phrase.one_ne_nil w)
  | intLit => exact Phrase.one_ne_nil w h
  | textLit =>
    obtain ⟨value, h⟩ := h
    exact Phrase.one_ne_nil w h
  | path => exact Phrase.pathBut_ne_nil w h
  | value => exact Phrase.value_ne_nil w h
  | arg => exact Phrase.arg_ne_nil w h
  | annot => exact Phrase.annot_ne_nil w h
  | type => exact Phrase.pathBut_ne_nil w h
  | field => exact Phrase.field_ne_nil w h
  | message => exact Phrase.message_ne_nil w h
  | method => exact Phrase.method_ne_nil w h
  | service => exact Phrase.service_ne_nil w h
  | package => exact Phrase.package_ne_nil w h
  | setting => exact Phrase.setting_ne_nil w h

end NodeKind

/-- A node of a tree: what it stands for, its place, the text that it keeps, and its parts in the
order of the source. -/
inductive Node where
  | mk (kind : NodeKind) (loc : Loc) (raw : Option Bytes) (parts : List Node)

namespace Node

/-- The place of a node. -/
def loc : Node → Loc
  | mk _ loc _ _ => loc

/-- The parts of a node. -/
def parts : Node → List Node
  | mk _ _ _ parts => parts

end Node

/-! ## §2 The nodes of a tree -/

namespace Tree

/-- A name of one component. -/
def Ident.node (i : Ident) : Node := .mk .name i.loc (some i.name) []

/-- A dotted name, with its components. -/
def Path.node (p : Path) : Node := .mk .path p.loc none (p.parts.map Ident.node)

/-- A literal of a whole number. -/
def IntLit.node (l : IntLit) : Node := .mk .intLit l.loc (some l.raw) []

/-- A text literal. -/
def TextLit.node (l : TextLit) : Node := .mk .textLit l.loc (some l.raw) []

/-- The node that makes up a constant, if it is one of its own. -/
def Constant.nodes : Constant → List Node
  | .int lit => [lit.node]
  | .float _ => []
  | .bool _ => []
  | .text lit => [lit.node]
  | .path name => [name.node]

/-- A constant, around a literal or a name. -/
def Value.node (v : Value) : Node := .mk .value v.loc none v.constant.nodes

/-- The key and the value. -/
def ArgForm.nodes : ArgForm → List Node
  | .positional v => [v.node]
  | .flag key => [key.node]
  | .pair key v => [key.node, v.node]

/-- An argument of an annotation. -/
def Arg.node (a : Arg) : Node := .mk .arg a.loc none a.form.nodes

/-- An annotation, with its name and its arguments. -/
def Annot.node (a : Annot) : Node := .mk .annot a.loc none (a.name.node :: a.args.map Arg.node)

/-- A reference to a type. -/
def TypeRef.node (r : TypeRef) : Node := .mk .type r.loc none [r.name.node]

/-- The word in front of a field. -/
def Label.node (l : Label) : Node :=
  .mk .keyword l.loc (some (Outline.labelWord l.presence)) []

/-- A field, with its word, its type, its name and its number. -/
def Field.node (d : Field) : Node :=
  .mk .field d.loc none (d.label.toList.map Label.node
    ++ (d.type.node :: d.name.node :: d.number.toList.map IntLit.node))

/-- A field behind the annotations in front of it. -/
def Field.nodes (d : Field) : List Node := d.annots.map Annot.node ++ [d.node]

/-- A message, with its name and its members. -/
def Message.node (m : Message) : Node :=
  .mk .message m.loc none (m.name.node :: m.fields.flatMap Field.nodes)

/-- A method, with its name, its input and its output. -/
def Method.node (m : Method) : Node :=
  .mk .method m.loc none (m.name.node
    :: (m.input.toList.map TypeRef.node ++ m.output.toList.map TypeRef.node))

/-- A method behind the annotations in front of it. -/
def Method.nodes (m : Method) : List Node := m.annots.map Annot.node ++ [m.node]

/-- A service, with its name and its members. -/
def Service.node (s : Service) : Node :=
  .mk .service s.loc none (s.name.node :: s.methods.flatMap Method.nodes)

/-- A declaration behind the annotations in front of it. -/
def Decl.nodes : Decl → List Node
  | .message m => m.annots.map Annot.node ++ [m.node]
  | .service s => s.annots.map Annot.node ++ [s.node]

/-- The statement that names the package. -/
def Package.node (p : Package) : Node := .mk .package p.loc none [p.name.node]

/-- An option of the file. -/
def Setting.node (s : Setting) : Node := .mk .setting s.loc none [s.name.node, s.value.node]

/-- What a file is made of. Of a statement that names the version the tree keeps the literal. -/
inductive Statement where
  | version (l : TextLit)
  | package (p : Package)
  | setting (s : Setting)
  | decl (d : Decl)

namespace Statement

/-- The version that the statement names. -/
def version? : Statement → Option TextLit
  | version l => some l
  | _ => none

/-- The package statement, if it is one. -/
def package? : Statement → Option Package
  | package p => some p
  | _ => none

/-- The option, if it is one. -/
def setting? : Statement → Option Setting
  | setting s => some s
  | _ => none

/-- The declaration, if it is one. -/
def decl? : Statement → Option Decl
  | decl d => some d
  | _ => none

/-- The nodes of a statement. -/
def nodes : Statement → List Node
  | version l => [l.node]
  | package p => [p.node]
  | setting s => [s.node]
  | decl d => d.nodes

end Statement

/-- A file has the options and declarations of its statements in their order, at most one package
statement, and the last version that is named. -/
structure File.ConsistsOf (f : File) (l : List Statement) : Prop where
  version : f.version = (l.filterMap Statement.version?).getLast?
  package : f.package.toList = l.filterMap Statement.package?
  options : f.options = l.filterMap Statement.setting?
  decls : f.decls = l.filterMap Statement.decl?

namespace File.ConsistsOf

variable {f : File} {l : List Statement}

theorem nil (loc : Loc) : ConsistsOf ⟨loc, none, none, [], []⟩ [] := ⟨rfl, rfl, rfl, rfl⟩

/-- The version that was named last counts. -/
theorem concat_version (h : f.ConsistsOf l) (v : TextLit) :
    ConsistsOf { f with version := some v } (l ++ [Statement.version v]) where
  version := by simp [Statement.version?]
  package := by simp [Statement.package?, h.package]
  options := by simp [Statement.setting?, h.options]
  decls := by simp [Statement.decl?, h.decls]

/-- There is only one package statement. -/
theorem concat_package (h : f.ConsistsOf l) (hnone : f.package = none) (p : Package) :
    ConsistsOf { f with package := some p } (l ++ [Statement.package p]) where
  version := by rw [List.filterMap_append, List.getLast?_append]; exact h.version
  package := by simp [Statement.package?, ← h.package, hnone]
  options := by simp [Statement.setting?, h.options]
  decls := by simp [Statement.decl?, h.decls]

theorem concat_setting (h : f.ConsistsOf l) (s : Setting) :
    ConsistsOf { f with options := f.options ++ [s] } (l ++ [Statement.setting s]) where
  version := by rw [List.filterMap_append, List.getLast?_append]; exact h.version
  package := by simp [Statement.package?, h.package]
  options := by simp [Statement.setting?, h.options]
  decls := by simp [Statement.decl?, h.decls]

theorem concat_decl (h : f.ConsistsOf l) (d : Decl) :
    ConsistsOf { f with decls := f.decls ++ [d] } (l ++ [Statement.decl d]) where
  version := by rw [List.filterMap_append, List.getLast?_append]; exact h.version
  package := by simp [Statement.package?, h.package]
  options := by simp [Statement.setting?, h.options]
  decls := by simp [Statement.decl?, h.decls]

end File.ConsistsOf

end Tree

/-! ## §3 Nodes over tokens -/

/-- The offset just past the last of some tokens, or a given one if there is no token. -/
def stopFrom (n : Nat) (w : List Token) : Nat := (w.getLast?.map Token.stop).getD n

@[simp] theorem stopFrom_nil (n : Nat) : stopFrom n [] = n := rfl

@[simp] theorem stopFrom_singleton (n : Nat) (t : Token) : stopFrom n [t] = t.stop := rfl

@[simp] theorem stopFrom_append (n : Nat) (v w : List Token) :
    stopFrom n (v ++ w) = stopFrom (stopFrom n v) w := by
  cases w using List.reverseRecOn with
  | nil => simp
  | append_singleton w t => simp [stopFrom, List.getLast?_append]

@[simp] theorem stopFrom_cons (n : Nat) (t : Token) (w : List Token) :
    stopFrom n (t :: w) = stopFrom t.stop w := stopFrom_append n [t] w

/-- The place from the first to the last of some tokens. -/
def placeOf : List Token → Loc
  | [] => ⟨⟨0, 0⟩, .start⟩
  | t :: r => ⟨.between t.start (stopFrom t.stop r), t.pos⟩

@[simp] theorem placeOf_singleton (t : Token) : placeOf [t] = t.loc := by
  simp [placeOf, Token.loc, Token.span, Span.between, Token.stop]

mutual

/-- The tokens make up the node. -/
inductive Laid : Node → List Token → Prop where
  | mk {kind : NodeKind} {raw : Option Bytes} {parts : List Node} {w : List Token}
      (phrase : w ∈ kind.phrase) (text : ∀ r, raw = some r → ∃ t, w = [t] ∧ t.text = r)
      (laid : LaidIn parts w) : Laid (.mk kind (placeOf w) raw parts) w

/-- The nodes are made up of runs of the tokens, one after the other. -/
inductive LaidIn : List Node → List Token → Prop where
  | nil {w : List Token} : LaidIn [] w
  | cons {n : Node} {r : List Node} (gap : List Token) {v w : List Token} (first : Laid n v)
      (rest : LaidIn r w) : LaidIn (n :: r) (gap ++ v ++ w)

end

namespace LaidIn

variable {l m : List Node} {n : Node} {v w : List Token}

/-- Tokens in front make no difference. -/
theorem append_left (h : LaidIn l w) (v : List Token) : LaidIn l (v ++ w) := by
  cases h with
  | nil => exact .nil
  | cons gap first rest =>
    rw [← List.append_assoc, ← List.append_assoc]
    exact .cons (v ++ gap) first rest

theorem append (hl : LaidIn l v) (hm : LaidIn m w) : LaidIn (l ++ m) (v ++ w) := by
  induction l generalizing v with
  | nil => exact hm.append_left v
  | cons n l ih =>
    cases hl with
    | cons gap first rest =>
      rw [List.append_assoc]
      exact .cons gap first (ih rest)

/-- Tokens behind make no difference. -/
theorem append_right (h : LaidIn l w) (v : List Token) : LaidIn l (w ++ v) := by
  have := h.append (LaidIn.nil (w := v))
  rwa [List.append_nil] at this

theorem singleton (h : Laid n w) : LaidIn [n] w := by
  have := LaidIn.cons [] h (LaidIn.nil (w := []))
  rwa [List.nil_append, List.append_nil] at this

end LaidIn

/-- A node without parts is made up of one token. -/
theorem Laid.token (kind : NodeKind) {raw : Bytes} {t : Token} (h : [t] ∈ kind.phrase)
    (htext : t.text = raw) : Laid (.mk kind t.loc (some raw) []) [t] := by
  rw [← placeOf_singleton t]
  apply Laid.mk h
  · intro r hr
    exact ⟨t, rfl, htext.trans (Option.some.inj hr)⟩
  · exact .nil

/-- A node that keeps no text is made up of the tokens around its parts. -/
theorem Laid.compound {kind : NodeKind} {loc : Loc} {parts : List Node} {w : List Token}
    (h : w ∈ kind.phrase) (hloc : loc = placeOf w) (hparts : LaidIn parts w) :
    Laid (.mk kind loc none parts) w := by
  subst hloc
  exact .mk h nofun hparts

theorem Laid.ne_nil {n : Node} {w : List Token} (h : Laid n w) : w ≠ [] := by
  cases h with
  | mk phrase text laid => exact NodeKind.ne_nil_of_mem_phrase phrase

theorem Laid.loc_eq {n : Node} {w : List Token} (h : Laid n w) : n.loc = placeOf w := by
  cases h with
  | mk phrase text laid => rfl

/-! ## §4 Nodes over octets -/

mutual

/-- A node covers octets of the source. Its line and column are those of the first of them, its text
is what it covers, and its parts lie inside, one after the other. -/
inductive Placed (src : Bytes) : Node → Prop where
  | mk {kind : NodeKind} {loc : Loc} {raw : Option Bytes} {parts : List Node}
      (within : loc.Within src) (covers : 0 < loc.span.length)
      (text : ∀ r, raw = some r → (src.drop loc.span.start).take loc.span.length = r)
      (placed : PlacedIn src loc.span.start parts loc.span.stop) :
      Placed src (.mk kind loc raw parts)

/-- Nodes lie one after the other between two offsets. -/
inductive PlacedIn (src : Bytes) : Nat → List Node → Nat → Prop where
  | nil {i j : Nat} (le : i ≤ j) : PlacedIn src i [] j
  | cons {i j : Nat} {n : Node} {r : List Node} (le : i ≤ n.loc.span.start) (first : Placed src n)
      (rest : PlacedIn src n.loc.span.stop r j) : PlacedIn src i (n :: r) j

end

variable {src : Bytes}

namespace Row

variable {n : Nat} {t : Token} {v w : List Token}

theorem le_stopFrom (h : Row src n w) : n ≤ stopFrom n w := by
  induction h with
  | nil => exact le_rfl
  | cons le cut text rest ih =>
    rw [stopFrom_cons]
    exact (le.trans (Nat.le_add_right _ _)).trans ih

theorem bound (h : Row src n w) (hn : n ≤ src.length) : stopFrom n w ≤ src.length := by
  induction h with
  | nil => exact hn
  | cons le cut text rest ih =>
    rw [stopFrom_cons]
    exact ih cut.bound

theorem from_start (h : Row src n (t :: w)) : Row src t.start (t :: w) := by
  cases h with
  | cons le cut text rest => exact .cons le_rfl cut text rest

theorem left (h : Row src n (v ++ w)) : Row src n v := by
  induction v generalizing n with
  | nil => exact .nil
  | cons t v ih =>
    cases h with
    | cons le cut text rest => exact .cons le cut text (ih rest)

theorem right (h : Row src n (v ++ w)) : Row src (stopFrom n v) w := by
  induction v generalizing n with
  | nil => exact h
  | cons t v ih =>
    cases h with
    | cons le cut text rest =>
      rw [stopFrom_cons]
      exact ih rest

end Row

/-- The place of tokens in a row. -/
theorem exists_of_row {n : Nat} {t : Token} {w : List Token} (h : Row src n (t :: w)) :
    n ≤ t.start ∧ (placeOf (t :: w)).span.start = t.start
      ∧ (placeOf (t :: w)).span.stop = stopFrom n (t :: w)
      ∧ (placeOf (t :: w)).Within src ∧ 0 < (placeOf (t :: w)).span.length := by
  cases h with
  | cons le cut text rest =>
    have hlast := rest.le_stopFrom
    have hbound := rest.bound cut.bound
    have htext := List.length_pos_iff.mpr text
    have hstop : t.stop = t.start + t.text.length := rfl
    simp only [placeOf, stopFrom_cons, Span.between, Span.stop]
    refine ⟨le, trivial, by omega, ⟨?_, cut.pos⟩, by omega⟩
    simp only [Span.stop]
    omega

mutual

/-- A node that is made up of tokens covers the octets from the first to the last of them. -/
theorem Laid.placed {n : Node} {w : List Token} {i : Nat} (h : Laid n w) (hrow : Row src i w) :
    Placed src n ∧ i ≤ n.loc.span.start ∧ n.loc.span.stop = stopFrom i w := by
  cases h with
  | mk phrase text laid =>
    obtain ⟨t, r, rfl⟩ := List.exists_cons_of_ne_nil (NodeKind.ne_nil_of_mem_phrase phrase)
    obtain ⟨hle, hstart, hstop, hwithin, hcovers⟩ := exists_of_row hrow
    refine ⟨.mk hwithin hcovers (fun b hb => ?_) ?_, hstart ▸ hle, hstop⟩
    · obtain ⟨u, hu, rfl⟩ := text b hb
      rw [hu, placeOf_singleton]
      exact (hrow.cut (hu ▸ List.mem_singleton_self u)).text
    · rw [hstart, hstop, stopFrom_cons, ← stopFrom_cons t.start]
      exact laid.placed hrow.from_start

/-- Nodes that are made up of runs of tokens lie one after the other. -/
theorem LaidIn.placed {l : List Node} {w : List Token} {i : Nat} (h : LaidIn l w)
    (hrow : Row src i w) : PlacedIn src i l (stopFrom i w) := by
  cases h with
  | nil => exact .nil hrow.le_stopFrom
  | cons gap first rest =>
    obtain ⟨hplaced, hle, hstop⟩ := first.placed hrow.left.right
    rw [stopFrom_append, stopFrom_append]
    refine .cons (hrow.left.left.le_stopFrom.trans hle) hplaced ?_
    rw [hstop, ← stopFrom_append]
    exact rest.placed hrow.right

end

end Idl
