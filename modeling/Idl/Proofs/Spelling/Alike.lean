import Idl.Proofs.Compile.Alike
import Idl.Proofs.Spelling.Forms

/-!
# Other spellings mean the same

Much can be spelled in more than one way. Here are the ways, each of them at one place of a file.
Whatever is spelled in another way at one place has a tree that is alike: the same is meant by it.

* §1 names and constants, §2 annotations, §3 types, §4 fields, §5 methods,
* §6 bodies, §7 messages, services and statements, §8 files,
* §9 names, constants and annotations mean the same, §10 types, fields and methods,
* §11 bodies, §12 declarations and files.
-/

namespace Idl

namespace Spelling

/-! ## §1 Names and constants -/

/-- Another separator of two components. -/
inductive Path.Respelled : Path → Path → Prop where
  | separator (first w : Word) (s t : Separator) (before after : List (Separator × Word)) :
    Respelled ⟨first, before ++ (s, w) :: after⟩ ⟨first, before ++ (t, w) :: after⟩

/-- Another literal of the same number or the same text. -/
inductive Literal.Respelled : Literal → Literal → Prop where
  | int {m n : Whole} (h : m.value = n.value) : Respelled (.int m) (.int n)
  | text {s t : Bytes} (h : textValue s = textValue t) : Respelled (.text s) (.text t)

/-- Another spelling of a constant. -/
inductive Value.Respelled : Value → Value → Prop where
  | literal {l m : Literal} (h : l.Respelled m) : Respelled (.literal l) (.literal m)
  | path {p q : Path} (h : p.Respelled q) (hp : p.first.text ∉ Grammar.constantWords)
      (hq : q.first.text ∉ Grammar.constantWords) : Respelled (.path p hp) (.path q hq)

/-! ## §2 Annotations -/

/-- Another spelling of an argument. A name by itself is short for a true value of that name. -/
inductive Arg.Respelled : Arg → Arg → Prop where
  | positional {l m : Literal} (h : l.Respelled m) : Respelled (.positional l) (.positional m)
  | value (key : Key) {v w : Value} (h : v.Respelled w) : Respelled (.pair key v) (.pair key w)
  | flag (key : Key) : Respelled (.flag key) (.pair key (.literal (.bool true)))

/-- Whether an argument has a name. -/
def Arg.isNamed : Arg → Bool
  | positional _ => false
  | _ => true

/-- Another spelling of an annotation. Empty parentheses and a last comma mean nothing, and neither
does the order of the arguments with names. -/
inductive Annot.Respelled : Annot → Annot → Prop where
  | name {p q : Path} (h : p.Respelled q) (args : Option Args) : Respelled ⟨p, args⟩ ⟨q, args⟩
  | arg (name : Path) (before after : List Arg) (comma : Bool) {a b : Arg} (h : a.Respelled b) :
    Respelled ⟨name, some ⟨before ++ a :: after, comma⟩⟩ ⟨name, some ⟨before ++ b :: after, comma⟩⟩
  | parens (name : Path) (comma : Bool) : Respelled ⟨name, none⟩ ⟨name, some ⟨[], comma⟩⟩
  | comma (name : Path) (items : List Arg) :
    Respelled ⟨name, some ⟨items, false⟩⟩ ⟨name, some ⟨items, true⟩⟩
  | order (name : Path) {items items' : List Arg} (comma : Bool)
      (hnamed : (items.filter Arg.isNamed).Perm (items'.filter Arg.isNamed))
      (hothers : items.filter (!·.isNamed) = items'.filter (!·.isNamed)) :
    Respelled ⟨name, some ⟨items, comma⟩⟩ ⟨name, some ⟨items', comma⟩⟩

/-- An annotation that says where something was declared. -/
def Annot.IsSource (a : Annot) : Prop := a.name.names = [Idl.Annot.sourceName]

/-! ## §3 Types -/

/-- Another name of a type: a second name of a type that is built in, or the name of the package in
front of the name of a message. -/
inductive Path.SameType (package : Option Path) : Path → Path → Prop where
  | path {p q : Path} (h : p.Respelled q) : SameType package p q
  | float : SameType package ⟨.of "float" rfl, []⟩ ⟨.of "float32" rfl, []⟩
  | double : SameType package ⟨.of "double" rfl, []⟩ ⟨.of "float64" rfl, []⟩
  | qualified {p q : Path} (w : Word) (hpackage : package = some p)
      (hfree : Scalar.ofName? w.text = none) (hq : q.names = p.names ++ [w.text]) :
    SameType package ⟨w, []⟩ q

/-! ## §4 Fields -/

/-- Another spelling of a field. -/
inductive Field.Respelled (package : Option Path) : Field → Field → Prop where
  | type (label : Option Tree.Presence) {p q : Path} (h : p.SameType package q) (name : Word)
      (question : Bool) (number : Option Whole) :
    Respelled package ⟨label, p, name, question, number⟩ ⟨label, q, name, question, number⟩
  | optional (type : Path) (name : Word) (number : Option Whole) :
    Respelled package ⟨some .optional, type, name, false, number⟩ ⟨none, type, name, true, number⟩
  | required (type : Path) (name : Word) (question : Bool) (number : Option Whole) :
    Respelled package ⟨some .required, type, name, question, number⟩
      ⟨none, type, name, question, number⟩
  | number (label : Option Tree.Presence) (type : Path) (name : Word) (question : Bool)
      {m n : Whole} (h : m.value = n.value) :
    Respelled package ⟨label, type, name, question, some m⟩ ⟨label, type, name, question, some n⟩

/-! ## §5 Methods -/

/-- Another spelling of an input or output. -/
inductive Parameter.Respelled (package : Option Path) : Parameter → Parameter → Prop where
  | parens (type : Path) : Respelled package (.parens (some type)) (.bare type)
  | bareType {p q : Path} (h : p.SameType package q) : Respelled package (.bare p) (.bare q)
  | parensType {p q : Path} (h : p.SameType package q) :
    Respelled package (.parens (some p)) (.parens (some q))

/-- Another spelling of a method. -/
inductive Method.Respelled (package : Option Path) : Method → Method → Prop where
  | mark (name : Word) (input : Option Parameter) (output : Parameter) (ending : Ending) :
    Respelled package ⟨name, input, some (.returns, output), ending⟩
      ⟨name, input, some (.arrow, output), ending⟩
  | input (name : Word) {p q : Parameter} (h : p.Respelled package q)
      (output : Option (Mark × Parameter)) (ending : Ending) :
    Respelled package ⟨name, some p, output, ending⟩ ⟨name, some q, output, ending⟩
  | output (name : Word) (input : Option Parameter) (mark : Mark) {p q : Parameter}
      (h : p.Respelled package q) (ending : Ending) :
    Respelled package ⟨name, input, some (mark, p), ending⟩ ⟨name, input, some (mark, q), ending⟩
  | noInput (name : Word) (output : Option (Mark × Parameter)) (ending : Ending) :
    Respelled package ⟨name, some (.parens none), output, ending⟩ ⟨name, none, output, ending⟩
  | noOutput (name : Word) (input : Option Parameter) (mark : Mark) (ending : Ending) :
    Respelled package ⟨name, input, some (mark, .parens none), ending⟩ ⟨name, input, none, ending⟩
  | ending (name : Word) (input : Option Parameter) (output : Option (Mark × Parameter))
      (e e' : Ending) : Respelled package ⟨name, input, output, e⟩ ⟨name, input, output, e'⟩

/-! ## §6 Bodies -/

/-- Another spelling of what stands in a body or a file, given that of what is particular there. -/
inductive Item.Respelled {α : Type} (R : α → α → Prop) : List (Item α) → List (Item α) → Prop where
  | semicolon (before after : List (Item α)) :
    Respelled R (before ++ after) (before ++ .semicolon :: after)
  | source (before after : List (Item α)) {a : Annot} (h : a.IsSource) :
    Respelled R (before ++ after) (before ++ .annot a :: after)
  | annot (before after : List (Item α)) {a b : Annot} (h : a.Respelled b) :
    Respelled R (before ++ .annot a :: after) (before ++ .annot b :: after)
  | member (before after : List (Item α)) {x y : α} (h : R x y) :
    Respelled R (before ++ .member x :: after) (before ++ .member y :: after)

/-! ## §7 Messages, services and statements -/

/-- Another spelling of a message. A field may be given the number that is its position. -/
inductive Message.Respelled (package : Option Path) : Message → Message → Prop where
  | body (name : Word) {l m : List (Item Field)}
      (h : Item.Respelled (Field.Respelled package) l m) :
    Respelled package ⟨name, l⟩ ⟨name, m⟩
  | number (name : Word) (before after : List (Item Field)) (label : Option Tree.Presence)
      (type : Path) (field : Word) (question : Bool) (n : Whole)
      (hn : n.value = (Item.members before).length + 1) :
    Respelled package ⟨name, before ++ .member ⟨label, type, field, question, none⟩ :: after⟩
      ⟨name, before ++ .member ⟨label, type, field, question, some n⟩ :: after⟩

/-- Another spelling of a service. -/
inductive Service.Respelled (package : Option Path) : Service → Service → Prop where
  | body (name : Word) {l m : List (Item Method)}
      (h : Item.Respelled (Method.Respelled package) l m) :
    Respelled package ⟨name, l⟩ ⟨name, m⟩

/-- Another spelling of a statement or declaration. -/
inductive Statement.Respelled (package : Option Path) : Statement → Statement → Prop where
  | version {s t : Bytes} (h : textValue s = textValue t) :
    Respelled package (.version s) (.version t)
  | package {p q : Path} (h : p.Respelled q) : Respelled package (.package p) (.package q)
  | settingName {p q : Path} (h : p.Respelled q) (v : Value) :
    Respelled package (.setting p v) (.setting q v)
  | settingValue (p : Path) {v w : Value} (h : v.Respelled w) :
    Respelled package (.setting p v) (.setting p w)
  | message {m n : Message} (h : m.Respelled package n) :
    Respelled package (.message m) (.message n)
  | service {s t : Service} (h : s.Respelled package t) :
    Respelled package (.service s) (.service t)

/-! ## §8 Files -/

/-- Another spelling of a file, at one place. The version of the language may be named or not, and
the package statement may stand anywhere. -/
inductive File.Respelled : File → File → Prop where
  | items {l m : List (Item Statement)}
      (h : Item.Respelled (Statement.Respelled (File.mk l).package?) l m) : Respelled ⟨l⟩ ⟨m⟩
  | version (before after : List (Item Statement)) {text : Bytes} (h : textValue text = "proto3") :
    Respelled ⟨before ++ after⟩ ⟨before ++ .member (.version text) :: after⟩
  | package (before after before' after' : List (Item Statement)) (p : Path)
      (h : before ++ after = before' ++ after') :
    Respelled ⟨before ++ .member (.package p) :: after⟩ ⟨before' ++ .member (.package p) :: after'⟩

open Idl.Tree (nowhere)

/-! ## §9 Names, constants and annotations mean the same -/

theorem Path.Respelled.tree_eq {p q : Path} (h : p.Respelled q) : p.tree = q.tree := by
  cases h with
  | separator first w s t before after => simp [Path.tree]

theorem Literal.Respelled.lower_eq {l m : Literal} (h : l.Respelled m) :
    l.constant.lower = m.constant.lower := by
  cases h with
  | int h => exact congrArg Idl.Value.ofInt h
  | text h => exact congrArg Idl.Value.text h

theorem Value.Respelled.lower_eq {v w : Value} (h : v.Respelled w) :
    v.tree.lower = w.tree.lower := by
  cases h with
  | literal h => exact h.lower_eq
  | path h => simp only [Value.tree, h.tree_eq]

theorem Arg.Respelled.form {a b : Arg} (h : a.Respelled b) :
    a.form.pair? = b.form.pair? ∧ a.form.positional? = b.form.positional? := by
  cases h with
  | positional h => exact ⟨rfl, congrArg some h.lower_eq⟩
  | value key h =>
    refine ⟨?_, rfl⟩
    simp only [Arg.form, Tree.ArgForm.pair?, h.lower_eq]
  | flag key => exact ⟨rfl, rfl⟩

section

variable (name : Path) (items : List Arg) (comma : Bool)

/-- What is picked of the arguments of an annotation. -/
theorem Annot.pick_tree {β : Type} (pick : Tree.ArgForm → Option β) :
    ((Annot.tree ⟨name, some ⟨items, comma⟩⟩).args.map (·.form)).filterMap pick
      = items.filterMap fun a => pick a.form := by
  simp [Annot.tree, Tree.Annot.args, Arg.tree, List.filterMap_map, Function.comp_def]

theorem Annot.named_tree : (Annot.tree ⟨name, some ⟨items, comma⟩⟩).named
    = (items.filter Arg.isNamed).filterMap fun a => a.form.pair? := by
  rw [Tree.Annot.named, Annot.pick_tree, List.filterMap_filter]
  congr 1
  funext a
  cases a <;> rfl

theorem Annot.positional_tree : (Annot.tree ⟨name, some ⟨items, comma⟩⟩).positional
    = (items.filter (!·.isNamed)).filterMap fun a => a.form.positional? := by
  rw [Tree.Annot.positional, Annot.pick_tree, List.filterMap_filter]
  congr 1
  funext a
  cases a <;> rfl

end

/-- An annotation spelled in another way is alike. -/
theorem Annot.Respelled.alike {a b : Annot} (h : a.Respelled b) : a.tree.Alike b.tree := by
  cases h with
  | name h args =>
    simp only [Annot.tree, h.tree_eq]
    exact ⟨rfl, rfl, .refl _⟩
  | arg name before after comma h =>
    obtain ⟨hpair, hpositional⟩ := h.form
    refine ⟨rfl, ?_, .of_eq ?_⟩
    · rw [Tree.Annot.positional, Tree.Annot.positional, Annot.pick_tree, Annot.pick_tree]
      simp [List.filterMap_cons, hpositional]
    · rw [Tree.Annot.named, Tree.Annot.named, Annot.pick_tree, Annot.pick_tree]
      simp [List.filterMap_cons, hpair]
  | parens name comma => exact ⟨rfl, rfl, .refl _⟩
  | comma name items => exact ⟨rfl, rfl, .refl _⟩
  -- the arguments with a key may be put in another order
  | order name comma hnamed hothers =>
    refine ⟨rfl, ?_, ?_⟩
    · rw [Annot.positional_tree, Annot.positional_tree, hothers]
    · rw [Annot.named_tree, Annot.named_tree]
      exact hnamed.filterMap _

/-- The name that the tree of a path stands for. -/
theorem Path.dotted_tree (p : Path) : p.tree.dotted = Bytes.join "." p.names := by
  simp [Tree.Path.dotted, Tree.Path.parts, Path.tree, Path.names, Word.tree, Function.comp_def]

theorem Annot.IsSource.counts {a : Annot} (h : a.IsSource) : a.tree.counts = false := by
  have hname : a.tree.name.dotted = Idl.Annot.sourceName := by
    rw [Annot.tree, Path.dotted_tree, h]
    rfl
  simp [Tree.Annot.counts, hname]

/-! ## §10 Types, fields and methods -/

/-- There is no point in a name of one component. -/
theorem Word.not_mem (w : Word) : (0x2E : UInt8) ∉ w.text := by
  intro h
  exact absurd (w.isName.octets _ h) (by decide)

/-- A name in front of which the package can be taken off. -/
theorem trimStart_append (package name : Bytes) :
    Bytes.trimStart (package ++ "." ++ name) (package ++ ".") = name := by
  have hstart : Bytes.startsWith (package ++ "." ++ name) (package ++ ".") = true :=
    List.isPrefixOf_iff_prefix.mpr (List.prefix_append _ _)
  rw [Bytes.trimStart, if_pos hstart]
  exact List.drop_left

/-- From a name of one component nothing is taken off. -/
theorem Word.trimStart (w : Word) (package : Bytes) :
    Bytes.trimStart w.text (package ++ ".") = w.text := by
  rw [Bytes.trimStart, if_neg]
  intro hstart
  obtain ⟨r, hr⟩ := List.isPrefixOf_iff_prefix.mp hstart
  apply w.not_mem
  rw [← hr]
  have hpoint : ("." : Bytes) = [0x2E] := rfl
  simp [hpoint]

theorem Path.dotted_ne_nil (p : Path) : p.tree.dotted ≠ [] := by
  rw [Path.dotted_tree, Path.names]
  intro h
  apply p.first.isName.nonempty
  cases hmore : p.more with
  | nil => simpa [hmore, Bytes.join] using h
  | cons x r =>
    simp only [hmore, Bytes.join, List.map_cons, List.intercalate_cons_cons,
      List.append_eq_nil_iff] at h
    exact h.1.1

theorem join_concat {sep x : Bytes} {l : List Bytes} (h : l ≠ []) :
    Bytes.join sep (l ++ [x]) = Bytes.join sep l ++ sep ++ x := by
  induction l with
  | nil => contradiction
  | cons a l ih =>
    cases l with
    | nil => simp [Bytes.join]
    | cons b l =>
      have ih := ih (List.cons_ne_nil b l)
      simp only [Bytes.join, List.cons_append, List.intercalate_cons_cons] at ih ⊢
      rw [ih]
      simp only [List.append_assoc]

/-- A name with one more component. -/
theorem Path.dotted_concat {p q : Path} {w : Word} (h : q.names = p.names ++ [w.text]) :
    q.tree.dotted = p.tree.dotted ++ "." ++ w.text ∧ q.tree.more ≠ [] := by
  constructor
  · have hnames : p.names ≠ [] := List.cons_ne_nil _ _
    rw [Path.dotted_tree, Path.dotted_tree, h, join_concat hnames]
  · intro hnil
    have hlength := congrArg List.length h
    have hmore : q.more = [] := by simpa [Path.tree] using hnil
    simp [Path.names, hmore] at hlength

/-- The two names of a type mean the same in a file of the package. -/
theorem Path.SameType.resolve? {package : Option Path} {p q : Path} (h : p.SameType package q)
    {f : Tree.File} (hf : f.package.map (·.name) = package.map Path.tree) :
    f.resolve? ⟨nowhere, p.tree⟩ = f.resolve? ⟨nowhere, q.tree⟩ := by
  cases h with
  | path h => rw [h.tree_eq]
  | float => rfl
  | double => rfl
  | @qualified p q w hpackage hfree hq =>
    obtain ⟨hdotted, hmore⟩ := Path.dotted_concat hq
    have hword : (⟨w, []⟩ : Path).tree.dotted = w.text := by
      simp [Path.dotted_tree, Path.names, Bytes.join]
    -- the package of the file is the one written in front
    have hname : f.packageName = p.tree.dotted := by
      rw [hpackage, Option.map_some] at hf
      obtain ⟨x, hx, hxname⟩ := Option.map_eq_some_iff.mp hf
      rw [Tree.File.packageName, hx, ← hxname]
      rfl
    have hfree : Scalar.ofName? (⟨w, []⟩ : Path).tree.first.name = none := hfree
    -- the short name is no scalar, and the long one cannot be
    have hnone : (if (⟨w, []⟩ : Path).tree.more.isEmpty = true then
        Scalar.ofName? (⟨w, []⟩ : Path).tree.first.name else none) = none := by
      rw [hfree, ite_self]
    have hnone' : (if q.tree.more.isEmpty = true then Scalar.ofName? q.tree.first.name else none)
        = none := if_neg (by simpa using hmore)
    have hpackageName : ¬p.tree.dotted.isEmpty = true := by
      rw [List.isEmpty_iff]
      exact p.dotted_ne_nil
    unfold Tree.File.resolve?
    simp only [hnone, hnone', hword, hdotted, hname, if_neg hpackageName, Word.trimStart,
      trimStart_append]

section

variable {package : Option Path} {resolve : Tree.TypeRef → Option Ty} {l m : List Tree.Annot}

/-- References are resolved to the same type if they are the same type in a file of a package. -/
def Resolves (package : Option Path) (resolve : Tree.TypeRef → Option Ty) : Prop :=
  ∀ p q : Path, p.SameType package q → resolve ⟨nowhere, p.tree⟩ = resolve ⟨nowhere, q.tree⟩

theorem Field.alike (d : Field) (h : Tree.AnnotsAlike l m) (i : Nat) :
    (d.tree l).Alike resolve i (d.tree m) :=
  ⟨h, rfl, rfl, rfl, rfl⟩

theorem Field.Respelled.alike {d e : Field} (hde : d.Respelled package e)
    (hresolve : Resolves package resolve) (h : Tree.AnnotsAlike l m) (i : Nat) :
    (d.tree l).Alike resolve i (e.tree m) := by
  cases hde with
  | type label hpq name question number => exact ⟨h, hresolve _ _ hpq, rfl, rfl, rfl⟩
  | optional type name number => exact ⟨h, rfl, rfl, rfl, rfl⟩
  | required type name question number => exact ⟨h, rfl, rfl, rfl, rfl⟩
  | number label type name question hmn => exact ⟨h, rfl, rfl, rfl, hmn⟩

theorem Method.alike (d : Method) (h : Tree.AnnotsAlike l m) :
    (d.tree l).Alike resolve (d.tree m) :=
  ⟨h, rfl, rfl, rfl⟩

theorem Parameter.Respelled.alike {p q : Parameter} (h : p.Respelled package q)
    (hresolve : Resolves package resolve) : p.tree.map resolve = q.tree.map resolve := by
  cases h with
  | parens type => rfl
  | bareType h => exact congrArg some (hresolve _ _ h)
  | parensType h => exact congrArg some (hresolve _ _ h)

theorem Method.Respelled.alike {d e : Method} (hde : d.Respelled package e)
    (hresolve : Resolves package resolve) (h : Tree.AnnotsAlike l m) :
    (d.tree l).Alike resolve (e.tree m) := by
  cases hde with
  | mark name input output ending => exact ⟨h, rfl, rfl, rfl⟩
  | input name hpq output ending => exact ⟨h, rfl, hpq.alike hresolve, rfl⟩
  | output name input mark hpq ending => exact ⟨h, rfl, rfl, hpq.alike hresolve⟩
  | noInput name output ending => exact ⟨h, rfl, rfl, rfl⟩
  | noOutput name input mark ending => exact ⟨h, rfl, rfl, rfl⟩
  | ending name input output e e' => exact ⟨h, rfl, rfl, rfl⟩

end

/-! ## §11 Bodies -/

namespace Item

section

variable {α β : Type} {take? : α → Option (List Tree.Annot → β)} {A : β → β → Prop}

/-- What two items take annotations to is related wherever the annotations are alike. -/
def Related (A : β → β → Prop) :
    Option (List Tree.Annot → β) → Option (List Tree.Annot → β) → Prop :=
  Option.Rel fun put put' => ∀ l m, Tree.AnnotsAlike l m → A (put l) (put' m)

/-- Behind the same items, what is meant is related if it is without them. -/
theorem gather_append (hsame : ∀ x, Related A (take? x) (take? x)) {after after' : List (Item α)}
    (hafter : ∀ l m, Tree.AnnotsAlike l m →
      List.Forall₂ A (gather take? l after) (gather take? m after'))
    (before : List (Item α)) {l m : List Tree.Annot} (h : Tree.AnnotsAlike l m) :
    List.Forall₂ A (gather take? l (before ++ after)) (gather take? m (before ++ after')) := by
  induction before generalizing l m with
  | nil => exact hafter l m h
  | cons item before ih =>
    cases item with
    | semicolon => exact ih h
    -- the annotation is pending on both sides
    | annot a => exact ih (h.append (.refl [a.tree]))
    | member x =>
      have hx := hsame x
      simp only [List.cons_append, gather]
      generalize take? x = put at hx
      cases hx with
      | none => exact ih h
      | some hput => exact .cons (hput l m h) (ih (.refl []))

/-- The same items behind alike annotations. -/
theorem gather_same (hsame : ∀ x, Related A (take? x) (take? x)) (items : List (Item α))
    {l m : List Tree.Annot} (h : Tree.AnnotsAlike l m) :
    List.Forall₂ A (gather take? l items) (gather take? m items) := by
  have hnil : ∀ l m, Tree.AnnotsAlike l m →
      List.Forall₂ A (gather take? l []) (gather take? m []) := fun _ _ _ => .nil
  simpa using gather_append hsame hnil items h

/-- Items in another spelling mean related things. -/
theorem Respelled.gather {R : α → α → Prop} {items items' : List (Item α)}
    (hitems : Item.Respelled R items items') (hsame : ∀ x, Related A (take? x) (take? x))
    (hR : ∀ x y, R x y → Related A (take? x) (take? y)) :
    List.Forall₂ A (gather take? [] items) (gather take? [] items') := by
  -- before the change the items agree, at it the annotations gathered still do, behind it again
  cases hitems with
  | semicolon before after =>
    apply gather_append hsame _ before (.refl [])
    intro l m h
    exact gather_same hsame after h
  | @source before after a ha =>
    apply gather_append hsame _ before (.refl [])
    intro l m h
    have hsource : Tree.AnnotsAlike [] [a.tree] := by
      simp [Tree.AnnotsAlike, ha.counts]
    have happend := h.append hsource
    rw [List.append_nil] at happend
    exact gather_same hsame after happend
  | annot before after hab =>
    apply gather_append hsame _ before (.refl [])
    intro l m h
    exact gather_same hsame after (h.append (.single hab.alike))
  | @member before after x y hxy =>
    apply gather_append hsame _ before (.refl [])
    intro l m h
    have hput := hR x y hxy
    simp only [Item.gather]
    generalize take? x = put, take? y = put' at hput
    cases hput with
    | none => exact gather_same hsame after h
    | some hput => exact .cons (hput l m h) (gather_same hsame after (.refl []))

end

end Item

/-! ## §12 Declarations and files -/

section

variable {package : Option Path} {resolve : Tree.TypeRef → Option Ty} {l m : List Tree.Annot}

/-- Alike fields, one by one, are alike at their positions. -/
theorem numbered_alike {x y : Tree.Message}
    (h : List.Forall₂ (fun d e => ∀ i, Tree.Field.Alike resolve i d e) x.fields y.fields) :
    List.Forall₂ (fun d e => d.1 = e.1 ∧ Tree.Field.Alike resolve d.1 d.2 e.2)
      x.numbered y.numbered := by
  unfold Tree.Message.numbered
  rw [List.forall₂_map_left_iff, List.forall₂_map_right_iff]
  refine (Tree.forall₂_zipIdx h 0).imp ?_
  rintro ⟨d, i⟩ ⟨e, _⟩ ⟨hde, rfl⟩
  exact ⟨rfl, hde (i + 1)⟩

theorem Message.alike (x : Message) (h : Tree.AnnotsAlike l m) :
    (x.tree l).Alike resolve (x.tree m) := by
  refine ⟨h, rfl, numbered_alike ?_⟩
  exact Item.gather_same (A := fun d e => ∀ i, Tree.Field.Alike resolve i d e)
    (fun d => .some fun _ _ h => d.alike h) x.body (.refl [])

theorem Service.alike (x : Service) (h : Tree.AnnotsAlike l m) :
    (x.tree l).Alike resolve (x.tree m) := by
  refine ⟨h, rfl, ?_⟩
  exact Item.gather_same (A := Tree.Method.Alike resolve)
    (fun d => .some fun _ _ h => d.alike h) x.body (.refl [])

theorem Service.Respelled.alike {x y : Service} (hxy : x.Respelled package y)
    (hresolve : Resolves package resolve) (h : Tree.AnnotsAlike l m) :
    (x.tree l).Alike resolve (y.tree m) := by
  cases hxy with
  | body name hbody =>
    refine ⟨h, rfl, ?_⟩
    exact hbody.gather (A := Tree.Method.Alike resolve)
      (fun d => .some fun _ _ h => d.alike h)
      fun d e hde => .some fun _ _ h => hde.alike hresolve h

/-- What is meant by items is what is meant by the first of them and then by the others, behind
annotations that still wait. -/
theorem Item.exists_gather {α β : Type} (put : α → List Tree.Annot → β) (before : List (Item α))
    (pending : List Tree.Annot) : ∃ done waiting, done.length = (Item.members before).length
      ∧ ∀ after, Item.gather (fun x => some (put x)) pending (before ++ after)
        = done ++ Item.gather (fun x => some (put x)) waiting after := by
  induction before generalizing pending with
  | nil => exact ⟨[], pending, rfl, fun _ => rfl⟩
  | cons item before ih =>
    cases item with
    | semicolon => exact ih pending
    | annot a => exact ih (pending ++ [a.tree])
    -- a member takes what is pending, and the next one begins with nothing
    | member x =>
      obtain ⟨done, waiting, hlength, hgather⟩ := ih []
      refine ⟨put x pending :: done, waiting, ?_, fun after => ?_⟩
      · simpa [Item.members] using hlength
      · simp [Item.gather, hgather]

theorem Message.Respelled.alike {x y : Message} (hxy : x.Respelled package y)
    (hresolve : Resolves package resolve) (h : Tree.AnnotsAlike l m) :
    (x.tree l).Alike resolve (y.tree m) := by
  cases hxy with
  | body name hbody =>
    refine ⟨h, rfl, numbered_alike ?_⟩
    exact hbody.gather (A := fun d e => ∀ i, Tree.Field.Alike resolve i d e)
      (fun d => .some fun _ _ h => d.alike h)
      fun d e hde => .some fun _ _ h => hde.alike hresolve h
  | number name before after label type field question n hn =>
    refine ⟨h, rfl, ?_⟩
    obtain ⟨done, waiting, hlength, hgather⟩ := Item.exists_gather Field.tree before []
    unfold Tree.Message.numbered
    simp only [Message.tree, hgather, Item.gather]
    rw [List.forall₂_map_left_iff, List.forall₂_map_right_iff, List.zipIdx_append,
      List.zipIdx_append, List.zipIdx_cons, List.zipIdx_cons]
    have hsame (d : Tree.Field × Nat) :
        (d.2 + 1, d.1).1 = (d.2 + 1, d.1).1 ∧ Tree.Field.Alike resolve (d.2 + 1) d.1 d.1 :=
      ⟨rfl, .refl d.1.annots, rfl, rfl, rfl, rfl⟩
    refine List.rel_append (List.forall₂_same.mpr fun d _ => hsame d)
      (.cons ⟨rfl, ⟨.refl _, rfl, rfl, rfl, ?_⟩⟩ (List.forall₂_same.mpr fun d _ => hsame d))
    -- the number that is written is the position
    simp [Tree.Field.valueAt, Field.tree, Whole.tree, hn, hlength]

/-- What a statement declares. -/
theorem Statement.related (x : Statement) :
    Item.Related (Tree.Decl.Alike resolve) x.decl? x.decl? := by
  cases x with
  | message m => exact .some fun _ _ h => .message (m.alike h)
  | service s => exact .some fun _ _ h => .service (s.alike h)
  | _ => exact .none

theorem Statement.Respelled.related {x y : Statement} (hxy : x.Respelled package y)
    (hresolve : Resolves package resolve) :
    Item.Related (Tree.Decl.Alike resolve) x.decl? y.decl? := by
  cases hxy with
  | message hmn => exact .some fun _ _ h => .message (hmn.alike hresolve h)
  | service hst => exact .some fun _ _ h => .service (hst.alike hresolve h)
  | _ => exact .none

/-- An option as the annotation that it means. -/
def optionAnnot (o : Tree.Setting) : Idl.Annot :=
  { name := Idl.Annot.optionName, pairs := [⟨o.name.dotted, o.value.lower⟩] }

/-- A statement names the same package and sets the same option in any spelling. -/
theorem Statement.Respelled.others {x y : Statement} (hxy : x.Respelled package y) :
    x.package?.map Path.tree = y.package?.map Path.tree
      ∧ x.setting?.map optionAnnot = y.setting?.map optionAnnot := by
  -- neither the package nor an option changes what it says
  cases hxy with
  | version h => exact ⟨rfl, rfl⟩
  | package h => exact ⟨congrArg some h.tree_eq, rfl⟩
  | settingName h v =>
    refine ⟨rfl, ?_⟩
    simp only [Statement.setting?, Option.map_some, optionAnnot, h.tree_eq]
  | settingValue p h =>
    refine ⟨rfl, ?_⟩
    simp only [Statement.setting?, Option.map_some, optionAnnot, h.lower_eq]
  | message h => exact ⟨rfl, rfl⟩
  | service h => exact ⟨rfl, rfl⟩

end

/-- The particular items of items in another spelling. -/
theorem Item.Respelled.filterMap_members {α β : Type} {R : α → α → Prop}
    {items items' : List (Item α)} (h : Item.Respelled R items items') {pick : α → Option β}
    (hpick : ∀ x y, R x y → pick x = pick y) :
    (Item.members items).filterMap pick = (Item.members items').filterMap pick := by
  cases h with
  | semicolon before after => simp [Item.members]
  | source before after h => simp [Item.members]
  | annot before after h => simp [Item.members]
  | member before after hxy => simp [Item.members, List.filterMap_cons, hpick _ _ hxy]

/-- An item that takes no annotations may be left out. -/
theorem Item.gather_skip {α β : Type} {take? : α → Option (List Tree.Annot → β)} {x : α}
    (hx : take? x = none) (before after : List (Item α)) (pending : List Tree.Annot) :
    Item.gather take? pending (before ++ .member x :: after)
      = Item.gather take? pending (before ++ after) := by
  induction before generalizing pending with
  | nil => simp [Item.gather, hx]
  | cons item before ih =>
    cases item with
    | semicolon => exact ih pending
    | annot a => exact ih (pending ++ [a.tree])
    | member y =>
      simp only [List.cons_append, Item.gather, ih]

theorem Item.filterMap_skip {α β : Type} {pick : α → Option β} {x : α} (hx : pick x = none)
    (before after : List (Item α)) :
    (Item.members (before ++ .member x :: after)).filterMap pick
      = (Item.members (before ++ after)).filterMap pick := by
  simp [Item.members, hx]

namespace File

/-- Files with the same packages, the same options and alike declarations are alike. -/
theorem alike_of {f g : File} (hpackages : f.packages.map Path.tree = g.packages.map Path.tree)
    (hoptions : f.tree.options.map optionAnnot = g.tree.options.map optionAnnot)
    (hdecls : List.Forall₂ (Tree.Decl.Alike f.tree.resolve?) f.tree.decls g.tree.decls) :
    f.tree.Alike g.tree := by
  refine ⟨?_, hoptions, hdecls⟩
  have hname (f : File) : f.tree.packageName
      = ((f.packages.map Path.tree).head?.map Tree.Path.dotted).getD [] := by
    simp [Tree.File.packageName, tree, package?, List.head?_map, Function.comp_def]
  rw [hname, hname, hpackages]

theorem resolves (f : File) : Resolves f.package? f.tree.resolve? := by
  intro p q hpq
  apply hpq.resolve?
  simp [tree, Function.comp_def]

/-- In another spelling, alike things are meant, as long as there is no second package
statement. -/
theorem Respelled.alike {f g : File} (h : f.Respelled g) (hf : f.packages.length ≤ 1)
    (hg : g.packages.length ≤ 1) : f.tree.Alike g.tree := by
  have hsame {resolve : Tree.TypeRef → Option Ty} {l m : List (Item Statement)}
      (h : Item.gather Statement.decl? [] l = Item.gather Statement.decl? [] m) :
      List.Forall₂ (Tree.Decl.Alike resolve) (tree ⟨l⟩).decls (tree ⟨m⟩).decls := by
    change List.Forall₂ _ (Item.gather Statement.decl? [] l) (Item.gather Statement.decl? [] m)
    rw [← h]
    exact Item.gather_same Statement.related l (.refl [])
  cases h with
  | @items l m h =>
    apply alike_of
    · rw [packages, packages, List.map_filterMap, List.map_filterMap]
      exact h.filterMap_members fun x y hxy => hxy.others.1
    · change ((Item.members l).filterMap Statement.setting?).map optionAnnot
        = ((Item.members m).filterMap Statement.setting?).map optionAnnot
      rw [List.map_filterMap, List.map_filterMap]
      exact h.filterMap_members fun x y hxy => hxy.others.2
    · exact h.gather Statement.related fun x y hxy => hxy.related (resolves ⟨l⟩)
  | version before after h =>
    apply alike_of
    · rw [packages, packages, Item.filterMap_skip rfl]
    · exact congrArg (List.map optionAnnot) (Item.filterMap_skip rfl before after).symm
    · exact hsame (Item.gather_skip rfl before after []).symm
  | package before after before' after' p h =>
    -- the only package statement names the same package before and after
    have hsingle {before after : List (Item Statement)}
        (hone : (packages ⟨before ++ .member (.package p) :: after⟩).length ≤ 1) :
        packages ⟨before ++ .member (.package p) :: after⟩ = [p] := by
      have hmem : p ∈ packages ⟨before ++ .member (.package p) :: after⟩ := by
        simp [packages, Item.members, Statement.package?]
      obtain ⟨q, hq⟩ := List.length_eq_one_iff.mp
        (Nat.le_antisymm hone (List.length_pos_of_mem hmem))
      rw [hq] at hmem ⊢
      rw [List.mem_singleton.mp hmem]
    apply alike_of
    · rw [hsingle hf, hsingle hg]
    · change ((Item.members _).filterMap Statement.setting?).map optionAnnot
        = ((Item.members _).filterMap Statement.setting?).map optionAnnot
      rw [Item.filterMap_skip rfl, Item.filterMap_skip rfl, h]
    · apply hsame
      rw [Item.gather_skip rfl, Item.gather_skip rfl, h]

end File

end Spelling

end Idl
