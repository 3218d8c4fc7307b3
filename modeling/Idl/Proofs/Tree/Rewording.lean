import Idl.Tree.Literal
import Mathlib.Data.List.Forall2
import Mathlib.Data.Option.Basic

/-!
# Trees that differ in documentation

Two trees are akin if they are the same in all that has a meaning, except that in some annotations
for documentation one given text stands in place of another. How many there are is counted. What is
known of the names, literals and places of the tree on the left is kept along with it, so that a tree
that is akin to itself is one of which these things are known.

* §1 rewordings, §2 lists that are akin,
* §3 names and constants, §4 annotations, §5 declarations and files.
-/

namespace Idl

/-! ## §1 Rewordings -/

/-- A text literal in place of another one, and a condition on the places of the first tree. -/
structure Rewording where
  place : Pos → Prop
  oldText : Bytes
  old : Bytes
  newText : Bytes
  new : Bytes
  old_value : textLitValue oldText = .ok old
  new_value : textLitValue newText = .ok new

/-- The same text, or the new one in place of the old one. -/
inductive DocAkin (K : Rewording) : Nat → Bytes → Bytes → Prop where
  | same (t : Bytes) : DocAkin K 0 t t
  | swap : DocAkin K 1 K.old K.new

/-! ## §2 Lists -/

/-- Lists whose elements are akin one by one, with the sum of their counts. -/
inductive Summed {α β : Type} (R : Nat → α → β → Prop) : Nat → List α → List β → Prop where
  | nil : Summed R 0 [] []
  | cons {i j : Nat} {a : α} {b : β} {l : List α} {m : List β} (head : R i a b)
      (tail : Summed R j l m) : Summed R (i + j) (a :: l) (b :: m)

namespace Summed

variable {α β : Type} {R : Nat → α → β → Prop} {i j : Nat} {l l' : List α} {m m' : List β}

theorem append (h : Summed R i l m) (h' : Summed R j l' m') :
    Summed R (i + j) (l ++ l') (m ++ m') := by
  induction h with
  | nil =>
    rw [Nat.zero_add]
    exact h'
  | cons head tail ih =>
    rw [Nat.add_assoc]
    exact .cons head ih

theorem singleton {a : α} {b : β} (h : R i a b) : Summed R i [a] [b] := .cons h .nil

theorem reverse (h : Summed R i l m) : Summed R i l.reverse m.reverse := by
  induction h with
  | nil => exact .nil
  | cons head tail ih =>
    rw [List.reverse_cons, List.reverse_cons, Nat.add_comm]
    exact ih.append (singleton head)

theorem map {α' β' : Type} {S : Nat → α' → β' → Prop} {f : α → α'} {g : β → β'}
    (h : Summed R i l m) (hR : ∀ k, ∀ a ∈ l, ∀ b, R k a b → S k (f a) (g b)) :
    Summed S i (l.map f) (m.map g) := by
  induction h with
  | nil => exact .nil
  | cons head tail ih =>
    exact .cons (hR _ _ List.mem_cons_self _ head)
      (ih fun k a ha b => hR k a (List.mem_cons_of_mem _ ha) b)

theorem zipIdx (h : Summed R i l m) (n : Nat) :
    Summed (fun k x y => R k x.1 y.1 ∧ y.2 = x.2) i (l.zipIdx n) (m.zipIdx n) := by
  induction h generalizing n with
  | nil => exact .nil
  | cons head tail ih => exact .cons ⟨head, rfl⟩ (ih (n + 1))

/-- Only the empty list is akin to the empty one, and nothing is counted there. -/
theorem eq_zero_of_nil (h : Summed R i [] m) : i = 0 ∧ m = [] := by
  cases h with
  | nil => exact ⟨rfl, rfl⟩

theorem forall₂ {S : α → β → Prop} (h : Summed R i l m) (hR : ∀ k a b, R k a b → S a b) :
    List.Forall₂ S l m := by
  induction h with
  | nil => exact .nil
  | cons head tail ih => exact .cons (hR _ _ _ head) ih

/-- Every element on the left has one on the right. -/
theorem exists_of_mem (h : Summed R i l m) {a : α} (ha : a ∈ l) : ∃ k, ∃ b ∈ m, R k a b := by
  induction h with
  | nil => cases ha
  | @cons k _ _ b _ _ head tail ih =>
    rcases List.mem_cons.mp ha with rfl | ha
    · exact ⟨k, b, List.mem_cons_self, head⟩
    · obtain ⟨k, b, hb, hab⟩ := ih ha
      exact ⟨k, b, List.mem_cons_of_mem _ hb, hab⟩

/-- Every element on the right has one on the left. -/
theorem exists_of_mem_right (h : Summed R i l m) {b : β} (hb : b ∈ m) : ∃ k, ∃ a ∈ l, R k a b := by
  induction h with
  | nil => cases hb
  | @cons k _ a _ _ _ head tail ih =>
    rcases List.mem_cons.mp hb with rfl | hb
    · exact ⟨k, a, List.mem_cons_self, head⟩
    · obtain ⟨k, a, ha, hab⟩ := ih hb
      exact ⟨k, a, List.mem_cons_of_mem _ ha, hab⟩

end Summed

/-- Of lists that are akin, what does not tell their elements apart has the same values. -/
theorem map_eq_of_forall₂ {α β γ : Type} {R : α → β → Prop} {l : List α} {m : List β}
    {g : α → γ} {g' : β → γ} (h : List.Forall₂ R l m) (hR : ∀ a b, R a b → g' b = g a) :
    m.map g' = l.map g := by
  induction h with
  | nil => rfl
  | cons head tail ih => rw [List.map_cons, List.map_cons, hR _ _ head, ih]

/-- The text is that of a name: not empty, and of the octets that may continue one. -/
structure Bytes.IsName (t : Bytes) : Prop where
  nonempty : t ≠ []
  octets : ∀ c ∈ t, isWord c = true

namespace Tree

/-! ## §3 Names and constants -/

/-- The same name, which is a word. -/
structure Ident.Akin (a b : Ident) : Prop where
  name : b.name = a.name
  word : Bytes.IsName a.name

/-- The same components. -/
structure Path.Akin (a b : Path) : Prop where
  first : a.first.Akin b.first
  more : List.Forall₂ Ident.Akin a.more b.more

theorem Path.Akin.dotted {a b : Path} (h : a.Akin b) : b.dotted = a.dotted := by
  have hmore : b.more.map (·.name) = a.more.map (·.name) :=
    map_eq_of_forall₂ h.more fun i j hij => hij.name
  rw [Path.dotted, Path.dotted, Path.parts, Path.parts, List.map_cons, List.map_cons, h.first.name,
    hmore]

/-- The same number, of those that a literal can denote. -/
structure IntLit.Akin (a b : IntLit) : Prop where
  value : b.value = a.value
  fits : fitsLiteral a.value = true

/-- The same constant. -/
inductive Constant.Akin : Constant → Constant → Prop where
  | int {a b : IntLit} (h : a.Akin b) : Akin (.int a) (.int b)
  | float {x : Binary64} (h : x.isNaN = true → x = .nan) : Akin (.float x) (.float x)
  | bool (b : Bool) : Akin (.bool b) (.bool b)
  | text {a b : TextLit} (h : b.value = a.value) : Akin (.text a) (.text b)
  | path {a b : Path} (h : a.Akin b) : Akin (.path a) (.path b)

/-- The same constant at another place. -/
def Value.Akin (a b : Value) : Prop := a.constant.Akin b.constant

/-! ## §4 Annotations -/

/-- The same form with the same name and constant. -/
inductive ArgForm.Akin : ArgForm → ArgForm → Prop where
  | positional {a b : Value} (h : a.Akin b) : Akin (.positional a) (.positional b)
  | flag {a b : Ident} (h : a.Akin b) : Akin (.flag a) (.flag b)
  | pair {k k' : Ident} {a b : Value} (key : k.Akin k') (value : a.Akin b) :
      Akin (.pair k a) (.pair k' b)

/-- The same argument at another place. -/
def Arg.Akin (a b : Arg) : Prop := a.form.Akin b.form

/-- The argument is a text. -/
def Arg.Says (a : Arg) (text : Bytes) : Prop :=
  ∃ v lit, a.form = .positional v ∧ v.constant = .text lit ∧ lit.value = text

/-- The same arguments, or the new text in place of the old one in front of the same arguments. -/
inductive ArgsAkin (K : Rewording) : Nat → List Arg → List Arg → Prop where
  | same {l m : List Arg} (h : List.Forall₂ Arg.Akin l m) : ArgsAkin K 0 l m
  | swap {x y : Arg} {l m : List Arg} (old : x.Says K.old) (new : y.Says K.new)
      (h : List.Forall₂ Arg.Akin l m) : ArgsAkin K 1 (x :: l) (y :: m)

theorem ArgsAkin.concat {K : Rewording} {i : Nat} {l m : List Arg} {a b : Arg}
    (h : ArgsAkin K i l m) (hab : a.Akin b) : ArgsAkin K i (l ++ [a]) (m ++ [b]) := by
  cases h with
  | same h => exact .same (List.rel_append h (.cons hab .nil))
  | swap old new h => exact .swap old new (List.rel_append h (.cons hab .nil))

/-- The same annotation; only documentation is reworded. -/
structure Annot.Akin (K : Rewording) (i : Nat) (a b : Annot) : Prop where
  name : a.name.Akin b.name
  args : ArgsAkin K i a.args b.args
  doc : i ≠ 0 → a.name.dotted = "doc"

/-! ## §5 Declarations and files -/

/-- The same field at another place. -/
structure Field.Akin (K : Rewording) (i : Nat) (a b : Field) : Prop where
  place : K.place a.loc.pos
  annots : Summed (Annot.Akin K) i a.annots b.annots
  type : a.type.name.Akin b.type.name
  name : a.name.Akin b.name
  optional : b.isOptional = a.isOptional
  number : Option.Rel IntLit.Akin a.number b.number

/-- The same message at another place. -/
inductive Message.Akin (K : Rewording) : Nat → Message → Message → Prop where
  | mk {i j : Nat} {a b : Message} (place : K.place a.loc.pos)
      (annots : Summed (Annot.Akin K) i a.annots b.annots) (name : a.name.Akin b.name)
      (fields : Summed (Field.Akin K) j a.fields b.fields) : Akin K (i + j) a b

/-- The same method at another place. -/
structure Method.Akin (K : Rewording) (i : Nat) (a b : Method) : Prop where
  place : K.place a.loc.pos
  annots : Summed (Annot.Akin K) i a.annots b.annots
  name : a.name.Akin b.name
  input : Option.Rel (fun s t : TypeRef => s.name.Akin t.name) a.input b.input
  output : Option.Rel (fun s t : TypeRef => s.name.Akin t.name) a.output b.output

/-- The same service at another place. -/
inductive Service.Akin (K : Rewording) : Nat → Service → Service → Prop where
  | mk {i j : Nat} {a b : Service} (place : K.place a.loc.pos)
      (annots : Summed (Annot.Akin K) i a.annots b.annots) (name : a.name.Akin b.name)
      (methods : Summed (Method.Akin K) j a.methods b.methods) : Akin K (i + j) a b

/-- The same declaration. -/
inductive Decl.Akin (K : Rewording) : Nat → Decl → Decl → Prop where
  | message {i : Nat} {a b : Message} (h : a.Akin K i b) : Akin K i (.message a) (.message b)
  | service {i : Nat} {a b : Service} (h : a.Akin K i b) : Akin K i (.service a) (.service b)

/-- The same option at another place. -/
structure Setting.Akin (a b : Setting) : Prop where
  name : a.name.Akin b.name
  value : a.value.Akin b.value

/-- The same file, except for its documentation. -/
structure File.Akin (K : Rewording) (i : Nat) (a b : File) : Prop where
  package : Option.Rel (fun p q : Package => p.name.Akin q.name) a.package b.package
  options : List.Forall₂ Setting.Akin a.options b.options
  decls : Summed (Decl.Akin K) i a.decls b.decls

end Tree

end Idl
