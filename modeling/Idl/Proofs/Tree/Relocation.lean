import Idl.Compile

/-!
# Syntax trees in other places

`mapLoc f` moves every node of a tree to another place and changes nothing else. A tree without its
places is the tree with all nodes in one place, `erase`. The meaning of a file does not depend on
places, save for the positions that a schema records, and neither does the list of violations, save
for the order in which they are reported.

* §1 repeated names,
* §2 moving trees, §3 erasing places,
* §4 names, references and annotations,
* §5 violations and warnings, §6 their order,
* §7 the schema.
-/

/-! ## §1 Repeated names

`withEarlier` walks a list with an accumulator. Here it is given a form that follows the list, from
which two facts are read off: moving the elements moves the repeated ones, and nothing is repeated
exactly if the names are all different. -/

namespace Idl.Tree

variable {α β : Type}

/-- Each element with those in front of it, nearest first, after the elements `before`. -/
def earlierFrom (before : List α) : List α → List (List α × α)
  | [] => []
  | a :: r => (before, a) :: earlierFrom (a :: before) r

/-- The accumulator of the walk holds what has been passed, last first. -/
theorem foldl_eq_earlierFrom (l before : List α) (done : List (List α × α)) :
    (l.foldl (fun (before, done) a => (a :: before, (before, a) :: done)) (before, done)).2
      = (earlierFrom before l).reverse ++ done := by
  induction l generalizing before done with
  | nil => rfl
  | cons a r ih => simp [earlierFrom, ih]

/-- The walk with an accumulator is the one that follows the list. -/
theorem withEarlier_eq (l : List α) : withEarlier l = earlierFrom [] l := by
  simp [withEarlier, foldl_eq_earlierFrom]

/-- Changed elements have the changed ones in front of them. -/
theorem earlierFrom_map (g : α → β) (before l : List α) :
    earlierFrom (before.map g) (l.map g)
      = (earlierFrom before l).map fun (b, a) => (b.map g, g a) := by
  induction l generalizing before with
  | nil => rfl
  | cons a r ih => simpa [earlierFrom] using ih (a :: before)

/-- Walking through images. -/
theorem withEarlier_map (g : α → β) (l : List α) :
    withEarlier (l.map g) = (withEarlier l).map fun (b, a) => (b.map g, g a) := by
  simpa [withEarlier_eq] using earlierFrom_map g [] l

/-- The repeated elements among images are the images of the repeated elements. -/
theorem repeats_map (name : β → Bytes) (g : α → β) (l : List α) :
    repeats name (l.map g) = (repeats (name ∘ g) l).map g := by
  simp only [repeats, withEarlier_map, List.filterMap_map, List.map_filterMap]
  congr 1
  funext ⟨before, a⟩
  simp only [Function.comp_apply, List.any_map, Function.comp_def]
  split <;> rfl

/-- What is walked over are the elements of the list. -/
theorem mem_of_mem_earlierFrom {before l : List α} {x : List α × α}
    (h : x ∈ earlierFrom before l) : x.2 ∈ l := by
  induction l generalizing before with
  | nil => cases h
  | cons a r ih =>
    rcases List.mem_cons.mp h with rfl | h
    · exact List.mem_cons_self ..
    · exact List.mem_cons_of_mem _ (ih h)

/-- The repeated elements are elements. -/
theorem mem_of_mem_repeats {name : α → Bytes} {l : List α} {a : α} (h : a ∈ repeats name l) :
    a ∈ l := by
  obtain ⟨⟨before, b⟩, hx, ha⟩ := List.mem_filterMap.mp h
  rw [withEarlier_eq] at hx
  dsimp only at ha
  split at ha
  · cases ha
    exact mem_of_mem_earlierFrom hx
  · cases ha

/-- Each element comes with those in front of it. -/
theorem mem_earlierFrom (l before : List α) (i : Nat) (hi : i < l.length) :
    ((l.take i).reverse ++ before, l[i]) ∈ earlierFrom before l := by
  induction l generalizing before i with
  | nil => simp at hi
  | cons a r ih =>
    cases i with
    | zero => simp [earlierFrom]
    | succ i =>
      have := ih (a :: before) i (by simpa using hi)
      simpa [earlierFrom] using .inr this

/-- An element is repeated if its name occurs in front of it, be it in the list or before it. -/
theorem filterMap_earlierFrom_eq_nil (name : α → Bytes) (before l : List α) :
    ((earlierFrom before l).filterMap fun (b, a) =>
        if b.any fun x => name x == name a then some a else none) = []
      ↔ (l.map name).Nodup ∧ ∀ a ∈ l, ∀ b ∈ before, name b ≠ name a := by
  induction l generalizing before with
  | nil => simp [earlierFrom]
  | cons a r ih =>
    simp only [earlierFrom, List.filterMap_cons, List.map_cons, List.nodup_cons]
    by_cases h : before.any fun x => name x == name a
    · simp only [h, if_true]
      obtain ⟨b, hb, hname⟩ := List.any_eq_true.mp h
      -- an element with the name of one in front of it is found, and is no new name
      refine iff_of_false (by simp) fun ⟨_, hall⟩ => ?_
      exact hall a (List.mem_cons_self ..) b hb (by simpa using hname)
    · have hfresh : ∀ b ∈ before, name b ≠ name a := by simpa using h
      simp only [h, Bool.false_eq_true, if_false, ih, List.mem_cons, forall_eq_or_imp, List.mem_map]
      constructor
      · rintro ⟨hnodup, hrest⟩
        refine ⟨⟨?_, hnodup⟩, hfresh, fun x hx b hb => (hrest x hx).2 b hb⟩
        rintro ⟨x, hx, hname⟩
        exact (hrest x hx).1 hname.symm
      · rintro ⟨⟨hnot, hnodup⟩, -, hrest⟩
        refine ⟨hnodup, fun x hx => ⟨fun hname => hnot ⟨x, hx, hname.symm⟩, hrest x hx⟩⟩

/-- Nothing is repeated exactly if all names are different. -/
theorem repeats_eq_nil_iff (name : α → Bytes) (l : List α) :
    repeats name l = [] ↔ (l.map name).Nodup := by
  rw [repeats, withEarlier_eq, filterMap_earlierFrom_eq_nil]
  simp

end Idl.Tree

namespace Idl

namespace Tree

/-! ## §2 Moving trees -/

variable (f : Loc → Loc)

/-- A name in another place. -/
def Ident.mapLoc (i : Ident) : Ident := { i with loc := f i.loc }

/-- A dotted name in another place. -/
def Path.mapLoc (p : Path) : Path := ⟨f p.loc, p.first.mapLoc f, p.more.map (Ident.mapLoc f)⟩

/-- A number in another place. -/
def IntLit.mapLoc (l : IntLit) : IntLit := { l with loc := f l.loc }

/-- A text literal in another place. -/
def TextLit.mapLoc (l : TextLit) : TextLit := { l with loc := f l.loc }

/-- A constant in another place. -/
def Constant.mapLoc : Constant → Constant
  | .int lit => .int (lit.mapLoc f)
  | .float x => .float x
  | .bool b => .bool b
  | .text lit => .text (lit.mapLoc f)
  | .path name => .path (name.mapLoc f)

/-- A constant with its place, moved. -/
def Value.mapLoc (v : Value) : Value := ⟨f v.loc, v.constant.mapLoc f⟩

/-- An argument in another place. -/
def ArgForm.mapLoc : ArgForm → ArgForm
  | .positional v => .positional (v.mapLoc f)
  | .flag key => .flag (key.mapLoc f)
  | .pair key v => .pair (key.mapLoc f) (v.mapLoc f)

/-- An argument with its place, moved. -/
def Arg.mapLoc (a : Arg) : Arg := ⟨f a.loc, a.form.mapLoc f⟩

/-- An annotation in another place. -/
def Annot.mapLoc (a : Annot) : Annot :=
  ⟨f a.loc, a.name.mapLoc f, a.args?.map (·.map (Arg.mapLoc f))⟩

/-- A reference in another place. -/
def TypeRef.mapLoc (r : TypeRef) : TypeRef := ⟨f r.loc, r.name.mapLoc f⟩

/-- The word in front of a field, in another place. -/
def Label.mapLoc (l : Label) : Label := { l with loc := f l.loc }

/-- A field in another place. -/
def Field.mapLoc (d : Field) : Field where
  loc := f d.loc
  annots := d.annots.map (Annot.mapLoc f)
  label := d.label.map (Label.mapLoc f)
  type := d.type.mapLoc f
  name := d.name.mapLoc f
  question := d.question
  number := d.number.map (IntLit.mapLoc f)

/-- A message in another place. -/
def Message.mapLoc (m : Message) : Message where
  loc := f m.loc
  annots := m.annots.map (Annot.mapLoc f)
  name := m.name.mapLoc f
  fields := m.fields.map (Field.mapLoc f)

/-- A method in another place. -/
def Method.mapLoc (m : Method) : Method where
  loc := f m.loc
  annots := m.annots.map (Annot.mapLoc f)
  name := m.name.mapLoc f
  input := m.input.map (TypeRef.mapLoc f)
  output := m.output.map (TypeRef.mapLoc f)

/-- A service in another place. -/
def Service.mapLoc (s : Service) : Service where
  loc := f s.loc
  annots := s.annots.map (Annot.mapLoc f)
  name := s.name.mapLoc f
  methods := s.methods.map (Method.mapLoc f)

/-- A declaration in another place. -/
def Decl.mapLoc : Decl → Decl
  | .message m => .message (m.mapLoc f)
  | .service s => .service (s.mapLoc f)

/-- The package statement in another place. -/
def Package.mapLoc (p : Package) : Package := ⟨f p.loc, p.name.mapLoc f⟩

/-- An option in another place. -/
def Setting.mapLoc (s : Setting) : Setting := ⟨f s.loc, s.name.mapLoc f, s.value.mapLoc f⟩

/-- A file in another place. -/
def File.mapLoc (d : File) : File where
  loc := f d.loc
  version := d.version.map (TextLit.mapLoc f)
  package := d.package.map (Package.mapLoc f)
  options := d.options.map (Setting.mapLoc f)
  decls := d.decls.map (Decl.mapLoc f)

/-! ## §3 Erasing places -/

/-- The place of a node whose place does not matter. -/
def nowhere : Loc := ⟨⟨0, 0⟩, .unknown⟩

/-- A file without its places. -/
def File.erase (d : File) : File := d.mapLoc fun _ => nowhere

section Composition

variable (g : Loc → Loc)

/-- Two moves are one. -/
theorem Ident.mapLoc_mapLoc (i : Ident) : (i.mapLoc f).mapLoc g = i.mapLoc (g ∘ f) := rfl

theorem IntLit.mapLoc_mapLoc (l : IntLit) : (l.mapLoc f).mapLoc g = l.mapLoc (g ∘ f) := rfl

theorem TextLit.mapLoc_mapLoc (l : TextLit) : (l.mapLoc f).mapLoc g = l.mapLoc (g ∘ f) := rfl

theorem Label.mapLoc_mapLoc (l : Label) : (l.mapLoc f).mapLoc g = l.mapLoc (g ∘ f) := rfl

/-- Two moves of a dotted name are one. -/
theorem Path.mapLoc_mapLoc (p : Path) : (p.mapLoc f).mapLoc g = p.mapLoc (g ∘ f) := by
  simp [Path.mapLoc, Ident.mapLoc]

theorem Constant.mapLoc_mapLoc (c : Constant) : (c.mapLoc f).mapLoc g = c.mapLoc (g ∘ f) := by
  cases c <;> simp [Constant.mapLoc, IntLit.mapLoc_mapLoc, TextLit.mapLoc_mapLoc,
    Path.mapLoc_mapLoc]

theorem Value.mapLoc_mapLoc (v : Value) : (v.mapLoc f).mapLoc g = v.mapLoc (g ∘ f) := by
  simp [Value.mapLoc, Constant.mapLoc_mapLoc]

theorem Arg.mapLoc_mapLoc (a : Arg) : (a.mapLoc f).mapLoc g = a.mapLoc (g ∘ f) := by
  obtain ⟨loc, form⟩ := a
  cases form <;> simp [Arg.mapLoc, ArgForm.mapLoc, Ident.mapLoc_mapLoc, Value.mapLoc_mapLoc]

theorem Annot.mapLoc_mapLoc (a : Annot) : (a.mapLoc f).mapLoc g = a.mapLoc (g ∘ f) := by
  simp [Annot.mapLoc, Path.mapLoc_mapLoc, Function.comp_def, Arg.mapLoc_mapLoc]

theorem TypeRef.mapLoc_mapLoc (r : TypeRef) : (r.mapLoc f).mapLoc g = r.mapLoc (g ∘ f) := by
  simp [TypeRef.mapLoc, Path.mapLoc_mapLoc]

theorem Field.mapLoc_mapLoc (d : Field) : (d.mapLoc f).mapLoc g = d.mapLoc (g ∘ f) := by
  simp [Field.mapLoc, Function.comp_def, Annot.mapLoc_mapLoc, TypeRef.mapLoc_mapLoc,
    Label.mapLoc_mapLoc, Ident.mapLoc_mapLoc, IntLit.mapLoc_mapLoc]

theorem Message.mapLoc_mapLoc (m : Message) : (m.mapLoc f).mapLoc g = m.mapLoc (g ∘ f) := by
  simp [Message.mapLoc, Function.comp_def, Annot.mapLoc_mapLoc, Field.mapLoc_mapLoc,
    Ident.mapLoc_mapLoc]

theorem Method.mapLoc_mapLoc (m : Method) : (m.mapLoc f).mapLoc g = m.mapLoc (g ∘ f) := by
  simp [Method.mapLoc, Function.comp_def, Annot.mapLoc_mapLoc, TypeRef.mapLoc_mapLoc,
    Ident.mapLoc_mapLoc]

theorem Service.mapLoc_mapLoc (s : Service) : (s.mapLoc f).mapLoc g = s.mapLoc (g ∘ f) := by
  simp [Service.mapLoc, Function.comp_def, Annot.mapLoc_mapLoc, Method.mapLoc_mapLoc,
    Ident.mapLoc_mapLoc]

theorem Decl.mapLoc_mapLoc (d : Decl) : (d.mapLoc f).mapLoc g = d.mapLoc (g ∘ f) := by
  cases d <;> simp [Decl.mapLoc, Message.mapLoc_mapLoc, Service.mapLoc_mapLoc]

theorem Package.mapLoc_mapLoc (p : Package) : (p.mapLoc f).mapLoc g = p.mapLoc (g ∘ f) := by
  simp [Package.mapLoc, Path.mapLoc_mapLoc]

theorem Setting.mapLoc_mapLoc (s : Setting) : (s.mapLoc f).mapLoc g = s.mapLoc (g ∘ f) := by
  simp [Setting.mapLoc, Path.mapLoc_mapLoc, Value.mapLoc_mapLoc]

/-- Two moves of a file are one. -/
theorem File.mapLoc_mapLoc (d : File) : (d.mapLoc f).mapLoc g = d.mapLoc (g ∘ f) := by
  simp [File.mapLoc, Function.comp_def, TextLit.mapLoc_mapLoc, Package.mapLoc_mapLoc,
    Setting.mapLoc_mapLoc, Decl.mapLoc_mapLoc]

end Composition

/-- A file that is moved and then loses its places is the file without its places. -/
theorem File.erase_mapLoc (d : File) : (d.mapLoc f).erase = d.erase := by
  simp only [File.erase, File.mapLoc_mapLoc, Function.comp_def]

/-! ## §4 Names, references and annotations -/

@[simp] theorem Ident.mapLoc_name (i : Ident) : (i.mapLoc f).name = i.name := rfl

/-- A dotted name reads the same in another place. -/
@[simp] theorem Path.mapLoc_dotted (p : Path) : (p.mapLoc f).dotted = p.dotted := by
  simp [Path.dotted, Path.parts, Path.mapLoc, Function.comp_def]

/-- A constant denotes the same in another place. -/
@[simp] theorem Constant.mapLoc_lower (c : Constant) : (c.mapLoc f).lower = c.lower := by
  cases c <;> simp [Constant.mapLoc, Constant.lower, IntLit.mapLoc, TextLit.mapLoc]

@[simp] theorem Value.mapLoc_lower (v : Value) : (v.mapLoc f).lower = v.lower := by
  simp [Value.mapLoc, Value.lower]

/-- An argument names the same value in another place. -/
@[simp] theorem ArgForm.mapLoc_pair? (a : ArgForm) : (a.mapLoc f).pair? = a.pair? := by
  cases a <;> simp [ArgForm.mapLoc, ArgForm.pair?]

@[simp] theorem ArgForm.mapLoc_positional? (a : ArgForm) :
    (a.mapLoc f).positional? = a.positional? := by
  cases a <;> simp [ArgForm.mapLoc, ArgForm.positional?]

/-- The forms of the arguments of a moved annotation. -/
theorem Annot.mapLoc_forms (a : Annot) :
    (a.mapLoc f).args.map (·.form) = (a.args.map (·.form)).map (ArgForm.mapLoc f) := by
  obtain ⟨loc, name, args⟩ := a
  cases args <;> simp [Annot.mapLoc, Annot.args, Arg.mapLoc]

/-- An annotation is kept as the same in another place. -/
@[simp] theorem Annot.mapLoc_lower (a : Annot) : (a.mapLoc f).lower = a.lower := by
  simp only [Annot.lower, Annot.mapLoc_forms, List.filterMap_map, Function.comp_def,
    ArgForm.mapLoc_pair?, ArgForm.mapLoc_positional?]
  simp [Annot.mapLoc]

/-- An annotation means the same in another place. -/
@[simp] theorem Annot.mapLoc_interpret (target : Target) (a : Annot) :
    (a.mapLoc f).interpret target = a.interpret target := by
  unfold Annot.interpret
  simp only [Annot.mapLoc_lower]
  simp [Annot.mapLoc]

/-- What annotations say does not depend on where they stand. -/
@[simp] theorem meanings_mapLoc (target : Target) (l : List Annot) :
    meanings target (l.map (Annot.mapLoc f)) = meanings target l := by
  have hsame : (fun a : Annot => (a.interpret target).toOption) ∘ Annot.mapLoc f
      = fun a => (a.interpret target).toOption :=
    funext fun a => congrArg Except.toOption (Annot.mapLoc_interpret f target a)
  simp only [meanings, List.filterMap_map, hsame]

@[simp] theorem Decl.mapLoc_kind (d : Decl) : (d.mapLoc f).kind = d.kind := by
  cases d <;> rfl

@[simp] theorem Decl.mapLoc_name (d : Decl) : (d.mapLoc f).name = d.name.mapLoc f := by
  cases d <;> rfl

/-- The messages of a moved file are the moved messages. -/
@[simp] theorem File.mapLoc_messages (d : File) :
    (d.mapLoc f).messages = d.messages.map (Message.mapLoc f) := by
  simp only [File.messages, File.mapLoc, List.filterMap_map, List.map_filterMap]
  congr 1
  funext x
  cases x <;> rfl

/-- The services of a moved file are the moved services. -/
@[simp] theorem File.mapLoc_services (d : File) :
    (d.mapLoc f).services = d.services.map (Service.mapLoc f) := by
  simp only [File.services, File.mapLoc, List.filterMap_map, List.map_filterMap]
  congr 1
  funext x
  cases x <;> rfl

@[simp] theorem File.mapLoc_packageName (d : File) : (d.mapLoc f).packageName = d.packageName := by
  obtain ⟨loc, version, package, options, decls⟩ := d
  cases package <;> simp [File.packageName, File.mapLoc, Package.mapLoc]

/-- A name is declared or not wherever the declarations are. -/
@[simp] theorem File.mapLoc_declared? (d : File) (name : Bytes) :
    (d.mapLoc f).declared? name = d.declared? name := by
  simp [File.declared?, File.mapLoc, List.find?_map, Function.comp_def]

/-- A reference refers to the same declaration wherever both are. -/
@[simp] theorem File.mapLoc_resolve? (d : File) (r : TypeRef) :
    (d.mapLoc f).resolve? (r.mapLoc f) = d.resolve? r := by
  simp [File.resolve?, TypeRef.mapLoc, Path.mapLoc_dotted]
  simp [Path.mapLoc]

end Tree

/-! ## §5 Violations and warnings -/

/-- A violation in another place. -/
def SchemaError.mapLoc (f : Loc → Loc) (e : SchemaError) : SchemaError := { e with loc := f e.loc }

/-- A warning in another place. -/
def Warning.mapLoc (f : Loc → Loc) (w : Warning) : Warning := { w with loc := f w.loc }

namespace Tree

variable (f : Loc → Loc)

/-- The errors of moved annotations are the moved errors. -/
@[simp] theorem annotErrors_mapLoc (target : Target) (scope entity : Bytes) (l : List Annot) :
    annotErrors target scope entity (l.map (Annot.mapLoc f))
      = (annotErrors target scope entity l).map (SchemaError.mapLoc f) := by
  simp only [annotErrors, List.filterMap_map, List.map_filterMap]
  congr 1
  funext n
  simp only [Function.comp_apply, Annot.mapLoc_interpret]
  cases n.interpret target <;> rfl

@[simp] theorem Field.mapLoc_explicit? (d : Field) : (d.mapLoc f).explicit? = d.explicit? := by
  obtain ⟨loc, annots, label, type, name, question, number⟩ := d
  cases number <;> rfl

@[simp] theorem Field.mapLoc_isOptional (d : Field) : (d.mapLoc f).isOptional = d.isOptional := by
  obtain ⟨loc, annots, label, type, name, question, number⟩ := d
  cases label <;> rfl

/-- The first field with a number is the same one, moved. -/
@[simp] theorem numberOwner?_map (l : List Field) (n : Nat) :
    numberOwner? (l.map (Field.mapLoc f)) n = (numberOwner? l n).map (Field.mapLoc f) := by
  have hsame : (fun d => d.explicit? == some n) ∘ Field.mapLoc f = fun d => d.explicit? == some n :=
    funext fun d => congrArg (· == some n) (Field.mapLoc_explicit? f d)
  rw [numberOwner?, List.find?_map, hsame, numberOwner?]

/-- What is wrong with a written number does not depend on places. -/
theorem Message.mapLoc_explicitError? (m : Message) (before : List Field) (d : Field) :
    (m.mapLoc f).explicitError? (before.map (Field.mapLoc f)) (d.mapLoc f)
      = (m.explicitError? before d).map (SchemaError.mapLoc f) := by
  unfold Message.explicitError?
  simp only [Field.mapLoc_explicit?, ← List.map_reverse, numberOwner?_map]
  simp only [Field.mapLoc, Message.mapLoc, Ident.mapLoc_name]
  cases d.number with
  | none => rfl
  | some lit =>
    simp only [Option.map_some, Option.bind_some]
    cases d.explicit? with
    | none => rfl
    | some n =>
      simp only
      cases numberOwner? before.reverse n <;> rfl

/-- What is wrong with an automatic number does not either. -/
theorem Message.mapLoc_automaticError? (m : Message) (position : Nat) (d : Field) :
    (m.mapLoc f).automaticError? position (d.mapLoc f)
      = (m.automaticError? position d).map (SchemaError.mapLoc f) := by
  unfold Message.automaticError?
  simp only [Message.mapLoc, numberOwner?_map]
  cases hnumber : d.number with
  | none =>
    simp only [Field.mapLoc, hnumber, Option.map_none, Option.isSome_none, Bool.false_eq_true,
      if_false]
    cases numberOwner? m.fields position <;> rfl
  | some lit => simp [Field.mapLoc, hnumber]

/-- Fields are numbered alike wherever they are. -/
@[simp] theorem Message.mapLoc_numbered (m : Message) :
    (m.mapLoc f).numbered = m.numbered.map fun (i, d) => (i, d.mapLoc f) := by
  simp [Message.numbered, Message.mapLoc, List.zipIdx_map, Function.comp_def]

@[simp] theorem Message.mapLoc_numberErrors (m : Message) :
    (m.mapLoc f).numberErrors = m.numberErrors.map (SchemaError.mapLoc f) := by
  unfold Message.numberErrors
  simp only [Message.mapLoc_numbered, List.map_append, List.filterMap_map, List.map_filterMap]
  rw [show (m.mapLoc f).fields = m.fields.map (Field.mapLoc f) from rfl, withEarlier_map,
    List.filterMap_map]
  congr 2
  · funext ⟨before, d⟩
    exact Message.mapLoc_explicitError? f m before d
  · funext ⟨position, d⟩
    exact Message.mapLoc_automaticError? f m position d

namespace File

/-- An unknown type is unknown wherever it is named. -/
@[simp] theorem mapLoc_typeErrors (d : File) (scope entity : Bytes) (r : TypeRef) :
    (d.mapLoc f).typeErrors scope entity (r.mapLoc f)
      = (d.typeErrors scope entity r).map (SchemaError.mapLoc f) := by
  unfold File.typeErrors
  rw [mapLoc_resolve?]
  split
  · rfl
  · simp [TypeRef.mapLoc, SchemaError.mapLoc]

/-- The errors of a moved field are the moved errors. -/
theorem mapLoc_fieldErrors (d : File) (m : Message) (x : Field) :
    (d.mapLoc f).fieldErrors (m.mapLoc f) (x.mapLoc f)
      = (d.fieldErrors m x).map (SchemaError.mapLoc f) := by
  simp [File.fieldErrors, Field.mapLoc, Message.mapLoc]

/-- The errors of a moved message are the moved errors. -/
theorem mapLoc_messageErrors (d : File) (m : Message) :
    (d.mapLoc f).messageErrors (m.mapLoc f) = (d.messageErrors m).map (SchemaError.mapLoc f) := by
  unfold File.messageErrors
  simp only [mapLoc_packageName, Message.mapLoc_numberErrors, List.map_append]
  congr 1
  congr 1
  · congr 1
    · simp [Message.mapLoc]
    · simp only [Message.mapLoc, repeats_map, List.map_map]
      rfl
  · rw [show (m.mapLoc f).fields = m.fields.map (Field.mapLoc f) from rfl, List.flatMap_map,
      List.map_flatMap]
    congr 1
    funext x
    exact mapLoc_fieldErrors f d m x

/-- The errors of a moved method are the moved errors. -/
theorem mapLoc_methodErrors (d : File) (s : Service) (m : Method) :
    (d.mapLoc f).methodErrors (s.mapLoc f) (m.mapLoc f)
      = (d.methodErrors s m).map (SchemaError.mapLoc f) := by
  have toList_map (o : Option TypeRef) :
      (o.map (TypeRef.mapLoc f)).toList = o.toList.map (TypeRef.mapLoc f) := by cases o <;> rfl
  simp [File.methodErrors, Method.mapLoc, Service.mapLoc, toList_map, List.flatMap_map,
    List.map_flatMap]

/-- The errors of a moved service are the moved errors. -/
theorem mapLoc_serviceErrors (d : File) (s : Service) :
    (d.mapLoc f).serviceErrors (s.mapLoc f) = (d.serviceErrors s).map (SchemaError.mapLoc f) := by
  unfold File.serviceErrors
  simp only [mapLoc_packageName, List.map_append]
  congr 1
  · congr 1
    · simp [Service.mapLoc]
    · simp only [Service.mapLoc, repeats_map, List.map_map]
      rfl
  · rw [show (s.mapLoc f).methods = s.methods.map (Method.mapLoc f) from rfl, List.flatMap_map,
      List.map_flatMap]
    congr 1
    funext x
    exact mapLoc_methodErrors f d s x

theorem mapLoc_packageErrors (d : File) :
    (d.mapLoc f).packageErrors = d.packageErrors.map (SchemaError.mapLoc f) := by
  obtain ⟨loc, version, package, options, decls⟩ := d
  cases package with
  | none => rfl
  | some p =>
    have hparts : (p.name.mapLoc f).parts = p.name.parts.map (Ident.mapLoc f) := rfl
    simp only [File.packageErrors, File.mapLoc, Option.map_some, Package.mapLoc, hparts,
      List.all_map, Function.comp_def, Ident.mapLoc_name, Path.mapLoc_dotted]
    split <;> rfl

theorem mapLoc_optionErrors (d : File) :
    (d.mapLoc f).optionErrors = d.optionErrors.map (SchemaError.mapLoc f) := by
  unfold File.optionErrors
  rw [mapLoc_packageName, show (d.mapLoc f).options = d.options.map (Setting.mapLoc f) from rfl,
    repeats_map]
  simp [Function.comp_def, Setting.mapLoc, SchemaError.mapLoc]

theorem mapLoc_declErrors (d : File) :
    (d.mapLoc f).declErrors = d.declErrors.map (SchemaError.mapLoc f) := by
  unfold File.declErrors
  rw [mapLoc_packageName, show (d.mapLoc f).decls = d.decls.map (Decl.mapLoc f) from rfl,
    repeats_map, List.filterMap_map, List.map_filterMap]
  simp only [Function.comp_def, Decl.mapLoc_name, Ident.mapLoc_name]
  congr 1
  funext x
  simp only [mapLoc_declared?, Decl.mapLoc_kind]
  cases d.declared? x.name.name <;> rfl

/-- The violations in a moved file are those of the file, moved, as long as they are not sorted. -/
theorem mapLoc_violations (d : File) :
    (d.mapLoc f).packageErrors ++ (d.mapLoc f).optionErrors ++ (d.mapLoc f).declErrors
        ++ (d.mapLoc f).messages.flatMap (d.mapLoc f).messageErrors
        ++ (d.mapLoc f).services.flatMap (d.mapLoc f).serviceErrors
      = (d.packageErrors ++ d.optionErrors ++ d.declErrors
        ++ d.messages.flatMap d.messageErrors
        ++ d.services.flatMap d.serviceErrors).map (SchemaError.mapLoc f) := by
  simp only [mapLoc_packageErrors, mapLoc_optionErrors, mapLoc_declErrors, mapLoc_messages,
    mapLoc_services, List.flatMap_map, mapLoc_messageErrors, mapLoc_serviceErrors,
    List.map_append, List.map_flatMap]

/-- The warnings about a moved message are the moved warnings. -/
theorem messageWarnings_mapLoc (m : Message) :
    messageWarnings (m.mapLoc f) = (messageWarnings m).map (Warning.mapLoc f) := by
  unfold messageWarnings
  simp only [Message.mapLoc_numberErrors, List.map_append]
  -- first the labels without effect, then the mixed numbers
  congr 1
  · simp only [Message.mapLoc, List.filterMap_map, List.map_filterMap]
    congr 1
    funext x
    simp only [Function.comp_apply, Field.mapLoc]
    cases x.label with
    | none => rfl
    | some l =>
      simp only [Option.map_some, Label.mapLoc]
      split <;> rfl
  · have hsome (x : Field) : (x.mapLoc f).number.isSome = x.number.isSome := by
      simp [Field.mapLoc]
    have hnone (x : Field) : (x.mapLoc f).number.isNone = x.number.isNone := by
      simp [Field.mapLoc]
    simp only [Message.mapLoc, List.any_map, Function.comp_def, hsome, hnone, List.isEmpty_map]
    split <;> rfl

/-- The warnings about a moved service are the moved warnings. -/
theorem serviceWarnings_mapLoc (s : Service) :
    serviceWarnings (s.mapLoc f) = (serviceWarnings s).map (Warning.mapLoc f) := by
  unfold serviceWarnings
  simp only [Service.mapLoc, List.isEmpty_map]
  split <;> rfl

end File

end Tree

/-! ## §6 Their order -/

/-- A move that keeps the order in which nodes begin. -/
def KeepsOrder (f : Loc → Loc) : Prop :=
  ∀ a b : Loc, (f a).span.start < (f b).span.start ↔ a.span.start < b.span.start

/-- Reports compare in other places as they do in their own. -/
theorem KeepsOrder.reportOrder_eq {f : Loc → Loc} (hf : KeepsOrder f) {α : Type} (loc : α → Loc)
    (code : α → Nat) (move : α → α) (hloc : ∀ a, loc (move a) = f (loc a))
    (hcode : ∀ a, code (move a) = code a) (a b : α) :
    reportOrder loc code a b = reportOrder loc code (move a) (move b) := by
  have hab := hf (loc a) (loc b)
  have hba := hf (loc b) (loc a)
  unfold reportOrder
  rw [Bool.eq_iff_iff]
  simp only [hloc, hcode, Bool.or_eq_true, Bool.and_eq_true, decide_eq_true_eq, beq_iff_eq]
  omega

/-- Errors are reported in the same order if the move keeps the order of places. -/
theorem KeepsOrder.sortErrors_map {f : Loc → Loc} (hf : KeepsOrder f) (l : List SchemaError) :
    sortErrors (l.map (SchemaError.mapLoc f)) = (sortErrors l).map (SchemaError.mapLoc f) :=
  (List.map_mergeSort fun a _ b _ => hf.reportOrder_eq SchemaError.loc SchemaError.code
    (SchemaError.mapLoc f) (fun _ => rfl) (fun _ => rfl) a b).symm

/-- And so are warnings. -/
theorem KeepsOrder.sortWarnings_map {f : Loc → Loc} (hf : KeepsOrder f) (l : List Warning) :
    sortWarnings (l.map (Warning.mapLoc f)) = (sortWarnings l).map (Warning.mapLoc f) :=
  (List.map_mergeSort fun a _ b _ => hf.reportOrder_eq Warning.loc Warning.code
    (Warning.mapLoc f) (fun _ => rfl) (fun _ => rfl) a b).symm

namespace Tree.File

variable {f : Loc → Loc}

/-- A move that keeps the order of nodes keeps the list of violations. -/
theorem errors_mapLoc (hf : KeepsOrder f) (d : File) :
    (d.mapLoc f).errors = d.errors.map (SchemaError.mapLoc f) := by
  unfold errors
  rw [mapLoc_violations, hf.sortErrors_map]

/-- A move that keeps the order of nodes keeps the list of warnings. -/
theorem warnings_mapLoc (hf : KeepsOrder f) (d : File) :
    (d.mapLoc f).warnings = d.warnings.map (Warning.mapLoc f) := by
  unfold warnings
  rw [← hf.sortWarnings_map]
  simp only [mapLoc_messages, mapLoc_services, List.flatMap_map, messageWarnings_mapLoc,
    serviceWarnings_mapLoc, List.map_append, List.map_flatMap]

end Tree.File

/-! ## §7 The schema -/

/-- A field without its position. -/
def Field.erase (d : Field) : Field := { d with source := .unknown }

/-- A message without positions. -/
def Message.erase (m : Message) : Message :=
  { m with fields := m.fields.map Field.erase, source := .unknown }

/-- A method without its position. -/
def Method.erase (m : Method) : Method := { m with source := .unknown }

/-- A service without positions. -/
def Service.erase (s : Service) : Service :=
  { s with methods := s.methods.map Method.erase, source := .unknown }

/-- A schema without positions. -/
def Schema.erase (s : Schema) : Schema :=
  { s with messages := s.messages.map Message.erase, services := s.services.map Service.erase }

namespace Canonical

/-- The canonical encoding takes no notice of positions. -/
@[simp] theorem field_erase (d : Field) : field d.erase = field d := rfl

/-- The canonical value of a message has no places in it. -/
@[simp] theorem message_erase (m : Message) : message m.erase = message m := by
  simp [message, Message.erase, Function.comp_def]

@[simp] theorem method_erase (m : Method) : method m.erase = method m := rfl

@[simp] theorem service_erase (s : Service) : service s.erase = service s := by
  simp [service, Service.erase, Function.comp_def]

/-- The canonical members of types have no places in them. -/
theorem typeMembers_erase (s : Schema) : typeMembers s.erase = typeMembers s := by
  simp [typeMembers, Schema.erase, Function.comp_def]

end Canonical

namespace Schema

/-- The encoding of a schema does not depend on places. -/
theorem encoding_erase (s : Schema) : s.erase.encoding = s.encoding := by
  unfold encoding
  rw [Canonical.typeMembers_erase]
  simp [Schema.erase, Function.comp_def]

/-- The encoding of its types does not either. -/
theorem typesEncoding_erase (s : Schema) : s.erase.typesEncoding = s.typesEncoding := by
  unfold typesEncoding
  rw [Canonical.typeMembers_erase]

/-- Identities are filled in before or after positions are erased, with the same result. -/
theorem erase_identify (s : Schema) : s.identify.erase = s.erase.identify := by
  have hservice (x : Service) : x.erase.encoding = x.encoding := by
    simp [Service.encoding]
  unfold identify
  simp only [identity, encoding_erase, typesEncoding_erase]
  simp [Schema.erase, Function.comp_def, hservice]
  simp [Service.erase]

end Schema

namespace Tree.File

variable (f : Loc → Loc) (d : File)

@[simp] theorem mapLoc_typeOf (r : TypeRef) : (d.mapLoc f).typeOf (r.mapLoc f) = d.typeOf r := by
  simp [File.typeOf]

/-- But for its position, a field of the schema does not depend on places. -/
theorem mapLoc_lowerField (position : Nat) (x : Field) :
    ((d.mapLoc f).lowerField position (x.mapLoc f)).erase = (d.lowerField position x).erase := by
  unfold File.lowerField
  simp only [Idl.Field.erase, Field.mapLoc_explicit?, Field.mapLoc_isOptional]
  cases h : x.number <;> simp [Field.mapLoc, h]

/-- But for positions, a message of the schema does not depend on places. -/
theorem mapLoc_lowerMessage (m : Message) :
    ((d.mapLoc f).lowerMessage (m.mapLoc f)).erase = (d.lowerMessage m).erase := by
  unfold File.lowerMessage
  simp only [Idl.Message.erase, Message.mapLoc_numbered, List.map_map, Function.comp_def,
    mapLoc_lowerField]
  simp [Message.mapLoc]

/-- But for its position, a method of the schema does not depend on places. -/
theorem mapLoc_lowerMethod (m : Method) :
    ((d.mapLoc f).lowerMethod (m.mapLoc f)).erase = (d.lowerMethod m).erase := by
  unfold File.lowerMethod
  simp [Idl.Method.erase, Method.mapLoc, Function.comp_def]

/-- But for positions, a service of the schema does not depend on places. -/
theorem mapLoc_lowerService (s : Service) :
    ((d.mapLoc f).lowerService (s.mapLoc f)).erase = (d.lowerService s).erase := by
  unfold File.lowerService
  simp only [Idl.Service.erase, Service.mapLoc, List.map_map, Function.comp_def,
    mapLoc_lowerMethod]
  simp

theorem mapLoc_lowerOptions : (d.mapLoc f).lowerOptions = d.lowerOptions := by
  simp [File.lowerOptions, File.mapLoc, Setting.mapLoc, Function.comp_def]

/-- A moved file means the same schema, positions apart. -/
theorem schema_mapLoc (sourcePath : Bytes) :
    ((d.mapLoc f).schema sourcePath).erase = (d.schema sourcePath).erase := by
  unfold schema
  simp only [Schema.erase_identify]
  congr 1
  simp [Schema.erase, Function.comp_def, mapLoc_lowerMessage, mapLoc_lowerService,
    mapLoc_lowerOptions]

end Tree.File

end Idl
