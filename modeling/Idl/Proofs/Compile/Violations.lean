import Idl.Proofs.Compile.Misuse
import Idl.Proofs.Tree.Relocation
import Mathlib.Data.List.Perm.Basic

/-!
# Every violation is reported once

The rules of the language as a relation between the places in a file and the errors that are due
there, with the number of each error. Compilation reports exactly these errors, one for each place,
in the order of the places; it gives a schema exactly if there are none.

* §1 names, numbers and types,
* §2 places and violations,
* §3 lists that report a relation, §4 lists by index,
* §5 the parts of a file, §6 the whole file.
-/

namespace Idl

/-! ## §1 Names, numbers and types -/

/-- The numbers that a field may have. -/
def InRange (n : Int) : Prop := 1 ≤ n ∧ n ≤ 2 ^ 29 - 1

/-- The names of built-in types. -/
def BuiltinName (name : Bytes) : Prop :=
  name = "float" ∨ name = "double" ∨ ∃ s : Scalar, s.name = name

theorem isSome_ofName?_iff {name : Bytes} :
    (Scalar.ofName? name).isSome = true ↔ BuiltinName name := by
  have hall (s : Scalar) : s ∈ Scalar.all := by cases s <;> decide
  have hne : ("double" : Bytes) ≠ "float" := by decide
  unfold Scalar.ofName? BuiltinName
  by_cases hfloat : name = "float"
  · simp [hfloat]
  by_cases hdouble : name = "double"
  · simp [hdouble, hne]
  · simp [hfloat, hdouble, hall]

namespace Tree

/-- A field has a number of its own, in range. -/
def Field.Uses (x : Field) (k : Nat) : Prop :=
  ∃ lit, x.number = some lit ∧ lit.value = k ∧ InRange lit.value

/-- The number of a field is known when it has one in range. -/
theorem Field.explicit?_eq_some_iff {x : Field} {k : Nat} : x.explicit? = some k ↔ x.Uses k := by
  have hmax : (maxFieldNumber : Int) = 2 ^ 29 - 1 := by decide
  unfold Field.explicit? Field.Uses InRange
  cases x.number with
  | none => simp
  | some lit =>
    simp only [Option.bind_some, hmax, Bool.and_eq_true, decide_eq_true_eq, Option.some.injEq,
      exists_eq_left']
    split
    · rw [Option.some.injEq]
      omega
    · -- out of range the field uses no number
      constructor
      · nofun
      · rintro ⟨-, h⟩
        contradiction

theorem Field.explicit?_eq_none_iff {x : Field} {lit : IntLit} (h : x.number = some lit) :
    x.explicit? = none ↔ ¬ InRange lit.value := by
  have hmax : (maxFieldNumber : Int) = 2 ^ 29 - 1 := by decide
  simp [Field.explicit?, h, InRange, hmax]

theorem numberOwner?_eq_some_iff {l : List Field} {k : Nat} {owner : Field} :
    numberOwner? l k = some owner ↔ FirstOf (·.Uses k) l owner :=
  find?_eq_some_iff_firstOf fun x => by simp [Field.explicit?_eq_some_iff]

namespace File

/-- The name that a reference is looked up by: without the package in front, if it has it. -/
inductive Unqualified (f : File) (ref : TypeRef) : Bytes → Prop where
  | inside {rest : Bytes} (package : f.packageName ≠ [])
      (h : ref.name.dotted = f.packageName ++ "." ++ rest) : Unqualified f ref rest
  | plain (h : f.packageName = [] ∨ ∀ rest, ref.name.dotted ≠ f.packageName ++ "." ++ rest) :
      Unqualified f ref ref.name.dotted

/-- A reference to a type has a meaning: a built-in type of a single name, or a name of which the
first declaration is a message. -/
inductive Resolves (f : File) (ref : TypeRef) : Prop where
  | builtin (single : ref.name.more = []) (h : BuiltinName ref.name.first.name)
  | message {name : Bytes} {m : Message} (lookup : f.Unqualified ref name)
      (h : FirstOf (fun d : Decl => d.name.name = name) f.decls (.message m))

theorem declared?_eq_some_iff {f : File} {name : Bytes} {kind : DeclKind} :
    f.declared? name = some kind
      ↔ ∃ d, FirstOf (fun d : Decl => d.name.name = name) f.decls d ∧ d.kind = kind := by
  have hfind (d : Decl) : f.decls.find? (·.name.name == name) = some d
      ↔ FirstOf (fun d : Decl => d.name.name = name) f.decls d :=
    find?_eq_some_iff_firstOf fun d => by simp
  simp [declared?, hfind]

theorem unqualified_iff {f : File} {ref : TypeRef} {name : Bytes} :
    f.Unqualified ref name ↔ name = if f.packageName.isEmpty then ref.name.dotted
      else Bytes.trimStart ref.name.dotted (f.packageName ++ ".") := by
  have hstart : Bytes.startsWith ref.name.dotted (f.packageName ++ ".") = true
      ↔ ∃ rest, ref.name.dotted = f.packageName ++ "." ++ rest := by
    rw [Bytes.startsWith, List.isPrefixOf_iff_prefix]
    simp only [List.IsPrefix, eq_comm]
  unfold Bytes.trimStart
  -- without a package there is nothing to cut off
  by_cases hempty : f.packageName = []
  · simp only [hempty, List.isEmpty_nil, if_true]
    constructor
    · rintro (⟨hne, -⟩ | -)
      · exact absurd hempty hne
      · rfl
    · rintro rfl
      exact .plain (.inl hempty)
  rw [if_neg (by simpa using hempty)]
  -- a name of the package is cut, any other one stays whole
  by_cases hpackage : ∃ rest, ref.name.dotted = f.packageName ++ "." ++ rest
  · obtain ⟨rest, hrest⟩ := id hpackage
    rw [if_pos (hstart.mpr hpackage), hrest, List.drop_left]
    constructor
    · rintro (⟨-, h⟩ | ⟨h | h⟩)
      · exact List.append_cancel_left (h.symm.trans hrest)
      · exact absurd h hempty
      · -- it cannot be plain, since it begins with the package
        exact absurd hrest (h rest)
    · rintro rfl
      exact .inside hempty hrest
  · rw [if_neg (mt hstart.mp hpackage)]
    constructor
    · rintro (⟨-, h⟩ | -)
      · exact absurd ⟨_, h⟩ hpackage
      · rfl
    · rintro rfl
      exact .plain (.inr fun rest h => hpackage ⟨rest, h⟩)

theorem isSome_resolve?_iff {f : File} {ref : TypeRef} :
    (f.resolve? ref).isSome = true ↔ f.Resolves ref := by
  have hbuiltin : (if ref.name.more.isEmpty then Scalar.ofName? ref.name.first.name
      else none).isSome = true ↔ ref.name.more = [] ∧ BuiltinName ref.name.first.name := by
    rw [← isSome_ofName?_iff]
    cases ref.name.more <;> simp
  unfold resolve?
  dsimp only
  -- a builtin name comes before the messages of the file
  split
  · next s hs =>
    rw [hs] at hbuiltin
    obtain ⟨hsingle, hname⟩ := hbuiltin.mp rfl
    exact iff_of_true rfl (.builtin hsingle hname)
  · next hnone =>
    rw [hnone] at hbuiltin
    have hmessage : (f.declared? (if f.packageName.isEmpty then ref.name.dotted
        else Bytes.trimStart ref.name.dotted (f.packageName ++ ".")) = some .message)
          ↔ f.Resolves ref := by
      rw [declared?_eq_some_iff]
      constructor
      · rintro ⟨d, hfirst, hkind⟩
        cases d with
        | message m => exact .message (unqualified_iff.mpr rfl) hfirst
        | service s => cases hkind
      · rintro (⟨hsingle, hname⟩ | ⟨hlookup, hfirst⟩)
        · exact absurd (hbuiltin.mpr ⟨hsingle, hname⟩) (by simp)
        · rw [← unqualified_iff.mp hlookup]
          exact ⟨_, hfirst, rfl⟩
    rw [← hmessage]
    split <;> simp_all

end File

/-! ## §2 Places and violations -/

/-- Where something can be wrong with a field. -/
inductive FieldSite where
  | name
  | type
  | number
  | annot (k : Nat)

/-- Where something can be wrong with a method. -/
inductive MethodSite where
  | name
  | input
  | output
  | annot (k : Nat)

/-- Where something can be wrong in a message: in front of it, or at one of its fields. -/
inductive MessageSite where
  | annot (k : Nat)
  | field (j : Nat) (site : FieldSite)

/-- Where something can be wrong in a service. -/
inductive ServiceSite where
  | annot (k : Nat)
  | method (j : Nat) (site : MethodSite)

/-- Where something can be wrong in a file. Things of one kind are counted from zero. -/
inductive Site where
  | package
  | setting (i : Nat)
  | decl (i : Nat)
  | message (i : Nat) (site : MessageSite)
  | service (i : Nat) (site : ServiceSite)

/-- What is wrong with the annotations in front of an entity. -/
inductive AnnotViolation (target : Target) (scope entity : Bytes) (nodes : List Annot) :
    Nat → Nat → SchemaError → Prop where
  | mk {k code : Nat} {n : Annot} {cause : SchemaCause} (node : nodes[k]? = some n)
      (h : n.Faulty target code cause) :
      AnnotViolation target scope entity nodes k code ⟨cause, n.loc, entity, scope⟩

/-- What is wrong with the field `x`, the one with index `j` of its message. Numbers that are not
written are positions, and positions start at one. -/
inductive FieldViolation (f : File) (m : Message) (j : Nat) (x : Field) :
    FieldSite → Nat → SchemaError → Prop where
  | name (h : ∃ y ∈ m.fields.take j, y.name.name = x.name.name) :
      FieldViolation f m j x .name 3002 ⟨.duplicateField, x.name.loc, x.name.name, m.name.name⟩
  | type (h : ¬ f.Resolves x.type) :
      FieldViolation f m j x .type 3006
        ⟨.unresolvedType x.type.name.dotted, x.type.loc, x.name.name, m.name.name⟩
  | outOfRange {lit : IntLit} (number : x.number = some lit) (h : ¬ InRange lit.value) :
      FieldViolation f m j x .number 3005
        ⟨.numberOutOfRange lit.raw, lit.loc, x.name.name, m.name.name⟩
  | reused {lit : IntLit} {k : Nat} {owner : Field} (number : x.number = some lit) (uses : x.Uses k)
      (h : FirstOf (·.Uses k) (m.fields.take j) owner) :
      FieldViolation f m j x .number 3003
        ⟨.reusedNumber k owner.name.name, lit.loc, x.name.name, m.name.name⟩
  | taken {owner : Field} (number : x.number = none)
      (h : FirstOf (·.Uses (j + 1)) m.fields owner) :
      FieldViolation f m j x .number 3004
        ⟨.takenNumber (j + 1) owner.name.name, x.name.loc, x.name.name, m.name.name⟩
  | annot {k code : Nat} {e : SchemaError}
      (h : AnnotViolation .field m.name.name x.name.name x.annots k code e) :
      FieldViolation f m j x (.annot k) code e

/-- What is wrong in a message. -/
inductive MessageViolation (f : File) (m : Message) :
    MessageSite → Nat → SchemaError → Prop where
  | annot {k code : Nat} {e : SchemaError}
      (h : AnnotViolation .message f.packageName m.name.name m.annots k code e) :
      MessageViolation f m (.annot k) code e
  | field {j code : Nat} {x : Field} {site : FieldSite} {e : SchemaError}
      (field : m.fields[j]? = some x) (h : FieldViolation f m j x site code e) :
      MessageViolation f m (.field j site) code e

/-- What is wrong with the method `x`, the one with index `j` of its service. -/
inductive MethodViolation (f : File) (s : Service) (j : Nat) (x : Method) :
    MethodSite → Nat → SchemaError → Prop where
  | name (h : ∃ y ∈ s.methods.take j, y.name.name = x.name.name) :
      MethodViolation f s j x .name 3007 ⟨.duplicateMethod, x.name.loc, x.name.name, s.name.name⟩
  | input {ref : TypeRef} (input : x.input = some ref) (h : ¬ f.Resolves ref) :
      MethodViolation f s j x .input 3006
        ⟨.unresolvedType ref.name.dotted, ref.loc, s.name.name ++ "." ++ x.name.name, s.name.name⟩
  | output {ref : TypeRef} (output : x.output = some ref) (h : ¬ f.Resolves ref) :
      MethodViolation f s j x .output 3006
        ⟨.unresolvedType ref.name.dotted, ref.loc, s.name.name ++ "." ++ x.name.name, s.name.name⟩
  | annot {k code : Nat} {e : SchemaError}
      (h : AnnotViolation .method s.name.name x.name.name x.annots k code e) :
      MethodViolation f s j x (.annot k) code e

/-- What is wrong in a service. -/
inductive ServiceViolation (f : File) (s : Service) :
    ServiceSite → Nat → SchemaError → Prop where
  | annot {k code : Nat} {e : SchemaError}
      (h : AnnotViolation .service f.packageName s.name.name s.annots k code e) :
      ServiceViolation f s (.annot k) code e
  | method {j code : Nat} {x : Method} {site : MethodSite} {e : SchemaError}
      (method : s.methods[j]? = some x) (h : MethodViolation f s j x site code e) :
      ServiceViolation f s (.method j site) code e

/-- What is wrong in a file: where, the number of the error, and the error. -/
inductive Violation (f : File) : Site → Nat → SchemaError → Prop where
  | package {p : Package} (package : f.package = some p)
      (h : ∃ part ∈ p.name.parts, ¬ ∃ c r, part.name = c :: r ∧ Bytes.isLetter c = true) :
      Violation f .package 3010 ⟨.invalidPackage, p.name.loc, p.name.dotted, []⟩
  | setting {i : Nat} {o : Setting} (setting : f.options[i]? = some o)
      (h : ∃ p ∈ f.options.take i, p.name.dotted = o.name.dotted) :
      Violation f (.setting i) 3009 ⟨.repeatedOption, o.loc, o.name.dotted, f.packageName⟩
  | duplicate {i : Nat} {d earlier : Decl} (decl : f.decls[i]? = some d)
      (first : FirstOf (fun x : Decl => x.name.name = d.name.name) (f.decls.take i) earlier)
      (h : d.kind = earlier.kind) :
      Violation f (.decl i) 3000 ⟨.duplicateDecl d.kind, d.name.loc, d.name.name, f.packageName⟩
  | conflict {i : Nat} {d earlier : Decl} (decl : f.decls[i]? = some d)
      (first : FirstOf (fun x : Decl => x.name.name = d.name.name) (f.decls.take i) earlier)
      (h : d.kind ≠ earlier.kind) :
      Violation f (.decl i) 3001
        ⟨.kindConflict d.kind earlier.kind, d.name.loc, d.name.name, f.packageName⟩
  | message {i code : Nat} {m : Message} {site : MessageSite} {e : SchemaError}
      (message : f.messages[i]? = some m) (h : MessageViolation f m site code e) :
      Violation f (.message i site) code e
  | service {i code : Nat} {s : Service} {site : ServiceSite} {e : SchemaError}
      (service : f.services[i]? = some s) (h : ServiceViolation f s site code e) :
      Violation f (.service i site) code e

/-! ## §3 Lists that report a relation -/

/-- The errors in a list are those of a relation, one for each place where there is one. -/
def Reports {ι : Type} (v : ι → SchemaError → Prop) (l : List SchemaError) : Prop :=
  ∃ r : List (ι × SchemaError), (r.map (·.1)).Nodup ∧ (∀ i e, (i, e) ∈ r ↔ v i e)
    ∧ l.Perm (r.map (·.2))

namespace Reports

variable {α ι κ : Type} {v w : ι → SchemaError → Prop} {l m : List SchemaError}

theorem congr (h : Reports v l) (hvw : ∀ i e, v i e ↔ w i e) : Reports w l := by
  obtain ⟨r, hnodup, hmem, hperm⟩ := h
  exact ⟨r, hnodup, fun i e => (hmem i e).trans (hvw i e), hperm⟩

/-- At most one error, at the only place. -/
theorem option (o : Option SchemaError) : Reports (fun _ : Unit => (o = some ·)) o.toList := by
  cases o with
  | none => exact ⟨[], List.nodup_nil, by simp, .nil⟩
  | some e => exact ⟨[((), e)], List.nodup_singleton _, by simp [eq_comm], .refl _⟩

/-- Two relations with no place in common. -/
theorem append (hv : Reports v l) (hw : Reports w m) (h : ∀ i e e', v i e → ¬ w i e') :
    Reports (fun i e => v i e ∨ w i e) (l ++ m) := by
  obtain ⟨r, hr, hrmem, hrperm⟩ := hv
  obtain ⟨s, hs, hsmem, hsperm⟩ := hw
  refine ⟨r ++ s, ?_, by simp [hrmem, hsmem], ?_⟩
  · -- no site is of both kinds
    rw [List.map_append, List.nodup_append]
    refine ⟨hr, hs, ?_⟩
    rintro i hi _ hj rfl
    obtain ⟨⟨_, e⟩, he, rfl⟩ := List.mem_map.mp hi
    obtain ⟨⟨_, e'⟩, he', heq⟩ := List.mem_map.mp hj
    dsimp only at heq
    subst heq
    exact h _ e e' ((hrmem _ e).mp he) ((hsmem _ e').mp he')
  · rw [List.map_append]
    exact hrperm.append hsperm

/-- The same errors at renamed places. -/
theorem rename {g : ι → κ} (hg : Function.Injective g) (h : Reports v l) :
    Reports (fun k e => ∃ i, g i = k ∧ v i e) l := by
  obtain ⟨r, hnodup, hmem, hperm⟩ := h
  refine ⟨r.map fun x => (g x.1, x.2), ?_, fun k e => ?_, ?_⟩
  · -- different sites keep different names
    rw [List.map_map]
    have hcomp : ((fun x : κ × SchemaError => x.1) ∘ fun x : ι × SchemaError => (g x.1, x.2))
        = g ∘ (·.1) := rfl
    rw [hcomp, ← List.map_map]
    exact hnodup.map hg
  · simp only [List.mem_map, Prod.exists, Prod.mk.injEq]
    constructor
    · rintro ⟨i, e', hi, rfl, rfl⟩
      exact ⟨i, rfl, (hmem i _).mp hi⟩
    · rintro ⟨i, rfl, hi⟩
      exact ⟨i, e, (hmem i e).mpr hi, rfl, rfl⟩
  · simpa [List.map_map, Function.comp_def] using hperm

/-- The errors of all elements of a list, each at its index. -/
theorem flatMap {v : Nat → α → κ → SchemaError → Prop} {g : Nat → α → List SchemaError}
    (xs : List α) (h : ∀ i a, xs[i]? = some a → Reports (v i a) (g i a)) :
    Reports (fun (p : Nat × κ) e => ∃ a, xs[p.1]? = some a ∧ v p.1 a p.2 e)
      (xs.zipIdx.flatMap fun x => g x.2 x.1) := by
  induction xs generalizing v g with
  | nil => exact ⟨[], List.nodup_nil, by simp, .nil⟩
  | cons a xs ih =>
    -- the first element is at index zero, all others are one further on
    have hfirst := (h 0 a rfl).rename (g := fun k => (0, k)) fun _ _ heq => (Prod.mk.inj heq).2
    have hrest := (ih (v := fun i => v (i + 1)) (g := fun i => g (i + 1))
      fun i b hb => h (i + 1) b (by simpa using hb)).rename
        (g := fun p : Nat × κ => (p.1 + 1, p.2)) (by
          rintro ⟨i, k⟩ ⟨j, k'⟩ heq
          simpa using heq)
    have happend := hfirst.append hrest (by
      rintro _ e e' ⟨k, rfl, -⟩ ⟨⟨i, k'⟩, heq, -⟩
      simp at heq)
    have hlist : (a :: xs).zipIdx.flatMap (fun x => g x.2 x.1)
        = g 0 a ++ xs.zipIdx.flatMap fun x => g (x.2 + 1) x.1 := by
      rw [List.zipIdx_cons', List.flatMap_cons, List.flatMap_map]
      rfl
    rw [hlist]
    refine happend.congr ?_
    rintro ⟨i, k⟩ e
    cases i with
    | zero => simp
    | succ i => simp

/-- At most one error for each element of a list, at its index. -/
theorem filterMap_zipIdx (g : Nat → α → Option SchemaError) (xs : List α) :
    Reports (fun i e => ∃ a, xs[i]? = some a ∧ g i a = some e)
      (xs.zipIdx.filterMap fun x => g x.2 x.1) := by
  have hflat := (flatMap (κ := Unit) xs fun i a _ => option (g i a)).rename
    (g := fun p : Nat × Unit => p.1) fun _ _ heq => Prod.ext heq rfl
  rw [List.filterMap_eq_flatMap_toList]
  refine hflat.congr fun i e => ?_
  simp

end Reports

/-! ## §4 Lists by index -/

section Index

variable {α : Type}

theorem earlierFrom_eq_zipIdx (before xs : List α) :
    earlierFrom before xs
      = xs.zipIdx.map fun x => ((xs.take x.2).reverse ++ before, x.1) := by
  induction xs generalizing before with
  | nil => rfl
  | cons a xs ih =>
    rw [earlierFrom, ih, List.zipIdx_cons', List.map_cons, List.map_map]
    simp [Function.comp_def]

/-- At most one error for each element of a list, depending on those in front of it. -/
theorem Reports.withEarlier (g : List α → α → Option SchemaError) (xs : List α) :
    Reports (fun i e => ∃ a, xs[i]? = some a ∧ g (xs.take i).reverse a = some e)
      ((withEarlier xs).filterMap fun x => g x.1 x.2) := by
  rw [withEarlier_eq, earlierFrom_eq_zipIdx, List.filterMap_map]
  simpa [Function.comp_def] using filterMap_zipIdx (fun i a => g (xs.take i).reverse a) xs

/-- At most one error for each element whose name occurred before. -/
theorem Reports.repeats (name : α → Bytes) (report : α → Option SchemaError) (xs : List α) :
    Reports (fun i e => ∃ a, xs[i]? = some a ∧ (∃ b ∈ xs.take i, name b = name a)
      ∧ report a = some e) ((repeats name xs).filterMap report) := by
  -- a repeated element is one of which the name occurs among those before it
  have hlist : (Tree.repeats name xs).filterMap report = (Tree.withEarlier xs).filterMap fun x =>
      if x.1.any (fun b => name b == name x.2) then report x.2 else none := by
    rw [Tree.repeats, List.filterMap_filterMap]
    congr 1
    funext x
    dsimp only
    split <;> simp_all
  rw [hlist]
  refine (withEarlier (fun before a => if before.any (fun b => name b == name a) then
    report a else none) xs).congr fun i e => ?_
  simp

/-- The first element with a property is the first one of a part that has one. -/
theorem firstOf_take_iff {p : α → Prop} {l : List α} {i : Nat} {a : α} :
    FirstOf p (l.take i) a ↔ (∃ b ∈ l.take i, p b) ∧ FirstOf p l a := by
  classical
  -- the first element is the one that a search finds, so the search is cut in two
  have hfind (m : List α) : FirstOf p m a ↔ m.find? (fun x => decide (p x)) = some a :=
    (find?_eq_some_iff_firstOf fun x => by simp).symm
  have hsplit : l.find? (fun x => decide (p x)) = ((l.take i).find? fun x => decide (p x)).or
      ((l.drop i).find? fun x => decide (p x)) := by
    rw [← List.find?_append, List.take_append_drop]
  rw [hfind, hfind, hsplit]
  cases hleft : (l.take i).find? fun x => decide (p x) with
  -- nothing before: then there is none to be the first
  | none =>
    simp only [List.find?_eq_none, decide_eq_true_eq] at hleft
    simp only [Option.none_or, reduceCtorEq, false_iff]
    rintro ⟨⟨b, hb, hp⟩, -⟩
    exact hleft b hb hp
  | some b =>
    have hb : b ∈ l.take i ∧ p b :=
      ⟨List.mem_of_find?_eq_some hleft, by simpa using List.find?_some hleft⟩
    simp only [Option.some_or, iff_and_self]
    exact fun _ => ⟨b, hb⟩

/-- The errors of all elements of a list, whatever the index of each. -/
theorem Reports.flatMap' {κ : Type} {v : Nat → α → κ → SchemaError → Prop}
    {g : α → List SchemaError} (xs : List α) (h : ∀ i a, Reports (v i a) (g a)) :
    Reports (fun (p : Nat × κ) e => ∃ a, xs[p.1]? = some a ∧ v p.1 a p.2 e) (xs.flatMap g) := by
  have hlist : xs.flatMap g = xs.zipIdx.flatMap fun x => g x.1 := by
    conv_lhs => rw [← List.zipIdx_map_fst 0 xs, List.flatMap_map]
  rw [hlist]
  exact flatMap xs fun i a _ => h i a

/-- At most one error for each element of a list, whatever its index. -/
theorem Reports.filterMap (g : α → Option SchemaError) (xs : List α) :
    Reports (fun (i : Nat) e => ∃ a, xs[i]? = some a ∧ g a = some e) (xs.filterMap g) := by
  have hlist : xs.filterMap g = xs.zipIdx.filterMap fun x => g x.1 := by
    conv_lhs => rw [← List.zipIdx_map_fst 0 xs, List.filterMap_map]
    rfl
  rw [hlist]
  exact filterMap_zipIdx (fun _ a => g a) xs

/-- The errors of the members of a body: their names must not be repeated, and each has errors of
its own at other places. -/
theorem Reports.members {κ : Type} {v : Nat → α → κ → SchemaError → Prop} {site : κ}
    {others : κ → Prop} {name : α → Bytes} {report : α → SchemaError}
    {own : α → List SchemaError} (xs : List α) (hsite : ¬ others site)
    (hname : ∀ j a e, v j a site e ↔ (∃ b ∈ xs.take j, name b = name a) ∧ e = report a)
    (hown : ∀ j a, Reports (fun s e => v j a s e ∧ others s) (own a)) :
    Reports (fun (p : Nat × κ) e => (∃ a, xs[p.1]? = some a ∧ v p.1 a p.2 e)
      ∧ (p.2 = site ∨ others p.2)) ((Tree.repeats name xs).map report ++ xs.flatMap own) := by
  -- the repeated names, all at the one site
  have hnames := (repeats name (fun a => some (report a)) xs).rename (g := fun j => (j, site))
    fun _ _ h => (Prod.mk.inj h).1
  rw [List.filterMap_eq_map'] at hnames
  have hrest := flatMap' xs hown
  refine (hnames.append hrest ?_).congr ?_
  · -- no member reports that site itself
    rintro _ e e' ⟨j, rfl, -⟩ ⟨a, -, -, h⟩
    exact hsite h
  · rintro ⟨j, s⟩ e
    constructor
    · rintro (⟨i, heq, a, ha, h, he⟩ | ⟨a, ha, h, hs⟩)
      · cases heq
        exact ⟨⟨a, ha, (hname _ a e).mpr ⟨h, (Option.some.inj he).symm⟩⟩, .inl rfl⟩
      · exact ⟨⟨a, ha, h⟩, .inr hs⟩
    · rintro ⟨⟨a, ha, h⟩, rfl | hs⟩
      · obtain ⟨hb, rfl⟩ := (hname j a e).mp h
        exact .inl ⟨j, rfl, a, ha, hb, rfl⟩
      · exact .inr ⟨a, ha, h, hs⟩

end Index

/-! ## §5 The parts of a file -/

/-- The violations of a relation with the number that an error itself has. -/
abbrev own {ι : Type} (v : ι → Nat → SchemaError → Prop) (i : ι) (e : SchemaError) : Prop :=
  v i e.code e

/-- The annotations of an entity report what is wrong with them, one by one. -/
theorem reports_annotErrors (target : Target) (scope entity : Bytes) (nodes : List Annot) :
    Reports (own (AnnotViolation target scope entity nodes))
      (annotErrors target scope entity nodes) := by
  refine (Reports.filterMap _ nodes).congr fun k e => ?_
  constructor
  · rintro ⟨n, hn, he⟩
    split at he
    · cases he
    · next cause hcause =>
      cases he
      exact ⟨hn, Annot.interpret_eq_error_iff.mp hcause⟩
  · rintro ⟨hn, h⟩
    refine ⟨_, hn, ?_⟩
    rw [Annot.interpret_eq_error_iff.mpr h]

variable {f : File}

theorem typeErrors_eq (scope entity : Bytes) (ref : TypeRef) [Decidable (f.Resolves ref)] :
    f.typeErrors scope entity ref = Option.toList (if f.Resolves ref then none
      else some ⟨.unresolvedType ref.name.dotted, ref.loc, entity, scope⟩) := by
  unfold File.typeErrors
  simp only [File.isSome_resolve?_iff]
  split <;> rfl

/-- A reference that has no meaning is one error. -/
theorem reports_typeErrors (scope entity : Bytes) (ref : TypeRef) :
    Reports (fun (_ : Unit) e => ¬ f.Resolves ref
      ∧ e = ⟨.unresolvedType ref.name.dotted, ref.loc, entity, scope⟩)
      (f.typeErrors scope entity ref) := by
  classical
  rw [typeErrors_eq]
  refine (Reports.option _).congr fun _ e => ?_
  split <;> simp_all [eq_comm]

namespace Message

variable {m : Message} {x : Field} {e : SchemaError}

/-- What is wrong with a number that is written. -/
theorem explicitError?_eq_some_iff {before : List Field} :
    m.explicitError? before.reverse x = some e ↔ ∃ lit, x.number = some lit
      ∧ (¬ InRange lit.value
          ∧ e = ⟨.numberOutOfRange lit.raw, lit.loc, x.name.name, m.name.name⟩
        ∨ ∃ k owner, x.Uses k ∧ FirstOf (·.Uses k) before owner
          ∧ e = ⟨.reusedNumber k owner.name.name, lit.loc, x.name.name, m.name.name⟩) := by
  unfold explicitError?
  cases hnumber : x.number with
  | none => simp
  | some lit =>
    simp only [Option.bind_some, Option.some.injEq, exists_eq_left']
    cases hexplicit : x.explicit? with
    -- the number is out of range, and so is used by nobody
    | none =>
      have hrange := (Field.explicit?_eq_none_iff hnumber).mp hexplicit
      have huses (k : Nat) : ¬ x.Uses k := by
        rw [← Field.explicit?_eq_some_iff, hexplicit]
        nofun
      simp [hrange, huses, Eq.comm (b := e)]
    -- in range the only fault is another field with the same number
    | some n =>
      have hrange : InRange lit.value := by
        by_contra h
        rw [(Field.explicit?_eq_none_iff hnumber).mpr h] at hexplicit
        cases hexplicit
      have huses (k : Nat) : x.Uses k ↔ k = n := by
        rw [← Field.explicit?_eq_some_iff, hexplicit, Option.some.injEq, eq_comm]
      simp [hrange, huses, Option.bind_eq_some_iff, numberOwner?_eq_some_iff, Eq.comm (b := e)]

/-- What is wrong with a number that is a position. -/
theorem automaticError?_eq_some_iff {position : Nat} :
    m.automaticError? position x = some e ↔ x.number = none
      ∧ ∃ owner, FirstOf (·.Uses position) m.fields owner
        ∧ e = ⟨.takenNumber position owner.name.name, x.name.loc, x.name.name, m.name.name⟩ := by
  unfold automaticError?
  cases x.number with
  | none => simp [numberOwner?_eq_some_iff, Eq.comm (b := e)]
  | some lit => simp

end Message

theorem reports_numberErrors (m : Message) :
    Reports (fun j e => ∃ x, m.fields[j]? = some x ∧ FieldViolation f m j x .number e.code e)
      m.numberErrors := by
  have hexplicit := Reports.withEarlier (fun before x => m.explicitError? before x) m.fields
  have hautomatic := Reports.filterMap_zipIdx (fun i x => m.automaticError? (i + 1) x) m.fields
  have hlist : m.numbered.filterMap (fun x => m.automaticError? x.1 x.2)
      = m.fields.zipIdx.filterMap fun x => m.automaticError? (x.2 + 1) x.1 := by
    rw [Message.numbered, List.filterMap_map]
    rfl
  rw [← hlist] at hautomatic
  -- a number is written or it is not
  refine (hexplicit.append hautomatic ?_).congr fun j e => ?_
  · rintro j e e' ⟨x, hx, he⟩ ⟨y, hy, he'⟩
    cases hx.symm.trans hy
    obtain ⟨lit, hlit, -⟩ := Message.explicitError?_eq_some_iff.mp he
    rw [(Message.automaticError?_eq_some_iff.mp he').1] at hlit
    cases hlit
  · simp only [Message.explicitError?_eq_some_iff, Message.automaticError?_eq_some_iff]
    constructor
    · rintro (⟨x, hx, lit, hlit, ⟨h, rfl⟩ | ⟨k, owner, huses, h, rfl⟩⟩ | ⟨x, hx, hnone, owner, h, rfl⟩)
      · exact ⟨x, hx, .outOfRange hlit h⟩
      · exact ⟨x, hx, .reused hlit huses h⟩
      · exact ⟨x, hx, .taken hnone h⟩
    · rintro ⟨x, hx, h⟩
      generalize e.code = code at h
      cases h with
      | outOfRange hlit h => exact .inl ⟨x, hx, _, hlit, .inl ⟨h, rfl⟩⟩
      | reused hlit huses h => exact .inl ⟨x, hx, _, hlit, .inr ⟨_, _, huses, h, rfl⟩⟩
      | taken hnone h => exact .inr ⟨x, hx, hnone, _, h, rfl⟩

/-- What is wrong with a field by itself: its type and its annotations. -/
theorem reports_fieldErrors (m : Message) (j : Nat) (x : Field) :
    Reports (fun site e => FieldViolation f m j x site e.code e
      ∧ (site = .type ∨ ∃ k, site = .annot k)) (f.fieldErrors m x) := by
  have htype := (reports_typeErrors (f := f) m.name.name x.name.name x.type).rename
    (g := fun _ => FieldSite.type) (fun _ _ _ => rfl)
  have hannots := (reports_annotErrors .field m.name.name x.name.name x.annots).rename
    (g := FieldSite.annot) (fun _ _ h => FieldSite.annot.inj h)
  refine (htype.append hannots ?_).congr fun site e => ?_
  · -- the type and the annotations are different sites
    rintro _ e e' ⟨-, rfl, -⟩ ⟨k, hk, -⟩
    cases hk
  · constructor
    · rintro (⟨-, rfl, h, rfl⟩ | ⟨k, rfl, h⟩)
      · exact ⟨.type h, .inl rfl⟩
      · exact ⟨.annot h, .inr ⟨k, rfl⟩⟩
    · rintro ⟨h, rfl | ⟨k, rfl⟩⟩
      · generalize e.code = code at h
        cases h with
        | type h => exact .inl ⟨(), rfl, h, rfl⟩
      · cases h with
        | annot h => exact .inr ⟨k, rfl, h⟩

/-- The fields of a message, their numbers apart. -/
theorem reports_fields (m : Message) :
    Reports (fun (p : Nat × FieldSite) e =>
      (∃ x, m.fields[p.1]? = some x ∧ FieldViolation f m p.1 x p.2 e.code e)
        ∧ (p.2 = .name ∨ p.2 = .type ∨ ∃ k, p.2 = .annot k))
      ((repeats (·.name.name) m.fields).map
          (fun x => ⟨.duplicateField, x.name.loc, x.name.name, m.name.name⟩)
        ++ m.fields.flatMap (f.fieldErrors m)) := by
  -- a field reports its repeated name through the message, the rest itself
  refine Reports.members m.fields (by simp) (fun j x e => ?_) (reports_fieldErrors m)
  constructor
  · intro h
    generalize e.code = code at h
    cases h with
    | name h => exact ⟨h, rfl⟩
  · rintro ⟨h, rfl⟩
    exact .name h

theorem reports_messageErrors (m : Message) :
    Reports (own (MessageViolation f m)) (f.messageErrors m) := by
  have hannots := (reports_annotErrors .message f.packageName m.name.name m.annots).rename
    (g := MessageSite.annot) fun _ _ h => MessageSite.annot.inj h
  have hfields := (reports_fields (f := f) m).rename (g := fun p => MessageSite.field p.1 p.2)
    fun _ _ h => Prod.ext (MessageSite.field.inj h).1 (MessageSite.field.inj h).2
  have hnumbers := (reports_numberErrors (f := f) m).rename
    (g := fun j => MessageSite.field j .number) fun _ _ h => (MessageSite.field.inj h).1
  rw [File.messageErrors, List.append_assoc (annotErrors ..)]
  refine ((hannots.append hfields ?_).append hnumbers ?_).congr fun site e => ?_
  · rintro _ e e' ⟨k, rfl, -⟩ ⟨p, hp, -⟩
    cases hp
  · rintro _ e e' (⟨k, rfl, -⟩ | ⟨p, rfl, -, h⟩) ⟨j, hj, -⟩
    · cases hj
    · simp [← (MessageSite.field.inj hj).2] at h
  · constructor
    · rintro ((⟨k, rfl, h⟩ | ⟨p, rfl, ⟨x, hx, h⟩, -⟩) | ⟨j, rfl, x, hx, h⟩)
      · exact .annot h
      · exact .field hx h
      · exact .field hx h
    · intro h
      cases h with
      | annot h => exact .inl (.inl ⟨_, rfl, h⟩)
      | @field j _ x site _ hx h =>
        by_cases hsite : site = .number
        -- faults of numbers are reported behind all other faults of the fields
        · subst hsite
          exact .inr ⟨j, rfl, x, hx, h⟩
        · refine .inl (.inr ⟨(j, site), rfl, ⟨x, hx, h⟩, ?_⟩)
          cases site <;> simp_all

/-- What is wrong with a method by itself: its types and its annotations. -/
theorem reports_methodErrors (s : Service) (j : Nat) (x : Method) :
    Reports (fun site e => MethodViolation f s j x site e.code e ∧ site ≠ .name)
      (f.methodErrors s x) := by
  -- a type that is not there is no error
  have htype (g : Unit → MethodSite) (ref : Option TypeRef) :
      Reports (fun site e => ∃ u, g u = site ∧ ∃ r, ref = some r ∧ ¬ f.Resolves r
        ∧ e = ⟨.unresolvedType r.name.dotted, r.loc, s.name.name ++ "." ++ x.name.name, s.name.name⟩)
        (ref.toList.flatMap (f.typeErrors s.name.name (s.name.name ++ "." ++ x.name.name))) := by
    refine Reports.rename (fun _ _ _ => rfl) ?_
    cases ref with
    | none => exact (Reports.option none).congr (by simp)
    | some r =>
      rw [Option.toList_some, List.flatMap_singleton]
      exact (reports_typeErrors _ _ r).congr (by simp)
  have hannots := (reports_annotErrors .method s.name.name x.name.name x.annots).rename
    (g := MethodSite.annot) (fun _ _ h => MethodSite.annot.inj h)
  have hlist : f.methodErrors s x
      = x.input.toList.flatMap (f.typeErrors s.name.name (s.name.name ++ "." ++ x.name.name))
        ++ x.output.toList.flatMap (f.typeErrors s.name.name (s.name.name ++ "." ++ x.name.name))
        ++ annotErrors .method s.name.name x.name.name x.annots := by
    rw [File.methodErrors, List.flatMap_append]
  rw [hlist]
  refine (((htype (fun _ => .input) x.input).append (htype (fun _ => .output) x.output) ?_).append
    hannots ?_).congr fun site e => ?_
  · rintro _ e e' ⟨-, rfl, -⟩ ⟨-, h, -⟩
    cases h
  · rintro _ e e' (⟨-, rfl, -⟩ | ⟨-, rfl, -⟩) ⟨k, h, -⟩ <;> cases h
  · constructor
    · rintro ((⟨-, rfl, r, hr, h, rfl⟩ | ⟨-, rfl, r, hr, h, rfl⟩) | ⟨k, rfl, h⟩)
      · exact ⟨.input hr h, by simp⟩
      · exact ⟨.output hr h, by simp⟩
      · exact ⟨.annot h, by simp⟩
    · rintro ⟨h, hsite⟩
      generalize hcode : e.code = code at h
      cases h with
      | name h => exact absurd rfl hsite
      | input hr h => exact .inl (.inl ⟨(), rfl, _, hr, h, rfl⟩)
      | output hr h => exact .inl (.inr ⟨(), rfl, _, hr, h, rfl⟩)
      | annot h =>
        subst hcode
        exact .inr ⟨_, rfl, h⟩

/-- The methods of a service. -/
theorem reports_methods (s : Service) :
    Reports (fun (p : Nat × MethodSite) e =>
      (∃ x, s.methods[p.1]? = some x ∧ MethodViolation f s p.1 x p.2 e.code e)
        ∧ (p.2 = .name ∨ p.2 ≠ .name))
      ((repeats (·.name.name) s.methods).map
          (fun x => ⟨.duplicateMethod, x.name.loc, x.name.name, s.name.name⟩)
        ++ s.methods.flatMap (f.methodErrors s)) := by
  -- the same for the methods of a service
  refine Reports.members s.methods (by simp) (fun j x e => ?_) (reports_methodErrors s)
  constructor
  · intro h
    generalize e.code = code at h
    cases h with
    | name h => exact ⟨h, rfl⟩
  · rintro ⟨h, rfl⟩
    exact .name h

/-- A service reports its annotations and its methods. -/
theorem reports_serviceErrors (s : Service) :
    Reports (own (ServiceViolation f s)) (f.serviceErrors s) := by
  have hannots := (reports_annotErrors .service f.packageName s.name.name s.annots).rename
    (g := ServiceSite.annot) fun _ _ h => ServiceSite.annot.inj h
  have hmethods := (reports_methods (f := f) s).rename (g := fun p => ServiceSite.method p.1 p.2)
    fun _ _ h => Prod.ext (ServiceSite.method.inj h).1 (ServiceSite.method.inj h).2
  rw [File.serviceErrors, List.append_assoc]
  refine (hannots.append hmethods ?_).congr fun site e => ?_
  · -- an annotation is no method
    rintro _ e e' ⟨k, rfl, -⟩ ⟨p, hp, -⟩
    cases hp
  · constructor
    · rintro (⟨k, rfl, h⟩ | ⟨p, rfl, ⟨x, hx, h⟩, -⟩)
      · exact .annot h
      · exact .method hx h
    · intro h
      cases h with
      | annot h => exact .inl ⟨_, rfl, h⟩
      | @method j _ x site _ hx h => exact .inr ⟨(j, site), rfl, ⟨x, hx, h⟩, em _⟩

/-! ## §6 The whole file -/

namespace File

/-- The package is reported once, if some part of its name does not begin with a letter. -/
theorem reports_packageErrors :
    Reports (fun (_ : Unit) e => ∃ p, f.package = some p
      ∧ (∃ part ∈ p.name.parts, ¬ ∃ c r, part.name = c :: r ∧ Bytes.isLetter c = true)
      ∧ e = ⟨.invalidPackage, p.name.loc, p.name.dotted, []⟩) f.packageErrors := by
  -- what the check asks of the first byte
  have hpart (name : Bytes) :
      name.head?.any Bytes.isLetter = true ↔ ∃ c r, name = c :: r ∧ Bytes.isLetter c = true := by
    cases name <;> simp
  unfold packageErrors
  cases f.package with
  | none => exact (Reports.option none).congr (by simp)
  | some p =>
    dsimp only
    split
    · next h =>
      simp only [List.all_eq_true, hpart] at h
      refine (Reports.option none).congr fun _ e => ?_
      constructor
      · nofun
      · rintro ⟨p', hp, ⟨part, hmem, hne⟩, -⟩
        cases hp
        exact absurd (h part hmem) hne
    · next h =>
      simp only [List.all_eq_true, hpart, not_forall] at h
      obtain ⟨part, hmem, hne⟩ := h
      refine (Reports.option (some _)).congr fun _ e => ?_
      constructor
      · rintro ⟨⟩
        exact ⟨p, rfl, ⟨part, hmem, hne⟩, rfl⟩
      · rintro ⟨p', hp, -, rfl⟩
        cases hp
        rfl

/-- A setting is reported when its name occurs before. -/
theorem reports_optionErrors :
    Reports (fun i e => Violation f (.setting i) e.code e) f.optionErrors := by
  have h := Reports.repeats (fun o : Setting => o.name.dotted)
    (fun o => some (SchemaError.mk .repeatedOption o.loc o.name.dotted f.packageName)) f.options
  rw [List.filterMap_eq_map'] at h
  refine h.congr fun i e => ?_
  constructor
  · rintro ⟨o, ho, hearlier, he⟩
    cases he
    exact .setting ho hearlier
  · intro h
    generalize e.code = code at h
    cases h with
    | setting ho hearlier => exact ⟨_, ho, hearlier, rfl⟩

/-- A declaration is reported against the first one of its name. -/
theorem reports_declErrors :
    Reports (fun i e => Violation f (.decl i) e.code e) f.declErrors := by
  refine (Reports.repeats _ _ f.decls).congr fun i e => ?_
  simp only [Option.map_eq_some_iff, declared?_eq_some_iff]
  constructor
  · rintro ⟨d, hd, hearlier, _, ⟨earlier, hfirst, rfl⟩, rfl⟩
    have htake := firstOf_take_iff.mpr ⟨hearlier, hfirst⟩
    -- two of a kind are duplicates, a message and a service are in conflict
    by_cases hkind : d.kind = earlier.kind
    · rw [if_pos hkind]
      exact .duplicate hd htake hkind
    · rw [if_neg hkind]
      exact .conflict hd htake hkind
  · intro h
    generalize e.code = code at h
    cases h with
    | duplicate hd hfirst hkind =>
      obtain ⟨hearlier, hfirst⟩ := firstOf_take_iff.mp hfirst
      exact ⟨_, hd, hearlier, _, ⟨_, hfirst, rfl⟩, by rw [if_pos hkind]⟩
    | conflict hd hfirst hkind =>
      obtain ⟨hearlier, hfirst⟩ := firstOf_take_iff.mp hfirst
      exact ⟨_, hd, hearlier, _, ⟨_, hfirst, rfl⟩, by rw [if_neg hkind]⟩

/-- The errors before they are sorted. -/
theorem reports_all :
    Reports (own (Violation f)) (f.packageErrors ++ f.optionErrors ++ f.declErrors
      ++ f.messages.flatMap f.messageErrors ++ f.services.flatMap f.serviceErrors) := by
  -- the errors of each part are told apart by their sites
  have hpackage := (reports_packageErrors (f := f)).rename (g := fun _ => Site.package)
    fun _ _ _ => rfl
  have hsettings := (reports_optionErrors (f := f)).rename (g := Site.setting)
    fun _ _ h => Site.setting.inj h
  have hdecls := (reports_declErrors (f := f)).rename (g := Site.decl) fun _ _ h => Site.decl.inj h
  have hmessages := (Reports.flatMap' f.messages fun _ m => reports_messageErrors (f := f) m).rename
    (g := fun p => Site.message p.1 p.2)
    fun _ _ h => Prod.ext (Site.message.inj h).1 (Site.message.inj h).2
  have hservices := (Reports.flatMap' f.services fun _ s => reports_serviceErrors (f := f) s).rename
    (g := fun p => Site.service p.1 p.2)
    fun _ _ h => Prod.ext (Site.service.inj h).1 (Site.service.inj h).2
  refine ((((hpackage.append hsettings ?_).append hdecls ?_).append hmessages ?_).append
    hservices ?_).congr fun σ e => ?_
  · rintro σ e e' ⟨_, rfl, -⟩ ⟨_, h, -⟩
    cases h
  · rintro σ e e' (⟨_, rfl, -⟩ | ⟨_, rfl, -⟩) ⟨_, h, -⟩ <;> cases h
  · rintro σ e e' ((⟨_, rfl, -⟩ | ⟨_, rfl, -⟩) | ⟨_, rfl, -⟩) ⟨_, h, -⟩ <;> cases h
  · rintro σ e e' (((⟨_, rfl, -⟩ | ⟨_, rfl, -⟩) | ⟨_, rfl, -⟩) | ⟨_, rfl, -⟩) ⟨_, h, -⟩ <;> cases h
  · constructor
    · rintro ((((⟨_, rfl, p, hp, hpart, rfl⟩ | ⟨_, rfl, h⟩) | ⟨_, rfl, h⟩) | ⟨_, rfl, m, hm, h⟩)
        | ⟨_, rfl, s, hs, h⟩)
      · exact .package hp hpart
      · exact h
      · exact h
      · exact .message hm h
      · exact .service hs h
    · intro h
      cases σ with
      | package =>
        dsimp only [own] at h
        generalize e.code = code at h
        cases h with
        | package hp hpart => exact .inl (.inl (.inl (.inl ⟨(), rfl, _, hp, hpart, rfl⟩)))
      | setting i => exact .inl (.inl (.inl (.inr ⟨i, rfl, h⟩)))
      | decl i => exact .inl (.inl (.inr ⟨i, rfl, h⟩))
      | message i site =>
        cases h with
        | message hm h => exact .inl (.inr ⟨(i, site), rfl, _, hm, h⟩)
      | service i site =>
        cases h with
        | service hs h => exact .inr ⟨(i, site), rfl, _, hs, h⟩

/-- The order of reports, as it is read. -/
theorem reportOrder_iff {a b : SchemaError} :
    reportOrder SchemaError.loc SchemaError.code a b = true
      ↔ a.loc.span.start < b.loc.span.start
        ∨ a.loc.span.start = b.loc.span.start ∧ a.code ≤ b.code := by
  simp [reportOrder]

theorem pairwise_sortErrors (l : List SchemaError) :
    (sortErrors l).Pairwise fun a b => a.loc.span.start < b.loc.span.start
      ∨ a.loc.span.start = b.loc.span.start ∧ a.code ≤ b.code := by
  unfold sortErrors
  refine (List.pairwise_mergeSort ?_ ?_ l).imp reportOrder_iff.mp
  · intro a b c hab hbc
    rw [reportOrder_iff] at *
    omega
  · intro a b
    rw [Bool.or_eq_true, reportOrder_iff, reportOrder_iff]
    omega

theorem compile_errors (f : File) (sourcePath : Bytes) :
    (f.compile sourcePath).errors = f.errors := by
  unfold Compilation.errors compile
  by_cases h : f.errors.isEmpty = true
  · simp_all
  · simp_all

/-- The errors of a compilation are the violations, one for each place where there is one, in the
order of reports; there is a schema exactly if there are none. -/
theorem compile_errors_exact (f : File) (sourcePath : Bytes) :
    ((∀ s, (f.compile sourcePath).outcome ≠ .ok s) ↔ (f.compile sourcePath).errors ≠ [])
      ∧ (f.compile sourcePath).errors.Pairwise (fun a b => a.loc.span.start < b.loc.span.start
        ∨ a.loc.span.start = b.loc.span.start ∧ a.code ≤ b.code)
      ∧ ∃ reports : List (Site × SchemaError), (reports.map (·.1)).Nodup
        ∧ (∀ σ e, (σ, e) ∈ reports ↔ Violation f σ e.code e)
        ∧ (f.compile sourcePath).errors.Perm (reports.map (·.2)) := by
  rw [compile_errors]
  refine ⟨?_, pairwise_sortErrors _, ?_⟩
  · unfold compile
    by_cases h : f.errors = []
    · simp [h]
    · simp [h]
  · -- the order of the errors is a permutation of the reports
    obtain ⟨reports, hnodup, hmem, hperm⟩ := reports_all (f := f)
    exact ⟨reports, hnodup, hmem, (List.mergeSort_perm _ _).trans hperm⟩

end File

end Tree

end Idl
