import Idl.Compile
import Idl.Proofs.Compile.Misuse
import Idl.Proofs.Compile.WellFormed
import Idl.Proofs.Schema.Sourced
import Idl.Proofs.Tree.Rewording

/-!
# What trees mean that differ in documentation

If nothing is wrong with a file, nothing is wrong with one that is akin to it, and what the two mean
differs in the texts of documentation at most. All constants and places of what a file means can be
written as text.

* §1 constants and arguments, §2 one annotation, §3 the annotations of one thing,
* §4 names and types, §5 numbers, §6 violations.
-/

namespace Idl

namespace Tree

variable {K : Rewording}

/-! ## §1 Constants and arguments -/

/-- An integer that fits a literal fits its field in a document. -/
theorem portable_ofInt {n : Int} (h : fitsLiteral n = true) : (Value.ofInt n).Portable := by
  simp only [fitsLiteral, Bool.and_eq_true, decide_eq_true_eq] at h
  cases n with
  | ofNat n =>
    change (if n < 2 ^ 63 then Idl.Value.int n else Idl.Value.uint n).Portable
    -- signed up to 2⁶³, unsigned beyond
    split
    · exact ⟨by omega, by omega⟩
    · have hlt := h.2
      rw [Int.ofNat_eq_natCast] at hlt
      change n < 2 ^ 64
      omega
  | negSucc n =>
    exact ⟨h.1, by omega⟩

/-- A number is no name. -/
theorem ofInt_ne_ident (n : Int) (name : Bytes) : Idl.Value.ofInt n ≠ .ident name := by
  cases n with
  | ofNat n =>
    change (if n < 2 ^ 63 then Idl.Value.int n else Idl.Value.uint n) ≠ .ident name
    split <;> nofun
  | negSucc n => nofun

/-- Names are UTF-8. -/
theorem isValid_name {t : Bytes} (h : Bytes.IsName t) : Utf8.isValid t = true :=
  Utf8.isValid_of_ascii fun c hc => Bytes.ascii_of_isWord (h.octets c hc)

/-- The parts of a dotted name that is akin to another are names. -/
theorem Path.Akin.isName {a b : Path} (h : a.Akin b) : ∀ i ∈ a.parts, Bytes.IsName i.name := by
  refine List.forall_mem_cons.mpr ⟨h.first.word, ?_⟩
  have hmore := h.more
  generalize a.more = l, b.more = m at hmore
  induction hmore with
  | nil => nofun
  | cons head tail ih => exact List.forall_mem_cons.mpr ⟨head.word, ih⟩

/-- So the whole of it is UTF-8. -/
theorem Path.Akin.isValid_dotted {a b : Path} (h : a.Akin b) : Utf8.isValid a.dotted = true := by
  refine Utf8.isValid_of_ascii (Bytes.forall_mem_join (Bytes.ascii_of_all rfl) fun t ht => ?_)
  obtain ⟨i, hi, rfl⟩ := List.mem_map.mp ht
  exact fun c hc => Bytes.ascii_of_isWord ((h.isName i hi).octets c hc)

/-- Constants that are akin have one value, which a source can write. -/
theorem Constant.Akin.lower {a b : Constant} (h : a.Akin b) :
    b.lower = a.lower ∧ a.lower.Sourced := by
  cases h with
  | @int a b h =>
    refine ⟨congrArg Idl.Value.ofInt h.value, portable_ofInt h.fits, fun name hname => ?_⟩
    exact absurd hname (ofInt_ne_ident _ _)
  | float h => exact ⟨rfl, h, nofun⟩
  | bool b => exact ⟨rfl, trivial, nofun⟩
  | text h => exact ⟨congrArg Idl.Value.text h, trivial, nofun⟩
  -- a name is compared by its words, between which white space may stand
  | path h =>
    refine ⟨congrArg Idl.Value.ident h.dotted, trivial, ?_⟩
    rintro _ ⟨⟩
    exact h.isValid_dotted

/-- Values that are akin are one value. -/
theorem Value.Akin.lower_eq {a b : Value} (h : a.Akin b) : b.lower = a.lower :=
  (Constant.Akin.lower h).1

/-- And a source can write it. -/
theorem Value.Akin.sourced {a b : Value} (h : a.Akin b) : a.lower.Sourced :=
  (Constant.Akin.lower h).2

/-- The pair of an argument is the same. -/
theorem ArgForm.Akin.pair? {a b : ArgForm} (h : a.Akin b) :
    b.pair? = a.pair? ∧ ∀ p ∈ a.pair?, p.Sourced := by
  cases h with
  -- it has no key
  | positional h => exact ⟨rfl, fun p hp => by cases hp⟩
  | flag h =>
    refine ⟨by rw [ArgForm.pair?, h.name]; rfl, fun p hp => ?_⟩
    cases hp
    exact ⟨isValid_name h.word, trivial, fun v hv => by cases hv⟩
  | pair hkey hvalue =>
    refine ⟨by rw [ArgForm.pair?, hkey.name, hvalue.lower_eq]; rfl, fun p hp => ?_⟩
    cases hp
    exact ⟨isValid_name hkey.word, hvalue.sourced⟩

/-- So is the value without a key. -/
theorem ArgForm.Akin.positional? {a b : ArgForm} (h : a.Akin b) :
    b.positional? = a.positional? ∧ ∀ v ∈ a.positional?, v.Sourced := by
  cases h with
  | positional h =>
    refine ⟨congrArg some h.lower_eq, fun v hv => ?_⟩
    cases hv
    exact h.sourced
  | flag h => exact ⟨rfl, nofun⟩
  | pair hkey hvalue => exact ⟨rfl, nofun⟩

/-- A text alone is no pair. -/
theorem Arg.Says.pair? {x : Arg} {t : Bytes} (h : x.Says t) : x.form.pair? = none := by
  obtain ⟨v, lit, hform, -, -⟩ := h
  rw [hform]
  rfl

/-- It is the value without a key. -/
theorem Arg.Says.positional? {x : Arg} {t : Bytes} (h : x.Says t) :
    x.form.positional? = some (.text t) := by
  obtain ⟨v, lit, hform, hconstant, hvalue⟩ := h
  rw [hform, ArgForm.positional?, Value.lower, hconstant, Constant.lower, hvalue]

/-- What is picked from arguments that are akin is the same. -/
theorem filterMap_eq_of_forall₂ {α : Type} {P : α → Prop} {pick : ArgForm → Option α}
    (hpick : ∀ {a b : ArgForm}, a.Akin b → pick b = pick a ∧ ∀ x ∈ pick a, P x) {l m : List Arg}
    (h : List.Forall₂ Arg.Akin l m) :
    (m.map (·.form)).filterMap pick = (l.map (·.form)).filterMap pick
      ∧ ∀ x ∈ (l.map (·.form)).filterMap pick, P x := by
  induction h with
  | nil => exact ⟨rfl, nofun⟩
  | @cons a b l m head tail ih =>
    obtain ⟨heq, hP⟩ := hpick head
    simp only [List.map_cons, List.filterMap_cons, heq, ih.1, true_and]
    -- an argument is picked on both sides or on none
    cases ha : pick a.form with
    | none => exact ih.2
    | some x => exact List.forall_mem_cons.mpr ⟨hP x ha, ih.2⟩

/-! ## §2 One annotation -/

end Tree

/-- What an annotation of a source can say. -/
def Meaning.Sourced : Meaning → Prop
  | .doc _ => True
  | .source p => p.Portable
  | .codegen a _ _ => a.Sourced
  | .other a => a.Sourced

/-- The same meaning, or the new text in place of the old one. -/
inductive Meaning.Akin (K : Rewording) : Nat → Meaning → Meaning → Prop where
  | same (m : Meaning) : Akin K 0 m m
  | doc : Akin K 1 (.doc K.old) (.doc K.new)

/-- A coordinate that was accepted fits. -/
theorem setCoordinate_portable {p q : Pos} {x : Pair} (hp : p.Portable)
    (h : setCoordinate p x = .ok q) : q.Portable := by
  unfold setCoordinate at h
  split at h
  · cases h
  · split at h
    · cases h
    next hlt =>
    -- the line, the column, or another key
    split at h
    · cases h
      exact ⟨by dsimp only; omega, hp.col⟩
    · split at h
      · cases h
        exact ⟨hp.line, by dsimp only; omega⟩
      · cases h

/-- A place read from an annotation fits. -/
theorem sourceOf_portable {a : Annot} {p : Pos} (h : sourceOf a = .ok p) : p.Portable := by
  -- by induction on the pairs: each one sets a coordinate, beginning from one that fits
  have hfold (l : List Pair) (q : Pos) (hq : q.Portable) (h : l.foldlM setCoordinate q = .ok p) :
      p.Portable := by
    induction l generalizing q with
    | nil =>
      cases h
      exact hq
    | cons x l ih =>
      rw [List.foldlM_cons] at h
      cases hx : setCoordinate q x with
      | error e =>
        rw [hx] at h
        cases h
      | ok q' =>
        rw [hx] at h
        exact ih q' (setCoordinate_portable hq hx) h
  unfold sourceOf at h
  split at h
  · cases h
  · -- no coordinate is set at the start
    exact hfold _ _ ⟨by decide, by decide⟩ h

namespace Tree

namespace Annot

variable {a b : Annot} {i : Nat} {target : Target}

/-- The pairs of an annotation are the same. -/
theorem Akin.named (h : a.Akin K i b) : b.named = a.named ∧ ∀ p ∈ a.named, p.Sourced := by
  have hargs := h.args
  unfold Annot.named
  generalize a.args = l, b.args = m at hargs
  cases hargs with
  | same hsame => exact filterMap_eq_of_forall₂ ArgForm.Akin.pair? hsame
  | @swap x y l m old new hsame =>
    rw [List.map_cons, List.map_cons, List.filterMap_cons_none old.pair?,
      List.filterMap_cons_none new.pair?]
    exact filterMap_eq_of_forall₂ ArgForm.Akin.pair? hsame

/-- The values without a name are the same, or one begins with the old text and the other with the
new one. -/
theorem Akin.positional (h : a.Akin K i b) :
    (∀ v ∈ a.positional, v.Sourced) ∧ (i = 0 ∧ b.positional = a.positional
      ∨ i = 1 ∧ ∃ l, a.positional = .text K.old :: l ∧ b.positional = .text K.new :: l) := by
  have hargs := h.args
  unfold Annot.positional
  generalize a.args = l, b.args = m at hargs
  cases hargs with
  | same hsame =>
    obtain ⟨heq, hsourced⟩ := filterMap_eq_of_forall₂ ArgForm.Akin.positional? hsame
    exact ⟨hsourced, .inl ⟨rfl, heq⟩⟩
  -- the text that differs is the first argument
  | @swap x y l m old new hsame =>
    obtain ⟨heq, hsourced⟩ := filterMap_eq_of_forall₂ ArgForm.Akin.positional? hsame
    rw [List.map_cons, List.map_cons, List.filterMap_cons_some old.positional?,
      List.filterMap_cons_some new.positional?, heq]
    exact ⟨List.forall_mem_cons.mpr ⟨⟨trivial, nofun⟩, hsourced⟩, .inr ⟨rfl, _, rfl, rfl⟩⟩

/-- An annotation that passes its checks holds what a source can write. -/
theorem Akin.sourced_lower (h : a.Akin K i b) {x : Idl.Annot} (hx : a.lower = .ok x) :
    x.Sourced := by
  obtain ⟨-, rfl⟩ := lower_eq_ok_iff.mp hx
  exact ⟨h.name.isValid_dotted, fun v hv => h.positional.1 v (List.mem_of_mem_head? hv), h.named.2⟩

/-- So does its meaning. -/
theorem Akin.sourced_interpret (h : a.Akin K i b) {m : Meaning}
    (hm : a.interpret target = .ok m) : m.Sourced := by
  obtain ⟨x, hlower, hsays⟩ := interpret_eq_ok_iff.mp hm
  have hx := h.sourced_lower hlower
  cases hsays with
  | doc => trivial
  | source _ hp => exact sourceOf_portable hp
  | codegen => exact hx
  | default => exact hx
  | other => exact hx

/-- What is said depends on the name and the arguments. -/
theorem interpret_congr (hname : b.name.dotted = a.name.dotted) (hnamed : b.named = a.named)
    (hpositional : b.positional = a.positional) : b.interpret target = a.interpret target := by
  have hlower : b.lower = a.lower := by
    rw [Annot.lower_eq, Annot.lower_eq, hname, hnamed, hpositional]
  rw [interpret, interpret, hlower, hname]

/-- Documentation whose first argument is a text says that text, or nothing. -/
theorem interpret_of_text (hname : a.name.dotted = Annot.docName) {t : Bytes} {l : List Idl.Value}
    (hpositional : a.positional = .text t :: l) (hcoherent : a.Coherent) :
    a.interpret target = .ok (.doc t) := by
  rw [interpret_of_ok (lower_eq_ok_iff.mpr ⟨hcoherent, rfl⟩), if_pos hname, hpositional]
  rfl

/-- An annotation that says something says the same, or the new text in place of the old one. -/
theorem Akin.exists_interpret (h : a.Akin K i b) {m : Meaning}
    (hm : a.interpret target = .ok m) :
    ∃ m', b.interpret target = .ok m' ∧ m.Akin K i m' := by
  rcases h.positional.2 with ⟨rfl, heq⟩ | ⟨rfl, l, hold, hnew⟩
  · -- nothing is reworded: the same meaning
    exact ⟨m, (interpret_congr h.name.dotted h.named.1 heq).trans hm, .same m⟩
  · -- the text of a documentation is another, and the annotation is as coherent as before
    have hdoc : a.name.dotted = Annot.docName := h.doc one_ne_zero
    obtain ⟨x, hlower, -⟩ := interpret_eq_ok_iff.mp hm
    obtain ⟨hcoherent, -⟩ := lower_eq_ok_iff.mp hlower
    have hcoherent' : b.Coherent := by
      refine ⟨h.named.1 ▸ hcoherent.keys, ?_, ?_⟩
      · rcases hcoherent.apart with hnil | hnil
        · rw [hold] at hnil
          cases hnil
        · exact .inr (h.named.1.trans hnil)
      · have hsingle := hcoherent.single
        rw [hold] at hsingle
        rw [hnew]
        exact hsingle
    rw [interpret_of_text hdoc hold hcoherent] at hm
    cases hm
    exact ⟨_, interpret_of_text (h.name.dotted.trans hdoc) hnew hcoherent', .doc⟩

end Annot

/-! ## §3 The annotations of one thing -/

/-- Nothing is wrong with annotations exactly if each of them says something. -/
theorem annotErrors_eq_nil_iff {target : Target} {scope entity : Bytes} {l : List Annot} :
    annotErrors target scope entity l = [] ↔ ∀ n ∈ l, ∃ m, n.interpret target = .ok m := by
  rw [annotErrors, List.filterMap_eq_nil_iff]
  refine forall₂_congr fun n _ => ?_
  cases n.interpret target <;> simp

/-- What annotations say. -/
def said (target : Target) (l : List Annot) : List Meaning :=
  l.filterMap fun n => (n.interpret target).toOption

section Said

variable {target : Target} {scope entity : Bytes} {i : Nat} {l m : List Annot}

/-- What is said among annotations that are akin. -/
theorem sourced_of_mem_said (target : Target) (h : Summed (Annot.Akin K) i l m) :
    ∀ x ∈ said target l, x.Sourced := by
  intro x hx
  obtain ⟨n, hn, hsaid⟩ := List.mem_filterMap.mp hx
  obtain ⟨k, n', -, hakin⟩ := h.exists_of_mem hn
  cases hinterpret : n.interpret target with
  -- an annotation that is refused says nothing
  | error e =>
    rw [hinterpret] at hsaid
    cases hsaid
  | ok y =>
    rw [hinterpret] at hsaid
    cases hsaid
    exact hakin.sourced_interpret hinterpret

/-- The annotations kept and the place recorded can be written by a source. -/
theorem sourced_meanings (h : Summed (Annot.Akin K) i l m) :
    (∀ a ∈ (meanings target l).annots, a.Sourced)
      ∧ ∀ p ∈ (meanings target l).source, p.Portable := by
  have hsaid := sourced_of_mem_said target h
  refine ⟨fun a ha => ?_, fun p hp => ?_⟩
  · -- only two kinds of meaning keep the annotation
    obtain ⟨x, hx, hannot⟩ := List.mem_filterMap.mp ha
    have hsourced := hsaid x hx
    cases x with
    | codegen =>
      cases hannot
      exact hsourced
    | other =>
      cases hannot
      exact hsourced
    | _ => cases hannot
  · -- and one records a place
    obtain ⟨x, hx, hsource⟩ := List.mem_filterMap.mp (List.mem_of_getLast? hp)
    have hsourced := hsaid x hx
    cases x with
    | source =>
      cases hsource
      exact hsourced
    | _ => cases hsource

/-- Annotations without errors have none after rewording. -/
theorem annotErrors_eq_nil_of_akin (h : Summed (Annot.Akin K) i l m)
    (hl : annotErrors target scope entity l = []) {scope' entity' : Bytes} :
    annotErrors target scope' entity' m = [] := by
  refine annotErrors_eq_nil_iff.mpr fun n' hn' => ?_
  obtain ⟨k, n, hn, hakin⟩ := h.exists_of_mem_right hn'
  obtain ⟨x, hx⟩ := annotErrors_eq_nil_iff.mp hl n hn
  obtain ⟨x', hx', -⟩ := hakin.exists_interpret hx
  exact ⟨x', hx'⟩

/-- The meanings are akin in order, when no annotation is in error. -/
theorem summed_said (h : Summed (Annot.Akin K) i l m)
    (hl : ∀ n ∈ l, ∃ x, n.interpret target = .ok x) :
    Summed (Meaning.Akin K) i (said target l) (said target m) := by
  induction h with
  | nil => exact .nil
  | cons head tail ih =>
    obtain ⟨⟨x, hx⟩, hl⟩ := List.forall_mem_cons.mp hl
    obtain ⟨x', hx', hakin⟩ := head.exists_interpret hx
    simp only [said, List.filterMap_cons, hx, hx', Except.toOption]
    exact .cons hakin (ih hl)

/-- The documentation differs in the texts that are counted; the annotations that are kept are the
same. -/
theorem meanings_akin (h : Summed (Annot.Akin K) i l m)
    (hl : annotErrors target scope entity l = []) :
    Summed (DocAkin K) i (meanings target l).docs (meanings target m).docs
      ∧ (meanings target m).annots = (meanings target l).annots := by
  have hsaid := summed_said h (annotErrors_eq_nil_iff.mp hl)
  change Summed (DocAkin K) i ((said target l).filterMap Meaning.doc?)
      ((said target m).filterMap Meaning.doc?)
    ∧ (said target m).filterMap Meaning.annot? = (said target l).filterMap Meaning.annot?
  clear h
  generalize said target l = x, said target m = y at hsaid
  -- by induction on what is said; each meaning is the same, or a text that is reworded
  induction hsaid with
  | nil => exact ⟨.nil, rfl⟩
  | @cons j k a b x y head tail ih =>
    cases head with
    | same _ =>
      refine ⟨?_, by rw [List.filterMap_cons, List.filterMap_cons, ih.2]⟩
      rw [List.filterMap_cons, List.filterMap_cons]
      cases a.doc? with
      -- a meaning that documents nothing
      | none =>
        rw [Nat.zero_add]
        exact ih.1
      | some t => exact .cons (.same t) ih.1
    | doc => exact ⟨.cons .swap ih.1, ih.2⟩

end Said

/-! ## §4 Names and types -/

/-- The parts of dotted names that are akin. -/
theorem Path.Akin.parts {a b : Path} (h : a.Akin b) :
    List.Forall₂ Ident.Akin a.parts b.parts :=
  .cons h.first h.more

/-- A declaration keeps its name. -/
theorem Decl.Akin.name {i : Nat} {a b : Decl} (h : a.Akin K i b) : a.name.Akin b.name := by
  cases h with
  | message h =>
    cases h with
    | mk place annots name fields => exact name
  | service h =>
    cases h with
    | mk place annots name methods => exact name

/-- And its kind. -/
theorem Decl.Akin.kind {i : Nat} {a b : Decl} (h : a.Akin K i b) : b.kind = a.kind := by
  cases h <;> rfl

/-- The messages and the services of declarations that are akin. -/
theorem summed_decls {i : Nat} {l m : List Decl} (h : Summed (Decl.Akin K) i l m) :
    ∃ j k, i = j + k
      ∧ Summed (Message.Akin K) j (l.filterMap Decl.message?) (m.filterMap Decl.message?)
      ∧ Summed (Service.Akin K) k (l.filterMap Decl.service?) (m.filterMap Decl.service?) := by
  induction h with
  | nil => exact ⟨0, 0, rfl, .nil, .nil⟩
  | cons head tail ih =>
    obtain ⟨j, k, rfl, hmessages, hservices⟩ := ih
    cases head with
    | message h => exact ⟨_, _, (Nat.add_assoc ..).symm, .cons h hmessages, hservices⟩
    | service h => exact ⟨_, _, Nat.add_left_comm .., hmessages, .cons h hservices⟩

namespace File

variable {f f' : File} {i : Nat}

/-- A file keeps the name of its package. -/
theorem Akin.packageName (h : f.Akin K i f') : f'.packageName = f.packageName := by
  have hpackage := h.package
  unfold File.packageName
  generalize f.package = p, f'.package = q at hpackage
  cases hpackage with
  | none => rfl
  | some h => exact congrArg (fun n => Option.getD (some n) []) h.dotted

/-- The same names are declared. -/
theorem Akin.declared? (h : f.Akin K i f') (name : Bytes) :
    f'.declared? name = f.declared? name := by
  have hdecls := h.decls
  unfold File.declared?
  -- the induction is on the declarations alone
  clear h
  generalize f.decls = l, f'.decls = m at hdecls
  induction hdecls with
  | nil => rfl
  | cons head tail ih =>
    rw [List.find?_cons, List.find?_cons, head.name.name]
    split
    · exact congrArg some head.kind
    · exact ih

/-- A type is resolved to the same declaration. -/
theorem Akin.resolve? (h : f.Akin K i f') {r r' : TypeRef} (hr : r.name.Akin r'.name) :
    f'.resolve? r' = f.resolve? r := by
  have hmore : r'.name.more.isEmpty = r.name.more.isEmpty := by
    rw [Bool.eq_iff_iff, List.isEmpty_iff_length_eq_zero, List.isEmpty_iff_length_eq_zero,
      hr.more.length_eq]
  unfold File.resolve?
  rw [h.packageName, hr.first.name, hr.dotted, hmore]
  simp only [h.declared?]

/-- And lowered to the same type. -/
theorem Akin.typeOf (h : f.Akin K i f') {r r' : TypeRef} (hr : r.name.Akin r'.name) :
    f'.typeOf r' = f.typeOf r := by
  rw [File.typeOf, File.typeOf, h.resolve? hr]

end File

/-! ## §5 Numbers -/

/-- Fields with the same number of their own, or without one. -/
def Field.SameNumber (x y : Field) : Prop := Option.Rel IntLit.Akin x.number y.number

/-- A field has a number in both files or in none. -/
theorem Field.SameNumber.isSome {x y : Field} (h : x.SameNumber y) :
    y.number.isSome = x.number.isSome := by
  unfold Field.SameNumber at h
  generalize x.number = p, y.number = q at h
  cases h <;> rfl

/-- The same number, when it has one. -/
theorem Field.SameNumber.explicit? {x y : Field} (h : x.SameNumber y) :
    y.explicit? = x.explicit? := by
  unfold Field.SameNumber at h
  unfold Field.explicit?
  generalize x.number = p, y.number = q at h
  cases h with
  | none => rfl
  | some h => rw [Option.bind_some, Option.bind_some, h.value]

/-- A number that is free stays free. -/
theorem numberOwner?_eq_none_of_akin {l m : List Field} (h : List.Forall₂ Field.SameNumber l m)
    {n : Nat} (hl : numberOwner? l n = none) : numberOwner? m n = none := by
  have hmap := map_eq_of_forall₂ h fun x y hxy => hxy.explicit?
  have hfree (l : List Field) : numberOwner? l n = none ↔ some n ∉ l.map (·.explicit?) := by
    simp [numberOwner?]
  rw [hfree, hmap]
  exact (hfree l).mp hl

/-- A number given in the source is right if it fits and no field before has it. -/
theorem Message.explicitError?_eq_none_iff {m : Message} {before : List Field} {x : Field} :
    m.explicitError? before x = none ↔ x.number.isSome = false
      ∨ ∃ n, x.explicit? = some n ∧ numberOwner? before.reverse n = none := by
  unfold Message.explicitError?
  cases x.number with
  | none => simp
  | some lit =>
    cases x.explicit? with
    | none => simp
    | some n => cases hn : numberOwner? before.reverse n <;> simp [hn]

/-- A position can be taken as a number if no field of the message has it. -/
theorem Message.automaticError?_eq_none_iff {m : Message} {position : Nat} {x : Field} :
    m.automaticError? position x = none ↔ x.number.isSome = true
      ∨ numberOwner? m.fields position = none := by
  unfold Message.automaticError?
  cases x.number <;> simp

/-- Elements with those in front of them, in lists that are akin. -/
theorem forall₂_earlierFrom {α β : Type} {R : α → β → Prop} {l before : List α} {m before' : List β}
    (h : List.Forall₂ R l m) (hbefore : List.Forall₂ R before before') :
    List.Forall₂ (fun x y => List.Forall₂ R x.1 y.1 ∧ R x.2 y.2) (earlierFrom before l)
      (earlierFrom before' m) := by
  induction h generalizing before before' with
  | nil => exact .nil
  | cons head tail ih => exact .cons ⟨hbefore, head⟩ (ih (.cons head hbefore))

/-- Related lists are related with their indices. -/
theorem forall₂_zipIdx {α β : Type} {R : α → β → Prop} {l : List α} {m : List β}
    (h : List.Forall₂ R l m) (n : Nat) :
    List.Forall₂ (fun x y => R x.1 y.1 ∧ x.2 = y.2) (l.zipIdx n) (m.zipIdx n) := by
  induction h generalizing n with
  | nil => exact .nil
  | cons head tail ih => exact .cons ⟨head, rfl⟩ (ih (n + 1))

/-- Where related elements give nothing together, so do the lists. -/
theorem filterMap_eq_nil_of_forall₂ {α β γ : Type} {R : α → β → Prop} {l : List α} {m : List β}
    {g : α → Option γ} {g' : β → Option γ} (h : List.Forall₂ R l m)
    (hR : ∀ a b, R a b → g a = none → g' b = none) (hl : l.filterMap g = []) :
    m.filterMap g' = [] := by
  induction h with
  | nil => rfl
  | @cons a b l m head tail ih =>
    obtain ⟨ha, hl⟩ := List.forall_mem_cons.mp (List.filterMap_eq_nil_iff.mp hl)
    rw [List.filterMap_cons_none (hR a b head ha), ih (List.filterMap_eq_nil_iff.mpr hl)]

/-- Numbers without errors have none after rewording. -/
theorem Message.numberErrors_eq_nil_of_akin {m m' : Message}
    (h : List.Forall₂ Field.SameNumber m.fields m'.fields) (hm : m.numberErrors = []) :
    m'.numberErrors = [] := by
  unfold Message.numberErrors at hm ⊢
  rw [withEarlier_eq, List.append_eq_nil_iff] at hm ⊢
  obtain ⟨hexplicit, hautomatic⟩ := hm
  refine ⟨filterMap_eq_nil_of_forall₂ (forall₂_earlierFrom h .nil) ?_ hexplicit, ?_⟩
  · -- numbers of their own, against the fields before
    rintro ⟨before, x⟩ ⟨before', y⟩ ⟨hbefore, hxy⟩ hx
    rw [explicitError?_eq_none_iff, hxy.isSome, hxy.explicit?]
    refine (explicitError?_eq_none_iff.mp hx).imp_right ?_
    rintro ⟨n, hn, hfree⟩
    exact ⟨n, hn, numberOwner?_eq_none_of_akin (List.rel_reverse hbefore) hfree⟩
  · -- positions, against all fields
    unfold Message.numbered at hautomatic ⊢
    rw [List.filterMap_map] at hautomatic ⊢
    refine filterMap_eq_nil_of_forall₂ (forall₂_zipIdx h 0) ?_ hautomatic
    rintro ⟨x, n⟩ ⟨y, n'⟩ ⟨hxy, rfl⟩ hx
    change m'.automaticError? (n + 1) y = none
    rw [automaticError?_eq_none_iff, hxy.isSome]
    exact (automaticError?_eq_none_iff.mp hx).imp_right (numberOwner?_eq_none_of_akin h)

/-! ## §6 Violations -/

namespace File

variable {f f' : File} {i j : Nat}

/-- A type is in error if it is not resolved. -/
theorem typeErrors_eq_nil_iff {scope entity : Bytes} {r : TypeRef} :
    f.typeErrors scope entity r = [] ↔ (f.resolve? r).isSome = true := by
  unfold File.typeErrors
  split <;> simp_all

/-- A field without errors has none after rewording. -/
theorem Akin.fieldErrors_eq_nil (h : f.Akin K i f') {m m' : Message} {x y : Field}
    (hxy : x.Akin K j y) (hx : f.fieldErrors m x = []) : f'.fieldErrors m' y = [] := by
  obtain ⟨htype, hannots⟩ := List.append_eq_nil_iff.mp hx
  refine List.append_eq_nil_iff.mpr ⟨?_, annotErrors_eq_nil_of_akin hxy.annots hannots⟩
  rw [typeErrors_eq_nil_iff, h.resolve? hxy.type]
  exact typeErrors_eq_nil_iff.mp htype

/-- Nor has a message. -/
theorem Akin.messageErrors_eq_nil (h : f.Akin K i f') {m m' : Message} (hmm : m.Akin K j m')
    (hm : f.messageErrors m = []) : f'.messageErrors m' = [] := by
  cases hmm with
  | mk place annots name fields =>
    unfold File.messageErrors at hm ⊢
    simp only [List.append_eq_nil_iff, List.map_eq_nil_iff, List.flatMap_eq_nil_iff,
      repeats_eq_nil_iff] at hm ⊢
    obtain ⟨⟨⟨hannots, hnames⟩, hfields⟩, hnumbers⟩ := hm
    refine ⟨⟨⟨annotErrors_eq_nil_of_akin annots hannots, ?_⟩, fun y hy => ?_⟩, ?_⟩
    · -- the names are the same, so none is repeated
      rw [map_eq_of_forall₂ (fields.forall₂ fun _ _ _ hxy => hxy.name) fun _ _ hxy => hxy.name]
      exact hnames
    · obtain ⟨k, x, hx, hxy⟩ := fields.exists_of_mem_right hy
      exact h.fieldErrors_eq_nil hxy (hfields x hx)
    · -- and so are the numbers
      exact Message.numberErrors_eq_nil_of_akin
        (fields.forall₂ fun _ _ _ hxy => hxy.number) hnumbers

/-- Nor has a method. -/
theorem Akin.methodErrors_eq_nil (h : f.Akin K i f') {s s' : Service} {x y : Method}
    (hxy : x.Akin K j y) (hx : f.methodErrors s x = []) : f'.methodErrors s' y = [] := by
  unfold File.methodErrors at hx ⊢
  simp only [List.append_eq_nil_iff, List.flatMap_eq_nil_iff, List.mem_append, Option.mem_toList,
    typeErrors_eq_nil_iff] at hx ⊢
  obtain ⟨htypes, hannots⟩ := hx
  -- the input and the answer are missing in both files or resolved in both
  have hresolves {o o' : Option TypeRef}
      (ho : Option.Rel (fun s t : TypeRef => s.name.Akin t.name) o o')
      (hall : ∀ r ∈ o, (f.resolve? r).isSome = true) :
      ∀ r ∈ o', (f'.resolve? r).isSome = true := by
    rintro r' hr'
    cases ho with
    | none => cases hr'
    | some hr =>
      cases hr'
      rw [h.resolve? hr]
      exact hall _ rfl
  refine ⟨fun r hr => ?_, annotErrors_eq_nil_of_akin hxy.annots hannots⟩
  rcases hr with hr | hr
  · exact hresolves hxy.input (fun r hr => htypes r (.inl hr)) r hr
  · exact hresolves hxy.output (fun r hr => htypes r (.inr hr)) r hr

/-- Nor has a service. -/
theorem Akin.serviceErrors_eq_nil (h : f.Akin K i f') {s s' : Service} (hss : s.Akin K j s')
    (hs : f.serviceErrors s = []) : f'.serviceErrors s' = [] := by
  cases hss with
  | mk place annots name methods =>
    unfold File.serviceErrors at hs ⊢
    simp only [List.append_eq_nil_iff, List.map_eq_nil_iff, List.flatMap_eq_nil_iff,
      repeats_eq_nil_iff] at hs ⊢
    obtain ⟨⟨hannots, hnames⟩, hmethods⟩ := hs
    refine ⟨⟨annotErrors_eq_nil_of_akin annots hannots, ?_⟩, fun y hy => ?_⟩
    · -- the names are the same, so none is repeated
      rw [map_eq_of_forall₂ (methods.forall₂ fun _ _ _ hxy => hxy.name) fun _ _ hxy => hxy.name]
      exact hnames
    · obtain ⟨k, x, hx, hxy⟩ := methods.exists_of_mem_right hy
      exact h.methodErrors_eq_nil hxy (hmethods x hx)

/-- Nor has the package. -/
theorem Akin.packageErrors_eq_nil (h : f.Akin K i f') (hf : f.packageErrors = []) :
    f'.packageErrors = [] := by
  have hpackage := h.package
  unfold File.packageErrors at hf ⊢
  generalize f.package = p, f'.package = q at hpackage hf
  cases hpackage with
  | none => rfl
  | @some p q hpq =>
    have hnames : q.name.parts.map (·.name) = p.name.parts.map (·.name) :=
      map_eq_of_forall₂ hpq.parts fun i j hij => hij.name
    -- the check reads the names of the parts only
    have hletters (l : List Ident) : (l.all fun part => part.name.head?.any Bytes.isLetter)
        = (l.map (·.name)).all fun name => name.head?.any Bytes.isLetter := by
      rw [List.all_map]
      rfl
    dsimp only at hf ⊢
    rw [hletters, hnames, ← hletters]
    split at hf
    · next hall => rw [if_pos hall]
    · cases hf

/-- Nor have the settings. -/
theorem Akin.optionErrors_eq_nil (h : f.Akin K i f') (hf : f.optionErrors = []) :
    f'.optionErrors = [] := by
  unfold File.optionErrors at hf ⊢
  rw [List.map_eq_nil_iff, repeats_eq_nil_iff] at hf ⊢
  rw [map_eq_of_forall₂ h.options fun o o' hoo => hoo.name.dotted]
  exact hf

/-- Nor have the declarations as a whole. -/
theorem Akin.declErrors_eq_nil (h : f.Akin K i f') (hf : f.declErrors = []) :
    f'.declErrors = [] := by
  have hnames : repeats (fun d : Decl => d.name.name) f'.decls = [] := by
    rw [repeats_eq_nil_iff, map_eq_of_forall₂ (h.decls.forall₂ fun _ _ _ hdd => hdd.name)
      fun _ _ hdd => hdd.name]
    exact (names_perm f.decls).nodup_iff.mpr (nodup_names hf)
  rw [File.declErrors, hnames]
  rfl

/-- Nothing is wrong with a file that is akin to one with which nothing is wrong. -/
theorem Akin.errors_eq_nil (h : f.Akin K i f') (hf : f.errors = []) : f'.errors = [] := by
  obtain ⟨hpackage, hoptions, hdecls, hmessages, hservices⟩ := File.errors_eq_nil hf
  obtain ⟨j, k, -, hj, hk⟩ := summed_decls h.decls
  -- each message and each service has one that it is compared with
  have hmessages' : ∀ m ∈ f'.messages, f'.messageErrors m = [] := by
    intro m hm
    obtain ⟨n, m₀, hm₀, hmm⟩ := hj.exists_of_mem_right hm
    exact h.messageErrors_eq_nil hmm (hmessages m₀ hm₀)
  have hservices' : ∀ s ∈ f'.services, f'.serviceErrors s = [] := by
    intro s hs
    obtain ⟨n, s₀, hs₀, hss⟩ := hk.exists_of_mem_right hs
    exact h.serviceErrors_eq_nil hss (hservices s₀ hs₀)
  rw [File.errors, h.packageErrors_eq_nil hpackage, h.optionErrors_eq_nil hoptions,
    h.declErrors_eq_nil hdecls, List.flatMap_eq_nil_iff.mpr hmessages',
    List.flatMap_eq_nil_iff.mpr hservices']
  simp [sortErrors]

end File

end Tree

end Idl
