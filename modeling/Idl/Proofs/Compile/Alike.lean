import Idl.Proofs.Compile.Order
import Idl.Proofs.Compile.Rewording
import Idl.Proofs.Schema.Alike

/-!
# Trees that mean the same

A tree keeps more of a source than counts: in which notation a number stands, whether a type has the
package in front, in which order the named values of an annotation come. Trees are alike if they
agree on all that counts. If nothing is wrong with two such trees, their schemas are alike, and so
the identifiers are the same.

* §1 alike trees, §2 one annotation, §3 the annotations of one thing,
* §4 fields and messages, §5 methods and services, §6 files.
-/

namespace Idl

namespace Tree

/-! ## §1 Alike trees -/

/-- Annotations of one name with the same values; where values have names, their order is free. -/
structure Annot.Alike (a b : Annot) : Prop where
  name : a.name.dotted = b.name.dotted
  positional : a.positional = b.positional
  named : a.named.Perm b.named

/-- An annotation counts unless it says where something was declared. -/
def Annot.counts (a : Annot) : Bool := a.name.dotted != Idl.Annot.sourceName

/-- The same annotations in the same order, as far as they count. -/
def AnnotsAlike (l m : List Annot) : Prop :=
  List.Forall₂ Annot.Alike (l.filter Annot.counts) (m.filter Annot.counts)

theorem Annot.Alike.refl (a : Annot) : a.Alike a := ⟨rfl, rfl, .refl _⟩

theorem AnnotsAlike.refl (l : List Annot) : AnnotsAlike l l :=
  List.forall₂_same.mpr fun a _ => .refl a

theorem AnnotsAlike.append {l m l' m' : List Annot} (h : AnnotsAlike l m)
    (h' : AnnotsAlike l' m') : AnnotsAlike (l ++ l') (m ++ m') := by
  unfold AnnotsAlike at *
  rw [List.filter_append, List.filter_append]
  exact List.rel_append h h'

theorem AnnotsAlike.single {a b : Annot} (h : a.Alike b) : AnnotsAlike [a] [b] := by
  have hcounts : a.counts = b.counts := by rw [Annot.counts, Annot.counts, h.name]
  cases ha : a.counts with
  | true => simp [AnnotsAlike, ha, ← hcounts, h]
  | false => simp [AnnotsAlike, ha, ← hcounts]

/-- The number of a field at a position, as it is written: its own, or else the position. -/
def Field.valueAt (position : Nat) (x : Field) : Int := (x.number.map (·.value)).getD position

section

variable (resolve : TypeRef → Option Ty)

/-- Fields at one position, with the same type as far as references are resolved. -/
structure Field.Alike (position : Nat) (x y : Field) : Prop where
  annots : AnnotsAlike x.annots y.annots
  type : resolve x.type = resolve y.type
  name : x.name.name = y.name.name
  optional : x.isOptional = y.isOptional
  number : x.valueAt position = y.valueAt position

/-- Messages of one name with alike fields. -/
structure Message.Alike (m n : Message) : Prop where
  annots : AnnotsAlike m.annots n.annots
  name : m.name.name = n.name.name
  fields : List.Forall₂ (fun x y => x.1 = y.1 ∧ Field.Alike resolve x.1 x.2 y.2)
    m.numbered n.numbered

/-- Methods of one name with the same types. -/
structure Method.Alike (m n : Method) : Prop where
  annots : AnnotsAlike m.annots n.annots
  name : m.name.name = n.name.name
  input : m.input.map resolve = n.input.map resolve
  output : m.output.map resolve = n.output.map resolve

/-- Services of one name with alike methods. -/
structure Service.Alike (s t : Service) : Prop where
  annots : AnnotsAlike s.annots t.annots
  name : s.name.name = t.name.name
  methods : List.Forall₂ (Method.Alike resolve) s.methods t.methods

/-- Declarations of one kind that are alike. -/
inductive Decl.Alike : Decl → Decl → Prop where
  | message {m n : Message} (h : Message.Alike resolve m n) : Alike (.message m) (.message n)
  | service {s t : Service} (h : Service.Alike resolve s t) : Alike (.service s) (.service t)

end

/-- Files of one package with the same options and alike declarations. -/
structure File.Alike (f g : File) : Prop where
  package : f.packageName = g.packageName
  options : f.lowerOptions = g.lowerOptions
  decls : List.Forall₂ (Decl.Alike f.resolve?) f.decls g.decls

/-! ## §2 One annotation -/

namespace Annot

variable {a b : Annot} {target : Target} {m n : Meaning}

/-- What an annotation says. -/
theorem interpret_cases (h : a.interpret target = .ok m) : ∃ x, a.lower = .ok x ∧
    ((a.name.dotted = Annot.docName ∧ ∃ t, x.value = some (.text t) ∧ m = .doc t)
      ∨ (a.name.dotted = Annot.sourceName ∧ ∃ p, m = .source p)
      ∨ (a.name.dotted ≠ Annot.docName ∧ a.name.dotted ≠ Annot.sourceName
        ∧ m.doc? = none ∧ m.annot? = some x)) := by
  obtain ⟨x, hlower, hsays⟩ := interpret_eq_ok_iff.mp h
  refine ⟨x, hlower, ?_⟩
  cases hsays with
  | doc name text => exact .inl ⟨name, _, text, rfl⟩
  | source name => exact .inr (.inl ⟨name, _, rfl⟩)
  -- a name with a meaning of its own, which is neither of the two
  | codegen name =>
    exact .inr (.inr ⟨name ▸ names_ne.2.1.1, name ▸ names_ne.2.2.1.1, rfl, rfl⟩)
  | default name =>
    exact .inr (.inr ⟨name ▸ names_ne.2.2.2.1.1, name ▸ names_ne.2.2.2.2.1.1, rfl, rfl⟩)
  | other doc source => exact .inr (.inr ⟨doc, source, rfl, rfl⟩)

/-- Named values with different names are the same under each of their names in any order. -/
theorem valuesOf_eq_of_perm {x y : Idl.Annot} (h : x.pairs.Perm y.pairs)
    (hkeys : (x.pairs.map (·.key)).Nodup) (key : Bytes) : x.valuesOf key = y.valuesOf key := by
  have hperm := h.filter (·.key == key)
  -- at most one value has the name, and there is only one order of it
  have hshort : (x.pairs.filter (·.key == key)).length ≤ 1 := by
    rw [← List.countP_eq_length_filter]
    have hcount := List.nodup_iff_count_le_one.mp hkeys key
    rwa [List.count, List.countP_map] at hcount
  unfold Idl.Annot.valuesOf
  congr 1
  generalize x.pairs.filter (·.key == key) = l, y.pairs.filter (·.key == key) = l' at hperm hshort
  match l, hshort with
  | [], _ => exact hperm.nil_eq
  | [p], _ => exact (List.perm_singleton.mp hperm.symm).symm

theorem Alike.lower (h : a.Alike b) {x y : Idl.Annot} (ha : a.lower = .ok x)
    (hb : b.lower = .ok y) : x.Alike y := by
  obtain ⟨hcoherent, rfl⟩ := lower_eq_ok_iff.mp ha
  obtain ⟨-, rfl⟩ := lower_eq_ok_iff.mp hb
  refine ⟨h.name, ?_, fun key => ?_⟩
  · rw [h.positional]
    cases b.positional.head? with
    | none => exact .none
    | some v => exact .some (.refl v)
  · have hvalues := valuesOf_eq_of_perm (x := ⟨a.name.dotted, a.positional.head?, a.named⟩)
      (y := ⟨b.name.dotted, b.positional.head?, b.named⟩) h.named hcoherent.keys key
    rw [hvalues]
    exact List.forall₂_same.mpr fun v _ => .refl v

/-- Alike annotations say alike things: the same documentation, or alike annotations. -/
theorem Alike.interpret (h : a.Alike b) (ha : a.interpret target = .ok m)
    (hb : b.interpret target = .ok n) :
    m.doc? = n.doc? ∧ Option.Rel Idl.Annot.Alike m.annot? n.annot? := by
  obtain ⟨x, hx, hm⟩ := interpret_cases ha
  obtain ⟨y, hy, hn⟩ := interpret_cases hb
  have hxy := h.lower hx hy
  rw [← h.name] at hn
  -- the same name on both sides, so both are documentation, a source or an annotation
  rcases hm with ⟨hname, t, ht, rfl⟩ | ⟨hname, p, rfl⟩ | ⟨hdoc, hsource, hdoc', hannot⟩
  · -- documentation
    rcases hn with ⟨-, u, hu, rfl⟩ | ⟨hname', -⟩ | ⟨hdoc, -⟩
    · have hvalue := hxy.value
      rw [ht, hu] at hvalue
      cases hvalue with
      | some hvalue =>
        cases hvalue
        exact ⟨rfl, .none⟩
    · exact absurd (hname.symm.trans hname') (by decide)
    · exact absurd hname hdoc
  · rcases hn with ⟨hname', -⟩ | ⟨-, q, rfl⟩ | ⟨-, hsource, -⟩
    · exact absurd (hname.symm.trans hname') (by decide)
    · exact ⟨rfl, .none⟩
    · exact absurd hname hsource
  · rcases hn with ⟨hname, -⟩ | ⟨hname, -⟩ | ⟨-, -, hdoc'', hannot'⟩
    · exact absurd hname hdoc
    · exact absurd hname hsource
    · rw [hdoc', hdoc'', hannot, hannot']
      exact ⟨rfl, .some hxy⟩

end Annot

/-! ## §3 The annotations of one thing -/

section Said

variable {target : Target} {l m : List Annot}

theorem said_cons {a : Annot} {x : Meaning} (hx : a.interpret target = .ok x) :
    said target (a :: l) = x :: said target l := by
  simp only [said, List.filterMap_cons, hx, Except.toOption]

/-- What is picked of meanings does not depend on annotations that do not count. -/
theorem filterMap_said {α : Type} {pick : Meaning → Option α} (hpick : ∀ p, pick (.source p) = none)
    (hl : ∀ a ∈ l, ∃ x, a.interpret target = .ok x) :
    (said target l).filterMap pick = (said target (l.filter Annot.counts)).filterMap pick := by
  induction l with
  | nil => rfl
  | cons a l ih =>
    obtain ⟨⟨x, hx⟩, hl⟩ := List.forall_mem_cons.mp hl
    have ih := ih hl
    by_cases ha : a.counts = true
    · rw [List.filter_cons_of_pos ha, said_cons hx, said_cons hx, List.filterMap_cons,
        List.filterMap_cons, ih]
    · -- such an annotation gives a place, of which nothing is picked
      rw [List.filter_cons_of_neg ha, ← ih]
      have hname : a.name.dotted = Annot.sourceName := by simpa [Annot.counts] using ha
      obtain ⟨y, -, ⟨hdoc, -⟩ | ⟨-, p, rfl⟩ | ⟨-, hsource, -⟩⟩ := Annot.interpret_cases hx
      · exact absurd (hname.symm.trans hdoc) (by decide)
      · rw [said_cons hx, List.filterMap_cons, hpick]
      · exact absurd hname hsource

/-- Alike annotations with which nothing is wrong say the same documentation and leave alike
annotations. -/
theorem AnnotsAlike.meanings (h : AnnotsAlike l m)
    (hl : ∀ a ∈ l, ∃ x, a.interpret target = .ok x)
    (hm : ∀ a ∈ m, ∃ x, a.interpret target = .ok x) :
    (meanings target l).docs = (meanings target m).docs
      ∧ Idl.AnnotsAlike (meanings target l).annots (meanings target m).annots := by
  change (said target l).filterMap Meaning.doc? = (said target m).filterMap Meaning.doc?
    ∧ Idl.AnnotsAlike ((said target l).filterMap Meaning.annot?)
      ((said target m).filterMap Meaning.annot?)
  rw [filterMap_said (fun _ => rfl) hl, filterMap_said (fun _ => rfl) hm,
    filterMap_said (fun _ => rfl) hl, filterMap_said (fun _ => rfl) hm]
  -- only the annotations that count are compared
  have hl' : ∀ a ∈ l.filter Annot.counts, ∃ x, a.interpret target = .ok x :=
    fun a ha => hl a (List.mem_of_mem_filter ha)
  have hm' : ∀ a ∈ m.filter Annot.counts, ∃ x, a.interpret target = .ok x :=
    fun a ha => hm a (List.mem_of_mem_filter ha)
  unfold AnnotsAlike at h
  generalize l.filter Annot.counts = l', m.filter Annot.counts = m' at h hl' hm'
  have hboth : (said target l').filterMap Meaning.doc? = (said target m').filterMap Meaning.doc?
      ∧ List.Forall₂ Idl.Annot.Alike ((said target l').filterMap Meaning.annot?)
        ((said target m').filterMap Meaning.annot?) := by
    induction h with
    | nil => exact ⟨rfl, .nil⟩
    | @cons a b l' m' hab _ ih =>
      obtain ⟨⟨x, hx⟩, hl'⟩ := List.forall_mem_cons.mp hl'
      obtain ⟨⟨y, hy⟩, hm'⟩ := List.forall_mem_cons.mp hm'
      obtain ⟨hdoc, hannot⟩ := hab.interpret hx hy
      obtain ⟨hdocs, hannots⟩ := ih hl' hm'
      rw [said_cons hx, said_cons hy, List.filterMap_cons, List.filterMap_cons, List.filterMap_cons,
        List.filterMap_cons, hdoc, hdocs]
      refine ⟨rfl, ?_⟩
      generalize x.annot? = u, y.annot? = v at hannot ⊢
      cases hannot with
      | none => exact hannots
      | some huv => exact .cons huv hannots
  exact ⟨hboth.1, List.rel_filter (fun a b hab => by simp [hab.name]) hboth.2⟩

end Said

/-! ## §4 Fields and messages -/

/-- A number that is in range is the number of the field. -/
theorem Field.numberAt_eq {position : Nat} {x : Field}
    (hx : x.number.isSome = true → x.explicit?.isSome = true) :
    (x.numberAt position : Int) = x.valueAt position := by
  unfold Field.numberAt Field.valueAt
  cases hnumber : x.number with
  | none => rfl
  | some lit =>
    obtain ⟨n, hn⟩ := Option.isSome_iff_exists.mp (hx (by rw [hnumber]; rfl))
    -- a number that was accepted is one that fits
    have hvalue : lit.value = n := by
      unfold Field.explicit? at hn
      rw [hnumber, Option.bind_some] at hn
      split at hn
      · next hrange =>
        simp only [Bool.and_eq_true, decide_eq_true_eq] at hrange
        cases hn
        omega
      · cases hn
    simp only [hn, Option.getD_some, Option.map_some, hvalue]

/-- Where nothing is wrong with the numbers of a message, all of its numbers are in range. -/
theorem Message.isSome_explicit? {m : Message} (h : m.numberErrors = []) {x : Field}
    (hx : x ∈ m.fields) (hnumber : x.number.isSome = true) : x.explicit?.isSome = true := by
  obtain ⟨hexplicit, -⟩ := List.append_eq_nil_iff.mp h
  obtain ⟨i, hi, rfl⟩ := List.getElem_of_mem hx
  have hmem := mem_earlierFrom m.fields [] i hi
  rw [← withEarlier_eq] at hmem
  have hnone := List.filterMap_eq_nil_iff.mp hexplicit _ hmem
  rcases Message.explicitError?_eq_none_iff.mp hnone with hnot | ⟨n, hn, -⟩
  · rw [hnot] at hnumber
    cases hnumber
  · rw [hn]
    rfl

/-- Lists that are related are related by members of them. -/
theorem forall₂_mem {α β : Type} {R : α → β → Prop} {l : List α} {m : List β}
    (h : List.Forall₂ R l m) : List.Forall₂ (fun a b => a ∈ l ∧ b ∈ m ∧ R a b) l m := by
  obtain ⟨hlength, hR⟩ := List.forall₂_iff_zip.mp h
  refine List.forall₂_iff_zip.mpr ⟨hlength, fun hab => ?_⟩
  obtain ⟨ha, hb⟩ := List.of_mem_zip hab
  exact ⟨ha, hb, hR hab⟩

namespace File

variable {f g : File}

/-- The annotations of a thing with which nothing is wrong. -/
theorem interprets {target : Target} {scope entity : Bytes} {l : List Annot}
    (h : annotErrors target scope entity l = []) : ∀ a ∈ l, ∃ x, a.interpret target = .ok x :=
  annotErrors_eq_nil_iff.mp h

theorem lowerField_alike (hresolve : g.resolve? = f.resolve?) {m n : Message} {position : Nat}
    {x y : Field} (h : x.Alike f.resolve? position y) (hx : f.fieldErrors m x = [])
    (hy : g.fieldErrors n y = []) (hnumber : x.numberAt position = y.numberAt position) :
    (f.lowerField position x).Alike (g.lowerField position y) := by
  obtain ⟨-, hxannots⟩ := List.append_eq_nil_iff.mp hx
  obtain ⟨-, hyannots⟩ := List.append_eq_nil_iff.mp hy
  obtain ⟨hdocs, hannots⟩ := h.annots.meanings (interprets hxannots) (interprets hyannots)
  refine ⟨h.name, ?_, h.optional, hnumber, hdocs, hannots⟩
  change f.typeOf x.type = g.typeOf y.type
  rw [typeOf, typeOf, hresolve, h.type]

/-- Two messages read alike are lowered alike, when both are accepted. -/
theorem lowerMessage_alike (hresolve : g.resolve? = f.resolve?) {m n : Message}
    (h : m.Alike f.resolve? n) (hm : f.messageErrors m = []) (hn : g.messageErrors n = []) :
    (f.lowerMessage m).Alike (g.lowerMessage n) := by
  simp only [messageErrors, List.append_eq_nil_iff, List.flatMap_eq_nil_iff] at hm hn
  obtain ⟨⟨⟨hmannots, -⟩, hmfields⟩, hmnumbers⟩ := hm
  obtain ⟨⟨⟨hnannots, -⟩, hnfields⟩, hnnumbers⟩ := hn
  obtain ⟨hdocs, hannots⟩ := h.annots.meanings (interprets hmannots) (interprets hnannots)
  -- a numbered field is a field
  have hfield {m : Message} {x : Nat × Field} (hx : x ∈ m.numbered) : x.2 ∈ m.fields := by
    rw [← Message.map_snd_numbered]
    exact List.mem_map_of_mem hx
  refine ⟨h.name, hdocs, hannots, ?_⟩
  change List.Forall₂ _ (m.numbered.map fun x => f.lowerField x.1 x.2)
    (n.numbered.map fun x => g.lowerField x.1 x.2)
  rw [List.forall₂_map_left_iff, List.forall₂_map_right_iff]
  refine (forall₂_mem h.fields).imp ?_
  rintro ⟨position, x⟩ ⟨_, y⟩ ⟨hx, hy, rfl, hxy⟩
  have hx := hfield hx
  have hy := hfield hy
  -- the number is compared as the value that was written
  have hnumber : (x.numberAt position : Int) = y.numberAt position := by
    rw [Field.numberAt_eq (Message.isSome_explicit? hmnumbers hx),
      Field.numberAt_eq (Message.isSome_explicit? hnnumbers hy)]
    exact hxy.number
  exact lowerField_alike hresolve hxy (hmfields x hx) (hnfields y hy) (Int.ofNat_inj.mp hnumber)

/-! ## §5 Methods and services -/

/-- Two methods read alike are lowered alike. -/
theorem lowerMethod_alike (hresolve : g.resolve? = f.resolve?) {s t : Service} {m n : Method}
    (h : m.Alike f.resolve? n) (hm : f.methodErrors s m = []) (hn : g.methodErrors t n = []) :
    (f.lowerMethod m).Alike (g.lowerMethod n) := by
  obtain ⟨-, hmannots⟩ := List.append_eq_nil_iff.mp hm
  obtain ⟨-, hnannots⟩ := List.append_eq_nil_iff.mp hn
  obtain ⟨hdocs, hannots⟩ := h.annots.meanings (interprets hmannots) (interprets hnannots)
  -- types that resolve alike become one type
  have htypes {r r' : Option TypeRef} (h : r.map f.resolve? = r'.map f.resolve?) :
      r.map f.typeOf = r'.map g.typeOf := by
    have hmap := congrArg (Option.map fun t : Option Ty => t.getD (.unassigned 0)) h
    rw [Option.map_map, Option.map_map] at hmap
    unfold typeOf
    rw [hresolve]
    exact hmap
  exact ⟨h.name, htypes h.input, htypes h.output, hdocs, hannots⟩

theorem lowerService_alike (hresolve : g.resolve? = f.resolve?) {s t : Service}
    (h : s.Alike f.resolve? t) (hs : f.serviceErrors s = []) (ht : g.serviceErrors t = []) :
    (f.lowerService s).Alike (g.lowerService t) := by
  simp only [serviceErrors, List.append_eq_nil_iff, List.flatMap_eq_nil_iff] at hs ht
  obtain ⟨⟨hsannots, -⟩, hsmethods⟩ := hs
  obtain ⟨⟨htannots, -⟩, htmethods⟩ := ht
  obtain ⟨hdocs, hannots⟩ := h.annots.meanings (interprets hsannots) (interprets htannots)
  refine ⟨h.name, hdocs, hannots, ?_⟩
  change List.Forall₂ _ (s.methods.map f.lowerMethod) (t.methods.map g.lowerMethod)
  rw [List.forall₂_map_left_iff, List.forall₂_map_right_iff]
  refine (forall₂_mem h.methods).imp ?_
  rintro m n ⟨hm, hn, hmn⟩
  exact lowerMethod_alike hresolve hmn (hsmethods m hm) (htmethods n hn)

/-! ## §6 Files -/

namespace Alike

/-- The same names are declared by files that are alike. -/
theorem declared? (h : f.Alike g) : g.declared? = f.declared? := by
  funext name
  have hdecls := h.decls
  unfold File.declared?
  generalize f.decls = l, g.decls = m at hdecls
  induction hdecls with
  | nil => rfl
  | @cons d e l m hde _ ih =>
    have hname : e.name.name = d.name.name := by
      cases hde with
      | message h => exact h.name.symm
      | service h => exact h.name.symm
    -- a message stands against a message, and a service against a service
    have hkind : e.kind = d.kind := by cases hde <;> rfl
    rw [List.find?_cons, List.find?_cons, hname]
    split
    · rw [Option.map_some, Option.map_some, hkind]
    · exact ih

theorem resolve? (h : f.Alike g) : g.resolve? = f.resolve? := by
  funext r
  simp only [File.resolve?, h.package, h.declared?]

/-- The messages and the services of alike files. -/
theorem parts {resolve : TypeRef → Option Ty} {l m : List Decl}
    (h : List.Forall₂ (Decl.Alike resolve) l m) :
    List.Forall₂ (Message.Alike resolve) (l.filterMap Decl.message?) (m.filterMap Decl.message?)
      ∧ List.Forall₂ (Service.Alike resolve) (l.filterMap Decl.service?)
        (m.filterMap Decl.service?) := by
  induction h with
  | nil => exact ⟨.nil, .nil⟩
  | cons hde _ ih =>
    cases hde with
    | message h => exact ⟨.cons h ih.1, ih.2⟩
    | service h => exact ⟨ih.1, .cons h ih.2⟩

/-- Alike files with which nothing is wrong mean alike schemas. -/
theorem draft (h : f.Alike g) (hf : f.errors = []) (hg : g.errors = []) (p q : Bytes) :
    (f.draft p).Alike (g.draft q) := by
  obtain ⟨-, -, -, hfmessages, hfservices⟩ := errors_eq_nil hf
  obtain ⟨-, -, -, hgmessages, hgservices⟩ := errors_eq_nil hg
  obtain ⟨hmessages, hservices⟩ := parts h.decls
  refine ⟨h.package, ?_, ?_, ?_⟩
  · -- the options, the messages and the services
    change Idl.AnnotsAlike f.lowerOptions g.lowerOptions
    rw [h.options]
    refine List.forall₂_same.mpr fun a _ => ⟨rfl, ?_, fun key => ?_⟩
    · cases a.value with
      | none => exact .none
      | some v => exact .some (.refl v)
    · exact List.forall₂_same.mpr fun v _ => .refl v
  · change List.Forall₂ _ (f.messages.map f.lowerMessage) (g.messages.map g.lowerMessage)
    rw [List.forall₂_map_left_iff, List.forall₂_map_right_iff]
    refine (forall₂_mem hmessages).imp ?_
    rintro m n ⟨hm, hn, hmn⟩
    exact lowerMessage_alike h.resolve? hmn (hfmessages m hm) (hgmessages n hn)
  · change List.Forall₂ _ (f.services.map f.lowerService) (g.services.map g.lowerService)
    rw [List.forall₂_map_left_iff, List.forall₂_map_right_iff]
    refine (forall₂_mem hservices).imp ?_
    rintro s t ⟨hs, ht, hst⟩
    exact lowerService_alike h.resolve? hst (hfservices s hs) (hgservices t ht)

end Alike

end File

end Tree

namespace Schema.Alike

variable {s t : Schema}

/-- What is filled in does not count. -/
theorem identify (h : s.Alike t) : s.identify.Alike t.identify := by
  refine ⟨h.package, h.annots, h.messages, ?_⟩
  rw [services_identify, services_identify, List.forall₂_map_left_iff, List.forall₂_map_right_iff]
  exact h.services.imp fun v w hvw => ⟨hvw.name, hvw.docs, hvw.annots, hvw.methods⟩

/-- Alike schemas have the same identifier, and so have their services, one by one. -/
theorem identify_ids (h : s.Alike t) : s.identify.id = t.identify.id
    ∧ s.identify.services.map (·.id) = t.identify.services.map (·.id) := by
  have hservices : s.services.map s.serviceIdentity = t.services.map t.serviceIdentity := by
    apply (map_eq_of_forall₂ h.services fun v w hvw => ?_).symm
    rw [serviceIdentity, serviceIdentity, hvw.encoding_eq, h.typesEncoding_eq]
  constructor
  · exact congrArg Identifier.digest h.encoding_eq.symm
  · rw [services_identify, services_identify, List.map_map, List.map_map]
    exact hservices

end Schema.Alike

end Idl
