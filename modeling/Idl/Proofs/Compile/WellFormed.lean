import Idl.Proofs.Compile.Misuse
import Idl.Proofs.Grammar.Completeness
import Mathlib.Data.List.Nodup
import Mathlib.Data.List.Perm.Basic

/-!
# Compiled schemas are well formed

A file without violations means a schema in which all names and numbers are different, all types
are there and every annotation is in its place. Numbers that fields get by their position are not
checked against the largest number: that they do not exceed it follows from the size of a source.

* §1 well-formed schemas,
* §2 annotations, §3 field numbers, §4 names, types and options, §5 the package,
* §6 the number of fields, §7 the schema.
-/

namespace Idl

/-! ## §1 Well-formed schemas -/

/-- An annotation has a value or named values, not both, and the names are different. -/
structure Annot.WellFormed (a : Annot) : Prop where
  single : a.value = none ∨ a.pairs = []
  keys : (a.pairs.map (·.key)).Nodup

/-- An annotation that may be left in front of a target. -/
structure Annot.Fits (target : Target) (a : Annot) : Prop where
  wellFormed : a.WellFormed
  notDoc : a.name ≠ Annot.docName
  notSource : a.name ≠ Annot.sourceName
  codegen : a.name = Annot.codegenName → target = .service
  default : a.name = Annot.defaultName → target = .field

/-- A type that a schema knows: a built-in type, or one of its messages. -/
def Ty.Known (s : Schema) : Ty → Prop
  | .scalar _ => True
  | .message name => ∃ m ∈ s.messages, m.name = name
  | .unassigned _ => False

/-- A field by itself: a known type, a number in range, annotations that may stand there. -/
structure Field.WellFormed (s : Schema) (f : Field) : Prop where
  type : f.type.Known s
  number_pos : 1 ≤ f.number
  number_le : f.number ≤ 2 ^ 29 - 1
  annots : ∀ a ∈ f.annots, a.Fits .field

/-- A message: its fields have different names and different numbers. -/
structure Message.WellFormed (s : Schema) (m : Message) : Prop where
  names : (m.fields.map (·.name)).Nodup
  numbers : (m.fields.map (·.number)).Nodup
  fields : ∀ f ∈ m.fields, f.WellFormed s
  annots : ∀ a ∈ m.annots, a.Fits .message

/-- A method by itself. -/
structure Method.WellFormed (s : Schema) (m : Method) : Prop where
  input : ∀ t ∈ m.input, t.Known s
  output : ∀ t ∈ m.output, t.Known s
  annots : ∀ a ∈ m.annots, a.Fits .method

/-- A service: its methods have different names. -/
structure Service.WellFormed (s : Schema) (svc : Service) : Prop where
  names : (svc.methods.map (·.name)).Nodup
  methods : ∀ m ∈ svc.methods, m.WellFormed s
  annots : ∀ a ∈ svc.annots, a.Fits .service

/-- A well-formed schema. -/
structure Schema.WellFormed (s : Schema) : Prop where
  names : (s.messages.map (·.name) ++ s.services.map (·.name)).Nodup
  messages : ∀ m ∈ s.messages, m.WellFormed s
  services : ∀ svc ∈ s.services, svc.WellFormed s
  /-- The annotations of the schema itself are its options, one key each. -/
  options : ∀ a ∈ s.annots, a.name = Annot.optionName ∧ a.WellFormed
  optionKeys : (s.annots.flatMap fun a => a.pairs.map (·.key)).Nodup
  package : s.package ≠ [] →
    ∀ part ∈ Bytes.split 0x2E s.package, ∃ c r, part = c :: r ∧ Bytes.isLetter c = true

namespace Tree

/-! ## §2 Annotations -/

/-- Where no repetition is found, all keys are different. -/
theorem firstRepeat?_go_eq_none {seen l : List Bytes} (h : firstRepeat?.go seen l = none) :
    l.Nodup ∧ ∀ k ∈ l, k ∉ seen := by
  induction l generalizing seen with
  | nil => exact ⟨List.nodup_nil, nofun⟩
  | cons k r ih =>
    rw [firstRepeat?.go] at h
    split at h
    · cases h
    · -- the key has not been seen, and is not met again
      next hseen =>
      obtain ⟨hnodup, hfresh⟩ := ih h
      refine ⟨List.nodup_cons.mpr ⟨fun hk => hfresh k hk (List.mem_cons_self ..), hnodup⟩, ?_⟩
      intro x hx
      rcases List.mem_cons.mp hx with rfl | hx
      · simpa using hseen
      · exact fun hmem => hfresh x hx (List.mem_cons_of_mem _ hmem)

/-- Arguments that are accepted make a well-formed annotation of the same name. -/
theorem Annot.wellFormed_of_lower {n : Annot} {a : Idl.Annot} (h : n.lower = .ok a) :
    a.name = n.name.dotted ∧ a.WellFormed := by
  unfold Annot.lower at h
  dsimp only at h
  generalize (n.args.map (·.form)).filterMap (·.positional?) = positional,
    (n.args.map (·.form)).filterMap (·.pair?) = pairs at h
  split at h
  · cases h
  -- no key is repeated, and there is not both a value and pairs
  next hnone =>
    split at h
    · cases h
    next hmixed =>
      split at h
      · cases h
      · cases h
        refine ⟨rfl, ⟨?_, (firstRepeat?_go_eq_none hnone).1⟩⟩
        cases positional with
        | nil => exact .inl rfl
        | cons v r => exact .inr (by simpa using hmixed)

/-- An annotation that is kept may be kept where it is. -/
theorem Annot.fits_of_interpret {target : Target} {n : Annot} {m : Meaning} {a : Idl.Annot}
    (h : n.interpret target = .ok m) (ha : m.annot? = some a) : a.Fits target := by
  obtain ⟨b, hlower, hsays⟩ := interpret_eq_ok_iff.mp h
  obtain ⟨hname, hwell⟩ := Annot.wellFormed_of_lower hlower
  -- documentation and places leave no annotation behind
  cases hsays with
  | doc => cases ha
  | source => cases ha
  | codegen name service =>
    cases ha
    have hname := hname.trans name
    exact ⟨hwell, hname ▸ names_ne.2.1.1, hname ▸ names_ne.2.2.1.1, fun _ => service,
      fun h => absurd (hname.symm.trans h) (by decide)⟩
  | default name field =>
    cases ha
    have hname := hname.trans name
    exact ⟨hwell, hname ▸ names_ne.2.2.2.1.1, hname ▸ names_ne.2.2.2.2.1.1,
      fun h => absurd (hname.symm.trans h) (by decide), fun _ => field⟩
  | other doc source codegen default =>
    cases ha
    exact ⟨hwell, hname ▸ doc, hname ▸ source, fun h => absurd (hname.symm.trans h) codegen,
      fun h => absurd (hname.symm.trans h) default⟩

/-- All annotations that are kept in front of a target may be there. -/
theorem fits_of_meanings (target : Target) (nodes : List Annot) :
    ∀ a ∈ (meanings target nodes).annots, a.Fits target := by
  intro a ha
  obtain ⟨m, hm, hannot⟩ := List.mem_filterMap.mp ha
  obtain ⟨n, -, hn⟩ := List.mem_filterMap.mp hm
  cases hinterpret : n.interpret target with
  | error e => simp [hinterpret, Except.toOption] at hn
  | ok m' =>
    simp only [hinterpret, Except.toOption, Option.some.injEq] at hn
    subst hn
    exact Annot.fits_of_interpret hinterpret hannot

/-! ## §3 Field numbers -/

namespace Field

/-- The number of a field at a position: its own, or else the position. -/
def numberAt (position : Nat) (f : Field) : Nat :=
  match f.number with
  | some _ => f.explicit?.getD 0
  | none => position

theorem explicit?_eq_none {f : Field} (h : f.number = none) : f.explicit? = none := by
  simp [explicit?, h]

/-- A number of its own is in range. -/
theorem explicit?_bounds {f : Field} {n : Nat} (h : f.explicit? = some n) :
    1 ≤ n ∧ n ≤ 2 ^ 29 - 1 := by
  obtain ⟨lit, -, hlit⟩ := Option.bind_eq_some_iff.mp h
  split at hlit
  · next hrange =>
    have hmax : (maxFieldNumber : Int) = 2 ^ 29 - 1 := by decide
    simp only [hmax, Bool.and_eq_true, decide_eq_true_eq] at hrange
    cases hlit
    omega
  · cases hlit

end Field

namespace Message

variable {m : Message}

/-- Where nothing is wrong with the numbers, a field has a number of its own that no field in front
of it has, or its position, which is no field's own number. -/
theorem numberAt_cases (h : m.numberErrors = []) {i : Nat} (hi : i < m.fields.length) :
    (∃ n, m.fields[i].explicit? = some n ∧ m.fields[i].numberAt (i + 1) = n
        ∧ ∀ f ∈ m.fields.take i, f.explicit? ≠ some n)
      ∨ m.fields[i].explicit? = none ∧ m.fields[i].numberAt (i + 1) = i + 1
        ∧ ∀ f ∈ m.fields, f.explicit? ≠ some (i + 1) := by
  obtain ⟨hexplicit, hautomatic⟩ := List.append_eq_nil_iff.mp h
  have howner {l : List Field} {n : Nat} (hnone : numberOwner? l n = none) :
      ∀ f ∈ l, f.explicit? ≠ some n := by
    simpa [numberOwner?] using hnone
  -- a number that is given is new among the fields in front, a counted one among all
  cases hnumber : m.fields[i].number with
  | some lit =>
    have hmem := mem_earlierFrom m.fields [] i hi
    rw [← withEarlier_eq] at hmem
    have herror := List.filterMap_eq_nil_iff.mp hexplicit _ hmem
    simp only [Message.explicitError?, hnumber, Option.bind_some] at herror
    cases hn : m.fields[i].explicit? with
    | none => simp [hn] at herror
    | some n =>
      refine .inl ⟨n, rfl, by simp [Field.numberAt, hnumber, hn], howner ?_⟩
      cases ho : numberOwner? (m.fields.take i) n with
      | none => rfl
      | some owner => simp [hn, ho] at herror
  | none =>
    have hmem : (i + 1, m.fields[i]) ∈ m.numbered := by
      refine List.mem_map.mpr ⟨(m.fields[i], i), ?_, rfl⟩
      exact List.mk_mem_zipIdx_iff_getElem?.mpr (List.getElem?_eq_getElem hi)
    have herror := List.filterMap_eq_nil_iff.mp hautomatic _ hmem
    refine .inr ⟨Field.explicit?_eq_none hnumber, by simp [Field.numberAt, hnumber], howner ?_⟩
    simpa [Message.automaticError?, hnumber] using herror

theorem map_snd_numbered : m.numbered.map (·.2) = m.fields := by
  simp [numbered, Function.comp_def]

/-- The numbers of all fields, in order. -/
def numbers (m : Message) : List Nat := m.numbered.map fun (position, f) => f.numberAt position

theorem length_numbers : m.numbers.length = m.fields.length := by
  simp [numbers, numbered]

theorem getElem_numbers {i : Nat} {hi : i < m.numbers.length} (hi' : i < m.fields.length) :
    m.numbers[i] = m.fields[i].numberAt (i + 1) := by
  simp [numbers, numbered]

theorem nodup_numbers (h : m.numberErrors = []) : m.numbers.Nodup := by
  rw [List.nodup_iff_pairwise_ne, List.pairwise_iff_getElem]
  intro i j hi hj hij
  rw [length_numbers] at hi hj
  rw [getElem_numbers hi, getElem_numbers hj]
  -- the later field is compared with the earlier one, whose own number it may not have
  rcases numberAt_cases h hi with ⟨n, hn, heq, -⟩ | ⟨-, heq, hfree⟩ <;>
    rcases numberAt_cases h hj with ⟨k, hk, heq', hnew⟩ | ⟨-, heq', hfree'⟩ <;> rw [heq, heq']
  · rintro rfl
    exact hnew m.fields[i] (List.mem_take_iff_getElem.mpr ⟨i, by omega, rfl⟩) hn
  · rintro rfl
    exact hfree' m.fields[i] (List.getElem_mem hi) hn
  · rintro rfl
    exact hfree m.fields[j] (List.getElem_mem hj) hk
  · omega

theorem numbers_bounds (h : m.numberErrors = []) (hsize : m.fields.length ≤ 2 ^ 29 - 1) :
    ∀ n ∈ m.numbers, 1 ≤ n ∧ n ≤ 2 ^ 29 - 1 := by
  intro n hn
  obtain ⟨i, hi, rfl⟩ := List.getElem_of_mem hn
  rw [length_numbers] at hi
  rw [getElem_numbers hi]
  rcases numberAt_cases h hi with ⟨n, hn, heq, -⟩ | ⟨-, heq, -⟩
  · rw [heq]
    exact Field.explicit?_bounds hn
  · omega

end Message

/-! ## §4 Names, types and options -/

/-- Messages and services share one list of names. -/
theorem names_perm (l : List Decl) :
    (l.map (·.name.name)).Perm
      ((l.filterMap Decl.message?).map (·.name.name)
        ++ (l.filterMap Decl.service?).map (·.name.name)) := by
  induction l with
  | nil => exact .nil
  | cons d r ih =>
    cases d with
    | message m => exact ih.cons m.name.name
    | service s => exact (ih.cons s.name.name).trans List.perm_middle.symm

namespace File

variable {f : File}

/-- A file without violations has none of any sort. -/
theorem errors_eq_nil (h : f.errors = []) :
    f.packageErrors = [] ∧ f.optionErrors = [] ∧ f.declErrors = []
      ∧ (∀ m ∈ f.messages, f.messageErrors m = []) ∧ ∀ s ∈ f.services, f.serviceErrors s = [] := by
  have hperm := List.mergeSort_perm (f.packageErrors ++ f.optionErrors ++ f.declErrors
    ++ f.messages.flatMap f.messageErrors ++ f.services.flatMap f.serviceErrors)
    (reportOrder SchemaError.loc SchemaError.code)
  unfold errors sortErrors at h
  rw [h] at hperm
  simpa only [List.append_eq_nil_iff, List.flatMap_eq_nil_iff, and_assoc] using hperm.symm.eq_nil

theorem isSome_declared? {d : Decl} (h : d ∈ f.decls) : (f.declared? d.name.name).isSome = true := by
  simp only [declared?, Option.isSome_map, List.find?_isSome]
  exact ⟨d, h, by simp⟩

/-- No name is declared twice. -/
def DistinctNames (f : File) : Prop := (f.decls.map (·.name.name)).Nodup

theorem declErrors_eq_nil_iff : f.declErrors = [] ↔ f.DistinctNames := by
  rw [DistinctNames, ← repeats_eq_nil_iff (fun d : Decl => d.name.name)]
  constructor
  · intro h
    refine List.eq_nil_iff_forall_not_mem.mpr fun d hd => ?_
    have hnone := List.filterMap_eq_nil_iff.mp h d hd
    have hsome := isSome_declared? (mem_of_mem_repeats hd)
    simp [Option.map_eq_none_iff.mp hnone] at hsome
  · intro h
    rw [declErrors, h]
    rfl

theorem nodup_names (h : f.declErrors = []) :
    (f.messages.map (·.name.name) ++ f.services.map (·.name.name)).Nodup :=
  (names_perm f.decls).nodup_iff.mp (declErrors_eq_nil_iff.mp h)

/-- A name that is declared as a message is the name of a message. -/
theorem exists_of_declared? {name : Bytes} (h : f.declared? name = some .message) :
    ∃ m ∈ f.messages, m.name.name = name := by
  obtain ⟨d, hd, hkind⟩ := Option.map_eq_some_iff.mp h
  cases d with
  | message m =>
    refine ⟨m, List.mem_filterMap.mpr ⟨.message m, List.mem_of_find?_eq_some hd, rfl⟩, ?_⟩
    have hname := List.find?_some hd
    exact beq_iff_eq.mp hname
  | service s => cases hkind

/-- A type that can be resolved is built in or a message of the file. -/
theorem typeOf_cases {r : TypeRef} (h : (f.resolve? r).isSome = true) :
    (∃ s, f.typeOf r = .scalar s) ∨ ∃ m ∈ f.messages, f.typeOf r = .message m.name.name := by
  obtain ⟨t, ht⟩ := Option.isSome_iff_exists.mp h
  rw [typeOf, ht, Option.getD_some]
  unfold resolve? at ht
  dsimp only at ht
  generalize (if f.packageName.isEmpty = true then r.name.dotted
    else Bytes.trimStart r.name.dotted (f.packageName ++ ".")) = name at ht
  split at ht
  · cases ht
    exact .inl ⟨_, rfl⟩
  · -- no built-in type, so a declared one, and that has to be a message
    split at ht
    · next hdeclared =>
      cases ht
      obtain ⟨m, hm, hname⟩ := exists_of_declared? hdeclared
      exact .inr ⟨m, hm, by rw [hname]⟩
    · cases ht

theorem isSome_resolve? {scope entity : Bytes} {r : TypeRef}
    (h : f.typeErrors scope entity r = []) : (f.resolve? r).isSome = true := by
  unfold typeErrors at h
  split at h
  · assumption
  · cases h

/-- Each option is an annotation with one pair, and no option is set twice. -/
theorem nodup_optionKeys (h : f.optionErrors = []) :
    (f.lowerOptions.flatMap fun a => a.pairs.map (·.key)).Nodup := by
  have hrepeats : repeats (·.name.dotted) f.options = [] := by
    simpa [optionErrors] using h
  have hkeys : (f.lowerOptions.flatMap fun a => a.pairs.map (·.key))
      = f.options.map (·.name.dotted) := by
    simp [lowerOptions, List.flatMap_map, ← List.map_eq_flatMap]
  rw [hkeys]
  exact (repeats_eq_nil_iff _ _).mp hrepeats

theorem lowerOptions_wellFormed :
    ∀ a ∈ f.lowerOptions, a.name = Annot.optionName ∧ a.WellFormed := by
  intro a ha
  obtain ⟨o, -, rfl⟩ := List.mem_map.mp ha
  exact ⟨rfl, ⟨.inl rfl, List.nodup_singleton _⟩⟩

end File

end Tree

/-! ## §5 The package -/

namespace Bytes

/-- One step of a split: the piece at work, last octet first, and the pieces that are done. -/
def splitStep (sep : UInt8) (s : Bytes × List Bytes) (c : UInt8) : Bytes × List Bytes :=
  if c == sep then ([], s.1.reverse :: s.2) else (c :: s.1, s.2)

theorem split_eq (sep : UInt8) (b : Bytes) :
    split sep b = ((b.foldl (splitStep sep) ([], [])).1.reverse
      :: (b.foldl (splitStep sep) ([], [])).2).reverse := rfl

/-- A piece without the separator is taken as it is. -/
theorem foldl_splitStep {sep : UInt8} {b : Bytes} (h : sep ∉ b) (s : Bytes × List Bytes) :
    b.foldl (splitStep sep) s = (b.reverse ++ s.1, s.2) := by
  induction b generalizing s with
  | nil => rfl
  | cons c r ih =>
    obtain ⟨hc, hr⟩ : ¬sep = c ∧ sep ∉ r := by simpa using h
    have hne : (c == sep) = false := by simpa using fun h => hc h.symm
    rw [List.foldl_cons, ih hr]
    simp [splitStep, hne]

/-- Pieces with the separator between them come apart. -/
theorem foldl_splitStep_join {sep : UInt8} {p : Bytes} {pieces : List Bytes} (done : List Bytes)
    (h : ∀ b ∈ p :: pieces, sep ∉ b) :
    let s := (join [sep] (p :: pieces)).foldl (splitStep sep) ([], done)
    (s.1.reverse :: s.2).reverse = done.reverse ++ p :: pieces := by
  have hp := h p (List.mem_cons_self ..)
  induction pieces generalizing p done with
  | nil =>
    rw [join, List.intercalate_singleton, foldl_splitStep hp]
    simp
  -- the separator closes the piece in front of it
  | cons q r ih =>
    have hq := h q (List.mem_cons_of_mem _ (List.mem_cons_self ..))
    have ih := ih (p :: done) (fun b hb => h b (List.mem_cons_of_mem _ hb)) hq
    rw [join, List.intercalate_cons_cons, List.foldl_append, List.foldl_append,
      foldl_splitStep hp, List.foldl_cons, List.foldl_nil]
    simpa [splitStep, join] using ih

/-- Pieces that are joined come apart again. -/
theorem split_join {sep : UInt8} {p : Bytes} {pieces : List Bytes}
    (h : ∀ b ∈ p :: pieces, sep ∉ b) : split sep (join [sep] (p :: pieces)) = p :: pieces := by
  rw [split_eq]
  exact foldl_splitStep_join [] h

end Bytes

namespace Tree.File

variable {f : File}

/-- The components of the package begin with letters. -/
theorem package_parts (h : f.packageErrors = [])
    (hword : ∀ p, f.package = some p → ∀ i ∈ p.name.parts, ∀ c ∈ i.name, Bytes.isWord c = true)
    (hne : f.packageName ≠ []) :
    ∀ part ∈ Bytes.split 0x2E f.packageName, ∃ c r, part = c :: r ∧ Bytes.isLetter c = true := by
  unfold packageErrors at h
  unfold packageName at hne ⊢
  cases hp : f.package with
  | none => simp [hp] at hne
  | some p =>
    simp only [hp] at h
    split at h
    · next hletters =>
      -- a part of a name has no dot, so the split gives the parts back
      have hdot : ∀ b ∈ p.name.parts.map (·.name), (0x2E : UInt8) ∉ b := by
        intro b hb hmem
        obtain ⟨i, hi, rfl⟩ := List.mem_map.mp hb
        exact absurd (hword p hp i hi _ hmem) (by decide)
      have hsplit : Bytes.split 0x2E p.name.dotted = p.name.parts.map (·.name) :=
        Bytes.split_join hdot
      simp only [Option.map_some, Option.getD_some, hsplit]
      intro part hpart
      obtain ⟨i, hi, rfl⟩ := List.mem_map.mp hpart
      have hletter := List.all_eq_true.mp hletters i hi
      cases hname : i.name with
      | nil => simp [hname] at hletter
      | cons c r => exact ⟨c, r, rfl, by simpa [hname] using hletter⟩
    · cases h

end Tree.File

/-! ## §6 The number of fields -/

/-- Tokens in order take up their room. -/
theorem room_le_of_inOrder {t e : Token} {r : List Token} (h : Token.InOrder (t :: r) e) :
    t.start + Phrase.room (t :: r) ≤ e.start := by
  induction r generalizing t with
  | nil =>
    have hle := h.le t (List.mem_cons_self ..)
    have hpos := h.length_pos
    simp only [Token.stop] at hle
    simp only [Phrase.room]
    omega
  | cons u r ih =>
    have ih := ih h.tail
    have hbefore := (List.pairwise_cons.mp h.pairwise).1 u (List.mem_cons_self ..)
    have hle := hbefore.le
    have hpos := h.length_pos
    simp only [Token.stop] at hle
    simp only [Phrase.room]
    split
    · -- between two words there is a blank at least
      next hidents =>
      have hlt := hbefore.apart hidents.1 hidents.2
      simp only [Token.stop] at hlt
      omega
    · omega

/-- The significant tokens of a source take up no more room than there is. -/
theorem room_significant_le {src : Bytes} {l : Lexed} {e : Token} (h : lex src = .ok l)
    (hend : l.ending = .ok e) : Phrase.room l.significant ≤ maxSourceSize := by
  have horder := significant_inOrder h hend
  have hstart := (lex_lexes h hend).2.2.2
  have hsize := length_le_of_lex h
  cases hl : l.significant with
  | nil => simp [Phrase.room]
  | cons t r =>
    rw [hl] at horder
    have := room_le_of_inOrder horder
    omega

/-! ## §7 The schema -/

namespace Tree.File

variable {f : File} {sourcePath : Bytes}

/-- What is known of a file that was read: the octets of its package and the number of fields. -/
structure Read (f : File) : Prop where
  package : ∀ p, f.package = some p → ∀ i ∈ p.name.parts, ∀ c ∈ i.name, Bytes.isWord c = true
  fields : ∀ m ∈ f.messages, m.fields.length ≤ 2 ^ 29 - 1

theorem read_of_parseFile {src : Bytes} {allowMissingPackage : Bool}
    (h : parseFile src allowMissingPackage = .ok f) : f.Read := by
  obtain ⟨l, c, hlex, hfile⟩ := exists_of_parseFile_eq_ok h
  obtain ⟨⟨e, he⟩, -, hnames, hroom⟩ := Grammar.file_sound (significant_proper hlex) hfile
  refine ⟨fun p hp i hi c hc => ?_, fun m hm => ?_⟩
  · obtain ⟨t, ht, hkind, htext⟩ := hnames p hp i hi
    have hmem := (List.mem_filter.mp ht).1
    exact (lex_lexes hlex he).1.isWord_text hmem hkind c (htext ▸ hc)
  · have hfields := hroom m hm
    have hsize := room_significant_le hlex he
    simp only [maxSourceSize] at hsize
    dsimp only at hfields
    omega

theorem known_typeOf {r : TypeRef} (h : (f.resolve? r).isSome = true) :
    (f.typeOf r).Known (f.schema sourcePath) := by
  rcases typeOf_cases h with ⟨s, hs⟩ | ⟨m, hm, hname⟩
  · rw [hs]
    trivial
  · rw [hname]
    exact ⟨f.lowerMessage m, List.mem_map_of_mem hm, rfl⟩

/-- A message without errors is well formed. -/
theorem lowerMessage_wellFormed {m : Message} (h : f.messageErrors m = [])
    (hsize : m.fields.length ≤ 2 ^ 29 - 1) :
    (f.lowerMessage m).WellFormed (f.schema sourcePath) := by
  unfold messageErrors at h
  simp only [List.append_eq_nil_iff, List.map_eq_nil_iff, List.flatMap_eq_nil_iff] at h
  obtain ⟨⟨⟨-, hrepeats⟩, hfields⟩, hnumbers⟩ := h
  have hnames : (f.lowerMessage m).fields.map (·.name) = m.fields.map (·.name.name) := by
    rw [← Message.map_snd_numbered, lowerMessage, List.map_map, List.map_map]
    exact List.map_congr_left fun ⟨_, _⟩ _ => rfl
  have hnumber : (f.lowerMessage m).fields.map (·.number) = m.numbers := by
    rw [Message.numbers, lowerMessage, List.map_map]
    exact List.map_congr_left fun ⟨_, _⟩ _ => rfl
  refine ⟨?_, ?_, ?_, fits_of_meanings .message m.annots⟩
  · rw [hnames]
    exact (repeats_eq_nil_iff _ _).mp hrepeats
  · rw [hnumber]
    exact Message.nodup_numbers hnumbers
  · -- a field: its number is in range, its type known, its annotations fit
    intro d hd
    have hbounds := Message.numbers_bounds hnumbers hsize d.number
      (hnumber ▸ List.mem_map_of_mem hd)
    obtain ⟨⟨position, x⟩, hx, rfl⟩ := List.mem_map.mp hd
    have hmem : x ∈ m.fields := by
      rw [← Message.map_snd_numbered]
      exact List.mem_map_of_mem hx
    have htype := (List.append_eq_nil_iff.mp (hfields x hmem)).1
    exact ⟨known_typeOf (isSome_resolve? htype), hbounds.1, hbounds.2,
      fits_of_meanings .field x.annots⟩

theorem lowerMethod_wellFormed {s : Service} {m : Method} (h : f.methodErrors s m = []) :
    (f.lowerMethod m).WellFormed (f.schema sourcePath) := by
  unfold methodErrors at h
  simp only [List.append_eq_nil_iff, List.flatMap_eq_nil_iff, List.mem_append] at h
  obtain ⟨htypes, -⟩ := h
  have hknown (r : TypeRef) (hr : r ∈ m.input.toList ∨ r ∈ m.output.toList) :
      (f.typeOf r).Known (f.schema sourcePath) :=
    known_typeOf (isSome_resolve? (htypes r hr))
  refine ⟨fun t ht => ?_, fun t ht => ?_, fits_of_meanings .method m.annots⟩
  · obtain ⟨r, hr, rfl⟩ := Option.mem_map.mp ht
    exact hknown r (.inl (Option.mem_toList.mpr hr))
  · obtain ⟨r, hr, rfl⟩ := Option.mem_map.mp ht
    exact hknown r (.inr (Option.mem_toList.mpr hr))

theorem lowerService_wellFormed {s : Service} (h : f.serviceErrors s = []) :
    (f.lowerService s).WellFormed (f.schema sourcePath) := by
  unfold serviceErrors at h
  simp only [List.append_eq_nil_iff, List.map_eq_nil_iff, List.flatMap_eq_nil_iff] at h
  obtain ⟨⟨-, hrepeats⟩, hmethods⟩ := h
  refine ⟨?_, fun m hm => ?_, fits_of_meanings .service s.annots⟩
  · have hnames : (f.lowerService s).methods.map (·.name) = s.methods.map (·.name.name) := by
      rw [lowerService, List.map_map]
      rfl
    rw [hnames]
    exact (repeats_eq_nil_iff _ _).mp hrepeats
  · obtain ⟨x, hx, rfl⟩ := List.mem_map.mp hm
    exact lowerMethod_wellFormed (hmethods x hx)

/-- A file that was read and has no violations means a well-formed schema. -/
theorem schema_wellFormed (hread : f.Read) (h : f.errors = []) :
    (f.schema sourcePath).WellFormed := by
  obtain ⟨hpackage, hoptions, hdecls, hmessages, hservices⟩ := errors_eq_nil h
  refine ⟨?_, fun m hm => ?_, fun s hs => ?_, lowerOptions_wellFormed, nodup_optionKeys hoptions,
    package_parts hpackage hread.package⟩
  · have hnames : (f.schema sourcePath).messages.map (·.name)
        ++ (f.schema sourcePath).services.map (·.name)
        = f.messages.map (·.name.name) ++ f.services.map (·.name.name) := by
      simp only [schema, Schema.identify, List.map_map]
      rfl
    rw [hnames]
    exact nodup_names hdecls
  · obtain ⟨x, hx, rfl⟩ := List.mem_map.mp hm
    exact lowerMessage_wellFormed (hmessages x hx) (hread.fields x hx)
  · -- identities do not count
    obtain ⟨y, hy, rfl⟩ := List.mem_map.mp hs
    obtain ⟨x, hx, rfl⟩ := List.mem_map.mp hy
    have hwell : (f.lowerService x).WellFormed (f.schema sourcePath) :=
      lowerService_wellFormed (hservices x hx)
    exact ⟨hwell.names, hwell.methods, hwell.annots⟩

end Tree.File

/-- Every schema that compilation gives is well formed. -/
theorem compileSource_wellFormed {src sourcePath : Bytes} {allowMissingPackage : Bool}
    {c : Compilation} {s : Schema} (h : compileSource src sourcePath allowMissingPackage = .ok c)
    (hs : c.outcome = .ok s) : s.WellFormed := by
  cases hparse : parseFile src allowMissingPackage with
  | error e => simp [compileSource, hparse, Except.map] at h
  -- a source that is accepted has a tree, whose errors are none
  | ok f =>
    simp only [compileSource, hparse, Except.map, Except.ok.injEq] at h
    subst h
    simp only [Tree.File.compile] at hs
    split at hs
    · next hempty =>
      cases hs
      exact Tree.File.schema_wellFormed (Tree.File.read_of_parseFile hparse)
        (List.isEmpty_iff.mp hempty)
    · cases hs

/-- That there is a schema can be seen by evaluation, without a look at the schema. -/
theorem exists_outcome_eq_ok {src sourcePath : Bytes} {allowMissingPackage : Bool}
    (h : (compileSource src sourcePath allowMissingPackage).toOption.any (·.outcome.isOk) = true) :
    ∃ c s, compileSource src sourcePath allowMissingPackage = .ok c ∧ c.outcome = .ok s := by
  cases hc : compileSource src sourcePath allowMissingPackage with
  | error e => simp [hc, Except.toOption] at h
  | ok c =>
    cases hs : c.outcome with
    | error l => simp [hc, hs, Except.toOption, Except.isOk, Except.toBool] at h
    | ok s => exact ⟨c, s, rfl, hs⟩

/-- What a schema is like can be seen by evaluation as well. -/
theorem exists_outcome_of_any {src sourcePath : Bytes} {allowMissingPackage : Bool}
    {p : Schema → Bool}
    (h : (compileSource src sourcePath allowMissingPackage).toOption.any
      (·.outcome.toOption.any p) = true) :
    ∃ c s, compileSource src sourcePath allowMissingPackage = .ok c ∧ c.outcome = .ok s
      ∧ p s = true := by
  cases hc : compileSource src sourcePath allowMissingPackage with
  | error e => simp [hc, Except.toOption] at h
  | ok c =>
    cases hs : c.outcome with
    | error l => simp [hc, hs, Except.toOption] at h
    | ok s => exact ⟨c, s, rfl, hs, by simpa [hc, hs, Except.toOption] using h⟩

/-- A file with both kinds of numbers, a type that refers to itself and annotations that are
bound to their targets. -/
theorem compileSource_wellFormed_service :
    ∃ c s, compileSource ("package p;message M\x7bM y;@default(1)int32 x=7;\x7d"
        ++ "@codegen(server=false)service S\x7brpc m(M)->M;\x7d") [] false = .ok c
      ∧ c.outcome = .ok s ∧ s.WellFormed := by
  have hok : (compileSource ("package p;message M\x7bM y;@default(1)int32 x=7;\x7d"
      ++ "@codegen(server=false)service S\x7brpc m(M)->M;\x7d") [] false).toOption.any
        (·.outcome.isOk) = true := by decide +kernel
  obtain ⟨c, s, hc, hs⟩ := exists_outcome_eq_ok hok
  exact ⟨c, s, hc, hs, compileSource_wellFormed hc hs⟩

end Idl
