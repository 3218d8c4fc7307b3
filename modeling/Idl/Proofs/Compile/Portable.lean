import Idl.Proofs.Compile.Rewording
import Idl.Proofs.Grammar.Completeness
import Idl.Proofs.Grammar.Rewording
import Idl.Proofs.Token.Positions

/-!
# What is compiled can be written as text

The literals of a source denote numbers that text can carry, its places have coordinates of 32 bits,
and its names are not empty. So a schema that comes from a source is portable, like one that comes
from a document: to write either one as a document and read it again gives the same schema.

Every name that a schema takes over from its source is a word of ASCII letters, digits and
underscores. The name of its package consists of words with dots between them.

* §1 a file is akin to itself, §2 the parts of a schema, §3 documents of schemas, §4 names.
-/

namespace Idl

/-! ## §1 A file is akin to itself -/

/-- Nothing is reworded; the places are portable. -/
def Rewording.still : Rewording where
  place := Pos.Portable
  oldText := [0x22, 0x22]
  old := []
  newText := [0x22, 0x22]
  new := []
  old_value := rfl
  new_value := rfl

theorem Aligned.refl {K : Rewording} {l : List Token} (h : ∀ t ∈ l, t.Akin K t) :
    Aligned K 0 l l := by
  induction l with
  | nil => exact .nil
  | cons t l ih =>
    obtain ⟨ht, hl⟩ := List.forall_mem_cons.mp h
    exact .cons ht (ih hl)

theorem Pos.Within.portable {n : Nat} {p : Pos} (h : p.Within n) (hn : n ≤ maxSourceSize) :
    p.Portable := by
  obtain ⟨hline, hcol⟩ := h
  unfold maxSourceSize at hn
  exact ⟨by omega, by omega⟩

/-- Of a file that was read, all names, literals and places are known. -/
theorem akin_of_parseFile {src : Bytes} {allowMissingPackage : Bool} {f : Tree.File}
    (h : parseFile src allowMissingPackage = .ok f) : f.Akin .still 0 f := by
  obtain ⟨l, d, hlex, hfile⟩ := exists_of_parseFile_eq_ok h
  obtain ⟨⟨e, he⟩, -⟩ := Grammar.file_sound (significant_proper hlex) hfile
  obtain ⟨hlexes, heof, -⟩ := lex_lexes hlex he
  obtain ⟨htokens, hending⟩ := within_of_lex hlex
  have hsize := length_le_of_lex hlex
  -- the tokens are compared with themselves, so what is left is that they are portable
  have hcursor : Cursor.Akin .still 0 ⟨l.significant, l.ending, 0⟩ ⟨l.significant, l.ending, 0⟩ := by
    refine ⟨significant_proper hlex, Aligned.refl fun t ht => ?_, fun e he => ⟨e, he, ?_⟩⟩
    · have hmem := (List.mem_filter.mp ht).1
      exact ⟨rfl, rfl, (htokens t hmem).portable hsize, hlexes.isName hmem⟩
    · -- the end is no name
      have hkind : e.kind = .eof := (lex_lexes hlex he).2.1
      exact ⟨rfl, rfl, (hending e he).portable hsize, fun h => by rw [hkind] at h; cases h⟩
  obtain ⟨f', d', hfile', hakin⟩ := Grammar.exists_file_akin hcursor hfile
  rw [hfile] at hfile'
  cases hfile'
  exact hakin

/-! ## §2 The parts of a schema -/

namespace Tree.File

variable {f f' : File} {i j : Nat}

theorem Akin.sourced_typeOf (h : f.Akin .still i f') {r : TypeRef}
    (hr : (f.resolve? r).isSome = true) : (f.typeOf r).Sourced := by
  rcases typeOf_cases hr with ⟨s, hs⟩ | ⟨m, hm, hname⟩
  · rw [hs]
    exact ⟨trivial, trivial⟩
  · rw [hname]
    obtain ⟨j, k, -, hmessages, -⟩ := summed_decls h.decls
    obtain ⟨n, m', -, hmm⟩ := hmessages.exists_of_mem hm
    cases hmm with
    | mk place annots name fields => exact ⟨name.word.nonempty, isValid_name name.word⟩

theorem portable_source {target : Target} {p : Pos} {l m : List Annot} (hp : p.Portable)
    (h : Summed (Annot.Akin .still) i l m) : ((meanings target l).source.getD p).Portable := by
  cases hsource : (meanings target l).source with
  | none => exact hp
  | some q => exact (sourced_meanings h).2 q hsource

/-- A message of an accepted file can be sent on. -/
theorem Akin.sourced_lowerMessage (h : f.Akin .still i f') {m m' : Message}
    (hmm : m.Akin .still j m') (hm : f.messageErrors m = []) : (f.lowerMessage m).Sourced := by
  cases hmm with
  | mk place annots name fields =>
    unfold File.messageErrors at hm
    simp only [List.append_eq_nil_iff, List.flatMap_eq_nil_iff] at hm
    refine ⟨isValid_name name.word, (sourced_meanings annots).1, portable_source place annots,
      fun x hx => ?_⟩
    obtain ⟨⟨position, y⟩, hy, rfl⟩ := List.mem_map.mp hx
    have hmem : y ∈ m.fields := by
      rw [← Message.map_snd_numbered]
      exact List.mem_map_of_mem hy
    obtain ⟨k, z, -, hyz⟩ := fields.exists_of_mem hmem
    -- no error was reported, so the type resolves
    have htype := (List.append_eq_nil_iff.mp (hm.1.2 y hmem)).1
    exact ⟨isValid_name hyz.name.word, h.sourced_typeOf (typeErrors_eq_nil_iff.mp htype),
      (sourced_meanings hyz.annots).1, portable_source hyz.place hyz.annots⟩

/-- A method of an accepted file can be sent on. -/
theorem Akin.sourced_lowerMethod (h : f.Akin .still i f') {s : Service} {x y : Method}
    (hxy : x.Akin .still j y) (hx : f.methodErrors s x = []) : (f.lowerMethod x).Sourced := by
  unfold File.methodErrors at hx
  simp only [List.append_eq_nil_iff, List.flatMap_eq_nil_iff, List.mem_append, Option.mem_toList,
    typeErrors_eq_nil_iff] at hx
  obtain ⟨htypes, -⟩ := hx
  -- a type that resolves is one with a name that can be sent
  have hsourced {o : Option TypeRef} (ho : ∀ r ∈ o, (f.resolve? r).isSome = true) :
      ∀ t ∈ o.map f.typeOf, t.Sourced := by
    intro t ht
    obtain ⟨r, hr, rfl⟩ := Option.mem_map.mp ht
    exact h.sourced_typeOf (ho r hr)
  exact ⟨isValid_name hxy.name.word, hsourced fun r hr => htypes r (.inl hr),
    hsourced fun r hr => htypes r (.inr hr), (sourced_meanings hxy.annots).1,
    portable_source hxy.place hxy.annots⟩

theorem Akin.sourced_lowerService (h : f.Akin .still i f') {s s' : Service}
    (hss : s.Akin .still j s') (hs : f.serviceErrors s = []) : (f.lowerService s).Sourced := by
  cases hss with
  | mk place annots name methods =>
    unfold File.serviceErrors at hs
    simp only [List.append_eq_nil_iff, List.flatMap_eq_nil_iff] at hs
    refine ⟨isValid_name name.word, (sourced_meanings annots).1, portable_source place annots,
      fun x hx => ?_⟩
    obtain ⟨y, hy, rfl⟩ := List.mem_map.mp hx
    obtain ⟨k, z, -, hyz⟩ := methods.exists_of_mem hy
    exact h.sourced_lowerMethod hyz (hs.2 y hy)

theorem Akin.sourced_lowerOptions (h : f.Akin .still i f') :
    ∀ a ∈ f.lowerOptions, a.Sourced := by
  have hoptions := h.options
  unfold File.lowerOptions
  generalize f.options = l, f'.options = m at hoptions
  induction hoptions with
  | nil => nofun
  | cons head tail ih =>
    refine List.forall_mem_cons.mpr ⟨⟨rfl, nofun, ?_⟩, ih⟩
    exact List.forall_mem_singleton.mpr ⟨head.name.isValid_dotted, Value.Akin.sourced head.value⟩

theorem Akin.isValid_packageName (h : f.Akin .still i f') :
    Utf8.isValid f.packageName = true := by
  have hpackage := h.package
  unfold File.packageName
  generalize f.package = p, f'.package = q at hpackage
  cases hpackage with
  | none => rfl
  | some hname => exact hname.isValid_dotted

/-- What a file means is what a source can say. -/
theorem Akin.sourced_schema (h : f.Akin .still i f') (hf : f.errors = []) (sourcePath : Bytes) :
    (f.schema sourcePath).Sourced := by
  obtain ⟨-, -, -, hmessages, hservices⟩ := File.errors_eq_nil hf
  obtain ⟨j, k, -, hj, hk⟩ := summed_decls h.decls
  refine ⟨h.isValid_packageName, h.sourced_lowerOptions, fun m hm => ?_, fun s hs => ?_,
    Document.identify_identify _⟩
  · obtain ⟨x, hx, rfl⟩ := List.mem_map.mp hm
    obtain ⟨n, y, -, hxy⟩ := hj.exists_of_mem hx
    exact h.sourced_lowerMessage hxy (hmessages x hx)
  · obtain ⟨svc, hsvc, rfl⟩ := List.mem_map.mp hs
    obtain ⟨x, hx, rfl⟩ := List.mem_map.mp hsvc
    obtain ⟨n, y, -, hxy⟩ := hk.exists_of_mem hx
    obtain ⟨name, annots, source, methods⟩ := h.sourced_lowerService hxy (hservices x hx)
    exact ⟨name, annots, source, methods⟩

end Tree.File

/-! ## §3 Documents of schemas -/

/-- The identifier of a portable schema is the digest of its encoding. -/
theorem Schema.Portable.id_eq {s : Schema} (h : s.Portable) : s.id = .digest s.encoding :=
  (congrArg Schema.id h.identified).symm

/-- A schema that is compiled comes from a file without errors. -/
theorem exists_of_compileSource {src sourcePath : Bytes} {allowMissingPackage : Bool}
    {c : Compilation} {s : Schema} (h : compileSource src sourcePath allowMissingPackage = .ok c)
    (hs : c.outcome = .ok s) :
    ∃ f, parseFile src allowMissingPackage = .ok f ∧ f.errors = [] ∧ s = f.schema sourcePath := by
  cases hparse : parseFile src allowMissingPackage with
  | error e => simp [compileSource, hparse, Except.map] at h
  | ok f =>
    simp only [compileSource, hparse, Except.map, Except.ok.injEq] at h
    subst h
    simp only [Tree.File.compile] at hs
    -- an outcome is a schema exactly when no error was found
    split at hs
    · next hempty =>
      cases hs
      exact ⟨f, rfl, List.isEmpty_iff.mp hempty, rfl⟩
    · cases hs

/-- Every schema that compilation gives is one that a source can say. -/
theorem sourced_of_compileSource {src sourcePath : Bytes} {allowMissingPackage : Bool}
    {c : Compilation} {s : Schema} (h : compileSource src sourcePath allowMissingPackage = .ok c)
    (hs : c.outcome = .ok s) : s.Sourced := by
  obtain ⟨f, hparse, hf, rfl⟩ := exists_of_compileSource h hs
  exact (akin_of_parseFile hparse).sourced_schema hf sourcePath

theorem portable_of_compileSource {src sourcePath : Bytes} {allowMissingPackage : Bool}
    {c : Compilation} {s : Schema} (h : compileSource src sourcePath allowMissingPackage = .ok c)
    (hs : c.outcome = .ok s) : s.Portable :=
  (sourced_of_compileSource h hs).portable

/-- To write a schema as a document and read the document again gives the same schema, with its
identifiers and canonical texts, whether the schema was compiled or read from another document. -/
theorem toSchema_ofSchema_of_origin {s : Schema}
    (h : (∃ src sourcePath allowMissingPackage c,
        compileSource src sourcePath allowMissingPackage = .ok c ∧ c.outcome = .ok s)
      ∨ ∃ d : Document, d.toSchema = .ok s) :
    (Document.ofSchema s).toSchema = .ok s := by
  rcases h with ⟨src, sourcePath, allowMissingPackage, c, hc, hs⟩ | ⟨d, hd⟩
  · exact Document.toSchema_ofSchema (portable_of_compileSource hc hs)
  · exact Document.toSchema_ofSchema (Document.portable_of_toSchema hd)

/-- A document that spells a place, a type and constants in other ways than are written. -/
theorem toSchema_ofSchema_respelled :
    ∃ s, (⟨"p", [], "v", "s", [], [some ⟨"M", [], [some ⟨"a", none, [some ⟨"k", some ⟨"int", "+5"⟩⟩,
          some ⟨"l", some ⟨"bool", "T"⟩⟩, some ⟨"m", some ⟨"uint", "7"⟩⟩,
          some ⟨"n", some ⟨"float", "1e3"⟩⟩]⟩], "01:2",
          [some ⟨"x", some ⟨"double", []⟩, false, 1, [[0xFF]], [], []⟩]⟩], []⟩ : Document).toSchema
        = .ok s
      ∧ s.messages.map (·.source) = [⟨1, 2⟩]
      ∧ (Document.ofSchema s).toSchema = .ok s := by
  -- the number, the truth value and the place are spelled in ways that no export uses
  have hsource : ((⟨"p", [], "v", "s", [], [some ⟨"M", [], [some ⟨"a", none,
      [some ⟨"k", some ⟨"int", "+5"⟩⟩, some ⟨"l", some ⟨"bool", "T"⟩⟩,
        some ⟨"m", some ⟨"uint", "7"⟩⟩, some ⟨"n", some ⟨"float", "1e3"⟩⟩]⟩], "01:2",
      [some ⟨"x", some ⟨"double", []⟩, false, 1, [[0xFF]], [], []⟩]⟩], []⟩ : Document).toSchema).map
        (fun s => s.messages.map (·.source)) = .ok [⟨1, 2⟩] := by
    decide +kernel
  generalize (Document.mk _ _ _ _ _ _ _) = d at hsource ⊢
  cases hd : d.toSchema with
  | error e =>
    rw [hd] at hsource
    cases hsource
  | ok s =>
    rw [hd] at hsource
    exact ⟨s, rfl, Except.ok.inj hsource, toSchema_ofSchema_of_origin (.inr ⟨d, hd⟩)⟩

/-! ## §4 Names -/

/-- The names of all messages, fields, services and methods are words. -/
structure Schema.Named (s : Schema) : Prop where
  messages : ∀ m ∈ s.messages, Bytes.IsName m.name
  fields : ∀ m ∈ s.messages, ∀ f ∈ m.fields, Bytes.IsName f.name
  services : ∀ v ∈ s.services, Bytes.IsName v.name
  methods : ∀ v ∈ s.services, ∀ m ∈ v.methods, Bytes.IsName m.name

namespace Tree

variable {i : Nat}

theorem Message.Akin.isName {m m' : Message} (h : m.Akin .still i m') :
    Bytes.IsName m.name.name ∧ ∀ f ∈ m.fields, Bytes.IsName f.name.name := by
  obtain ⟨-, -, name, fields⟩ := h
  refine ⟨name.word, fun f hf => ?_⟩
  obtain ⟨_, _, -, hakin⟩ := fields.exists_of_mem hf
  exact hakin.name.word

theorem Service.Akin.isName {v v' : Service} (h : v.Akin .still i v') :
    Bytes.IsName v.name.name ∧ ∀ m ∈ v.methods, Bytes.IsName m.name.name := by
  obtain ⟨-, -, name, methods⟩ := h
  refine ⟨name.word, fun m hm => ?_⟩
  obtain ⟨_, _, -, hakin⟩ := methods.exists_of_mem hm
  exact hakin.name.word

/-- The names of a file that was read are words, and so are those of its schema. -/
theorem File.Akin.named_schema {f f' : File} (h : f.Akin .still i f') (sourcePath : Bytes) :
    (f.schema sourcePath).Named := by
  obtain ⟨j, k, -, hj, hk⟩ := summed_decls h.decls
  have hmessage (m : Message) (hm : m ∈ f.messages) :
      Bytes.IsName m.name.name ∧ ∀ x ∈ m.fields, Bytes.IsName x.name.name := by
    obtain ⟨_, _, -, hakin⟩ := hj.exists_of_mem hm
    exact hakin.isName
  have hservice (v : Service) (hv : v ∈ f.services) :
      Bytes.IsName v.name.name ∧ ∀ x ∈ v.methods, Bytes.IsName x.name.name := by
    obtain ⟨_, _, -, hakin⟩ := hk.exists_of_mem hv
    exact hakin.isName
  refine ⟨fun m hm => ?_, fun m hm x hx => ?_, fun v hv => ?_, fun v hv x hx => ?_⟩
  · obtain ⟨n, hn, rfl⟩ := List.mem_map.mp hm
    exact (hmessage n hn).1
  · obtain ⟨n, hn, rfl⟩ := List.mem_map.mp hm
    obtain ⟨⟨position, y⟩, hy, rfl⟩ := List.mem_map.mp hx
    refine (hmessage n hn).2 y ?_
    rw [← Message.map_snd_numbered]
    exact List.mem_map_of_mem hy
  · obtain ⟨w, hw, rfl⟩ := List.mem_map.mp hv
    obtain ⟨n, hn, rfl⟩ := List.mem_map.mp hw
    exact (hservice n hn).1
  · obtain ⟨w, hw, rfl⟩ := List.mem_map.mp hv
    obtain ⟨n, hn, rfl⟩ := List.mem_map.mp hw
    obtain ⟨y, hy, rfl⟩ := List.mem_map.mp hx
    exact (hservice n hn).2 y hy

/-- The name of the package of a file consists of words with dots between them. -/
theorem File.Akin.octets_packageName {f f' : File} (h : f.Akin .still i f') :
    ∀ b ∈ f.packageName, Bytes.isWord b = true ∨ b = 0x2E := by
  have hpackage := h.package
  unfold File.packageName
  generalize f.package = p, f'.package = q at hpackage
  cases hpackage with
  | none => nofun
  | some hname =>
    refine Bytes.forall_mem_join ?_ fun t ht b hb => ?_
    · exact List.forall_mem_singleton.mpr (.inr rfl)
    · obtain ⟨i, hi, rfl⟩ := List.mem_map.mp ht
      exact .inl ((hname.isName i hi).octets b hb)

end Tree

/-- The names of every schema that compilation gives are words. -/
theorem named_of_compileSource {src sourcePath : Bytes} {allowMissingPackage : Bool}
    {c : Compilation} {s : Schema} (h : compileSource src sourcePath allowMissingPackage = .ok c)
    (hs : c.outcome = .ok s) : s.Named := by
  obtain ⟨f, hparse, -, rfl⟩ := exists_of_compileSource h hs
  exact (akin_of_parseFile hparse).named_schema sourcePath

/-- The octets of the package of every schema that compilation gives. -/
theorem octets_package_of_compileSource {src sourcePath : Bytes} {allowMissingPackage : Bool}
    {c : Compilation} {s : Schema} (h : compileSource src sourcePath allowMissingPackage = .ok c)
    (hs : c.outcome = .ok s) : ∀ b ∈ s.package, Bytes.isWord b = true ∨ b = 0x2E := by
  obtain ⟨f, hparse, -, rfl⟩ := exists_of_compileSource h hs
  exact (akin_of_parseFile hparse).octets_packageName

end Idl
