import Idl.Proofs.Compile.Portable
import Idl.Proofs.Compile.Reports
import Idl.Proofs.Proto.Lowering

/-!
# Which schemas have a protobuf file

The fields of a message share a scope with the groups of its optional fields. A group is named after
its field with an underscore in front, and no field is kept from having this name. Then there is no
protobuf file; but there is none anyway, since two names of fields must not be the same but for
capitals and underscores. That is all that can go wrong with a compiled schema.

* §1 names, §2 the scope of a message, §3 well-formed descriptors, §4 compiled schemas.
-/

namespace Idl

open Proto (isIdentifier isPackage)

/-! ## §1 Names -/

/-- There are no other octets in an identifier than those of words. -/
theorem Proto.isWord_of_isIdentifier {b : Bytes} (h : isIdentifier b = true) :
    ∀ c ∈ b, Bytes.isWord c = true := by
  cases b with
  | nil => nofun
  | cons c r =>
    obtain ⟨hfirst, hrest⟩ := Bool.and_eq_true_iff.mp h
    refine List.forall_mem_cons.mpr ⟨?_, List.all_eq_true.mp hrest⟩
    rcases Bool.or_eq_true_iff.mp hfirst with hletter | hunder
    · simp [Bytes.isWord, hletter]
    · rw [beq_iff_eq.mp hunder]
      decide

/-- The names in a file are identifiers. -/
theorem Tree.File.isIdentifier_of_has {src : Bytes} {allowMissingPackage : Bool} {f : Tree.File}
    (hf : parseFile src allowMissingPackage = .ok f) {i : Tree.Ident} (hi : f.Has i.node) :
    isIdentifier i.name = true := by
  obtain ⟨l, t, hlex, ht, htext, u, hu, hkind⟩ := exists_token hf hi
  cases hu
  obtain ⟨c, r, extra, hscan, heq⟩ := lex_scanned hlex ht
  have hident : scanToken c r = .ok (.ident, extra) := hkind ▸ hscan
  obtain ⟨hfirst, -⟩ := scanToken_ident hident
  have hwords := (List.forall_mem_cons.mp (isWord_of_ident hident)).2
  rw [← htext, heq, isIdentifier, Bool.and_eq_true, List.all_eq_true]
  exact ⟨by simpa [or_comm] using hfirst, hwords⟩

/-- The names in a schema are identifiers. -/
structure Schema.Identified (s : Schema) : Prop where
  package : s.package ≠ [] → isPackage s.package = true
  messages : ∀ m ∈ s.messages, isIdentifier m.name = true
  fields : ∀ m ∈ s.messages, ∀ f ∈ m.fields, isIdentifier f.name = true
  services : ∀ v ∈ s.services, isIdentifier v.name = true
  methods : ∀ v ∈ s.services, ∀ m ∈ v.methods, isIdentifier m.name = true

/-- A dotted name is a sequence of identifiers if its components are. -/
theorem Tree.Path.isPackage_dotted {p : Tree.Path}
    (h : ∀ i ∈ p.parts, isIdentifier i.name = true) : isPackage p.dotted = true := by
  have hdot : ∀ b ∈ p.parts.map (·.name), (0x2E : UInt8) ∉ b := by
    intro b hb hmem
    obtain ⟨i, hi, rfl⟩ := List.mem_map.mp hb
    exact absurd (Proto.isWord_of_isIdentifier (h i hi) _ hmem) (by decide)
  have hsplit : Bytes.split 0x2E p.dotted = p.parts.map (·.name) := Bytes.split_join hdot
  rw [isPackage, hsplit, List.all_map]
  exact List.all_eq_true.mpr h

/-- The package of a file is a sequence of identifiers. -/
theorem Tree.File.isPackage_packageName {src : Bytes} {allowMissingPackage : Bool} {f : Tree.File}
    (hf : parseFile src allowMissingPackage = .ok f) (hne : f.packageName ≠ []) :
    isPackage f.packageName = true := by
  unfold packageName at hne ⊢
  cases hp : f.package with
  | none => simp [hp] at hne
  | some p =>
    rw [Option.map_some, Option.getD_some]
    exact Path.isPackage_dotted fun i hi =>
      isIdentifier_of_has hf ((has_packageName hp).trans (Path.has_ident hi))

/-- The names of a compiled schema are identifiers, since they are names of its source. -/
theorem identified_of_compileSource {src sourcePath : Bytes} {allowMissingPackage : Bool}
    {c : Compilation} {s : Schema} (h : compileSource src sourcePath allowMissingPackage = .ok c)
    (hs : c.outcome = .ok s) : s.Identified := by
  obtain ⟨f, hparse, -, rfl⟩ := exists_of_compileSource h hs
  have hname {i : Tree.Ident} (hi : f.Has i.node) := Tree.File.isIdentifier_of_has hparse hi
  refine ⟨Tree.File.isPackage_packageName hparse, ?_, ?_, ?_, ?_⟩
  · intro lowered hlowered
    obtain ⟨m, hm, rfl⟩ := List.mem_map.mp hlowered
    exact hname ((Tree.File.has_message hm).trans m.has_name)
  · -- the fields, numbered on the way
    intro lowered hlowered field hfield
    obtain ⟨m, hm, rfl⟩ := List.mem_map.mp hlowered
    obtain ⟨⟨n, x⟩, hx, rfl⟩ := List.mem_map.mp hfield
    have hmem : x ∈ m.fields := by
      rw [← Tree.Message.map_snd_numbered]
      exact List.mem_map_of_mem hx
    exact hname ((Tree.File.has_message hm).trans ((m.has_field hmem).trans x.has_name))
  · intro identified hidentified
    obtain ⟨lowered, hlowered, rfl⟩ := List.mem_map.mp hidentified
    obtain ⟨v, hv, rfl⟩ := List.mem_map.mp hlowered
    exact hname ((Tree.File.has_service hv).trans v.has_name)
  · intro identified hidentified method hmethod
    obtain ⟨lowered, hlowered, rfl⟩ := List.mem_map.mp hidentified
    obtain ⟨v, hv, rfl⟩ := List.mem_map.mp hlowered
    obtain ⟨x, hx, rfl⟩ := List.mem_map.mp hmethod
    exact hname ((Tree.File.has_service hv).trans ((v.has_method hx).trans x.has_name))

namespace Proto

/-! ## §2 The scope of a message -/

/-- The names that a message declares: those of its fields, and those of its groups. -/
def Message.scope (m : Message) : List Bytes := m.fields.map (·.name) ++ m.oneofs

/-- The name of the group of a field. -/
def groupName (f : Idl.Field) : Bytes := "_" ++ f.name

/-- What does not depend on the group of a field is the same for all fields. -/
theorem map_lowerFields {α : Type} {g : Field → α} {k : Idl.Field → α} {package : Bytes}
    (h : ∀ n f, g (lowerField package n f) = k f) (groups : Nat) (l : List Idl.Field) :
    (lowerFields package groups l).map g = l.map k := by
  induction l generalizing groups with
  | nil => rfl
  | cons f r ih => rw [lowerFields, List.map_cons, List.map_cons, h, ih]

/-- Nothing is declared twice if and only if no field has the name of a group. -/
theorem nodup_scope_iff (package : Bytes) {m : Idl.Message} (h : (m.fields.map (·.name)).Nodup) :
    (lowerMessage package m).scope.Nodup
      ↔ ∀ f ∈ m.fields, f.optional = true → ∀ g ∈ m.fields, g.name ≠ groupName f := by
  -- the groups of different fields have different names
  have hgroups : ((m.fields.filter (·.optional)).map groupName).Nodup := by
    have hoptional : ((m.fields.filter (·.optional)).map (·.name)).Nodup :=
      h.sublist ((List.filter_sublist).map _)
    have heq : (m.fields.filter (·.optional)).map groupName
        = ((m.fields.filter (·.optional)).map (·.name)).map (("_" : Bytes) ++ ·) := by
      rw [List.map_map]
      rfl
    rw [heq]
    exact hoptional.map fun a b hab => List.append_cancel_left hab
  -- so only a field and a group can have one name
  have hscope : (lowerMessage package m).scope
      = m.fields.map (·.name) ++ (m.fields.filter (·.optional)).map groupName := by
    rw [Message.scope, lowerMessage, map_lowerFields fun _ _ => rfl]
    rfl
  rw [hscope, List.nodup_append]
  constructor
  · rintro ⟨-, -, hapart⟩ f hf hoptional g hg
    exact hapart _ (List.mem_map_of_mem hg) _
      (List.mem_map_of_mem (List.mem_filter.mpr ⟨hf, hoptional⟩))
  · refine fun hfree => ⟨h, hgroups, fun a ha b hb => ?_⟩
    obtain ⟨g, hg, rfl⟩ := List.mem_map.mp ha
    obtain ⟨f, hf, rfl⟩ := List.mem_map.mp hb
    obtain ⟨hf, hoptional⟩ := List.mem_filter.mp hf
    exact hfree f hf hoptional g hg

/-- The names of fields are different even without capitals and underscores. -/
def Spread (m : Idl.Message) : Prop := (m.fields.map fun f => foldedName f.name).Nodup

instance (m : Idl.Message) : Decidable (Spread m) :=
  inferInstanceAs (Decidable (m.fields.map fun f => foldedName f.name).Nodup)

/-- A field that has the name of a group is the same as another field but for an underscore. -/
theorem Spread.ne_groupName {m : Idl.Message} (h : Spread m) {f g : Idl.Field} (hf : f ∈ m.fields)
    (hg : g ∈ m.fields) : g.name ≠ groupName f := by
  intro hname
  have hfolded : foldedName g.name = foldedName f.name := by
    rw [hname]
    rfl
  obtain rfl := List.inj_on_of_nodup_map h hg hf hfolded
  have hlength := congrArg List.length hname
  rw [groupName, List.length_append] at hlength
  have hone : ("_" : Bytes).length = 1 := by decide
  omega

/-! ## §3 Well-formed descriptors -/

section Valid

variable {s : Schema}

theorem exists_of_mem_lowerFields {package : Bytes} {groups : Nat} {l : List Idl.Field} {d : Field}
    (h : d ∈ lowerFields package groups l) : ∃ f ∈ l, ∃ n, d = lowerField package n f := by
  induction l generalizing groups with
  | nil => cases h
  | cons f r ih =>
    rcases List.mem_cons.mp h with rfl | h
    · exact ⟨f, List.mem_cons_self, groups, rfl⟩
    · obtain ⟨g, hg, hd⟩ := ih h
      exact ⟨g, List.mem_cons_of_mem _ hg, hd⟩

theorem defines_fullName {m : Idl.Message} (hm : m ∈ s.messages) :
    (File.ofSchema s).defines (fullName s.package m.name) = true := by
  have hmem : fullName s.package m.name ∈ (File.ofSchema s).messageNames := by
    simp only [File.messageNames, File.ofSchema, List.map_map]
    exact List.mem_map.mpr ⟨m, hm, rfl⟩
  simp [File.defines, hmem]

/-- The messages that methods take or give are defined. -/
theorem defines_methodType {t : Option Ty} (ht : t ∈ methodTypes s) (hknown : ∀ x ∈ t, x.Known s) :
    (File.ofSchema s).defines (methodType s.package t) = true := by
  -- what a method needs from other files is among those imported
  have hempty : t = none → emptyFile ∈ (File.ofSchema s).dependencies := by
    rintro rfl
    exact mem_needed.mpr (.inl ⟨rfl, ht⟩)
  have hwrappers {x : Ty} (hx : t = some x) (hplain : x.isMessage = false) :
      wrappersFile ∈ (File.ofSchema s).dependencies :=
    mem_needed.mpr (.inr ⟨rfl, x, hx ▸ ht, hplain⟩)
  rcases t with - | k | name | n
  · simp [File.defines, File.importedNames, hempty rfl, methodType]
  · have hmem := hwrappers rfl rfl
    cases k <;> simp [File.defines, File.importedNames, hmem, methodType, kindOf]
  · obtain ⟨m, hm, rfl⟩ := hknown _ rfl
    exact defines_fullName hm
  · exact (hknown _ rfl).elim

theorem fieldIsValid_lowerField (hwell : s.WellFormed) (hnames : s.Identified) {m : Idl.Message}
    (hm : m ∈ s.messages) {f : Idl.Field} (hf : f ∈ m.fields) (n : Nat) :
    (File.ofSchema s).fieldIsValid (lowerField s.package n f) = true := by
  have hfield := (hwell.messages m hm).fields f hf
  have hle : f.number ≤ maxNumber := hfield.number_le
  have hpos : 0 < f.number := hfield.number_pos
  have hname := hnames.fields m hm f hf
  have hknown := hfield.type
  simp only [File.fieldIsValid, lowerField, hname, hpos, hle, decide_true, Bool.true_and,
    Bool.and_true]
  -- of its type only that of a message has to be defined, and a known one is a message of the file
  generalize f.type = t at hknown ⊢
  cases t with
  | scalar k => rfl
  | message name =>
    obtain ⟨m, hm, rfl⟩ := hknown
    exact defines_fullName hm
  | unassigned n => exact hknown.elim

/-- A message is well formed if its fields can be told apart. -/
theorem messageIsValid_iff (hwell : s.WellFormed) (hnames : s.Identified) {m : Idl.Message}
    (hm : m ∈ s.messages) :
    (File.ofSchema s).messageIsValid (lowerMessage s.package m) = true ↔ Spread m := by
  have hmessage := hwell.messages m hm
  have hname : isIdentifier m.name = true := hnames.messages m hm
  have hfields : (lowerMessage s.package m).fields.all (File.ofSchema s).fieldIsValid = true := by
    refine List.all_eq_true.mpr fun d hd => ?_
    obtain ⟨f, hf, n, rfl⟩ := exists_of_mem_lowerFields hd
    exact fieldIsValid_lowerField hwell hnames hm hf n
  have hnumbers : ((lowerMessage s.package m).fields.map (·.number)).Nodup := by
    rw [lowerMessage, map_lowerFields fun _ _ => rfl]
    exact hmessage.numbers
  -- of all checks only the one of the folded names is left to decide
  have hspread : ((lowerMessage s.package m).fields.map fun d => foldedName d.name).Nodup
      ↔ Spread m := by
    rw [lowerMessage, map_lowerFields (k := fun f => foldedName f.name) fun _ _ => rfl]
    rfl
  have hscope : Spread m → (lowerMessage s.package m).scope.Nodup := fun h =>
    (nodup_scope_iff s.package hmessage.names).mpr fun f hf _ g hg => h.ne_groupName hf hg
  simp only [File.messageIsValid, Bool.and_eq_true, decide_eq_true_eq, hspread]
  exact ⟨And.right, fun h => ⟨⟨⟨⟨hname, hfields⟩, hscope h⟩, hnumbers⟩, h⟩⟩

/-- A service of a compiled schema passes. -/
theorem serviceIsValid_lowerService (hwell : s.WellFormed) (hnames : s.Identified)
    {v : Idl.Service} (hv : v ∈ s.services) :
    (File.ofSchema s).serviceIsValid (lowerService s.package v) = true := by
  have hservice := hwell.services v hv
  have hname : isIdentifier v.name = true := hnames.services v hv
  have hdistinct : ((lowerService s.package v).methods.map (·.name)).Nodup := by
    rw [lowerService, List.map_map]
    exact hservice.names
  have hmethods : ∀ d ∈ (lowerService s.package v).methods, isIdentifier d.name = true
      ∧ (File.ofSchema s).defines d.input = true ∧ (File.ofSchema s).defines d.output = true := by
    intro d hd
    obtain ⟨m, hm, rfl⟩ := List.mem_map.mp hd
    have hinput := mem_methodTypes.mpr ⟨v, hv, m, hm, .inl rfl⟩
    have houtput := mem_methodTypes.mpr ⟨v, hv, m, hm, .inr rfl⟩
    exact ⟨hnames.methods v hv m hm, defines_methodType hinput (hservice.methods m hm).input,
      defines_methodType houtput (hservice.methods m hm).output⟩
  simp only [File.serviceIsValid, Bool.and_eq_true, decide_eq_true_eq, List.all_eq_true, and_assoc]
  exact ⟨hname, hdistinct, hmethods⟩

/-- The file of a schema is well formed if the fields of all messages can be told apart. -/
theorem isValid_ofSchema_iff (hwell : s.WellFormed) (hnames : s.Identified) :
    (File.ofSchema s).isValid = true ↔ ∀ m ∈ s.messages, Spread m := by
  have hpackage : (s.package.isEmpty || isPackage s.package) = true := by
    by_cases hempty : s.package = []
    · rw [hempty]
      rfl
    · rw [hnames.package hempty, Bool.or_true]
  have hdistinct : ((File.ofSchema s).messages.map (·.name)
      ++ (File.ofSchema s).services.map (·.name)).Nodup := by
    simp only [File.ofSchema, List.map_map]
    exact hwell.names
  have hservices : (File.ofSchema s).services.all (File.ofSchema s).serviceIsValid = true := by
    refine List.all_eq_true.mpr fun d hd => ?_
    obtain ⟨v, hv, rfl⟩ := List.mem_map.mp hd
    exact serviceIsValid_lowerService hwell hnames hv
  -- everything else holds of compiled schemas, so the messages decide
  have hmessages : (File.ofSchema s).messages.all (File.ofSchema s).messageIsValid = true
      ↔ ∀ m ∈ s.messages, Spread m := by
    rw [List.all_eq_true]
    constructor
    · exact fun h m hm => (messageIsValid_iff hwell hnames hm).mp (h _ (List.mem_map_of_mem hm))
    · intro h d hd
      obtain ⟨m, hm, rfl⟩ := List.mem_map.mp hd
      exact (messageIsValid_iff hwell hnames hm).mpr (h m hm)
  simp only [File.isValid, Bool.and_eq_true, decide_eq_true_eq, hmessages]
  exact ⟨fun h => h.1.2, fun h => ⟨⟨⟨hpackage, hdistinct⟩, h⟩, hservices⟩⟩

end Valid

/-! ## §4 Compiled schemas -/

/-- In a message of a compiled schema nothing is declared twice if and only if no field is named
after an optional field with an underscore in front. A schema has a protobuf file if and only if the
names of the fields of each message are different without capitals and underscores. So there is none
if anything is declared twice. -/
theorem nodup_scope_of_compileSource {src sourcePath : Bytes} {allowMissingPackage : Bool}
    {c : Compilation} {s : Schema} (h : compileSource src sourcePath allowMissingPackage = .ok c)
    (hs : c.outcome = .ok s) :
    (∀ m ∈ s.messages, (lowerMessage s.package m).scope.Nodup
        ↔ ∀ f ∈ m.fields, f.optional = true → ∀ g ∈ m.fields, g.name ≠ groupName f)
      ∧ (s.toProto?.isSome = true ↔ ∀ m ∈ s.messages, Spread m)
      ∧ ((∃ m ∈ s.messages, ¬(lowerMessage s.package m).scope.Nodup) → s.toProto? = none) := by
  have hwell := compileSource_wellFormed h hs
  have hscope := fun m hm => nodup_scope_iff s.package (hwell.messages m hm).names
  have hsome : s.toProto?.isSome = true ↔ ∀ m ∈ s.messages, Spread m := by
    rw [← isValid_ofSchema_iff hwell (identified_of_compileSource h hs), Schema.toProto?]
    split
    · next hvalid => simp [hvalid]
    · next hvalid => simp [hvalid]
  refine ⟨hscope, hsome, ?_⟩
  rintro ⟨m, hm, htwice⟩
  -- a group that has the name of a field would fold to the same
  refine Option.not_isSome_iff_eq_none.mp fun hfile => htwice ((hscope m hm).mpr ?_)
  exact fun f hf _ g hg => (hsome.mp hfile m hm).ne_groupName hf hg

/-- An optional field `a` next to a field `_a`: the group of the one has the name of the other. -/
theorem nodup_scope_of_compileSource_underscore :
    ∃ c s, compileSource "package p;message M\x7bint32 a?;int32 _a;\x7d" [] false = .ok c
      ∧ c.outcome = .ok s
      ∧ (∃ m ∈ s.messages, (lowerMessage s.package m).scope = ["a", "_a", "_a"])
      ∧ s.toProto? = none := by
  have hok : (compileSource "package p;message M\x7bint32 a?;int32 _a;\x7d" []
      false).toOption.any (·.outcome.toOption.any fun s =>
        s.messages.any fun m => (lowerMessage s.package m).scope == ["a", "_a", "_a"]) = true := by
    decide +kernel
  obtain ⟨c, s, hc, hs, hany⟩ := exists_outcome_of_any hok
  obtain ⟨m, hm, hscope⟩ := List.any_eq_true.mp hany
  refine ⟨c, s, hc, hs, ⟨m, hm, beq_iff_eq.mp hscope⟩, ?_⟩
  refine (nodup_scope_of_compileSource hc hs).2.2 ⟨m, hm, ?_⟩
  rw [beq_iff_eq.mp hscope]
  decide

end Proto

end Idl
