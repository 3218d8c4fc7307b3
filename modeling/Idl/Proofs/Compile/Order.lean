import Idl.Proofs.Compile.WellFormed
import Idl.Proofs.Schema.Identity
import Idl.Proofs.Tree.Relocation
import Mathlib.Data.List.Find

/-!
# The order of declarations

A file may use a name before it declares it, so that the order of its messages and services has no
part in whether it is valid. In a file without violations every name is declared once, and then what
a name stands for does not depend on the order either. What depends on it is the order of the
messages and services of the schema; and since the messages are encoded in order, so do the
identifiers of the services.

* §1 files in another order, §2 what names stand for,
* §3 violations, §4 the schema,
* §5 another order in another place.
-/

namespace Idl

namespace Tree.File

/-! ## §1 Files in another order -/

/-- A file with the package and the options of another one and the same declarations, with their
annotations, in any order. Nothing need be in the same place. -/
structure Reordered (f g : File) : Prop where
  package : f.erase.package = g.erase.package
  options : f.erase.options = g.erase.options
  decls : f.erase.decls.Perm g.erase.decls

instance (f g : File) : Decidable (f.Reordered g) :=
  decidable_of_iff (f.erase.package = g.erase.package ∧ f.erase.options = g.erase.options
    ∧ f.erase.decls.Perm g.erase.decls) ⟨fun h => ⟨h.1, h.2.1, h.2.2⟩, fun h => ⟨h.1, h.2, h.3⟩⟩

/-- A file with the declarations of another one in any order, and otherwise the same. -/
structure Shuffled (f g : File) : Prop where
  package : f.package = g.package
  options : f.options = g.options
  decls : f.decls.Perm g.decls

variable {f g : File}

theorem Reordered.shuffled (h : f.Reordered g) : f.erase.Shuffled g.erase :=
  ⟨h.package, h.options, h.decls⟩

namespace Shuffled

theorem symm (h : f.Shuffled g) : g.Shuffled f :=
  ⟨h.package.symm, h.options.symm, h.decls.symm⟩

theorem messages (h : f.Shuffled g) : f.messages.Perm g.messages := h.decls.filterMap _

theorem services (h : f.Shuffled g) : f.services.Perm g.services := h.decls.filterMap _

theorem packageName (h : f.Shuffled g) : f.packageName = g.packageName := by
  rw [File.packageName, File.packageName, h.package]

/-! ## §2 What names stand for -/

theorem distinctNames (h : f.Shuffled g) (hf : f.DistinctNames) : g.DistinctNames :=
  (h.decls.map _).nodup_iff.mp hf

/-- Where each name is declared once, it does not matter which declaration comes first. -/
theorem declared? (h : f.Shuffled g) (hf : f.DistinctNames) : f.declared? = g.declared? := by
  funext name
  rw [File.declared?, File.declared?]
  apply congrArg
  apply List.find?_eq_find?_of_perm h.decls
  intro d hd e he
  apply List.inj_on_of_nodup_map hf hd.1 he.1
  exact (beq_iff_eq.mp hd.2).trans (beq_iff_eq.mp he.2).symm

theorem resolve? (h : f.Shuffled g) (hf : f.DistinctNames) : f.resolve? = g.resolve? := by
  funext r
  simp only [File.resolve?, h.packageName, h.declared? hf]

/-! ## §3 Violations -/

theorem typeErrors (h : f.Shuffled g) (hf : f.DistinctNames) : f.typeErrors = g.typeErrors := by
  funext scope entity r
  simp only [File.typeErrors, h.resolve? hf]

theorem fieldErrors (h : f.Shuffled g) (hf : f.DistinctNames) : f.fieldErrors = g.fieldErrors := by
  funext m field
  simp only [File.fieldErrors, h.typeErrors hf]

theorem messageErrors (h : f.Shuffled g) (hf : f.DistinctNames) :
    f.messageErrors = g.messageErrors := by
  funext m
  simp only [File.messageErrors, h.packageName, h.fieldErrors hf]

theorem methodErrors (h : f.Shuffled g) (hf : f.DistinctNames) :
    f.methodErrors = g.methodErrors := by
  funext s m
  simp only [File.methodErrors, h.typeErrors hf]

theorem serviceErrors (h : f.Shuffled g) (hf : f.DistinctNames) :
    f.serviceErrors = g.serviceErrors := by
  funext s
  simp only [File.serviceErrors, h.packageName, h.methodErrors hf]

theorem errors_eq_nil (h : f.Shuffled g) (hf : f.errors = []) : g.errors = [] := by
  obtain ⟨hpackage, hoptions, hdecls, hmessages, hservices⟩ := File.errors_eq_nil hf
  have hdistinct := declErrors_eq_nil_iff.mp hdecls
  have hpackage' : g.packageErrors = [] := by
    rwa [File.packageErrors, ← h.package]
  have hoptions' : g.optionErrors = [] := by
    rwa [File.optionErrors, ← h.options, ← h.packageName]
  have hdecls' : g.declErrors = [] := declErrors_eq_nil_iff.mpr (h.distinctNames hdistinct)
  have hmessages' : g.messages.flatMap g.messageErrors = [] := by
    rw [List.flatMap_eq_nil_iff, ← h.messageErrors hdistinct]
    exact fun m hm => hmessages m (h.messages.mem_iff.mpr hm)
  have hservices' : g.services.flatMap g.serviceErrors = [] := by
    rw [List.flatMap_eq_nil_iff, ← h.serviceErrors hdistinct]
    exact fun s hs => hservices s (h.services.mem_iff.mpr hs)
  rw [errors, hpackage', hoptions', hdecls', hmessages', hservices']
  simp [sortErrors]

theorem errors_eq_nil_iff (h : f.Shuffled g) : f.errors = [] ↔ g.errors = [] :=
  ⟨h.errors_eq_nil, h.symm.errors_eq_nil⟩

/-! ## §4 The schema -/

theorem typeOf (h : f.Shuffled g) (hf : f.DistinctNames) : f.typeOf = g.typeOf := by
  funext r
  rw [File.typeOf, File.typeOf, h.resolve? hf]

theorem lowerField (h : f.Shuffled g) (hf : f.DistinctNames) : f.lowerField = g.lowerField := by
  funext position field
  simp only [File.lowerField, h.typeOf hf]

theorem lowerMessage (h : f.Shuffled g) (hf : f.DistinctNames) :
    f.lowerMessage = g.lowerMessage := by
  funext m
  simp only [File.lowerMessage, h.lowerField hf]

theorem lowerMethod (h : f.Shuffled g) (hf : f.DistinctNames) :
    f.lowerMethod = g.lowerMethod := by
  funext m
  simp only [File.lowerMethod, h.typeOf hf]

theorem lowerService (h : f.Shuffled g) (hf : f.DistinctNames) :
    f.lowerService = g.lowerService := by
  funext s
  simp only [File.lowerService, h.lowerMethod hf]

end Shuffled

/-- The meaning of a file before its services are identified. -/
def draft (f : File) (sourcePath : Bytes) : Schema where
  package := f.packageName
  messages := f.messages.map f.lowerMessage
  services := f.services.map f.lowerService
  annots := f.lowerOptions
  parserVersion := languageVersion
  sourcePath := sourcePath
  id := .zero

namespace Shuffled

variable (sourcePath : Bytes)

theorem draft_messages (h : f.Shuffled g) (hf : f.DistinctNames) :
    (f.draft sourcePath).messages.Perm (g.draft sourcePath).messages := by
  rw [draft, draft, h.lowerMessage hf]
  exact h.messages.map _

theorem draft_services (h : f.Shuffled g) (hf : f.DistinctNames) :
    (f.draft sourcePath).services.Perm (g.draft sourcePath).services := by
  rw [draft, draft, h.lowerService hf]
  exact h.services.map _

/-- The types are encoded in the order of the messages. -/
theorem typesEncoding_draft (h : f.Shuffled g) (hf : f.DistinctNames)
    (hmessages : f.messages = g.messages) :
    (f.draft sourcePath).typesEncoding = (g.draft sourcePath).typesEncoding := by
  simp only [Schema.typesEncoding, Canonical.typeMembers, draft, h.packageName, hmessages,
    h.lowerMessage hf, File.lowerOptions, h.options]

end Shuffled

end Tree.File

/-- Schemas that are the same but for positions, the order of messages and services, and the
identifiers, which depend on that order. -/
structure Schema.Reordered (s t : Schema) : Prop where
  others : { s.erase with messages := [], services := [], id := .zero }
    = { t.erase with messages := [], services := [], id := .zero }
  messages : s.erase.messages.Perm t.erase.messages
  services : (s.erase.services.map ({ · with id := .zero })).Perm
    (t.erase.services.map ({ · with id := .zero }))

/-- The messages and services of a schema are those of a file, in the order of the file. -/
structure Schema.InOrder (s : Schema) (f : Tree.File) : Prop where
  messages : s.messages.map (·.name) = f.messages.map (·.name.name)
  services : s.services.map (·.name) = f.services.map (·.name.name)

namespace Tree.File

variable {f g : File} (sourcePath : Bytes)

theorem inOrder_schema (f : File) : (f.schema sourcePath).InOrder f := by
  constructor <;> simp [schema, Schema.identify, lowerMessage, lowerService, Function.comp_def]

/-- The services, positions and identifiers apart, do not depend on the schema they belong to. -/
theorem map_filled (s t : Schema) (l : List Idl.Service) :
    ((l.map s.filled).map Service.erase).map ({ · with id := .zero })
      = ((l.map t.filled).map Service.erase).map ({ · with id := .zero }) := by
  simp only [List.map_map, Function.comp_def, Schema.filled, Service.erase]

theorem Shuffled.reordered_schema (h : f.Shuffled g) (hf : f.DistinctNames) :
    (f.schema sourcePath).Reordered (g.schema sourcePath) where
  others := by
    simp only [schema, Schema.identify, Schema.erase, lowerOptions, h.options, h.packageName]
  messages := (h.draft_messages sourcePath hf).map _
  services := by
    change (((f.draft sourcePath).services.map (f.draft sourcePath).filled).map Service.erase
      |>.map ({ · with id := .zero })).Perm _
    rw [map_filled _ (g.draft sourcePath)]
    exact (((h.draft_services sourcePath hf).map _).map _).map _

theorem Shuffled.services_schema (h : f.Shuffled g) (hf : f.DistinctNames)
    (hmessages : f.messages = g.messages) :
    (f.schema sourcePath).erase.services.Perm (g.schema sourcePath).erase.services := by
  have hfilled : (f.draft sourcePath).filled = (g.draft sourcePath).filled := by
    funext v
    simp only [Schema.filled, Schema.serviceIdentity, h.typesEncoding_draft sourcePath hf hmessages]
  change (((f.draft sourcePath).services.map (f.draft sourcePath).filled).map Service.erase).Perm _
  rw [hfilled]
  exact ((h.draft_services sourcePath hf).map _).map _

/-! ## §5 Another order in another place -/

theorem sortErrors_eq_nil_iff (l : List SchemaError) : sortErrors l = [] ↔ l = [] := by
  rw [← List.length_eq_zero_iff, sortErrors, List.length_mergeSort, List.length_eq_zero_iff]

theorem errors_erase_eq_nil_iff : f.erase.errors = [] ↔ f.errors = [] := by
  rw [errors, errors, sortErrors_eq_nil_iff, sortErrors_eq_nil_iff, erase, mapLoc_violations,
    List.map_eq_nil_iff]

theorem errors_compile (f : File) : (f.compile sourcePath).errors = f.errors := by
  cases h : f.errors <;> simp [compile, Compilation.errors, h]

theorem outcome_compile (h : f.errors = []) :
    (f.compile sourcePath).outcome = .ok (f.schema sourcePath) := by
  simp [compile, h]

end Tree.File

/-- Positions do not count where schemas are compared in any order. -/
theorem Schema.Reordered.of_erase {s s' t t' : Schema} (h : s'.Reordered t')
    (hs : s'.erase = s.erase) (ht : t'.erase = t.erase) : s.Reordered t where
  others := hs ▸ ht ▸ h.others
  messages := hs ▸ ht ▸ h.messages
  services := hs ▸ ht ▸ h.services

/-- The order of declarations does not decide whether a file is valid. In any order, the messages
and services of the schema are the same and in the order of the file, but for their positions and
the identifiers; and where the messages are in the same order, the services have the same
identifiers as well as the same canonical encodings. -/
theorem compile_reordered {f g : Tree.File} (h : f.Reordered g) (sourcePath : Bytes) :
    ((f.compile sourcePath).errors = [] ↔ (g.compile sourcePath).errors = [])
      ∧ ((f.compile sourcePath).errors = [] → ∃ s t,
        (f.compile sourcePath).outcome = .ok s ∧ (g.compile sourcePath).outcome = .ok t
          ∧ s.Reordered t ∧ s.InOrder f ∧ t.InOrder g
          ∧ (f.erase.messages = g.erase.messages →
            s.erase.services.Perm t.erase.services)) := by
  have hiff : f.errors = [] ↔ g.errors = [] := by
    rw [← Tree.File.errors_erase_eq_nil_iff, h.shuffled.errors_eq_nil_iff,
      Tree.File.errors_erase_eq_nil_iff]
  rw [Tree.File.errors_compile, Tree.File.errors_compile]
  refine ⟨hiff, fun hf => ?_⟩
  have hdistinct : f.erase.DistinctNames := Tree.File.declErrors_eq_nil_iff.mp
    (Tree.File.errors_eq_nil (Tree.File.errors_erase_eq_nil_iff.mpr hf)).2.2.1
  -- the schemas of the files without places differ from those of the files in positions only
  have hs : (f.erase.schema sourcePath).erase = (f.schema sourcePath).erase :=
    f.schema_mapLoc _ sourcePath
  have ht : (g.erase.schema sourcePath).erase = (g.schema sourcePath).erase :=
    g.schema_mapLoc _ sourcePath
  refine ⟨f.schema sourcePath, g.schema sourcePath, Tree.File.outcome_compile sourcePath hf,
    Tree.File.outcome_compile sourcePath (hiff.mp hf), ?_, f.inOrder_schema sourcePath,
    g.inOrder_schema sourcePath, fun hmessages => ?_⟩
  · exact (h.shuffled.reordered_schema sourcePath hdistinct).of_erase hs ht
  · rw [← hs, ← ht]
    exact h.shuffled.services_schema sourcePath hdistinct hmessages

/-- That there is a result with a property can be seen by evaluation. -/
theorem exists_of_toOption_any {ε α : Type} {x : Except ε α} {p : α → Bool}
    (h : x.toOption.any p = true) : ∃ a, x = .ok a ∧ p a = true := by
  cases x with
  | error e => cases h
  | ok a => exact ⟨a, rfl, h⟩

/-- A service that uses a message in front of its declaration and behind it. -/
theorem compile_reordered_forward :
    let a : Bytes := "package p;service S\x7brpc get(M);\x7d@a(1)message M\x7b\x7d"
    let b : Bytes := "@a(1)message M\x7b\x7dservice S\x7brpc get(M);\x7d package p;"
    ∃ f g, parseFile a = .ok f ∧ parseFile b = .ok g
      ∧ f.Reordered g ∧ f.erase.messages = g.erase.messages
      ∧ ∃ s t, (f.compile []).outcome = .ok s ∧ (g.compile []).outcome = .ok t
        ∧ s.Reordered t ∧ s.erase.services.Perm t.erase.services := by
  intro a b
  have hparse : (parseFile a).toOption.any fun f => (parseFile b).toOption.any fun g =>
      decide (f.Reordered g ∧ f.erase.messages = g.erase.messages ∧ f.errors = []) := by
    decide +kernel
  obtain ⟨f, hf, hrest⟩ := exists_of_toOption_any hparse
  obtain ⟨g, hg, hboth⟩ := exists_of_toOption_any hrest
  obtain ⟨hreordered, hmessages, herrors⟩ := of_decide_eq_true hboth
  obtain ⟨-, hschemas⟩ := compile_reordered hreordered []
  obtain ⟨s, t, hs, ht, hst, -, -, hservices⟩ := hschemas (by rw [f.errors_compile, herrors])
  exact ⟨f, g, hf, hg, hreordered, hmessages, s, t, hs, ht, hst, hservices hmessages⟩

end Idl
