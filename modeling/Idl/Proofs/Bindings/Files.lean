import Idl.Bindings
import Idl.Files.Disk
import Idl.Proofs.Bindings.Filling
import Idl.Proofs.Bindings.Naming
import Idl.Proofs.Compile.Portable
import Idl.Proofs.Files.Walk
import Idl.Proofs.Schema.Alike
import Mathlib.Data.List.Find

/-!
# The files of bindings

What is generated depends on the values of options and not on the order in which they are set. There
is one file for each target, and the file for a compiled schema has a plain name: the package, with
underscores for its dots, and an ending. It depends neither on where the schema was read nor on files
that hold no templates, so it can be written into the directory that templates are read from.

* §1 options in another order, §2 one file, §3 its name,
* §4 where a schema was read, §5 other files than templates, §6 templates on a disk.
-/

namespace Idl.Bindings

/-! ## §1 Options in another order -/

/-- Options that set the same keys to the same values. -/
structure Options.Agrees (o o' : Options) : Prop where
  keys : o.keys = o'.keys
  get? : ∀ key, o.get? key = o'.get? key
  templates : o.templates = o'.templates

/-- The order of settings does not matter if each key is set once. -/
theorem Options.agrees_of_perm {l l' : List (Bytes × Bytes)} (hnodup : (l.map (·.1)).Nodup)
    (h : l'.Perm l) (templates : Option FileMap) : Agrees ⟨l', templates⟩ ⟨l, templates⟩ where
  keys := by
    have hperm : (Options.keys ⟨l', templates⟩).Perm (Options.keys ⟨l, templates⟩) :=
      (List.mergeSort_perm _ _).trans ((h.map _).trans (List.mergeSort_perm _ _).symm)
    have hsorted (l : List Bytes) :
        (l.mergeSort Bytes.le).Pairwise fun a b => Bytes.le a b = true :=
      List.pairwise_mergeSort (fun a b c => @Bytes.le_trans a b c) Bytes.le_total l
    -- there is only one order of keys that is sorted
    exact hperm.eq_of_pairwise (fun a b _ _ hab hba => Bytes.le_antisymm hab hba) (hsorted _)
      (hsorted _)
  get? key := by
    rw [Options.get?, Options.get?]
    refine congrArg (Option.map _) (List.find?_eq_find?_of_perm h fun p hp q hq => ?_)
    refine List.inj_on_of_nodup_map ((h.map _).nodup_iff.mpr hnodup) hp.1 hq.1 ?_
    exact (beq_iff_eq.mp hp.2).trans (beq_iff_eq.mp hq.2).symm
  templates := rfl

section

variable {o o' : Options} (h : o.Agrees o')

include h

theorem Options.Agrees.check (target : Bytes) (known : List Bytes) :
    o.check target known = o'.check target known := by
  rw [Options.check, Options.check, h.keys]

theorem Options.Agrees.library (target : Bytes) (builtins : Template.Library) :
    library target builtins o = library target builtins o' := by
  rw [Bindings.library, Bindings.library, h.templates]

theorem Options.Agrees.goView (s : Schema) : GoView.ofSchema s o = GoView.ofSchema s o' := by
  simp only [GoView.ofSchema, GoView.packageName, GoView.rpcImportOf, h.get?]

theorem Options.Agrees.rustView (s : Schema) : RustView.ofSchema s o = RustView.ofSchema s o' := by
  simp only [RustView.ofSchema, RustView.runtimeOf, h.get?]

/-- Options that agree lead to the same files or the same failure. -/
theorem Options.Agrees.generate (s : Schema) (target : Bytes) :
    generate s target o = generate s target o' := by
  have hrender (t : Target) : t.render s o = t.render s o' := by
    cases t <;> simp only [Target.render, h.check, h.library, h.goView, h.rustView]
  simp only [Bindings.generate, hrender]

end

/-- Nothing that is set is unknown if nothing is set. -/
theorem Options.check_nil (target : Bytes) (known : List Bytes) :
    Options.check target known {} = .ok () := by
  simp [check, keys]

/-! ## §2 One file -/

namespace Target

/-- The name of the file of a target. -/
def fileName (t : Target) (s : Schema) : Bytes :=
  match t with
  | .go => GoView.fileName s
  | .rust => RustView.fileName s

/-- A target renders one file. -/
theorem exists_of_render {t : Target} {s : Schema} {o : Options} {files : List OutputFile}
    (h : t.render s o = .ok files) : ∃ text, files = [⟨t.fileName s, text⟩] := by
  cases t with
  | go =>
    obtain ⟨-, -, h⟩ := exists_of_bind_eq_ok h
    obtain ⟨view, -, h⟩ := exists_of_bind_eq_ok h
    obtain ⟨l, -, h⟩ := exists_of_bind_eq_ok h
    obtain ⟨text, -, h⟩ := exists_of_bind_eq_ok h
    -- the text is formatted, or refused
    split at h
    · next formatted _ => exact ⟨formatted, (Except.ok.inj h).symm⟩
    · cases h
  | rust =>
    obtain ⟨-, -, h⟩ := exists_of_bind_eq_ok h
    obtain ⟨view, -, h⟩ := exists_of_bind_eq_ok h
    obtain ⟨l, -, h⟩ := exists_of_bind_eq_ok h
    obtain ⟨text, -, h⟩ := exists_of_bind_eq_ok h
    exact ⟨text, (Except.ok.inj h).symm⟩

end Target

/-- Files that are put in order are still there. -/
theorem perm_of_collect {target : Bytes} {l files : List OutputFile}
    (h : collect target l = .ok files) : files.Perm l := by
  simp only [collect] at h
  split at h
  · cases h
  · cases h
    exact List.mergeSort_perm _ _

/-- What is generated for a name is the file of the target of this name. -/
theorem target_of_generate {s : Schema} {target : Bytes} {o : Options} {files : List OutputFile}
    (h : generate s target o = .ok files) :
    ∃ (t : Target) (text : Bytes), t.name = target ∧ files = [⟨t.fileName s, text⟩] := by
  unfold generate at h
  split at h
  · cases h
  · next t hname =>
    obtain ⟨rendered, hrender, hcollect⟩ := exists_of_bind_eq_ok h
    obtain ⟨text, rfl⟩ := Target.exists_of_render hrender
    -- the target is the one of that name
    have hfound : (t.name == target) = true :=
      List.find?_some (p := fun t => Target.name t == target) hname
    exact ⟨t, text, beq_iff_eq.mp hfound, List.perm_singleton.mp (perm_of_collect hcollect)⟩

theorem exists_of_generate {s : Schema} {target : Bytes} {o : Options} {files : List OutputFile}
    (h : generate s target o = .ok files) :
    ∃ (t : Target) (text : Bytes), files = [⟨t.fileName s, text⟩] := by
  obtain ⟨t, text, -, hfiles⟩ := target_of_generate h
  exact ⟨t, text, hfiles⟩

/-! ## §3 Its name -/

/-- The name of a file is a word with an ending of two letters behind a dot. -/
theorem Target.exists_fileName {s : Schema}
    (h : ∀ b ∈ s.package, Bytes.isWord b = true ∨ b = 0x2E) (t : Target) :
    ∃ stem ending : Bytes, t.fileName s = stem ++ 0x2E :: ending ∧ Naming.IsPlain stem
      ∧ Naming.IsPlain ending ∧ ending.length = 2 := by
  -- only the dots of a package are no part of a word
  have hpackage : Naming.IsPlain (s.package.map fun c => if c == 0x2E then 0x5F else c) := by
    refine List.forall_mem_map.mpr fun a ha => ?_
    split
    · rfl
    · next hne => exact (h a ha).resolve_right fun heq => hne (beq_iff_eq.mpr heq)
  have hsnake := (Naming.restyled_snake hpackage).plain
  have hword {x : Bytes} (hx : x.all Bytes.isWord = true) : Naming.IsPlain x :=
    List.all_eq_true.mp hx
  cases t with
  | go =>
    change ∃ stem ending, GoView.fileName s = _ ∧ _
    unfold GoView.fileName
    split
    · exact ⟨"schema", "go", by decide, hword rfl, hword rfl, rfl⟩
    · exact ⟨_, "go", rfl, hsnake, hword rfl, rfl⟩
  | rust =>
    change ∃ stem ending, RustView.fileName s = _ ∧ _
    unfold RustView.fileName
    split
    · exact ⟨"schema", "rs", by decide, hword rfl, hword rfl, rfl⟩
    · exact ⟨_, "rs", rfl, hsnake, hword rfl, rfl⟩

theorem Target.octets_fileName {s : Schema}
    (h : ∀ b ∈ s.package, Bytes.isWord b = true ∨ b = 0x2E) (t : Target) :
    ∀ b ∈ t.fileName s, Bytes.isWord b = true ∨ b = 0x2E := by
  obtain ⟨stem, ending, hname, hstem, hending, -⟩ := t.exists_fileName h
  rw [hname]
  refine List.forall_mem_append.mpr ⟨fun b hb => .inl (hstem b hb), ?_⟩
  exact List.forall_mem_cons.mpr ⟨.inr rfl, fun b hb => .inl (hending b hb)⟩

theorem Target.three_le_length_fileName {s : Schema}
    (h : ∀ b ∈ s.package, Bytes.isWord b = true ∨ b = 0x2E) (t : Target) :
    3 ≤ (t.fileName s).length := by
  obtain ⟨stem, ending, hname, -, -, hlength⟩ := t.exists_fileName h
  rw [hname, List.length_append, List.length_cons, hlength]
  omega

end Idl.Bindings

namespace Idl

open Bindings

/-! ## §4 Where a schema was read -/

/-- The schema, read from another place. -/
def Schema.readFrom (s : Schema) (path : Bytes) : Schema := { s with sourcePath := path }

namespace RustView

theorem serviceViews_readFrom (s : Schema) (path : Bytes) (modules : Scope) (l : List Idl.Service) :
    serviceViews (s.readFrom path) modules l = serviceViews s modules l := by
  induction l generalizing modules with
  | nil => rfl
  | cons v r ih =>
    have hmethod : methodView (s.readFrom path) v.name = methodView s v.name := rfl
    simp only [serviceViews, ih, hmethod]

theorem ofSchema_readFrom (s : Schema) (path : Bytes) (o : Options) :
    ofSchema (s.readFrom path) o = ofSchema s o := by
  have hmessage : messageView (s.readFrom path) = messageView s := rfl
  rw [ofSchema, ofSchema, serviceViews_readFrom, hmessage]
  rfl

end RustView

/-- The same files are generated wherever a schema was read. -/
theorem Bindings.generate_readFrom (s : Schema) (path target : Bytes) (o : Options) :
    generate (s.readFrom path) target o = generate s target o := by
  have hrender (t : Target) : t.render (s.readFrom path) o = t.render s o := by
    cases t with
    | go => rfl
    | rust =>
      rw [Target.render, RustView.ofSchema_readFrom]
      rfl
  simp only [generate, hrender]

/-- Where a source was read does not matter to its schema otherwise. -/
theorem outcome_of_compileSource {src path path' : Bytes} {allow : Bool} {c : Compilation}
    {s : Schema} (hc : compileSource src path allow = .ok c) (ho : c.outcome = .ok s) :
    ∃ c', compileSource src path' allow = .ok c' ∧ c'.outcome = .ok (s.readFrom path') := by
  rw [compileSource] at hc ⊢
  cases hparse : parseFile src allow with
  | error e =>
    rw [hparse] at hc
    cases hc
  | ok f =>
    rw [hparse] at hc
    cases hc
    -- the path is noted in the schema, and read by no check
    refine ⟨_, rfl, ?_⟩
    simp only [Tree.File.compile] at ho ⊢
    split_ifs at ho ⊢
    cases ho
    rfl

/-! ## §5 Other files than templates -/

namespace Bindings

/-- The same templates are found in two sets of files. -/
def SameTemplates (files files' : FileMap) : Prop :=
  ∀ target, overlayFiles target files = overlayFiles target files'

/-- The same files are generated from the same templates. -/
theorem generate_templates {values : List (Bytes × Bytes)} {files files' : FileMap}
    (h : SameTemplates files files') (s : Schema) (target : Bytes) :
    generate s target ⟨values, some files⟩ = generate s target ⟨values, some files'⟩ := by
  have hlibrary (target : Bytes) (builtins : Template.Library) :
      library target builtins ⟨values, some files⟩
        = library target builtins ⟨values, some files'⟩ := by
    rw [library, library, Option.getD_some, Option.getD_some, h target]
  have hrender (t : Target) :
      t.render s ⟨values, some files⟩ = t.render s ⟨values, some files'⟩ := by
    cases t <;> simp only [Target.render, hlibrary] <;> rfl
  simp only [generate, hrender]

theorem SameTemplates.refl (files : FileMap) : SameTemplates files files := fun _ => rfl

theorem SameTemplates.trans {files files' files'' : FileMap} (h : SameTemplates files files')
    (h' : SameTemplates files' files'') : SameTemplates files files'' :=
  fun target => (h target).trans (h' target)

end Bindings

/-! ## §6 Templates on a disk -/

namespace Files

variable {tree : Tree} {p q : List Bytes}

/-- A place whose last component has the ending of templates. -/
def IsTemplatePlace (q : List Bytes) : Prop := (".tmpl" : Bytes) <:+ q.getLast?.getD []

instance (q : List Bytes) : Decidable (IsTemplatePlace q) :=
  inferInstanceAs (Decidable ((".tmpl" : Bytes) <:+ q.getLast?.getD []))

theorem suffix_of_suffix_append {a b c : Bytes} (hb : separator ∉ b)
    (h : b <:+ a ++ separator :: c) : b <:+ c := by
  obtain h | h := List.suffix_or_suffix_of_suffix h (List.suffix_append a (separator :: c))
  · exact (List.suffix_cons_iff.mp h).resolve_left fun heq => hb (heq ▸ List.mem_cons_self ..)
  · exact absurd (h.subset (List.mem_cons_self ..)) hb

/-- A path with the ending of templates ends in a component that has it. -/
theorem isTemplatePlace_of_suffix {l : List Bytes}
    (h : (".tmpl" : Bytes) <:+ Bytes.join [separator] l) : IsTemplatePlace l := by
  obtain rfl | ⟨r, c, rfl⟩ := l.eq_nil_or_concat'
  · exact absurd (List.suffix_nil.mp h) (by decide)
  · rw [IsTemplatePlace, List.getLast?_concat, Option.getD_some]
    obtain rfl | hr := eq_or_ne r []
    · simpa using h
    · rw [Bytes.join_append hr (by simp), Bytes.join_singleton] at h
      exact suffix_of_suffix_append (by decide) h

/-- A template below a place is a template. -/
theorem IsTemplatePlace.append {l : List Bytes} (h : IsTemplatePlace l) (p : List Bytes) :
    IsTemplatePlace (p ++ l) := by
  obtain rfl | ⟨r, c, rfl⟩ := l.eq_nil_or_concat'
  · exact absurd h (by decide)
  · rw [IsTemplatePlace, List.getLast?_concat] at h
    rwa [IsTemplatePlace, ← List.append_assoc, List.getLast?_concat]

/-- The template that a file below a place is for a target, if it is one. -/
def templateOf? (target : Bytes) (p : List Bytes) : List Bytes × Node → Option (Bytes × Bytes)
  | (q, .file content) =>
    if p.isPrefixOf q then
      let path := Bytes.join [separator] (q.drop p.length)
      if Bytes.startsWith path (target ++ "/") then
        let name := path.drop (target.length + 1)
        if !name.contains 0x2F && Bytes.endsWith name ".tmpl" then some (name, content) else none
      else none
    else none
  | (_, .directory) => none

theorem overlayFiles_filesBelow (target : Bytes) (tree : Tree) (p : List Bytes) :
    overlayFiles target (tree.filesBelow p)
      = (tree.entries.filterMap (templateOf? target p)).mergeSort fun f g => Bytes.le f.1 g.1 := by
  rw [overlayFiles, Tree.filesBelow, List.filterMap_filterMap]
  congr 2
  funext ⟨q, n⟩
  cases n with
  | directory => rfl
  | file content =>
    simp only [templateOf?]
    split <;> rfl

/-- Only a file at the place of a template is taken for one. -/
theorem templateOf?_eq_none (h : ¬ IsTemplatePlace q) (target : Bytes) (p : List Bytes) (n : Node) :
    templateOf? target p (q, n) = none := by
  cases n with
  | directory => rfl
  | file content =>
    simp only [templateOf?]
    split_ifs with hinitial hstart hname
    · rw [Bool.and_eq_true, Bytes.endsWith, List.isSuffixOf_iff_suffix] at hname
      -- a name with the ending of a template is at such a place
      have hend := isTemplatePlace_of_suffix (hname.2.trans (List.drop_suffix _ _))
      obtain ⟨r, rfl⟩ := List.isPrefixOf_iff_prefix.mp hinitial
      rw [List.drop_left] at hend
      exact absurd (hend.append p) h
    all_goals rfl

/-- Putting something where no template can be changes no template. -/
theorem sameTemplates_put (h : ¬ IsTemplatePlace q) (tree : Tree) (p : List Bytes) (n : Node) :
    SameTemplates ((tree.put q n).filesBelow p) (tree.filesBelow p) := by
  intro target
  -- the new file is no template, so neither is the one it replaces
  have hnone := templateOf?_eq_none h target p
  rw [overlayFiles_filesBelow, overlayFiles_filesBelow, Tree.put,
    List.filterMap_cons_none (hnone n), List.filterMap_filter]
  congr 2
  funext x
  obtain ⟨k, m⟩ := x
  by_cases hk : k = q
  · simp [hk, hnone]
  · simp [hk]

/-- Making a directory where nothing is changes no template. -/
theorem sameTemplates_put_directory (h : tree.get? q = none) (p : List Bytes) :
    SameTemplates ((tree.put q .directory).filesBelow p) (tree.filesBelow p) := by
  intro target
  have hne : q ≠ [] := by
    rintro rfl
    simp at h
  rw [Tree.get?, if_neg hne, List.lookup_eq_none_iff] at h
  have hfilter : tree.entries.filter (·.1 != q) = tree.entries :=
    List.filter_eq_self.mpr fun e he => by simpa using Ne.symm (bne_iff_ne.mp (h e he))
  rw [overlayFiles_filesBelow, overlayFiles_filesBelow, Tree.put, List.filterMap_cons_none rfl,
    hfilter]

end Files

end Idl
