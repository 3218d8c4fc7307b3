import Idl.Proofs.Bindings.Files
import Idl.Proofs.Command.Effects
import Idl.Proofs.Command.Update
import Idl.Proofs.Files.Relative

/-!
# Updating a new project

An update of a project that has just been made leaves it as it is: the manifest leads back to the
schema and the languages, the same files are generated, and they are written where they stand. What
a manifest does not remember has to be said again: the directory of templates and the options.

* §1 templates stay, §2 writing again, §3 what is remembered, §4 the update.
-/

namespace Idl.Command

open Files (Disk IsTemplatePlace)
open Files.Disk (Within FilesWithin Grows)
open Bindings (OutputFile SameTemplates)

variable {dir : Bytes} {d d' d'' e : Disk}

/-! ## §1 Templates stay -/

/-- The same templates are found below all directories. -/
structure TemplatesStay (d d' : Disk) : Prop where
  cwd : d'.cwd = d.cwd
  same : ∀ p, SameTemplates (d'.tree.filesBelow p) (d.tree.filesBelow p)

theorem TemplatesStay.refl (d : Disk) : TemplatesStay d d := ⟨rfl, fun _ => .refl _⟩

theorem TemplatesStay.trans (h : TemplatesStay d d') (h' : TemplatesStay d' d'') :
    TemplatesStay d d'' := ⟨h'.cwd.trans h.cwd, fun p => (h'.same p).trans (h.same p)⟩

theorem templatesStay_of_makeDirectory {p : Bytes} (h : d.makeDirectory p = .ok d') :
    TemplatesStay d d' := by
  obtain ⟨-, ⟨-, rfl⟩ | ⟨hnone, rfl⟩⟩ := Files.Disk.makeDirectory_eq_ok_iff.mp h
  · exact .refl _
  · exact ⟨rfl, fun p => Files.sameTemplates_put_directory hnone p⟩

theorem templatesStay_of_write {t content : Bytes} (hplace : ¬ IsTemplatePlace (d.place t))
    (h : d.write t content = .ok d') : TemplatesStay d d' := by
  obtain ⟨-, -, -, rfl⟩ := Files.Disk.write_eq_ok_iff.mp h
  exact ⟨rfl, fun p => Files.sameTemplates_put hplace _ p _⟩

/-- A path that is not that of a template does not become one below a directory. -/
theorem not_isTemplatePlace_placeOf {path : Bytes} (h : ¬ IsTemplatePlace (partsOf path))
    (d : Disk) (dir : Bytes) : ¬ IsTemplatePlace (placeOf d dir path) := by
  obtain ⟨l, c, hparts⟩ := (partsOf path).eq_nil_or_concat'.resolve_left (partsOf_ne_nil path)
  rw [hparts, IsTemplatePlace, List.getLast?_concat] at h
  rwa [placeOf, hparts, ← List.append_assoc, IsTemplatePlace, List.getLast?_concat]

section

variable (hdir : dir ≠ [])

include hdir

theorem keeps_templates_outputs {files : List OutputFile}
    (h : ∀ f ∈ files, ¬ IsTemplatePlace (partsOf f.path)) :
    (takeAll (files.map (Step.output dir))).Keeps TemplatesStay := by
  refine keeps_takeAll .refl (fun _ _ _ => .trans) fun s hs => ?_
  obtain ⟨f, hf, rfl⟩ := List.mem_map.mp hs
  refine keeps_output .refl (fun _ _ _ => .trans)
    (fun _ _ _ _ _ => templatesStay_of_makeDirectory) fun hpath d d' => ?_
  refine templatesStay_of_write ?_
  rw [hpath.place hdir]
  exact not_isTemplatePlace_placeOf (h f hf) d dir

end

theorem templatesStay_of_makeDirectories {p : Bytes} (h : d.makeDirectories p = .ok d') :
    TemplatesStay d d' :=
  Files.Disk.makeDirectories_induct .refl (fun _ _ _ => .trans)
    (fun _ _ _ _ => templatesStay_of_makeDirectory) h

/-- The file of a target has another ending than templates. -/
theorem not_isTemplatePlace_sourcePath {s : Schema}
    (hs : ∀ b ∈ s.package, Bytes.isWord b = true ∨ b = 0x2E) (t : Bindings.Target) :
    ¬ IsTemplatePlace (partsOf (sourcePath s t)) := by
  rw [partsOf_sourcePath hs, IsTemplatePlace, List.getLast?_concat, Option.getD_some]
  intro hend
  obtain ⟨stem, ending, hname, -, -, hlength⟩ := t.exists_fileName hs
  -- the last three octets are a dot and two letters, and those of a template are not
  have hdot : (0x2E :: ending) <:+ t.fileName s := hname ▸ List.suffix_append ..
  have hlast : ("mpl" : Bytes) <:+ t.fileName s := List.IsSuffix.trans (by decide) hend
  have heq : (0x2E :: ending) = ("mpl" : Bytes) :=
    (List.suffix_of_suffix_length_le hdot hlast (by simp [hlength]; decide)).eq_of_length
      (by simp [hlength]; decide)
  have hhead : some (0x2E : UInt8) = some 0x6D := congrArg List.head? heq
  exact absurd hhead (by decide)

/-! ## §2 Writing again -/

/-- Nothing stands anywhere that has not stood there before. -/
abbrev Unchanged (d d' : Disk) : Prop := Within (fun _ => False) d d'

theorem Unchanged.grows (h : Unchanged d d') : Grows d d' where
  cwd := h.cwd
  directory x hx := (h.get? x id).trans hx
  file x c hx := ⟨c, (h.get? x id).trans hx⟩

theorem unchanged_put {p : List Bytes} {content : Bytes}
    (h : d.tree.get? p = some (.file content)) : Unchanged d (d.put p (.file content)) := by
  refine ⟨rfl, fun x _ => ?_⟩
  by_cases hx : x = p
  · rw [hx, Files.Disk.get?_put_self d (by simp [h]), h]
  · exact (Files.Disk.within_put d p _).get? x hx

theorem allDone_outputs_iff {files : List OutputFile} {f : OutputFile} :
    AllDone ((f :: files).map (Step.output dir)) d d'
      ↔ ∃ m, (Step.output dir f).Done d m ∧ AllDone (files.map (Step.output dir)) m d' := by
  constructor
  · rintro (_ | ⟨hf, hr⟩)
    exact ⟨_, hf, hr⟩
  · rintro ⟨m, hf, hr⟩
    exact .cons hf hr

section

variable (hdir : dir ≠ [])

include hdir

/-- A file that has been written can be written again. -/
theorem done_output_again {f : OutputFile} (h : (Step.output dir f).Done d d')
    (hgrows : Grows d' e) :
    (Step.output dir f).Done e (e.put (placeOf e dir f.path) (.file f.content)) := by
  obtain ⟨hpath, m, hm, hwrite⟩ := (done_output_iff hdir).mp h
  have hmore : Grows m e := (Files.Disk.grows_of_write hwrite).trans hgrows
  refine (done_output_iff hdir).mpr ⟨hpath, e, ?_, ?_⟩
  · exact Files.Disk.makeDirectories_of_isDirectory fun p hp =>
      hmore.isDirectory (Files.Disk.isDirectory_of_mem_ancestry hm p hp)
  · have hagain := Files.Disk.write_again hwrite hgrows
    rwa [← hmore.place, e.place_below dir hpath.isName (partsOf_ne_nil _)] at hagain

/-- Each of some files that have been written was written once. -/
theorem exists_done_of_allDone {files : List OutputFile}
    (h : AllDone (files.map (Step.output dir)) d d') {f : OutputFile} (hf : f ∈ files) :
    ∃ m m', (Step.output dir f).Done m m' ∧ Grows m' d' := by
  induction files generalizing d with
  | nil => cases hf
  | cons g r ih =>
    obtain ⟨m, hg, hr⟩ := allDone_outputs_iff.mp h
    obtain rfl | hf := List.mem_cons.mp hf
    · exact ⟨d, m, hg, (wroteAll_of_allDone hdir hr).grows⟩
    · exact ih hr hf

/-- Files that stand as they have been written are written again, and nothing changes. -/
theorem allDone_outputs_again {files : List OutputFile}
    (hdone : ∀ f ∈ files, ∃ m m', (Step.output dir f).Done m m' ∧ Grows m' e)
    (hcontent : ∀ f ∈ files, e.tree.get? (placeOf e dir f.path) = some (.file f.content)) :
    ∃ e', AllDone (files.map (Step.output dir)) e e' ∧ Unchanged e e' := by
  induction files generalizing e with
  | nil => exact ⟨e, .nil e, .refl _ e⟩
  | cons f r ih =>
    obtain ⟨hf, hr⟩ := List.forall_mem_cons.mp hdone
    obtain ⟨hfcontent, hrcontent⟩ := List.forall_mem_cons.mp hcontent
    obtain ⟨m, m', hstep, hgrows⟩ := hf
    -- the file stands there with this content already
    have hsame : Unchanged e (e.put (placeOf e dir f.path) (.file f.content)) :=
      unchanged_put hfcontent
    obtain ⟨e', hdone', hsame'⟩ := ih
      (fun g hg => by
        obtain ⟨m, m', hstep, hgrows⟩ := hr g hg
        exact ⟨m, m', hstep, hgrows.trans hsame.grows⟩)
      (fun g hg => by
        rw [placeOf_eq hsame.cwd, hsame.get? _ id]
        exact hrcontent g hg)
    exact ⟨e', allDone_outputs_iff.mpr ⟨_, done_output_again hdir hstep hgrows, hdone'⟩,
      hsame.trans hsame'⟩

end

/-! ## §3 What is remembered -/

/-- The options with the templates of a directory, if one is given. -/
def templatesIn (env : Environment) (values : List (Bytes × Bytes)) (dir : Bytes) :
    Except Failure Bindings.Options :=
  if dir.isEmpty then .ok { values := values }
  else match env.disk.inspect dir with
    | .error e => .error (.file .findTemplates e)
    | .ok (.file _) => .error (.templates dir)
    | .ok .directory => .ok { values := values, templates := some (env.disk.filesBelow dir) }

theorem chooseOptions_eq (env : Environment) (s : Settings) (templates : Bytes)
    (values : List (Bytes × Bytes)) : chooseOptions env s templates values =
      (if templates.isEmpty then pathSetting s .templates else pure templates) >>=
        templatesIn env values := by
  rw [chooseOptions]
  split <;> rfl

section

variable {env env' : Environment} (hgrows : Grows env.disk env'.disk)
  (hstay : TemplatesStay env.disk env'.disk)

include hgrows hstay

/-- The same files are generated with the templates of a directory that stays. -/
theorem templatesIn_again {values : List (Bytes × Bytes)} {o : Bindings.Options}
    (h : templatesIn env values dir = .ok o) : ∃ o', templatesIn env' values dir = .ok o'
      ∧ ∀ s target, Bindings.generate s target o' = Bindings.generate s target o := by
  rw [templatesIn] at h ⊢
  split_ifs at h ⊢ with hnone
  · -- no directory of templates was given
    cases h
    exact ⟨_, rfl, fun _ _ => rfl⟩
  · rw [Disk.inspect] at h
    rcases hlook : env.disk.look dir with f | _ | content <;> rw [hlook] at h <;> cases h
    obtain ⟨hfind, hget⟩ := Files.Disk.look_eq_ok_iff.mp hlook
    have hfind' := hgrows.find hfind
    -- the directory is found again, and its files are the same
    have hlook' : env'.disk.look dir = .ok .directory := by
      rw [← hgrows.place dir] at hfind' hget
      exact Files.Disk.look_eq_ok_iff.mpr ⟨hfind', hgrows.directory _ hget⟩
    refine ⟨⟨values, some (env'.disk.filesBelow dir)⟩, ?_, fun s target => ?_⟩
    · rw [Disk.inspect, hlook']
      rfl
    · refine Bindings.generate_templates ?_ s target
      rw [Disk.filesBelow, Disk.filesBelow, hfind, hfind']
      exact hstay.same _

/-- Options that are chosen again lead to the same files. -/
theorem chooseOptions_again {s : Settings} {templates : Bytes} {values : List (Bytes × Bytes)}
    {o : Bindings.Options} (h : chooseOptions env s templates values = .ok o) :
    ∃ o', chooseOptions env' s templates values = .ok o'
      ∧ ∀ s target, Bindings.generate s target o' = Bindings.generate s target o := by
  rw [chooseOptions_eq] at h ⊢
  obtain ⟨dir, hdir, h⟩ := exists_of_bind_eq_ok h
  rw [hdir]
  exact templatesIn_again hgrows hstay h

end

/-- The languages of targets are chosen as they are. -/
theorem tidyLanguages_names {targets : List Bindings.Target}
    (h : (targets.map Bindings.Target.name).Nodup) :
    tidyLanguages (targets.map Bindings.Target.name) = targets.map Bindings.Target.name := by
  have hname (t : Bindings.Target) : Text.lower (Text.trim t.name) = t.name := by
    cases t <;> decide
  have hnonempty (t : Bindings.Target) : (!t.name.isEmpty) = true := by cases t <;> decide
  -- the names of the targets are already trimmed and in small letters
  have htidy : ((targets.map Bindings.Target.name).map fun n => Text.lower (Text.trim n)).filter
      (!·.isEmpty) = targets.map Bindings.Target.name := by
    simp only [List.map_map, Function.comp_def, hname]
    exact List.filter_eq_self.mpr (List.forall_mem_map.mpr fun t _ => hnonempty t)
  -- and none of them is a repetition
  have hfold (l acc : List Bytes) (h : (acc ++ l).Nodup) :
      l.foldl (fun l n => if l.contains n then l else l ++ [n]) acc = acc ++ l := by
    induction l generalizing acc with
    | nil => simp
    | cons n r ih =>
      have hn : n ∉ acc := fun hmem => (List.disjoint_of_nodup_append h hmem) (by simp)
      rw [List.foldl_cons, if_neg (by simpa using hn)]
      rw [List.append_cons] at h
      rw [ih _ h, ← List.append_cons]
  rw [tidyLanguages, htidy]
  exact hfold _ [] h

section

variable {r : Request} {input : Bytes} {names languages : List Bytes} {s : Schema}
  {rendered : List (Bytes × List OutputFile)} (h : r.Builds input names languages s rendered)

include h

/-- The languages chosen are chosen again when they are given. -/
theorem Request.Builds.chooseLanguages_again :
    chooseLanguages r.settings languages = .ok languages := by
  obtain ⟨targets, -, hnames, -⟩ := h.exists_targets
  have hnodup := nodup_of_chooseLanguages h.chosen
  -- no choice is ever empty
  have hne : languages ≠ [] := by
    have hchosen := h.chosen
    rw [chooseLanguages] at hchosen
    rintro rfl
    split at hchosen
    · cases hchosen
    · next hnil => exact hnil (Except.ok.inj hchosen)
  subst hnames
  have hempty : (targets.map Bindings.Target.name).isEmpty = false := by simpa using hne
  rw [chooseLanguages, hempty]
  simp only [Bool.false_eq_true, if_false]
  rw [tidyLanguages_names hnodup]
  split
  · next hnil => exact absurd hnil hne
  · rfl

/-- The generated files have ASCII paths. -/
theorem Request.Builds.isValid_path {p : Bytes} (hp : p ∈ (placed rendered).map (·.path)) :
    Utf8.isValid p = true := by
  obtain ⟨t, -, rfl⟩ := h.exists_of_mem_paths hp
  refine Utf8.isValid_of_ascii ?_
  rw [← @Bytes.join_split Files.separator (sourcePath s t)]
  refine Bytes.forall_mem_join (P := fun b => b.toNat < 0x80) (by simp [Files.separator])
    fun c hc => ?_
  have hparts := partsOf_sourcePath h.octets_package t
  rw [partsOf] at hparts
  rw [hparts] at hc
  obtain hc | hc := List.mem_append.mp hc
  · -- the directories of a target
    have hascii : ∀ c ∈ sourceParts t, c.all (fun b => b.toNat < 0x80) = true := by
      cases t <;> decide
    exact Bytes.ascii_of_all (hascii c hc)
  · -- the name of its file
    obtain rfl := List.mem_singleton.mp hc
    intro b hb
    obtain hword | rfl := t.octets_fileName h.octets_package b hb
    · exact Bytes.ascii_of_isWord hword
    · decide

/-- A schema is read again where its source is found again. -/
theorem Request.Builds.again {r' : Request} {input' : Bytes} (hsettings : r'.settings = r.settings)
    (htemplates : r'.flags.text "templates" = r.flags.text "templates")
    (hoptions : r'.flags.pairs "option" = r.flags.pairs "option")
    (hgrows : Grows r.env.disk r'.env.disk) (hstay : TemplatesStay r.env.disk r'.env.disk)
    (hread : r'.env.disk.read input' = r.env.disk.read input) :
    r'.Builds input' languages languages (s.readFrom (rememberedPath input')) rendered := by
  refine ⟨hsettings ▸ h.chooseLanguages_again, ?_, ?_⟩
  · -- the source is the same, read from another path
    obtain ⟨src, c, hsrc, hc, ho⟩ := h.compiles
    obtain ⟨c', hc', ho'⟩ := @outcome_of_compileSource _ _ (rememberedPath input') _ _ _ hc ho
    exact ⟨src, c', hread.trans hsrc, hc', ho'⟩
  · -- so are the templates, and what they render
    obtain ⟨o, ho, hrenders⟩ := h.renders
    obtain ⟨o', ho', hsame⟩ := chooseOptions_again hgrows hstay ho
    refine ⟨o', by rw [hsettings, htemplates, hoptions, ho'], ?_⟩
    simpa only [Renders, Bindings.generate_readFrom, hsame] using hrenders

end

/-! ## §4 The update -/

/-- What is there when a new project has been made. -/
structure Stocked (r : Request) (m : Manifest) (generated : List OutputFile) (d : Disk) : Prop where
  grows : Grows r.env.disk d
  stay : TemplatesStay r.env.disk d
  directory : d.isDirectory r.project = true
  again : ∀ f ∈ generated, ∃ m₁ m₂, (Step.output r.project f).Done m₁ m₂ ∧ Grows m₂ d
  content : ∀ f ∈ generated, d.tree.get? (placeOf d r.project f.path) = some (.file f.content)
  manifest : ∃ m₁ : Disk, m₁.write (Manifest.path r.project) m.text = .ok d

/-- An update that is asked for like a new project was, as far as its manifest does not say. -/
structure Request.Repeats (r' r : Request) : Prop where
  settings : r'.settings = r.settings
  output : r'.flags.text "output" = r.flags.text "output"
  templates : r'.flags.text "templates" = r.flags.text "templates"
  options : r'.flags.pairs "option" = r.flags.pairs "option"
  input : r'.flags.text "input" = []
  arguments : r'.args = []
  languages : r'.flags.list "language" = []

theorem Request.Repeats.project_eq {r r' : Request} (h : r'.Repeats r) :
    r'.project = r.project := by
  rw [Request.project, Request.project, Request.output, Request.output, h.settings, h.output]

section

variable {r r' : Request} {input : Bytes} {languages : List Bytes} {s : Schema}
  {rendered : List (Bytes × List OutputFile)} (h : r.Creates input languages s rendered)

include h

/-- What a creation leaves behind. -/
theorem Request.Creates.stocked (hdone : AllDone (r.createSteps input languages s rendered)
    r.env.disk d) :
    Stocked r (r.newManifest input languages s (placed rendered)) (placed rendered) d := by
  obtain ⟨m₁, m₂, m₃, hmade, hcrate, hplaced, hmanifest⟩ := exists_of_allDone_createSteps hdone
  have hne := r.project_ne_nil
  -- the four stages of the creation: directories, crate, files, manifest
  have hgrows₁ := Files.Disk.grows_of_makeDirectories hmade
  have hgrows₂ := (wroteAll_of_allDone hne hcrate).grows
  have hgrows₃ := (wroteAll_of_allDone hne hplaced).grows
  have hgrows₄ := Files.Disk.grows_of_write hmanifest
  -- none of them writes a template
  have hcrate_stay := hcrate.of_keeps (keeps_templates_outputs hne fun f hf => by
    obtain heq | heq := h.builds.path_scaffold hf
    · exact heq ▸ by decide
    · exact heq ▸ by decide)
  have hplaced_stay := hplaced.of_keeps (keeps_templates_outputs hne fun f hf => by
    obtain ⟨t, -, ht⟩ := h.builds.exists_of_mem_paths (List.mem_map_of_mem hf)
    exact ht ▸ not_isTemplatePlace_sourcePath h.builds.octets_package t)
  have hmanifest_stay : TemplatesStay m₃ d := by
    refine templatesStay_of_write ?_ hmanifest
    rw [Manifest.path, isOutputPath_manifestName.place hne]
    exact not_isTemplatePlace_placeOf (by decide) _ _
  have hdirectory : m₁.isDirectory r.project = true :=
    Files.Disk.isDirectory_of_ancestry hne (Files.Disk.isDirectory_of_mem_ancestry hmade)
  have hgrows := hgrows₁.trans (hgrows₂.trans (hgrows₃.trans hgrows₄))
  refine ⟨hgrows, ?_, (hgrows₂.trans (hgrows₃.trans hgrows₄)).isDirectory hdirectory,
    fun f hf => ?_, fun f hf => ?_, m₃, hmanifest⟩
  · exact (templatesStay_of_makeDirectories hmade).trans
      (hcrate_stay.trans (hplaced_stay.trans hmanifest_stay))
  · obtain ⟨m, m', hf', hmore⟩ := exists_done_of_allDone hne hplaced hf
    exact ⟨m, m', hf', hmore.trans hgrows₄⟩
  · rw [placeOf_eq hgrows.cwd]
    exact h.get?_of_allDone hdone f hf

/-- A manifest is well formed if the package and the path of the schema are. -/
theorem Request.Creates.isUtf8 (hpackage : Utf8.isValid (r.flags.text "package") = true)
    (hpath : Utf8.isValid (Manifest.interfaceOf r.env.disk.cwd r.project input) = true) :
    (r.newManifest input languages s (placed rendered)).IsUtf8 := by
  refine ⟨?_, hpath, fun n hn => ?_, ?_, fun p hp => h.builds.isValid_path hp⟩
  · -- the package of the schema, or the one that was given
    change Utf8.isValid (r.packageOf s) = true
    rw [packageOf]
    split_ifs
    · refine Utf8.isValid_of_ascii fun b hb => ?_
      obtain hword | rfl := h.builds.octets_package b hb
      · exact Bytes.ascii_of_isWord hword
      · decide
    · exact hpackage
  · -- the languages are targets, the edition is one of two
    obtain ⟨targets, -, rfl, -⟩ := h.builds.exists_targets
    obtain ⟨t, -, rfl⟩ := List.mem_map.mp hn
    cases t <;> decide
  · obtain hedition | hedition := h.edition
    · exact (congrArg Utf8.isValid hedition).trans (by decide)
    · exact (congrArg Utf8.isValid hedition).trans (by decide)

/-- From its project, the schema is found where it was found. -/
theorem Request.Creates.read_interfacePath (hsettled : r.env.disk.Settled)
    (hstocked : Stocked r (r.newManifest input languages s (placed rendered)) (placed rendered) d)
    (hsource : d.read input = r.env.disk.read input) :
    let m := r.newManifest input languages s (placed rendered)
    m.interface ≠ [] ∧ d.read (m.interfacePath r.project) = r.env.disk.read input
      ∧ Manifest.interfaceOf d.cwd r.project (m.interfacePath r.project) = m.interface := by
  intro m
  obtain ⟨src, c, hread, -, -⟩ := h.builds.compiles
  obtain ⟨hfind, hget⟩ :=
    Files.Disk.look_eq_ok_iff.mp (Files.Disk.read_eq_ok_iff.mp (hsource.trans hread))
  have hfile : d.tree.get? (d.place input) ≠ some .directory := by simp [hget]
  have hdirectory := (Files.Disk.isDirectory_iff.mp hstocked.directory).2
  have hd := hsettled.of_grows hstocked.grows
  -- the path that is remembered leads from the project to the source
  have hinterface : m.interface
      = Files.relativeText (Files.absolute d.cwd r.project) (Files.absolute d.cwd input) := by
    rw [hstocked.grows.cwd]
    rfl
  have htext := hd.ofText_relativeText hdirectory hfind hfile
  have hagain := hd.find_relative hdirectory hfind hfile r.project_ne_nil
  rw [← hinterface] at htext hagain
  have hrooted : Files.isRooted m.interface = false := congrArg Files.Path.rooted htext
  have hpath : m.interfacePath r.project = Files.joinTexts [r.project, m.interface] := by
    rw [Manifest.interfacePath, hrooted]
    rfl
  have hplace := Files.Disk.eq_place_of_find hagain
  rw [hpath]
  refine ⟨?_, ?_, ?_⟩
  · rw [hinterface]
    exact hd.relativeText_ne_nil hfind _
  · rw [hread]
    refine Files.Disk.read_eq_ok_iff.mpr (Files.Disk.look_eq_ok_iff.mpr ?_)
    rw [← hplace]
    exact ⟨hagain, hget⟩
  · rw [Manifest.interfaceOf, hd.absolute_eq (Files.joinTexts _), ← hplace,
      ← hd.absolute_eq input, ← hinterface]

section

variable (hrepeats : r'.Repeats r) (hsettled : r.env.disk.Settled)
  (hstocked : Stocked r (r.newManifest input languages s (placed rendered)) (placed rendered)
    r'.env.disk) (hsource : r'.env.disk.read input = r.env.disk.read input)

include hrepeats hsettled hstocked hsource

/-- What an update needs is there. -/
theorem Request.Creates.updates
    (hvalid : (r.newManifest input languages s (placed rendered)).IsUtf8) :
    let m := r.newManifest input languages s (placed rendered)
    r'.Updates (some m) (m.interfacePath r.project) languages
      (s.readFrom (rememberedPath (m.interfacePath r.project))) rendered := by
  intro m
  obtain ⟨hinterface, hread, -⟩ := h.read_interfacePath hsettled hstocked hsource
  obtain ⟨m₁, hwrite⟩ := hstocked.manifest
  have hnames : r'.updateNames (some m) = languages := by
    rw [updateNames, hrepeats.languages]
    rfl
  refine ⟨?_, ?_, ?_, hnames ▸ h.builds.again hrepeats.settings hrepeats.templates
    hrepeats.options hstocked.grows hstocked.stay hread⟩
  · rw [hrepeats.project_eq]
    exact hstocked.directory
  · -- the manifest is read back as it was written
    rw [hrepeats.project_eq, Manifest.load?, Files.Disk.read_of_write hwrite]
    simp only [Manifest.ofText?_text hvalid]
    rfl
  · have hempty : m.interface.isEmpty = false := by simpa using hinterface
    simp only [updateInput, hrepeats.input, hrepeats.arguments, hempty, hrepeats.project_eq]
    rfl

/-- The steps of the update change nothing. -/
theorem Request.Creates.exists_allDone_update :
    let m := r.newManifest input languages s (placed rendered)
    ∃ e, AllDone (r'.updateSteps (some m) (m.interfacePath r.project) languages
      (s.readFrom (rememberedPath (m.interfacePath r.project))) (placed rendered)) r'.env.disk e
        ∧ Unchanged r'.env.disk e := by
  intro m
  obtain ⟨-, -, hinterface⟩ := h.read_interfacePath hsettled hstocked hsource
  obtain ⟨m₁, hwrite⟩ := hstocked.manifest
  have hne := r.project_ne_nil
  -- nothing is stale, since the manifest lists what is rendered
  have hstale : staleOf (some m) (placed rendered) = [] :=
    List.eq_nil_iff_forall_not_mem.mpr fun p hp => by
      obtain ⟨o, ho, hmem, hnew⟩ := mem_staleOf_iff.mp hp
      cases ho
      exact hnew hmem
  -- and the next manifest is the one that is there
  have hnext : r'.nextManifest (some m) (m.interfacePath r.project) languages
      (s.readFrom (rememberedPath (m.interfacePath r.project))) (placed rendered) = m := by
    rw [nextManifest, hrepeats.project_eq, hinterface]
    rfl
  obtain ⟨e, hplaced, hsame⟩ := allDone_outputs_again hne hstocked.again hstocked.content
  have hget : e.tree.get? (m₁.place (Manifest.path r.project)) = some (.file m.text) := by
    rw [hsame.get? _ id]
    exact Files.Disk.get?_of_write hwrite
  refine ⟨e.put (m₁.place (Manifest.path r.project)) (.file m.text), ?_,
    hsame.trans (unchanged_put hget)⟩
  rw [updateSteps, hstale, hnext, hrepeats.project_eq, List.map_nil, List.append_nil]
  exact allDone_append_iff.mpr ⟨e, hplaced,
    .cons (Files.Disk.write_again hwrite hsame.grows) (.nil _)⟩

end

end

/-- An update right after a project has been made, with the same settings, templates and options,
does not fail and changes nothing. -/
theorem run_update_of_run_create {env env' : Environment} {words words' : List Bytes}
    {schedule schedule' : Schedule} {r r' : Request} {c c' : Console}
    (hcreate : request? env words schedule = some (.create, r, c))
    (hcode : (run env words schedule).code = 0)
    (hupdate : request? env' words' schedule' = some (.update, r', c'))
    (hdisk : env'.disk = (run env words schedule).disk) (hrepeats : r'.Repeats r)
    (hsettled : env.disk.Settled)
    (hsource : ∀ input, r.input = .ok input → env'.disk.read input = env.disk.read input)
    (hpackage : Utf8.isValid (r.flags.text "package") = true)
    (hpath : ∀ input, r.input = .ok input →
      Utf8.isValid (Manifest.interfaceOf env.disk.cwd r.project input) = true) :
    (run env' words' schedule').code = 0
      ∧ ∀ x, (run env' words' schedule').disk.tree.get? x = env'.disk.tree.get? x := by
  obtain rfl := env_of_request hcreate
  obtain rfl := env_of_request hupdate
  rw [run_of_request hcreate] at hcode hdisk
  rw [run_of_request hupdate]
  -- what the creation did is known from its steps
  obtain ⟨steps, hplan, hdone⟩ := exists_of_carryOut hcode
  obtain ⟨input, languages, s, rendered, h, rfl⟩ := (r.yields_planCreate c steps).mp hplan
  rw [← hdisk] at hdone
  have hstocked := h.stocked hdone
  have hread := hsource input h.given
  have hupdates := h.updates hrepeats hsettled hstocked hread
    (h.isUtf8 hpackage (hpath input h.given))
  obtain ⟨e, hagain, hsame⟩ := h.exists_allDone_update hrepeats hsettled hstocked hread
  -- the update has a plan, of which every step can be taken and changes nothing
  have hplan' : ((r'.plan .update).run c').1 = .ok _ :=
    (r'.yields_planUpdate c' _).mpr ⟨_, _, _, _, _, hupdates, rfl⟩
  obtain ⟨hzero, hleft⟩ := carryOut_of_allDone hplan' hagain
  refine ⟨hzero, fun x => ?_⟩
  rw [hleft]
  exact hsame.get? x id

/-- A schema next to which there is nothing. -/
def loneSource : Environment where
  disk := ⟨⟨[(["a.midl"], .file "package p;")]⟩, []⟩
  vars := []
  engine := fun _ _ => .error .compile

/-- What surrounds a command that comes after another one. -/
def Environment.after (env : Environment) (words : List Bytes) : Environment :=
  { env with disk := (run env words .given).disk }

theorem settings_eq_of_request {env : Environment} {words : List Bytes} {schedule : Schedule}
    {v : Verb} {r : Request} {c : Console} (h : request? env words schedule = some (v, r, c))
    (hconfig : r.flags.text "config" = []) (hnone : findConfig? env.disk env.vars = none) :
    r.settings = { vars := env.vars } := by
  have hload := settings_of_request h
  rw [hconfig, Settings.load, hnone] at hload
  exact (Except.ok.inj hload).symm

/-- The words that make a project with an option. -/
def createWords : List Bytes :=
  ["create", "-i", "a.midl", "-l", "rust", "-o", "out", "-O", "runtime=rt"]

/-- The same option, again. -/
def repeatedWords : List Bytes := ["update", "-o", "out", "-O", "runtime=rt"]

theorem run_update_of_run_create_option :
    (run (loneSource.after createWords) repeatedWords .given).code = 0
      ∧ ∀ x, (run (loneSource.after createWords) repeatedWords .given).disk.tree.get? x
        = (loneSource.after createWords).disk.tree.get? x := by
  -- what the two commands ask for, and what the first leaves behind
  have hcreate : ∃ x ∈ request? loneSource createWords .given, x.1 = .create
      ∧ x.2.1.input = .ok "a.midl" ∧ x.2.1.project = "out" ∧ x.2.1.flags.text "config" = []
      ∧ x.2.1.flags.text "package" = [] ∧ x.2.1.flags.text "output" = "out"
      ∧ x.2.1.flags.text "templates" = []
      ∧ x.2.1.flags.pairs "option" = [(Bytes.ofString "runtime", Bytes.ofString "rt")] := by
    decide +kernel
  have hupdate : ∃ x ∈ request? (loneSource.after createWords) repeatedWords .given, x.1 = .update
      ∧ x.2.1.args = [] ∧ x.2.1.flags.text "config" = [] ∧ x.2.1.flags.text "input" = []
      ∧ x.2.1.flags.list "language" = [] ∧ x.2.1.flags.text "output" = "out"
      ∧ x.2.1.flags.text "templates" = []
      ∧ x.2.1.flags.pairs "option" = [(Bytes.ofString "runtime", Bytes.ofString "rt")] := by
    decide +kernel
  have hcode : (run loneSource createWords .given).code = 0 := by decide +kernel
  have hleft : findConfig? loneSource.disk loneSource.vars = none
      ∧ findConfig? (loneSource.after createWords).disk loneSource.vars = none
      ∧ (loneSource.after createWords).disk.read "a.midl" = loneSource.disk.read "a.midl"
      ∧ Utf8.isValid (Manifest.interfaceOf loneSource.disk.cwd "out" "a.midl") = true := by
    decide +kernel
  obtain ⟨hbefore, hafter, hread, hpath⟩ := hleft
  obtain ⟨⟨v, r, c⟩, hrequest, rfl, hinput, hproject, hconfig, hpackage, houtput, htemplates,
    hoptions⟩ := hcreate
  obtain ⟨⟨v', r', c'⟩, hrequest', rfl, hargs', hconfig', hinput', hlanguages', houtput',
    htemplates', hoptions'⟩ := hupdate
  -- both go by the same settings, since neither finds a file of them
  have hsettings : r'.settings = r.settings :=
    (settings_eq_of_request hrequest' hconfig' hafter).trans
      (settings_eq_of_request hrequest hconfig hbefore).symm
  have hsettled : loneSource.disk.Settled := by
    refine ⟨nofun, fun p hp => ?_⟩
    rw [List.prefix_nil.mp hp]
    exact Files.Tree.get?_root _
  refine run_update_of_run_create hrequest hcode hrequest' rfl
    ⟨hsettings, houtput'.trans houtput.symm, htemplates'.trans htemplates.symm,
      hoptions'.trans hoptions.symm, hinput', hargs', hlanguages'⟩ hsettled (fun input h => ?_)
    (hpackage ▸ by decide) fun input h => ?_
  · obtain rfl : input = "a.midl" := Except.ok.inj (h.symm.trans hinput)
    exact hread
  · obtain rfl : input = "a.midl" := Except.ok.inj (h.symm.trans hinput)
    rw [hproject]
    exact hpath

/-- An update with no further flags. -/
def Environment.updated (env : Environment) (words : List Bytes) : Outcome :=
  run (env.after words) ["update", "-o", "out"] .given

/-- A schema, and a directory with a template. -/
def templatedSource : Environment where
  disk := ⟨⟨[(["a.midl"], .file "package p;"), (["own"], .directory), (["own", "rust"], .directory),
    (["own", "rust", "file.rs.tmpl"], .file "mod p;\n")]⟩, []⟩
  vars := []
  engine := fun _ _ => .error .compile

/-- A schema in a file whose name is no text. -/
def unnamedSource : Environment where
  disk := ⟨⟨[([[0xFF]], .file "package p;")]⟩, []⟩
  vars := []
  engine := fun _ _ => .error .compile

/-- The words that make a project with templates. -/
def templatedWords : List Bytes :=
  ["create", "-i", "a.midl", "-l", "rust", "-o", "out", "--templates", "own"]

/-- The words that make a project with a package that is no text. -/
def brokenWords : List Bytes :=
  ["create", "-i", "a.midl", "-l", "rust", "-o", "out", "--package", ([0xFF] : Bytes)]

/-- The words that make a project from a file whose name is no text. -/
def unnamedWords : List Bytes := ["create", "-i", ([0xFF] : Bytes), "-l", "rust", "-o", "out"]

/-- Options and templates that are not given again are forgotten, and a package or a path that is no
text leaves a manifest that cannot be read. -/
theorem exists_changed_by_update :
    ((run loneSource createWords .given).code = 0
      ∧ (loneSource.updated createWords).code = 0
      ∧ (loneSource.updated createWords).disk.tree.get? ["out", "rust", "src", "p.rs"]
        ≠ (loneSource.after createWords).disk.tree.get? ["out", "rust", "src", "p.rs"])
    ∧ ((run templatedSource templatedWords .given).code = 0
      ∧ (templatedSource.updated templatedWords).code = 0
      ∧ (templatedSource.updated templatedWords).disk.tree.get? ["out", "rust", "src", "p.rs"]
        ≠ (templatedSource.after templatedWords).disk.tree.get? ["out", "rust", "src", "p.rs"])
    ∧ ((run loneSource brokenWords .given).code = 0 ∧ (loneSource.updated brokenWords).code = 1)
    ∧ (run unnamedSource unnamedWords .given).code = 0
      ∧ (unnamedSource.updated unnamedWords).code = 1 := by
  refine ⟨?_, ?_, ?_, ?_⟩ <;> decide +kernel

end Idl.Command
