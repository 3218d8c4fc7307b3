import Idl.Proofs.Command.Effects

/-!
# What a command line may do to files

A verb that is refused leaves all files as they are: whatever can be wrong with what it is asked for
is found before its first step. The steps of a project change files below its directory only, and
write each of them once, apart from the root of a crate that is generated as well.

* §1 where files change, §2 around a project, §3 written once, §4 command lines.
-/

namespace Idl.Command

open Files (Disk)
open Files.Disk (Within FilesWithin Around Beneath MadeAt Stands)
open Bindings (OutputFile)
open Request (removalOf)

variable {dir : Bytes} {d d' d'' : Disk}

/-! ## §1 Where files change -/

/-- The place at which a step writes a file. -/
def Step.written? (d : Disk) : Step → Option (List Bytes)
  | .output dir f => some (d.place (Files.joinTexts [dir, f.path]))
  | .manifest path _ | .document path _ => some (d.place path)
  | .directory _ | .removal _ | .note _ => none

/-- The place at which a step removes a file. -/
def Step.removed? (d : Disk) : Step → Option (List Bytes)
  | .removal path => some (d.place path)
  | .directory _ | .output _ _ | .manifest _ _ | .document _ _ | .note _ => none

/-- The places at which steps write files, one after the other. -/
def writtenPlaces (d : Disk) (steps : List Step) : List (List Bytes) :=
  steps.filterMap (Step.written? d)

/-- The places at which steps remove files, one after the other. -/
def removedPlaces (d : Disk) (steps : List Step) : List (List Bytes) :=
  steps.filterMap (Step.removed? d)

/-- Files have changed only where steps write or remove them. -/
structure Changed (steps : List Step) (d d' : Disk) : Prop where
  cwd : d'.cwd = d.cwd
  others : FilesWithin (fun x => x ∈ writtenPlaces d steps ∨ x ∈ removedPlaces d steps) d d'

theorem Changed.refl (steps : List Step) (d : Disk) : Changed steps d d := ⟨rfl, .refl _ _⟩

theorem place_congr (h : d'.cwd = d.cwd) (t : Bytes) : d'.place t = d.place t := by
  simp only [Disk.place, Disk.start, h]

theorem writtenPlaces_congr (h : d'.cwd = d.cwd) (steps : List Step) :
    writtenPlaces d' steps = writtenPlaces d steps := by
  refine List.filterMap_congr fun s _ => ?_
  cases s <;> simp only [Step.written?, place_congr h]

theorem removedPlaces_congr (h : d'.cwd = d.cwd) (steps : List Step) :
    removedPlaces d' steps = removedPlaces d steps := by
  refine List.filterMap_congr fun s _ => ?_
  cases s <;> simp only [Step.removed?, place_congr h]

theorem Changed.trans {steps : List Step} (h : Changed steps d d') (h' : Changed steps d' d'') :
    Changed steps d d'' := by
  refine ⟨h'.cwd.trans h.cwd, h.others.trans (h'.others.mono fun x hx => ?_)⟩
  rwa [writtenPlaces_congr h.cwd, removedPlaces_congr h.cwd] at hx

section

variable {steps : List Step} {s : Step} (hs : s ∈ steps)

include hs

theorem changed_of_write {t content : Bytes} (hwritten : ∀ d, s.written? d = some (d.place t))
    (h : d.write t content = .ok d') : Changed steps d d' := by
  have hwithin := Files.Disk.within_of_write h
  refine ⟨hwithin.cwd, hwithin.filesWithin.mono ?_⟩
  rintro x rfl
  exact .inl (List.mem_filterMap.mpr ⟨s, hs, hwritten d⟩)

theorem changed_of_removeIfThere {t : Bytes} (hremoved : ∀ d, s.removed? d = some (d.place t))
    (h : removeIfThere t d = .ok d') : Changed steps d d' := by
  rw [removeIfThere] at h
  split at h
  · next hremove =>
    cases h
    obtain ⟨-, -, -, rfl⟩ := Files.Disk.remove_eq_ok_iff.mp hremove
    refine ⟨rfl, (Files.Disk.within_erase d _).filesWithin.mono ?_⟩
    rintro x rfl
    exact .inr (List.mem_filterMap.mpr ⟨s, hs, hremoved d⟩)
  · split_ifs at h
    cases h
    exact .refl _ _

omit hs in
theorem changed_of_makeDirectory {p : Bytes} (h : d.makeDirectory p = .ok d') :
    Changed steps d d' :=
  ⟨(Files.Disk.grows_of_makeDirectory h).cwd,
    (Files.Disk.filesWithin_of_makeDirectory h).mono nofun⟩

/-- A step changes files where it says, whether it is taken to its end or not. -/
theorem keeps_changed_take : s.take.Keeps (Changed steps) := by
  have hrefl := Changed.refl steps
  -- a new directory changes no file
  have hdirectories (path : Bytes) : (Work.makeDirectories path).Keeps (Changed steps) :=
    Work.keeps_makeDirectories hrefl (fun _ _ _ => .trans) fun _ _ _ _ => changed_of_makeDirectory
  cases s with
  | directory path => exact hdirectories path
  | output dir f =>
    exact keeps_output hrefl (fun _ _ _ => .trans) (fun _ _ _ _ _ => changed_of_makeDirectory)
      fun _ _ _ => changed_of_write hs fun _ => rfl
  | removal path =>
    exact .bind (fun _ _ _ => .trans)
      (Work.keeps_change hrefl (fun d d' => changed_of_removeIfThere hs fun _ => rfl) _)
      (.of_eq hrefl fun _ => rfl)
  | manifest path content =>
    exact Work.keeps_change hrefl (fun d d' => changed_of_write hs fun _ => rfl) _
  | document path content =>
    exact Work.keeps_change hrefl (fun d d' => changed_of_write hs fun _ => rfl) _
  | note e => exact .of_eq hrefl fun _ => rfl

end

/-- Files change only where steps write or remove them, whether all steps are taken or not. -/
theorem keeps_changed_takeAll (steps : List Step) : (takeAll steps).Keeps (Changed steps) :=
  keeps_takeAll (Changed.refl steps) (fun _ _ _ => .trans) fun _ => keeps_changed_take

/-! ## §2 Around a project -/

/-- All changes are below a directory, but the directory and those that it lies in may have been
made. -/
def Enclosed (dir : Bytes) (d d' : Disk) : Prop :=
  ∀ x, ¬ Beneath (d.place dir) x → d'.tree.get? x = d.tree.get? x ∨
    d.tree.get? x = none ∧ d'.tree.get? x = some .directory
      ∧ ∃ p ∈ Disk.ancestry dir, x = d.place p

section

variable (hdir : dir ≠ []) (content : Bytes)

include hdir

theorem keeps_inside_manifest :
    (Step.manifest (Manifest.path dir) content).take.Keeps (Inside dir) := by
  refine keeps_manifest hdir (Inside.refl dir) (fun d d' content h => ?_) content
  have hwithin := Files.Disk.within_of_write h
  rw [d.place_below dir isOutputPath_manifestName.isName (partsOf_ne_nil _)] at hwithin
  exact hwithin.mono fun x hx => ⟨_, partsOf_ne_nil manifestName, hx⟩

theorem keeps_inside_last :
    (takeAll [Step.manifest (Manifest.path dir) content]).Keeps (Inside dir) :=
  keeps_takeAll (Inside.refl dir) (fun _ _ _ => .trans)
    (by simpa using keeps_inside_manifest hdir content)

/-- Where a directory stands, the steps of an update change nothing outside of it. -/
theorem keeps_inside_update (files : List OutputFile) (stale : List Bytes) :
    (takeAll (files.map (Step.output dir) ++ stale.map (removalOf dir)
      ++ [Step.manifest (Manifest.path dir) content])).Keeps
        fun d d' => d.Stands dir → Inside dir d d' := by
  have hremovals : (takeAll (stale.map (removalOf dir)
      ++ [Step.manifest (Manifest.path dir) content])).Keeps (Inside dir) := by
    rw [takeAll_append]
    exact .bind (fun _ _ _ => .trans) (keeps_inside_removals hdir stale)
      (keeps_inside_last hdir content)
  rw [List.append_assoc, takeAll_append]
  refine (keeps_around_outputs hdir files).bind_of (means_takeAll _) hremovals ?_ ?_
  · exact fun d d' h hstands => (h hstands).2
  · exact fun d m d' _ h h' hstands => .trans (h hstands).2 h'

/-- The steps for a new project change nothing outside of its directory, other than that they make
it. -/
theorem keeps_enclosed_create (files : List OutputFile) :
    (takeAll (Step.directory dir :: files.map (Step.output dir)
      ++ [Step.manifest (Manifest.path dir) content])).Keeps (Enclosed dir) := by
  have hrest := keeps_inside_update hdir content files []
  rw [List.map_nil, List.append_nil] at hrest
  -- the directory itself is made first, and the files stand in it
  have hmade : (Step.directory dir).take.Keeps (MadeAt (Disk.ancestry dir)) :=
    Work.keeps_makeDirectories (.refl _) (fun _ _ _ => .trans)
      fun p hp _ _ => Files.Disk.madeAt_of_makeDirectory hp
  rw [List.cons_append, takeAll]
  refine hmade.bind_of (Step.means_take _) hrest (fun d d' h x _ => h.get? x) ?_
  intro d m d' hdone h hinside x hx
  have hlast := hinside (Files.Disk.stands_of_makeDirectories hdir hdone)
  rw [hlast.get? x (place_congr h.cwd dir ▸ hx)]
  exact h.get? x

end

/-! ## §3 Written once -/

theorem writtenPlaces_append (d : Disk) (a b : List Step) :
    writtenPlaces d (a ++ b) = writtenPlaces d a ++ writtenPlaces d b := List.filterMap_append

theorem writtenPlaces_outputs (hdir : dir ≠ []) {files : List OutputFile}
    (hpaths : ∀ f ∈ files, IsOutputPath f.path) :
    writtenPlaces d (files.map (Step.output dir)) = (files.map (·.path)).map (placeOf d dir) := by
  rw [writtenPlaces, List.filterMap_map, List.map_map, ← List.filterMap_eq_map]
  refine List.filterMap_congr fun f hf => ?_
  simp only [Function.comp_apply, Step.written?, (hpaths f hf).place hdir]

theorem writtenPlaces_removals (d : Disk) (dir : Bytes) (paths : List Bytes) :
    writtenPlaces d (paths.map (removalOf dir)) = [] := by
  refine List.filterMap_eq_nil_iff.mpr fun s hs => ?_
  obtain ⟨p, -, rfl⟩ := List.mem_map.mp hs
  rw [removalOf]
  split <;> rfl

theorem writtenPlaces_manifest (d : Disk) (hdir : dir ≠ []) (content : Bytes) :
    writtenPlaces d [.manifest (Manifest.path dir) content]
      = [manifestName].map (placeOf d dir) := by
  simp [writtenPlaces, Step.written?, Manifest.path, isOutputPath_manifestName.place hdir]

section

variable {s : Schema} (hs : ∀ b ∈ s.package, Bytes.isWord b = true ∨ b = 0x2E)

include hs

theorem sourcePath_ne_crateFile (t : Bindings.Target) : sourcePath s t ≠ crateFile := by
  intro h
  have hparts := congrArg partsOf h
  have hcrate : partsOf crateFile = ["rust", "Cargo.toml"] := by decide
  have hne : ("go" : Bytes) ≠ "rust" := by decide
  rw [partsOf_sourcePath hs, hcrate] at hparts
  cases t <;> simp [sourceParts, hne] at hparts

theorem sourcePath_eq_crateRoot_iff {t : Bindings.Target} :
    sourcePath s t = crateRoot ↔ t = .rust ∧ RustView.fileName s = "lib.rs" := by
  have hroot : partsOf crateRoot = ["rust", "src", "lib.rs"] := by decide
  have hcut : sourcePath s t = crateRoot ↔ partsOf (sourcePath s t) = partsOf crateRoot :=
    ⟨congrArg _, eq_of_partsOf_eq⟩
  rw [hcut, partsOf_sourcePath hs, hroot]
  cases t with
  | go =>
    have hne : ("go" : Bytes) ≠ "rust" := by decide
    simp [sourceParts, hne]
  | rust => simp [sourceParts, Bindings.Target.fileName]

end

section

variable {r : Request} {input : Bytes} {names languages : List Bytes} {s : Schema}
  {rendered : List (Bytes × List OutputFile)} (h : r.Builds input names languages s rendered)

include h

/-- The paths of a crate, of generated files and of the manifest are different if the root of the
crate is not generated. -/
theorem Request.Builds.nodup_all {crate : List Bytes} (hcrate : crate.Nodup)
    (hnames : ∀ p ∈ crate, p = crateFile ∨ p = crateRoot)
    (hroot : crateRoot ∈ crate → crateRoot ∉ (placed rendered).map (·.path)) :
    (crate ++ (placed rendered).map (·.path) ++ [manifestName]).Nodup := by
  -- a rendered file never has the name of the file of the crate
  have hfile : crateFile ∉ (placed rendered).map (·.path) := by
    intro hmem
    obtain ⟨t, -, ht⟩ := h.exists_of_mem_paths hmem
    exact sourcePath_ne_crateFile h.octets_package t ht.symm
  -- and the manifest has a name of its own
  have hlast : manifestName ∉ crate := by
    intro hmem
    obtain heq | heq := hnames _ hmem
    · exact absurd heq (by decide)
    · exact absurd heq (by decide)
  refine List.nodup_append.mpr ⟨List.nodup_append.mpr ⟨hcrate, h.nodup_paths, ?_⟩,
    List.nodup_singleton _, ?_⟩
  · rintro p hp q hq rfl
    obtain rfl | rfl := hnames p hp
    · exact hfile hq
    · exact hroot hp hq
  · rintro p hp q hq rfl
    obtain rfl := List.mem_singleton.mp hq
    exact (List.mem_append.mp hp).elim hlast h.manifestName_not_mem

end

/-- The places that are written for an update. -/
theorem Request.Updates.writtenPlaces_updateSteps {r : Request} {old : Option Manifest}
    {input : Bytes} {languages : List Bytes} {s : Schema}
    {rendered : List (Bytes × List OutputFile)} (h : r.Updates old input languages s rendered)
    (d : Disk) : writtenPlaces d (r.updateSteps old input languages s (placed rendered))
      = ((placed rendered).map (·.path) ++ [manifestName]).map (placeOf d r.project) := by
  rw [updateSteps, writtenPlaces_append, writtenPlaces_append, writtenPlaces_removals,
    writtenPlaces_outputs r.project_ne_nil fun f hf => h.builds.isOutputPath hf,
    writtenPlaces_manifest d r.project_ne_nil, List.append_nil, List.map_append]

/-- The paths of the files of a new project. -/
def Request.newPaths (r : Request) (s : Schema) (rendered : List (Bytes × List OutputFile)) :
    List Bytes :=
  (r.scaffold (r.packageOf s) rendered).map (·.path) ++ (placed rendered).map (·.path)
    ++ [manifestName]

/-- The places that are written for a new project. -/
theorem Request.Creates.writtenPlaces_createSteps {r : Request} {input : Bytes}
    {languages : List Bytes} {s : Schema} {rendered : List (Bytes × List OutputFile)}
    (h : r.Creates input languages s rendered) (d : Disk) :
    writtenPlaces d (r.createSteps input languages s rendered)
      = (r.newPaths s rendered).map (placeOf d r.project) := by
  -- the two files of the crate have fixed names
  have hcrate : ∀ f ∈ r.scaffold (r.packageOf s) rendered, IsOutputPath f.path := by
    intro f hf
    obtain heq | heq := h.builds.path_scaffold hf
    · exact heq ▸ by decide
    · exact heq ▸ by decide
  have hall : ∀ f ∈ r.scaffold (r.packageOf s) rendered ++ placed rendered, IsOutputPath f.path :=
    List.forall_mem_append.mpr ⟨hcrate, fun f hf => h.builds.isOutputPath hf⟩
  -- making the directory writes no file
  have hfirst (steps : List Step) :
      writtenPlaces d (.directory r.project :: steps) = writtenPlaces d steps := rfl
  rw [createSteps, List.cons_append, hfirst, writtenPlaces_append,
    writtenPlaces_outputs r.project_ne_nil hall, writtenPlaces_manifest d r.project_ne_nil,
    newPaths]
  simp only [List.map_append]

/-- What the steps for a new project do to files, whether all of them are taken or not. -/
structure Request.MadeBy (r : Request) (s : Schema) (generated : List OutputFile)
    (steps : List Step) (o : Outcome) : Prop where
  enclosed : Enclosed r.project r.env.disk o.disk
  changed : Changed steps r.env.disk o.disk
  once : RustView.fileName s ≠ "lib.rs" → (writtenPlaces r.env.disk steps).Nodup
  /-- Only the root of a crate may be written twice. -/
  twice : ((writtenPlaces r.env.disk steps).erase (placeOf r.env.disk r.project crateRoot)).Nodup
  /-- What is generated replaces the root of the crate. -/
  generated : o.code = 0 →
    ∀ f ∈ generated, o.disk.tree.get? (placeOf r.env.disk r.project f.path) = some (.file f.content)

/-- What the steps of an update do to files, whether all of them are taken or not. -/
structure Request.UpdatedBy (r : Request) (steps : List Step) (o : Outcome) : Prop where
  inside : Inside r.project r.env.disk o.disk
  changed : Changed steps r.env.disk o.disk
  once : (writtenPlaces r.env.disk steps).Nodup

section

variable {r : Request} {input : Bytes} {languages : List Bytes} {s : Schema}
  {rendered : List (Bytes × List OutputFile)} {c : Console}

theorem placeOf_injective (d : Disk) (dir : Bytes) : Function.Injective (placeOf d dir) :=
  fun _ _ => placeOf_inj.mp

namespace Request.Creates

variable (h : r.Creates input languages s rendered)

include h

theorem crateRoot_not_mem (hlib : RustView.fileName s ≠ "lib.rs") :
    crateRoot ∉ (placed rendered).map (·.path) := by
  intro hmem
  obtain ⟨t, -, ht⟩ := h.builds.exists_of_mem_paths hmem
  exact hlib ((sourcePath_eq_crateRoot_iff h.builds.octets_package).mp ht.symm).2

theorem nodup_newPaths (hlib : RustView.fileName s ≠ "lib.rs") : (r.newPaths s rendered).Nodup :=
  h.builds.nodup_all ((h.builds.crate_sublist _).nodup (by decide))
    (fun p hp => by simpa using (h.builds.crate_sublist _).subset hp)
    fun _ => h.crateRoot_not_mem hlib

theorem nodup_newPaths_erase : ((r.newPaths s rendered).erase crateRoot).Nodup := by
  have hcrate := h.builds.crate_sublist (r.packageOf s)
  have hnames : ∀ p ∈ (r.scaffold (r.packageOf s) rendered).map (·.path),
      p = crateFile ∨ p = crateRoot := fun p hp => by simpa using hcrate.subset hp
  have hnodup := hcrate.nodup (by decide)
  rw [newPaths]
  by_cases hroot : crateRoot ∈ (r.scaffold (r.packageOf s) rendered).map (·.path)
  · -- the first one goes
    rw [List.erase_append_left _ (List.mem_append_left _ hroot), List.erase_append_left _ hroot]
    refine h.builds.nodup_all (hnodup.erase _) (fun p hp => hnames p (List.mem_of_mem_erase hp)) ?_
    exact fun hmem => absurd hmem hnodup.not_mem_erase
  · exact (h.builds.nodup_all hnodup hnames fun hmem => absurd hmem hroot).erase _

theorem madeBy (c : Console) : r.MadeBy s (placed rendered)
    (r.createSteps input languages s rendered) (carryOut r .create c) := by
  have hplan : ((r.plan .create).run c).1 = .ok (r.createSteps input languages s rendered) :=
    (r.yields_planCreate c _).mpr ⟨input, languages, s, rendered, h, rfl⟩
  refine ⟨?_, keeps_carryOut hplan (keeps_changed_takeAll _), fun hlib => ?_, ?_, fun hcode => ?_⟩
  · exact keeps_carryOut hplan (keeps_enclosed_create r.project_ne_nil _ _)
  · rw [h.writtenPlaces_createSteps]
    exact (h.nodup_newPaths hlib).map (placeOf_injective _ _)
  · rw [h.writtenPlaces_createSteps, ← List.map_erase (placeOf_injective _ _)]
    exact h.nodup_newPaths_erase.map (placeOf_injective _ _)
  · obtain ⟨steps, hsteps, hdone⟩ := exists_of_carryOut hcode
    obtain rfl : steps = _ := Except.ok.inj (hsteps.symm.trans hplan)
    exact h.get?_of_allDone hdone

end Request.Creates

end

/-- An update does what is said of it, whatever the course of the steps. -/
theorem Request.Updates.updatedBy {r : Request} {old : Option Manifest} {input : Bytes}
    {languages : List Bytes} {s : Schema} {rendered : List (Bytes × List OutputFile)}
    (h : r.Updates old input languages s rendered) (c : Console) :
    r.UpdatedBy (r.updateSteps old input languages s (placed rendered))
      (carryOut r .update c) := by
  -- the plan is the one that the request leads to
  have hplan : ((r.plan .update).run c).1
      = .ok (r.updateSteps old input languages s (placed rendered)) :=
    (r.yields_planUpdate c _).mpr ⟨old, input, languages, s, rendered, h, rfl⟩
  refine ⟨?_, keeps_carryOut hplan (keeps_changed_takeAll _), ?_⟩
  · exact keeps_carryOut hplan (keeps_inside_update r.project_ne_nil _ _ _)
      (Files.Disk.stands_of_isDirectory h.directory)
  · rw [h.writtenPlaces_updateSteps]
    refine List.Nodup.map (placeOf_injective _ _) ?_
    exact @Request.Builds.nodup_all _ _ _ _ _ _ h.builds [] .nil nofun nofun

/-! ## §4 Command lines -/

/-- What must hold for a verb to do anything: the conditions of its plan. -/
def Request.Ready (r : Request) : Verb → Prop
  | .create => ∃ input languages s rendered, r.Creates input languages s rendered
  | .update => ∃ old input languages s rendered, r.Updates old input languages s rendered
  | .codegen => ∃ input languages plugins s rendered,
    r.Generates input languages plugins s rendered
  | .exportAs => ∃ input format s text, r.Exports input format s text
  | .describe => ∃ input s, r.input = .ok input ∧ Compiles r.env.disk input s
  | .help => True

theorem Request.yields_planDescribe (r : Request) : r.planDescribe.Yields fun steps =>
    (∃ input s, r.input = .ok input ∧ Compiles r.env.disk input s) ∧ steps = [] := by
  refine ((Task.yields_lift r.input).bind fun input _ =>
    (yields_loadSchema r.env.disk input).bind fun s _ =>
    Task.yields_modify_bind _ (Task.yields_pure [])).congr fun steps => ?_
  constructor
  · rintro ⟨input, hinput, s, hs, rfl⟩
    exact ⟨⟨input, s, hinput, hs⟩, rfl⟩
  · rintro ⟨⟨input, s, hinput, hs⟩, rfl⟩
    exact ⟨input, hinput, s, hs, rfl⟩

/-- A verb has a plan only if it is ready. -/
theorem Request.ready_of_plan {r : Request} {v : Verb} {c : Console} {steps : List Step}
    (h : ((r.plan v).run c).1 = .ok steps) : r.Ready v := by
  -- each command has a theorem on what its plan yields
  cases v with
  | create =>
    obtain ⟨input, languages, s, rendered, hr, -⟩ := (r.yields_planCreate c steps).mp h
    exact ⟨input, languages, s, rendered, hr⟩
  | update =>
    obtain ⟨old, input, languages, s, rendered, hr, -⟩ := (r.yields_planUpdate c steps).mp h
    exact ⟨old, input, languages, s, rendered, hr⟩
  | codegen =>
    obtain ⟨input, languages, plugins, s, rendered, hr, -⟩ := (r.yields_planCodegen c steps).mp h
    exact ⟨input, languages, plugins, s, rendered, hr⟩
  | exportAs =>
    obtain ⟨input, format, s, text, hr, -⟩ := (r.yields_planExport c steps).mp h
    exact ⟨input, format, s, text, hr⟩
  | describe => exact ((r.yields_planDescribe c steps).mp h).1
  | help => trivial

/-- What a command line may do to files, in whatever order renderings end. -/
structure Careful (env : Environment) (words : List Bytes) (schedule : Schedule) : Prop where
  /-- A command line that cannot be carried out changes nothing. -/
  unasked : request? env words schedule = none → (run env words schedule).disk = env.disk
  /-- A verb that is not ready changes nothing. -/
  refused : ∀ v r c, request? env words schedule = some (v, r, c) → ¬ r.Ready v →
    (run env words schedule).code = 1 ∧ (run env words schedule).disk = env.disk
  created : ∀ r c, request? env words schedule = some (.create, r, c) →
    ∀ input languages s rendered, r.Creates input languages s rendered →
      r.env = env ∧ r.MadeBy s (placed rendered) (r.createSteps input languages s rendered)
        (run env words schedule)
  updated : ∀ r c, request? env words schedule = some (.update, r, c) →
    ∀ old input languages s rendered, r.Updates old input languages s rendered →
      r.env = env ∧ r.UpdatedBy (r.updateSteps old input languages s (placed rendered))
        (run env words schedule)

/-- Whatever can be wrong with what is asked for is found before any file is changed. What is
changed then is in the project, and written once. -/
theorem careful_run (env : Environment) (words : List Bytes) (schedule : Schedule) :
    Careful env words schedule := by
  refine ⟨fun hnone => ?_, fun v r c h hready => ?_, fun r c h input languages s rendered hr => ?_,
    fun r c h old input languages s rendered hr => ?_⟩
  · obtain ⟨v, r, c, h, -⟩ | ⟨-, hdisk⟩ := run_cases env words schedule
    · cases h.symm.trans hnone
    · exact hdisk
  · rw [run_of_request h, ← env_of_request h]
    exact carryOut_of_refused fun steps hplan => hready (Request.ready_of_plan hplan)
  · rw [run_of_request h]
    exact ⟨env_of_request h, hr.madeBy c⟩
  · rw [run_of_request h]
    exact ⟨env_of_request h, hr.updatedBy c⟩

/-- A package with another name than `lib`, whose Rust file is the root of the crate. -/
def shoutedPackage : Environment where
  disk := ⟨⟨[(["a.midl"], .file "package LIB;")]⟩, []⟩
  vars := []
  engine := fun _ _ => .error .compile

/-- The file of a package that is not named `lib` can replace the root of the crate, and directories
that a project lies in are made. -/
theorem exists_written_twice : ∃ r c input languages s rendered,
    request? shoutedPackage ["create", "-i", "a.midl", "-l", "rust", "-o", "x/out"] .given
        = some (.create, r, c)
      ∧ r.Creates input languages s rendered ∧ s.package ≠ ("lib" : Bytes)
      ∧ ¬ (writtenPlaces shoutedPackage.disk (r.createSteps input languages s rendered)).Nodup
      ∧ (carryOut r .create c).disk.tree.get? ["x"] ≠ shoutedPackage.disk.tree.get? ["x"] := by
  -- what can be evaluated of the request, its plan and its effect
  have hknown : (request? shoutedPackage
      ["create", "-i", "a.midl", "-l", "rust", "-o", "x/out"] .given).map (fun (v, r, c) =>
        (v, r.input, ((r.plan v).run c).1.map fun steps =>
          decide (writtenPlaces shoutedPackage.disk steps).Nodup,
          (carryOut r v c).disk.tree.get? ["x"]))
      = some (.create, .ok "a.midl", .ok false, some .directory) := by
    decide +kernel
  have hcompiled : (compileSource "package LIB;" (rememberedPath "a.midl") false).map
      (·.outcome.map (·.package)) = .ok (.ok "LIB") := by
    decide +kernel
  obtain ⟨⟨v, r, c⟩, hrequest, heq⟩ := Option.map_eq_some_iff.mp hknown
  obtain ⟨rfl, hinput, hsteps, hmade⟩ : v = .create ∧ r.input = .ok "a.midl"
      ∧ ((r.plan v).run c).1.map (fun steps =>
        decide (writtenPlaces shoutedPackage.disk steps).Nodup) = .ok false
      ∧ (carryOut r v c).disk.tree.get? ["x"] = some .directory := by
    simpa using heq
  cases hplan : ((r.plan .create).run c).1 with
  | error f => simp [hplan, Except.map] at hsteps
  | ok steps =>
    obtain ⟨input, languages, s, rendered, h, rfl⟩ := (r.yields_planCreate c steps).mp hplan
    obtain rfl : input = "a.midl" := Except.ok.inj (h.given.symm.trans hinput)
    refine ⟨r, c, _, languages, s, rendered, hrequest, h, ?_, ?_, ?_⟩
    · obtain ⟨src, cp, hread, hc, ho⟩ := h.builds.compiles
      rw [env_of_request hrequest] at hread
      obtain rfl : src = "package LIB;" := (Except.ok.inj hread).symm
      rw [hc] at hcompiled
      have hpackage : s.package = "LIB" := by
        simpa [Except.map, ho] using hcompiled
      rw [hpackage]
      decide
    · simpa [hplan, Except.map] using hsteps
    · rw [hmade]
      decide

end Idl.Command
