import Idl.Proofs.Command.Plans

/-!
# What becomes of the files of a project

A file of a project has a path of components that lead nowhere but down, so that different paths are
different places below the directory of the project. Writing a file changes no other file, and
removing one changes nothing else.

* §1 paths of files, §2 single files, §3 many files, §4 generated files, §5 the files around them.
-/

namespace Idl.Command

open Files (Disk IsName below separator)
open Files.Disk (Grows Within FilesWithin Around Beneath)
open Bindings (OutputFile)
open Request (removalOf)

/-! ## §1 Paths of files -/

/-- The path of a file that can be written or removed below a directory. -/
def IsOutputPath (path : Bytes) : Prop := Plugin.outputPath (componentsOf path) = .ok path

/-- The components of the path of a file. -/
def partsOf (path : Bytes) : List Bytes := Bytes.split separator path

/-- A path is told by its components. -/
theorem eq_of_partsOf_eq {p q : Bytes} (h : partsOf p = partsOf q) : p = q := by
  rw [← @Bytes.join_split separator p, ← @Bytes.join_split separator q]
  exact congrArg _ h

/-- The path that the check gives back is the one it was given. -/
theorem isOutputPath_of_eq_ok {path rel : Bytes}
    (h : Plugin.outputPath (componentsOf path) = .ok rel) : rel = path := by
  obtain ⟨l, hl, -, -, rfl⟩ := Plugin.outputPath_eq_ok_iff.mp h
  cases hl
  exact Bytes.join_split path

/-- A path of a file is one whose components are all safe. -/
theorem isOutputPath_iff {path : Bytes} :
    IsOutputPath path ↔ ∀ c ∈ partsOf path, Plugin.SafeComponent c := by
  refine Plugin.outputPath_eq_ok_iff.trans ⟨?_, fun h => ?_⟩
  · rintro ⟨l, hl, -, hsafe, -⟩
    cases hl
    exact hsafe
  · exact ⟨_, rfl, Bytes.split_ne_nil path, h, (Bytes.join_split path).symm⟩

instance (path : Bytes) : Decidable (IsOutputPath path) :=
  inferInstanceAs (Decidable (Plugin.outputPath (componentsOf path) = .ok path))

/-- A safe component leads down. -/
theorem isName_of_safe {c : Bytes} (h : Plugin.SafeComponent c) : IsName c :=
  ⟨h.nonempty, h.notSelf, h.notUp, h.noSlash⟩

variable {dir path : Bytes} {d d' d'' : Disk}

/-- So all components of a path of a file do. -/
theorem IsOutputPath.isName (h : IsOutputPath path) : ∀ c ∈ partsOf path, IsName c :=
  fun c hc => isName_of_safe (isOutputPath_iff.mp h c hc)

/-- There is at least one component. -/
theorem partsOf_ne_nil (path : Bytes) : partsOf path ≠ [] := Bytes.split_ne_nil path

/-- Joined to a directory, such a path is already in plain form. -/
theorem IsOutputPath.joinTexts (h : IsOutputPath path) (hdir : dir ≠ []) :
    Files.joinTexts [dir, path] = below dir (partsOf path) := by
  rw [← Files.joinTexts_names hdir h.isName (partsOf_ne_nil path), partsOf, Bytes.join_split]

/-- The manifest is a file of the project. -/
theorem isOutputPath_manifestName : IsOutputPath manifestName := by decide

/-- The place of a file of a project. -/
def placeOf (d : Disk) (dir path : Bytes) : List Bytes := d.place dir ++ partsOf path

/-- Different paths have different places. -/
theorem placeOf_inj {p q : Bytes} : placeOf d dir p = placeOf d dir q ↔ p = q :=
  ⟨fun h => eq_of_partsOf_eq (List.append_cancel_left h), fun h => h ▸ rfl⟩

/-- The place depends on the disk by the working directory only. -/
theorem placeOf_eq (h : d'.cwd = d.cwd) (dir path : Bytes) :
    placeOf d' dir path = placeOf d dir path := by
  simp only [placeOf, Disk.place, Disk.start, h]

/-- The place of a file of a project is below that of the project. -/
theorem IsOutputPath.place (h : IsOutputPath path) (hdir : dir ≠ []) (d : Disk) :
    d.place (Files.joinTexts [dir, path]) = placeOf d dir path := by
  rw [h.joinTexts hdir, d.place_below dir h.isName (partsOf_ne_nil path), placeOf]

/-- It is really below. -/
theorem beneath_placeOf (d : Disk) (dir path : Bytes) :
    Beneath (d.place dir) (placeOf d dir path) := ⟨_, partsOf_ne_nil path, rfl⟩

/-! ## §2 Single files -/

/-- A file has been written at a place, and nothing has become of other files. -/
structure Wrote (z : List Bytes) (content : Bytes) (d d' : Disk) : Prop where
  grows : Grows d d'
  others : FilesWithin (· = z) d d'
  content : d'.tree.get? z = some (.file content)

/-- A file that was written. -/
theorem wrote_of_write {text content : Bytes} (h : d.write text content = .ok d') :
    Wrote (d.place text) content d d' where
  grows := Files.Disk.grows_of_write h
  others := (Files.Disk.within_of_write h).filesWithin
  content := Files.Disk.get?_of_write h

/-- What lies above a file below a directory. -/
theorem IsOutputPath.parentText (h : IsOutputPath path) (hdir : dir ≠ []) :
    Files.parentText (Files.joinTexts [dir, path]) = below dir (partsOf path).dropLast := by
  have hparts := List.dropLast_concat_getLast (partsOf_ne_nil path)
  rw [h.joinTexts hdir, below, below]
  conv_lhs => rw [← hparts, ← List.append_assoc]
  refine Files.parentText_text ?_
  rw [List.append_assoc, hparts]
  exact Files.arePlain_below dir h.isName

/-- The directories on the way to a file are named. -/
theorem IsOutputPath.isName_dropLast (h : IsOutputPath path) :
    ∀ c ∈ (partsOf path).dropLast, IsName c := fun c hc => h.isName c (List.dropLast_subset _ hc)

/-- What writing a file of a project keeps: what is kept by making each directory that it lies in,
and by writing it. -/
theorem keeps_output {R : Disk → Disk → Prop} {f : OutputFile} (hrefl : ∀ d, R d d)
    (htrans : ∀ d d' d'', R d d' → R d' d'' → R d d'')
    (hmake : IsOutputPath f.path →
      ∀ p ∈ Disk.ancestry (Files.parentText (Files.joinTexts [dir, f.path])),
        ∀ d d', d.makeDirectory p = .ok d' → R d d')
    (hwrite : IsOutputPath f.path →
      ∀ d d', d.write (Files.joinTexts [dir, f.path]) f.content = .ok d' → R d d') :
    (Step.output dir f).take.Keeps R := by
  rw [Step.take]
  cases hrel : Plugin.outputPath (componentsOf f.path) with
  | error e => exact .of_eq hrefl fun _ => rfl
  -- the directories of the file, the file itself, and a line in the log
  | ok rel =>
    obtain rfl := isOutputPath_of_eq_ok hrel
    exact .bind htrans (Work.keeps_makeDirectories hrefl htrans (hmake hrel))
      (.bind htrans (Work.keeps_change hrefl (hwrite hrel) _) (.of_eq hrefl fun _ => rfl))

section

variable (hdir : dir ≠ [])

include hdir

/-- Writing a file of a project. -/
theorem done_output_iff {f : OutputFile} : (Step.output dir f).Done d d' ↔ IsOutputPath f.path
    ∧ ∃ m, d.makeDirectories (below dir (partsOf f.path).dropLast) = .ok m
      ∧ m.write (below dir (partsOf f.path)) f.content = .ok d' := by
  constructor
  · -- the path that the step checks is the one it writes to
    rintro ⟨rel, m, hrel, hm, hwrite⟩
    obtain rfl := isOutputPath_of_eq_ok hrel
    have hpath : IsOutputPath f.path := hrel
    rw [hpath.parentText hdir] at hm
    rw [hpath.joinTexts hdir] at hwrite
    exact ⟨hpath, m, hm, hwrite⟩
  · rintro ⟨hpath, m, hm, hwrite⟩
    refine ⟨f.path, m, hpath, ?_, ?_⟩
    · rw [hpath.parentText hdir]
      exact hm
    · rw [hpath.joinTexts hdir]
      exact hwrite

/-- A file of a project that was written. -/
theorem wrote_of_done_output {f : OutputFile} (h : (Step.output dir f).Done d d') :
    Wrote (placeOf d dir f.path) f.content d d' := by
  obtain ⟨hpath, m, hm, hwrite⟩ := (done_output_iff hdir).mp h
  have hgrows := Files.Disk.grows_of_makeDirectories hm
  have hwrote := wrote_of_write hwrite
  rw [m.place_below dir hpath.isName (partsOf_ne_nil _), hgrows.place] at hwrote
  refine ⟨hgrows.trans hwrote.grows, ?_, hwrote.content⟩
  exact ((Files.Disk.filesWithin_of_makeDirectories hm).mono nofun).trans hwrote.others

/-- Writing a file of a project changes nothing that is not below it, even when the step fails half
way. -/
theorem keeps_around_output (f : OutputFile) :
    (Step.output dir f).take.Keeps (Around dir) := by
  refine keeps_output (Around.refl dir) (fun _ _ _ => .trans) (fun hpath p hp d d' => ?_)
    fun hpath d d' => ?_
  · rw [hpath.parentText hdir] at hp
    exact Files.Disk.around_of_makeDirectory hpath.isName_dropLast hp
  · rw [hpath.joinTexts hdir]
    exact Files.Disk.around_of_write hpath.isName (partsOf_ne_nil _)

/-- The manifest that was written. -/
theorem wrote_of_done_manifest {content : Bytes}
    (h : (Step.manifest (Manifest.path dir) content).Done d d') :
    Wrote (placeOf d dir manifestName) content d d' := by
  have hwrote := wrote_of_write h
  rwa [Manifest.path, isOutputPath_manifestName.place hdir] at hwrote

/-- Writing the manifest keeps what a single write keeps. -/
theorem keeps_manifest {R : Disk → Disk → Prop} (hrefl : ∀ d, R d d)
    (h : ∀ d d' content, d.write (below dir (partsOf manifestName)) content = .ok d' → R d d')
    (content : Bytes) : (Step.manifest (Manifest.path dir) content).take.Keeps R := by
  refine Work.keeps_change hrefl (fun d d' hd => h d d' content ?_) _
  rwa [Manifest.path, isOutputPath_manifestName.joinTexts hdir] at hd

/-- Removing a file of a project: then it is gone, and nothing else has changed. -/
structure Removed (dir path : Bytes) (d d' : Disk) : Prop where
  within : Within (fun x => IsOutputPath path ∧ x = placeOf d dir path) d d'
  shrinks : Files.Disk.Shrinks d d'
  gone : IsOutputPath path → ∀ n, d'.look (Files.joinTexts [dir, path]) ≠ .ok n

/-- A file of a project that was removed, or was not there. -/
theorem removed_of_done (h : (removalOf dir path).Done d d') : Removed dir path d d' := by
  rw [removalOf] at h
  cases hrel : Plugin.outputPath (componentsOf path) with
  | error e =>
    -- a path that is refused leaves everything as it is
    rw [hrel] at h
    obtain rfl : d' = d := h
    refine ⟨.refl _ _, .refl _, fun hpath => ?_⟩
    cases hrel.symm.trans hpath
  | ok rel =>
    obtain rfl := isOutputPath_of_eq_ok hrel
    have hpath : IsOutputPath rel := hrel
    have hplace := hpath.place hdir d
    rw [hrel] at h
    change removeIfThere (Files.joinTexts [dir, rel]) d = .ok d' at h
    rw [removeIfThere] at h
    split at h
    · next d₁ hremove =>
      cases h
      obtain ⟨-, -, -, rfl⟩ := Files.Disk.remove_eq_ok_iff.mp hremove
      rw [hplace]
      have hwithin := Files.Disk.within_erase d (placeOf d dir rel)
      refine ⟨hwithin.mono fun x hx => ⟨hpath, hx⟩, Files.Disk.shrinks_erase _ _,
        fun _ n hlook => ?_⟩
      obtain ⟨-, hget⟩ := Files.Disk.look_eq_ok_iff.mp hlook
      have hne : placeOf d dir rel ≠ [] := by simp [placeOf, partsOf_ne_nil]
      rw [hwithin.place, hplace, Files.Disk.erase, Files.Tree.get?_erase_self _ hne] at hget
      cases hget
    -- what is missing counts as removed
    · next e hremove =>
      split_ifs at h with hmissing
      cases h
      exact ⟨.refl _ _, .refl _, fun _ =>
        Files.Disk.look_of_remove_eq_missing hremove (beq_iff_eq.mp hmissing)⟩

/-- All changes are below a directory. -/
def Inside (dir : Bytes) (d d' : Disk) : Prop := Within (Beneath (d.place dir)) d d'

omit hdir in
/-- A disk that does not change. -/
theorem Inside.refl (dir : Bytes) (d : Disk) : Inside dir d d := Within.refl _ d

omit hdir in
/-- One change after another. -/
theorem Inside.trans (h : Inside dir d d') (h' : Inside dir d' d'') : Inside dir d d'' := by
  rw [Inside, Within.place h] at h'
  exact Within.trans h h'

/-- Removing a file of a project changes nothing that is not below it. -/
theorem keeps_inside_removalOf (path : Bytes) :
    (removalOf dir path).take.Keeps (Inside dir) := by
  have hstep (d d' : Disk) (h : (removalOf dir path).Done d d') : Inside dir d d' :=
    (removed_of_done hdir h).within.mono fun x hx => hx.2 ▸ beneath_placeOf d dir path
  rw [removalOf] at hstep ⊢
  cases hrel : Plugin.outputPath (componentsOf path) with
  | error e => exact .of_eq (Inside.refl dir) fun _ => rfl
  | ok rel =>
    rw [hrel] at hstep
    exact .bind (fun _ _ _ => .trans) (Work.keeps_change (Inside.refl dir) hstep _)
      (.of_eq (Inside.refl dir) fun _ => rfl)

/-! ## §3 Many files -/

/-- Files of a project have been written, one after the other. -/
structure WroteAll (dir : Bytes) (files : List OutputFile) (d d' : Disk) : Prop where
  paths : ∀ f ∈ files, IsOutputPath f.path
  grows : Grows d d'
  others : FilesWithin (fun x => ∃ f ∈ files, x = placeOf d dir f.path) d d'
  content : (files.map (·.path)).Nodup →
    ∀ f ∈ files, d'.tree.get? (placeOf d dir f.path) = some (.file f.content)

/-- Files that were all written stand there with their content, and no other file is touched. -/
theorem wroteAll_of_allDone {files : List OutputFile}
    (h : AllDone (files.map (Step.output dir)) d d') : WroteAll dir files d d' := by
  induction files generalizing d with
  | nil =>
    cases h
    exact ⟨nofun, .refl _, .refl _ _, fun _ _ => nofun⟩
  -- the first file is written on this disk, the others on the one it leaves
  | cons f r ih =>
    obtain _ | @⟨_, _, _, m, _, hf, hr⟩ := h
    have hpath := ((done_output_iff hdir).mp hf).1
    have hwrote := wrote_of_done_output hdir hf
    have hrest := ih hr
    have hplace (path : Bytes) := placeOf_eq hwrote.grows.cwd dir path
    refine ⟨List.forall_mem_cons.mpr ⟨hpath, hrest.paths⟩, hwrote.grows.trans hrest.grows, ?_, ?_⟩
    · refine (hwrote.others.mono ?_).trans (hrest.others.mono ?_)
      · exact fun x hx => ⟨f, List.mem_cons_self .., hx⟩
      · exact fun x ⟨g, hg, hx⟩ => ⟨g, List.mem_cons_of_mem _ hg, hx.trans (hplace _)⟩
    · intro hnodup
      obtain ⟨hfresh, hnodup⟩ := List.nodup_cons.mp (List.map_cons ▸ hnodup)
      refine List.forall_mem_cons.mpr ⟨?_, fun g hg => ?_⟩
      · -- what is written later has other paths
        refine (hrest.others _ ?_ _).mpr hwrote.content
        rintro ⟨g, hg, hx⟩
        rw [hplace] at hx
        exact hfresh (placeOf_inj.mp hx ▸ List.mem_map_of_mem hg)
      · exact hplace g.path ▸ hrest.content hnodup g hg

/-- Writing files of a project changes nothing that is not below it. -/
theorem keeps_around_outputs (files : List OutputFile) :
    (takeAll (files.map (Step.output dir))).Keeps (Around dir) := by
  refine keeps_takeAll (Around.refl dir) (fun _ _ _ => .trans) fun s hs => ?_
  obtain ⟨f, -, rfl⟩ := List.mem_map.mp hs
  exact keeps_around_output hdir f

/-- Where the directory stands, writing files changes nothing outside of it. -/
theorem inside_of_allDone_outputs {files : List OutputFile} (hstands : d.Stands dir)
    (h : AllDone (files.map (Step.output dir)) d d') : Inside dir d d' :=
  (h.of_keeps (keeps_around_outputs hdir files) hstands).2

/-- Files of a project have been removed, one after the other. -/
structure RemovedAll (dir : Bytes) (paths : List Bytes) (d d' : Disk) : Prop where
  within : Within (fun x => ∃ p ∈ paths, IsOutputPath p ∧ x = placeOf d dir p) d d'
  shrinks : Files.Disk.Shrinks d d'
  gone : ∀ p ∈ paths, IsOutputPath p → ∀ n, d'.look (Files.joinTexts [dir, p]) ≠ .ok n

/-- Files that were all removed are gone. -/
theorem removedAll_of_allDone {paths : List Bytes}
    (h : AllDone (paths.map (removalOf dir)) d d') : RemovedAll dir paths d d' := by
  induction paths generalizing d with
  | nil =>
    cases h
    exact ⟨.refl _ _, .refl _, nofun⟩
  | cons p r ih =>
    obtain _ | ⟨hp, hr⟩ := h
    have hremoved := removed_of_done hdir hp
    have hrest := ih hr
    refine ⟨.trans (hremoved.within.mono fun x hx => ⟨p, List.mem_cons_self .., hx⟩)
      (hrest.within.mono ?_), hremoved.shrinks.trans hrest.shrinks, ?_⟩
    · rintro x ⟨q, hq, hpath, hx⟩
      exact ⟨q, List.mem_cons_of_mem _ hq, hpath, hx.trans (placeOf_eq hremoved.within.cwd dir q)⟩
    · -- what is removed first does not come back
      refine List.forall_mem_cons.mpr ⟨fun hpath n hlook => ?_, hrest.gone⟩
      exact hremoved.gone hpath n (hrest.shrinks.look hlook)

omit hdir in
/-- Only what is below the project has changed. -/
theorem RemovedAll.inside {paths : List Bytes} (h : RemovedAll dir paths d d') :
    Inside dir d d' := by
  refine h.within.mono ?_
  rintro x ⟨p, -, -, rfl⟩
  exact beneath_placeOf d dir p

/-- The same when a removal fails half way. -/
theorem keeps_inside_removals (paths : List Bytes) :
    (takeAll (paths.map (removalOf dir))).Keeps (Inside dir) := by
  refine keeps_takeAll (Inside.refl dir) (fun _ _ _ => .trans) fun s hs => ?_
  obtain ⟨p, -, rfl⟩ := List.mem_map.mp hs
  exact keeps_inside_removalOf hdir p

end

/-! ## §4 Generated files -/

/-- A project has a path: without one it is the working directory. -/
theorem Request.project_ne_nil (r : Request) : r.project ≠ [] := by
  rw [Request.project]
  split
  · decide
  · next h => simpa using h

/-- Each language is taken once. -/
theorem nodup_tidyLanguages (names : List Bytes) : (tidyLanguages names).Nodup := by
  rw [tidyLanguages]
  -- a name is added only when it is not there
  have hfold (l acc : List Bytes) (h : acc.Nodup) :
      (l.foldl (fun l n => if l.contains n then l else l ++ [n]) acc).Nodup := by
    induction l generalizing acc with
    | nil => exact h
    | cons n r ih =>
      rw [List.foldl_cons]
      split_ifs with hn
      · exact ih acc h
      · refine ih _ (List.nodup_append.mpr ⟨h, List.nodup_singleton n, ?_⟩)
        rintro a ha b hb rfl
        rw [List.mem_singleton.mp hb] at ha
        exact hn (List.contains_iff_mem.mpr ha)
  exact hfold _ [] .nil

/-- So is each language chosen. -/
theorem nodup_of_chooseLanguages {s : Settings} {names languages : List Bytes}
    (h : chooseLanguages s names = .ok languages) : languages.Nodup := by
  rw [chooseLanguages] at h
  split at h
  · cases h
  · cases h
    exact nodup_tidyLanguages _

/-- The directory of the sources of a target, by its components. -/
def sourceParts : Bindings.Target → List Bytes
  | .go => ["go"]
  | .rust => ["rust", "src"]

/-- The path of the generated file of a target. -/
def sourcePath (s : Schema) (t : Bindings.Target) : Bytes :=
  Files.joinTexts [sourceDirectory t.name, t.fileName s]

section

variable {s : Schema} (hs : ∀ b ∈ s.package, Bytes.isWord b = true ∨ b = 0x2E)

include hs

/-- The name of a generated file is a safe component. -/
theorem safe_fileName (t : Bindings.Target) : Plugin.SafeComponent (t.fileName s) := by
  have hpath : IsOutputPath (t.fileName s) := (Plugin.nameable_fileName hs t).outputPath_split
  have hslash : separator ∉ t.fileName s := fun h =>
    (t.octets_fileName hs _ h).elim (by decide) (by decide)
  have hparts : partsOf (t.fileName s) = [t.fileName s] := by
    have hsplit := @Bytes.split_join separator (t.fileName s) []
      (by simpa using hslash)
    rwa [Bytes.join_singleton] at hsplit
  exact isOutputPath_iff.mp hpath _ (by simp [hparts])

/-- A generated file stands in the source directory of its language. -/
theorem partsOf_sourcePath (t : Bindings.Target) :
    partsOf (sourcePath s t) = sourceParts t ++ [t.fileName s] := by
  have hname := isName_of_safe (safe_fileName hs t)
  -- the name of the file stands behind the directory of its language
  have hjoin := @Files.joinTexts_names [t.fileName s] (sourceDirectory t.name)
    (by cases t <;> decide) (by simpa using hname) (by simp)
  rw [Bytes.join_singleton] at hjoin
  have hplain : Files.plainParts (sourceDirectory t.name) = sourceParts t := by cases t <;> decide
  have hrooted : Files.isRooted (sourceDirectory t.name) = false := by cases t <;> decide
  have hparts := @Files.arePlain_below [t.fileName s] (sourceDirectory t.name)
    (by simpa using hname)
  rw [sourcePath, hjoin, partsOf, below, Files.split_text hparts (by simp), hplain, hrooted]
  rfl

/-- The path of a generated file is that of its directory, a separator and its name. -/
theorem sourcePath_eq (t : Bindings.Target) :
    sourcePath s t = sourceDirectory t.name ++ separator :: t.fileName s := by
  have hparts := partsOf_sourcePath hs t
  rw [partsOf] at hparts
  rw [← @Bytes.join_split separator (sourcePath s t), hparts]
  cases t <;> simp [sourceParts, Bytes.join] <;> rfl

/-- It is a file of the project. -/
theorem isOutputPath_sourcePath (t : Bindings.Target) : IsOutputPath (sourcePath s t) := by
  refine isOutputPath_iff.mpr ?_
  rw [partsOf_sourcePath hs]
  refine List.forall_mem_append.mpr ⟨?_, by simpa using safe_fileName hs t⟩
  intro c hc
  have hsafe : Plugin.componentFault? c = none := by
    revert c
    cases t <;> decide
  obtain ⟨h₁, h₂, h₃, h₄, h₅⟩ := Plugin.componentFault?_eq_none_iff.mp hsafe
  exact ⟨h₁, h₂, h₃, h₄, h₅⟩

/-- Each language has a file of its own. -/
theorem sourcePath_injective : Function.Injective (sourcePath s) := by
  intro t u h
  have hparts := congrArg partsOf h
  rw [partsOf_sourcePath hs, partsOf_sourcePath hs] at hparts
  have hhead := congrArg List.head? hparts
  revert hhead
  cases t <;> cases u <;> simp [sourceParts] <;> decide

/-- And none of them is the manifest. -/
theorem sourcePath_ne_manifestName (t : Bindings.Target) : sourcePath s t ≠ manifestName := by
  intro h
  have hone : (partsOf manifestName).length = 1 := by decide
  rw [← h, partsOf_sourcePath hs] at hone
  cases t <;> simp [sourceParts] at hone

end

/-- Each language that is rendered is that of a target, and has its one file. -/
theorem exists_targets_of_renders {s : Schema} {o : Bindings.Options} {languages : List Bytes}
    {rendered : List (Bytes × List OutputFile)}
    (h : Renders (Bindings.generate s · o) languages rendered) :
    ∃ targets : List Bindings.Target, languages = targets.map Bindings.Target.name
      ∧ (placed rendered).map (·.path) = targets.map (sourcePath s) := by
  induction h with
  | nil => exact ⟨[], rfl, rfl⟩
  | @cons n e l m hne hr ih =>
    obtain ⟨targets, hnames, hpaths⟩ := ih
    obtain ⟨k, files⟩ := e
    obtain ⟨rfl, hfiles⟩ := hne
    -- each language gives one file
    obtain ⟨t, text, rfl, rfl⟩ := Bindings.target_of_generate hfiles
    refine ⟨t :: targets, by rw [hnames]; rfl, ?_⟩
    simpa [placed, sourcePath] using hpaths

/-- The languages of a project are those of targets, each once. -/
theorem Request.Builds.exists_targets {r : Request} {input : Bytes} {names languages : List Bytes}
    {s : Schema} {rendered : List (Bytes × List OutputFile)}
    (h : r.Builds input names languages s rendered) : ∃ targets : List Bindings.Target,
      targets.Nodup ∧ languages = targets.map Bindings.Target.name
        ∧ (placed rendered).map (·.path) = targets.map (sourcePath s) := by
  obtain ⟨o, -, hrenders⟩ := h.renders
  obtain ⟨targets, hnames, hpaths⟩ := exists_targets_of_renders hrenders
  exact ⟨targets, .of_map _ (hnames ▸ nodup_of_chooseLanguages h.chosen), hnames, hpaths⟩

section

variable {r : Request} {input : Bytes} {names languages : List Bytes} {s : Schema}
  {rendered : List (Bytes × List OutputFile)} (h : r.Builds input names languages s rendered)

include h

/-- A package is written with word characters and dots. -/
theorem Request.Builds.octets_package : ∀ b ∈ s.package, Bytes.isWord b = true ∨ b = 0x2E := by
  obtain ⟨src, c, -, hc, ho⟩ := h.compiles
  exact octets_package_of_compileSource hc ho

/-- The files placed have different paths. -/
theorem Request.Builds.nodup_paths : ((placed rendered).map (·.path)).Nodup := by
  obtain ⟨targets, hnodup, -, hpaths⟩ := h.exists_targets
  rw [hpaths]
  exact hnodup.map (sourcePath_injective h.octets_package)

/-- Each of them is the file of a language asked for. -/
theorem Request.Builds.exists_of_mem_paths {p : Bytes} (hp : p ∈ (placed rendered).map (·.path)) :
    ∃ t : Bindings.Target, t.name ∈ languages ∧ p = sourcePath s t := by
  obtain ⟨targets, -, hnames, hpaths⟩ := h.exists_targets
  rw [hpaths] at hp
  obtain ⟨t, ht, rfl⟩ := List.mem_map.mp hp
  exact ⟨t, hnames ▸ List.mem_map_of_mem ht, rfl⟩

/-- What is rendered for a language is the file of its target. -/
theorem Request.Builds.exists_target_of_mem {language : Bytes} {files : List OutputFile}
    (hmem : (language, files) ∈ rendered) {f : OutputFile} (hf : f ∈ files) :
    ∃ t : Bindings.Target, t.name = language ∧ f.path = t.fileName s := by
  obtain ⟨o, -, hrenders⟩ := h.renders
  obtain ⟨t, text, hname, rfl⟩ := Bindings.target_of_generate (hrenders.of_mem hmem)
  rw [List.mem_singleton.mp hf]
  exact ⟨t, hname, rfl⟩

/-- The manifest is not among the generated files. -/
theorem Request.Builds.manifestName_not_mem :
    manifestName ∉ (placed rendered).map (·.path) := by
  intro hmem
  obtain ⟨t, -, ht⟩ := h.exists_of_mem_paths hmem
  exact sourcePath_ne_manifestName h.octets_package t ht.symm

end

/-! ## §5 The files around generated files -/

/-- The path of the description of a crate. -/
def crateFile : Bytes := "rust/Cargo.toml"

/-- The path of the root of a crate. -/
def crateRoot : Bytes := "rust/src/lib.rs"

namespace Request

variable {r : Request} {package : Bytes} {l : List (Bytes × List OutputFile)}

/-- Without Rust nothing else is set up. -/
theorem scaffold_eq_nil (h : ("rust" : Bytes) ∉ l.map (·.1)) : r.scaffold package l = [] := by
  rw [scaffold, List.flatMap_eq_nil_iff]
  rintro ⟨n, files⟩ hmem
  have hne : n ≠ ("rust" : Bytes) := fun heq => h (heq ▸ List.mem_map_of_mem hmem)
  simp only [beq_iff_eq, hne, if_false]

/-- A project has at most one crate. -/
theorem paths_scaffold_sublist (h : (l.map (·.1)).Nodup) :
    ((r.scaffold package l).map (·.path)).Sublist [crateFile, crateRoot] := by
  induction l with
  | nil => exact List.nil_sublist _
  | cons e rest ih =>
    obtain ⟨n, files⟩ := e
    obtain ⟨hn, hrest⟩ := List.nodup_cons.mp (List.map_cons ▸ h)
    have hsplit : r.scaffold package ((n, files) :: rest)
        = r.scaffold package [(n, files)] ++ r.scaffold package rest := by simp [scaffold]
    rw [hsplit]
    by_cases heq : n = ("rust" : Bytes)
    · -- for Rust, which no later language is
      subst heq
      rw [scaffold_eq_nil hn, List.append_nil]
      exact List.Sublist.refl _
    · rw [scaffold_eq_nil (by simpa using Ne.symm heq), List.nil_append]
      exact ih hrest

end Request

section

variable {r : Request} {input : Bytes} {names languages : List Bytes} {s : Schema}
  {rendered : List (Bytes × List OutputFile)} (h : r.Builds input names languages s rendered)

include h

/-- What was rendered is in the order of the languages. -/
theorem Request.Builds.names_rendered : rendered.map (·.1) = languages := by
  obtain ⟨o, -, hrenders⟩ := h.renders
  exact hrenders.names

/-- The files placed are files of the project. -/
theorem Request.Builds.isOutputPath {f : OutputFile} (hf : f ∈ placed rendered) :
    IsOutputPath f.path := by
  obtain ⟨t, -, ht⟩ := h.exists_of_mem_paths (List.mem_map_of_mem hf)
  exact ht ▸ isOutputPath_sourcePath h.octets_package t

/-- Besides them a crate has two files at most. -/
theorem Request.Builds.crate_sublist (package : Bytes) :
    ((r.scaffold package rendered).map (·.path)).Sublist [crateFile, crateRoot] :=
  paths_scaffold_sublist (h.names_rendered ▸ nodup_of_chooseLanguages h.chosen)

/-- Each of these is one of the two. -/
theorem Request.Builds.path_scaffold {package : Bytes} {f : OutputFile}
    (hf : f ∈ r.scaffold package rendered) : f.path = crateFile ∨ f.path = crateRoot := by
  simpa using (h.crate_sublist package).subset (List.mem_map_of_mem hf)

end

/-- The steps for a new project, one after the other. -/
theorem Request.exists_of_allDone_createSteps {r : Request} {input : Bytes} {languages : List Bytes}
    {s : Schema} {rendered : List (Bytes × List OutputFile)}
    (h : AllDone (r.createSteps input languages s rendered) d d') :
    ∃ m₁ m₂ m₃, d.makeDirectories r.project = .ok m₁
      ∧ AllDone ((r.scaffold (r.packageOf s) rendered).map (Step.output r.project)) m₁ m₂
      ∧ AllDone ((placed rendered).map (Step.output r.project)) m₂ m₃
      ∧ m₃.write (Manifest.path r.project)
        (r.newManifest input languages s (placed rendered)).text = .ok d' := by
  rw [createSteps, List.map_append, List.cons_append, List.append_assoc] at h
  -- the directory, the crate, the files, and the manifest at the end
  obtain _ | ⟨hmade, h⟩ := h
  obtain ⟨m₂, hcrate, h⟩ := allDone_append_iff.mp h
  obtain ⟨m₃, hplaced, h⟩ := allDone_append_iff.mp h
  obtain _ | ⟨hmanifest, hnil⟩ := h
  cases hnil
  exact ⟨_, m₂, m₃, hmade, hcrate, hplaced, hmanifest⟩

/-- The generated files of a new project are there in the end, whatever its crate was given
before. -/
theorem Request.Creates.get?_of_allDone {r : Request} {input : Bytes} {languages : List Bytes}
    {s : Schema} {rendered : List (Bytes × List OutputFile)}
    (h : r.Creates input languages s rendered)
    (hdone : AllDone (r.createSteps input languages s rendered) d d') :
    ∀ f ∈ placed rendered,
      d'.tree.get? (placeOf d r.project f.path) = some (.file f.content) := by
  intro f hf
  obtain ⟨m₁, m₂, m₃, hmade, hcrate, hplaced, hmanifest⟩ := exists_of_allDone_createSteps hdone
  -- The crate is written first, then the files placed, then the manifest over neither of them.
  have hcrate := wroteAll_of_allDone r.project_ne_nil hcrate
  have hplaced := wroteAll_of_allDone r.project_ne_nil hplaced
  have hmanifest := wrote_of_done_manifest r.project_ne_nil hmanifest
  have hcwd₂ := hcrate.grows.cwd.trans (Files.Disk.grows_of_makeDirectories hmade).cwd
  have hcwd₃ := hplaced.grows.cwd.trans hcwd₂
  have hget := hplaced.content h.builds.nodup_paths f hf
  rw [placeOf_eq hcwd₂] at hget
  refine (hmanifest.others _ (fun heq => ?_) _).mpr hget
  rw [placeOf_eq hcwd₃] at heq
  exact h.builds.manifestName_not_mem (placeOf_inj.mp heq ▸ List.mem_map_of_mem hf)

end Idl.Command
