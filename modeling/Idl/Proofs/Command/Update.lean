import Idl.Command.Manifest
import Idl.Proofs.Command.Effects
import Idl.Proofs.Toml.Settings

/-!
# What an update leaves behind

An update writes the generated files, removes those that it does not generate any more, and writes
the manifest. The three kinds of steps have different paths, and so they meet at no place. A manifest
that is written is read back as it was, if all of its texts are well formed. (TOML has no other
texts.)

* §1 manifests, §2 the end of an update, §3 updates.
-/

/-! ## §1 Manifests -/

namespace Idl.Command.Manifest

open Toml (settingLines IsBareKey Simple Valued)

/-- A manifest whose texts can be written as TOML. -/
structure IsUtf8 (m : Manifest) : Prop where
  package : Utf8.isValid m.package = true
  interface : Utf8.isValid m.interface = true
  languages : ∀ n ∈ m.languages, Utf8.isValid n = true
  edition : Utf8.isValid m.edition = true
  files : ∀ p ∈ m.files, Utf8.isValid p = true

/-- The lines of a manifest: keys, and what they are set to. -/
def settings (m : Manifest) : List (Bytes × Bytes) :=
  let last : List (Bytes × Bytes) := [("files", Toml.writeTexts m.files)]
  ("package", Toml.writeText m.package) :: ("interface", Toml.writeText m.interface)
    :: ("languages", Toml.writeTexts m.languages)
    :: if m.edition.isEmpty then last else ("edition", Toml.writeText m.edition) :: last

/-- What is read of a manifest. -/
def members (m : Manifest) : Toml.Members :=
  let last : Toml.Members := [("files", .arr (m.files.map .str))]
  ("package", .str m.package) :: ("interface", .str m.interface)
    :: ("languages", .arr (m.languages.map .str))
    :: if m.edition.isEmpty then last else ("edition", .str m.edition) :: last

/-- The comment at the start of a manifest. -/
def comment : Bytes := " Written by `midl create`; updated by `midl update`."

theorem text_eq (m : Manifest) : m.text = 0x23 :: (comment ++ 0x0A :: settingLines m.settings) := by
  have hcomment : ("# Written by `midl create`; updated by `midl update`.\n" : Bytes)
      = 0x23 :: (comment ++ [0x0A]) := by decide
  by_cases hedition : m.edition.isEmpty = true
  all_goals
    rw [text, hcomment, settings]
    simp only [hedition]
    simp [settingLines, Toml.settingLine, line]

/-- Every setting of the manifest has a key that needs no quotation and a value as it is written. -/
theorem valued (m : Manifest) : Valued m.settings m.members := by
  have hbare (k : Bytes) (h : !k.isEmpty && k.all Toml.isBareKeyOctet) : IsBareKey k := by
    simp only [Bool.and_eq_true, Bool.not_eq_true', List.isEmpty_eq_false_iff,
      List.all_eq_true] at h
    exact ⟨h.1, h.2⟩
  have hlast : Valued [("files", Toml.writeTexts m.files)] [("files", .arr (m.files.map .str))] :=
    .cons ⟨hbare "files" (by decide), rfl, .texts _⟩ .nil
  refine .cons ⟨hbare "package" (by decide), rfl, .text _⟩
    (.cons ⟨hbare "interface" (by decide), rfl, .text _⟩
      (.cons ⟨hbare "languages" (by decide), rfl, .texts _⟩ ?_))
  -- the edition is left out when there is none
  split
  · exact hlast
  · exact .cons ⟨hbare "edition" (by decide), rfl, .text _⟩ hlast

/-- The text of a manifest is read as its members. -/
theorem read?_text {m : Manifest} (h : m.IsUtf8) : Toml.read? m.text = some m.members := by
  -- every value is written in valid text
  have hvalid : ∀ e ∈ m.settings, Utf8.isValid e.2 = true := by
    have hlast := Toml.isValid_writeTexts h.files
    simp only [settings, List.forall_mem_cons]
    refine ⟨Toml.isValid_writeText h.package, Toml.isValid_writeText h.interface,
      Toml.isValid_writeTexts h.languages, ?_⟩
    split
    · simpa using hlast
    · simpa using ⟨Toml.isValid_writeText h.edition, hlast⟩
  rw [text_eq]
  refine Toml.read?_settingLines ⟨by decide +kernel, by decide⟩ (by decide) (by simp [settings])
    m.valued hvalid ?_
  rw [members]
  split <;> simp <;> decide

theorem asTexts?_str (l : List Bytes) : Toml.asTexts? (.arr (l.map .str)) = some l := by
  rw [Toml.asTexts?]
  induction l with
  | nil => rfl
  | cons s r ih =>
    rw [List.map_cons, List.mapM_cons, ih]
    rfl

/-- A manifest that is written is read back. -/
theorem ofText?_text {m : Manifest} (h : m.IsUtf8) : ofText? m.text = some m := by
  have hpackage : text? m.members "package" = some m.package := rfl
  have hinterface : text? m.members "interface" = some m.interface := rfl
  have hlanguages : texts? m.members "languages" = some m.languages := asTexts?_str m.languages
  -- an edition that is missing is read as the empty one
  have hedition : text? m.members "edition" = some m.edition := by
    rw [members]
    split
    · next hnil =>
      rw [List.isEmpty_iff.mp hnil]
      rfl
    · rfl
  have hfiles : texts? m.members "files" = some m.files := by
    rw [members]
    split <;> exact asTexts?_str m.files
  rw [ofText?, read?_text h]
  simp only [Option.bind_some, Option.bind_eq_bind, hpackage, hinterface, hlanguages, hedition,
    hfiles]
  rfl

end Idl.Command.Manifest

namespace Idl.Command

open Files (Disk)
open Files.Disk (FilesWithin)
open Bindings (OutputFile)
open Request (removalOf)

variable {dir : Bytes} {d d' d'' : Disk}

/-! ## §2 The end of an update -/

/-- The places at which an update may change a file: those of the manifest, of the generated files,
and of the files that the manifest named before. -/
inductive Touched (d : Disk) (dir : Bytes) (old : Option Manifest) (generated : List OutputFile) :
    List Bytes → Prop
  | manifest : Touched d dir old generated (placeOf d dir manifestName)
  | generated {f : OutputFile} (mem : f ∈ generated) :
    Touched d dir old generated (placeOf d dir f.path)
  | stale {o : Manifest} {p : Bytes} (had : old = some o) (mem : p ∈ o.files)
    (valid : IsOutputPath p) : Touched d dir old generated (placeOf d dir p)

/-- What an update leaves behind: the generated files and the manifest that lists them, and none of
the other files that the manifest named before. Nothing outside of the directory has changed. -/
structure Updated (dir : Bytes) (old : Option Manifest) (m : Manifest)
    (generated : List OutputFile) (d d' : Disk) : Prop where
  written : ∀ f ∈ generated, d'.tree.get? (placeOf d dir f.path) = some (.file f.content)
  gone : ∀ o, old = some o → ∀ p ∈ o.files, IsOutputPath p → p ∉ generated.map (·.path) →
    p ≠ manifestName → ∀ n, d'.look (Files.joinTexts [dir, p]) ≠ .ok n
  listed : m.files = generated.map (·.path)
  manifest : d'.tree.get? (placeOf d dir manifestName) = some (.file m.text)
  recorded : m.IsUtf8 → Manifest.load? d' dir = .ok (some m)
  others : FilesWithin (Touched d dir old generated) d d'
  inside : Inside dir d d'

section

variable {old : Option Manifest} {generated : List OutputFile} {content : Bytes} {m₁ m₂ : Disk}

/-- Writing the manifest does not bring anything back. -/
theorem look_of_look_manifest (hdir : dir ≠ [])
    (h : d.write (Manifest.path dir) content = .ok d') {p : Bytes} (hpath : IsOutputPath p)
    (hne : p ≠ manifestName) {n : Files.Node}
    (hlook : d'.look (Files.joinTexts [dir, p]) = .ok n) :
    d.look (Files.joinTexts [dir, p]) = .ok n := by
  -- writing the manifest changes its own place only
  have hwithin := Files.Disk.within_of_write h
  have hget := Files.Disk.get?_of_write h
  rw [Manifest.path, isOutputPath_manifestName.place hdir] at hwithin hget
  refine Files.Disk.look_of_look hwithin.cwd (fun x hx => ?_) (fun hn => ?_) hlook
  · have hx' : x ≠ placeOf d dir manifestName := by
      rintro rfl
      simp [hget] at hx
    exact (hwithin.get? x hx').symm.trans hx
  · rw [hpath.place hdir] at hn ⊢
    exact (hwithin.get? _ fun heq => hne (placeOf_inj.mp heq)).symm.trans hn

/-- The three kinds of steps of an update, one after the other. -/
theorem updated_of_steps {m : Manifest} (hdir : dir ≠ []) (hstands : d.Stands dir)
    (hnodup : (generated.map (·.path)).Nodup) (hfresh : manifestName ∉ generated.map (·.path))
    (hlisted : m.files = generated.map (·.path))
    (houts : AllDone (generated.map (Step.output dir)) d m₁)
    (hremovals : AllDone ((Request.staleOf old generated).map (removalOf dir)) m₁ m₂)
    (hmanifest : m₂.write (Manifest.path dir) m.text = .ok d') :
    Updated dir old m generated d d' := by
  have hwrote := wroteAll_of_allDone hdir houts
  have hremoved := removedAll_of_allDone hdir hremovals
  have hwithin := Files.Disk.within_of_write hmanifest
  rw [Manifest.path, isOutputPath_manifestName.place hdir] at hwithin
  -- the outputs and the removals leave the directory itself where it is
  have hplace₁ (p : Bytes) := placeOf_eq hwrote.grows.cwd dir p
  have hplace₂ (p : Bytes) := (placeOf_eq hremoved.within.cwd dir p).trans (hplace₁ p)
  refine ⟨fun f hf => ?_, fun o ho p hp hpath hnew hne n hlook => ?_, hlisted, ?_, fun hvalid => ?_,
    ?_, ?_⟩
  · -- neither a removal nor the manifest has the path of a generated file
    have hmem : f.path ∈ generated.map (·.path) := List.mem_map_of_mem hf
    rw [← hwrote.content hnodup f hf]
    refine (hwithin.get? _ fun heq => ?_).trans (hremoved.within.get? _ ?_)
    · rw [hplace₂] at heq
      exact hfresh (placeOf_inj.mp heq ▸ hmem)
    · rintro ⟨p, hp, -, heq⟩
      rw [hplace₁] at heq
      obtain ⟨-, -, -, hnew⟩ := Request.mem_staleOf_iff.mp hp
      exact hnew (placeOf_inj.mp heq ▸ hmem)
  · have hstale : p ∈ Request.staleOf old generated := Request.mem_staleOf_iff.mpr ⟨o, ho, hp, hnew⟩
    exact hremoved.gone p hstale hpath n (look_of_look_manifest hdir hmanifest hpath hne hlook)
  · have hget := Files.Disk.get?_of_write hmanifest
    rwa [Manifest.path, isOutputPath_manifestName.place hdir, hplace₂] at hget
  · rw [Manifest.load?, Files.Disk.read_of_write hmanifest]
    simp only [Manifest.ofText?_text hvalid]
  · refine (hwrote.others.mono ?_).trans ((hremoved.within.filesWithin.mono ?_).trans
      (hwithin.filesWithin.mono ?_))
    · rintro x ⟨f, hf, rfl⟩
      exact .generated hf
    · rintro x ⟨p, hp, hpath, rfl⟩
      obtain ⟨o, ho, hmem, -⟩ := Request.mem_staleOf_iff.mp hp
      rw [hplace₁]
      exact .stale ho hmem hpath
    · rintro x rfl
      rw [hplace₂]
      exact .manifest
  · refine (inside_of_allDone_outputs hdir hstands houts).trans (hremoved.inside.trans ?_)
    refine hwithin.mono ?_
    rintro x rfl
    exact beneath_placeOf m₂ dir manifestName

end

/-! ## §3 Updates -/

/-- A file of a project. What is rendered for a language has its place below the directory that is
named like the language; the sources for Rust are in `rust/src`. -/
inductive InProject (rendered : List (Bytes × List OutputFile)) : OutputFile → Prop
  | rust {files : List OutputFile} {f : OutputFile}
    (mem : (("rust", files) : Bytes × List OutputFile) ∈ rendered) (file : f ∈ files) :
    InProject rendered ⟨"rust/src/" ++ f.path, f.content⟩
  | other {language : Bytes} {files : List OutputFile} {f : OutputFile}
    (mem : (language, files) ∈ rendered) (file : f ∈ files) (ne : language ≠ "rust") :
    InProject rendered ⟨language ++ ("/" ++ f.path), f.content⟩

/-- The files that an update writes are those of the project. -/
theorem Request.Builds.mem_placed_iff {r : Request} {input : Bytes} {names languages : List Bytes}
    {s : Schema} {rendered : List (Bytes × List OutputFile)}
    (h : r.Builds input names languages s rendered) {f : OutputFile} :
    f ∈ placed rendered ↔ InProject rendered f := by
  -- what is rendered is the one file of a target, which has a short name
  have hpath {language : Bytes} {files : List OutputFile} (hmem : (language, files) ∈ rendered)
      {g : OutputFile} (hg : g ∈ files) :
      Files.joinTexts [sourceDirectory language, g.path]
        = sourceDirectory language ++ Files.separator :: g.path := by
    obtain ⟨t, rfl, hname⟩ := h.exists_target_of_mem hmem hg
    rw [hname]
    exact sourcePath_eq h.octets_package t
  simp only [placed, List.mem_flatMap, List.mem_map, Prod.exists]
  constructor
  · rintro ⟨language, files, hmem, g, hg, rfl⟩
    rw [hpath hmem hg]
    by_cases hrust : language = "rust"
    · subst hrust
      exact .rust hmem hg
    · rw [sourceDirectory, if_neg (by simpa using hrust)]
      exact .other hmem hg hrust
  · intro hf
    cases hf with
    | @rust files g hmem hg =>
      refine ⟨"rust", files, hmem, g, hg, ?_⟩
      rw [hpath hmem hg]
      rfl
    | @other language files g hmem hg hne =>
      refine ⟨language, files, hmem, g, hg, ?_⟩
      rw [hpath hmem hg, sourceDirectory, if_neg (by simpa using hne)]
      rfl

/-- Carrying out the steps of an update leaves the project as it is described. -/
theorem updated_of_allDone {r : Request} {old : Option Manifest} {input : Bytes}
    {languages : List Bytes} {s : Schema} {rendered : List (Bytes × List OutputFile)}
    (h : r.Updates old input languages s rendered)
    (hdone : AllDone (r.updateSteps old input languages s (placed rendered)) r.env.disk d') :
    Updated r.project old (r.nextManifest old input languages s (placed rendered))
      (placed rendered) r.env.disk d' := by
  -- the files, the removals and the manifest, in this order
  obtain ⟨m₂, hfirst, hmanifest⟩ := allDone_append_iff.mp hdone
  obtain ⟨m₁, houts, hremovals⟩ := allDone_append_iff.mp hfirst
  obtain _ | ⟨hwrite, hrest⟩ := hmanifest
  cases hrest
  exact updated_of_steps r.project_ne_nil (Files.Disk.stands_of_isDirectory h.directory)
    h.builds.nodup_paths h.builds.manifestName_not_mem rfl houts hremovals hwrite

/-- An update that does not fail leaves exactly the right files, whatever the manifest named before
and in whatever order the renderings end: every file that is rendered stands at its place in the
project, and there are no others. -/
theorem updated_of_run {env : Environment} {words : List Bytes} {schedule : Schedule} {r : Request}
    {c : Console} (h : request? env words schedule = some (.update, r, c))
    (hcode : (run env words schedule).code = 0) : ∃ old input languages s rendered,
      r.Updates old input languages s rendered
        ∧ (∀ f, f ∈ placed rendered ↔ InProject rendered f)
        ∧ Updated r.project old (r.nextManifest old input languages s (placed rendered))
          (placed rendered) env.disk (run env words schedule).disk := by
  rw [run_of_request h] at hcode ⊢
  -- the code is zero, so all steps of the plan were done
  obtain ⟨steps, hplan, hdone⟩ := exists_of_carryOut hcode
  obtain ⟨old, input, languages, s, rendered, hupdates, rfl⟩ :=
    (r.yields_planUpdate c steps).mp hplan
  exact ⟨old, input, languages, s, rendered, hupdates, fun _ => hupdates.builds.mem_placed_iff,
    env_of_request h ▸ updated_of_allDone hupdates hdone⟩

/-- A project whose manifest names a file that is not generated any more, and one outside of it. -/
def staleProject : Environment where
  disk := ⟨⟨[(["a.midl"], .file "package p;"), (["out"], .directory),
    (["out", "old.go"], .file "package old\n"),
    (["out", manifestName], .file ("package = \"p\"\ninterface = \"../a.midl\"\n"
      ++ "languages = [\"rust\"]\nfiles = [\"old.go\", \"../a.midl\"]\n"))]⟩, []⟩
  vars := []
  engine := fun _ _ => .error .compile

theorem updated_of_run_stale : ∃ r c,
    request? staleProject ["update", "-o", "out"] .given = some (.update, r, c)
      ∧ (run staleProject ["update", "-o", "out"] .given).code = 0
      ∧ ∃ old input languages s rendered, r.Updates old input languages s rendered
        ∧ (∀ f, f ∈ placed rendered ↔ InProject rendered f)
        ∧ Updated r.project old (r.nextManifest old input languages s (placed rendered))
          (placed rendered) staleProject.disk
          (run staleProject ["update", "-o", "out"] .given).disk := by
  have hverb : (request? staleProject ["update", "-o", "out"] .given).map (·.1) = some .update := by
    decide +kernel
  have hcode : (run staleProject ["update", "-o", "out"] .given).code = 0 := by decide +kernel
  obtain ⟨⟨v, r, c⟩, hrequest, rfl⟩ := Option.map_eq_some_iff.mp hverb
  exact ⟨r, c, hrequest, hcode, updated_of_run hrequest hcode⟩

end Idl.Command
