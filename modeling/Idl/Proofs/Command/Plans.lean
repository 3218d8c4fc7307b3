import Idl.Proofs.Bindings.Files
import Idl.Proofs.Command.Steps

/-!
# What must hold for a plan

A verb makes its plan exactly if what it is asked for can be done: there is a schema without errors,
all languages are rendered, there is a place for the output. The order in which renderings end does
not matter, nor does what has been printed.

* §1 tasks, §2 schemas and renderings, §3 projects, §4 exports and plugins.
-/

namespace Idl.Command

open Files (Disk)
open Bindings (OutputFile)

/-! ## §1 Tasks -/

namespace Task

variable {α β : Type} {x : Task α} {f : α → Task β} {P : α → Prop} {Q : α → β → Prop}

/-- A task has certain results, whatever has been printed, and fails if it has none. -/
def Yields (x : Task α) (P : α → Prop) : Prop := ∀ c a, (x.run c).1 = .ok a ↔ P a

theorem run_bind (x : Task α) (f : α → Task β) (c : Console) : (x >>= f).run c =
    match x.run c with
    | (.ok a, c') => (f a).run c'
    | (.error e, c') => (.error e, c') := by
  change (match x.run c with | (r, c') => ExceptT.bindCont f r c') = _
  rcases x.run c with ⟨_ | _, _⟩ <;> rfl

theorem Yields.congr {P' : α → Prop} (h : x.Yields P) (hP : ∀ a, P a ↔ P' a) : x.Yields P' :=
  fun c a => (h c a).trans (hP a)

theorem yields_pure (a : α) : Yields (pure a) (· = a) :=
  fun _ _ => ⟨fun h => (Except.ok.inj h).symm, fun h => congrArg Except.ok h.symm⟩

theorem yields_throw (e : Failure) : Yields (throw e : Task α) fun _ => False :=
  fun _ _ => ⟨nofun, False.elim⟩

theorem yields_lift (r : Except Failure α) : Yields (liftM r) fun a => r = .ok a :=
  fun _ _ => .rfl

theorem yields_file (doing : Doing) (r : Except Files.Error α) :
    Yields (Task.file doing r) fun a => r = .ok a := by
  cases r with
  | error e => exact (yields_throw _).congr fun a => ⟨False.elim, nofun⟩
  | ok b =>
    exact (yields_pure b).congr fun a =>
      ⟨fun h => congrArg _ h.symm, fun h => (Except.ok.inj h).symm⟩

theorem yields_modify (f : Console → Console) : Yields (modify f : Task Unit) fun _ => True :=
  fun _ _ => ⟨fun _ => trivial, fun _ => rfl⟩

/-- A step after another one has the results that it has after one of the results of the first. -/
theorem Yields.bind (hx : x.Yields P) (hf : ∀ a, P a → (f a).Yields (Q a)) :
    Yields (x >>= f) fun b => ∃ a, P a ∧ Q a b := by
  intro c b
  rw [run_bind]
  rcases hrun : x.run c with ⟨e | a, c'⟩
  · -- the first task failed, so nothing is yielded
    refine ⟨nofun, fun ⟨a, ha, _⟩ => ?_⟩
    have hok := (hx c a).mpr ha
    rw [hrun] at hok
    cases hok
  · have ha : P a := (hx c a).mp (congrArg Prod.fst hrun)
    refine ((hf a ha) c' b).trans ⟨fun h => ⟨a, ha, h⟩, fun ⟨a', ha', h⟩ => ?_⟩
    have hok := (hx c a').mpr ha'
    rw [hrun] at hok
    cases hok
    exact h

/-- A step that only prints does not matter. -/
theorem yields_modify_bind {y : Task β} {Q : β → Prop} (f : Console → Console) (hy : y.Yields Q) :
    Yields (modify f >>= fun _ => y) Q :=
  ((yields_modify f).bind fun _ _ => hy).congr fun _ =>
    ⟨fun ⟨_, _, h⟩ => h, fun h => ⟨(), trivial, h⟩⟩

/-- Something that cannot fail has the same result whatever has been printed. -/
theorem yields_state_bind {v : α} {y : StateM Console α} {Q : β → Prop} (hy : ∀ c, (y c).1 = v)
    (hf : (f v).Yields Q) : Yields (liftM y >>= f) Q := by
  intro c b
  have hrun : (liftM y : Task α).run c = (.ok (y c).1, (y c).2) := rfl
  rw [run_bind, hrun, hy]
  exact hf _ b

theorem yields_mapM {γ : Type} {l : List γ} {g : γ → Task α} {R : γ → α → Prop}
    (h : ∀ n, (g n).Yields (R n)) : Yields (l.mapM g) (List.Forall₂ R l) := by
  induction l with
  | nil => exact (yields_pure []).congr fun a => by simp
  | cons n r ih =>
    rw [List.mapM_cons]
    refine ((h n).bind fun a _ => ih.bind fun m _ => yields_pure (a :: m)).congr fun m => ?_
    constructor
    · rintro ⟨a, ha, m, hm, rfl⟩
      exact .cons ha hm
    · rintro (_ | ⟨ha, hm⟩)
      exact ⟨_, ha, _, hm, rfl⟩

/-- A check that may fail comes first. -/
theorem yields_guard {p : Prop} [Decidable p] {e : Failure} {y : Unit → Task β} {Q : β → Prop}
    (hy : ¬ p → (y ()).Yields Q) :
    Yields (if p then (throw e : Task Unit) >>= y else y ()) fun b => ¬ p ∧ Q b := by
  split
  · next hp =>
    exact ((yields_throw e).bind (Q := fun _ _ => False) fun _ h => h.elim).congr fun b =>
      ⟨fun ⟨_, h, _⟩ => h.elim, fun h => absurd hp h.1⟩
  · next hp => exact (hy hp).congr fun b => ⟨fun h => ⟨hp, h⟩, fun h => h.2⟩

end Task

/-! ## §2 Schemas and renderings -/

/-- The source at a path can be read, and is that of a schema without errors. -/
def Compiles (d : Disk) (path : Bytes) (s : Schema) : Prop :=
  ∃ src c, d.read path = .ok src ∧ compileSource src (rememberedPath path) false = .ok c
    ∧ c.outcome = .ok s

/-- The schema loaded is the one that the file compiles to. -/
theorem yields_loadSchema (d : Disk) (path : Bytes) :
    (loadSchema d path).Yields (Compiles d path) := by
  refine ((Task.yields_file _ _).bind (Q := fun src s => ∃ c,
    compileSource src (rememberedPath path) false = .ok c ∧ c.outcome = .ok s)
    fun src _ => ?_).congr fun s => ?_
  · cases hc : compileSource src (rememberedPath path) false with
    -- the source is refused, and its errors are reported
    | error e =>
      exact (Task.yields_modify_bind _ (Task.yields_throw _)).congr fun s => ⟨False.elim, nofun⟩
    | ok c =>
      -- warnings are reported on the way, and do not fail
      refine Task.yields_modify_bind _ ?_
      cases ho : c.outcome with
      | error l =>
        refine (Task.yields_throw _).congr fun s => ⟨False.elim, fun ⟨c', hc', ho'⟩ => ?_⟩
        cases hc'
        cases ho.symm.trans ho'
      | ok s' =>
        refine (Task.yields_modify_bind _ (Task.yields_pure s')).congr fun s =>
          ⟨?_, fun ⟨c', hc', ho'⟩ => ?_⟩
        · rintro rfl
          exact ⟨c, rfl, ho⟩
        · cases hc'
          exact (Except.ok.inj (ho.symm.trans ho')).symm
  · exact ⟨fun ⟨src, hsrc, c, hc, ho⟩ => ⟨src, c, hsrc, hc, ho⟩,
      fun ⟨src, c, hsrc, hc, ho⟩ => ⟨src, hsrc, c, hc, ho⟩⟩

/-- Each language is rendered, to the files that stand next to it. -/
def Renders (result : Bytes → Except BindingError (List OutputFile)) (languages : List Bytes)
    (rendered : List (Bytes × List OutputFile)) : Prop :=
  List.Forall₂ (fun n e => e.1 = n ∧ result n = .ok e.2) languages rendered

section

variable {render : Renderer} {result : Bytes → Except BindingError (List OutputFile)}
  {l : List Bytes} {m m' : List (Bytes × List OutputFile)} {n : Bytes}

theorem mapM_results_eq_ok_iff :
    (l.map fun n => (result n).map (n, ·)).mapM id = .ok m ↔ Renders result l m := by
  rw [mapM_eq_ok_iff, List.forall₂_map_left_iff]
  have hone (n : Bytes) (e : Bytes × List OutputFile) :
      id ((result n).map (n, ·)) = .ok e ↔ e.1 = n ∧ result n = .ok e.2 := by
    obtain ⟨k, files⟩ := e
    rcases result n with _ | files'
    · simp [Except.map]
    · simp [Except.map, eq_comm (a := k)]
  simp only [hone, Renders]

/-- What a language has been rendered to is found by its name. -/
theorem Renders.lookup (h : Renders result l m) (hn : n ∈ l) :
    ∃ files, m.lookup n = some files ∧ result n = .ok files := by
  induction h with
  | nil => cases hn
  | @cons k e l m hk hr ih =>
    obtain ⟨k', files⟩ := e
    obtain ⟨rfl, hok⟩ : k' = k ∧ result k = .ok files := hk
    by_cases hkn : n = k'
    · exact ⟨files, by simp [hkn], hkn ▸ hok⟩
    · have hbeq : (n == k') = false := by simpa using hkn
      rw [List.lookup_cons, hbeq]
      exact ih ((List.mem_cons.mp hn).resolve_left hkn)

/-- What stands next to a language is what it is rendered to. -/
theorem Renders.of_mem (h : Renders result l m) {files : List OutputFile} (hmem : (n, files) ∈ m) :
    result n = .ok files := by
  induction h with
  | nil => cases hmem
  | cons hne _ ih =>
    rcases List.mem_cons.mp hmem with rfl | hmem
    · obtain ⟨rfl, hfiles⟩ := hne
      exact hfiles
    · exact ih hmem

theorem Renders.names (h : Renders result l m) : m.map (·.1) = l := by
  induction h with
  | nil => rfl
  | cons hk _ ih => rw [List.map_cons, ih, hk.1]

theorem renders_filterMap (h : ∀ n ∈ l, ∃ files, m.lookup n = some files ∧ result n = .ok files) :
    Renders result l (l.filterMap fun n => (m.lookup n).map (n, ·)) := by
  induction l with
  | nil => exact .nil
  | cons n r ih =>
    obtain ⟨⟨files, hfiles, hok⟩, hr⟩ := List.forall_mem_cons.mp h
    rw [List.filterMap_cons, hfiles]
    exact .cons ⟨rfl, hok⟩ (ih hr)

theorem Renders.unique (h : Renders result l m) (h' : Renders result l m') : m = m' := by
  induction h generalizing m' with
  | nil =>
    cases h'
    rfl
  | cons hk hr ih =>
    obtain _ | ⟨hk', hr'⟩ := h'
    refine congrArg₂ List.cons (Prod.ext (hk.1.trans hk'.1.symm) ?_) (ih hr')
    exact Except.ok.inj (hk.2.symm.trans hk'.2)

theorem exists_renders_iff :
    (∃ m, Renders result l m) ↔ ∀ n ∈ l, ∃ files, result n = .ok files := by
  refine ⟨fun ⟨m, h⟩ n hn => ?_, fun h => ?_⟩
  · obtain ⟨files, -, hfiles⟩ := h.lookup hn
    exact ⟨files, hfiles⟩
  · induction l with
    | nil => exact ⟨[], .nil⟩
    | cons n r ih =>
      obtain ⟨⟨files, hfiles⟩, hr⟩ := List.forall_mem_cons.mp h
      obtain ⟨m, hm⟩ := ih hr
      exact ⟨(n, files) :: m, .cons ⟨rfl, hfiles⟩ hm⟩

variable (hrender : ∀ n c, (render n c).1 = result n)

include hrender

theorem fst_renderOne (n : Bytes) (c : Console) :
    (renderOne render n c).1 = (result n).map (n, ·) := by
  have hbind {α β : Type} (x : StateM Console α) (f : α → StateM Console β) :
      (x >>= f) c = f (x c).1 (x c).2 := rfl
  rw [renderOne, hbind, hrender]
  cases result n <;> rfl

theorem fst_mapM_renderOne (l : List Bytes) (c : Console) :
    ((l.mapM (renderOne render) : StateM Console _) c).1
      = l.map fun n => (result n).map (n, ·) := by
  induction l generalizing c with
  | nil => rfl
  | cons n r ih =>
    rw [List.mapM_cons, List.map_cons, ← fst_renderOne hrender n c, ← ih (renderOne render n c).2]
    rfl

/-- All renderings give files or there are none, in whatever order the renderings end. -/
theorem yields_renderAll (schedule : Schedule) (languages : List Bytes) :
    (renderAll schedule render languages).Yields (Renders result languages) := by
  -- the schedule changes the order only
  have hmem (n : Bytes) : n ∈ schedule.order languages ↔ n ∈ languages :=
    (schedule.perm languages).mem_iff
  refine Task.yields_state_bind (fst_mapM_renderOne hrender (schedule.order languages)) ?_
  cases hresults : ((schedule.order languages).map fun n => (result n).map (n, ·)).mapM id with
  | error e =>
    refine (Task.yields_throw _).congr fun rendered => ⟨False.elim, fun h => ?_⟩
    -- one of the languages failed, so there is no result for all of them
    have hok := exists_renders_iff.mp ⟨rendered, h⟩
    obtain ⟨m, hm⟩ := exists_renders_iff.mpr fun n hn => hok n ((hmem n).mp hn)
    cases hresults.symm.trans (mapM_results_eq_ok_iff.mpr hm)
  | ok m =>
    have hm := mapM_results_eq_ok_iff.mp hresults
    have hrendered := renders_filterMap fun n hn => hm.lookup ((hmem n).mpr hn)
    refine (Task.yields_pure _).congr fun rendered => ⟨?_, fun h => h.unique hrendered⟩
    rintro rfl
    exact hrendered

end

/-! ## §3 Projects -/

namespace Request

variable (r : Request)

/-- The languages that are asked for can be rendered from the schema. -/
structure Builds (input : Bytes) (names languages : List Bytes) (s : Schema)
    (rendered : List (Bytes × List OutputFile)) : Prop where
  chosen : chooseLanguages r.settings names = .ok languages
  compiles : Compiles r.env.disk input s
  renders : ∃ o, chooseOptions r.env r.settings (r.flags.text "templates") (r.flags.pairs "option")
    = .ok o ∧ Renders (Bindings.generate s · o) languages rendered

/-- A project is rendered of a schema and of options. -/
theorem yields_renderProject (input : Bytes) (languages : List Bytes) :
    (r.renderProject input languages).Yields fun p => Compiles r.env.disk input p.1 ∧
      ∃ o, chooseOptions r.env r.settings (r.flags.text "templates") (r.flags.pairs "option")
        = .ok o ∧ Renders (Bindings.generate p.1 · o) languages p.2 := by
  refine ((yields_loadSchema r.env.disk input).bind fun s _ =>
    (Task.yields_lift (chooseOptions r.env r.settings (r.flags.text "templates")
      (r.flags.pairs "option"))).bind fun o _ =>
    (@yields_renderAll _ (Bindings.generate s · o) (fun _ _ => rfl) r.schedule languages).bind
      fun rendered _ => Task.yields_pure (s, rendered)).congr fun p => ?_
  obtain ⟨s, rendered⟩ := p
  constructor
  · -- each task is undone in turn
    rintro ⟨s', hs, o, ho, rendered', hr, ⟨⟩⟩
    exact ⟨hs, o, ho, hr⟩
  · rintro ⟨hs, o, ho, hr⟩
    exact ⟨s, hs, o, ho, rendered, hr, rfl⟩

/-! ### New projects -/

/-- What must hold for a new project. -/
structure Creates (input : Bytes) (languages : List Bytes) (s : Schema)
    (rendered : List (Bytes × List OutputFile)) : Prop where
  given : r.input = .ok input
  edition : r.edition = "2018" ∨ r.edition = "2021"
  vacant : checkVacant r.env r.project = .ok ()
  builds : r.Builds input (r.flags.list "language") languages s rendered

/-- The package of a new project. -/
def packageOf (s : Schema) : Bytes :=
  if (r.flags.text "package").isEmpty then s.package else r.flags.text "package"

/-- The manifest of a new project. -/
def newManifest (input : Bytes) (languages : List Bytes) (s : Schema)
    (generated : List OutputFile) : Manifest where
  package := r.packageOf s
  interface := Manifest.interfaceOf r.env.disk.cwd r.project input
  languages := languages
  edition := r.edition
  files := generated.map (·.path)

/-- What is done for a new project. -/
def createSteps (input : Bytes) (languages : List Bytes) (s : Schema)
    (rendered : List (Bytes × List OutputFile)) : List Step :=
  .directory r.project
    :: (r.scaffold (r.packageOf s) rendered ++ placed rendered).map (Step.output r.project)
    ++ [.manifest (Manifest.path r.project)
      (r.newManifest input languages s (placed rendered)).text]

/-- The plan of a new project. -/
theorem yields_planCreate : r.planCreate.Yields fun steps => ∃ input languages s rendered,
    r.Creates input languages s rendered ∧ steps = r.createSteps input languages s rendered := by
  refine ((Task.yields_lift r.input).bind fun input _ => Task.yields_guard fun _ =>
    (Task.yields_lift (checkVacant r.env r.project)).bind fun _ _ =>
    (Task.yields_lift (chooseLanguages r.settings (r.flags.list "language"))).bind
      fun languages _ =>
    (r.yields_renderProject input languages).bind fun p _ => Task.yields_pure
      (r.createSteps input languages p.1 p.2)).congr fun steps => ?_
  -- the guard names the editions that are not taken
  have hedition : ¬ ((r.edition != ("2018" : Bytes) && r.edition != ("2021" : Bytes)) = true) ↔
      r.edition = "2018" ∨ r.edition = "2021" := by
    simp only [Bool.and_eq_true, bne_iff_ne, ne_eq]
    tauto
  rw [hedition]
  constructor
  · rintro ⟨input, hinput, hedition, ⟨⟩, hvacant, languages, hlanguages, ⟨s, rendered⟩, ⟨hs, ho⟩,
      rfl⟩
    exact ⟨input, languages, s, rendered, ⟨hinput, hedition, hvacant, hlanguages, hs, ho⟩, rfl⟩
  · rintro ⟨input, languages, s, rendered, ⟨hinput, hedition, hvacant, hlanguages, hs, ho⟩, rfl⟩
    exact ⟨input, hinput, hedition, (), hvacant, languages, hlanguages, (s, rendered), ⟨hs, ho⟩,
      rfl⟩

/-! ### Updates -/

/-- The names of the languages of an update: those that are asked for, or those of the manifest. -/
def updateNames (old : Option Manifest) : List Bytes :=
  if (r.flags.list "language").isEmpty then (old.map (·.languages)).getD []
  else r.flags.list "language"

/-- What must hold for an update. -/
structure Updates (old : Option Manifest) (input : Bytes) (languages : List Bytes) (s : Schema)
    (rendered : List (Bytes × List OutputFile)) : Prop where
  directory : r.env.disk.isDirectory r.project = true
  recorded : Manifest.load? r.env.disk r.project = .ok old
  given : r.updateInput r.project old = .ok input
  builds : r.Builds input (r.updateNames old) languages s rendered

/-- The manifest after an update. -/
def nextManifest (old : Option Manifest) (input : Bytes) (languages : List Bytes) (s : Schema)
    (generated : List OutputFile) : Manifest :=
  { old.getD { package := s.package } with
    interface := Manifest.interfaceOf r.env.disk.cwd r.project input
    languages := languages
    files := generated.map (·.path) }

/-- The files that were generated before an update and are not any more. -/
def staleOf (old : Option Manifest) (generated : List OutputFile) : List Bytes :=
  (old.map fun m => staleFiles m.files generated).getD []

theorem mem_staleOf_iff {old : Option Manifest} {generated : List OutputFile} {p : Bytes} :
    p ∈ staleOf old generated ↔
      ∃ o, old = some o ∧ p ∈ o.files ∧ p ∉ generated.map (·.path) := by
  cases old <;> simp [staleOf, staleFiles]

/-- What is done for an update. -/
def updateSteps (old : Option Manifest) (input : Bytes) (languages : List Bytes) (s : Schema)
    (generated : List OutputFile) : List Step :=
  generated.map (Step.output r.project)
    ++ (staleOf old generated).map (removalOf r.project)
    ++ [.manifest (Manifest.path r.project) (r.nextManifest old input languages s generated).text]

/-- The plan of an update. -/
theorem yields_planUpdate : r.planUpdate.Yields fun steps => ∃ old input languages s rendered,
    r.Updates old input languages s rendered
      ∧ steps = r.updateSteps old input languages s (placed rendered) := by
  refine (Task.yields_guard fun _ =>
    (Task.yields_lift (Manifest.load? r.env.disk r.project)).bind fun old _ =>
    (Task.yields_lift (r.updateInput r.project old)).bind fun input _ =>
    (Task.yields_lift (chooseLanguages r.settings (r.updateNames old))).bind fun languages _ =>
    (r.yields_renderProject input languages).bind fun p _ => Task.yields_pure
      (r.updateSteps old input languages p.1 (placed p.2))).congr fun steps => ?_
  rw [Bool.not_eq_true, Bool.not_eq_false']
  constructor
  · rintro ⟨hdir, old, hold, input, hinput, languages, hlanguages, ⟨s, rendered⟩, ⟨hs, ho⟩, rfl⟩
    exact ⟨old, input, languages, s, rendered, ⟨hdir, hold, hinput, hlanguages, hs, ho⟩, rfl⟩
  · rintro ⟨old, input, languages, s, rendered, ⟨hdir, hold, hinput, hlanguages, hs, ho⟩, rfl⟩
    exact ⟨hdir, old, hold, input, hinput, languages, hlanguages, (s, rendered), ⟨hs, ho⟩, rfl⟩

/-! ## §4 Exports and plugins -/

/-- What must hold for an export. -/
structure Exports (input : Bytes) (format : ExportFormat) (s : Schema) (text : Bytes) : Prop where
  given : r.input = .ok input
  known : ExportFormat.choose (r.flags.text "format") (r.flags.text "output") = .ok format
  compiles : Compiles r.env.disk input s
  expressible : format.write (r.flags.toggle "pretty") s = .ok text

/-- What is done for an export: nothing if it goes to standard output. -/
def exportSteps (text : Bytes) : List Step :=
  if (r.flags.text "output").isEmpty || r.flags.text "output" == ("-" : Bytes) then []
  else [.document (r.flags.text "output") text]

/-- The plan of an export. -/
theorem yields_planExport : r.planExport.Yields fun steps => ∃ input format s text,
    r.Exports input format s text ∧ steps = r.exportSteps text := by
  -- the text is printed, or becomes the one document that is written
  have hlast (text : Bytes) : Task.Yields (if (r.flags.text "output").isEmpty
        || r.flags.text "output" == ("-" : Bytes) then do
          Task.print text
          return []
        else return [.document (r.flags.text "output") text]) (· = r.exportSteps text) := by
    rw [exportSteps]
    split
    · exact Task.yields_modify_bind _ (Task.yields_pure _)
    · exact Task.yields_pure _
  refine ((Task.yields_lift r.input).bind fun input _ =>
    (Task.yields_lift (ExportFormat.choose (r.flags.text "format") (r.flags.text "output"))).bind
      fun format _ =>
    (yields_loadSchema r.env.disk input).bind fun s _ =>
    (Task.yields_lift (format.write (r.flags.toggle "pretty") s)).bind fun text _ =>
      hlast text).congr fun steps => ?_
  constructor
  · rintro ⟨input, hinput, format, hformat, s, hs, text, htext, rfl⟩
    exact ⟨input, format, s, text, ⟨hinput, hformat, hs, htext⟩, rfl⟩
  · rintro ⟨input, format, s, text, ⟨hinput, hformat, hs, htext⟩, rfl⟩
    exact ⟨input, hinput, format, hformat, s, hs, text, htext, rfl⟩

/-- The file with the plugin for a language is found and can be read. -/
structure Finds (searchPath language : Bytes) (p : Plugin.Source) : Prop where
  named : p.language = language
  limit : p.limit = Plugin.defaultPages
  located : locatePlugin r.env language searchPath = .ok p.path
  read : r.env.disk.read p.path = .ok p.module

theorem yields_loadPlugin (searchPath language : Bytes) :
    (loadPlugin r.env searchPath language).Yields (r.Finds searchPath language) := by
  refine ((Task.yields_lift (locatePlugin r.env language searchPath)).bind fun path _ =>
    (Task.yields_file _ (r.env.disk.read path)).bind fun module _ =>
    Task.yields_modify_bind _ (Task.yields_pure
      (⟨language, path, module, Plugin.defaultPages⟩ : Plugin.Source))).congr fun p => ?_
  constructor
  · rintro ⟨path, hpath, module, hmodule, rfl⟩
    exact ⟨rfl, rfl, hpath, hmodule⟩
  · rintro ⟨rfl, hlimit, hpath, hmodule⟩
    exact ⟨p.path, hpath, p.module, hmodule, by rw [← hlimit]⟩

/-- What the plugin for a language renders. -/
def pluginResult (plugins : List Plugin.Source) (s : Schema) (o : Bindings.Options)
    (language : Bytes) : Except BindingError (List OutputFile) :=
  match plugins.find? (·.language == language) with
  | none => .error (.ofPlugin language "not loaded")
  | some p => p.generate (p.run r.env.engine s o)

/-- The directories in which plugins are looked for. -/
def searchPath : Except Failure Bytes :=
  if (r.flags.text "plugin-path").isEmpty then pathSetting r.settings .pluginPath
  else .ok (r.flags.text "plugin-path")

/-- What must hold for generating code with plugins. -/
structure Generates (input : Bytes) (languages : List Bytes) (plugins : List Plugin.Source)
    (s : Schema) (rendered : List (Bytes × List OutputFile)) : Prop where
  given : r.input = .ok input
  output : r.output ≠ []
  chosen : chooseLanguages r.settings (r.flags.list "language") = .ok languages
  found : ∃ searchPath, r.searchPath = .ok searchPath
    ∧ List.Forall₂ (r.Finds searchPath) languages plugins
  compiles : Compiles r.env.disk input s
  renders : Renders (r.pluginResult plugins s { values := r.flags.pairs "option" }) languages
    rendered

/-- What is done with what plugins have rendered. -/
def codegenSteps (rendered : List (Bytes × List OutputFile)) : List Step :=
  .directory r.output :: (rendered.flatMap (·.2)).map (Step.output r.output)

theorem yields_planCodegen : r.planCodegen.Yields fun steps =>
    ∃ input languages plugins s rendered, r.Generates input languages plugins s rendered
      ∧ steps = r.codegenSteps rendered := by
  have hresult (plugins : List Plugin.Source) (s : Schema) (o : Bindings.Options) (n : Bytes)
      (c : Console) : (pluginRenderer r.env plugins s o n c).1 = r.pluginResult plugins s o n := by
    rw [pluginRenderer, pluginResult]
    cases plugins.find? (·.language == n) <;> rfl
  -- the search path is the flag, or the setting if the flag is empty
  have hpath {Q : Bytes → List Step → Prop} {f : Bytes → Task (List Step)}
      (hf : ∀ path, (f path).Yields (Q path)) :
      Task.Yields (if (r.flags.text "plugin-path").isEmpty then do
          let path ← (pathSetting r.settings .pluginPath : Except Failure Bytes)
          f path
        else do
          let path ← pure (r.flags.text "plugin-path")
          f path) fun steps => ∃ path, r.searchPath = .ok path ∧ Q path steps := by
    rw [searchPath]
    split
    · exact (Task.yields_lift _).bind fun path _ => hf path
    · refine ((Task.yields_pure _).bind fun path _ => hf path).congr fun steps => ?_
      simp
  refine ((Task.yields_lift r.input).bind fun input _ => Task.yields_guard fun _ =>
    (Task.yields_lift (chooseLanguages r.settings (r.flags.list "language"))).bind
      fun languages _ =>
    hpath fun path => (Task.yields_mapM (r.yields_loadPlugin path)).bind fun plugins _ =>
    (yields_loadSchema r.env.disk input).bind fun s _ =>
    (yields_renderAll (hresult plugins s { values := r.flags.pairs "option" }) r.schedule
      languages).bind fun rendered _ => Task.yields_pure (r.codegenSteps rendered)).congr
      fun steps => ?_
  -- both sides name the same things in different orders
  rw [List.isEmpty_iff]
  constructor
  · rintro ⟨input, hinput, houtput, languages, hlanguages, path, hpath, plugins, hplugins, s, hs,
      rendered, hr, rfl⟩
    exact ⟨input, languages, plugins, s, rendered,
      ⟨hinput, houtput, hlanguages, ⟨path, hpath, hplugins⟩, hs, hr⟩, rfl⟩
  · rintro ⟨input, languages, plugins, s, rendered,
      ⟨hinput, houtput, hlanguages, ⟨path, hpath, hplugins⟩, hs, hr⟩, rfl⟩
    exact ⟨input, hinput, houtput, languages, hlanguages, path, hpath, plugins, hplugins, s, hs,
      rendered, hr, rfl⟩

end Request

/-! ## §5 Carrying out -/

section

variable {r : Request} {v : Verb} {c : Console} {steps : List Step}

/-- A verb without a plan fails, and files stay as they are. -/
theorem carryOut_of_refused (h : ∀ steps, ((r.plan v).run c).1 ≠ .ok steps) :
    (carryOut r v c).code = 1 ∧ (carryOut r v c).disk = r.env.disk := by
  rw [carryOut]
  rcases hplan : (r.plan v).run c with ⟨f | steps, c'⟩
  · exact ⟨rfl, rfl⟩
  · exact absurd (congrArg Prod.fst hplan) (h steps)

/-- A verb that does not fail has taken all steps of its plan. -/
theorem exists_of_carryOut (h : (carryOut r v c).code = 0) :
    ∃ steps, ((r.plan v).run c).1 = .ok steps
      ∧ AllDone steps r.env.disk (carryOut r v c).disk := by
  rw [carryOut] at h ⊢
  rcases hplan : (r.plan v).run c with ⟨f | steps, c'⟩
  · rw [hplan] at h
    cases h
  · rw [hplan] at h
    dsimp only at h ⊢
    rcases hrun : (takeAll steps).run ⟨c', r.env.disk⟩ with ⟨f | ⟨⟩, s⟩
    · rw [hrun] at h
      cases h
    · exact ⟨steps, rfl, (means_takeAll steps c' _ _).mp ⟨s.console, hrun⟩⟩

theorem carryOut_of_allDone {d : Disk} (hplan : ((r.plan v).run c).1 = .ok steps)
    (h : AllDone steps r.env.disk d) :
    (carryOut r v c).code = 0 ∧ (carryOut r v c).disk = d := by
  rw [carryOut]
  rcases hrun : (r.plan v).run c with ⟨f | steps', c'⟩
  · rw [hrun] at hplan
    cases hplan
  · obtain rfl : steps' = steps := Except.ok.inj ((congrArg Prod.fst hrun).symm.trans hplan)
    obtain ⟨c'', htake⟩ := (means_takeAll steps' c' _ _).mpr h
    dsimp only
    rw [htake]
    exact ⟨rfl, rfl⟩

/-- What all steps of a plan keep, the verb keeps, whether it fails or not. -/
theorem keeps_carryOut {R : Disk → Disk → Prop} (hplan : ((r.plan v).run c).1 = .ok steps)
    (h : (takeAll steps).Keeps R) : R r.env.disk (carryOut r v c).disk := by
  rw [carryOut]
  rcases hrun : (r.plan v).run c with ⟨f | steps', c'⟩
  · rw [hrun] at hplan
    cases hplan
  · obtain rfl : steps' = steps := Except.ok.inj ((congrArg Prod.fst hrun).symm.trans hplan)
    have hkeep := h ⟨c', r.env.disk⟩
    dsimp only at hkeep ⊢
    generalize (takeAll steps').run ⟨c', r.env.disk⟩ = result at hkeep ⊢
    obtain ⟨_ | ⟨⟩, s⟩ := result <;> exact hkeep

end

/-! ### Command lines -/

/-- What a command line asks for, if it is carried out: the verb, what the verb is given, and what
has been printed by then. -/
def request? (env : Environment) (words : List Bytes) (schedule : Schedule) :
    Option (Verb × Request × Console) :=
  match findVerb words with
  | .ok (some v, words) => match readCommandLine (flagsOf (some v)) words with
    | .ok (flags, args) =>
      if v = .help ∨ flags.toggle "help" = true then none
      else match Settings.load env.disk env.vars (flags.text "config") with
        | .ok settings => match chooseLevel settings (flags.text "log-level") with
          | .ok level =>
            some (v, ⟨env, settings, flags, args, schedule⟩, openConsole settings level)
          | .error _ => none
        | .error _ => none
    | .error _ => none
  | _ => none

/-- A command line that asks for a verb is carried out, and no other one changes a file. -/
theorem run_cases (env : Environment) (words : List Bytes) (schedule : Schedule) :
    (∃ v r c, request? env words schedule = some (v, r, c)
      ∧ run env words schedule = carryOut r v c)
    ∨ request? env words schedule = none ∧ (run env words schedule).disk = env.disk := by
  rw [request?, run]
  -- without a verb, a readable line, settings or a level nothing is requested or changed
  rcases findVerb words with e | ⟨v, words⟩
  · exact .inr ⟨rfl, rfl⟩
  dsimp only
  rcases hread : readCommandLine (flagsOf v) words with e | ⟨flags, args⟩
  · refine .inr ⟨?_, rfl⟩
    cases v with
    | none => rfl
    | some v => simp [hread]
  dsimp only
  by_cases hhelp : flags.toggle "help" = true
  · refine .inr ⟨?_, by rw [if_pos hhelp]⟩
    cases v with
    | none => rfl
    | some v => simp [hread, hhelp]
  rw [if_neg hhelp]
  rcases hsettings : Settings.load env.disk env.vars (flags.text "config") with e | settings
  · refine .inr ⟨?_, rfl⟩
    cases v with
    | none => rfl
    | some v => simp [hread, hsettings]
  dsimp only
  rcases hlevel : chooseLevel settings (flags.text "log-level") with e | level
  · refine .inr ⟨?_, rfl⟩
    cases v with
    | none => rfl
    | some v => simp [hread, hsettings, hlevel]
  dsimp only
  match v with
  | none => exact .inr ⟨rfl, rfl⟩
  | some v =>
    by_cases hv : v = .help
    · subst hv
      exact .inr ⟨by simp [hread], rfl⟩
    · refine .inl ⟨v, ⟨env, settings, flags, args, schedule⟩, openConsole settings level,
        by simp [hread, hv, hhelp, hsettings, hlevel], ?_⟩
      cases v with
      | help => contradiction
      | _ => rfl

theorem run_of_request {env : Environment} {words : List Bytes} {schedule : Schedule} {v : Verb}
    {r : Request} {c : Console} (h : request? env words schedule = some (v, r, c)) :
    run env words schedule = carryOut r v c := by
  obtain ⟨v', r', c', h', hrun⟩ | ⟨h', -⟩ := run_cases env words schedule
  · cases h.symm.trans h'
    exact hrun
  · cases h.symm.trans h'

/-- What a verb is given are the surroundings of the command line. -/
theorem env_of_request {env : Environment} {words : List Bytes} {schedule : Schedule} {v : Verb}
    {r : Request} {c : Console} (h : request? env words schedule = some (v, r, c)) :
    r.env = env := by
  simp only [request?] at h
  repeat' split at h
  all_goals first
    | cases h; done
    | (cases h; rfl)

/-- The settings of a verb are those that are loaded. -/
theorem settings_of_request {env : Environment} {words : List Bytes} {schedule : Schedule}
    {v : Verb} {r : Request} {c : Console} (h : request? env words schedule = some (v, r, c)) :
    Settings.load env.disk env.vars (r.flags.text "config") = .ok r.settings := by
  simp only [request?] at h
  repeat' split at h
  all_goals first
    | cases h; done
    | (cases h; assumption)

end Idl.Command
