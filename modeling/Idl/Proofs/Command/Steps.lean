import Idl.Command
import Idl.Proofs.Files.Changes
import Idl.Proofs.Plugin.Acceptance

/-!
# What steps do to files

What a step makes of a disk does not depend on what has been printed. A step that is taken to its
end has one effect; one that fails may have had a part of it, so that what a step keeps is kept by
each of its single changes.

* §1 work, §2 single steps, §3 steps one after the other.
-/

namespace Idl.Command

open Files (Disk IsName below)
open Bindings (OutputFile)

/-! ## §1 Work -/

namespace Work

variable {α : Type} {x y : Work Unit} {P Q R : Disk → Disk → Prop}

theorem run_bind (x : Work Unit) (f : Unit → Work α) (s : Session) : (x >>= f).run s =
    match x.run s with
    | (.ok a, s') => (f a).run s'
    | (.error e, s') => (.error e, s') := by
  change (match x.run s with | (r, s') => ExceptT.bindCont f r s') = _
  rcases x.run s with ⟨_ | _, _⟩ <;> rfl

/-- Work that is done to its end leads from one disk to another exactly if they are related. -/
def Means (x : Work Unit) (P : Disk → Disk → Prop) : Prop :=
  ∀ c d d', (∃ c', x.run ⟨c, d⟩ = (.ok (), ⟨c', d'⟩)) ↔ P d d'

/-- Work, done to its end or not, leads from a disk to a related one. -/
def Keeps (R : Disk → Disk → Prop) (x : Work Unit) : Prop :=
  ∀ s, R s.disk (x.run s).2.disk

theorem means_pure : Means (pure ()) fun d d' => d' = d := by
  refine fun c d d' => ⟨?_, ?_⟩
  · rintro ⟨c', h⟩
    exact congrArg (fun s => s.2.disk) h.symm
  · rintro rfl
    exact ⟨c, rfl⟩

theorem means_log (e : Event) : Means (log e) fun d d' => d' = d := by
  refine fun c d d' => ⟨?_, ?_⟩
  · rintro ⟨c', h⟩
    exact congrArg (fun s => s.2.disk) h.symm
  · rintro rfl
    exact ⟨c.log e, rfl⟩

theorem means_throw (f : Failure) : Means (throw f) fun _ _ => False :=
  fun _ _ _ => ⟨fun ⟨_, h⟩ => (nomatch congrArg Prod.fst h), False.elim⟩

theorem run_change (doing : Doing) (f : Disk → Except Files.Error Disk) (s : Session) :
    (change doing f).run s = match f s.disk with
      | .ok d => (.ok (), { s with disk := d })
      | .error e => (.error (.file doing e), s) := by
  change (match f s.disk with | .ok d => _ | .error e => _ : Work Unit).run s = _
  cases f s.disk <;> rfl

theorem means_change (doing : Doing) (f : Disk → Except Files.Error Disk) :
    Means (change doing f) fun d d' => f d = .ok d' := by
  intro c d d'
  rw [run_change]
  dsimp only
  cases f d with
  | error e => exact ⟨fun ⟨_, h⟩ => (nomatch congrArg Prod.fst h), nofun⟩
  | ok m =>
    refine ⟨fun ⟨_, h⟩ => congrArg Except.ok (congrArg (fun r => r.2.disk) h), fun h => ?_⟩
    cases h
    exact ⟨c, rfl⟩

/-- One task after another passes through some disk in between. -/
theorem Means.bind (hx : Means x P) (hy : Means y Q) :
    Means (x >>= fun _ => y) fun d d' => ∃ m, P d m ∧ Q m d' := by
  intro c d d'
  simp only [run_bind]
  constructor
  · rintro ⟨c', h⟩
    rcases hrun : x.run ⟨c, d⟩ with ⟨_ | _, s⟩
    · rw [hrun] at h
      cases congrArg Prod.fst h
    · rw [hrun] at h
      exact ⟨s.disk, (hx c d s.disk).mp ⟨s.console, hrun⟩, (hy s.console s.disk d').mp ⟨c', h⟩⟩
  · rintro ⟨m, hP, hQ⟩
    obtain ⟨c₁, h₁⟩ := (hx c d m).mpr hP
    obtain ⟨c₂, h₂⟩ := (hy c₁ m d').mpr hQ
    exact ⟨c₂, by rw [h₁]; exact h₂⟩

theorem Keeps.of_eq (hrefl : ∀ d, R d d) (h : ∀ s, (x.run s).2.disk = s.disk) : Keeps R x :=
  fun s => (h s).symm ▸ hrefl s.disk

theorem keeps_change {f : Disk → Except Files.Error Disk} (hrefl : ∀ d, R d d)
    (h : ∀ d d', f d = .ok d' → R d d') (doing : Doing) : Keeps R (change doing f) := by
  intro s
  rw [run_change]
  cases hf : f s.disk with
  | error e => exact hrefl s.disk
  | ok d => exact h s.disk d hf

theorem Keeps.bind (htrans : ∀ d d' d'', R d d' → R d' d'' → R d d'') (hx : Keeps R x)
    (hy : Keeps R y) : Keeps R (x >>= fun _ => y) := by
  intro s
  have h := hx s
  rw [run_bind]
  generalize x.run s = result at h
  obtain ⟨_ | _, s'⟩ := result
  · exact h
  · exact htrans _ _ _ h (hy s')

/-- What work keeps that is followed by other work: what the first part keeps if it stops there, and
what both parts keep together if it does not. -/
theorem Keeps.bind_of {R₁ R₂ : Disk → Disk → Prop} (hx : Keeps R₁ x) (hmeans : Means x P)
    (hy : Keeps R₂ y) (hfirst : ∀ d d', R₁ d d' → R d d')
    (hboth : ∀ d m d', P d m → R₁ d m → R₂ m d' → R d d') : Keeps R (x >>= fun _ => y) := by
  intro s
  have h := hx s
  rw [run_bind]
  rcases hrun : x.run s with ⟨_ | ⟨⟩, s'⟩
  · rw [hrun] at h
    exact hfirst _ _ h
  · rw [hrun] at h
    exact hboth _ _ _ ((hmeans s.console s.disk s'.disk).mp ⟨s'.console, hrun⟩) h (hy s')

/-- Directories are made, or some of them are. -/
theorem means_makeDirectories (path : Bytes) :
    Means (makeDirectories path) fun d d' => d.makeDirectories path = .ok d' := by
  rw [makeDirectories]
  simp only [Disk.makeDirectories]
  induction Disk.ancestry path with
  | nil => exact fun c d d' => (means_pure c d d').trans (by simp [pure, Except.pure, eq_comm])
  -- the outermost directory is made first
  | cons p r ih =>
    refine fun c d d' => ((means_change .makeOutput _).bind ih c d d').trans ?_
    simp only [List.foldlM_cons]
    cases d.makeDirectory p with
    | error e =>
      -- one that cannot be made ends the loop
      refine iff_of_false ?_ (fun h => by cases h)
      rintro ⟨_, h, -⟩
      cases h
    | ok m =>
      refine ⟨?_, fun hr => ⟨m, rfl, hr⟩⟩
      rintro ⟨_, h, hr⟩
      cases h
      exact hr

theorem keeps_makeDirectories {path : Bytes} (hrefl : ∀ d, R d d)
    (htrans : ∀ d d' d'', R d d' → R d' d'' → R d d'')
    (h : ∀ p ∈ Disk.ancestry path, ∀ d d', d.makeDirectory p = .ok d' → R d d') :
    Keeps R (makeDirectories path) := by
  rw [makeDirectories]
  generalize Disk.ancestry path = l at h
  induction l with
  | nil => exact .of_eq hrefl fun _ => rfl
  | cons p r ih =>
    obtain ⟨hp, hr⟩ := List.forall_mem_cons.mp h
    exact .bind htrans (keeps_change hrefl hp _) (ih hr)

end Work

/-! ## §2 Single steps -/

/-- What a step that is taken to its end makes of a disk. -/
def Step.Done : Step → Disk → Disk → Prop
  | .directory path, d, d' => d.makeDirectories path = .ok d'
  | .output dir file, d, d' => ∃ rel m, Plugin.outputPath (componentsOf file.path) = .ok rel
    ∧ d.makeDirectories (Files.parentText (Files.joinTexts [dir, rel])) = .ok m
    ∧ m.write (Files.joinTexts [dir, rel]) file.content = .ok d'
  | .removal path, d, d' => removeIfThere path d = .ok d'
  | .manifest path content, d, d' => d.write path content = .ok d'
  | .document path content, d, d' => d.write path content = .ok d'
  | .note _, d, d' => d' = d

/-- What a step does when it succeeds. -/
theorem Step.means_take (s : Step) : s.take.Means s.Done := by
  cases s with
  | directory path => exact Work.means_makeDirectories path
  | output dir file =>
    rw [take]
    cases hrel : Plugin.outputPath (componentsOf file.path) with
    | error e =>
      refine fun c d d' => (Work.means_throw _ c d d').trans ⟨False.elim, ?_⟩
      rintro ⟨rel, m, h, -⟩
      cases hrel.symm.trans h
    | ok rel =>
      -- the directory of the file is made, and then the file is written
      have h := (Work.means_makeDirectories (Files.parentText (Files.joinTexts [dir, rel]))).bind
        ((Work.means_change .writeOutput (·.write (Files.joinTexts [dir, rel]) file.content)).bind
          (Work.means_log (wroteEvent (Files.joinTexts [dir, rel]) file.content.length)))
      refine fun c d d' => (h c d d').trans ⟨?_, ?_⟩
      · rintro ⟨m, hm, _, hwrite, rfl⟩
        exact ⟨rel, m, hrel, hm, hwrite⟩
      · rintro ⟨rel', m, hrel', hm, hwrite⟩
        cases hrel.symm.trans hrel'
        exact ⟨m, hm, d', hwrite, rfl⟩
  | removal path =>
    refine fun c d d' => ((Work.means_change _ _).bind (Work.means_log _) c d d').trans ⟨?_, ?_⟩
    · rintro ⟨m, hm, rfl⟩
      exact hm
    · exact fun h => ⟨d', h, rfl⟩
  | manifest path content => exact Work.means_change .writeManifest (·.write path content)
  | document path content => exact Work.means_change .openOutput (·.write path content)
  | note e => exact Work.means_log e

/-! ## §3 Steps one after the other -/

/-- What steps that are taken to their end make of a disk. -/
inductive AllDone : List Step → Disk → Disk → Prop
  | nil (d : Disk) : AllDone [] d d
  | cons {s : Step} {rest : List Step} {d d' d'' : Disk} (first : s.Done d d')
    (more : AllDone rest d' d'') : AllDone (s :: rest) d d''

/-- Steps that all succeed are done one after another. -/
theorem means_takeAll (steps : List Step) : (takeAll steps).Means (AllDone steps) := by
  induction steps with
  | nil =>
    refine fun c d d' => (Work.means_pure c d d').trans ⟨?_, ?_⟩
    · rintro rfl
      exact .nil _
    · intro h
      cases h
      rfl
  | cons s rest ih =>
    refine fun c d d' => (s.means_take.bind ih c d d').trans ⟨?_, ?_⟩
    · rintro ⟨m, hs, hrest⟩
      exact .cons hs hrest
    · intro h
      obtain _ | ⟨hs, hrest⟩ := h
      exact ⟨_, hs, hrest⟩

/-- Two lists of steps meet at a disk. -/
theorem allDone_append_iff {a b : List Step} {d d' : Disk} :
    AllDone (a ++ b) d d' ↔ ∃ m, AllDone a d m ∧ AllDone b m d' := by
  induction a generalizing d with
  | nil =>
    refine ⟨fun h => ⟨d, .nil d, h⟩, ?_⟩
    rintro ⟨m, h, hb⟩
    cases h
    exact hb
  | cons s r ih =>
    constructor
    · intro h
      obtain _ | ⟨hs, hrest⟩ := h
      obtain ⟨m, hr, hb⟩ := ih.mp hrest
      exact ⟨m, .cons hs hr, hb⟩
    · rintro ⟨m, h, hb⟩
      obtain _ | ⟨hs, hrest⟩ := h
      exact .cons hs (ih.mpr ⟨m, hrest, hb⟩)

theorem keeps_takeAll {R : Disk → Disk → Prop} {steps : List Step} (hrefl : ∀ d, R d d)
    (htrans : ∀ d d' d'', R d d' → R d' d'' → R d d'') (h : ∀ s ∈ steps, s.take.Keeps R) :
    (takeAll steps).Keeps R := by
  induction steps with
  | nil => exact .of_eq hrefl fun _ => rfl
  | cons s rest ih =>
    obtain ⟨hs, hrest⟩ := List.forall_mem_cons.mp h
    exact .bind htrans hs (ih hrest)

/-- What steps keep, whether they are taken to their end or not, they keep if they are. -/
theorem AllDone.of_keeps {R : Disk → Disk → Prop} {steps : List Step} {d d' : Disk}
    (h : AllDone steps d d') (hkeeps : (takeAll steps).Keeps R) : R d d' := by
  obtain ⟨c, hrun⟩ := (means_takeAll steps {} d d').mpr h
  have hkept := hkeeps ⟨{}, d⟩
  rwa [hrun] at hkept

theorem takeAll_append (a b : List Step) :
    takeAll (a ++ b) = (takeAll a >>= fun _ => takeAll b) := by
  induction a with
  | nil => rw [List.nil_append, takeAll, pure_bind]
  | cons s r ih => rw [List.cons_append, takeAll, ih, takeAll, bind_assoc]

end Idl.Command
