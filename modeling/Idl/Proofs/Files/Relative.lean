import Idl.Proofs.Files.Changes
import Idl.Proofs.Schema.Sourced

/-!
# The way from one directory to a file

The path that leads from a directory to a file is computed from their texts alone. It leads to the
file if the working directory is really there: steps up are taken among directories then.

* §1 the working directory, §2 steps between places, §3 open ways, §4 finding a file again.
-/

namespace Idl.Files

/-! ## §1 The working directory -/

/-- A name that can stand in a directory. -/
structure IsEntry (c : Bytes) : Prop extends IsName c where
  noZero : 0 ∉ c
  short : c.length ≤ Disk.maxName

namespace Disk

variable {d d' : Disk} {t dir input : Bytes} {p q : List Bytes}

/-- The working directory is there, and all that it lies in. -/
structure Settled (d : Disk) : Prop where
  entries : ∀ c ∈ d.cwd, IsEntry c
  directories : ∀ p, p <+: d.cwd → d.tree.get? p = some .directory

theorem Settled.of_grows (h : d.Settled) (hgrows : Grows d d') : d'.Settled where
  entries := hgrows.cwd ▸ h.entries
  directories p hp := hgrows.directory p (h.directories p (hgrows.cwd ▸ hp))

theorem Settled.start (h : d.Settled) (t : Bytes) (hp : p <+: d.start t) :
    d.tree.get? p = some .directory := by
  rw [Disk.start] at hp
  split at hp
  · rw [List.prefix_nil.mp hp]
    exact Tree.get?_root _
  · exact h.directories p hp

/-- The components of a text from the root are the place that it leads to. -/
theorem Settled.absolute_eq (h : d.Settled) (t : Bytes) : absolute d.cwd t = d.place t := by
  -- to clean the parts of a rooted path is to walk them from the root
  have hwalk {l : List Bytes} (hl : ∀ c ∈ l, separator ∉ c) :
      (Path.plain ⟨true, l⟩).parts = walk [] l := by
    obtain ⟨n, names, hparts, hnames, hn⟩ := @ArePlain.foldl_push true _ [] (.nil _) hl
    rw [hn rfl, List.replicate_zero, List.nil_append] at hparts
    have hfold := @walk_foldl_push true _ [] [] (fun _ => rfl) (.nil _) hl
    rw [hparts, walk_names hnames, List.nil_append] at hfold
    exact hparts.trans hfold
  have hsplit : ∀ c ∈ Bytes.split separator t, separator ∉ c :=
    fun c hc => Bytes.not_mem_of_mem_split hc
  rw [absolute, place, Disk.start, isRooted, Path.ofText]
  dsimp only
  split
  · exact hwalk hsplit
  · -- the current directory holds names only, so the walk begins there
    rw [hwalk (List.forall_mem_append.mpr ⟨fun c hc => (h.entries c hc).noSeparator, hsplit⟩),
      walk_append, walk_names fun c hc => (h.entries c hc).toIsName]
    rfl

end Disk

/-! ## §2 Steps between places -/

theorem stepsBetween_eq (p q : List Bytes) : ∃ c x y, p = c ++ x ∧ q = c ++ y
    ∧ stepsBetween p q = List.replicate x.length up ++ y := by
  fun_induction stepsBetween p q with
  | case1 a dir b target heq ih =>
    obtain rfl := beq_iff_eq.mp heq
    obtain ⟨c, x, y, rfl, rfl, hsteps⟩ := ih
    exact ⟨a :: c, x, y, rfl, rfl, hsteps⟩
  | case2 a dir b target hne =>
    exact ⟨[], a :: dir, b :: target, rfl, rfl, by rw [List.map_const']⟩
  | case3 dir target h => exact ⟨[], dir, target, rfl, rfl, by simp⟩

theorem walk_replicate_up (c x : List Bytes) : walk (c ++ x) (List.replicate x.length up) = c := by
  induction x using List.reverseRecOn with
  | nil => simp
  | append_singleton x a ih =>
    rw [List.length_append, List.length_singleton, List.replicate_succ, ← List.append_assoc]
    have hstep (p rest : List Bytes) : walk p (up :: rest) = walk p.dropLast rest := rfl
    rw [hstep, List.dropLast_concat, ih]

/-- The steps from one place to another lead there. -/
theorem walk_stepsBetween {p q : List Bytes} (hq : ∀ c ∈ q, IsName c) :
    walk p (stepsBetween p q) = q := by
  obtain ⟨c, x, y, rfl, rfl, hsteps⟩ := stepsBetween_eq p q
  rw [hsteps, walk_append, walk_replicate_up,
    walk_names fun b hb => hq b (List.mem_append_right _ hb)]

theorem arePlain_stepsBetween {p q : List Bytes} (hq : ∀ c ∈ q, IsName c) :
    ArePlain false (stepsBetween p q) := by
  obtain ⟨c, x, y, rfl, rfl, hsteps⟩ := stepsBetween_eq p q
  exact ⟨⟨x.length, y, hsteps, fun b hb => hq b (List.mem_append_right _ hb), nofun⟩⟩

/-! ## §3 Open ways -/

namespace Disk

variable {d d' : Disk} {t dir input : Bytes} {p q l : List Bytes}

/-- A place that can be reached: it lies in directories. -/
structure Reached (d : Disk) (q : List Bytes) : Prop where
  entries : ∀ c ∈ q, IsEntry c
  directories : ∀ p, p <+: q → p ≠ q → d.tree.get? p = some .directory

theorem reached_of_directories (hentries : ∀ c ∈ q, IsEntry c)
    (h : ∀ p, p <+: q → d.tree.get? p = some .directory) : d.Reached q :=
  ⟨hentries, fun p hp _ => h p hp⟩

theorem Reached.initial (h : d.Reached q) (hp : p <+: q) : d.Reached p where
  entries c hc := h.entries c (hp.subset hc)
  directories r hr hne := by
    refine h.directories r (hr.trans hp) fun heq => hne ?_
    exact hr.eq_of_length_le (heq ▸ hp.length_le)

/-- Where a way is open, it leads to places that can be reached. -/
theorem Reached.follow (h : d.Reached p) (hl : ∀ c ∈ l, separator ∉ c ∧ 0 ∉ c)
    (hfollow : follow d.tree p l = .ok q) : d.Reached q := by
  induction l generalizing p with
  | nil => exact Except.ok.inj hfollow ▸ h
  | cons c r ih =>
    obtain ⟨⟨hslash, hzero⟩, hr⟩ := List.forall_mem_cons.mp hl
    have hget := get?_of_follow_cons hfollow
    rw [Disk.follow, hget] at hfollow
    dsimp only at hfollow
    split_ifs at hfollow with hself hup hlong
    · exact ih h hr hfollow
    · exact ih (h.initial (List.dropLast_prefix p)) hr hfollow
    · -- a step down from a directory
      simp only [Bool.or_eq_true, List.isEmpty_iff, beq_iff_eq, not_or] at hself
      have hc : IsEntry c := ⟨⟨hself.1, hself.2, by simpa using hup, hslash⟩, hzero, by omega⟩
      refine ih ⟨?_, fun x hx hne => ?_⟩ hr hfollow
      · exact List.forall_mem_append.mpr ⟨h.entries, by simpa using hc⟩
      · obtain hx | hx := List.prefix_concat_iff.mp hx
        · exact absurd hx hne
        · obtain rfl | hne := eq_or_ne x p
          · exact hget
          · exact h.directories x hx hne

theorem Settled.reached_start (h : d.Settled) (t : Bytes) : d.Reached (d.start t) := by
  refine reached_of_directories (fun c hc => ?_) fun p hp => h.start t hp
  rw [Disk.start] at hc
  split at hc
  · cases hc
  · exact h.entries c hc

/-- What is found can be reached. -/
theorem Settled.reached_of_find (h : d.Settled) (hfind : d.find t = .ok q) : d.Reached q := by
  obtain ⟨-, hzero, hfollow⟩ := find_eq_ok_iff.mp hfind
  exact (h.reached_start t).follow (fun c hc => ⟨Bytes.not_mem_of_mem_split hc,
    fun hmem => hzero (Bytes.mem_of_mem_split hc hmem)⟩) hfollow

/-- Names lead down to a place that can be reached. -/
theorem Reached.follow_names {names : List Bytes} (h : d.Reached (p ++ names)) :
    Disk.follow d.tree p names = .ok (p ++ names) := by
  induction names generalizing p with
  | nil => simp [Disk.follow]
  | cons c r ih =>
    have hc := h.entries c (by simp)
    have hget := h.directories p (List.prefix_append ..) (by simp)
    -- each name is one that a directory may hold
    have hlong : ¬ maxName < c.length := Nat.not_lt.mpr hc.short
    rw [Disk.follow, hget]
    simp only [List.isEmpty_iff, hc.nonempty, hc.notSelf, hc.notUp, hlong, Bool.or_eq_true,
      beq_iff_eq, or_self, if_false]
    rw [List.append_cons] at h
    rw [ih h, ← List.append_cons]

/-- Steps up lead from directories to directories. -/
theorem follow_replicate_up (h : ∀ r, r <+: p → d.tree.get? r = some .directory) (n : Nat) :
    ∃ r, r <+: p ∧ Disk.follow d.tree p (List.replicate n up) = .ok r := by
  induction n generalizing p with
  | zero => exact ⟨p, List.prefix_refl p, rfl⟩
  | succ n ih =>
    have hget := h p (List.prefix_refl p)
    -- one step up leaves the last name off
    have hstep : Disk.follow d.tree p (up :: List.replicate n up)
        = Disk.follow d.tree p.dropLast (List.replicate n up) := by
      rw [Disk.follow, hget]
      rfl
    obtain ⟨r, hr, hfollow⟩ := ih fun r hr => h r (hr.trans (List.dropLast_prefix p))
    exact ⟨r, hr.trans (List.dropLast_prefix p), hstep.trans hfollow⟩

/-! ## §4 Finding a file again -/

/-- A plain path to a place that can be reached is open. -/
theorem Settled.find_text {rooted : Bool} {parts : List Bytes} (h : d.Settled)
    (hplain : ArePlain rooted parts) (hne : parts ≠ []) (hq : d.Reached q)
    (hwalk : walk (if rooted then [] else d.cwd) parts = q) :
    d.find (Path.text ⟨rooted, parts⟩) = .ok q := by
  -- the start of the walk, and all directories above it, are there
  have hstart : ∀ r, r <+: (if rooted then [] else d.cwd) → d.tree.get? r = some .directory := by
    intro r hr
    cases rooted with
    | true =>
      rw [List.prefix_nil.mp hr]
      exact Tree.get?_root _
    | false => exact h.directories r hr
  obtain ⟨n, names, rfl, hnames, hn⟩ := hplain.exists_names
  obtain ⟨r, hr, hups⟩ := follow_replicate_up hstart n
  -- some steps up, and then names
  have hrest : q = r ++ names := by
    rw [← hwalk, walk_append, ← eq_walk_of_follow hups, walk_names hnames]
  subst hrest
  refine (Disk.find_text hplain hne).mpr ⟨?_, follow_append_eq_ok_iff.mpr ⟨r, hups,
    hq.follow_names⟩⟩
  obtain ⟨c, l, hparts⟩ := List.exists_cons_of_ne_nil hne
  -- no part of the text holds a zero byte, so the path can be asked for
  have hnonzero : ∀ b ∈ (if rooted then [[]] else []) ++ (List.replicate n up ++ names),
      ∀ x ∈ b, x ≠ 0 := by
    rintro b hb x hx rfl
    obtain rfl | rfl | hb : b = [] ∨ b = up ∨ b ∈ names := by
      cases rooted <;> simp at hb <;> tauto
    · cases hx
    · exact absurd hx (by decide)
    · exact (hq.entries b (List.mem_append_right _ hb)).noZero hx
  rw [hparts, text_cons, ← hparts]
  have hsep : ∀ x ∈ [separator], x ≠ 0 := by simp [separator]
  have hall := Bytes.forall_mem_join (P := fun x => x ≠ 0) hsep hnonzero
  exact fun hzero => hall 0 hzero rfl

theorem Settled.relativeText_ne_nil (h : d.Settled) (hfind : d.find input = .ok q)
    (p : List Bytes) : relativeText p (absolute d.cwd input) ≠ [] := by
  have hreached := h.reached_of_find hfind
  rw [h.absolute_eq, ← eq_place_of_find hfind]
  exact text_ne_nil (arePlain_stepsBetween fun c hc => (hreached.entries c hc).toIsName)

section

variable (h : d.Settled) (hdir : d.tree.get? (d.place dir) = some .directory)
  (hfind : d.find input = .ok q) (hfile : d.tree.get? q ≠ some .directory)

include h hdir hfind hfile

/-- The text of the steps from a directory to a file is read as these steps. -/
theorem Settled.ofText_relativeText :
    Path.ofText (relativeText (absolute d.cwd dir) (absolute d.cwd input))
      = ⟨false, stepsBetween (d.place dir) q⟩ := by
  have hnames : ∀ c ∈ q, IsName c := fun c hc => ((h.reached_of_find hfind).entries c hc).toIsName
  obtain rfl := eq_place_of_find hfind
  -- without a step the file would be the directory
  have hne : stepsBetween (d.place dir) (d.place input) ≠ [] := by
    intro hnil
    have hwalk := walk_stepsBetween (p := d.place dir) hnames
    rw [hnil, walk_nil] at hwalk
    exact hfile (hwalk ▸ hdir)
  rw [relativeText, h.absolute_eq, h.absolute_eq, ofText_text (arePlain_stepsBetween hnames) hne]
  rfl

/-- The path from a directory to a file, seen from where the directory is seen, leads to the
file. -/
theorem Settled.find_relative (hne : dir ≠ []) :
    d.find (joinTexts [dir, relativeText (absolute d.cwd dir) (absolute d.cwd input)]) = .ok q := by
  have hreached := h.reached_of_find hfind
  have hnames : ∀ c ∈ q, IsName c := fun c hc => (hreached.entries c hc).toIsName
  have htext := h.ofText_relativeText hdir hfind hfile
  have hrel := h.relativeText_ne_nil hfind (absolute d.cwd dir)
  generalize relativeText (absolute d.cwd dir) (absolute d.cwd input) = rel at htext hrel ⊢
  have hsplit : Bytes.split separator rel = stepsBetween (d.place dir) q :=
    congrArg Path.parts htext
  have hplain := arePlain_plainParts dir
  have hsteps : ∀ c ∈ Bytes.split separator rel, separator ∉ c :=
    fun c hc => Bytes.not_mem_of_mem_split hc
  rw [← List.reverse_reverse (plainParts dir)] at hplain
  have hwalk : walk (d.start dir) ((Bytes.split separator rel).foldl (Path.push (isRooted dir))
      (plainParts dir).reverse).reverse = q := by
    rw [walk_foldl_push (d.start_eq_nil) hplain hsteps, List.reverse_reverse,
      ← d.place_eq_walk_plainParts dir, hsplit, walk_stepsBetween hnames]
  rw [joinTexts_pair hne hrel, plainText_append_cons hne]
  refine h.find_text (hplain.foldl_push hsteps) (fun hnil => ?_) hreached hwalk
  -- a file is not where paths start
  rw [hnil, walk_nil] at hwalk
  exact hfile (hwalk ▸ h.start dir (List.prefix_refl _))

end

end Disk

end Idl.Files
