import Idl.Proofs.Files.Walk

/-!
# Changes of a disk

What becomes of a disk when directories are made, and files are written or removed: what is done,
and what stays as it was. Each change happens at the place that the text of a path leads to.

* §1 finding again, §2 what stays, §3 single changes, §4 the directories above a path,
* §5 below a directory.
-/

namespace Idl.Files.Disk

variable {d d' d'' : Disk} {t dir content : Bytes}

/-! ## §1 Finding again -/

/-- Directories stay directories and files stay files. -/
structure Grows (d d' : Disk) : Prop where
  cwd : d'.cwd = d.cwd
  directory : ∀ x, d.tree.get? x = some .directory → d'.tree.get? x = some .directory
  file : ∀ x c, d.tree.get? x = some (.file c) → ∃ c', d'.tree.get? x = some (.file c')

/-- A disk that does not change. -/
theorem Grows.refl (d : Disk) : Grows d d := ⟨rfl, fun _ h => h, fun _ c h => ⟨c, h⟩⟩

/-- One change after another. -/
theorem Grows.trans (h : Grows d d') (h' : Grows d' d'') : Grows d d'' where
  cwd := h'.cwd.trans h.cwd
  directory x hx := h'.directory x (h.directory x hx)
  file x c hx := by
    obtain ⟨c', hc'⟩ := h.file x c hx
    exact h'.file x c' hc'

/-- Paths start at the same place. -/
theorem Grows.start (h : Grows d d') (t : Bytes) : d'.start t = d.start t := by
  rw [Disk.start, Disk.start, h.cwd]

/-- And lead to the same place. -/
theorem Grows.place (h : Grows d d') (t : Bytes) : d'.place t = d.place t := by
  rw [Disk.place, Disk.place, h.start]

/-- What is found is found again. -/
theorem Grows.find {p : List Bytes} (h : Grows d d') (hfind : d.find t = .ok p) :
    d'.find t = .ok p := by
  obtain ⟨hne, hzero, hfollow⟩ := find_eq_ok_iff.mp hfind
  exact find_eq_ok_iff.mpr ⟨hne, hzero, (h.start t).symm ▸ follow_mono h.directory hfollow⟩

/-- To look something up is to find its place and to see what stands there. -/
theorem look_eq_ok_iff {n : Node} :
    d.look t = .ok n ↔ d.find t = .ok (d.place t) ∧ d.tree.get? (d.place t) = some n := by
  unfold look
  cases hfind : d.find t with
  | error f => simp [bind, Except.bind]
  | ok p =>
    obtain rfl := eq_place_of_find hfind
    cases hget : d.tree.get? (d.place t) with
    | none => simp [bind, Except.bind, hget, throw, throwThe, MonadExceptOf.throw]
    | some m => simp [bind, Except.bind, hget, pure, Except.pure]

/-- A directory is found, and stands at its place. -/
theorem isDirectory_iff :
    d.isDirectory t = true ↔
      d.find t = .ok (d.place t) ∧ d.tree.get? (d.place t) = some .directory := by
  rw [← look_eq_ok_iff, isDirectory]
  split <;> simp_all

/-- Directories are found again. -/
theorem Grows.isDirectory (h : Grows d d') (hdir : d.isDirectory t = true) :
    d'.isDirectory t = true := by
  obtain ⟨hfind, hget⟩ := isDirectory_iff.mp hdir
  exact isDirectory_iff.mpr ⟨h.place t ▸ h.find hfind, h.place t ▸ h.directory _ hget⟩

/-- Only a file can be read. -/
theorem read_eq_ok_iff : d.read t = .ok content ↔ d.look t = .ok (.file content) := by
  rw [read]
  split <;> simp_all

/-! ## §2 What stays -/

/-- Only some places change. -/
structure Within (S : List Bytes → Prop) (d d' : Disk) : Prop where
  cwd : d'.cwd = d.cwd
  get? : ∀ x, ¬ S x → d'.tree.get? x = d.tree.get? x

/-- Only some places have other files. -/
def FilesWithin (F : List Bytes → Prop) (d d' : Disk) : Prop :=
  ∀ x, ¬ F x → ∀ c, d'.tree.get? x = some (.file c) ↔ d.tree.get? x = some (.file c)

variable {S S' F F' : List Bytes → Prop}

/-- A disk that does not change. -/
theorem Within.refl (S : List Bytes → Prop) (d : Disk) : Within S d d := ⟨rfl, fun _ _ => rfl⟩

/-- One change after another. -/
theorem Within.trans (h : Within S d d') (h' : Within S d' d'') : Within S d d'' :=
  ⟨h'.cwd.trans h.cwd, fun x hx => (h'.get? x hx).trans (h.get? x hx)⟩

/-- More places may change. -/
theorem Within.mono (h : Within S d d') (hS : ∀ x, S x → S' x) : Within S' d d' :=
  ⟨h.cwd, fun x hx => h.get? x fun hs => hx (hS x hs)⟩

/-- Paths lead to the same place. -/
theorem Within.place (h : Within S d d') (t : Bytes) : d'.place t = d.place t := by
  simp only [Disk.place, Disk.start, h.cwd]

/-- Where nothing changes, files do not. -/
theorem Within.filesWithin (h : Within S d d') : FilesWithin S d d' :=
  fun x hx c => by rw [h.get? x hx]

/-- A disk that does not change. -/
theorem FilesWithin.refl (F : List Bytes → Prop) (d : Disk) : FilesWithin F d d :=
  fun _ _ _ => .rfl

/-- One change after another. -/
theorem FilesWithin.trans (h : FilesWithin F d d') (h' : FilesWithin F d' d'') :
    FilesWithin F d d'' := fun x hx c => (h' x hx c).trans (h x hx c)

/-- More places may have other files. -/
theorem FilesWithin.mono (h : FilesWithin F d d') (hF : ∀ x, F x → F' x) : FilesWithin F' d d' :=
  fun x hx => h x fun hf => hx (hF x hf)

/-! ## §3 Single changes -/

/-- Puts something at a place. -/
def put (d : Disk) (p : List Bytes) (n : Node) : Disk := { d with tree := d.tree.put p n }

/-- Takes away what stands at a place. -/
def erase (d : Disk) (p : List Bytes) : Disk := { d with tree := d.tree.erase p }

/-- Only the place itself is another. -/
theorem within_put (d : Disk) (p : List Bytes) (n : Node) : Within (· = p) d (d.put p n) :=
  ⟨rfl, fun _ hx => Tree.get?_put_of_ne _ _ hx⟩

/-- The same when something is taken away. -/
theorem within_erase (d : Disk) (p : List Bytes) : Within (· = p) d (d.erase p) :=
  ⟨rfl, fun _ hx => Tree.get?_erase_of_ne _ hx⟩

/-- A place for which there is nothing, or a file, is not the root. -/
theorem ne_nil_of_get? {tree : Tree} {p : List Bytes} (h : tree.get? p ≠ some .directory) :
    p ≠ [] := by
  rintro rfl
  exact h (Tree.get?_root _)

/-- What was put at a place stands there, unless it was the root. -/
theorem get?_put_self (d : Disk) {p : List Bytes} (h : d.tree.get? p ≠ some .directory) (n : Node) :
    (d.put p n).tree.get? p = some n := Tree.get?_put_self _ _ (ne_nil_of_get? h)

/-- The directory is there, or is made where nothing is. -/
theorem makeDirectory_eq_ok_iff : d.makeDirectory t = .ok d' ↔ d.find t = .ok (d.place t)
    ∧ ((d.tree.get? (d.place t) = some .directory ∧ d' = d)
      ∨ (d.tree.get? (d.place t) = none ∧ d' = d.put (d.place t) .directory)) := by
  rw [makeDirectory]
  cases hfind : d.find t with
  | error f => simp
  | ok p =>
    obtain rfl := eq_place_of_find hfind
    rcases hget : d.tree.get? (d.place t) with _ | _ | c <;> simp [hget, put, eq_comm (a := d')]

/-- To make a directory takes nothing away. -/
theorem grows_of_makeDirectory (h : d.makeDirectory t = .ok d') : Grows d d' := by
  rw [makeDirectory_eq_ok_iff] at h
  obtain ⟨-, ⟨-, rfl⟩ | ⟨hnone, rfl⟩⟩ := h
  · exact .refl _
  · have hne {x : List Bytes} {n : Node} (hx : d.tree.get? x = some n) : x ≠ d.place t := by
      rintro rfl
      simp [hnone] at hx
    refine ⟨rfl, fun x hx => ?_, fun x c hx => ⟨c, ?_⟩⟩
    · exact ((within_put d _ _).get? x (hne hx)).trans hx
    · exact ((within_put d _ _).get? x (hne hx)).trans hx

/-- The directory made is there. -/
theorem isDirectory_of_makeDirectory (h : d.makeDirectory t = .ok d') :
    d'.isDirectory t = true := by
  have hgrows := grows_of_makeDirectory h
  rw [makeDirectory_eq_ok_iff] at h
  obtain ⟨hfind, hcases⟩ := h
  refine isDirectory_iff.mpr ⟨hgrows.place t ▸ hgrows.find hfind, hgrows.place t ▸ ?_⟩
  obtain ⟨hget, rfl⟩ | ⟨hnone, rfl⟩ := hcases
  · exact hget
  · exact get?_put_self d (by simp [hnone]) _

/-- It can only be made where nothing was. -/
theorem within_of_makeDirectory (h : d.makeDirectory t = .ok d') :
    Within (fun x => x = d.place t ∧ d.tree.get? x = none) d d' := by
  rw [makeDirectory_eq_ok_iff] at h
  obtain ⟨-, ⟨-, rfl⟩ | ⟨hnone, rfl⟩⟩ := h
  · exact .refl _ _
  · exact (within_put d _ _).mono fun x hx => ⟨hx, hx ▸ hnone⟩

/-- Making a directory leaves all files as they are. -/
theorem filesWithin_of_makeDirectory (h : d.makeDirectory t = .ok d') :
    FilesWithin (fun _ => False) d d' := by
  rw [makeDirectory_eq_ok_iff] at h
  obtain ⟨-, ⟨-, rfl⟩ | ⟨hnone, rfl⟩⟩ := h
  · exact .refl _ _
  · intro x _ c
    by_cases hx : x = d.place t
    · rw [hx, hnone, get?_put_self d (by simp [hnone])]
      simp
    · rw [(within_put d _ _).get? x hx]

/-- A directory that is there already is left alone. -/
theorem makeDirectory_of_isDirectory (h : d.isDirectory t = true) :
    d.makeDirectory t = .ok d := by
  obtain ⟨hfind, hget⟩ := isDirectory_iff.mp h
  exact makeDirectory_eq_ok_iff.mpr ⟨hfind, .inl ⟨hget, rfl⟩⟩

/-- A file is written where there is no directory. -/
theorem write_eq_ok_iff : d.write t content = .ok d' ↔
    Bytes.dropTailWhile (· == separator) t = t ∧ d.find t = .ok (d.place t)
      ∧ d.tree.get? (d.place t) ≠ some .directory ∧ d' = d.put (d.place t) (.file content) := by
  rw [write]
  -- a path with a separator at its end names a directory and cannot be written
  by_cases htrim : Bytes.dropTailWhile (· == separator) t = t
  · simp only [htrim, ite_self, true_and]
    cases hfind : d.find t with
    | error f => simp
    | ok p =>
      obtain rfl := eq_place_of_find hfind
      rcases hget : d.tree.get? (d.place t) with _ | _ | c <;> simp [hget, put, eq_comm (a := d')]
  · simp only [htrim, false_and, iff_false]
    split
    · simp
    · split <;> simp [htrim]

/-- A file is written over a file or where nothing was. -/
theorem grows_of_write (h : d.write t content = .ok d') : Grows d d' := by
  rw [write_eq_ok_iff] at h
  obtain ⟨-, -, hget, rfl⟩ := h
  refine ⟨rfl, fun x hx => ?_, fun x c hx => ?_⟩
  · have hne : x ≠ d.place t := fun heq => hget (heq ▸ hx)
    exact ((within_put d _ _).get? x hne).trans hx
  · by_cases heq : x = d.place t
    · exact ⟨content, heq ▸ get?_put_self d hget _⟩
    · exact ⟨c, ((within_put d _ _).get? x heq).trans hx⟩

/-- The content written stands at the place. -/
theorem get?_of_write (h : d.write t content = .ok d') :
    d'.tree.get? (d.place t) = some (.file content) := by
  rw [write_eq_ok_iff] at h
  obtain ⟨-, -, hget, rfl⟩ := h
  exact get?_put_self d hget _

/-- Nothing else changes. -/
theorem within_of_write (h : d.write t content = .ok d') : Within (· = d.place t) d d' := by
  rw [write_eq_ok_iff] at h
  obtain ⟨-, -, -, rfl⟩ := h
  exact within_put d _ _

/-- What was written is read back. -/
theorem read_of_write (h : d.write t content = .ok d') : d'.read t = .ok content := by
  have hgrows := grows_of_write h
  refine read_eq_ok_iff.mpr (look_eq_ok_iff.mpr ?_)
  rw [hgrows.place t]
  exact ⟨hgrows.find (write_eq_ok_iff.mp h).2.1, get?_of_write h⟩

/-- What has been written can be written again after more has been written. -/
theorem write_again (h : d.write t content = .ok d') (hgrows : Grows d' d'') :
    d''.write t content = .ok (d''.put (d.place t) (.file content)) := by
  have hall := (grows_of_write h).trans hgrows
  obtain ⟨htrim, hfind, -⟩ := write_eq_ok_iff.mp h
  obtain ⟨c, hc⟩ := hgrows.file _ _ (get?_of_write h)
  refine write_eq_ok_iff.mpr ⟨htrim, ?_, ?_, ?_⟩
  · rw [hall.place]
    exact hall.find hfind
  · rw [hall.place, hc]
    simp
  · rw [hall.place]

/-- To remove something it has to be there, and a directory has to be empty. -/
theorem remove_eq_ok_iff : d.remove t = .ok d' ↔ d.find t = .ok (d.place t)
    ∧ d.tree.get? (d.place t) ≠ none ∧ (d.tree.get? (d.place t) = some .directory →
      d.tree.isInhabited (d.place t) = false) ∧ d' = d.erase (d.place t) := by
  rw [remove]
  cases hfind : d.find t with
  | error f => simp
  | ok p =>
    obtain rfl := eq_place_of_find hfind
    -- nothing there, a directory, a file
    rcases hget : d.tree.get? (d.place t) with _ | _ | c
    · simp [hget]
    · cases hinhabited : d.tree.isInhabited (d.place t) <;>
        simp [hget, erase, hinhabited, eq_comm (a := d')]
    · simp [hget, erase, eq_comm (a := d')]

/-- What cannot be removed because it is missing is not there. -/
theorem look_of_remove_eq_missing {e : Error} (h : d.remove t = .error e) (he : e.fault = .missing)
    (n : Node) : d.look t ≠ .ok n := by
  intro hlook
  obtain ⟨hfind, hget⟩ := look_eq_ok_iff.mp hlook
  rw [remove, hfind] at h
  simp only [hget] at h
  cases n with
  -- an inhabited directory is refused for another reason
  | directory =>
    dsimp only at h
    split_ifs at h
    cases h
    cases he
  | file c => cases h

/-- What is there after a change that makes no directory and nothing where a text leads was there
before. -/
theorem look_of_look {n : Node} (hcwd : d'.cwd = d.cwd)
    (hdir : ∀ x, d'.tree.get? x = some .directory → d.tree.get? x = some .directory)
    (hplace : d'.tree.get? (d.place t) = some n → d.tree.get? (d.place t) = some n)
    (h : d'.look t = .ok n) : d.look t = .ok n := by
  obtain ⟨hfind, hget⟩ := look_eq_ok_iff.mp h
  have hstart : d'.start t = d.start t := by rw [Disk.start, Disk.start, hcwd]
  have hsame : d'.place t = d.place t := by rw [Disk.place, Disk.place, hstart]
  obtain ⟨hne, hzero, hfollow⟩ := find_eq_ok_iff.mp hfind
  -- the same way is followed in both trees, through directories that were there before
  rw [hsame] at hget hfollow
  rw [hstart] at hfollow
  exact look_eq_ok_iff.mpr
    ⟨find_eq_ok_iff.mpr ⟨hne, hzero, follow_mono hdir hfollow⟩, hplace hget⟩

/-- Nothing new is there. -/
structure Shrinks (d d' : Disk) : Prop where
  cwd : d'.cwd = d.cwd
  get? : ∀ x n, d'.tree.get? x = some n → d.tree.get? x = some n

/-- A disk that does not change. -/
theorem Shrinks.refl (d : Disk) : Shrinks d d := ⟨rfl, fun _ _ h => h⟩

/-- One change after another. -/
theorem Shrinks.trans (h : Shrinks d d') (h' : Shrinks d' d'') : Shrinks d d'' :=
  ⟨h'.cwd.trans h.cwd, fun x n hx => h.get? x n (h'.get? x n hx)⟩

/-- What is found afterwards was there before. -/
theorem Shrinks.look {n : Node} (h : Shrinks d d') (hlook : d'.look t = .ok n) :
    d.look t = .ok n := look_of_look h.cwd (fun x => h.get? x _) (h.get? _ n) hlook

/-- To take something away adds nothing. -/
theorem shrinks_erase (d : Disk) (p : List Bytes) : Shrinks d (d.erase p) := by
  refine ⟨rfl, fun x n hx => ?_⟩
  by_cases hne : x = p
  · subst hne
    obtain rfl | hroot := eq_or_ne x []
    · rwa [erase, Tree.get?_root] at hx
    · rw [erase, Tree.get?_erase_self _ hroot] at hx
      cases hx
  · exact ((within_erase d p).get? x hne).symm.trans hx

/-! ## §4 The directories above a path -/

/-- The ancestry of a path: its initial parts that end in a name, joined again. -/
theorem mem_ancestry_iff {p : Bytes} : p ∈ ancestry t ↔ ∃ l c,
    (l ++ [c]) <+: Bytes.split separator t ∧ c ≠ [] ∧ p = Bytes.join [separator] (l ++ [c]) := by
  -- a text that ends in an empty component is empty or ends in a separator
  have hends {l : List Bytes} {c : Bytes} (hc : separator ∉ c) :
      let t := Bytes.join [separator] (l ++ [c])
      (!(t.isEmpty || Bytes.endsWith t [separator])) = true ↔ c ≠ [] := by
    have htail (a : Bytes) (ha : a = [] ∨ ∃ b, a = b ++ [separator]) :
        (!((a ++ c).isEmpty || Bytes.endsWith (a ++ c) [separator])) = true ↔ c ≠ [] := by
      obtain rfl | ⟨r, x, rfl⟩ := c.eq_nil_or_concat'
      · obtain rfl | ⟨b, rfl⟩ := ha <;> simp [Bytes.endsWith]
      · have hx : ¬ separator = x := fun heq => hc (by simp [heq])
        have hsuffix : ([separator] : Bytes).isSuffixOf (a ++ (r ++ [x])) = false := by
          rw [Bool.eq_false_iff, ne_eq, List.isSuffixOf_iff_suffix, ← List.append_assoc]
          rintro ⟨b, hb⟩
          exact hx (by simpa using (List.append_inj' hb rfl).2)
        simp [Bytes.endsWith, hsuffix]
    obtain rfl | hl := eq_or_ne l []
    · simpa using htail [] (.inl rfl)
    · have hjoin := @Bytes.join_append separator _ _ hl (List.cons_ne_nil c [])
      rw [Bytes.join_singleton] at hjoin
      have := htail (Bytes.join [separator] l ++ [separator]) (.inr ⟨_, rfl⟩)
      simpa [hjoin] using this
  have hparts {l : List Bytes} {c : Bytes} (h : (l ++ [c]) <+: Bytes.split separator t) :
      separator ∉ c := Bytes.not_mem_of_mem_split (h.subset (by simp))
  simp only [ancestry, List.mem_filter, List.mem_map, List.mem_range]
  constructor
  · rintro ⟨⟨n, hn, rfl⟩, hkept⟩
    obtain ⟨l, c, hlc⟩ := List.eq_nil_or_concat'
      ((Bytes.split separator t).take (n + 1)) |>.resolve_left (by simp [Bytes.split_ne_nil])
    have hinitial : (l ++ [c]) <+: Bytes.split separator t := hlc ▸ List.take_prefix ..
    rw [hlc] at hkept ⊢
    exact ⟨l, c, hinitial, (hends (hparts hinitial)).mp hkept, rfl⟩
  · rintro ⟨l, c, hinitial, hc, rfl⟩
    refine ⟨⟨l.length, ?_, ?_⟩, (hends (hparts hinitial)).mpr hc⟩
    · have hle := hinitial.length_le
      rw [List.length_append, List.length_singleton] at hle
      exact Nat.lt_of_succ_le hle
    · conv_rhs => rw [List.prefix_iff_eq_take.mp hinitial]
      simp

/-- Directories are made from the outside inwards, and those that are there stay as they are. -/
theorem makeDirectories_induct {l : List Bytes} {P : Disk → Disk → Prop} (hrefl : ∀ d, P d d)
    (htrans : ∀ d d' d'', P d d' → P d' d'' → P d d'')
    (hstep : ∀ d d' p, p ∈ l → d.makeDirectory p = .ok d' → P d d')
    (h : l.foldlM makeDirectory d = .ok d') : P d d' := by
  induction l generalizing d with
  | nil =>
    cases h
    exact hrefl _
  -- the first directory, then the others from the disk it leaves
  | cons p r ih =>
    rw [List.foldlM_cons] at h
    cases hp : d.makeDirectory p with
    | error e =>
      rw [hp] at h
      cases h
    | ok m =>
      rw [hp] at h
      exact htrans _ _ _ (hstep d m p (List.mem_cons_self ..) hp)
        (ih (fun d d' q hq => hstep d d' q (List.mem_cons_of_mem _ hq)) h)

/-- To make directories takes nothing away. -/
theorem grows_of_makeDirectories (h : d.makeDirectories t = .ok d') : Grows d d' :=
  makeDirectories_induct .refl (fun _ _ _ => .trans) (fun _ _ _ _ => grows_of_makeDirectory) h

/-- And touches no file. -/
theorem filesWithin_of_makeDirectories (h : d.makeDirectories t = .ok d') :
    FilesWithin (fun _ => False) d d' :=
  makeDirectories_induct (.refl _) (fun _ _ _ => .trans)
    (fun _ _ _ _ => filesWithin_of_makeDirectory) h

/-- All directories above a path are there when they have been made. -/
theorem isDirectory_of_mem_ancestry (h : d.makeDirectories t = .ok d') :
    ∀ p ∈ ancestry t, d'.isDirectory p = true := by
  rw [makeDirectories] at h
  generalize ancestry t = l at h
  induction l generalizing d with
  | nil => simp
  | cons p r ih =>
    rw [List.foldlM_cons] at h
    cases hp : d.makeDirectory p with
    | error e =>
      rw [hp] at h
      cases h
    | ok m =>
      rw [hp] at h
      -- what was made first stays while the others are made
      have hgrows : Grows m d' := makeDirectories_induct .refl (fun _ _ _ => .trans)
        (fun _ _ _ _ => grows_of_makeDirectory) h
      exact List.forall_mem_cons.mpr
        ⟨hgrows.isDirectory (isDirectory_of_makeDirectory hp), ih h⟩

/-- Directories that are all there are left alone. -/
theorem makeDirectories_of_isDirectory (h : ∀ p ∈ ancestry t, d.isDirectory p = true) :
    d.makeDirectories t = .ok d := by
  rw [makeDirectories]
  generalize ancestry t = l at h
  induction l with
  | nil => rfl
  | cons p r ih =>
    obtain ⟨hp, hr⟩ := List.forall_mem_cons.mp h
    rw [List.foldlM_cons, makeDirectory_of_isDirectory hp]
    exact ih hr

/-- Directories have been made where nothing was, at the places of some paths. -/
structure MadeAt (l : List Bytes) (d d' : Disk) : Prop where
  cwd : d'.cwd = d.cwd
  get? : ∀ x, d'.tree.get? x = d.tree.get? x ∨
    d.tree.get? x = none ∧ d'.tree.get? x = some .directory ∧ ∃ p ∈ l, x = d.place p

/-- A disk that does not change. -/
theorem MadeAt.refl (l : List Bytes) (d : Disk) : MadeAt l d d := ⟨rfl, fun _ => .inl rfl⟩

/-- One change after another. -/
theorem MadeAt.trans {l : List Bytes} (h : MadeAt l d d') (h' : MadeAt l d' d'') :
    MadeAt l d d'' := by
  have hplace (t : Bytes) : d'.place t = d.place t := by simp only [Disk.place, Disk.start, h.cwd]
  refine ⟨h'.cwd.trans h.cwd, fun x => ?_⟩
  obtain hfirst | ⟨hnone, hmade, hmem⟩ := h.get? x
  · obtain hsecond | ⟨hnone, hmade, p, hp, hx⟩ := h'.get? x
    · exact .inl (hsecond.trans hfirst)
    · exact .inr ⟨hfirst ▸ hnone, hmade, p, hp, hx.trans (hplace p)⟩
  · obtain hsecond | ⟨hnone', -⟩ := h'.get? x
    · exact .inr ⟨hnone, hsecond.trans hmade, hmem⟩
    · simp [hmade] at hnone'

/-- A directory made at one of the paths. -/
theorem madeAt_of_makeDirectory {l : List Bytes} {p : Bytes} (hp : p ∈ l)
    (h : d.makeDirectory p = .ok d') : MadeAt l d d' := by
  obtain ⟨-, ⟨-, rfl⟩ | ⟨hnone, rfl⟩⟩ := makeDirectory_eq_ok_iff.mp h
  · exact .refl _ _
  · refine ⟨rfl, fun x => ?_⟩
    by_cases hx : x = d.place p
    · subst hx
      exact .inr ⟨hnone, get?_put_self d (by simp [hnone]) _, p, hp, rfl⟩
    · exact .inl ((within_put d _ _).get? x hx)

/-! ## §5 Below a directory -/

/-- A directory stands where the plain form of a text leads. -/
structure Stands (d : Disk) (dir : Bytes) : Prop where
  follow : follow d.tree (d.start dir) (plainParts dir) = .ok (d.place dir)
  directory : d.tree.get? (d.place dir) = some .directory

/-- What is found as a directory stands there. -/
theorem stands_of_isDirectory (h : d.isDirectory dir = true) : d.Stands dir := by
  obtain ⟨hfind, hget⟩ := isDirectory_iff.mp h
  exact ⟨follow_plainParts (find_eq_ok_iff.mp hfind).2.2, hget⟩

/-- A directory that stands stays. -/
theorem Grows.stands (h : Grows d d') (hstands : d.Stands dir) : d'.Stands dir where
  follow := by
    rw [h.start, h.place]
    exact follow_mono h.directory hstands.follow
  directory := h.place dir ▸ h.directory _ hstands.directory

/-- On the way to a directory there are directories. -/
theorem Stands.get?_on_way (h : d.Stands dir) {initial : List Bytes}
    (hinitial : initial <+: plainParts dir) :
    d.tree.get? (walk (d.start dir) initial) = some .directory := by
  obtain ⟨rest, hrest⟩ := hinitial
  have hfollow := h.follow
  rw [← hrest] at hfollow
  obtain ⟨m, hm, hmore⟩ := follow_append_eq_ok_iff.mp hfollow
  cases rest with
  -- the whole way: the directory itself
  | nil =>
    have hplace : d.place dir = walk (d.start dir) initial := by
      rw [place_eq_walk_plainParts, ← hrest, List.append_nil]
    exact hplace ▸ h.directory
  -- a part of the way: it has been passed through
  | cons c r => exact eq_walk_of_follow hm ▸ get?_of_follow_cons hmore

section

variable {names : List Bytes} {p : Bytes}

/-- What lies above something below a directory is the directory with what lies above it, or lies
below the directory. -/
theorem exists_of_mem_ancestry_text {rooted : Bool} {parts : List Bytes}
    (h : ArePlain rooted parts) (hne : parts ≠ []) (hp : p ∈ ancestry (Path.text ⟨rooted, parts⟩)) :
    ∃ initial, initial ≠ [] ∧ initial <+: parts ∧ p = Path.text ⟨rooted, initial⟩ := by
  obtain ⟨l, c, hinitial, hc, rfl⟩ := mem_ancestry_iff.mp hp
  rw [split_text h hne] at hinitial
  cases rooted with
  -- a relative path: each initial part is written as it is
  | false =>
    refine ⟨l ++ [c], by simp, hinitial, ?_⟩
    cases l <;> simp [Path.text]
  -- a rooted path has an empty first part, which stands for the root
  | true =>
    cases l with
    | nil => simp_all
    | cons b l =>
      simp only [if_true, List.cons_append, List.nil_append, List.cons_prefix_cons] at hinitial
      obtain ⟨rfl, hinitial⟩ := hinitial
      refine ⟨l ++ [c], by simp, hinitial, ?_⟩
      obtain ⟨x, r, hx⟩ := List.exists_cons_of_ne_nil (show l ++ [c] ≠ [] by simp)
      rw [List.cons_append, hx, text_cons]
      rfl

/-- On the way to a path below a directory, only what is below it is made. -/
theorem Stands.makeDirectory_ancestry (h : d.Stands dir) (hnames : ∀ c ∈ names, IsName c)
    (hp : p ∈ ancestry (below dir names)) (hmake : d.makeDirectory p = .ok d') :
    d' = d ∨ ∃ m, m ≠ [] ∧ m <+: names ∧ d.place p = d.place dir ++ m := by
  obtain ⟨hfind, hcases⟩ := makeDirectory_eq_ok_iff.mp hmake
  have hsame (hget : d.tree.get? (d.place p) = some .directory) : d' = d := by
    obtain ⟨-, hd⟩ | ⟨hnone, -⟩ := hcases
    · exact hd
    · simp [hget] at hnone
  by_cases hne : plainParts dir ++ names = []
  · -- the path is the directory itself, which is where texts start from
    rw [below, hne] at hp
    have hnil : plainParts dir = [] := (List.append_eq_nil_iff.mp hne).1
    refine .inl (hsame ?_)
    cases hrooted : isRooted dir with
    | true =>
      rw [hrooted] at hp
      exact absurd hp (List.not_mem_nil (a := p))
    | false =>
      obtain rfl : p = "." := by
        rw [hrooted] at hp
        exact List.mem_singleton.mp hp
      have hplace : d.place ("." : Bytes) = d.place dir := by
        rw [place_eq_walk_plainParts d dir, hnil, Disk.start, hrooted]
        rfl
      exact hplace ▸ h.directory
  · obtain ⟨initial, hsome, hinitial, rfl⟩ :=
      exists_of_mem_ancestry_text (arePlain_below dir hnames) hne hp
    have hplain := (arePlain_below dir hnames).initial hinitial
    have hplace : d.place (Path.text ⟨isRooted dir, initial⟩) = walk (d.start dir) initial :=
      place_text d hplain hsome
    -- a path above the directory is on the way to it, and is there already
    obtain hdir | ⟨m, rfl⟩ := List.prefix_or_prefix_of_prefix hinitial (List.prefix_append ..)
    · exact .inl (hsame (hplace ▸ h.get?_on_way hdir))
    · obtain rfl | hm := eq_or_ne m []
      · exact .inl (hsame (hplace ▸ h.get?_on_way (by simp)))
      · have hm' : m <+: names := (List.prefix_append_right_inj _).mp hinitial
        refine .inr ⟨m, hm, hm', ?_⟩
        exact place_below d dir (fun c hc => hnames c (hm'.subset hc)) hm

end

/-- A place that is really below another one. -/
def Beneath (q x : List Bytes) : Prop := ∃ m, m ≠ [] ∧ x = q ++ m

/-- Where a directory stands, it stays, and all changes are below it. -/
def Around (dir : Bytes) (d d' : Disk) : Prop :=
  d.Stands dir → d'.Stands dir ∧ Within (Beneath (d.place dir)) d d'

/-- A disk that does not change. -/
theorem Around.refl (dir : Bytes) (d : Disk) : Around dir d d := fun h => ⟨h, .refl _ d⟩

/-- One change after another. -/
theorem Around.trans (h : Around dir d d') (h' : Around dir d' d'') : Around dir d d'' := by
  intro hstands
  obtain ⟨hmiddle, hfirst⟩ := h hstands
  obtain ⟨hlast, hsecond⟩ := h' hmiddle
  exact ⟨hlast, hfirst.trans (hfirst.place dir ▸ hsecond)⟩

section

variable {names : List Bytes} (hnames : ∀ c ∈ names, IsName c)

include hnames

/-- Directories on the way to a path below the directory. -/
theorem around_of_makeDirectory {p : Bytes} (hp : p ∈ ancestry (below dir names))
    (h : d.makeDirectory p = .ok d') : Around dir d d' := by
  intro hstands
  refine ⟨(grows_of_makeDirectory h).stands hstands, ?_⟩
  obtain rfl | ⟨m, hm, -, hplace⟩ := hstands.makeDirectory_ancestry hnames hp h
  · exact .refl _ _
  · exact (within_of_makeDirectory h).mono fun x hx => ⟨m, hm, hx.1.trans hplace⟩

/-- A file below it. -/
theorem around_of_write (hne : names ≠ []) (h : d.write (below dir names) content = .ok d') :
    Around dir d d' := by
  refine fun hstands => ⟨(grows_of_write h).stands hstands, ?_⟩
  exact (within_of_write h).mono fun x hx => ⟨names, hne, hx.trans (place_below d dir hnames hne)⟩

end

/-! ### The directory itself -/

/-- A joined path is rooted when its first part is empty and others follow. -/
theorem isRooted_join {a : Bytes} {r : List Bytes} (ha : separator ∉ a) :
    isRooted (Bytes.join [separator] (a :: r)) = (a.isEmpty && !r.isEmpty) := by
  cases a with
  | nil => cases r <;> simp [isRooted, Bytes.join, List.intercalate_cons_cons]
  | cons x a =>
    have hx : x ≠ separator := fun heq => ha (by simp [heq])
    cases r <;> simp [isRooted, Bytes.join, List.intercalate_cons_cons, hx]

/-- A path whose whole ancestry is there has no zero byte. -/
theorem zero_not_mem_of_ancestry (h : ∀ p ∈ ancestry t, d.isDirectory p = true) : 0 ∉ t := by
  -- by induction on the initial parts, from the end: an empty part adds a separator, any other one
  -- is in the ancestry
  have hall (l : List Bytes) (hinitial : l <+: Bytes.split separator t) :
      0 ∉ Bytes.join [separator] l := by
    induction l using List.reverseRecOn with
    | nil => simp [Bytes.join]
    | append_singleton l c ih =>
      obtain rfl | hc := eq_or_ne c []
      · obtain rfl | hl := eq_or_ne l []
        · simp
        · have hl' := ih ((List.prefix_append ..).trans hinitial)
          rw [Bytes.join_append hl (by simp), Bytes.join_singleton]
          simpa [separator] using hl'
      · have hp := h _ (mem_ancestry_iff.mpr ⟨l, c, hinitial, hc, rfl⟩)
        exact (find_eq_ok_iff.mp (isDirectory_iff.mp hp).1).2.1
  exact @Bytes.join_split separator t ▸ hall _ (List.prefix_refl _)

/-- A directory is there once all of its ancestry is. -/
theorem isDirectory_of_ancestry (hne : t ≠ [])
    (h : ∀ p ∈ ancestry t, d.isDirectory p = true) : d.isDirectory t = true := by
  -- the paths above the text start where the text does
  have hstart {l : List Bytes} {c : Bytes} (hinitial : (l ++ [c]) <+: Bytes.split separator t)
      (hc : c ≠ []) : isRooted (Bytes.join [separator] (l ++ [c])) = isRooted t := by
    obtain ⟨rest, hrest⟩ := hinitial
    have hall : ∀ b ∈ l ++ [c] ++ rest, separator ∉ b :=
      fun b hb => Bytes.not_mem_of_mem_split (hrest ▸ hb)
    conv_rhs => rw [← @Bytes.join_split separator t, ← hrest]
    cases l with
    | nil =>
      simp only [List.nil_append, List.cons_append]
      rw [isRooted_join (hall c (by simp)), isRooted_join (hall c (by simp))]
      simp [hc]
    | cons b l =>
      simp only [List.cons_append]
      rw [isRooted_join (hall b (by simp)), isRooted_join (hall b (by simp))]
      cases l <;> simp
  have hmem {l : List Bytes} {c : Bytes} (hinitial : (l ++ [c]) <+: Bytes.split separator t)
      (hc : c ≠ []) : ∃ q, follow d.tree (d.start t) (l ++ [c]) = .ok q
        ∧ d.tree.get? q = some .directory := by
    obtain ⟨hfind, hget⟩ :=
      isDirectory_iff.mp (h _ (mem_ancestry_iff.mpr ⟨l, c, hinitial, hc, rfl⟩))
    obtain ⟨-, -, hfollow⟩ := find_eq_ok_iff.mp hfind
    obtain ⟨b, r, hb⟩ := List.exists_cons_of_ne_nil (show l ++ [c] ≠ [] by simp)
    have hsplit : Bytes.split separator (Bytes.join [separator] (l ++ [c])) = l ++ [c] := by
      rw [hb] at hinitial ⊢
      exact Bytes.split_join fun b hb => Bytes.not_mem_of_mem_split (hinitial.subset hb)
    rw [hsplit, Disk.start, hstart hinitial hc] at hfollow
    exact ⟨_, hfollow, hget⟩
  -- empty components lead nowhere else
  have hall (l : List Bytes) (hinitial : l <+: Bytes.split separator t)
      (hl : l ≠ [] ∨ isRooted t = true) : ∃ q, follow d.tree (d.start t) l = .ok q
        ∧ d.tree.get? q = some .directory := by
    induction l using List.reverseRecOn with
    | nil =>
      rw [start_eq_nil d (hl.resolve_left (by simp))]
      exact ⟨[], rfl, Tree.get?_root _⟩
    | append_singleton l c ih =>
      obtain rfl | hc := eq_or_ne c []
      · have hprev : l ≠ [] ∨ isRooted t = true := by
          refine or_iff_not_imp_left.mpr fun hnil => ?_
          obtain rfl : l = [] := not_not.mp hnil
          obtain ⟨rest, hrest⟩ := hinitial
          have hjoin := @Bytes.join_split separator t
          rw [← hrest] at hjoin
          rw [← hjoin, List.nil_append, List.cons_append, List.nil_append,
            isRooted_join (by simp)]
          cases rest with
          | nil => exact absurd (by simpa using hjoin.symm) hne
          | cons b r => rfl
        obtain ⟨q, hq, hget⟩ := ih ((List.prefix_append ..).trans hinitial) hprev
        refine ⟨q, follow_append_eq_ok_iff.mpr ⟨q, hq, ?_⟩, hget⟩
        simp [follow, hget]
      · exact hmem hinitial hc
  obtain ⟨q, hq, hget⟩ := hall _ (List.prefix_refl _) (.inl (Bytes.split_ne_nil t))
  have hfind := find_eq_ok_iff.mpr ⟨hne, zero_not_mem_of_ancestry h, hq⟩
  obtain rfl := eq_place_of_find hfind
  exact isDirectory_iff.mpr ⟨hfind, hget⟩

/-- A directory that has been made stands. -/
theorem stands_of_makeDirectories (hne : t ≠ []) (h : d.makeDirectories t = .ok d') :
    d'.Stands t :=
  stands_of_isDirectory (isDirectory_of_ancestry hne (isDirectory_of_mem_ancestry h))

end Idl.Files.Disk
