import Idl.Bindings.Backend
import Idl.Plugin.Host
import Idl.Proofs.Schema.Alike

/-!
# What backends get done

Whatever a backend renders, a caller has either all of its files, each with a path of its own and in
the order of the paths, or none and the first path that cannot be used. Memory that was in use is as
the backend left it.

* §1 paths that cannot be used, §2 the check of files in order, §3 failures, §4 slices,
* §5 generating with a backend, §6 built-in targets and plugins.
-/

namespace Idl.Bindings

/-! ## §1 Paths that cannot be used -/

/-- A path that is not empty and does not begin with a slash. -/
def Relative (p : Bytes) : Prop := p ≠ [] ∧ p.head? ≠ some 0x2F

instance (p : Bytes) : Decidable (Relative p) := inferInstanceAs (Decidable (_ ∧ _))

/-- The path of one of the files that is not relative, or that several files have. -/
structure Offends (files : List OutputFile) (p : Bytes) : Prop where
  mem : p ∈ files.map (·.path)
  fault : ¬ Relative p ∨ 2 ≤ (files.map (·.path)).count p

/-- The first path, in the order of octets, that cannot be used. -/
structure FirstOffence (files : List OutputFile) (p : Bytes) : Prop extends Offends files p where
  least : ∀ q, Offends files q → Bytes.le p q = true

/-- What is said about a path that cannot be used. -/
def offence (p : Bytes) : Bytes :=
  if Relative p then "rendered more than once" else "path must be relative"

theorem Offends.perm {l l' : List OutputFile} (h : l.Perm l') {p : Bytes} (hp : Offends l p) :
    Offends l' p where
  mem := (h.map _).mem_iff.mp hp.mem
  fault := by
    rw [← (h.map (·.path)).count_eq]
    exact hp.fault

theorem FirstOffence.perm {l l' : List OutputFile} (h : l.Perm l') {p : Bytes}
    (hp : FirstOffence l p) : FirstOffence l' p where
  toOffends := hp.toOffends.perm h
  least q hq := hp.least q (hq.perm h.symm)

/-- No path offends if each file has a relative path of its own. -/
theorem forall_not_offends_iff {files : List OutputFile} :
    (∀ p, ¬ Offends files p) ↔ ∀ f ∈ files, f.path ≠ [] ∧ f.path.head? ≠ some 0x2F
      ∧ (files.map (·.path)).count f.path = 1 := by
  constructor
  · -- a file that offends is ruled out by its own path
    intro h f hf
    have hmem : f.path ∈ files.map (·.path) := List.mem_map_of_mem hf
    have hpos := List.count_pos_iff.mpr hmem
    obtain ⟨hrelative, hcount⟩ := not_or.mp fun hfault => h f.path ⟨hmem, hfault⟩
    obtain ⟨hne, hhead⟩ := not_not.mp hrelative
    exact ⟨hne, hhead, by omega⟩
  · intro h p hp
    obtain ⟨f, hf, rfl⟩ := List.mem_map.mp hp.mem
    obtain ⟨hne, hhead, hcount⟩ := h f hf
    have := hp.fault.resolve_left (not_not.mpr ⟨hne, hhead⟩)
    omega

section

variable {f : OutputFile} {r : List OutputFile} {p : Bytes}

/-- A file with a relative path offends only together with a later one. -/
theorem Offends.mem_of_cons (hf : Relative f.path) (h : Offends (f :: r) p) :
    p ∈ r.map (·.path) := by
  rcases List.mem_cons.mp h.mem with rfl | hmem
  · have hcount := h.fault.resolve_left (not_not.mpr hf)
    rw [List.map_cons, List.count_cons_self] at hcount
    exact List.count_pos_iff.mp (by omega)
  · exact hmem

theorem offends_cons_iff (hf : Relative f.path) (hnew : f.path ∉ r.map (·.path)) :
    Offends (f :: r) p ↔ Offends r p := by
  have hcount (hp : p ∈ r.map (·.path)) :
      ((f :: r).map (·.path)).count p = (r.map (·.path)).count p :=
    List.count_cons_of_ne fun heq : f.path = p => hnew (heq ▸ hp)
  constructor
  · intro h
    have hmem := h.mem_of_cons hf
    exact ⟨hmem, hcount hmem ▸ h.fault⟩
  · intro h
    exact ⟨List.mem_cons_of_mem _ h.mem, (hcount h.mem).symm ▸ h.fault⟩

end

/-- A list of files in the order of their paths. -/
def Ordered (files : List OutputFile) : Prop :=
  files.Pairwise fun f g => Bytes.le f.path g.path = true

theorem Ordered.le {f : OutputFile} {r : List OutputFile} (h : Ordered (f :: r)) {p : Bytes}
    (hp : p ∈ (f :: r).map (·.path)) : Bytes.le f.path p = true := by
  rcases List.mem_cons.mp hp with rfl | hmem
  · exact Bytes.le_refl _
  · obtain ⟨g, hg, rfl⟩ := List.mem_map.mp hmem
    exact (List.pairwise_cons.mp h).1 g hg

theorem Ordered.tail {f : OutputFile} {r : List OutputFile} (h : Ordered (f :: r)) : Ordered r :=
  (List.pairwise_cons.mp h).2

/-! ## §2 The check of files in order -/

section

variable {target : Bytes} {f : OutputFile} {r : List OutputFile}

theorem pathFault?_of_not_relative {last : Option Bytes} (hf : ¬ Relative f.path) :
    pathFault? target last (f :: r) = some ⟨target, f.path, .output (offence f.path)⟩ := by
  have hbad : f.path = [] ∨ f.path.head? = some 0x2F := by
    rw [Relative, not_and_or, not_not, not_not] at hf
    exact hf
  simp [pathFault?, offence, hf, hbad]

theorem pathFault?_again (hf : Relative f.path) :
    pathFault? target (some f.path) (f :: r)
      = some ⟨target, f.path, .output (offence f.path)⟩ := by
  simp [pathFault?, offence, hf, hf.1, hf.2]

theorem pathFault?_of_ne {last : Option Bytes} (hf : Relative f.path)
    (hlast : last ≠ some f.path) :
    pathFault? target last (f :: r) = pathFault? target (some f.path) r := by
  simp [pathFault?, hlast, hf.1, hf.2]

end

/-- What a check of files has to find. -/
def Judged (target : Bytes) (files : List OutputFile) : Option BindingError → Prop
  | none => ∀ p, ¬ Offends files p
  | some e => ∃ p, FirstOffence files p ∧ e = ⟨target, p, .output (offence p)⟩

theorem Judged.congr {target : Bytes} {l l' : List OutputFile}
    (h : ∀ p, Offends l p ↔ Offends l' p) {e : Option BindingError} (hl : Judged target l e) :
    Judged target l' e := by
  cases e with
  | none => exact fun p hp => hl p ((h p).mpr hp)
  | some e =>
    obtain ⟨p, hp, he⟩ := hl
    exact ⟨p, ⟨(h p).mp hp.toOffends, fun q hq => hp.least q ((h q).mpr hq)⟩, he⟩

/-- The check behind a file with a relative path. The induction is on the files that follow; the
file before them is judged with them, since its path can occur again. -/
theorem judged_behind (target : Bytes) {f : OutputFile} {r : List OutputFile}
    (hf : Relative f.path) (hordered : Ordered (f :: r)) :
    Judged target (f :: r) (pathFault? target (some f.path) r) := by
  induction r generalizing f with
  | nil => exact fun p hp => List.not_mem_nil (hp.mem_of_cons hf)
  | cons g r ih =>
    have hmem : g.path ∈ (f :: g :: r).map (·.path) :=
      List.mem_cons_of_mem _ List.mem_cons_self
    have hfirst (h : Offends (f :: g :: r) g.path) : FirstOffence (f :: g :: r) g.path :=
      ⟨h, fun q hq => hordered.tail.le (hq.mem_of_cons hf)⟩
    by_cases hg : Relative g.path
    case neg =>
      rw [pathFault?_of_not_relative hg]
      exact ⟨g.path, hfirst ⟨hmem, .inl hg⟩, rfl⟩
    by_cases heq : f.path = g.path
    case pos =>
      rw [heq, pathFault?_again hg]
      refine ⟨g.path, hfirst ⟨hmem, .inr ?_⟩, rfl⟩
      rw [List.map_cons, List.map_cons, heq, List.count_cons_self, List.count_cons_self]
      omega
    -- the first path is less than the second one, so that it does not occur again
    have hnew : f.path ∉ (g :: r).map (·.path) := fun hmem =>
      heq (Bytes.le_antisymm (hordered.le (by simp)) (hordered.tail.le hmem))
    rw [pathFault?_of_ne hg fun h => heq (Option.some.inj h)]
    exact (ih hg hordered.tail).congr fun p => (offends_cons_iff hf hnew).symm

/-- The check of files in order finds the first path that cannot be used, if there is one. -/
theorem judged_pathFault? (target : Bytes) {files : List OutputFile} (hordered : Ordered files) :
    Judged target files (pathFault? target none files) := by
  cases files with
  | nil => exact fun p hp => List.not_mem_nil hp.mem
  | cons f r =>
    by_cases hf : Relative f.path
    · rw [pathFault?_of_ne hf (by simp)]
      exact judged_behind target hf hordered
    · rw [pathFault?_of_not_relative hf]
      exact ⟨f.path, ⟨⟨by simp, .inl hf⟩, fun q hq => hordered.le hq.mem⟩, rfl⟩

/-- In order and without a path that offends, each path is less than those behind it. -/
theorem Ordered.ascending {files : List OutputFile} (h : Ordered files)
    (hclean : ∀ p, ¬ Offends files p) : files.Pairwise fun f g => f.path < g.path := by
  have hnodup : (files.map (·.path)).Nodup := by
    refine List.nodup_iff_count_le_one.mpr fun p => ?_
    by_cases hp : p ∈ files.map (·.path)
    · exact Nat.le_of_not_lt fun hcount => hclean p ⟨hp, .inr hcount⟩
    · exact (List.count_eq_zero.mpr hp).trans_le (Nat.zero_le 1)
  refine List.Pairwise.imp₂ (fun f g hle hne => ?_) h (List.pairwise_map.mp hnodup)
  by_contra hnot
  exact hne (Bytes.le_antisymm hle (by simpa [Bytes.le] using hnot))

/-! ## §3 Failures -/

/-- A failure is a failure of code generation, or something that it wraps is or wraps one. -/
inductive RenderFailure.Wraps : RenderFailure → BindingError → Prop where
  | self (e : BindingError) (wrapped : List RenderFailure) : Wraps (.generation e wrapped) e
  | inner {f g : RenderFailure} {e : BindingError} (hg : g ∈ f.wrapped) (h : Wraps g e) : Wraps f e

namespace RenderFailure

theorem isSome_firstGeneration?_iff {l : List RenderFailure} :
    (firstGeneration? l).isSome = true ↔ ∃ f ∈ l, f.generation?.isSome = true := by
  induction l with
  | nil => simp [firstGeneration?]
  | cons f r ih => simp [firstGeneration?, ih]

mutual

theorem exists_wraps_of_generation? {e : BindingError} :
    (f : RenderFailure) → f.generation? = some e → f.Wraps e
  | .generation _ wrapped, h => Option.some.inj h ▸ .self _ wrapped
  | .other _ wrapped, h =>
    have ⟨_, hf, hwraps⟩ := exists_wraps_of_firstGeneration? wrapped h
    .inner hf hwraps

theorem exists_wraps_of_firstGeneration? {e : BindingError} :
    (l : List RenderFailure) → firstGeneration? l = some e → ∃ f ∈ l, f.Wraps e
  | f :: r, h => by
    rcases Option.or_eq_some_iff.mp h with h | ⟨-, h⟩
    · exact ⟨f, List.mem_cons_self, exists_wraps_of_generation? f h⟩
    · obtain ⟨g, hg, hwraps⟩ := exists_wraps_of_firstGeneration? r h
      exact ⟨g, List.mem_cons_of_mem _ hg, hwraps⟩

end

theorem isSome_generation?_iff {f : RenderFailure} :
    f.generation?.isSome = true ↔ ∃ e, f.Wraps e := by
  constructor
  · intro h
    obtain ⟨e, he⟩ := Option.isSome_iff_exists.mp h
    exact ⟨e, exists_wraps_of_generation? f he⟩
  · rintro ⟨e, h⟩
    induction h with
    | self e wrapped => rfl
    | @inner f g e hg h ih =>
      cases f with
      | generation e wrapped => rfl
      | other message wrapped => exact isSome_firstGeneration?_iff.mpr ⟨g, hg, ih⟩

end RenderFailure

/-! ## §4 Slices -/

namespace Slice

/-- What is set aside is found again. -/
theorem read_allocate (files : List OutputFile) (m : Blocks) :
    read ⟨m.length, 0, files.length⟩ (m ++ [files]) = files := by
  simp [read, whole]

/-- The block at the end is written without a change to the others. -/
theorem write_last {files before : List OutputFile} (m : Blocks)
    (h : files.length = before.length) :
    write ⟨m.length, 0, before.length⟩ files (m ++ [before]) = m ++ [files] := by
  simp [write, whole, h]

/-- A further block does not change what a slice refers to. A slice can only refer to the new block
if it has held no files before. -/
theorem read_append {s : Slice} {m : Blocks} {files : List OutputFile}
    (h : s.read m = [] → files = []) : s.read (m ++ [files]) = s.read m := by
  rcases Nat.lt_or_ge s.block m.length with hlt | hge
  · rw [read, whole, List.getElem?_append_left hlt, read, whole]
  · have hempty : s.read m = [] := by simp [read, whole, List.getElem?_eq_none hge]
    rw [hempty, h hempty, read, whole, List.getElem?_append_right hge]
    cases s.block - m.length <;> simp

end Slice

/-- The files of a slice in the order of their paths. -/
def inOrder (files : List OutputFile) : List OutputFile :=
  files.mergeSort fun f g => Bytes.le f.path g.path

theorem inOrder_perm (files : List OutputFile) : (inOrder files).Perm files :=
  List.mergeSort_perm _ _

theorem ordered_inOrder (files : List OutputFile) : Ordered (inOrder files) := by
  unfold inOrder Ordered
  apply List.pairwise_mergeSort
  · exact fun _ _ _ => Bytes.le_trans
  · exact fun _ _ => Bytes.le_total ..

/-! ## §5 Generating with a backend -/

/-- What follows a computation goes on with its result, in the memory that it has left. -/
theorem run_bind_of_eq {α β : Type} {x : StateM Blocks α} {f : α → StateM Blocks β} {a : α}
    {m m' : Blocks} (h : x.run m = (a, m')) : (x >>= f).run m = (f a).run m' := by
  rw [StateT.run_bind, h]
  rfl

section

variable {b : Backend} {s : Schema} {o : Options} {m m' : Blocks} {files : Slice}

/-- A failure to render is passed on if it is or wraps one of code generation. Another one is
wrapped by one of code generation. -/
theorem generateWith_failure {e : RenderFailure}
    (h : (b.render s o).run m = (⟨files, some e⟩, m')) :
    (generateWith b s o).run m
      = (.error (if e.generation?.isSome then e
          else .generation ⟨b.name, [], .template e.text⟩ [e]), m') := by
  rw [generateWith, run_bind_of_eq h]
  cases hg : e.generation? <;> simp only [hg] <;> rfl

/-- Files that are rendered are put in order in a block of their own. -/
theorem generateWith_files (h : (b.render s o).run m = (⟨files, none⟩, m')) :
    (generateWith b s o).run m
      = (match pathFault? b.name none (inOrder (files.read m')) with
          | some e => .error (.generation e [])
          | none => .ok ⟨m'.length, 0, (files.read m').length⟩,
        m' ++ [inOrder (files.read m')]) := by
  have hlength := (inOrder_perm (files.read m')).length_eq
  -- a new block is added, and the blocks there are kept
  have hclone : files.clone.run m'
      = (⟨m'.length, 0, (files.read m').length⟩, m' ++ [files.read m']) := rfl
  -- the new block is put in order, not the one the backend returned
  have hsort : (Slice.sort ⟨m'.length, 0, (files.read m').length⟩).run
      (m' ++ [files.read m']) = ((), m' ++ [inOrder (files.read m')]) := by
    change ((), Slice.write _ (inOrder (Slice.read _ _)) _) = _
    rw [Slice.read_allocate, Slice.write_last m' hlength]
  have hread : Slice.read ⟨m'.length, 0, (files.read m').length⟩
      (m' ++ [inOrder (files.read m')]) = inOrder (files.read m') := by
    rw [← hlength, Slice.read_allocate]
  rw [generateWith, run_bind_of_eq h, run_bind_of_eq hclone, run_bind_of_eq hsort,
    run_bind_of_eq (show (get : StateM Blocks Blocks).run _ = (_, _) from rfl), hread]
  cases pathFault? b.name none (inOrder (files.read m')) <;> rfl

end

/-- Each file has a path of its own, which is not empty and does not begin with a slash. -/
def Clean (files : List OutputFile) : Prop :=
  ∀ f ∈ files, f.path ≠ [] ∧ f.path.head? ≠ some 0x2F
    ∧ (files.map (·.path)).count f.path = 1

instance (files : List OutputFile) : Decidable (Clean files) :=
  inferInstanceAs (Decidable (∀ f ∈ files, _))

/-- What a caller is given for what a backend has rendered. Both come with the memory that they
leave. -/
structure Settled (b : Backend) (rendered : Rendered × Blocks)
    (given : Except RenderFailure Slice × Blocks) : Prop where
  /-- There are files if and only if there is no failure and the paths are clean. -/
  succeeds_iff : (∃ files, given.1 = .ok files) ↔
    rendered.1.failure = none ∧ Clean (rendered.1.files.read rendered.2)
  /-- The files are those that were rendered, in the order of their paths. -/
  files : ∀ files, given.1 = .ok files →
    (files.read given.2).Perm (rendered.1.files.read rendered.2)
      ∧ (files.read given.2).Pairwise fun f g => f.path < g.path
  /-- No block that was in use is changed, so that the slice of the backend is what it was. -/
  memory : rendered.2 <+: given.2
    ∧ rendered.1.files.read given.2 = rendered.1.files.read rendered.2
  /-- A failure that is or wraps one of code generation is passed on. -/
  passed : ∀ e g, rendered.1.failure = some e → e.Wraps g → given.1 = .error e
  /-- Another one is wrapped by a failure that names the backend. -/
  wrapped : ∀ e, rendered.1.failure = some e → (∀ g, ¬ e.Wraps g) →
    ∃ g, given.1 = .error (.generation g [e]) ∧ g.cause.code = 5002 ∧ g.target = b.name
      ∧ g.message = "Failed to render " ++ b.name ++ " template '': " ++ e.text
  /-- Paths that are not clean are refused, and the first one that cannot be used is named. -/
  refused : rendered.1.failure = none → ¬ Clean (rendered.1.files.read rendered.2) →
    ∃ p g, FirstOffence (rendered.1.files.read rendered.2) p
      ∧ given.1 = .error (.generation g []) ∧ g.cause.code = 5002 ∧ g.target = b.name
      ∧ g.entity = p
      ∧ g.message = "Failed to render " ++ b.name ++ " output '" ++ p ++ "': " ++ offence p

/-- A backend that fails is settled, with its error wrapped once. -/
theorem settled_of_failure (b : Backend) (files : Slice) (e : RenderFailure) (m : Blocks) :
    Settled b (⟨files, some e⟩, m) (.error (if e.generation?.isSome then e
      else .generation ⟨b.name, [], .template e.text⟩ [e]), m) where
  succeeds_iff := ⟨fun ⟨_, h⟩ => (nomatch h), fun h => (nomatch h.1)⟩
  files _ h := nomatch h
  memory := ⟨List.prefix_rfl, rfl⟩
  passed e' g he hwraps := by
    cases he
    rw [if_pos (RenderFailure.isSome_generation?_iff.mpr ⟨g, hwraps⟩)]
  wrapped e' he hother := by
    cases he
    have hnone : ¬ e.generation?.isSome = true := fun h =>
      have ⟨g, hg⟩ := RenderFailure.isSome_generation?_iff.mp h
      hother g hg
    have hquotes : (" template '" ++ "': " : Bytes) = " template '': " := by decide
    rw [if_neg hnone]
    exact ⟨_, rfl, rfl, rfl, by simp [BindingError.message, ← hquotes]⟩
  refused h := nomatch h

theorem settled_of_files (b : Backend) (files : Slice) (m : Blocks) :
    Settled b (⟨files, none⟩, m)
      (match pathFault? b.name none (inOrder (files.read m)) with
        | some e => .error (.generation e [])
        | none => .ok ⟨m.length, 0, (files.read m).length⟩,
      m ++ [inOrder (files.read m)]) := by
  have hperm := inOrder_perm (files.read m)
  have hordered := ordered_inOrder (files.read m)
  -- the sorted copy stands behind all other blocks
  have hmemory : m <+: m ++ [inOrder (files.read m)]
      ∧ files.read (m ++ [inOrder (files.read m)]) = files.read m :=
    ⟨List.prefix_append .., Slice.read_append fun h => (hperm.trans (.of_eq h)).eq_nil⟩
  have hjudged := judged_pathFault? b.name hordered
  cases hfault : pathFault? b.name none (inOrder (files.read m)) with
  | some e =>
    rw [hfault] at hjudged
    obtain ⟨p, hfirst, rfl⟩ := hjudged
    have hfirst := hfirst.perm hperm
    have hdirty : ¬ Clean (files.read m) := fun h =>
      forall_not_offends_iff.mpr h p hfirst.toOffends
    exact {
      succeeds_iff := ⟨fun ⟨_, h⟩ => (nomatch h), fun h => absurd h.2 hdirty⟩
      files := fun _ h => nomatch h
      memory := hmemory
      passed := fun _ _ h => nomatch h
      wrapped := fun _ h => nomatch h
      refused := fun _ _ => ⟨p, _, hfirst, rfl, rfl, rfl, rfl, by simp [BindingError.message]⟩ }
  | none =>
    rw [hfault] at hjudged
    have hclean : Clean (files.read m) := forall_not_offends_iff.mp fun p hp =>
      hjudged p (hp.perm hperm.symm)
    have hread : Slice.read ⟨m.length, 0, (files.read m).length⟩
        (m ++ [inOrder (files.read m)]) = inOrder (files.read m) := by
      rw [← hperm.length_eq, Slice.read_allocate]
    exact {
      succeeds_iff := ⟨fun _ => ⟨rfl, hclean⟩, fun _ => ⟨_, rfl⟩⟩
      files := fun given h => by
        cases h
        rw [hread]
        exact ⟨hperm, hordered.ascending hjudged⟩
      memory := hmemory
      passed := fun _ _ h => nomatch h
      wrapped := fun _ h => nomatch h
      refused := fun _ h => absurd hclean h }

/-- Whatever a backend renders, a caller is given a clean set of files or none. -/
theorem settled_generateWith (b : Backend) (s : Schema) (o : Options) (m : Blocks) :
    Settled b ((b.render s o).run m) ((generateWith b s o).run m) := by
  rcases hrendered : (b.render s o).run m with ⟨⟨files, failure⟩, m'⟩
  cases failure with
  | some e =>
    rw [generateWith_failure hrendered]
    exact settled_of_failure b files e m'
  | none =>
    rw [generateWith_files hrendered]
    exact settled_of_files b files m'

/-- Two files in the other order are put in order, two files of one path are refused, and a failure
of another kind becomes one of code generation. -/
theorem settled_generateWith_small :
    let given (files : List OutputFile) := (generateWith
      (.ofFiles "bad" fun _ _ => .ok files) .empty {}).run []
    let failing (e : RenderFailure) : Backend :=
      ⟨"bad", fun _ _ => return ⟨← Slice.allocate [], some e⟩⟩
    (∃ files, (given [⟨"b", []⟩, ⟨"a", []⟩]).1 = .ok files
        ∧ (files.read (given [⟨"b", []⟩, ⟨"a", []⟩]).2).Perm [⟨"b", []⟩, ⟨"a", []⟩])
      ∧ (∃ p e, FirstOffence [⟨"a", []⟩, ⟨"a", []⟩] p
        ∧ (given [⟨"a", []⟩, ⟨"a", []⟩]).1 = .error (.generation e []) ∧ e.entity = p)
      ∧ ∃ e, ((generateWith (failing (.other "boom" [])) .empty {}).run []).1
          = .error (.generation e [.other "boom" []]) ∧ e.cause.code = 5002 := by
  intro given failing
  have settled (files : List OutputFile) := settled_generateWith
    (.ofFiles "bad" fun _ _ => .ok files) .empty {} []
  have hclean : Clean [⟨"b", []⟩, ⟨"a", []⟩] := by decide
  have hdirty : ¬ Clean [⟨"a", []⟩, ⟨"a", []⟩] := by decide
  refine ⟨?_, ?_, ?_⟩
  · obtain ⟨files, hfiles⟩ := (settled [⟨"b", []⟩, ⟨"a", []⟩]).succeeds_iff.mpr ⟨rfl, hclean⟩
    exact ⟨files, hfiles, ((settled _).files files hfiles).1⟩
  · obtain ⟨p, e, hfirst, hgiven, -, -, hentity, -⟩ :=
      (settled [⟨"a", []⟩, ⟨"a", []⟩]).refused rfl hdirty
    exact ⟨p, e, hfirst, hgiven, hentity⟩
  · have hother (g : BindingError) : ¬ (RenderFailure.other "boom" []).Wraps g := by
      rintro ⟨⟩
      contradiction
    obtain ⟨e, hgiven, hcode, -⟩ :=
      (settled_generateWith (failing (.other "boom" [])) .empty {} []).wrapped _ rfl hother
    exact ⟨e, hgiven, hcode⟩

/-! ## §6 Built-in targets and plugins -/

/-- A backend that sets a block aside has its files collected. -/
theorem generateWith_ofFiles (name : Bytes)
    (render : Schema → Options → Except BindingError (List OutputFile)) (s : Schema)
    (o : Options) (m : Blocks) :
    let given := (generateWith (.ofFiles name render) s o).run m
    given.1.map (·.read given.2)
      = (render s o >>= collect name).mapError (.generation · []) := by
  cases hrender : render s o with
  -- a backend of files that fails hands over an empty list
  | error e =>
    have hrendered : ((Backend.ofFiles name render).render s o).run m
        = (⟨⟨m.length, 0, 0⟩, some (.generation e [])⟩, m ++ [[]]) := by
      simp only [Backend.ofFiles, hrender]
      rfl
    rw [generateWith_failure hrendered]
    rfl
  | ok files =>
    have hrendered : ((Backend.ofFiles name render).render s o).run m
        = (⟨⟨m.length, 0, files.length⟩, none⟩, m ++ [files]) := by
      simp only [Backend.ofFiles, hrender]
      rfl
    rw [generateWith_files hrendered, Slice.read_allocate]
    change _ = (collect name files).mapError _
    -- the list that is read at the end is the one put in order
    have hread : Slice.read ⟨m.length + 1, 0, files.length⟩ (m ++ [files, inOrder files])
        = inOrder files := by
      simpa [(inOrder_perm files).length_eq]
        using Slice.read_allocate (inOrder files) (m ++ [files])
    change _ = (match pathFault? name none (inOrder files) with
      | some e => .error e
      | none => .ok (inOrder files) : Except BindingError _).mapError _
    cases hfault : pathFault? name none (inOrder files) with
    | some e => simp [hfault, Except.map, Except.mapError, Backend.ofFiles]
    | none => simp [hfault, Except.map, Except.mapError, Backend.ofFiles, hread]

/-- What is generated for a target is what its backend gets done. -/
theorem generate_eq_generateWith (t : Target) (s : Schema) (o : Options) (m : Blocks) :
    let given := (generateWith (.ofFiles t.name t.render) s o).run m
    given.1.map (·.read given.2) = (generate s t.name o).mapError (.generation · []) := by
  have hname : Target.ofName? t.name = some t := by cases t <;> decide
  rw [generate, hname]
  exact generateWith_ofFiles t.name t.render s o m

/-- A plugin is run as a backend. -/
theorem generate_plugin_eq_generateWith (engine : Plugin.Engine) (p : Plugin.Source) (s : Schema)
    (o : Options) (m : Blocks) :
    let given := (generateWith (.ofFiles p.language fun s o => p.render (p.run engine s o))
      s o).run m
    given.1.map (·.read given.2)
      = (p.generate (p.run engine s o)).mapError (.generation · []) :=
  generateWith_ofFiles p.language _ s o m

end Idl.Bindings
