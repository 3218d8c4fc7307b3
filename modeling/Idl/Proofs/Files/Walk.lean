import Idl.Files.Disk
import Idl.Proofs.Compile.WellFormed

/-!
# Ways through a tree

Where a path leads follows from its text alone: what stands in a tree decides only whether the way
is open. A path and its plain form lead to the same place, and below a directory different names
lead to different places.

* §1 cutting a text, §2 walking, §3 following, §4 plain forms, §5 texts of plain paths.
-/

namespace Idl

/-! ## §1 Cutting a text -/

namespace Bytes

variable {sep : UInt8}

/-- What has been cut before the rest of a text goes in front of the pieces of the rest. -/
theorem foldl_splitStep_eq (b piece : Bytes) (done : List Bytes) :
    let s := b.foldl (splitStep sep) (piece, done)
    (s.1.reverse :: s.2).reverse
      = done.reverse ++ (split sep b).modifyHead (piece.reverse ++ ·) := by
  have hsplit (b : Bytes) : split sep b = ((b.foldl (splitStep sep) ([], [])).1.reverse
      :: (b.foldl (splitStep sep) ([], [])).2).reverse := rfl
  induction b generalizing piece done with
  | nil => simp [split]
  | cons c r ih =>
    dsimp only at ih ⊢
    rw [hsplit, List.foldl_cons, List.foldl_cons]
    by_cases h : c = sep
    · -- a separator ends the piece
      simp only [splitStep, h, beq_self_eq_true, if_true]
      rw [ih, ih]
      simp
    · -- any other byte joins it
      simp only [splitStep, beq_iff_eq, h, if_false]
      rw [ih, ih]
      cases split sep r <;> simp

/-- Nothing is one empty piece. -/
@[simp]
theorem split_nil : split sep [] = [[]] := rfl

/-- A separator in front is an empty piece. -/
@[simp]
theorem split_cons_self (r : Bytes) : split sep (sep :: r) = [] :: split sep r := by
  have h : _ = [[]] ++ (split sep r).modifyHead id := foldl_splitStep_eq r [] [[]]
  rw [split_eq, List.foldl_cons]
  simpa [splitStep] using h

/-- Any other byte belongs to the first piece. -/
theorem split_cons_of_ne {c : UInt8} (h : c ≠ sep) (r : Bytes) :
    split sep (c :: r) = (split sep r).modifyHead (c :: ·) := by
  have hr := @foldl_splitStep_eq sep r [c] []
  rw [split_eq, List.foldl_cons]
  simpa [splitStep, h] using hr

/-- There is at least one piece. -/
theorem split_ne_nil (b : Bytes) : split sep b ≠ [] := by
  simp [split]

/-- A text is its first piece alone, or begins with it and a separator. -/
theorem exists_split_eq_cons (b : Bytes) : ∃ p l, split sep b = p :: l :=
  List.exists_cons_of_ne_nil (split_ne_nil b)

/-- No piece holds a separator. -/
theorem not_mem_of_mem_split {b p : Bytes} (h : p ∈ split sep b) : sep ∉ p := by
  induction b generalizing p with
  | nil => simp_all
  | cons c r ih =>
    by_cases hc : c = sep
    · subst hc
      obtain rfl | h := List.mem_cons.mp (split_cons_self r ▸ h)
      · simp
      · exact ih h
    · -- the byte belongs to the first part
      rw [split_cons_of_ne hc] at h
      obtain ⟨q, l, hq⟩ := @exists_split_eq_cons sep r
      rw [hq] at h ih
      obtain rfl | h := List.mem_cons.mp h
      · simpa [Ne.symm hc] using ih (List.mem_cons_self ..)
      · exact ih (List.mem_cons_of_mem _ h)

/-- A piece holds nothing new. -/
theorem mem_of_mem_split {b p : Bytes} {x : UInt8} (h : p ∈ split sep b) (hx : x ∈ p) : x ∈ b := by
  induction b generalizing p with
  | nil => simp_all
  | cons c r ih =>
    by_cases hc : c = sep
    · subst hc
      obtain rfl | h := List.mem_cons.mp (split_cons_self r ▸ h)
      · cases hx
      · exact List.mem_cons_of_mem _ (ih h hx)
    · -- the byte belongs to the first part
      rw [split_cons_of_ne hc] at h
      obtain ⟨q, l, hq⟩ := @exists_split_eq_cons sep r
      rw [hq] at h ih
      obtain rfl | h := List.mem_cons.mp h
      · exact List.mem_cons.mpr ((List.mem_cons.mp hx).imp id (ih (List.mem_cons_self ..)))
      · exact List.mem_cons_of_mem _ (ih (List.mem_cons_of_mem _ h) hx)

/-- Around a separator, a text is cut on its own. -/
theorem split_append_cons (a b : Bytes) :
    split sep (a ++ sep :: b) = split sep a ++ split sep b := by
  induction a with
  | nil => simp
  | cons c r ih =>
    by_cases hc : c = sep
    · simp [hc, ih]
    · rw [List.cons_append, split_cons_of_ne hc, split_cons_of_ne hc, ih]
      obtain ⟨q, l, hq⟩ := @exists_split_eq_cons sep r
      simp [hq]

/-- Without a separator there is one piece. -/
theorem split_of_not_mem {b : Bytes} (h : sep ∉ b) : split sep b = [b] := by
  induction b with
  | nil => rfl
  | cons c r ih =>
    rw [List.mem_cons, not_or] at h
    rw [split_cons_of_ne (Ne.symm h.1), ih h.2]
    rfl

/-- Lines that are ended one by one come apart again. -/
theorem split_lines_append {lines : List Bytes} (h : ∀ line ∈ lines, sep ∉ line) (b : Bytes) :
    split sep (lines.flatMap (· ++ [sep]) ++ b) = lines ++ split sep b := by
  induction lines with
  | nil => rfl
  | cons line rest ih =>
    obtain ⟨hline, hrest⟩ := List.forall_mem_cons.mp h
    rw [List.flatMap_cons, List.append_assoc, List.append_assoc, List.singleton_append,
      split_append_cons, ih hrest, split_of_not_mem hline]
    rfl

/-- Lines that all end in the separator, and an empty piece behind the last. -/
theorem split_flatMap_append {lines : List Bytes} (h : ∀ line ∈ lines, sep ∉ line) :
    split sep (lines.flatMap (· ++ [sep])) = lines ++ [[]] := by
  have hsplit := split_lines_append h []
  rwa [List.append_nil] at hsplit

/-- The pieces of a text give the text again. -/
theorem join_split (b : Bytes) : join [sep] (split sep b) = b := by
  induction b with
  | nil => rfl
  | cons c r ih =>
    obtain ⟨q, l, hq⟩ := @exists_split_eq_cons sep r
    -- the first byte divides, or it belongs to the first part
    by_cases hc : c = sep
    · rw [hc, split_cons_self, hq, join, List.intercalate_cons_cons, ← hq]
      exact congrArg _ ih
    · rw [split_cons_of_ne hc]
      rw [hq] at ih ⊢
      cases l with
      | nil => simpa [join] using ih
      | cons p l => simpa [join, List.intercalate_cons_cons] using ih

/-- Pieces of a text that are joined on their own have one separator between them. -/
theorem join_append {l m : List Bytes} (hl : l ≠ []) (hm : m ≠ []) :
    join [sep] (l ++ m) = join [sep] l ++ sep :: join [sep] m := by
  induction l with
  | nil => contradiction
  | cons a l ih =>
    obtain ⟨b, m, rfl⟩ := List.exists_cons_of_ne_nil hm
    cases l with
    | nil => simp [join, List.intercalate_cons_cons]
    | cons c l =>
      have ih := ih (List.cons_ne_nil c l)
      simp only [join, List.cons_append, List.intercalate_cons_cons] at ih ⊢
      rw [ih]
      simp

/-- One piece is joined to itself. -/
@[simp]
theorem join_singleton (p : Bytes) : join [sep] [p] = p := List.intercalate_singleton ..

end Bytes

namespace Files

/-! ## §2 Walking -/

/-- A component that leads down. -/
structure IsName (c : Bytes) : Prop where
  nonempty : c ≠ []
  notSelf : c ≠ "."
  notUp : c ≠ ".."
  noSeparator : separator ∉ c

/-- Where components lead from a place if nothing is in the way. -/
def walk (place : List Bytes) : List Bytes → List Bytes
  | [] => place
  | c :: rest =>
    if c.isEmpty || c == "." then walk place rest
    else if c == ".." then walk place.dropLast rest
    else walk (place ++ [c]) rest

variable {c : Bytes}

/-- No component leads nowhere else. -/
@[simp]
theorem walk_nil (place : List Bytes) : walk place [] = place := rfl

/-- Components one after the other. -/
theorem walk_append (place a b : List Bytes) : walk place (a ++ b) = walk (walk place a) b := by
  induction a generalizing place with
  | nil => rfl
  | cons c r ih =>
    simp only [List.cons_append, walk]
    split_ifs <;> exact ih _

/-- A name leads down. -/
theorem walk_name (h : IsName c) (place : List Bytes) : walk place [c] = place ++ [c] := by
  simp [walk, h.nonempty, h.notSelf, h.notUp]

/-- Names lead down to where they say. -/
theorem walk_names {names : List Bytes} (h : ∀ c ∈ names, IsName c) (place : List Bytes) :
    walk place names = place ++ names := by
  induction names generalizing place with
  | nil => simp
  | cons c r ih =>
    obtain ⟨hc, hr⟩ := List.forall_mem_cons.mp h
    rw [← List.singleton_append, walk_append, walk_name hc, ih hr]
    simp

/-! ## §3 Following -/

namespace Disk

variable {t t' : Tree} {l a b p q : List Bytes}

/-- The way leads where the text says, if it is open. -/
theorem eq_walk_of_follow (h : follow t p l = .ok q) : q = walk p l := by
  induction l generalizing p with
  | nil => exact (Except.ok.inj h).symm
  | cons c r ih =>
    rw [follow] at h
    rw [walk]
    split at h
    · cases h
    · cases h
    · split_ifs at h ⊢ <;> exact ih h

/-- A way that goes on starts from a directory. -/
theorem get?_of_follow_cons (h : follow t p (c :: l) = .ok q) : t.get? p = some .directory := by
  rw [follow] at h
  split at h
  · cases h
  · cases h
  · assumption

/-- What can be followed in two parts can be followed as a whole. -/
theorem follow_append_eq_ok_iff :
    follow t p (a ++ b) = .ok q ↔ ∃ m, follow t p a = .ok m ∧ follow t m b = .ok q := by
  induction a generalizing p with
  | nil => simp [follow]
  | cons c r ih =>
    rw [List.cons_append, follow, follow]
    split
    · simp
    · simp
    · split_ifs <;> simp [ih]

/-- More directories do not close a way. -/
theorem follow_mono (h : ∀ x, t.get? x = some .directory → t'.get? x = some .directory)
    (hl : follow t p l = .ok q) : follow t' p l = .ok q := by
  induction l generalizing p with
  | nil => exact hl
  | cons c r ih =>
    -- the place is a directory before, so it is one after
    have hp := get?_of_follow_cons hl
    rw [follow, h p hp]
    rw [follow, hp] at hl
    dsimp only at hl ⊢
    split_ifs at hl ⊢
    · exact ih hl
    · exact ih hl
    · exact ih hl

end Disk

/-! ## §4 Plain forms -/

/-- The components of a text, in plain form. -/
def plainParts (t : Bytes) : List Bytes := (Path.ofText t).plain.parts

/-- Components of a plain path: steps up, then names. Nothing is above the root. -/
structure ArePlain (rooted : Bool) (parts : List Bytes) : Prop where
  exists_names : ∃ (n : Nat) (names : List Bytes), parts = List.replicate n up ++ names
    ∧ (∀ c ∈ names, IsName c) ∧ (rooted = true → n = 0)

section

variable {rooted : Bool} {parts stack : List Bytes}

/-- No component at all. -/
theorem ArePlain.nil (rooted : Bool) : ArePlain rooted [] := ⟨⟨0, [], rfl, by simp, fun _ => rfl⟩⟩

/-- Names behind a plain path. -/
theorem ArePlain.append {names : List Bytes} (h : ArePlain rooted parts)
    (hnames : ∀ c ∈ names, IsName c) : ArePlain rooted (parts ++ names) := by
  obtain ⟨n, l, rfl, hl, hn⟩ := h
  exact ⟨n, l ++ names, by simp, by simpa [or_imp, forall_and] using ⟨hl, hnames⟩, hn⟩

/-- An initial part of a plain path is plain. -/
theorem ArePlain.initial {initial : List Bytes} (h : ArePlain rooted parts)
    (hinitial : initial <+: parts) : ArePlain rooted initial := by
  obtain ⟨n, l, rfl, hl, hn⟩ := h
  rw [List.prefix_iff_eq_take.mp hinitial, List.take_append, List.take_replicate]
  refine ⟨_, _, rfl, fun c hc => hl c (List.mem_of_mem_take hc), fun h => ?_⟩
  simp [hn h]

/-- What becomes of a plain path with one more component. -/
inductive Pushed (rooted : Bool) : List Bytes → Bytes → List Bytes → Prop
  | stay {stack : List Bytes} {c : Bytes} (idle : c = [] ∨ c = ".") : Pushed rooted stack c stack
  | root (root : rooted = true) : Pushed rooted [] up []
  | rise {stack : List Bytes} (free : rooted = false ∨ stack ≠ [])
    (risen : ∀ top ∈ stack.head?, top = up) : Pushed rooted stack up (up :: stack)
  | back {top : Bytes} {below : List Bytes} (name : top ≠ up) :
    Pushed rooted (top :: below) up below
  | down {stack : List Bytes} {c : Bytes} (nonempty : c ≠ []) (notSelf : c ≠ ".") (notUp : c ≠ up) :
    Pushed rooted stack c (c :: stack)

/-- What becomes of a plain path, case by case. -/
theorem pushed (rooted : Bool) (stack : List Bytes) (c : Bytes) :
    Pushed rooted stack c (Path.push rooted stack c) := by
  by_cases hidle : c = [] ∨ c = "."
  · -- nothing, or the directory itself
    have hpush : Path.push rooted stack c = stack := by simp [Path.push, hidle]
    rw [hpush]
    exact .stay hidle
  obtain ⟨hnil, hself⟩ := not_or.mp hidle
  by_cases hup : c = up
  · subst hup
    -- a step up, on nothing, behind other steps up, or behind a name
    match stack with
    | [] =>
      cases rooted with
      | true => exact .root rfl
      | false => exact .rise (.inl rfl) nofun
    | top :: below =>
      by_cases htop : top = up
      · subst htop
        exact .rise (.inr (by simp)) (by simp)
      · have hpush : Path.push rooted (top :: below) up = below := by
          have htop : top ≠ ".." := htop
          simp [Path.push, hnil, hself, htop]
          simp [up]
        rw [hpush]
        exact .back htop
  · -- a name
    have hup' : c ≠ ".." := hup
    have hpush : Path.push rooted stack c = c :: stack := by simp [Path.push, hnil, hself, hup']
    rw [hpush]
    exact .down hnil hself hup

/-- The last component of a plain path, if it is no step up, is a name. -/
theorem ArePlain.isName_of_ne {top : Bytes} {below : List Bytes}
    (h : ArePlain rooted (top :: below).reverse) (htop : top ≠ up) : IsName top := by
  obtain ⟨n, names, hstack, hnames, -⟩ := h
  have hmem : top ∈ List.replicate n up ++ names := by simp [← hstack]
  obtain hmem | hmem := List.mem_append.mp hmem
  · exact absurd (List.eq_of_mem_replicate hmem) htop
  · exact hnames top hmem

/-- A plain path that does not end in a name has steps up only. -/
theorem ArePlain.eq_replicate (h : ArePlain rooted stack.reverse)
    (htop : ∀ top ∈ stack.head?, top = up) :
    ∃ n, stack.reverse = List.replicate n up ∧ (rooted = true → n = 0) := by
  obtain ⟨n, names, hstack, hnames, hn⟩ := h
  obtain rfl | ⟨l, last, rfl⟩ := names.eq_nil_or_concat'
  · exact ⟨n, by simpa using hstack, hn⟩
  · have hlast : last ∈ stack.head? := by
      rw [← List.getLast?_reverse, hstack]
      simp
    exact absurd (htop last hlast) (hnames last (by simp)).notUp

/-- Adding a component to a plain path leads to a plain path. -/
theorem ArePlain.push (h : ArePlain rooted stack.reverse) (hc : separator ∉ c) :
    ArePlain rooted (Path.push rooted stack c).reverse := by
  have hpush := pushed rooted stack c
  generalize Path.push rooted stack c = pushed at hpush
  cases hpush with
  | stay => exact h
  | root => exact h
  -- a step up is kept only behind steps up, and never below a root
  | rise free risen =>
    obtain ⟨n, hstack, hn⟩ := h.eq_replicate risen
    refine ⟨n + 1, [], ?_, by simp, fun hrooted => ?_⟩
    · rw [List.reverse_cons, hstack, List.append_nil, List.replicate_succ']
    · rw [hn hrooted] at hstack
      simp_all
  | back name => exact h.initial (by simp)
  | down nonempty notSelf notUp =>
    rw [List.reverse_cons]
    exact h.append (by simpa using ⟨nonempty, notSelf, notUp, hc⟩)

/-- Components added one after the other. -/
theorem ArePlain.foldl_push (h : ArePlain rooted stack.reverse)
    (hparts : ∀ c ∈ parts, separator ∉ c) :
    ArePlain rooted (parts.foldl (Path.push rooted) stack).reverse := by
  induction parts generalizing stack with
  | nil => exact h
  | cons c r ih =>
    obtain ⟨hc, hr⟩ := List.forall_mem_cons.mp hparts
    exact ih (h.push hc) hr

/-- The plain form of a text is plain. -/
theorem arePlain_plainParts (t : Bytes) : ArePlain (isRooted t) (plainParts t) :=
  @ArePlain.foldl_push _ _ [] (.nil _) fun _ => Bytes.not_mem_of_mem_split

/-- Names are added as they are. -/
theorem foldl_push_names {names : List Bytes} (h : ∀ c ∈ names, IsName c) (stack : List Bytes) :
    names.foldl (Path.push rooted) stack = names.reverse ++ stack := by
  induction names generalizing stack with
  | nil => rfl
  | cons c r ih =>
    obtain ⟨hc, hr⟩ := List.forall_mem_cons.mp h
    rw [List.foldl_cons, ih hr]
    simp [Path.push, hc.nonempty, hc.notSelf, hc.notUp]

/-- Steps up are kept in a path without a root. -/
theorem foldl_push_replicate (n m : Nat) :
    (List.replicate n up).foldl (Path.push false) (List.replicate m up)
      = List.replicate (n + m) up := by
  induction n generalizing m with
  | zero => simp
  | succ n ih =>
    have hpush : Path.push false (List.replicate m up) up = List.replicate (m + 1) up := by
      cases m <;> rfl
    rw [List.replicate_succ, List.foldl_cons, hpush, ih, Nat.add_assoc, Nat.add_comm 1 m]

/-- A plain path is its own plain form. -/
theorem ArePlain.foldl_push_nil (h : ArePlain rooted parts) :
    parts.foldl (Path.push rooted) [] = parts.reverse := by
  obtain ⟨n, names, rfl, hnames, hn⟩ := h
  rw [List.foldl_append, foldl_push_names hnames, List.reverse_append, List.reverse_replicate]
  congr 1
  cases rooted with
  | true => simp [hn rfl]
  | false => simpa using foldl_push_replicate n 0

/-- No component is empty. -/
theorem ArePlain.nonempty_of_mem (h : ArePlain rooted parts) (hc : c ∈ parts) : c ≠ [] := by
  obtain ⟨n, names, rfl, hnames, -⟩ := h
  obtain hc | hc := List.mem_append.mp hc
  · rw [List.eq_of_mem_replicate hc]
    decide
  · exact (hnames c hc).nonempty

/-- No component holds a separator. -/
theorem ArePlain.noSeparator_of_mem (h : ArePlain rooted parts) (hc : c ∈ parts) :
    separator ∉ c := by
  obtain ⟨n, names, rfl, hnames, -⟩ := h
  obtain hc | hc := List.mem_append.mp hc
  · rw [List.eq_of_mem_replicate hc]
    decide
  · exact (hnames c hc).noSeparator

/-! ### Plain forms lead to the same places -/

/-- Adding a component to a plain path is a step of the walk. -/
theorem walk_push {start : List Bytes} (hstart : rooted = true → start = [])
    (h : ArePlain rooted stack.reverse) (c : Bytes) :
    walk start (Path.push rooted stack c).reverse = walk (walk start stack.reverse) [c] := by
  have hpush := pushed rooted stack c
  generalize Path.push rooted stack c = pushed at hpush
  cases hpush with
  | stay idle =>
    have hidle : (c.isEmpty || c == ".") = true := by simpa using idle
    simp [walk, hidle]
  | root root =>
    rw [hstart root]
    rfl
  | rise => rw [List.reverse_cons, walk_append]
  | back name =>
    -- what is taken off is a name, which the walk has added
    rw [List.reverse_cons, walk_append, walk_name (h.isName_of_ne name)]
    simp only [walk, List.dropLast_concat]
    rfl
  | down => rw [List.reverse_cons, walk_append]

/-- The plain form leads where the components lead. -/
theorem walk_foldl_push {start : List Bytes} (hstart : rooted = true → start = [])
    (h : ArePlain rooted stack.reverse) (hparts : ∀ c ∈ parts, separator ∉ c) :
    walk start (parts.foldl (Path.push rooted) stack).reverse
      = walk (walk start stack.reverse) parts := by
  induction parts generalizing stack with
  | nil => rfl
  | cons c r ih =>
    obtain ⟨hc, hr⟩ := List.forall_mem_cons.mp hparts
    rw [List.foldl_cons, ih (h.push hc) hr, walk_push hstart h, ← walk_append]
    rfl

/-- If the way along the components is open, it is open along the plain form. -/
theorem Disk.follow_push {t : Tree} {start m q : List Bytes}
    (hstart : rooted = true → start = []) (h : ArePlain rooted stack.reverse)
    (hstack : Disk.follow t start stack.reverse = .ok m) (hc : Disk.follow t m [c] = .ok q) :
    Disk.follow t start (Path.push rooted stack c).reverse = .ok q := by
  have hsnoc : Disk.follow t start (stack.reverse ++ [c]) = .ok q :=
    Disk.follow_append_eq_ok_iff.mpr ⟨m, hstack, hc⟩
  -- the place reached is known from the walk; what is to be shown is that nothing is in the way
  have hq : q = walk start (Path.push rooted stack c).reverse := by
    rw [walk_push hstart h, ← walk_append]
    exact Disk.eq_walk_of_follow hsnoc
  have hpush := pushed rooted stack c
  generalize Path.push rooted stack c = pushed at hpush hq
  cases hpush with
  | stay =>
    rw [hq, ← Disk.eq_walk_of_follow hstack]
    exact hstack
  | root =>
    rw [hq]
    rfl
  | rise => exact List.reverse_cons ▸ hsnoc
  -- back from a name: the place before it has been passed through
  | back =>
    rw [List.reverse_cons] at hstack
    obtain ⟨k, hbelow, -⟩ := Disk.follow_append_eq_ok_iff.mp hstack
    rw [hq, ← Disk.eq_walk_of_follow hbelow]
    exact hbelow
  | down => exact List.reverse_cons ▸ hsnoc

/-- What can be followed can be followed in plain form. -/
theorem Disk.follow_foldl_push {t : Tree} {start m q : List Bytes}
    (hstart : rooted = true → start = []) (h : ArePlain rooted stack.reverse)
    (hparts : ∀ c ∈ parts, separator ∉ c) (hstack : Disk.follow t start stack.reverse = .ok m)
    (hrest : Disk.follow t m parts = .ok q) :
    Disk.follow t start (parts.foldl (Path.push rooted) stack).reverse = .ok q := by
  induction parts generalizing stack m with
  | nil => exact hstack.trans hrest
  | cons c r ih =>
    obtain ⟨hc, hr⟩ := List.forall_mem_cons.mp hparts
    obtain ⟨k, hk, hrest⟩ := (Disk.follow_append_eq_ok_iff (a := [c])).mp hrest
    exact ih (h.push hc) hr (Disk.follow_push hstart h hstack hk) hrest

end

/-! ## §5 Texts of plain paths -/

section

variable {rooted : Bool} {parts names : List Bytes} {t dir c : Bytes}

/-- The text of a path with components. -/
theorem text_cons (rooted : Bool) (c : Bytes) (r : List Bytes) :
    Path.text ⟨rooted, c :: r⟩
      = Bytes.join [separator] ((if rooted then [[]] else []) ++ c :: r) := by
  cases rooted <;> simp [Path.text, Bytes.join, List.intercalate_cons_cons]

/-- The text of a plain path is read as this path. -/
theorem ofText_text (h : ArePlain rooted parts) (hne : parts ≠ []) :
    Path.ofText (Path.text ⟨rooted, parts⟩)
      = ⟨rooted, (if rooted then [[]] else []) ++ parts⟩ := by
  obtain ⟨c, r, rfl⟩ := List.exists_cons_of_ne_nil hne
  have hnone : ∀ b ∈ c :: r, separator ∉ b := fun b => h.noSeparator_of_mem
  rw [text_cons, Path.ofText]
  cases rooted with
  -- a root is an empty first piece
  | true =>
    have hsplit := @Bytes.split_join _ [] (c :: r) (by simpa using hnone)
    simpa [Bytes.join, List.intercalate_cons_cons] using hsplit
  -- without one the text begins with the first byte of a component, which is no separator
  | false =>
    obtain ⟨x, c, rfl⟩ := List.exists_cons_of_ne_nil (h.nonempty_of_mem (List.mem_cons_self ..))
    have hx : x ≠ separator := fun heq => hnone _ (List.mem_cons_self ..) (by simp [heq])
    have hhead : (Bytes.join [separator] ((x :: c) :: r)).head? = some x := by
      cases r <;> simp [Bytes.join, List.intercalate_cons_cons]
    simp [hhead, hx, Bytes.split_join hnone]

/-- The text of a path is rooted if the path is. -/
theorem isRooted_text (h : ArePlain rooted parts) (hne : parts ≠ []) :
    isRooted (Path.text ⟨rooted, parts⟩) = rooted := congrArg Path.rooted (ofText_text h hne)

/-- It is cut into the components. -/
theorem split_text (h : ArePlain rooted parts) (hne : parts ≠ []) :
    Bytes.split separator (Path.text ⟨rooted, parts⟩)
      = (if rooted then [[]] else []) ++ parts := congrArg Path.parts (ofText_text h hne)

/-- It is never empty. -/
theorem text_ne_nil (h : ArePlain rooted parts) : Path.text ⟨rooted, parts⟩ ≠ [] := by
  cases parts with
  | nil => cases rooted <;> decide
  | cons c r =>
    intro heq
    have hsplit := split_text h (List.cons_ne_nil c r)
    rw [heq] at hsplit
    have hc := h.nonempty_of_mem (List.mem_cons_self ..)
    cases rooted <;> simp_all

/-! ### Places of texts -/

namespace Disk

variable {d : Disk} {p : List Bytes}

/-- The place from which a text leads. -/
def start (d : Disk) (t : Bytes) : List Bytes := if isRooted t then [] else d.cwd

/-- The place to which a text leads if nothing is in the way. -/
def place (d : Disk) (t : Bytes) : List Bytes := walk (d.start t) (Bytes.split separator t)

/-- A rooted text leads from the root. -/
theorem start_eq_nil (d : Disk) (h : isRooted t = true) : d.start t = [] := by simp [start, h]

/-- A text is found when it is not empty, has no zero byte and can be followed. -/
theorem find_eq_ok_iff : d.find t = .ok p ↔
    t ≠ [] ∧ 0 ∉ t ∧ follow d.tree (d.start t) (Bytes.split separator t) = .ok p := by
  rw [find, start]
  split
  · simp_all
  · split <;> simp_all

/-- What is found is at the place of the text. -/
theorem eq_place_of_find (h : d.find t = .ok p) : p = d.place t :=
  eq_walk_of_follow (find_eq_ok_iff.mp h).2.2

/-- The place of a text is told by its plain form. -/
theorem place_eq_walk_plainParts (d : Disk) (t : Bytes) :
    d.place t = walk (d.start t) (plainParts t) :=
  (@walk_foldl_push _ _ [] _ (start_eq_nil d) (.nil _) fun _ => Bytes.not_mem_of_mem_split).symm

/-- What is found can be followed in plain form. -/
theorem follow_plainParts
    (h : follow d.tree (d.start t) (Bytes.split separator t) = .ok p) :
    follow d.tree (d.start t) (plainParts t) = .ok p :=
  @follow_foldl_push _ _ [] _ _ _ _ (start_eq_nil d) (.nil _)
    (fun _ => Bytes.not_mem_of_mem_split) rfl h

/-- A text of a plain path is found by the components of the path. -/
theorem find_text (h : ArePlain rooted parts) (hne : parts ≠ []) :
    d.find (Path.text ⟨rooted, parts⟩) = .ok p ↔ 0 ∉ Path.text ⟨rooted, parts⟩
      ∧ follow d.tree (if rooted then [] else d.cwd) parts = .ok p := by
  rw [find_eq_ok_iff, split_text h hne, start, isRooted_text h hne]
  simp only [ne_eq, text_ne_nil h, not_false_eq_true, true_and, and_congr_right_iff]
  intro _
  cases rooted <;> simp [follow]

/-- The place of a plain path. -/
theorem place_text (d : Disk) (h : ArePlain rooted parts) (hne : parts ≠ []) :
    d.place (Path.text ⟨rooted, parts⟩) = walk (if rooted then [] else d.cwd) parts := by
  rw [place, split_text h hne, start, isRooted_text h hne]
  cases rooted <;> simp [walk]

end Disk

/-! ### Below a directory -/

/-- The path to names below a directory. -/
def below (dir : Bytes) (names : List Bytes) : Bytes :=
  Path.text ⟨isRooted dir, plainParts dir ++ names⟩

/-- Names below a directory. -/
theorem arePlain_below (dir : Bytes) (hnames : ∀ c ∈ names, IsName c) :
    ArePlain (isRooted dir) (plainParts dir ++ names) := (arePlain_plainParts dir).append hnames

/-- They lead down from the place of the directory. -/
theorem Disk.place_below (d : Disk) (dir : Bytes) (hnames : ∀ c ∈ names, IsName c)
    (hne : names ≠ []) : d.place (below dir names) = d.place dir ++ names := by
  have hparts : plainParts dir ++ names ≠ [] := by simp [hne]
  rw [below, place_text d (arePlain_below dir hnames) hparts, walk_append, walk_names hnames,
    place_eq_walk_plainParts, start]

/-- The plain form of a text behind a directory. -/
theorem plainText_append_cons (hdir : dir ≠ []) (rel : Bytes) :
    plainText (dir ++ separator :: rel) = Path.text ⟨isRooted dir, ((Bytes.split separator rel).foldl
      (Path.push (isRooted dir)) (plainParts dir).reverse).reverse⟩ := by
  have hhead : (dir ++ separator :: rel).head? = dir.head? := by
    obtain ⟨c, r, rfl⟩ := List.exists_cons_of_ne_nil hdir
    rfl
  rw [plainText, Path.ofText, hhead, Bytes.split_append_cons, Path.plain, List.foldl_append]
  simp [plainParts, Path.plain, Path.ofText, isRooted]

/-- Two texts are joined with a separator and put in plain form. -/
theorem joinTexts_pair (hdir : dir ≠ []) {rel : Bytes} (hrel : rel ≠ []) :
    joinTexts [dir, rel] = plainText (dir ++ separator :: rel) := by
  have hdir : dir.isEmpty = false := by simpa using hdir
  have hrel : rel.isEmpty = false := by simpa using hrel
  simp [joinTexts, hdir, hrel, Bytes.join, List.intercalate_cons_cons]

/-- Names joined to a directory. -/
theorem joinTexts_names (hdir : dir ≠ []) (hnames : ∀ c ∈ names, IsName c) (hne : names ≠ []) :
    joinTexts [dir, Bytes.join [separator] names] = below dir names := by
  obtain ⟨c, r, rfl⟩ := List.exists_cons_of_ne_nil hne
  have hsplit := Bytes.split_join fun b hb => (hnames b hb).noSeparator
  have hrel : Bytes.join [separator] (c :: r) ≠ [] := fun heq => by
    rw [heq] at hsplit
    have hc := (hnames c (List.mem_cons_self ..)).nonempty
    simp_all
  rw [joinTexts_pair hdir hrel, plainText_append_cons hdir, hsplit, foldl_push_names hnames, below]
  simp

/-- What a plain path lies in. -/
theorem parentText_text (h : ArePlain rooted (parts ++ [c])) :
    parentText (Path.text ⟨rooted, parts ++ [c]⟩) = Path.text ⟨rooted, parts⟩ := by
  have hparts : ArePlain rooted parts := h.initial (List.prefix_append ..)
  have hc : separator ∉ c := h.noSeparator_of_mem (by simp)
  have hall : ∀ x ∈ c.reverse, (x != separator) = true := by
    simpa using fun x hx => ne_of_mem_of_not_mem hx hc
  -- the last component has no separator, so the text is cut in front of it
  have hcut (a : Bytes) : upToSeparator (a ++ separator :: c) = a ++ [separator] := by
    simp [upToSeparator, List.dropWhile_append_of_pos hall]
  rw [parentText]
  cases parts with
  | nil =>
    cases rooted with
    | true =>
      have hroot := hcut []
      simp only [List.nil_append] at hroot
      simp only [Path.text, List.nil_append, Bytes.join_singleton, if_true, hroot]
      rfl
    | false =>
      have hnone : upToSeparator c = [] := by
        simp [upToSeparator, List.dropWhile_eq_nil_iff.mpr hall]
      simp [Path.text, hnone]
      rfl
  | cons b r =>
    have htext : Path.text ⟨rooted, b :: r ++ [c]⟩
        = Path.text ⟨rooted, b :: r⟩ ++ separator :: c := by
      rw [List.cons_append, text_cons, text_cons, ← List.cons_append, ← List.append_assoc,
        Bytes.join_append (by simp) (by simp), Bytes.join_singleton]
    have hne : Path.text ⟨rooted, b :: r⟩ ≠ [] := text_ne_nil hparts
    have hplain : plainParts (Path.text ⟨rooted, b :: r⟩) = b :: r := by
      have hskip (stack : List Bytes) : Path.push rooted stack [] = stack := rfl
      rw [plainParts, ofText_text hparts (by simp), Path.plain]
      cases rooted with
      | true => simpa [hskip] using congrArg List.reverse hparts.foldl_push_nil
      | false => simpa using congrArg List.reverse hparts.foldl_push_nil
    rw [htext, hcut, plainText_append_cons hne, isRooted_text hparts (by simp), hplain]
    simp [Path.push]

end

end Files

end Idl
