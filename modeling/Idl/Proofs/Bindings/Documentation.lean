import Idl.Bindings
import Idl.Proofs.Bindings.Filling
import Idl.Proofs.Files.Walk

/-!
# Documentation in bindings

The documentation of a schema is text that its author is free to choose, and it goes into code as it
is. What keeps it from being read as code is that each of its lines becomes a comment of its own.
The text is cut at the ends of its lines, every piece gets the indent and the mark of a comment, and
the templates put the comments where a line begins. So two fillings of a template, one with
documentation and one without, have the same lines of code.

* §1 spaces at the end of a line, §2 the lines of comments,
* §3 code without comments, §4 data without documentation,
* §5 templates that put documentation where a line begins, §6 expressions, §7 filling in.
-/

namespace Idl

/-! ## §1 Spaces at the end -/

namespace Bytes

variable {a p q : Bytes}

/-- A text without the spaces at its end. -/
structure Trims (t a : Bytes) : Prop where
  spaces : ∃ k, t = a ++ List.replicate k 0x20
  last : a.getLast? ≠ some 0x20

/-- Texts that differ in the spaces at their ends, if at all. -/
def SameTrimmed (p q : Bytes) : Prop :=
  ∃ j k, p ++ List.replicate j 0x20 = q ++ List.replicate k 0x20

/-- The text without the spaces at its end. -/
def trimmed (b : Bytes) : Bytes := dropTailWhile (· == 0x20) b

/-- The trimmed text is what it should be. -/
theorem trims_trimmed (b : Bytes) : Trims b (trimmed b) where
  spaces := by
    -- what is dropped from the end are spaces
    have hall : ∀ c ∈ b.reverse.takeWhile (· == 0x20), c = 0x20 := fun c hc => by
      simpa using List.mem_takeWhile_imp hc
    have happend := congrArg List.reverse
      (List.takeWhile_append_dropWhile (p := (· == 0x20)) (l := b.reverse))
    rw [List.reverse_append, List.reverse_reverse, List.eq_replicate_of_mem hall,
      List.reverse_replicate] at happend
    exact ⟨_, happend.symm⟩
  last := by
    rw [trimmed, dropTailWhile, List.getLast?_reverse]
    intro h
    have hnot := List.head?_dropWhile_not (· == (0x20 : UInt8)) b.reverse
    rw [h] at hnot
    simp at hnot

/-- Only the last part that is not all spaces is trimmed. -/
theorem trimmed_append (u p : Bytes) :
    trimmed (u ++ p) = if trimmed p = [] then trimmed u else u ++ trimmed p := by
  simp only [trimmed, dropTailWhile, List.reverse_append, List.dropWhile_append, List.isEmpty_iff,
    List.reverse_eq_nil_iff]
  split
  · rfl
  · rw [List.reverse_append, List.reverse_reverse]

/-- Spaces alone are trimmed away. -/
theorem trimmed_replicate (k : Nat) : trimmed (List.replicate k 0x20) = [] := by
  simp [trimmed, dropTailWhile]

/-- A text that ends in something else stays. -/
theorem trimmed_eq_self (h : a.getLast? ≠ some 0x20) : trimmed a = a := by
  obtain ⟨⟨k, hk⟩, -⟩ := trims_trimmed a
  cases k with
  | zero =>
    rw [List.replicate_zero, List.append_nil] at hk
    exact hk.symm
  | succ k =>
    have hlast : a.getLast? = some 0x20 := by
      rw [hk, List.replicate_succ', ← List.append_assoc, List.getLast?_concat]
    exact absurd hlast h

/-- Texts without the spaces at their ends are equal exactly if the texts differ in those only. -/
theorem trimmed_eq_iff : trimmed p = trimmed q ↔ SameTrimmed p q := by
  -- blanks at the end do not count
  have hself (p : Bytes) (k : Nat) : trimmed (p ++ List.replicate k 0x20) = trimmed p := by
    rw [trimmed_append, if_pos (trimmed_replicate k)]
  constructor
  · intro h
    obtain ⟨⟨j, hj⟩, -⟩ := trims_trimmed p
    obtain ⟨⟨k, hk⟩, -⟩ := trims_trimmed q
    refine ⟨k, j, ?_⟩
    rw [hj, hk, h, List.append_assoc, List.append_assoc, List.replicate_append_replicate,
      List.replicate_append_replicate, Nat.add_comm]
  · rintro ⟨j, k, h⟩
    rw [← hself p j, h, hself]

end Bytes

/-! ## §2 The lines of comments -/

namespace Template

open Bytes (SameTrimmed Trims trimmed)

/-- The marks of comments in the built-in templates, with their indents. -/
def styles : List (Bytes × Bytes) := [("//", ""), ("//", "\t"), ("///", ""), ("///", "    ")]

/-- A text that is cut at the ends of its lines. -/
structure CutAtLines (doc : Bytes) (group : List Bytes) : Prop where
  ne_nil : group ≠ []
  join : Bytes.join [0x0A] group = doc
  unbroken : ∀ piece ∈ group, 0x0A ∉ piece

/-- Whether a line has nothing but a comment. -/
def isComment (line : Bytes) : Bool :=
  Bytes.startsWith (line.dropWhile fun c => c == 0x20 || c == 0x09) "//"

/-- A line that has nothing but a piece of documentation: the indent and the mark of a comment, and
the piece with a space in front of it and none at its end. -/
structure CommentLine (mark indent piece line : Bytes) : Prop where
  unbroken : 0x0A ∉ line
  shape : ∃ body, line = indent ++ mark ++ body ∧ Trims (0x20 :: piece) body
  isComment : isComment line = true

/-- The pieces of all texts, in order. -/
def pieces (docs : List Bytes) : List Bytes := docs.flatMap (Bytes.split 0x0A)

/-- The line of a piece. -/
def commentLine (mark indent piece : Bytes) : Bytes := indent ++ mark ++ trimmed (0x20 :: piece)

/-- A text is cut at the ends of its lines in one way. -/
theorem cutAtLines_iff {doc : Bytes} {group : List Bytes} :
    CutAtLines doc group ↔ Bytes.split 0x0A doc = group := by
  constructor
  · rintro ⟨hne, rfl, hunbroken⟩
    obtain ⟨p, r, rfl⟩ := List.exists_cons_of_ne_nil hne
    exact Bytes.split_join hunbroken
  · rintro rfl
    exact ⟨Bytes.split_ne_nil doc, Bytes.join_split doc, fun _ => Bytes.not_mem_of_mem_split⟩

/-- So are several texts. -/
theorem forall₂_cutAtLines_iff {docs : List Bytes} {groups : List (List Bytes)} :
    List.Forall₂ CutAtLines docs groups ↔ docs.map (Bytes.split 0x0A) = groups := by
  have hcut : CutAtLines = fun doc group => Bytes.split 0x0A doc = group := by
    funext doc group
    exact propext cutAtLines_iff
  rw [hcut, ← List.forall₂_map_left_iff, List.forall₂_eq_eq_eq]

/-- A piece is one line. -/
theorem not_mem_of_mem_pieces {docs : List Bytes} {piece : Bytes} (h : piece ∈ pieces docs) :
    0x0A ∉ piece := by
  obtain ⟨doc, -, hpiece⟩ := List.mem_flatMap.mp h
  exact Bytes.not_mem_of_mem_split hpiece

section

variable {mark indent piece : Bytes}

/-- What every style has in common: only blanks in the indent, and the slashes of a comment. -/
structure IsStyle (mark indent : Bytes) : Prop where
  slashes : ∃ more, mark = 0x2F :: 0x2F :: more
  last : mark.getLast? ≠ some 0x20
  blanks : ∀ c ∈ indent, c = 0x20 ∨ c = 0x09
  unbroken : 0x0A ∉ indent ++ mark

/-- The styles of the templates are styles. -/
theorem isStyle_of_mem (h : (mark, indent) ∈ styles) : IsStyle mark indent := by
  have hall : ∀ s ∈ styles, s.1.take 2 = [0x2F, 0x2F] ∧ s.1.getLast? ≠ some 0x20
      ∧ (∀ c ∈ s.2, c = 0x20 ∨ c = 0x09) ∧ 0x0A ∉ s.2 ++ s.1 := by decide +kernel
  obtain ⟨hslashes, hlast, hblanks, hunbroken⟩ := hall _ h
  refine ⟨⟨mark.drop 2, ?_⟩, hlast, hblanks, hunbroken⟩
  exact (List.take_append_drop 2 mark).symm.trans (congrArg (· ++ mark.drop 2) hslashes)

namespace IsStyle

/-- The mark stays as it is, whatever is behind it. -/
theorem trimmed_append (h : IsStyle mark indent) (piece : Bytes) :
    trimmed (mark ++ piece) = mark ++ trimmed piece := by
  rw [Bytes.trimmed_append, Bytes.trimmed_eq_self h.last]
  split
  · next hnil => rw [hnil, List.append_nil]
  · rfl

/-- The line written for a piece is a comment with that piece. -/
theorem commentLine (h : IsStyle mark indent) (hpiece : 0x0A ∉ piece) :
    CommentLine mark indent piece (commentLine mark indent piece) where
  unbroken hmem := by
    rcases List.mem_append.mp hmem with hmem | hmem
    · exact h.unbroken hmem
    · -- what is trimmed off cannot break the line
      obtain ⟨⟨k, hk⟩, -⟩ := Bytes.trims_trimmed (0x20 :: piece)
      have hall : 0x0A ∈ 0x20 :: piece := hk ▸ List.mem_append_left _ hmem
      exact hpiece (by simpa using hall)
  shape := ⟨_, rfl, Bytes.trims_trimmed _⟩
  isComment := by
    obtain ⟨more, rfl⟩ := h.slashes
    have hblanks : ∀ c ∈ indent, (c == 0x20 || c == 0x09) = true := fun c hc => by
      simpa using h.blanks c hc
    rw [Template.isComment, Template.commentLine, List.append_assoc,
      List.dropWhile_append_of_pos hblanks]
    rfl

/-- A line for each piece. -/
theorem forall₂_commentLine (h : IsStyle mark indent) (docs : List Bytes) :
    List.Forall₂ (CommentLine mark indent) (pieces docs)
      ((pieces docs).map (Template.commentLine mark indent)) := by
  refine List.forall₂_map_right_iff.mpr (List.forall₂_same.mpr fun piece hpiece => ?_)
  exact h.commentLine (not_mem_of_mem_pieces hpiece)

/-- Documentation is written piece by piece. -/
theorem comment_eq (h : IsStyle mark indent) (docs : List Bytes) :
    comment mark indent docs
      = ((pieces docs).map (Template.commentLine mark indent)).flatMap (· ++ [0x0A]) := by
  have hline (piece : Bytes) : indent ++ trimmed (mark ++ [0x20] ++ piece) ++ [0x0A]
      = Template.commentLine mark indent piece ++ [0x0A] := by
    rw [List.append_assoc mark, h.trimmed_append, Template.commentLine, ← List.append_assoc indent]
    rfl
  rw [pieces, List.flatMap_map, List.flatMap_assoc]
  simp only [← hline]
  rfl

end IsStyle

/-- The line of a piece leaves nothing of it out but the spaces at its end. -/
theorem commentLine_inj {p q : Bytes} :
    commentLine mark indent p = commentLine mark indent q ↔ SameTrimmed p q := by
  have hcons (p : Bytes) : trimmed (0x20 :: p) = if trimmed p = [] then [] else 0x20 :: trimmed p :=
    Bytes.trimmed_append [0x20] p
  rw [← Bytes.trimmed_eq_iff, commentLine, commentLine, List.append_cancel_left_eq, hcons, hcons]
  -- a piece that is nothing but spaces leaves the mark alone, and no other does
  constructor
  · intro h
    split at h <;> split at h <;> simp_all
  · intro h
    rw [h]

/-- Lines that are ended one by one can be told apart. -/
theorem flatMap_line_inj {l m : List Bytes} (hl : ∀ line ∈ l, 0x0A ∉ line)
    (hm : ∀ line ∈ m, 0x0A ∉ line) :
    l.flatMap (· ++ [0x0A]) = m.flatMap (· ++ [0x0A]) ↔ l = m := by
  refine ⟨fun h => ?_, fun h => h ▸ rfl⟩
  have hsplit := congrArg (Bytes.split 0x0A) h
  rw [Bytes.split_flatMap_append hl, Bytes.split_flatMap_append hm] at hsplit
  exact List.append_cancel_right hsplit

/-- Documentation is written in the same way exactly if its pieces differ in the spaces at their
ends only. -/
theorem IsStyle.comment_inj (h : IsStyle mark indent) (docs docs' : List Bytes) :
    comment mark indent docs = comment mark indent docs'
      ↔ List.Forall₂ SameTrimmed (pieces docs) (pieces docs') := by
  have hunbroken (docs : List Bytes) :
      ∀ line ∈ (pieces docs).map (Template.commentLine mark indent), 0x0A ∉ line :=
    List.forall_mem_map.mpr fun piece hpiece =>
      (h.commentLine (not_mem_of_mem_pieces hpiece)).unbroken
  rw [h.comment_eq, h.comment_eq, flatMap_line_inj (hunbroken docs) (hunbroken docs'),
    ← List.forall₂_eq_eq_eq, List.forall₂_map_left_iff, List.forall₂_map_right_iff]
  simp only [commentLine_inj]

end

/-! ## §3 Code without comments -/

/-- The lines of a text that are no comments. -/
def codeLines (b : Bytes) : List Bytes := (Bytes.split 0x0A b).filter fun line => !isComment line

/-- Two parts have the same code wherever in a text they stand; `front` is for parts that stand
where a line begins. -/
def SameCode (front : Bool) (a b : Bytes) : Prop :=
  ∀ u v, (front = true → u.getLast? = some 0x0A) → codeLines (u ++ a ++ v) = codeLines (u ++ b ++ v)

namespace SameCode

variable {front : Bool} {a b c d : Bytes}

/-- A text has the code it has. -/
theorem refl (front : Bool) (a : Bytes) : SameCode front a a := fun _ _ _ => rfl

/-- What holds everywhere holds where a line begins. -/
theorem weaken (h : SameCode false a b) (front : Bool) : SameCode front a b :=
  fun u v _ => h u v (by simp)

/-- Parts with the same code one after the other. The one in front tells whether a line begins
behind it. -/
theorem append {next : Bool} (h : SameCode front a b) (h' : SameCode next c d)
    (hnext : next = true → b.getLast? = some 0x0A) : SameCode front (a ++ c) (b ++ d) := by
  intro u v hu
  have hfirst := h u (c ++ v) hu
  have hsecond := h' (u ++ b) v fun hn => by rw [List.getLast?_append, hnext hn]; rfl
  simp only [List.append_assoc] at hfirst hsecond ⊢
  exact hfirst.trans hsecond

/-- Parts put together. -/
theorem flatten {l m : List Bytes} (h : List.Forall₂ (SameCode false) l m) :
    SameCode false l.flatten m.flatten := by
  induction h with
  | nil => exact refl false []
  | cons hd _ ih => exact hd.append ih (by simp)

/-- Comments where a line begins are no code. -/
theorem comments {lines : List Bytes} (h : ∀ line ∈ lines, 0x0A ∉ line ∧ isComment line = true) :
    SameCode true (lines.flatMap (· ++ [0x0A])) [] := by
  intro u v hu
  -- a line ends in front of the comments, and one behind them, so they are cut off on both sides
  obtain ⟨w, rfl⟩ := List.getLast?_eq_some_iff.mp (hu rfl)
  have hskip : lines.filter (fun line => !isComment line) = [] :=
    List.filter_eq_nil_iff.mpr fun line hline => by simp [(h line hline).2]
  have hlines : codeLines (lines.flatMap (· ++ [0x0A]) ++ v) = codeLines v := by
    rw [codeLines, Bytes.split_lines_append (fun line hline => (h line hline).1),
      List.filter_append, hskip]
    rfl
  have hcut (z : Bytes) : codeLines (w ++ [0x0A] ++ z) = codeLines w ++ codeLines z := by
    rw [codeLines, List.append_assoc, List.singleton_append, Bytes.split_append_cons,
      List.filter_append]
    rfl
  rw [List.append_assoc (w ++ [0x0A]), hcut, hlines, List.append_nil, hcut]

end SameCode

/-- Documentation is no code where a line begins. -/
theorem sameCode_comment {mark indent : Bytes} (h : (mark, indent) ∈ styles) (docs : List Bytes) :
    SameCode true (comment mark indent docs) [] := by
  have hstyle := isStyle_of_mem h
  rw [hstyle.comment_eq]
  refine .comments (List.forall_mem_map.mpr fun piece hpiece => ?_)
  have hline := hstyle.commentLine (not_mem_of_mem_pieces hpiece)
  exact ⟨hline.unbroken, hline.isComment⟩

/-! ## §4 Data without documentation -/

/-- The name of the field that holds documentation. -/
def docsField : Bytes := "Docs"

namespace Data

mutual

/-- The data without their documentation. -/
def bare : Data → Data
  | .absent => .absent
  | .text t => .text t
  | .flag b => .flag b
  | .list items => .list (bareItems items)
  | .record fields => .record (bareFields fields)

/-- The items of a list without their documentation. -/
def bareItems : List Data → List Data
  | [] => []
  | d :: r => d.bare :: bareItems r

/-- The fields of a record without their documentation. The names stay. -/
def bareFields : List (Bytes × Data) → List (Bytes × Data)
  | [] => []
  | (name, d) :: r => (name, if name == docsField then .list [] else d.bare) :: bareFields r

end

variable {d x : Data} {name : Bytes}

/-- The items of a list, one by one. -/
theorem bareItems_eq (l : List Data) : bareItems l = l.map bare := by
  induction l with
  | nil => rfl
  | cons d r ih => rw [bareItems, ih, List.map_cons]

/-- The fields of a record: the documentation is emptied. -/
theorem bareFields_eq (l : List (Bytes × Data)) : bareFields l
    = l.map fun x => (x.1, if x.1 == docsField then .list [] else x.2.bare) := by
  induction l with
  | nil => rfl
  | cons x r ih => rw [bareFields, ih, List.map_cons]

/-- Any other field is the bare one. -/
theorem field_bare (h : name ≠ docsField) (d : Data) :
    d.bare.field name = (d.field name).map bare := by
  cases d with
  | record fields =>
    simp only [bare, field, bareFields_eq, List.find?_map, Function.comp_def]
    cases hfind : fields.find? fun x => x.1 == name with
    | none => rfl
    -- the record has the field, and it is not the one that is emptied
    | some x =>
      obtain rfl : x.1 = name := by simpa using List.find?_some hfind
      simp only [Option.map_some, beq_false_of_ne h]
      rfl
  | _ => rfl

/-- Without documentation there are no texts where the documentation was. -/
theorem field_docs_bare (h : d.field docsField = .ok x) :
    ∃ y, d.bare.field docsField = .ok y ∧ y.asTexts = .ok [] := by
  cases d with
  | absent => exact ⟨.absent, rfl, rfl⟩
  | record fields =>
    simp only [bare, field, bareFields_eq, List.find?_map, Function.comp_def] at h ⊢
    cases hfind : fields.find? fun x => x.1 == docsField with
    -- a record without documentation has none to read
    | none =>
      rw [hfind] at h
      cases h
    | some z =>
      refine ⟨.list [], ?_, rfl⟩
      have hname := List.find?_some hfind
      simp only [Option.map_some, hname, if_true]
  | _ => cases h

/-- Whether something is there does not depend on documentation. -/
theorem isTrue_bare (d : Data) : d.bare.isTrue = d.isTrue := by
  cases d with
  | list items => cases items <;> rfl
  | _ => rfl

/-- The items of a list are bare. -/
theorem items_bare (d : Data) : d.bare.items = d.items.map (List.map bare) := by
  cases d with
  | list l =>
    rw [bare, bareItems_eq]
    rfl
  | _ => rfl

/-- Texts stay. -/
theorem asText_bare (d : Data) : d.bare.asText = d.asText := by
  cases d <;> rfl

/-- So do texts in a list. -/
theorem mapM_asText_bare (l : List Data) : (l.map bare).mapM asText = l.mapM asText := by
  rw [List.mapM_map]
  exact congrArg (List.mapM · l) (funext asText_bare)

/-- The same through the field. -/
theorem asTexts_bare (d : Data) : d.bare.asTexts = d.asTexts := by
  rw [asTexts, asTexts, items_bare]
  cases d.items with
  | error e => rfl
  | ok l => exact mapM_asText_bare l

/-- What is written of a value stays. -/
theorem written_bare (d : Data) : d.bare.written = d.written := by
  cases d with
  | list items => simp only [bare, written, bareItems_eq, mapM_asText_bare]
  | _ => rfl

end Data

/-! ## §5 Where documentation is put -/

mutual

/-- Whether an expression does not look at documentation. -/
def Expr.isBare : Expr → Bool
  | .here path => !path.contains docsField
  | .root path => !path.contains docsField
  | .literal _ => true
  | .nothing => true
  | .call _ args => areBare args

/-- Whether no expression looks at documentation. -/
def areBare : List Expr → Bool
  | [] => true
  | e :: r => e.isBare && areBare r

end

/-- Whether an expression is the documentation of the data at hand, as comments. -/
def Expr.isDocs : Expr → Bool
  | .call .comment [.literal mark, .literal indent, .here [name]] =>
    styles.contains (mark, indent) && name == docsField
  | _ => false

/-- Whether a line begins behind a part. -/
def Node.endsLine : Node → Bool
  | .text t => t.getLast? == some 0x0A
  | _ => false

mutual

/-- Whether a part puts documentation into comments, and only where a line begins; `front` tells
whether one begins in front of it. -/
def Node.documents (front : Bool) : Node → Bool
  | .text _ => true
  | .value e => e.isBare || (front && e.isDocs)
  | .use _ e => e.isBare
  | .cond e yes no => e.isBare && documentsAll false yes && documentsAll false no
  | .each e body otherwise => e.isBare && documentsAll false body && documentsAll false otherwise
  | .about e body otherwise => e.isBare && documentsAll false body && documentsAll false otherwise

/-- Whether parts one after another do so. What a part ends with decides about the next one. -/
def documentsAll (front : Bool) : List Node → Bool
  | [] => true
  | n :: r => n.documents front && documentsAll n.endsLine r

end

/-- The built-in templates put documentation into comments, and only where a line begins. -/
theorem documentsAll_builtins : ∀ l ∈ [GoView.builtins, RustView.builtins], ∀ x ∈ l,
    documentsAll false x.2 = true := by
  have hall : ([GoView.builtins, RustView.builtins].all fun l =>
      l.all fun x => documentsAll false x.2) = true := by decide +kernel
  simpa only [List.all_eq_true] using hall

/-! ## §6 Expressions -/

/-- Functions make texts of their arguments, and do not look at documentation. -/
theorem Function.apply_bare (f : Function) (args : List Data) :
    f.apply (args.map Data.bare) = (f.apply args).map Data.bare := by
  -- data without documentation are written alike
  have hwritten : (args.map Data.bare).mapM Data.written = args.mapM Data.written := by
    rw [List.mapM_map]
    exact congrArg (List.mapM · args) (funext Data.written_bare)
  cases f with
  | quote =>
    simp only [apply, hwritten]
    cases args.mapM Data.written <;> rfl
  | pascal | camel | snake =>
    rcases args with _ | ⟨d, _ | ⟨d', r⟩⟩
    · rfl
    · simp only [List.map_cons, List.map_nil, apply, Data.asText_bare]
      cases d.asText <;> rfl
    · rfl
  | comment =>
    rcases args with _ | ⟨mark, _ | ⟨indent, _ | ⟨docs, _ | ⟨d, r⟩⟩⟩⟩
    · rfl
    · rfl
    · rfl
    · simp only [List.map_cons, List.map_nil, apply, Data.asText_bare, Data.asTexts_bare]
      cases mark.asText <;> cases indent.asText <;> cases docs.asTexts <;> rfl
    · rfl
  | join =>
    rcases args with _ | ⟨sep, _ | ⟨l, _ | ⟨d, r⟩⟩⟩
    · rfl
    · rfl
    · simp only [List.map_cons, List.map_nil, apply, Data.asText_bare, Data.asTexts_bare]
      cases sep.asText <;> cases l.asTexts <;> rfl
    · rfl

/-- A path that does not lead through documentation. -/
theorem follow_bare {path : List Bytes} (h : docsField ∉ path) (d : Data) :
    follow d.bare path = (follow d path).map Data.bare := by
  induction path generalizing d with
  | nil => rfl
  | cons name r ih =>
    obtain ⟨hname, hr⟩ := not_or.mp (mt List.mem_cons.mpr h)
    rw [follow, follow, List.foldlM_cons, List.foldlM_cons, Data.field_bare (Ne.symm hname)]
    cases d.field name with
    | error e => rfl
    | ok x => exact ih hr x

mutual

/-- An expression that does not read documentation. -/
theorem eval_bare (root here : Data) : (e : Expr) → e.isBare = true →
    eval root.bare here.bare e = (eval root here e).map Data.bare
  | .here path, h => follow_bare (by simpa [Expr.isBare] using h) here
  | .root path, h => follow_bare (by simpa [Expr.isBare] using h) root
  | .literal _, _ => rfl
  | .nothing, _ => rfl
  | .call f args, h => by
    rw [eval, eval, evalAll_bare root here args h]
    cases evalAll root here args with
    | error e => rfl
    | ok l => exact f.apply_bare l

/-- Nor do the arguments of a call. -/
theorem evalAll_bare (root here : Data) : (l : List Expr) → areBare l = true →
    evalAll root.bare here.bare l = (evalAll root here l).map (List.map Data.bare)
  | [], _ => rfl
  | e :: r, h => by
    obtain ⟨he, hr⟩ := Bool.and_eq_true_iff.mp (show (e.isBare && areBare r) = true from h)
    rw [evalAll, evalAll, eval_bare root here e he, evalAll_bare root here r hr]
    cases eval root here e with
    | error x => rfl
    | ok d => cases evalAll root here r <;> rfl

end

/-! ## §7 Filling in -/

/-- What is filled in has a counterpart with the same code. -/
def Agrees (front : Bool) (x y : Except Fault Bytes) : Prop :=
  ∀ a, x = .ok a → ∃ b, y = .ok b ∧ SameCode front a b

/-- Parts written for each item of a list have the same code. -/
theorem exists_mapM_bare {f g : Data → Except Fault Bytes}
    (h : ∀ d, Agrees false (f d) (g d.bare)) {l : List Data} {parts : List Bytes}
    (hparts : l.mapM f = .ok parts) : ∃ parts', (l.map Data.bare).mapM g = .ok parts'
      ∧ List.Forall₂ (SameCode false) parts parts' := by
  rw [mapM_eq_ok_iff] at hparts
  -- the parts are filled one by one, and none of them fails
  induction hparts with
  | nil => exact ⟨[], rfl, .nil⟩
  | @cons d part l parts hd _ ih =>
    obtain ⟨part', hpart, hfirst⟩ := h d part hd
    obtain ⟨parts', hparts, hrest⟩ := ih
    refine ⟨part' :: parts', ?_, .cons hfirst hrest⟩
    rw [List.map_cons, List.mapM_cons, hpart, hparts]
    rfl

namespace Agrees

variable {front : Bool} {x y : Except Fault Bytes}

/-- An outcome agrees with itself. -/
theorem refl (front : Bool) (x : Except Fault Bytes) : Agrees front x x :=
  fun a h => ⟨a, h, .refl front a⟩

/-- What agrees everywhere agrees where a line begins. -/
theorem weaken (h : Agrees false x y) (front : Bool) : Agrees front x y := fun a ha => by
  obtain ⟨b, hb, hcode⟩ := h a ha
  exact ⟨b, hb, hcode.weaken front⟩

/-- A step behind one that only loses documentation. -/
theorem bind {α : Type} {x y : Except Fault α} {m : α → α} {f g : α → Except Fault Bytes}
    (hy : y = x.map m) (h : ∀ a, Agrees front (f a) (g (m a))) :
    Agrees front (x >>= f) (y >>= g) := by
  subst hy
  cases x with
  | error e => exact fun _ h => nomatch h
  | ok a => exact h a

/-- A part for each item. -/
theorem flatten {f g : Data → Except Fault Bytes} (h : ∀ d, Agrees false (f d) (g d.bare))
    (l : List Data) : Agrees false (do return (← l.mapM f).flatten)
      (do return (← (l.map Data.bare).mapM g).flatten) := by
  intro a ha
  obtain ⟨parts, hparts, ⟨⟩⟩ := exists_of_bind_eq_ok ha
  obtain ⟨parts', hparts', hcode⟩ := exists_mapM_bare h hparts
  exact ⟨_, by rw [hparts']; rfl, .flatten hcode⟩

end Agrees

section

variable {call : Bytes → Data → Except Fault Bytes} {front : Bool}

/-- Documentation is filled in from the texts of its field. -/
theorem fillNode_docs (mark indent : Bytes) (root here : Data) :
    fillNode call root here (Short.docs mark indent)
      = (here.field docsField >>= Data.asTexts) >>= fun docs => .ok (comment mark indent docs) := by
  rw [← follow_singleton]
  -- the documentation may not be there, or be no list of texts
  cases hdocs : follow here [docsField] with
  | error e =>
    simp only [Short.docs, fillNode, eval, evalAll]
    rw [show follow here ["Docs"] = .error e from hdocs]
    rfl
  | ok d =>
    simp only [Short.docs, fillNode, eval, evalAll]
    rw [show follow here ["Docs"] = .ok d from hdocs]
    change (d.asTexts >>= fun docs => .ok (.text (comment mark indent docs))) >>= Data.written
      = d.asTexts >>= _
    cases d.asTexts <;> rfl

/-- Where a line begins, documentation is filled in to comments. -/
theorem agrees_docs {mark indent : Bytes} (h : (mark, indent) ∈ styles) (root here : Data) :
    Agrees true (fillNode call root here (Short.docs mark indent))
      (fillNode call root.bare here.bare (Short.docs mark indent)) := by
  rw [fillNode_docs, fillNode_docs]
  intro a ha
  obtain ⟨docs, hdocs, ⟨⟩⟩ := exists_of_bind_eq_ok ha
  -- the field is there, so it is there when it is emptied
  obtain ⟨d, hd, -⟩ := exists_of_bind_eq_ok hdocs
  obtain ⟨y, hy, htexts⟩ := Data.field_docs_bare hd
  refine ⟨[], ?_, sameCode_comment h docs⟩
  rw [hy]
  change (y.asTexts >>= _) = _
  rw [htexts]
  rfl

/-- An expression that writes documentation is one of the known forms. -/
theorem Expr.eq_docs {e : Expr} (h : e.isDocs = true) : ∃ mark indent,
    (mark, indent) ∈ styles ∧ Node.value e = Short.docs mark indent := by
  unfold Expr.isDocs at h
  split at h
  · next mark indent name =>
    simp only [Bool.and_eq_true, List.contains_iff_mem, beq_iff_eq] at h
    obtain ⟨hstyle, rfl⟩ := h
    exact ⟨mark, indent, hstyle, rfl⟩
  · cases h

/-- A part that ends a line ends in a line feed. -/
theorem getLast?_of_endsLine {n : Node} (h : n.endsLine = true) {root here : Data} {a : Bytes}
    (ha : fillNode call root here n = .ok a) : a.getLast? = some 0x0A := by
  cases n with
  | text t =>
    cases ha
    simpa [Node.endsLine] using h
  | _ => cases h

mutual

/-- One case for each kind of part. A part that is repeated or depends on a condition may stand
anywhere, so that nothing is known of what is in front of its own parts. -/
theorem fillNode_bare (hcall : ∀ name d, Agrees false (call name d) (call name d.bare))
    (front : Bool) (root here : Data) : (n : Node) → n.documents front = true →
    Agrees front (fillNode call root here n) (fillNode call root.bare here.bare n)
  | .text t, _ => .refl front _
  | .value e, h => by
    have hcases : (e.isBare || (front && e.isDocs)) = true := h
    -- documentation is all that is filled in to something else
    rcases Bool.or_eq_true_iff.mp hcases with he | hdocs
    · exact .bind (eval_bare root here e he) fun d => by rw [Data.written_bare]; exact .refl front _
    · obtain ⟨rfl, hdocs⟩ := Bool.and_eq_true_iff.mp hdocs
      obtain ⟨mark, indent, hstyle, heq⟩ := Expr.eq_docs hdocs
      rw [heq]
      exact agrees_docs hstyle root here
  | .use name e, h => .bind (eval_bare root here e h) fun d => (hcall name d).weaken front
  | .cond e yes no, h => by
    obtain ⟨h, hno⟩ := Bool.and_eq_true_iff.mp h
    obtain ⟨he, hyes⟩ := Bool.and_eq_true_iff.mp h
    refine .bind (eval_bare root here e he) fun d => ?_
    rw [Data.isTrue_bare]
    split
    · exact (fill_bare hcall false root here yes hyes).weaken front
    · exact (fill_bare hcall false root here no hno).weaken front
  | .each e body otherwise, h => by
    obtain ⟨h, hotherwise⟩ := Bool.and_eq_true_iff.mp h
    obtain ⟨he, hbody⟩ := Bool.and_eq_true_iff.mp h
    refine .bind (eval_bare root here e he) fun d => .bind (Data.items_bare d) fun l => ?_
    rw [List.isEmpty_map]
    split
    · exact (fill_bare hcall false root here otherwise hotherwise).weaken front
    · exact (Agrees.flatten (fun d => fill_bare hcall false root d body hbody) l).weaken front
  | .about e body otherwise, h => by
    obtain ⟨h, hotherwise⟩ := Bool.and_eq_true_iff.mp h
    obtain ⟨he, hbody⟩ := Bool.and_eq_true_iff.mp h
    refine .bind (eval_bare root here e he) fun d => ?_
    rw [Data.isTrue_bare]
    split
    · exact (fill_bare hcall false root d body hbody).weaken front
    · exact (fill_bare hcall false root here otherwise hotherwise).weaken front

/-- A template that documents in comments only, on data without documentation, gives the same code.
-/
theorem fill_bare (hcall : ∀ name d, Agrees false (call name d) (call name d.bare))
    (front : Bool) (root here : Data) : (l : List Node) → documentsAll front l = true →
    Agrees front (fill call root here l) (fill call root.bare here.bare l)
  | [], _ => .refl front _
  | n :: r, h => by
    obtain ⟨hn, hr⟩ := Bool.and_eq_true_iff.mp
      (show (n.documents front && documentsAll n.endsLine r) = true from h)
    rw [fill_cons_eq, fill_cons_eq]
    intro a ha
    obtain ⟨x, hx, ha⟩ := exists_of_bind_eq_ok ha
    obtain ⟨y, hy, ⟨⟩⟩ := exists_of_bind_eq_ok ha
    obtain ⟨x', hx', hfirst⟩ := fillNode_bare hcall front root here n hn x hx
    obtain ⟨y', hy', hrest⟩ := fill_bare hcall n.endsLine root here r hr y hy
    -- the rest begins a line if this part ends one
    refine ⟨x' ++ y', ?_, hfirst.append hrest fun hend => getLast?_of_endsLine hend hx'⟩
    rw [hx', hy']
    rfl

end

end

/-- By induction on how deep calls may be nested. -/
theorem fillNamed_bare {l : Library} (h : ∀ x ∈ l, documentsAll false x.2 = true) (depth : Nat)
    (name : Bytes) (d : Data) :
    Agrees false (fillNamed l depth name d) (fillNamed l depth name d.bare) := by
  induction depth generalizing name d with
  | zero => exact .refl false _
  | succ depth ih =>
    simp only [fillNamed]
    cases hbody : l.get? name with
    | none => exact .refl false _
    | some body =>
      -- the template is one of the library, and is filled at a lower depth
      obtain ⟨x, hx, rfl⟩ := Option.map_eq_some_iff.mp hbody
      exact fill_bare ih false d d x.2 (h x (List.mem_of_find?_eq_some hx))

/-- Without documentation, a library of such templates is filled in to the same code. -/
theorem render_bare {l : Library} (h : ∀ x ∈ l, documentsAll false x.2 = true) {name text : Bytes}
    {d : Data} (htext : render l name d = .ok text) :
    ∃ text', render l name d.bare = .ok text' ∧ codeLines text = codeLines text' := by
  obtain ⟨text', htext', hcode⟩ := fillNamed_bare h _ name d text htext
  refine ⟨text', htext', ?_⟩
  simpa using hcode [] [] (by simp)

end Template

/-- Documentation stays in its comments. In each style of the built-in templates it is written line
by line, one for every piece between the ends of lines, in order: the indent, the mark, and the
piece behind a space and without the spaces at its end. So the lines are comments, whatever the
texts are, and texts are written in the same way exactly if their pieces differ in the spaces at
their ends only. The built-in templates put documentation where a line begins. Apart from comments,
what they are filled in to is what they are filled in to without any documentation. -/
theorem documentation_stays_in_comments :
    (∀ mark indent, (mark, indent) ∈ Template.styles → ∀ docs, ∃ groups lines,
      List.Forall₂ Template.CutAtLines docs groups
        ∧ Template.comment mark indent docs = lines.flatMap (· ++ [0x0A])
        ∧ List.Forall₂ (Template.CommentLine mark indent) groups.flatten lines)
    ∧ (∀ mark indent, (mark, indent) ∈ Template.styles → ∀ docs docs' groups groups',
      List.Forall₂ Template.CutAtLines docs groups →
      List.Forall₂ Template.CutAtLines docs' groups' →
        (Template.comment mark indent docs = Template.comment mark indent docs'
          ↔ List.Forall₂ Bytes.SameTrimmed groups.flatten groups'.flatten))
    ∧ ∀ l ∈ [GoView.builtins, RustView.builtins],
      (∀ x ∈ l, Template.documentsAll false x.2 = true)
        ∧ ∀ name d text, Template.render l name d = .ok text →
          ∃ text', Template.render l name d.bare = .ok text'
            ∧ Template.codeLines text = Template.codeLines text' := by
  -- the groups of lines, put together, are the pieces
  have hpieces (docs : List Bytes) :
      (docs.map (Bytes.split 0x0A)).flatten = Template.pieces docs := by
    rw [Template.pieces, List.flatMap_def]
  refine ⟨fun mark indent hstyle docs => ?lines,
    fun mark indent hstyle docs docs' groups groups' h h' => ?inj, fun l hl => ?code⟩
  case lines =>
    have hstyle := Template.isStyle_of_mem hstyle
    refine ⟨_, _, Template.forall₂_cutAtLines_iff.mpr rfl, hstyle.comment_eq docs, ?_⟩
    rw [hpieces]
    exact hstyle.forall₂_commentLine docs
  case inj =>
    obtain rfl := Template.forall₂_cutAtLines_iff.mp h
    obtain rfl := Template.forall₂_cutAtLines_iff.mp h'
    rw [hpieces, hpieces]
    exact (Template.isStyle_of_mem hstyle).comment_inj docs docs'
  case code =>
    have hall := Template.documentsAll_builtins l hl
    exact ⟨hall, fun name d text htext => Template.render_bare hall htext⟩

/-- Two texts, one with spaces at the end of a line, an empty line and what would be code. -/
theorem documentation_with_code_stays_in_comments :
    (Bytes.ofString "//", Bytes.ofString "\t") ∈ Template.styles
      ∧ Template.comment "//" "\t" ["a  \n\n) func f(", ""] = "\t// a\n\t//\n\t// ) func f(\n\t//\n"
      ∧ ∃ groups lines, List.Forall₂ Template.CutAtLines ["a  \n\n) func f(", ""] groups
        ∧ Template.comment "//" "\t" ["a  \n\n) func f(", ""] = lines.flatMap (· ++ [0x0A])
        ∧ List.Forall₂ (Template.CommentLine "//" "\t") groups.flatten lines := by
  have hstyle : (Bytes.ofString "//", Bytes.ofString "\t") ∈ Template.styles := by decide +kernel
  exact ⟨hstyle, by decide +kernel, documentation_stays_in_comments.1 _ _ hstyle _⟩

end Idl
