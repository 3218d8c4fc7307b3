import Idl.Proofs.Files.Walk
import Idl.Proofs.Spelling.Constants
import Idl.Proofs.Spelling.Reading
import Idl.Proofs.Spelling.Surroundings

/-!
# What is written for a constant

The constants of a schema that comes from a source are those that a source can give: numbers within
their bounds, texts, and names of identifiers. What is written for one of them is read as the form
of a constant, and the constant that is read is known. It is another one for numbers that are
written without point and exponent, and there is none for texts with an escape that is refused.

* §1 the constants of a schema, §2 constants that a source can give,
* §3 words, §4 names, §5 numbers and texts, §6 what is read back.
-/

namespace Idl

open Proto (isIdentifier)

/-! ## §1 The constants of a schema -/

namespace Spelling

namespace Item

variable {α β : Type}

/-- What takes annotations takes those that wait and those among the items. -/
theorem exists_of_mem_gather {take? : α → Option (List Tree.Annot → β)}
    {pending : List Tree.Annot} {l : List (Item α)} {y : β} (h : y ∈ gather take? pending l) :
    ∃ x put P, .member x ∈ l ∧ take? x = some put ∧ y = put P
      ∧ ∀ a ∈ P, a ∈ pending ∨ ∃ b : Annot, a = b.tree := by
  induction l generalizing pending with
  | nil => cases h
  | cons item l ih =>
    cases item with
    | semicolon =>
      obtain ⟨x, put, P, hx, hput, hy, hP⟩ := ih h
      exact ⟨x, put, P, List.mem_cons_of_mem _ hx, hput, hy, hP⟩
    -- the annotation waits for the next member
    | annot b =>
      obtain ⟨x, put, P, hx, hput, hy, hP⟩ := ih h
      refine ⟨x, put, P, List.mem_cons_of_mem _ hx, hput, hy, fun a ha => ?_⟩
      refine (hP a ha).elim (fun ha => ?_) .inr
      exact (List.mem_append.mp ha).imp_right fun ha => ⟨b, List.mem_singleton.mp ha⟩
    | member x =>
      rw [gather] at h
      split at h
      · -- a member that takes what waits
        next put hput =>
        rcases List.mem_cons.mp h with rfl | h
        · exact ⟨x, put, pending, List.mem_cons_self, hput, rfl, fun a ha => .inl ha⟩
        · obtain ⟨x', put', P, hx, hput', hy, hP⟩ := ih h
          exact ⟨x', put', P, List.mem_cons_of_mem _ hx, hput', hy, fun a ha =>
            .inr ((hP a ha).resolve_left List.not_mem_nil)⟩
      · -- an item that is something else
        obtain ⟨x', put, P, hx, hput, hy, hP⟩ := ih h
        exact ⟨x', put, P, List.mem_cons_of_mem _ hx, hput, hy, hP⟩

end Item

namespace File

/-- The annotations in the tree of a form are those of forms. -/
theorem exists_of_mem_annotNodes {f : File} {n : Target × List Tree.Annot}
    (hn : n ∈ f.tree.annotNodes) {a : Tree.Annot} (ha : a ∈ n.2) : ∃ b : Annot, a = b.tree := by
  have hforms {P : List Tree.Annot} (hP : ∀ a ∈ P, a ∈ [] ∨ ∃ b : Annot, a = b.tree)
      (ha : a ∈ P) : ∃ b : Annot, a = b.tree := (hP a ha).resolve_left List.not_mem_nil
  rcases List.mem_append.mp hn with hn | hn
  -- the annotations of a message or of one of its fields
  · obtain ⟨m, hm, hn⟩ := List.mem_flatMap.mp hn
    obtain ⟨d, hd, hdm⟩ := List.mem_filterMap.mp hm
    obtain ⟨x, put, P, -, hput, rfl, hP⟩ := Item.exists_of_mem_gather hd
    cases x with
    | message x =>
      cases hput
      cases hdm
      rcases List.mem_cons.mp hn with rfl | hn
      · exact hforms hP ha
      · obtain ⟨y, hy, rfl⟩ := List.mem_map.mp hn
        obtain ⟨z, put, Q, -, hput, rfl, hQ⟩ := Item.exists_of_mem_gather hy
        cases hput
        exact hforms hQ ha
    | service x =>
      cases hput
      cases hdm
    | _ => cases hput
  -- likewise those of a service or of one of its methods
  · obtain ⟨s, hs, hn⟩ := List.mem_flatMap.mp hn
    obtain ⟨d, hd, hds⟩ := List.mem_filterMap.mp hs
    obtain ⟨x, put, P, -, hput, rfl, hP⟩ := Item.exists_of_mem_gather hd
    cases x with
    | message x =>
      cases hput
      cases hds
    | service x =>
      cases hput
      cases hds
      rcases List.mem_cons.mp hn with rfl | hn
      · exact hforms hP ha
      · obtain ⟨y, hy, rfl⟩ := List.mem_map.mp hn
        obtain ⟨z, put, Q, -, hput, rfl, hQ⟩ := Item.exists_of_mem_gather hy
        cases hput
        exact hforms hQ ha
    | _ => cases hput

/-- The values of options in the tree of a form are those of forms. -/
theorem exists_of_mem_options {f : File} {o : Tree.Setting} (h : o ∈ f.tree.options) :
    ∃ v : Value, o.value = v.tree := by
  obtain ⟨x, -, hx⟩ := List.mem_filterMap.mp h
  cases x with
  | setting p v =>
    cases hx
    exact ⟨v, rfl⟩
  | _ => cases hx

end File

/-- The constants of an annotation in a tree of a form are those of forms. -/
theorem Annot.exists_of_constant (b : Annot) {v : Idl.Value}
    (h : v ∈ b.tree.positional ∨ v ∈ b.tree.named.map (·.value)) :
    ∃ x : Value, v = x.tree.lower := by
  -- each argument of the tree has a form
  have harg {form : Tree.ArgForm} (h : form ∈ b.tree.args.map (·.form)) :
      ∃ a : Arg, form = a.form := by
    obtain ⟨arg, harg, rfl⟩ := List.mem_map.mp h
    unfold Tree.Annot.args Annot.tree at harg
    cases hargs : b.args with
    | none => simp [hargs] at harg
    | some as =>
      simp only [hargs, Option.map_some, Option.getD_some] at harg
      obtain ⟨a, -, rfl⟩ := List.mem_map.mp harg
      exact ⟨a, rfl⟩
  rcases h with h | h
  · -- a value without a key
    obtain ⟨form, hform, hv⟩ := List.mem_filterMap.mp h
    obtain ⟨a, rfl⟩ := harg hform
    cases a with
    | positional l =>
      cases hv
      exact ⟨.literal l, rfl⟩
    | _ => cases hv
  · -- a value with one; a flag stands for true
    obtain ⟨p, hp, rfl⟩ := List.mem_map.mp h
    obtain ⟨form, hform, hpair⟩ := List.mem_filterMap.mp hp
    obtain ⟨a, rfl⟩ := harg hform
    cases a with
    | positional l => cases hpair
    | flag key =>
      cases hpair
      exact ⟨.literal (.bool true), rfl⟩
    | pair key x =>
      cases hpair
      exact ⟨x, rfl⟩

/-- The constants of a schema are those of forms. -/
theorem exists_of_mem_constants {f : Tree.File} {form : File} (hform : f.erase = form.tree)
    {sourcePath : Bytes} {l : List Idl.Annot} {a : Idl.Annot} {v : Idl.Value}
    (hl : l ∈ (f.schema sourcePath).annotLists) (ha : a ∈ l) (hv : v ∈ a.constants) :
    ∃ x : Value, v = x.tree.lower := by
  rw [← Tree.File.annotLists_erase, hform, Tree.File.annotLists_schema] at hl
  rcases List.mem_cons.mp hl with rfl | hl
  · -- a setting of the file
    obtain ⟨o, ho, rfl⟩ := List.mem_map.mp ha
    obtain ⟨x, hx⟩ := File.exists_of_mem_options ho
    obtain rfl := List.mem_singleton.mp hv
    exact ⟨x, by rw [hx]⟩
  · -- an annotation of an entity
    obtain ⟨n, hn, rfl⟩ := List.mem_map.mp hl
    obtain ⟨b, hb, hlower⟩ := Tree.exists_of_mem_meanings ha
    obtain ⟨b, rfl⟩ := File.exists_of_mem_annotNodes hn hb
    obtain ⟨-, rfl⟩ := Tree.Annot.lower_eq_ok_iff.mp hlower
    refine b.exists_of_constant ((List.mem_append.mp hv).imp_left fun hv => ?_)
    exact List.mem_of_mem_head? (Option.mem_toList.mp hv)

end Spelling

/-! ## §2 Constants that a source can give -/

/-- A constant that a source can give. A name does not begin with a word that is a constant, and the
only number that is not one, or not finite, is the one that has a word. -/
def Value.Written : Value → Prop
  | .int n => -2 ^ 63 ≤ n ∧ n < 2 ^ 63
  | .uint n => 2 ^ 63 ≤ n ∧ n < 2 ^ 64
  | .float x => (x.isNaN = true → x = .nan) ∧ x ≠ .infinity true
  | .bool _ | .text _ => True
  | .ident name => Proto.isPackage name = true
      ∧ ∀ w ∈ (Bytes.split 0x2E name).head?, w ∉ Grammar.constantWords
  | .unassigned _ => False

theorem Binary64.ne_infinity_of_ofNumeral? {x : Binary64} {t : Bytes} (h : ofNumeral? t = some x)
    (negative : Bool) : x ≠ infinity negative := by
  have hclassify : (infinity negative).classify = .infinite negative := by
    cases negative <;> rfl
  obtain ⟨n, -, hn⟩ := Option.bind_eq_some_iff.mp h
  dsimp only at hn
  split at hn
  · next hfinite =>
    rintro rfl
    rw [Option.some.inj hn, hclassify] at hfinite
    cases hfinite
  · cases hn

/-- A whole number that fits its field was written by a source. -/
theorem Value.Portable.written_ofInt {n : Int} (h : (Value.ofInt n).Portable) :
    (Value.ofInt n).Written := by
  cases n with
  | ofNat n =>
    change (Value.ofNat n).Portable at h
    change (Value.ofNat n).Written
    unfold Value.ofNat at h ⊢
    split at h
    · next hlt =>
      rw [if_pos hlt]
      exact h
    · -- beyond the signed range it is an unsigned one
      next hge =>
      rw [if_neg hge]
      exact ⟨Nat.le_of_not_lt hge, h⟩
  | negSucc n => exact h

namespace Spelling

/-- The constant of a form is one that a source can give, if it is one that text can carry and the
components of a name are identifiers. -/
theorem Value.written {x : Value} (hportable : x.tree.lower.Portable)
    (hname : ∀ name, x.tree.lower = .ident name → Proto.isPackage name = true) :
    x.tree.lower.Written := by
  cases x with
  -- a literal has the range of its kind; a float is never read as infinite
  | literal l =>
    cases l with
    | int n => exact Idl.Value.Portable.written_ofInt hportable
    | float raw =>
      refine ⟨hportable, ?_⟩
      cases hraw : Binary64.ofNumeral? raw with
      | none => decide
      | some y => exact Binary64.ne_infinity_of_ofNumeral? hraw true
    | text raw => trivial
    | bool b => trivial
    | infinity => exact ⟨hportable, by decide⟩
    | nan => exact ⟨hportable, by decide⟩
  | path p free =>
    refine ⟨hname _ rfl, fun w hw => ?_⟩
    -- the name keeps its components, of which the first is no constant word
    have hsplit : Bytes.split 0x2E p.tree.dotted = p.names := by
      rw [p.dotted_tree]
      exact Bytes.split_join (List.forall_mem_cons.mpr ⟨p.first.not_mem, List.forall_mem_map.mpr
        fun x _ => x.2.not_mem⟩)
    rw [hsplit] at hw
    cases hw
    exact free

end Spelling

theorem Annot.Sourced.of_mem_constants {a : Annot} (h : a.Sourced) {v : Value}
    (hv : v ∈ a.constants) : v.Sourced := by
  rcases List.mem_append.mp hv with hv | hv
  · exact h.value v (Option.mem_toList.mp hv)
  · obtain ⟨p, hp, rfl⟩ := List.mem_map.mp hv
    exact (h.pairs p hp).value

/-- All annotations of a schema come from its source. -/
theorem Schema.Sourced.of_mem_annotLists {s : Schema} (h : s.Sourced) :
    ∀ l ∈ s.annotLists, ∀ a ∈ l, a.Sourced := by
  intro l hl
  rcases List.mem_cons.mp hl with rfl | hl
  · exact h.annots
  rcases List.mem_append.mp hl with hl | hl
  · -- those of the messages and their fields
    obtain ⟨m, hm, hl⟩ := List.mem_flatMap.mp hl
    rcases List.mem_cons.mp hl with rfl | hl
    · exact (h.messages m hm).annots
    · obtain ⟨f, hf, rfl⟩ := List.mem_map.mp hl
      exact ((h.messages m hm).fields f hf).annots
  · -- those of the services and their methods
    obtain ⟨svc, hsvc, hl⟩ := List.mem_flatMap.mp hl
    rcases List.mem_cons.mp hl with rfl | hl
    · exact (h.services svc hsvc).annots
    · obtain ⟨m, hm, rfl⟩ := List.mem_map.mp hl
      exact ((h.services svc hsvc).methods m hm).annots

/-- Every constant of a schema that comes from a source is one that a source can give. -/
theorem written_of_compileSource {src sourcePath : Bytes} {allowMissingPackage : Bool}
    {c : Compilation} {s : Schema} (h : compileSource src sourcePath allowMissingPackage = .ok c)
    (hs : c.outcome = .ok s) {l : List Annot} {a : Annot} {v : Value} (hl : l ∈ s.annotLists)
    (ha : a ∈ l) (hv : v ∈ a.constants) : v.Written := by
  obtain ⟨f, hparse, -, rfl⟩ := exists_of_compileSource h hs
  obtain ⟨form, hform⟩ := exists_spells hparse
  obtain ⟨x, rfl⟩ := Spelling.exists_of_mem_constants (parseFile_of_spells hform hparse).1 hl ha hv
  have hsourced := (sourced_of_compileSource h hs).of_mem_annotLists l hl a ha
  refine Spelling.Value.written (hsourced.of_mem_constants hv).portable fun name hname => ?_
  -- the components of a name are names of the file
  obtain ⟨-, -, hconstants⟩ := (Tree.File.Says.of_mem_annotLists hl a ha).parts
  rcases hconstants _ hv with htrue | ⟨y, hy, hlower⟩
  · rw [hname] at htrue
    cases htrue
  · obtain ⟨p, hp, rfl⟩ := Tree.Value.exists_path_of_lower (hlower.symm.trans hname)
    exact Tree.Path.isPackage_dotted fun i hi => Tree.File.isIdentifier_of_has hparse
      ((hy.trans (Tree.Value.has_path hp)).trans (Tree.Path.has_ident hi))

/-! ## §3 Words -/

namespace Spelling

/-- What the grammar sees of a word. -/
def Lexeme.ofWord (w : TokenKind × Bytes) : Lexeme := (w.1, if w.1.hasText then w.2 else [])

/-- The octets with which blanks begin. -/
def blankStarts : List UInt8 := [0x20, 0x09, 0xC2, 0xEF]

/-- In front of what ends a number, a text is cut into words with given lexemes. It can follow
blanks. -/
structure Writes (t : Bytes) (ls : List Lexeme) : Prop where
  valid : Utf8.isValid t = true
  start : ∀ c ∈ t.head?, c ∉ blankStarts
  cut : ∀ z, Scan.Ends z → ∃ ws, Scanned z t ws ∧ ws.map Lexeme.ofWord = ls

theorem not_mem_blankStarts {c : UInt8} (hc : Bytes.isWord c = true) : c ∉ blankStarts := by
  intro hmem
  simp only [blankStarts, List.mem_cons, List.not_mem_nil, or_false] at hmem
  rcases hmem with rfl | rfl | rfl | rfl <;> exact absurd hc (by decide)

/-- One word. -/
theorem Writes.word {c : UInt8} {t : Bytes} {kind : TokenKind}
    (hvalid : Utf8.isValid (c :: t) = true) (hc : c ∉ blankStarts)
    (hscan : ∀ z, Scan.Ends z → scanToken c (t ++ z) = .ok (kind, t.length)) :
    Writes (c :: t) [Lexeme.ofWord (kind, c :: t)] where
  valid := hvalid
  start := by
    rintro _ ⟨⟩
    exact hc
  cut z hz := ⟨_, .word (hscan z hz), rfl⟩

/-! ## §4 Names -/

theorem exists_cons_of_isIdentifier {t : Bytes} (h : isIdentifier t = true) :
    ∃ c r, t = c :: r := by
  cases t with
  | nil => cases h
  | cons c r => exact ⟨c, r, rfl⟩

/-- A name that is an identifier is a word. -/
def Word.ofIdentifier (t : Bytes) (h : isIdentifier t = true) : Word where
  text := t
  isName := by
    obtain ⟨c, r, rfl⟩ := exists_cons_of_isIdentifier h
    exact ⟨List.cons_ne_nil c r, Proto.isWord_of_isIdentifier h⟩

/-- A name whose components have dots between them. -/
def Path.dots (first : Word) (more : List Word) : Path := ⟨first, more.map fun w => (.dot, w)⟩

theorem Path.names_dots (first : Word) (more : List Word) :
    (Path.dots first more).names = (first :: more).map (·.text) := by
  simp [Path.dots, Path.names, Function.comp_def]

/-- The words of a name whose components have dots between them. -/
theorem exists_scanned_dots {first : Word} {more : List Word} {z : Bytes}
    (h : ∀ w ∈ first :: more, isIdentifier w.text = true ∧ w.text.length ≤ maxTokenSize)
    (hz : ∀ d ∈ z.head?, Bytes.isWord d = false) :
    ∃ ws, Scanned z (Bytes.join "." ((first :: more).map (·.text))) ws
      ∧ ws.map Lexeme.ofWord = (Path.dots first more).lexemes := by
  induction more generalizing first with
  | nil =>
    obtain ⟨hname, hsize⟩ := h first List.mem_cons_self
    obtain ⟨c, r, htext⟩ := exists_cons_of_isIdentifier hname
    rw [htext] at hname hsize
    refine ⟨[(.ident, c :: r)], ?_, by simp [Path.dots, Path.lexemes, Path.moreLexemes, htext,
      Lexeme.ofWord, TokenKind.hasText, name]⟩
    have hjoin : Bytes.join "." ([first].map (·.text)) = c :: r := by
      simp [Bytes.join, htext]
    rw [hjoin]
    exact .word (scanToken_of_isIdentifier hname hsize hz)
  | cons second more ih =>
    obtain ⟨hfirst, hmore⟩ := List.forall_mem_cons.mp h
    obtain ⟨ws, hws, hlexemes⟩ := ih hmore
    obtain ⟨hname, hsize⟩ := hfirst
    obtain ⟨c, r, htext⟩ := exists_cons_of_isIdentifier hname
    rw [htext] at hname hsize
    refine ⟨(.ident, c :: r) :: (.dot, [0x2E]) :: ws, ?_, ?_⟩
    · have hjoin : Bytes.join "." ((first :: second :: more).map (·.text))
          = (c :: r) ++ ([0x2E] ++ Bytes.join "." ((second :: more).map (·.text))) := by
        rw [List.map_cons, htext, Bytes.join, List.map_cons, List.intercalate_cons_cons,
          List.append_assoc]
        rfl
      -- the dot ends the name in front of it
      have hword : Scanned ([0x2E] ++ Bytes.join "." ((second :: more).map (·.text)) ++ z) (c :: r)
          [(.ident, c :: r)] := .word (scanToken_of_isIdentifier hname hsize (by rintro _ ⟨⟩; rfl))
      have hdot : Scanned (Bytes.join "." ((second :: more).map (·.text)) ++ z) [0x2E]
          [(.dot, [0x2E])] := .sigil rfl
      rw [hjoin]
      exact hword.append (hdot.append hws)
    · rw [List.map_cons, List.map_cons, hlexemes]
      simp [Path.dots, Path.lexemes, Path.moreLexemes, htext, Lexeme.ofWord, TokenKind.hasText,
        name, sign, Separator.kind]

/-- A joined text is at least as long as each of its parts. -/
theorem length_le_of_mem_join {sep t : Bytes} {l : List Bytes} (h : t ∈ l) :
    t.length ≤ (Bytes.join sep l).length := by
  unfold Bytes.join
  induction l with
  | nil => cases h
  | cons u l ih =>
    cases l with
    | nil =>
      rw [List.mem_singleton.mp h, List.intercalate_singleton]
    | cons u' l =>
      rw [List.intercalate_cons_cons, List.length_append, List.length_append]
      rcases List.mem_cons.mp h with rfl | h
      · omega
      · exact (ih h).trans (by omega)

/-- A sequence of identifiers is a name whose components have dots between them. -/
theorem exists_dots {t : Bytes} (h : Proto.isPackage t = true) : ∃ first more,
    Bytes.split 0x2E t = (first :: more : List Word).map (·.text)
      ∧ Bytes.join "." ((first :: more).map (·.text)) = t
      ∧ ∀ w ∈ first :: more, isIdentifier w.text = true := by
  -- identifiers are words
  have hwords (l : List Bytes) (hl : ∀ b ∈ l, isIdentifier b = true) :
      ∃ ws : List Word, l = ws.map (·.text) := by
    induction l with
    | nil => exact ⟨[], rfl⟩
    | cons b l ih =>
      obtain ⟨hb, hl⟩ := List.forall_mem_cons.mp hl
      obtain ⟨ws, rfl⟩ := ih hl
      exact ⟨.ofIdentifier b hb :: ws, rfl⟩
  have hall := List.all_eq_true.mp h
  obtain ⟨ws, hws⟩ := hwords _ hall
  cases ws with
  | nil => exact absurd hws (Bytes.split_ne_nil t)
  | cons first more =>
    refine ⟨first, more, hws, hws ▸ Bytes.join_split t, fun w hw => hall _ ?_⟩
    rw [hws]
    exact List.mem_map_of_mem hw

/-- A sequence of identifiers is written like a name. -/
theorem exists_path_of_isPackage {t : Bytes} (h : Proto.isPackage t = true)
    (hsize : ∀ w ∈ Bytes.split 0x2E t, w.length ≤ maxTokenSize) :
    ∃ p : Path, p.tree.dotted = t ∧ Writes t p.lexemes
      ∧ (Bytes.split 0x2E t).head? = some p.first.text := by
  obtain ⟨first, more, hsplit, hjoin, hnames⟩ := exists_dots h
  have hwords : ∀ w ∈ first :: more,
      isIdentifier w.text = true ∧ w.text.length ≤ maxTokenSize := by
    refine fun w hw => ⟨hnames w hw, hsize _ ?_⟩
    rw [hsplit]
    exact List.mem_map_of_mem hw
  -- the name is ASCII, so it is UTF-8
  have hascii : ∀ b ∈ t, b.toNat < 0x80 := by
    rw [← hjoin]
    refine Bytes.forall_mem_join (Bytes.ascii_of_all rfl) fun u hu b hb => ?_
    obtain ⟨w, hw, rfl⟩ := List.mem_map.mp hu
    exact Bytes.ascii_of_isWord (Proto.isWord_of_isIdentifier (hnames w hw) b hb)
  refine ⟨.dots first more, ?_, ⟨Utf8.isValid_of_ascii hascii, fun c hc => ?_, fun z hz => ?_⟩, ?_⟩
  · rw [Path.dotted_tree, Path.names_dots, hjoin]
  · -- it begins with a letter or an underscore, which begins no blank
    obtain ⟨d, r, hfirst⟩ := exists_cons_of_isIdentifier (hnames first List.mem_cons_self)
    have hword := Proto.isWord_of_isIdentifier (hnames first List.mem_cons_self)
    rw [hfirst] at hword
    obtain rfl : d = c := by
      rw [← hjoin, Bytes.join, List.map_cons, hfirst] at hc
      cases more with
      | nil => simpa using hc
      | cons w more =>
        rw [List.map_cons, List.intercalate_cons_cons] at hc
        simpa using hc
    exact not_mem_blankStarts (hword d List.mem_cons_self)
  · rw [← hjoin]
    exact exists_scanned_dots hwords fun d hd => (hz d hd).1
  · rw [hsplit]
    rfl

/-! ## §5 Numbers and texts -/

/-- A number is one token. -/
theorem writes_numeral {k : Numeral} (hk : k.Proper) (hunpadded : k.Unpadded)
    (hsize : k.text.length ≤ maxTokenSize) : Writes k.text [(k.kind, k.text)] := by
  -- it begins with a minus sign or a digit
  obtain ⟨c, t, htext, hc⟩ : ∃ c t, k.text = c :: t ∧ c ∉ blankStarts := by
    obtain ⟨c, w, hwhole⟩ := List.exists_cons_of_ne_nil hk.whole_ne_nil
    have hdigit : Bytes.isDigit c = true := hk.whole c (by simp [hwhole])
    cases hnegative : k.negative with
    | true => exact ⟨0x2D, k.magnitude, by simp [k.text_eq, hnegative], by decide⟩
    | false =>
      refine ⟨c, _, by rw [k.text_eq, Numeral.magnitude, hnegative, hwhole]; rfl, ?_⟩
      exact not_mem_blankStarts (by simp [Bytes.isWord, hdigit])
  have hvalid := Utf8.isValid_of_ascii (Numeral.ascii_text hk)
  have hkind : k.kind.hasText = true := by
    unfold Numeral.kind
    split <;> rfl
  have hword := Writes.word (htext ▸ hvalid) hc fun z hz =>
    scanToken_text hk hunpadded htext hsize hz
  rwa [← htext, Lexeme.ofWord, if_pos hkind] at hword

theorem writes_quote {s : Bytes} (hsize : (quote s).length ≤ maxTokenSize) :
    Writes (quote s) [(.textLit, quote s)] := by
  obtain ⟨t, htext, -⟩ := scanToken_quote hsize []
  have hscan (z : Bytes) : scanToken 0x22 (t ++ z) = .ok (.textLit, t.length) := by
    obtain ⟨t', htext', hscan⟩ := scanToken_quote hsize z
    obtain rfl : t = t' := (List.cons.inj (htext.symm.trans htext')).2
    exact hscan
  rw [htext]
  exact .word (htext ▸ isValid_quote s) (by decide) fun z _ => hscan z

end Spelling

/-! ## §6 What is read back -/

/-- Whether a number is written with neither a point nor an exponent, nor as a word. -/
def Binary64.Whole (x : Binary64) : Prop :=
  ∀ b ∈ x.render, Bytes.isDigit b = true ∨ b = 0x2D

instance (x : Binary64) : Decidable x.Whole := List.decidableBAll _ _

/-- What is read where a constant is written; none if the text is refused. A number without point
and exponent is read as a whole number. -/
def Value.reread : Value → Option Value
  | .float x => some (if x.Whole then .ofInt (intLitValue .intLit x.render) else .float x)
  | .text s => if s.Hidden then none else some (.text s)
  | v => some v

/-- The constants that are read as what they are. -/
def Value.Faithful : Value → Prop
  | .float x => ¬ x.Whole
  | .text s => ¬ s.Hidden
  | _ => True

theorem Value.ofInt_ne_float (n : Int) (x : Binary64) : Value.ofInt n ≠ .float x := by
  cases n with
  | ofNat n =>
    change Value.ofNat n ≠ _
    unfold Value.ofNat
    split <;> nofun
  | negSucc n => nofun

theorem Binary64.same_self (x : Binary64) : x.same x = true := by
  unfold same
  cases x.classify with
  | nan => rfl
  | infinite negative => exact beq_self_eq_true x
  | finite negative m q narrow =>
    cases m with
    | zero => rfl
    | succ m => exact beq_self_eq_true x

/-- What is read is the same as what was written, just for these constants. -/
theorem Value.faithful_iff (v : Value) :
    v.Faithful ↔ ∃ w, v.reread = some w ∧ v.same w = true := by
  -- every value but a float is compared by its equality
  have hself (v : Value) (hv : ∀ x, v ≠ .float x) : v.same v = true := by
    cases v with
    | float x => exact absurd rfl (hv x)
    | _ => exact beq_self_eq_true _
  cases v with
  | float x =>
    by_cases hx : x.Whole
    · refine ⟨fun h => absurd hx h, ?_⟩
      -- what is read back is a whole number, and no whole number is a float
      rintro ⟨w, hw, hsame⟩
      rw [reread, if_pos hx] at hw
      obtain rfl := Option.some.inj hw
      generalize hn : Value.ofInt (intLitValue .intLit x.render) = w at hsame
      cases w with
      | float y => exact absurd hn (ofInt_ne_float _ _)
      | _ => cases hsame
    · exact ⟨fun _ => ⟨.float x, by rw [reread, if_neg hx], x.same_self⟩, fun _ => hx⟩
  | text s =>
    by_cases hs : s.Hidden
    · refine ⟨fun h => absurd hs h, ?_⟩
      rintro ⟨w, hw, -⟩
      rw [reread, if_pos hs] at hw
      cases hw
    · exact ⟨fun _ => ⟨.text s, by rw [reread, if_neg hs], hself _ nofun⟩, fun _ => hs⟩
  | int n => exact ⟨fun _ => ⟨.int n, rfl, hself _ nofun⟩, fun _ => trivial⟩
  | uint n => exact ⟨fun _ => ⟨.uint n, rfl, hself _ nofun⟩, fun _ => trivial⟩
  | bool b => exact ⟨fun _ => ⟨.bool b, rfl, hself _ nofun⟩, fun _ => trivial⟩
  | ident name => exact ⟨fun _ => ⟨.ident name, rfl, hself _ nofun⟩, fun _ => trivial⟩
  | unassigned k => exact ⟨fun _ => ⟨.unassigned k, rfl, hself _ nofun⟩, fun _ => trivial⟩

/-- A numeral has the kind of a whole number if there are no other octets in it than digits and a
sign. -/
theorem Numeral.kind_eq_intLit_iff {k : Numeral} (hk : k.Proper) :
    k.kind = .intLit ↔ ∀ b ∈ k.text, Bytes.isDigit b = true ∨ b = 0x2D := by
  -- a point or an exponent is what tells a float, and neither is a digit
  have hsign : ∀ b ∈ (if k.negative then [0x2D] else [] : Bytes),
      Bytes.isDigit b = true ∨ b = 0x2D := by
    split
    · exact List.forall_mem_singleton.mpr (.inr rfl)
    · exact List.forall_mem_nil _
  have hpoint : ¬ (Bytes.isDigit 0x2E = true ∨ (0x2E : UInt8) = 0x2D) := by decide
  have hmark : ¬ (Bytes.isDigit 0x65 = true ∨ (0x65 : UInt8) = 0x2D) := by decide
  rw [text_eq, List.forall_mem_append]
  constructor
  · intro h
    rw [magnitude_eq_whole h]
    exact ⟨hsign, fun b hb => .inl (hk.whole b hb)⟩
  · intro h
    rw [magnitude, List.forall_mem_append, List.forall_mem_append] at h
    obtain ⟨-, -, hfraction, hexponent⟩ := h
    rw [kind_eq_intLit_iff_nil]
    constructor
    · by_contra hne
      rw [if_neg hne] at hfraction
      exact hpoint (hfraction _ List.mem_cons_self)
    · by_contra hne
      rw [if_neg hne] at hexponent
      exact hmark (hexponent _ List.mem_cons_self)

namespace Spelling

/-- A whole number of few digits is not too large. -/
theorem fitsLiteral_text {k : Numeral} (hk : k.Proper) (hkind : k.kind = .intLit)
    (hlength : k.magnitude.length ≤ 6) : fitsLiteral (intLitValue .intLit k.text) = true := by
  have hmagnitude := Numeral.magnitude_eq_whole hkind
  -- six digits are far below the bound
  have hlt : Bytes.toNat 10 k.whole < 10 ^ 6 := by
    rw [hmagnitude] at hlength
    exact (Bytes.toNat_lt_pow_length hk.whole).trans_le (Nat.pow_le_pow_right (by decide) hlength)
  have hvalue : intLitValue .intLit k.text = if k.negative then -(Bytes.toNat 10 k.whole : Int)
      else Bytes.toNat 10 k.whole := by
    rw [k.text_eq, hmagnitude]
    cases k.negative with
    | true => rfl
    | false =>
      obtain ⟨c, w, hwhole⟩ := List.exists_cons_of_ne_nil hk.whole_ne_nil
      have hc : Bytes.isDigit c = true := hk.whole c (by simp [hwhole])
      simp only [Bool.false_eq_true, if_false, List.nil_append, hwhole, intLitValue]
      split
      · -- without a minus sign the text begins with a digit
        next heq =>
        rw [(List.cons.inj heq).1] at hc
        cases hc
      · rfl
  rw [hvalue]
  simp only [fitsLiteral, Bool.and_eq_true, decide_eq_true_eq]
  split <;> omega

/-- A number that is written as a numeral. -/
theorem exists_writes_numeral {k : Numeral} (hk : k.Proper) (hunpadded : k.Unpadded)
    (hsize : k.text.length ≤ maxTokenSize) {x : Binary64} (htext : k.text = x.render)
    (hread : Binary64.ofNumeral? x.render = some x)
    (hwhole : k.kind = .intLit → fitsLiteral (intLitValue .intLit x.render) = true) :
    ∃ y : Value, Writes x.render y.lexemes ∧ y.Sound
      ∧ (Idl.Value.float x).reread = some y.tree.lower := by
  have hwrites := htext ▸ writes_numeral hk hunpadded hsize
  have hiff := htext ▸ Numeral.kind_eq_intLit_iff hk
  -- a float that is rendered without a point is read back as an integer
  by_cases hx : x.Whole
  · have hkind := hiff.mpr hx
    rw [hkind] at hwrites
    refine ⟨.literal (.int ⟨.decimal, x.render⟩), hwrites, hwhole hkind, ?_⟩
    rw [Idl.Value.reread, if_pos hx]
    rfl
  · have hkind := Numeral.kind_eq_floatLit fun hint => hx (hiff.mp hint)
    rw [hkind] at hwrites
    refine ⟨.literal (.float x.render), hwrites, by simp [Value.Sound, hread], ?_⟩
    rw [Idl.Value.reread, if_neg hx]
    simp [Value.tree, Tree.Value.lower, Literal.constant, Tree.Constant.lower, hread]

/-- The words of a constant that is a name of one component. -/
theorem writes_word {t : Bytes} (h : isIdentifier t = true) (hsize : t.length ≤ maxTokenSize) :
    Writes t [name t] := by
  obtain ⟨c, r, rfl⟩ := exists_cons_of_isIdentifier h
  have hwords := Proto.isWord_of_isIdentifier h
  exact .word (Utf8.isValid_of_ascii fun b hb => Bytes.ascii_of_isWord (hwords b hb))
    (not_mem_blankStarts (hwords c List.mem_cons_self)) fun z hz =>
      scanToken_of_isIdentifier h hsize fun d hd => (hz d hd).1

/-- Both kinds of integers are written as a numeral, whose value is the integer again. -/
theorem exists_writes_ofInt {n : Int} (hn : fitsLiteral n = true)
    (hsize : (Bytes.ofInt n).length ≤ maxTokenSize) :
    ∃ x : Value, Writes (Bytes.ofInt n) x.lexemes ∧ x.Sound ∧ x.tree.lower = Idl.Value.ofInt n := by
  obtain ⟨k, hk, hunpadded, hkind, htext⟩ := Bytes.exists_text_eq_ofInt n
  have hwrites := writes_numeral hk hunpadded (htext ▸ hsize)
  rw [hkind, htext] at hwrites
  have hvalue : intLitValue .intLit (Bytes.ofInt n) = n := (Integer.denotes_ofInt n).eq
  refine ⟨.literal (.int ⟨.decimal, Bytes.ofInt n⟩), hwrites, ?_,
    congrArg Idl.Value.ofInt hvalue⟩
  change fitsLiteral (intLitValue .intLit (Bytes.ofInt n)) = true
  rw [hvalue, hn]

/-- A float is written as a numeral or as one of two words, and read back as the same float. -/
theorem exists_writes_float {x : Binary64} (hnan : x.isNaN = true → x = .nan)
    (hinfinity : x ≠ .infinity true) (hsize : x.render.length ≤ maxTokenSize) :
    ∃ y : Value, Writes x.render y.lexemes ∧ y.Sound
      ∧ (Idl.Value.float x).reread = some y.tree.lower := by
  cases hclass : x.classify with
  | nan =>
    -- only one of all the NaNs is written
    obtain rfl := hnan (by rw [Binary64.isNaN, hclass]; rfl)
    exact ⟨.literal .nan, writes_word (t := "nan") rfl (by decide), trivial, by decide⟩
  | infinite negative =>
    obtain rfl := Binary64.eq_infinity hclass
    cases negative with
    | true => exact absurd rfl hinfinity
    | false =>
      exact ⟨.literal .infinity, writes_word (t := "inf") rfl (by decide), trivial, by decide⟩
  | finite negative m q narrow =>
    obtain ⟨k, hk, hunpadded, htext, hlength⟩ := Binary64.exists_numeral hclass
    refine exists_writes_numeral hk hunpadded (htext ▸ hsize) htext
      (Binary64.ofNumeral?_render hclass) fun hkind => ?_
    rw [← htext]
    exact fitsLiteral_text hk hkind (hlength hkind)

/-- What is written for a constant is read as a form, but for a text with an escape that the
language does not have. -/
theorem exists_writes {v : Idl.Value} (hv : v.Written) (hsize : v.render.length ≤ maxTokenSize) :
    ∃ x : Value, Writes v.render x.lexemes ∧ (∀ w, v.reread = some w → x.Sound ∧ x.tree.lower = w)
      ∧ (v.reread = none → ∃ raw, x = .literal (.text raw) ∧ ∀ u, textLitValue raw ≠ .ok u) := by
  -- all but some texts are read
  suffices hread : (∃ x : Value, Writes v.render x.lexemes ∧ x.Sound ∧ v.reread = some x.tree.lower)
      ∨ ∃ raw, v.reread = none ∧ Writes v.render [(.textLit, raw)]
        ∧ ∀ u, textLitValue raw ≠ .ok u by
    rcases hread with ⟨x, hwrites, hsound, hreread⟩ | ⟨raw, hreread, hwrites, hraw⟩
    · refine ⟨x, hwrites, fun w hw => ⟨hsound, ?_⟩, fun hnone => ?_⟩
      · exact Option.some.inj (hreread.symm.trans hw)
      · rw [hreread] at hnone
        cases hnone
    · refine ⟨.literal (.text raw), hwrites, fun w hw => ?_, fun _ => ⟨raw, rfl, hraw⟩⟩
      rw [hreread] at hw
      cases hw
  cases v with
  | int n =>
    obtain ⟨hlow, hhigh⟩ := hv
    refine .inl ?_
    obtain ⟨x, hwrites, hsound, hlower⟩ :=
      exists_writes_ofInt (n := n) (by simp [fitsLiteral]; omega) hsize
    refine ⟨x, hwrites, hsound, ?_⟩
    rw [hlower, Integer.ofInt_eq, if_pos hhigh]
    rfl
  | uint n =>
    obtain ⟨hlow, hhigh⟩ := hv
    obtain ⟨x, hwrites, hsound, hlower⟩ :=
      exists_writes_ofInt (n := n) (by simp [fitsLiteral]; omega) hsize
    refine .inl ⟨x, hwrites, hsound, ?_⟩
    rw [hlower, Integer.ofInt_eq, if_neg (by omega), Int.toNat_natCast]
    rfl
  | float x => exact .inl (exists_writes_float hv.1 hv.2 hsize)
  | bool b =>
    refine .inl ⟨.literal (.bool b), ?_, trivial, rfl⟩
    cases b
    · exact writes_word (t := "false") rfl (by decide)
    · exact writes_word (t := "true") rfl (by decide)
  | text s =>
    have hwrites := writes_quote hsize
    -- what quoting makes of a hidden text is one token, but has no value
    by_cases hs : s.Hidden
    · refine .inr ⟨quote s, by rw [Idl.Value.reread, if_pos hs], hwrites, fun u hu => ?_⟩
      exact (textLitValue_quote_iff.mp hu).1 hs
    · have hvalue := textLitValue_quote_iff.mpr ⟨hs, rfl⟩
      refine .inl ⟨.literal (.text (quote s)), hwrites, ⟨s, hvalue⟩, ?_⟩
      rw [Idl.Value.reread, if_neg hs]
      simp [Value.tree, Tree.Value.lower, Literal.constant, Tree.Constant.lower, textTree,
        textValue, hvalue, Except.toOption]
  | ident name =>
    obtain ⟨hname, hfree⟩ := hv
    -- the name as a whole is short enough, so each of its parts is
    obtain ⟨p, hp, hwrites, hfirst⟩ := exists_path_of_isPackage hname fun w hw => by
      rw [← @Bytes.join_split 0x2E name] at hsize
      exact (length_le_of_mem_join hw).trans hsize
    refine .inl ⟨.path p (hfree _ hfirst), hwrites, trivial, ?_⟩
    rw [← hp]
    rfl
  | unassigned kind => exact hv.elim

end Spelling

end Idl
