import Idl.Proofs.Grammar.Completeness
import Idl.Proofs.Grammar.Rewording
import Idl.Proofs.Spelling.Forms

/-!
# Every file has a form

Whatever source is accepted, there is a form that spells it: each phrase of the language is written
as a form of its own says.

* §1 single tokens, §2 names and constants, §3 annotations, §4 items,
* §5 fields and messages, §6 methods and services, §7 files.
-/

namespace Idl

namespace Spelling

open scoped Computability

variable {v w : List Token}

/-! ## §1 Single tokens -/

/-- All names among tokens are names of one component. -/
def Named (w : List Token) : Prop := ∀ t ∈ w, t.kind = .ident → Bytes.IsName t.text

/-- The tokens in front. -/
theorem Named.left (h : Named (v ++ w)) : Named v :=
  fun t ht => h t (List.mem_append_left _ ht)

/-- The tokens behind. -/
theorem Named.right (h : Named (v ++ w)) : Named w :=
  fun t ht => h t (List.mem_append_right _ ht)

/-- A sign is one lexeme without a text. -/
theorem lexemes_of_sign {kind : TokenKind} (hkind : kind.hasText = false)
    (h : w ∈ Phrase.sign kind) : w.map Token.lexeme = [sign kind] := by
  obtain ⟨t, rfl, ht⟩ := h
  have ht : t.kind = kind := ht
  simp [Token.lexeme, ht, hkind, sign]

/-- A token of a kind with a text. -/
theorem lexeme_of_kind {t : Token} {kind : TokenKind} (ht : t.kind = kind)
    (hkind : kind.hasText = true) : t.lexeme = (kind, t.text) := by
  simp [Token.lexeme, ht, hkind]

/-- A keyword is the lexeme of its name. -/
theorem lexemes_of_word {text : Bytes} (h : w ∈ Phrase.word text) :
    w.map Token.lexeme = [name text] := by
  obtain ⟨t, rfl, ht⟩ := h
  obtain ⟨hkind, htext⟩ : t.kind = .ident ∧ t.text = text := by
    simpa [Token.isWord] using ht
  rw [List.map_singleton, lexeme_of_kind hkind rfl, htext, name]

/-- A phrase that may be left out. -/
theorem exists_of_maybe {α : Type} {L : Language Token} {lexemes : α → List Lexeme}
    (hL : w ∈ L → ∃ x, w.map Token.lexeme = lexemes x) (h : w ∈ Phrase.maybe L) :
    ∃ o : Option α, w.map Token.lexeme = (o.map lexemes).getD [] := by
  rcases h with rfl | h
  · exact ⟨none, rfl⟩
  · obtain ⟨x, hx⟩ := hL h
    exact ⟨some x, hx⟩

/-! ## §2 Names and constants -/

/-- A name is a word. -/
theorem exists_word {words : List Bytes} (hw : Named w) (h : w ∈ Phrase.nameBut words) :
    ∃ n : Word, w.map Token.lexeme = [name n.text] ∧ n.text ∉ words := by
  obtain ⟨t, rfl, hkind, hbut⟩ := h
  refine ⟨⟨t.text, hw t (List.mem_singleton_self t) hkind⟩, ?_, hbut⟩
  rw [List.map_singleton, lexeme_of_kind hkind rfl, name]

/-- So is any name. -/
theorem exists_name (hw : Named w) (h : w ∈ Phrase.name) :
    ∃ n : Word, w.map Token.lexeme = [name n.text] := by
  obtain ⟨t, rfl, hkind⟩ := h
  have hbut : [t] ∈ Phrase.nameBut [] := ⟨t, rfl, hkind, List.not_mem_nil⟩
  obtain ⟨n, hn, -⟩ := exists_word hw hbut
  exact ⟨n, hn⟩

/-- The components of a name behind the first one. -/
theorem exists_components (hw : Named w)
    (h : w ∈ ((Phrase.sign .dot + Phrase.sign .doubleColon) * Phrase.name)∗) :
    ∃ l, w.map Token.lexeme = Path.moreLexemes l := by
  obtain ⟨pieces, rfl, hpieces⟩ := Language.mem_kstar.mp h
  clear h
  induction pieces with
  | nil => exact ⟨[], rfl⟩
  | cons y pieces ih =>
    rw [List.flatten_cons] at hw
    obtain ⟨hy, hrest⟩ := List.forall_mem_cons.mp hpieces
    obtain ⟨l, hl⟩ := ih hrest hw.right
    obtain ⟨s, hs, n, hn, rfl⟩ := Language.mem_mul.mp hy
    obtain ⟨part, hpart⟩ := exists_name hw.left.right hn
    -- the separator is one of two signs, and the form keeps which
    have hseparator : ∃ separator : Separator, s.map Token.lexeme = [sign separator.kind] := by
      rcases hs with hs | hs
      · exact ⟨.dot, lexemes_of_sign rfl hs⟩
      · exact ⟨.doubleColon, lexemes_of_sign rfl hs⟩
    obtain ⟨separator, hseparator⟩ := hseparator
    refine ⟨(separator, part) :: l, ?_⟩
    simp [List.flatten_cons, hseparator, hpart, hl, Path.moreLexemes]

/-- A dotted name has a form. -/
theorem exists_path {words : List Bytes} (hw : Named w) (h : w ∈ Phrase.pathBut words) :
    ∃ p : Path, w.map Token.lexeme = p.lexemes ∧ p.first.text ∉ words := by
  obtain ⟨a, ha, b, hb, rfl⟩ := Language.mem_mul.mp h
  obtain ⟨first, hfirst, hbut⟩ := exists_word hw.left ha
  obtain ⟨more, hmore⟩ := exists_components hw.right hb
  exact ⟨⟨first, more⟩, by simp [hfirst, hmore, Path.lexemes], hbut⟩

/-- A number has a form. -/
theorem exists_whole (h : w ∈ Phrase.intLit) : ∃ n : Whole, w.map Token.lexeme = [n.lexeme] := by
  obtain ⟨t, rfl, hkind, -⟩ := h
  have hbase : ∃ base : Base, t.kind = base.kind := by
    revert hkind
    cases t.kind <;> intro hkind <;> try cases hkind
    · exact ⟨.decimal, rfl⟩
    · exact ⟨.octal, rfl⟩
    · exact ⟨.hexadecimal, rfl⟩
  obtain ⟨base, hbase⟩ := hbase
  refine ⟨⟨base, t.text⟩, ?_⟩
  rw [List.map_singleton, lexeme_of_kind hbase (by cases base <;> rfl), Whole.lexeme]

/-- A literal has a form. -/
theorem exists_literal (h : w ∈ Phrase.literal) :
    ∃ l : Literal, w.map Token.lexeme = [l.lexeme] := by
  rcases h with ((h | h) | h) | h
  · obtain ⟨n, hn⟩ := exists_whole h
    exact ⟨.int n, hn⟩
  · -- a float
    obtain ⟨t, rfl, hkind, -⟩ := h
    refine ⟨.float t.text, ?_⟩
    rw [List.map_singleton, lexeme_of_kind hkind rfl, Literal.lexeme]
  · -- a text
    obtain ⟨value, t, rfl, hkind, -⟩ := h
    refine ⟨.text t.text, ?_⟩
    rw [List.map_singleton, lexeme_of_kind hkind rfl, Literal.lexeme]
  · -- one of the four constant words
    obtain ⟨t, rfl, hkind, htext⟩ := h
    rw [List.map_singleton, lexeme_of_kind hkind rfl]
    simp only [Phrase.constantWords, List.mem_cons, List.not_mem_nil, or_false] at htext
    rcases htext with htext | htext | htext | htext
    · exact ⟨.bool true, by rw [htext]; rfl⟩
    · exact ⟨.bool false, by rw [htext]; rfl⟩
    · exact ⟨.infinity, by rw [htext]; rfl⟩
    · exact ⟨.nan, by rw [htext]; rfl⟩

/-- A value has a form. -/
theorem exists_value (hw : Named w) (h : w ∈ Phrase.value) :
    ∃ x : Value, w.map Token.lexeme = x.lexemes := by
  rcases h with h | h
  · obtain ⟨l, hl⟩ := exists_literal h
    exact ⟨.literal l, hl⟩
  · obtain ⟨p, hp, hfree⟩ := exists_path hw h
    exact ⟨.path p hfree, hp⟩

/-! ## §3 Annotations -/

/-- An argument has a form. -/
theorem exists_arg (hw : Named w) (h : w ∈ Phrase.arg) :
    ∃ a : Arg, w.map Token.lexeme = a.lexemes := by
  rcases h with h | h
  · obtain ⟨l, hl⟩ := exists_literal h
    exact ⟨.positional l, hl⟩
  · obtain ⟨a, ha, b, hb, rfl⟩ := Language.mem_mul.mp h
    obtain ⟨key, hkey, hfree⟩ := exists_word hw.left ha
    -- a key alone, or with a value
    rcases hb with rfl | hb
    · exact ⟨.flag ⟨key, hfree⟩, by simp [hkey, Arg.lexemes]⟩
    · obtain ⟨s, hs, x, hx, rfl⟩ := Language.mem_mul.mp hb
      obtain ⟨x', hx'⟩ := exists_value hw.right.right hx
      refine ⟨.pair ⟨key, hfree⟩ x', ?_⟩
      simp [hkey, lexemes_of_sign rfl hs, hx', Arg.lexemes]

/-- Arguments have a form, with the comma that may stand behind them. -/
theorem exists_args (hw : Named w) (h : w ∈ Phrase.args) :
    ∃ items comma, w.map Token.lexeme = Args.lexemesOf comma items := by
  obtain ⟨u, hu, c, hc, rfl⟩ := Language.mem_mul.mp h
  obtain ⟨a, ha, b, hb, rfl⟩ := Language.mem_mul.mp hu
  have hcomma : ∃ comma : Bool,
      c.map Token.lexeme = if comma then [sign .comma] else [] := by
    rcases hc with rfl | hc
    · exact ⟨false, rfl⟩
    · exact ⟨true, lexemes_of_sign rfl hc⟩
  obtain ⟨comma, hcomma⟩ := hcomma
  obtain ⟨pieces, rfl, hpieces⟩ := Language.mem_kstar.mp hb
  -- the first argument stands for itself, each other one has a comma in front of it
  suffices hitems : ∃ x r, (a ++ pieces.flatten ++ c).map Token.lexeme
      = Args.lexemesOf comma (x :: r) by
    obtain ⟨x, r, hx⟩ := hitems
    exact ⟨x :: r, comma, hx⟩
  clear h hu hb hc
  induction pieces generalizing a with
  | nil =>
    obtain ⟨x, hx⟩ := exists_arg hw.left.left ha
    exact ⟨x, [], by simp [hx, hcomma, Args.lexemesOf]⟩
  | cons y pieces ih =>
    obtain ⟨x, hx⟩ := exists_arg hw.left.left ha
    obtain ⟨hy, hpieces'⟩ := List.forall_mem_cons.mp hpieces
    obtain ⟨s, hs, b, hb, rfl⟩ := Language.mem_mul.mp hy
    have hrest : Named (b ++ pieces.flatten ++ c) := by
      intro t ht
      apply hw t
      simp only [List.flatten_cons, List.mem_append] at ht ⊢
      tauto
    obtain ⟨z, r, hz⟩ := ih b hb hpieces' hrest
    refine ⟨x, z :: r, ?_⟩
    rw [Args.lexemesOf, ← hz]
    simp [hx, lexemes_of_sign rfl hs]

/-- An annotation has a form. -/
theorem exists_bareAnnot (hw : Named w) (h : w ∈ Phrase.bareAnnot) :
    ∃ a : Annot, w.map Token.lexeme = a.lexemes := by
  obtain ⟨u, hu, x, hx, rfl⟩ := Language.mem_mul.mp h
  obtain ⟨s, hs, p, hp, rfl⟩ := Language.mem_mul.mp hu
  obtain ⟨p', hp', -⟩ := exists_path hw.left.right hp
  -- the arguments may be missing, and may be empty
  have hargs : ∃ args : Option Args, x.map Token.lexeme = (args.map Args.lexemes).getD [] := by
    apply exists_of_maybe _ hx
    intro hx
    obtain ⟨y, hy, z, hz, rfl⟩ := Language.mem_mul.mp hx
    obtain ⟨o, ho, i, hi, rfl⟩ := Language.mem_mul.mp hy
    rcases hi with rfl | hi
    · exact ⟨⟨[], false⟩, by
        simp [lexemes_of_sign rfl ho, lexemes_of_sign rfl hz, Args.lexemes, Args.lexemesOf]⟩
    · obtain ⟨items, comma, hitems⟩ := exists_args hw.right.left.right hi
      exact ⟨⟨items, comma⟩, by
        simp [lexemes_of_sign rfl ho, hitems, lexemes_of_sign rfl hz, Args.lexemes]⟩
  obtain ⟨args, hargs⟩ := hargs
  exact ⟨⟨p', args⟩, by simp [lexemes_of_sign rfl hs, hp', hargs, Annot.lexemes]⟩

/-! ## §4 Items -/

section

variable {α : Type} {lexemes : α → List Lexeme}

/-- Items one after the other. -/
theorem Item.lexemesOf_append (l m : List (Item α)) :
    Item.lexemesOf lexemes (l ++ m) = Item.lexemesOf lexemes l ++ Item.lexemesOf lexemes m := by
  induction l with
  | nil => rfl
  | cons item l ih => cases item <;> simp [Item.lexemesOf, ih]

/-- Whether tokens are written as items. -/
def HasItems (lexemes : α → List Lexeme) (w : List Token) : Prop :=
  ∃ l, w.map Token.lexeme = Item.lexemesOf lexemes l

/-- Tokens one after the other. -/
theorem HasItems.append (hv : HasItems lexemes v) (hw : HasItems lexemes w) :
    HasItems lexemes (v ++ w) := by
  obtain ⟨l, hl⟩ := hv
  obtain ⟨m, hm⟩ := hw
  exact ⟨l ++ m, by rw [List.map_append, hl, hm, Item.lexemesOf_append]⟩

/-- A semicolon is an item. -/
theorem hasItems_semicolon (h : w ∈ Phrase.sign .semicolon) : HasItems lexemes w :=
  ⟨[.semicolon], lexemes_of_sign rfl h⟩

/-- So is a member that has a form. -/
theorem hasItems_member {x : α} (h : w.map Token.lexeme = lexemes x) : HasItems lexemes w :=
  ⟨[.member x], by simp [h, Item.lexemesOf]⟩

/-- So is an annotation, with the semicolon behind it. -/
theorem hasItems_annot (hw : Named w) (h : w ∈ Phrase.annot) : HasItems lexemes w := by
  obtain ⟨u, hu, s, hs, rfl⟩ := Language.mem_mul.mp h
  obtain ⟨a, ha⟩ := exists_bareAnnot hw.left hu
  have hannot : HasItems lexemes u := ⟨[.annot a], by simp [ha, Item.lexemesOf]⟩
  rcases hs with rfl | hs
  · rwa [List.append_nil]
  · exact hannot.append (hasItems_semicolon hs)

/-- Repeated phrases of items. -/
theorem hasItems_kstar {L : Language Token}
    (hL : ∀ v ∈ L, Named v → HasItems lexemes v) (hw : Named w) (h : w ∈ L∗) :
    HasItems lexemes w := by
  obtain ⟨pieces, rfl, hpieces⟩ := Language.mem_kstar.mp h
  clear h
  induction pieces with
  | nil => exact ⟨[], rfl⟩
  | cons y pieces ih =>
    obtain ⟨hy, hpieces⟩ := List.forall_mem_cons.mp hpieces
    rw [List.flatten_cons] at hw ⊢
    exact (hL y hy hw.left).append (ih hpieces hw.right)

/-- What stands in front of a declaration is items. -/
theorem hasItems_front (hw : Named w) (h : w ∈ Phrase.front) : HasItems lexemes w := by
  rcases h with rfl | h
  · exact ⟨[], rfl⟩
  · obtain ⟨a, ha, b, hb, rfl⟩ := Language.mem_mul.mp h
    apply (hasItems_annot hw.left ha).append
    apply hasItems_kstar _ hw.right hb
    rintro v (hv | hv) hnamed
    · exact hasItems_semicolon hv
    · exact hasItems_annot hnamed hv

/-- Members in braces. -/
theorem exists_body {member : Language Token}
    (hmember : ∀ v ∈ member, Named v → ∃ x, v.map Token.lexeme = lexemes x) (hw : Named w)
    (h : w ∈ Phrase.body member) : ∃ l, w.map Token.lexeme
      = sign .openCurl :: (Item.lexemesOf lexemes l ++ [sign .closeCurl]) := by
  obtain ⟨u, hu, c, hc, rfl⟩ := Language.mem_mul.mp h
  obtain ⟨o, ho, i, hi, rfl⟩ := Language.mem_mul.mp hu
  -- each member is given in a form, with the annotations before it
  have hitems : HasItems lexemes i := by
    apply hasItems_kstar _ hw.left.right hi
    rintro v (hv | hv) hnamed
    · exact hasItems_semicolon hv
    · obtain ⟨x, hx, y, hy, rfl⟩ := Language.mem_mul.mp hv
      obtain ⟨m, hm⟩ := hmember y hy hnamed.right
      exact (hasItems_front hnamed.left hx).append (hasItems_member hm)
  obtain ⟨l, hl⟩ := hitems
  exact ⟨l, by simp [lexemes_of_sign rfl ho, hl, lexemes_of_sign rfl hc]⟩

end

/-! ## §5 Fields and messages -/

/-- A field has a form. -/
theorem exists_field (hw : Named w) (h : w ∈ Phrase.field) :
    ∃ d : Field, w.map Token.lexeme = d.lexemes := by
  obtain ⟨u₁, hu₁, s, hs, rfl⟩ := Language.mem_mul.mp h
  obtain ⟨u₂, hu₂, e, he, rfl⟩ := Language.mem_mul.mp hu₁
  obtain ⟨u₃, hu₃, q, hq, rfl⟩ := Language.mem_mul.mp hu₂
  obtain ⟨t, ht, n, hn, rfl⟩ := Language.mem_mul.mp hu₃
  obtain ⟨fieldName, hname⟩ := exists_name hw.left.left.left.right hn
  -- one part after the other: label and type, question mark, number
  have htype : ∃ (label : Option Tree.Presence) (p : Path),
      t.map Token.lexeme = label.toList.map Field.labelLexeme ++ p.lexemes := by
    rcases ht with ht | ht
    · obtain ⟨l, hl, p, hp, rfl⟩ := Language.mem_mul.mp ht
      obtain ⟨p', hp', -⟩ := exists_path hw.left.left.left.left.right hp
      rcases hl with hl | hl
      · exact ⟨some .optional, p', by simp [lexemes_of_word hl, hp', Field.labelLexeme]⟩
      · exact ⟨some .required, p', by simp [lexemes_of_word hl, hp', Field.labelLexeme]⟩
    · obtain ⟨p', hp', -⟩ := exists_path hw.left.left.left.left ht
      exact ⟨none, p', by simp [hp']⟩
  obtain ⟨label, type, htype⟩ := htype
  have hquestion : ∃ question, q.map Token.lexeme = signIf question .question := by
    rcases hq with rfl | hq
    · exact ⟨false, rfl⟩
    · exact ⟨true, lexemes_of_sign rfl hq⟩
  obtain ⟨question, hquestion⟩ := hquestion
  have hnumber : ∃ number : Option Whole,
      e.map Token.lexeme = (number.map fun n => [sign .eq, n.lexeme]).getD [] := by
    apply exists_of_maybe _ he
    intro he
    obtain ⟨x, hx, i, hi, rfl⟩ := Language.mem_mul.mp he
    obtain ⟨n, hn⟩ := exists_whole hi
    exact ⟨n, by simp [lexemes_of_sign rfl hx, hn]⟩
  obtain ⟨number, hnumber⟩ := hnumber
  refine ⟨⟨label, type, fieldName, question, number⟩, ?_⟩
  simp [htype, hname, hquestion, hnumber, lexemes_of_sign rfl hs, Field.lexemes, Field.endLexemes]

/-- A message has a form. -/
theorem exists_message (hw : Named w) (h : w ∈ Phrase.message) :
    ∃ m : Message, w.map Token.lexeme = m.lexemes := by
  obtain ⟨u, hu, b, hb, rfl⟩ := Language.mem_mul.mp h
  obtain ⟨k, hk, n, hn, rfl⟩ := Language.mem_mul.mp hu
  obtain ⟨messageName, hname⟩ := exists_name hw.left.right hn
  obtain ⟨body, hbody⟩ := exists_body (fun v hv hnamed => exists_field hnamed hv) hw.right hb
  exact ⟨⟨messageName, body⟩, by simp [lexemes_of_word hk, hname, hbody, Message.lexemes]⟩

/-! ## §6 Methods and services -/

/-- A parameter in parentheses. -/
theorem exists_parens (hw : Named w) (h : w ∈ Phrase.parens) :
    ∃ type, w.map Token.lexeme = (Parameter.parens type).lexemes := by
  obtain ⟨u, hu, c, hc, rfl⟩ := Language.mem_mul.mp h
  obtain ⟨o, ho, t, ht, rfl⟩ := Language.mem_mul.mp hu
  have htype : ∃ type : Option Path, t.map Token.lexeme = (type.map Path.lexemes).getD [] := by
    apply exists_of_maybe _ ht
    intro ht
    obtain ⟨p, hp, -⟩ := exists_path hw.left.right ht
    exact ⟨p, hp⟩
  obtain ⟨type, htype⟩ := htype
  exact ⟨type, by simp [lexemes_of_sign rfl ho, htype, lexemes_of_sign rfl hc, Parameter.lexemes]⟩

/-- A type in parentheses or by itself. -/
theorem exists_parameter {words : List Bytes} (hw : Named w)
    (h : w ∈ Phrase.parens + Phrase.typeBut words) :
    ∃ p : Parameter, w.map Token.lexeme = p.lexemes := by
  rcases h with h | h
  · obtain ⟨type, htype⟩ := exists_parens hw h
    exact ⟨.parens type, htype⟩
  · obtain ⟨p, hp, -⟩ := exists_path hw h
    exact ⟨.bare p, hp⟩

/-- The answer of a method, with its mark. -/
theorem exists_output (hw : Named w) (h : w ∈ Phrase.output) :
    ∃ x : Mark × Parameter, w.map Token.lexeme = x.1.lexeme :: x.2.lexemes := by
  obtain ⟨k, hk, t, ht, rfl⟩ := Language.mem_mul.mp h
  obtain ⟨p, hp⟩ := exists_parameter hw.right ht
  rcases hk with hk | hk
  · exact ⟨(.returns, p), by simp [lexemes_of_word hk, hp, Mark.lexeme]⟩
  · exact ⟨(.arrow, p), by simp [lexemes_of_sign rfl hk, hp, Mark.lexeme]⟩

/-- The end of a method: a semicolon, or braces around some of them. -/
theorem exists_ending (h : w ∈ Phrase.methodEnd) :
    ∃ e : Ending, w.map Token.lexeme = e.lexemes := by
  rcases h with h | h
  · exact ⟨.semicolon, lexemes_of_sign rfl h⟩
  · obtain ⟨u, hu, c, hc, rfl⟩ := Language.mem_mul.mp h
    obtain ⟨o, ho, i, hi, rfl⟩ := Language.mem_mul.mp hu
    obtain ⟨pieces, rfl, hpieces⟩ := Language.mem_kstar.mp hi
    -- only how many they are is kept
    have hsemicolons : pieces.flatten.map Token.lexeme
        = List.replicate pieces.length (sign .semicolon) := by
      clear h hu hi
      induction pieces with
      | nil => rfl
      | cons y pieces ih =>
        obtain ⟨hy, hpieces⟩ := List.forall_mem_cons.mp hpieces
        simp [lexemes_of_sign rfl hy, ih hpieces, List.replicate_succ]
    refine ⟨.braces pieces.length, ?_⟩
    simp only [List.map_append, lexemes_of_sign rfl ho, hsemicolons, lexemes_of_sign rfl hc,
      Ending.lexemes]
    rfl

/-- A method has a form. -/
theorem exists_method (hw : Named w) (h : w ∈ Phrase.method) :
    ∃ m : Method, w.map Token.lexeme = m.lexemes := by
  obtain ⟨u₁, hu₁, e, he, rfl⟩ := Language.mem_mul.mp h
  obtain ⟨u₂, hu₂, o, ho, rfl⟩ := Language.mem_mul.mp hu₁
  obtain ⟨u₃, hu₃, i, hi, rfl⟩ := Language.mem_mul.mp hu₂
  obtain ⟨k, hk, n, hn, rfl⟩ := Language.mem_mul.mp hu₃
  -- each part of the phrase is given in a form
  obtain ⟨methodName, hname⟩ := exists_name hw.left.left.left.right hn
  obtain ⟨input, hinput⟩ := exists_of_maybe (exists_parameter hw.left.left.right) hi
  obtain ⟨output, houtput⟩ := exists_of_maybe (exists_output hw.left.right) ho
  obtain ⟨ending, hending⟩ := exists_ending he
  refine ⟨⟨methodName, input, output, ending⟩, ?_⟩
  simp [lexemes_of_word hk, hname, hinput, houtput, hending, Method.lexemes, Method.restLexemes,
    Method.outputLexemes]

/-- A service has a form. -/
theorem exists_service (hw : Named w) (h : w ∈ Phrase.service) :
    ∃ s : Service, w.map Token.lexeme = s.lexemes := by
  obtain ⟨u, hu, b, hb, rfl⟩ := Language.mem_mul.mp h
  obtain ⟨k, hk, n, hn, rfl⟩ := Language.mem_mul.mp hu
  obtain ⟨serviceName, hname⟩ := exists_name hw.left.right hn
  obtain ⟨body, hbody⟩ := exists_body (fun v hv hnamed => exists_method hnamed hv) hw.right hb
  exact ⟨⟨serviceName, body⟩, by simp [lexemes_of_word hk, hname, hbody, Service.lexemes]⟩

/-! ## §7 Files -/

/-- The package is a statement. -/
theorem hasItems_package (hw : Named w) (h : w ∈ Phrase.package) :
    HasItems Statement.lexemes w := by
  obtain ⟨u, hu, s, hs, rfl⟩ := Language.mem_mul.mp h
  obtain ⟨k, hk, p, hp, rfl⟩ := Language.mem_mul.mp hu
  obtain ⟨p', hp', -⟩ := exists_path hw.left.right hp
  refine hasItems_member (x := .package p') ?_
  simp [lexemes_of_word hk, hp', lexemes_of_sign rfl hs, Statement.lexemes]

/-- So is the version. -/
theorem hasItems_version (h : w ∈ Phrase.version) : HasItems Statement.lexemes w := by
  obtain ⟨u₁, hu₁, s, hs, rfl⟩ := Language.mem_mul.mp h
  obtain ⟨u₂, hu₂, t, ht, rfl⟩ := Language.mem_mul.mp hu₁
  obtain ⟨k, hk, e, he, rfl⟩ := Language.mem_mul.mp hu₂
  obtain ⟨t, rfl, hkind, -⟩ := ht
  refine hasItems_member (x := .version t.text) ?_
  simp [lexemes_of_word hk, lexemes_of_sign rfl he, lexeme_of_kind hkind rfl,
    lexemes_of_sign rfl hs, Statement.lexemes]

/-- So is a setting. -/
theorem hasItems_setting (hw : Named w) (h : w ∈ Phrase.setting) :
    HasItems Statement.lexemes w := by
  obtain ⟨u₁, hu₁, s, hs, rfl⟩ := Language.mem_mul.mp h
  obtain ⟨u₂, hu₂, x, hx, rfl⟩ := Language.mem_mul.mp hu₁
  obtain ⟨u₃, hu₃, e, he, rfl⟩ := Language.mem_mul.mp hu₂
  obtain ⟨k, hk, p, hp, rfl⟩ := Language.mem_mul.mp hu₃
  obtain ⟨p', hp', -⟩ := exists_path hw.left.left.left.right hp
  obtain ⟨x', hx'⟩ := exists_value hw.left.right hx
  refine hasItems_member (x := .setting p' x') ?_
  simp [lexemes_of_word hk, hp', lexemes_of_sign rfl he, hx', lexemes_of_sign rfl hs,
    Statement.lexemes]

/-- Every statement is written as items. -/
theorem hasItems_statement (hw : Named w) (h : w ∈ Phrase.statement) :
    HasItems Statement.lexemes w := by
  rcases h with ((h | h) | h) | h
  · exact hasItems_semicolon h
  · exact hasItems_version h
  · exact hasItems_setting hw h
  · obtain ⟨x, hx, y, hy, rfl⟩ := Language.mem_mul.mp h
    apply (hasItems_front hw.left hx).append
    -- a message or a service, with the annotations before it
    rcases hy with hy | hy
    · obtain ⟨m, hm⟩ := exists_message hw.right hy
      exact hasItems_member (x := .message m) hm
    · obtain ⟨s, hs⟩ := exists_service hw.right hy
      exact hasItems_member (x := .service s) hs

/-- So is a whole file. -/
theorem hasItems_file {requirePackage : Bool} (hw : Named w)
    (h : w ∈ Phrase.file requirePackage) : HasItems Statement.lexemes w := by
  -- statements before the package and behind it
  have hstatements {w : List Token} (hw : Named w) (h : w ∈ Phrase.statement∗) :
      HasItems Statement.lexemes w :=
    hasItems_kstar (fun v hv hnamed => hasItems_statement hnamed hv) hw h
  obtain ⟨seen, -, h⟩ := Phrase.mem_file.mp h
  cases seen with
  | false => exact hstatements hw h
  | true =>
    obtain ⟨u, hu, z, hz, rfl⟩ := Language.mem_mul.mp h
    obtain ⟨x, hx, y, hy, rfl⟩ := Language.mem_mul.mp hu
    exact ((hstatements hw.left.left hx).append (hasItems_package hw.left.right hy)).append
      (hstatements hw.right hz)

end Spelling

/-- Every source that is accepted is spelled by a form. -/
theorem exists_spells {src : Bytes} {allowMissingPackage : Bool} {x : Tree.File}
    (h : parseFile src allowMissingPackage = .ok x) : ∃ f : Spelling.File, f.Spells src := by
  obtain ⟨l, c, hlex, hfile⟩ := exists_of_parseFile_eq_ok h
  obtain ⟨⟨e, he⟩, hmem, -⟩ := Grammar.file_sound (significant_proper hlex) hfile
  have hnamed : Spelling.Named l.significant := fun t ht hkind =>
    (lex_lexes hlex he).1.isName (List.mem_filter.mp ht).1 hkind
  obtain ⟨items, hitems⟩ := Spelling.hasItems_file hnamed hmem
  exact ⟨⟨items⟩, l, hlex, hitems⟩

end Idl
