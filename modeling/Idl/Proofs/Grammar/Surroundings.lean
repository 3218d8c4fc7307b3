import Idl.Proofs.Grammar.Annotations
import Idl.Proofs.Spelling.Forms
import Mathlib.Data.List.Chain

/-!
# What stands around an annotation

Where an annotation occurs among the tokens of a file, it is one of those in front of a declaration
or member, with all its arguments. So any other annotation can stand there: what is in front of it
and what is behind it do not depend on what it says. Nowhere in a file is there a text with a bad
escape, though.

* §1 phrases are known by their lexemes,
* §2 how phrases begin, §3 where tokens occur in a phrase,
* §4 an annotation in front of something, §5 in bodies, statements and files,
* §6 another annotation, §7 texts.
-/

namespace Idl

open scoped Computability

namespace Phrase

open AnnotLine (namePart)

variable {L M : Language Token} {v w x y o : List Token}

/-! ## §1 Lexemes -/

/-- Tokens with the lexemes of a phrase are a phrase. -/
def ByLexemes (L : Language Token) : Prop :=
  ∀ v ∈ L, ∀ w : List Token, w.map Token.lexeme = v.map Token.lexeme → w ∈ L

namespace ByLexemes

/-- One token, of which the text counts only where it can be seen. -/
theorem one {p : Token → Prop} (hp : ∀ t u : Token, u.lexeme = t.lexeme → p t → p u) :
    ByLexemes (Phrase.one p) := by
  rintro _ ⟨t, rfl, ht⟩ w hw
  obtain ⟨u, rfl, hu⟩ := List.map_eq_singleton_iff.mp hw
  exact ⟨u, rfl, hp t u hu ht⟩

/-- A sign is told by its kind alone. -/
theorem sign (kind : TokenKind) : ByLexemes (Phrase.sign kind) :=
  one fun _ _ hlexeme ht => (congrArg Prod.fst hlexeme).trans ht

/-- One token of a kind that has texts. -/
theorem oneText {p : TokenKind → Bytes → Prop}
    (hp : ∀ kind text, p kind text → kind.hasText = true) :
    ByLexemes (Phrase.one fun t => p t.kind t.text) := by
  refine one fun t u hlexeme ht => ?_
  have hkind : u.kind = t.kind := congrArg Prod.fst hlexeme
  have hhas := hp _ _ ht
  have htext : u.text = t.text := by
    have hsnd := congrArg Prod.snd hlexeme
    simpa only [Token.lexeme, hkind, hhas, if_true] using hsnd
  rw [hkind, htext]
  exact ht

/-- Tokens with the lexemes of two phrases in a row are cut at the same place. -/
theorem mul (hL : ByLexemes L) (hM : ByLexemes M) : ByLexemes (L * M) := by
  intro v hv w hw
  obtain ⟨a, ha, b, hb, rfl⟩ := Language.mem_mul.mp hv
  rw [List.map_append] at hw
  obtain ⟨a', b', rfl, ha', hb'⟩ := List.map_eq_append_iff.mp hw
  exact Language.append_mem_mul (hL a ha a' ha') (hM b hb b' hb')

/-- A choice of languages told by their lexemes. -/
theorem add (hL : ByLexemes L) (hM : ByLexemes M) : ByLexemes (L + M) := by
  rintro v (hv | hv) w hw
  · exact .inl (hL v hv w hw)
  · exact .inr (hM v hv w hw)

/-- An optional phrase. -/
theorem maybe (hL : ByLexemes L) : ByLexemes (Phrase.maybe L) := by
  rintro v (rfl | hv) w hw
  · rw [List.map_eq_nil_iff.mp hw]
    exact nil_mem_maybe
  · exact mem_maybe (hL v hv w hw)

/-- Repeated phrases: the tokens are cut where the given ones are. -/
theorem kstar (hL : ByLexemes L) : ByLexemes (L∗) := by
  intro v hv w hw
  obtain ⟨pieces, rfl, hpieces⟩ := Language.mem_kstar.mp hv
  clear hv
  revert w
  -- on the pieces, for any tokens with their lexemes
  induction pieces with
  | nil =>
    intro w hw
    rw [List.map_eq_nil_iff.mp hw]
    exact Language.nil_mem_kstar L
  | cons a pieces ih =>
    intro w hw
    obtain ⟨ha, hpieces⟩ := List.forall_mem_cons.mp hpieces
    rw [List.flatten_cons, List.map_append] at hw
    obtain ⟨a', r, rfl, ha', hr⟩ := List.map_eq_append_iff.mp hw
    exact mul_kstar_le_kstar (a := L)
      (Language.append_mem_mul (hL a ha a' ha') (ih hpieces r hr))

/-- A keyword: the text of a word can be seen. -/
theorem word (text : Bytes) : ByLexemes (Phrase.word text) :=
  oneText (p := fun kind t => (kind == .ident && t == text) = true) fun kind t h => by
    rw [beq_iff_eq.mp (Bool.and_eq_true_iff.mp h).1]
    rfl

/-- A name other than the given words. -/
theorem nameBut (words : List Bytes) : ByLexemes (Phrase.nameBut words) :=
  oneText (p := fun kind t => kind = .ident ∧ t ∉ words) fun kind t h => by
    rw [h.1]
    rfl

/-- A dotted name that does not begin with one of the words. -/
theorem pathBut (words : List Bytes) : ByLexemes (Phrase.pathBut words) :=
  (nameBut words).mul (kstar (((sign _).add (sign _)).mul (sign _)))

/-- A number. -/
theorem intLit : ByLexemes Phrase.intLit :=
  oneText (p := fun kind t => kind.isInteger = true ∧ -(2 ^ 63) ≤ intLitValue kind t
    ∧ intLitValue kind t ≤ 2 ^ 64 - 1) fun kind t h => by
    have hinteger := h.1
    revert hinteger
    cases kind <;> simp [TokenKind.isInteger, TokenKind.hasText]

/-- A text of a given value. -/
theorem textLitOf (value : Bytes) : ByLexemes (Phrase.textLitOf value) :=
  oneText (p := fun kind t => kind = .textLit ∧ textLitValue t = .ok value) fun kind t h => by
    rw [h.1]
    rfl

/-- A literal: numbers, texts and floats have their text in the lexeme. -/
theorem literal : ByLexemes Phrase.literal := by
  refine ((intLit.add ?_).add ?_).add ?_
  · -- a float, a text, and one of the constant words
    exact oneText (p := fun kind t => kind = .floatLit ∧ (Binary64.ofNumeral? t).isSome = true)
      fun kind t h => by
        rw [h.1]
        rfl
  · rintro v ⟨value, hv⟩ w hw
    exact ⟨value, textLitOf value v hv w hw⟩
  · exact oneText (p := fun kind t => kind = .ident ∧ t ∈ constantWords)
      fun kind t h => by
        rw [h.1]
        rfl

/-- A value is a literal or a dotted name. -/
theorem value : ByLexemes Phrase.value := literal.add (pathBut _)

/-- An annotation without the semicolon behind it. -/
theorem bareAnnot : ByLexemes Phrase.bareAnnot := by
  have harg : ByLexemes arg := literal.add ((nameBut _).mul (maybe ((sign _).mul value)))
  have hargs : ByLexemes args :=
    (harg.mul (kstar ((sign _).mul harg))).mul (maybe (sign _))
  exact ((sign _).mul (pathBut _)).mul (maybe (((sign _).mul (maybe hargs)).mul (sign _)))

/-- What stands in front of a declaration or member. -/
theorem front : ByLexemes Phrase.front :=
  have hannot : ByLexemes annot := bareAnnot.mul (maybe (sign _))
  maybe (hannot.mul (kstar ((sign _).add hannot)))

/-- The braces of a declaration, when its members are told by their lexemes. -/
theorem body {member : Language Token} (h : ByLexemes member) : ByLexemes (Phrase.body member) :=
  ((sign _).mul (kstar ((sign _).add (front.mul h)))).mul (sign _)

/-- A field. -/
theorem field : ByLexemes Phrase.field :=
  (((((((word _).add (word _)).mul (pathBut _)).add (pathBut _)).mul (sign _)).mul
    (maybe (sign _))).mul (maybe ((sign _).mul intLit))).mul (sign _)

/-- A method. -/
theorem method : ByLexemes Phrase.method := by
  have hparens : ByLexemes parens := ((sign _).mul (maybe (pathBut _))).mul (sign _)
  have hinput : ByLexemes input := hparens.add (pathBut _)
  have houtput : ByLexemes output := ((word _).add (sign _)).mul (hparens.add (pathBut _))
  have hend : ByLexemes methodEnd :=
    (sign _).add (((sign _).mul (kstar (sign _))).mul (sign _))
  exact ((((word _).mul (sign _)).mul (maybe hinput)).mul (maybe houtput)).mul hend

/-- A source is one of the language by the lexemes of its tokens. -/
theorem file (requirePackage : Bool) : ByLexemes (Phrase.file requirePackage) := by
  -- the phrases of a statement, each put together of its parts
  have hmessage : ByLexemes message := ((word _).mul (sign _)).mul field.body
  have hservice : ByLexemes service := ((word _).mul (sign _)).mul method.body
  have hversion : ByLexemes version :=
    (((word _).mul (sign _)).mul (textLitOf _)).mul (sign _)
  have hsetting : ByLexemes setting :=
    ((((word _).mul (pathBut _)).mul (sign _)).mul value).mul (sign _)
  have hpackage : ByLexemes package := ((word _).mul (pathBut _)).mul (sign _)
  have hstatement : ByLexemes statement :=
    (((sign _).add hversion).add hsetting).add (front.mul (hmessage.add hservice))
  refine (hstatement.kstar.mul ?_).mul hstatement.kstar
  cases requirePackage with
  | true => exact hpackage
  | false => exact hpackage.maybe

end ByLexemes

/-! ## §2 How phrases begin -/

/-- The kinds that can follow the name of an annotation and belong to it. -/
def continuations : List TokenKind := [.dot, .doubleColon, .openParen]

/-- The tokens do not begin with a sign by which the name of an annotation goes on. -/
def Free (o : List Token) : Prop := ∀ t ∈ o.head?, t.kind ∉ continuations

/-- At the end of the tokens nothing goes on. -/
theorem free_nil : Free [] := by simp [Free]

/-- Phrases of the language are not empty and do not begin with such a sign. -/
def Heads (L : Language Token) : Prop := ∀ w ∈ L, ∃ t r, w = t :: r ∧ t.kind ∉ continuations

/-- In front of what is free, phrases of the language are free. -/
def Frees (L : Language Token) : Prop := ∀ w ∈ L, ∀ o, Free o → Free (w ++ o)

namespace Heads

/-- One token of another kind. -/
theorem one {p : Token → Prop} (h : ∀ t, p t → t.kind ∉ continuations) : Heads (Phrase.one p) := by
  rintro w ⟨t, rfl, ht⟩
  exact ⟨t, [], rfl, h t ht⟩

/-- A sign that does not belong to the name of an annotation. -/
theorem sign {kind : TokenKind} (h : kind ∉ continuations) : Heads (Phrase.sign kind) :=
  one fun t ht => by rwa [show t.kind = kind from ht]

/-- A keyword. -/
theorem word (text : Bytes) : Heads (Phrase.word text) :=
  one fun t ht => by
    rw [(Grammar.isWord_eq_true.mp ht).1]
    decide

/-- A dotted name begins with a word. -/
theorem pathBut (words : List Bytes) : Heads (Phrase.pathBut words) := by
  intro w hw
  obtain ⟨_, ⟨t, rfl, ht, -⟩, b, -, rfl⟩ := Language.mem_mul.mp hw
  refine ⟨t, b, rfl, ?_⟩
  rw [ht]
  decide

/-- Only the first of two phrases counts, since it is not empty. -/
theorem mul (h : Heads L) (M : Language Token) : Heads (L * M) := by
  intro w hw
  obtain ⟨a, ha, b, -, rfl⟩ := Language.mem_mul.mp hw
  obtain ⟨t, r, rfl, ht⟩ := h a ha
  exact ⟨t, r ++ b, rfl, ht⟩

/-- Either of two languages. -/
theorem add (hL : Heads L) (hM : Heads M) : Heads (L + M) :=
  fun w hw => hw.elim (hL w) (hM w)

/-- A phrase that begins so is free itself, whatever stands behind it. -/
theorem frees (h : Heads L) : Frees L := by
  intro w hw o _
  obtain ⟨t, r, rfl, ht⟩ := h w hw
  simpa [Free] using ht

end Heads

namespace Frees

/-- What is free behind the second phrase is free behind both. -/
theorem mul (hL : Frees L) (hM : Frees M) : Frees (L * M) := by
  intro w hw o ho
  obtain ⟨a, ha, b, hb, rfl⟩ := Language.mem_mul.mp hw
  rw [List.append_assoc]
  exact hL a ha _ (hM b hb o ho)

/-- Either of two languages. -/
theorem add (hL : Frees L) (hM : Frees M) : Frees (L + M) :=
  fun w hw => hw.elim (hL w) (hM w)

/-- An optional phrase. -/
theorem maybe (h : Frees L) : Frees (Phrase.maybe L) := by
  rintro w (rfl | hw) o ho
  · exact ho
  · exact h w hw o ho

/-- Repeated phrases, from the last to the first. -/
theorem kstar (h : Frees L) : Frees (L∗) := by
  intro w hw o ho
  obtain ⟨pieces, rfl, hpieces⟩ := Language.mem_kstar.mp hw
  clear hw
  induction pieces with
  | nil => exact ho
  | cons a pieces ih =>
    obtain ⟨ha, hpieces⟩ := List.forall_mem_cons.mp hpieces
    rw [List.flatten_cons, List.append_assoc]
    exact h a ha _ (ih hpieces)

end Frees

/-- An annotation begins with its sign. -/
theorem heads_bareAnnot : Heads bareAnnot := ((Heads.sign (by decide)).mul _).mul _

/-- A field begins with a label, or with the type. -/
theorem heads_field : Heads field :=
  have hlabel : Heads label := (Heads.word _).add (Heads.word _)
  ((((((hlabel.mul _).add (Heads.pathBut _)).mul _).mul _).mul _).mul _)

/-- A method begins with the word rpc. -/
theorem heads_method : Heads method := ((((Heads.word _).mul _).mul _).mul _).mul _

/-- A message begins with its keyword. -/
theorem heads_message : Heads message := ((Heads.word _).mul _).mul _

/-- A service begins with its keyword. -/
theorem heads_service : Heads service := ((Heads.word _).mul _).mul _

/-- A package declaration begins with its keyword. -/
theorem heads_package : Heads package := ((Heads.word _).mul _).mul _

/-- Semicolons and annotations in any order. -/
def between : Language Token := (sign .semicolon + bareAnnot)∗

/-- What stands in front of a declaration or member begins with an annotation if it is not empty. -/
theorem front_eq : front = maybe (bareAnnot * between) := by
  have hbare : bareAnnot ≤ annot := by
    intro w hw
    have := Language.append_mem_mul hw (nil_mem_maybe (L := sign .semicolon))
    rwa [List.append_nil] at this
  -- both a semicolon and an annotation may stand between
  obtain ⟨hsemicolon, hone⟩ : sign .semicolon ≤ between ∧ bareAnnot ≤ between :=
    add_le_iff.mp le_kstar
  have hannot : annot ≤ bareAnnot * between :=
    mul_le_mul' le_rfl (add_le one_le_kstar hsemicolon)
  have hmore : (sign .semicolon + annot)∗ ≤ between := calc
    (sign .semicolon + annot)∗ ≤ between∗ :=
      kstar_mono (add_le hsemicolon
        (hannot.trans (mul_le_mul' hone le_rfl |>.trans_eq (kstar_mul_kstar _))))
    _ = between := kstar_idem _
  -- one way annotations take their semicolons with them, the other way they leave them behind
  refine le_antisymm (add_le_add_right ?_ 1) (add_le_add_right ?_ 1)
  · calc
      annot * (sign .semicolon + annot)∗ ≤ bareAnnot * between * between := mul_le_mul' hannot hmore
      _ = bareAnnot * between := by rw [mul_assoc, between, kstar_mul_kstar]
  · exact mul_le_mul' hbare (kstar_mono (add_le_add_right hbare _))

/-- Annotations continue nothing. -/
theorem frees_front : Frees front := by
  rw [front_eq]
  exact (heads_bareAnnot.mul _).frees.maybe

/-! ## §3 Where tokens occur -/

section Finds

variable {B : List Token} {I J : List Token → List Token → Prop}

/-- Where the tokens `B` occur in a phrase and what follows it, they occur in the phrase, or behind
it. In the phrase, what is in front of them and what is behind them is as `I` says. -/
def Finds (B : List Token) (L : Language Token) (I : List Token → List Token → Prop) : Prop :=
  ∀ w ∈ L, ∀ x y o, Free o → w ++ o = x ++ (B ++ y) →
    (∃ z, y = z ++ o ∧ I x z) ∨ ∃ z, x = w ++ z ∧ o = z ++ (B ++ y)

namespace Finds

/-- A weaker account of the places. -/
theorem mono (h : Finds B L I) (hI : ∀ x y, I x y → J x y) : Finds B L J := by
  intro w hw x y o ho heq
  rcases h w hw x y o ho heq with ⟨z, hz, hxz⟩ | hz
  · exact .inl ⟨z, hz, hI x z hxz⟩
  · exact .inr hz

/-- In a choice the places are those of the phrase taken. -/
theorem add (hL : Finds B L I) (hM : Finds B M J) :
    Finds B (L + M) fun x y => I x y ∨ J x y := by
  rintro w (hw | hw)
  · exact hL.mono (fun _ _ => .inl) w hw
  · exact hM.mono (fun _ _ => .inr) w hw

/-- An empty phrase has no place inside. -/
theorem maybe (h : Finds B L I) : Finds B (Phrase.maybe L) I := by
  rintro w (rfl | hw) x y o ho heq
  · exact .inr ⟨x, rfl, heq⟩
  · exact h w hw x y o ho heq

/-- In two phrases in a row the tokens are found in the first or in the second: in the first, what
follows is the second with what stands behind it, which is free. -/
theorem mul (hL : Finds B L I) (hM : Finds B M J) (hfree : Frees M) :
    Finds B (L * M) fun x y =>
      (∃ z, ∃ m ∈ M, y = z ++ m ∧ I x z) ∨ ∃ l ∈ L, ∃ z, x = l ++ z ∧ J z y := by
  intro w hw x y o ho heq
  obtain ⟨a, ha, b, hb, rfl⟩ := Language.mem_mul.mp hw
  rw [List.append_assoc] at heq
  rcases hL a ha x y (b ++ o) (hfree b hb o ho) heq with ⟨z, rfl, hxz⟩ | ⟨z, rfl, hz⟩
  · exact .inl ⟨z ++ b, by simp, .inl ⟨z, b, hb, rfl, hxz⟩⟩
  rcases hM b hb z y o ho hz with ⟨u, rfl, hzu⟩ | ⟨u, rfl, hu⟩
  · exact .inl ⟨u, rfl, .inr ⟨a, ha, z, rfl, hzu⟩⟩
  · exact .inr ⟨u, by simp, hu⟩

/-- Among repeated phrases the tokens are found in one of them. -/
theorem kstar (hL : Finds B L I) (hfree : Frees L) :
    Finds B (L∗) fun x y => ∃ p u v q, x = p ++ u ∧ y = v ++ q ∧ p ∈ L∗ ∧ q ∈ L∗ ∧ I u v := by
  intro w hw
  obtain ⟨pieces, rfl, hpieces⟩ := Language.mem_kstar.mp hw
  clear hw
  induction pieces with
  | nil => exact fun x y o _ heq => .inr ⟨x, rfl, heq⟩
  | cons a pieces ih =>
    intro x y o ho heq
    obtain ⟨ha, hpieces⟩ := List.forall_mem_cons.mp hpieces
    have hrest : pieces.flatten ∈ L∗ := Language.join_mem_kstar hpieces
    rw [List.flatten_cons, List.append_assoc] at heq
    -- the bracket is in the first piece, or in the pieces behind it
    rcases hL a ha x y _ (hfree.kstar _ hrest o ho) heq with ⟨z, rfl, hxz⟩ | ⟨z, rfl, hz⟩
    · exact .inl ⟨z ++ pieces.flatten, by simp, [], x, z, _, rfl, rfl, Language.nil_mem_kstar L,
        hrest, hxz⟩
    rcases ih hpieces z y o ho hz with ⟨y, rfl, p, u, v, q, rfl, rfl, hp, hq, huv⟩ | ⟨u, rfl, hu⟩
    · exact .inl ⟨_, rfl, a ++ p, u, v, q, by simp, rfl,
        mul_kstar_le_kstar (a := L) (Language.append_mem_mul ha hp), hq, huv⟩
    · exact .inr ⟨u, by simp, hu⟩

/-- In a phrase without a sign of an annotation there are no annotations. -/
theorem of_lacks (hB : B ∈ bareAnnot) (hL : Lacks .atSign L) : Finds B L fun _ _ => False := by
  intro w hw x y o _ heq
  obtain ⟨s, r, rfl, hs, -⟩ := exists_of_bareAnnot hB
  rcases List.append_eq_append_iff.mp heq with ⟨a, rfl, rfl⟩ | ⟨c, rfl, hc⟩
  · exact .inr ⟨a, rfl, rfl⟩
  · cases c with
    | nil => exact .inr ⟨[], by simp, hc.symm⟩
    | cons u c =>
      obtain ⟨rfl, -⟩ := List.cons.inj hc
      exact absurd hs (hL _ hw s (by simp))

end Finds

/-- In a dotted name, a separator follows each component but the last. -/
theorem isChain_of_pathBut {words : List Bytes} (h : w ∈ pathBut words) :
    w.IsChain fun t u => t.kind = .ident → u.kind ∈ continuations := by
  obtain ⟨_, ⟨n, rfl, -⟩, b, hb, rfl⟩ := Language.mem_mul.mp h
  obtain ⟨pieces, rfl, hpieces⟩ := Language.mem_kstar.mp hb
  clear h hb
  induction pieces generalizing n with
  | nil => exact .singleton n
  | cons a pieces ih =>
    obtain ⟨ha, hmore⟩ := List.forall_mem_cons.mp hpieces
    obtain ⟨b, hb, _, ⟨m, rfl, -⟩, rfl⟩ := Language.mem_mul.mp ha
    obtain ⟨s, rfl, hs⟩ : ∃ s : Token, b = [s] ∧ (s.kind = .dot ∨ s.kind = .doubleColon) := by
      rcases hb with ⟨s, rfl, hs⟩ | ⟨s, rfl, hs⟩
      · exact ⟨s, rfl, .inl hs⟩
      · exact ⟨s, rfl, .inr hs⟩
    -- after a name comes a sign that continues it
    have hcontinuation : s.kind ∈ continuations := by
      rcases hs with hs | hs <;> simp [hs, continuations]
    have hident : s.kind ≠ .ident := by
      rcases hs with hs | hs <;> simp [hs]
    exact .cons_cons (fun _ => hcontinuation) (.cons_cons (fun h => absurd h hident) (ih m hmore))

/-- The first token that has not a property is determined. -/
theorem eq_of_append_cons {p : Token → Bool} {a b r q : List Token} {t u : Token}
    (heq : a ++ t :: r = b ++ u :: q) (ha : ∀ n ∈ a, p n = true) (hb : ∀ n ∈ b, p n = true)
    (ht : p t = false) (hu : p u = false) : a = b ∧ t = u ∧ r = q := by
  have hsplit {c r : List Token} {v : Token} (hc : ∀ n ∈ c, p n = true) (hv : p v = false) :
      (c ++ v :: r).takeWhile p = c := by
    rw [List.takeWhile_append_of_pos hc, List.takeWhile_cons_of_neg (by simp [hv]), List.append_nil]
  obtain rfl : a = b := by rw [← hsplit (r := r) ha ht, heq, hsplit hb hu]
  exact ⟨rfl, List.cons.inj (List.append_cancel_left heq)⟩

/-- An annotation with its arguments. -/
def HasArgs (w : List Token) : Prop :=
  ∃ (s : Token) (p : List Token) (n : Token) (as : List Token) (c : Token),
    w = s :: (p ++ n :: (as ++ [c])) ∧ s.kind = .atSign ∧ p ∈ path ∧ n.kind = .openParen
      ∧ as ∈ Phrase.maybe args ∧ c.kind = .closeParen

/-- An annotation with arguments is an annotation. -/
theorem HasArgs.mem (h : HasArgs w) : w ∈ bareAnnot := by
  obtain ⟨s, p, n, as, c, rfl, hs, hp, hn, has, hc⟩ := h
  exact bareAnnot_of_args hs hp hn has hc

/-- No annotation begins with an annotation that has arguments but the annotation itself. -/
theorem HasArgs.eq_of_append (hB : HasArgs B) (hw : w ∈ bareAnnot) (ho : Free o)
    (heq : w ++ o = B ++ y) : w = B ∧ o = y := by
  obtain ⟨s, p, n, as, c, rfl, hs, hp, hn, has, hc⟩ := hB
  obtain ⟨_, hname, q, hq, rfl⟩ := Language.mem_mul.mp hw
  obtain ⟨_, ⟨s', rfl, -⟩, p', hp', rfl⟩ := Language.mem_mul.mp hname
  have hpart : ∀ t ∈ p, namePart t.kind = true := fun t => namePart_of_pathBut hp
  have hpart' : ∀ t ∈ p', namePart t.kind = true := fun t => namePart_of_pathBut hp'
  have hnpart : namePart n.kind = false := by
    rw [hn]
    rfl
  obtain ⟨rfl, hrest⟩ : s' = s ∧ p' ++ (q ++ o) = p ++ n :: (as ++ c :: y) := by simpa using heq
  clear heq
  rcases hq with rfl | hq
  · -- the name would go on, or the arguments would follow
    exfalso
    rcases List.append_eq_append_iff.mp hrest with ⟨a, hpath, rfl⟩ | ⟨a, rfl, ha⟩
    · cases a with
      | nil => exact ho n rfl (by simp [hn, continuations])
      | cons t a =>
        obtain ⟨v, u, rfl, hu⟩ := exists_last_of_pathBut hp'
        have hchain := isChain_of_pathBut hp
        rw [hpath, List.append_assoc, List.singleton_append] at hchain
        exact ho t rfl ((List.isChain_append_cons_cons.mp hchain).2.1 hu)
    · cases a with
      | nil =>
        obtain rfl : o = n :: (as ++ c :: y) := ha.symm
        exact ho n rfl (by simp [hn, continuations])
      | cons t a =>
        obtain ⟨rfl, -⟩ := List.cons.inj ha
        simp [hpart' n (by simp)] at hnpart
  · obtain ⟨_, hopen, _, ⟨c', rfl, hc'⟩, rfl⟩ := Language.mem_mul.mp hq
    obtain ⟨_, ⟨n', rfl, hn'⟩, as', has', rfl⟩ := Language.mem_mul.mp hopen
    have hn' : n'.kind = .openParen := hn'
    have hc' : c'.kind = .closeParen := hc'
    have hrest : p' ++ n' :: (as' ++ c' :: o) = p ++ n :: (as ++ c :: y) := by simpa using hrest
    -- both have arguments: the names end at the parenthesis, and the arguments at the next one
    obtain ⟨rfl, rfl, hargs⟩ := eq_of_names_append hrest hpart' hpart (by rw [hn']; rfl) hnpart
    have hlacks {l : List Token} (hl : l ∈ Phrase.maybe args) :
        ∀ t ∈ l, (t.kind != .closeParen) = true := by
      intro t ht
      have := Every.maybe (.args (k := .closeParen) (by decide)) l hl t ht
      simpa using this
    obtain ⟨rfl, rfl, rfl⟩ := eq_of_append_cons (p := fun t => t.kind != .closeParen) hargs
      (hlacks has') (hlacks has) (by simp [hc']) (by simp [hc])
    exact ⟨by simp, rfl⟩

/-! ## §4 In front of something -/

/-- An annotation stands in another one only if it is that one. -/
theorem finds_bareAnnot (hB : HasArgs B) : Finds B bareAnnot fun x y => x = [] ∧ y = [] := by
  intro w hw x y o ho heq
  cases x with
  | nil =>
    obtain ⟨rfl, rfl⟩ := hB.eq_of_append hw ho heq
    exact .inl ⟨[], rfl, rfl, rfl⟩
  | cons t x =>
    -- the sign of `B` cannot be one of those behind the sign of `w`
    obtain ⟨s, r, rfl, -, hr⟩ := exists_of_bareAnnot hw
    obtain ⟨rfl, hrest⟩ := List.cons.inj heq
    have hlacks : Lacks .atSign (fun v => v = r) := by
      rintro _ rfl t ht
      exact hr t ht
    rcases Finds.of_lacks hB.mem hlacks r rfl x y o ho hrest with ⟨_, -, hfalse⟩ | ⟨z, rfl, hz⟩
    · exact hfalse.elim
    · exact .inr ⟨z, rfl, hz⟩

/-- Among annotations it is one of them. -/
theorem finds_front (hB : HasArgs B) : Finds B front fun x y => x ∈ front ∧ y ∈ between := by
  have hsemicolon : Finds B (sign .semicolon) fun x y => x = [] ∧ y = [] :=
    (Finds.of_lacks hB.mem (.sign (by decide))).mono fun _ _ => False.elim
  -- a semicolon hides nothing, an annotation only itself
  have hpiece : Finds B (sign .semicolon + bareAnnot) fun x y => x = [] ∧ y = [] :=
    (hsemicolon.add (finds_bareAnnot hB)).mono fun _ _ => or_self_iff.mp
  have hfree : Frees (sign .semicolon + bareAnnot) :=
    ((Heads.sign (by decide)).add heads_bareAnnot).frees
  rw [front_eq]
  refine ((finds_bareAnnot hB).mul (hpiece.kstar hfree) hfree.kstar).maybe.mono fun x y => ?_
  -- within the first annotation, or within a later one
  rintro (⟨_, k, hk, rfl, rfl, rfl⟩ | ⟨a, ha, _, rfl, p, _, _, q, rfl, rfl, hp, hq, rfl, rfl⟩)
  · exact ⟨nil_mem_maybe, hk⟩
  · rw [List.append_nil]
    exact ⟨mem_maybe (Language.append_mem_mul ha hp), hq⟩

/-- Another annotation among those in front of something. -/
theorem front_append {b k : List Token} (hw : w ∈ front) (hb : b ∈ bareAnnot) (hk : k ∈ between) :
    w ++ (b ++ k) ∈ front := by
  rw [front_eq] at hw ⊢
  refine mem_maybe ?_
  rcases hw with rfl | hw
  · rw [List.nil_append]
    exact Language.append_mem_mul hb hk
  · obtain ⟨a, ha, c, hc, rfl⟩ := Language.mem_mul.mp hw
    have hb : b ∈ between := (add_le_iff.mp (le_kstar : _ ≤ between)).2 hb
    -- what follows the first annotation may be repeated
    have hmore : c ++ (b ++ k) ∈ between := by
      have := Language.append_mem_mul hc (Language.append_mem_mul hb hk)
      rwa [between, kstar_mul_kstar, kstar_mul_kstar] at this
    rw [List.append_assoc]
    exact Language.append_mem_mul ha hmore

/-! ## §5 In bodies, statements and files -/

/-- Members with what stands in front of them, and semicolons. -/
def items (member : Language Token) : Language Token := (sign .semicolon + front * member)∗

/-- A place in front of a member. -/
inductive InItems (member : Language Token) : List Token → List Token → Prop where
  | mk {p f k m q : List Token} (hp : p ∈ items member) (hf : f ∈ front) (hk : k ∈ between)
      (hm : m ∈ member) (hq : q ∈ items member) : InItems member (p ++ f) (k ++ (m ++ q))

/-- A place in the body of a declaration. -/
inductive InNamed (text : Bytes) (member : Language Token) : List Token → List Token → Prop where
  | mk {a x y c : List Token} (ha : a ∈ word text * name * sign .openCurl)
      (hxy : InItems member x y) (hc : c ∈ sign .closeCurl) : InNamed text member (a ++ x) (y ++ c)

/-- A place in front of a declaration or in its body. -/
inductive InStatement : List Token → List Token → Prop where
  | front {f k m : List Token} (hf : f ∈ front) (hk : k ∈ between) (hm : m ∈ message + service) :
      InStatement f (k ++ m)
  | message {f x y : List Token} (hf : f ∈ front) (h : InNamed "message" field x y) :
      InStatement (f ++ x) y
  | service {f x y : List Token} (hf : f ∈ front) (h : InNamed "service" method x y) :
      InStatement (f ++ x) y

/-- A place in a file where an annotation can stand. -/
inductive InFile (requirePackage : Bool) : List Token → List Token → Prop where
  | mk {p x y q : List Token} (hp : p ∈ file false) (hxy : InStatement x y) (hq : q ∈ file false)
      (hfile : ∀ s ∈ statement, p ++ (s ++ q) ∈ file requirePackage) :
      InFile requirePackage (p ++ x) (y ++ q)

/-- Among members it is in front of one of them. -/
theorem finds_items {member : Language Token} (hB : HasArgs B) (hlacks : Lacks .atSign member)
    (hheads : Heads member) : Finds B (items member) (InItems member) := by
  -- a lone semicolon and the member itself have no annotation in them
  have hmember : Finds B (sign .semicolon + front * member)
      fun x y => x ∈ front ∧ ∃ k m, y = k ++ m ∧ k ∈ between ∧ m ∈ member := by
    refine ((Finds.of_lacks hB.mem (.sign (by decide))).add
      ((finds_front hB).mul (.of_lacks hB.mem hlacks) hheads.frees)).mono fun x y => ?_
    rintro (hfalse | ⟨k, m, hm, rfl, hx, hk⟩ | ⟨_, -, _, -, hfalse⟩)
    · exact hfalse.elim
    · exact ⟨hx, k, m, rfl, hk, hm⟩
    · exact hfalse.elim
  have hfree : Frees (sign .semicolon + front * member) :=
    (Heads.sign (by decide)).frees.add (frees_front.mul hheads.frees)
  refine (hmember.kstar hfree).mono fun x y => ?_
  rintro ⟨p, f, _, q, rfl, rfl, hp, hq, hf, k, m, rfl, hk, hm⟩
  rw [List.append_assoc]
  exact .mk hp hf hk hm hq

/-- In a declaration it is in front of a member. -/
theorem finds_named {text : Bytes} {member : Language Token} (hB : HasArgs B)
    (hlacks : Lacks .atSign member) (hheads : Heads member) :
    Finds B (word text * name * body member) (InNamed text member) := by
  have hclose : Finds B (sign .closeCurl) fun _ _ => False := .of_lacks hB.mem (.sign (by decide))
  -- neither the head of the declaration nor its last bracket has an annotation in it
  have hfront : Finds B (word text * name * sign .openCurl) fun _ _ => False :=
    .of_lacks hB.mem (.mul (.mul (.word text (by decide)) (.sign (by decide))) (.sign (by decide)))
  have hitems : Frees (items member) :=
    ((Heads.sign (by decide)).frees.add (frees_front.mul hheads.frees)).kstar
  have hsplit : word text * name * body member
      = word text * name * sign .openCurl * items member * sign .closeCurl := by
    simp only [body, items, mul_assoc]
  rw [hsplit]
  refine ((hfront.mul (finds_items hB hlacks hheads) hitems).mul hclose
    (Heads.sign (by decide)).frees).mono fun x y => ?_
  rintro (⟨z, c, hc, rfl, ⟨_, _, -, -, hfalse⟩ | ⟨a, ha, z', rfl, hz⟩⟩ | ⟨_, -, _, -, hfalse⟩)
  · exact hfalse.elim
  · exact .mk ha hz hc
  · exact hfalse.elim

/-- In a statement it is in front of it or of a member. -/
theorem finds_statement (hB : HasArgs B) : Finds B statement InStatement := by
  -- three of the four kinds hold no sign of an annotation
  have hnone {L : Language Token} (hL : Lacks .atSign L) : Finds B L InStatement :=
    (Finds.of_lacks hB.mem hL).mono fun _ _ => False.elim
  have hdecl : Finds B (message + service) fun x y =>
      InNamed "message" field x y ∨ InNamed "service" method x y :=
    (finds_named hB (.field (by decide)) heads_field).add (finds_named hB .method heads_method)
  have hdecls : Finds B (front * (message + service)) InStatement := by
    refine ((finds_front hB).mul hdecl (heads_message.add heads_service).frees).mono fun x y => ?_
    -- before the declaration, or inside of it
    rintro (⟨k, m, hm, rfl, hf, hk⟩ | ⟨f, hf, z, rfl, hz | hz⟩)
    · exact .front hf hk hm
    · exact .message hf hz
    · exact .service hf hz
  exact ((((hnone (.sign (by decide))).add (hnone .version)).add (hnone .setting)).add hdecls).mono
    fun _ _ => by simp only [or_self, imp_self]

/-- A statement continues nothing. -/
theorem frees_statement : Frees statement :=
  have hversion : Heads version := (((Heads.word _).mul _).mul _).mul _
  have hsetting : Heads setting := ((((Heads.word _).mul _).mul _).mul _).mul _
  ((((Heads.sign (by decide)).add hversion).add hsetting).frees).add
    (frees_front.mul (heads_message.add heads_service).frees)

/-- Statements before and after another one. -/
theorem kstar_append_append {p q s : List Token} (hp : p ∈ statement∗) (hs : s ∈ statement)
    (hq : q ∈ statement∗) : p ++ (s ++ q) ∈ statement∗ := by
  have := Language.append_mem_mul (kstar_append hp hs) hq
  rwa [kstar_mul_kstar, List.append_assoc] at this

/-- A file with a package is a file. -/
theorem file_le {requirePackage : Bool} : file requirePackage ≤ file false := by
  cases requirePackage with
  | true => exact mul_le_mul' (mul_le_mul' le_rfl fun _ => mem_maybe) le_rfl
  | false => exact le_rfl

/-- So are statements without one. -/
theorem mem_file_of_statements (h : w ∈ statement∗) : w ∈ file false :=
  mem_file.mpr ⟨false, nofun, h⟩

/-- Wherever an annotation with arguments occurs in a file, an annotation can stand. -/
theorem inFile_of_append {requirePackage : Bool} (hB : HasArgs B)
    (h : x ++ (B ++ y) ∈ file requirePackage) : InFile requirePackage x y := by
  have hpackage : Finds B (if requirePackage then package else maybe package) fun _ _ => False := by
    cases requirePackage with
    | true => exact .of_lacks hB.mem .package
    | false => exact (Finds.of_lacks hB.mem .package).maybe
  have hpackageFrees : Frees (if requirePackage then package else maybe package) := by
    cases requirePackage with
    | true => exact heads_package.frees
    | false => exact heads_package.frees.maybe
  have hstatements := (finds_statement hB).kstar frees_statement
  have hfinds := (hstatements.mul hpackage hpackageFrees).mul hstatements frees_statement.kstar
  -- the annotation stands among the statements in front of the package or behind it
  rcases hfinds _ h x y [] free_nil (List.append_nil _) with ⟨z, rfl, hplace⟩ | ⟨z, -, hz⟩
  · rw [List.append_nil]
    rcases hplace with ⟨_, t, ht, rfl, ⟨_, m, hm, rfl, p, u, v, q, rfl, rfl, hp, hq, huv⟩
      | ⟨_, -, _, -, hfalse⟩⟩ | ⟨l, hl, _, rfl, p, u, v, q, rfl, rfl, hp, hq, huv⟩
    · -- in front of the package statement
      have hrest : q ++ m ++ t ∈ file requirePackage :=
        Language.append_mem_mul (Language.append_mem_mul hq hm) ht
      rw [List.append_assoc, List.append_assoc, ← List.append_assoc q]
      refine .mk (mem_file_of_statements hp) huv (file_le hrest) fun s hs => ?_
      have : p ++ (s ++ q) ++ m ++ t ∈ file requirePackage := Language.append_mem_mul
        (Language.append_mem_mul (kstar_append_append hp hs hq) hm) ht
      rw [show p ++ (s ++ (q ++ m ++ t)) = p ++ (s ++ q) ++ m ++ t by simp]
      exact this
    · exact hfalse.elim
    · have hfront : l ++ p ∈ file requirePackage := Language.append_mem_mul hl hp
      rw [← List.append_assoc]
      refine .mk (file_le hfront) huv (mem_file_of_statements hq) fun s hs => ?_
      rw [List.append_assoc]
      exact Language.append_mem_mul hl (kstar_append_append hp hs hq)
  -- nothing of it is behind the end of the file
  · obtain ⟨s, r, rfl, -⟩ := exists_of_bareAnnot hB.mem
    simp at hz

/-! ## §6 Another annotation -/

variable {b : List Token}

/-- Another annotation may be put between members where one was. -/
theorem InItems.mem {member : Language Token} (h : InItems member x y) (hb : b ∈ bareAnnot) :
    x ++ (b ++ y) ∈ items member := by
  obtain ⟨hp, hf, hk, hm, hq⟩ := h
  rename_i p f k m q
  have hpiece : f ++ (b ++ k) ++ m ∈ sign .semicolon + front * member :=
    .inr (Language.append_mem_mul (front_append hf hb hk) hm)
  have := Language.append_mem_mul (kstar_append hp hpiece) hq
  rw [items, kstar_mul_kstar] at this
  simpa [items] using this

/-- And in a declaration. -/
theorem InNamed.mem {text : Bytes} {member : Language Token} (h : InNamed text member x y)
    (hb : b ∈ bareAnnot) : x ++ (b ++ y) ∈ word text * name * body member := by
  obtain ⟨ha, hxy, hc⟩ := h
  have := Language.append_mem_mul (Language.append_mem_mul ha (hxy.mem hb)) hc
  simpa [body, items, mul_assoc] using this

/-- And in a statement. -/
theorem InStatement.mem (h : InStatement x y) (hb : b ∈ bareAnnot) : x ++ (b ++ y) ∈ statement := by
  suffices hdecls : x ++ (b ++ y) ∈ Phrase.front * (Phrase.message + Phrase.service) from
    .inr hdecls
  cases h with
  | front hf hk hm => simpa using Language.append_mem_mul (front_append hf hb hk) hm
  | message hf h =>
    rw [List.append_assoc]
    exact Language.append_mem_mul hf (.inl (h.mem hb))
  | service hf h =>
    rw [List.append_assoc]
    exact Language.append_mem_mul hf (.inr (h.mem hb))

/-- Another annotation in the place of one. -/
theorem InFile.mem {requirePackage : Bool} (h : InFile requirePackage x y) (hb : b ∈ bareAnnot) :
    x ++ (b ++ y) ∈ file requirePackage := by
  obtain ⟨hp, hxy, hq, hfile⟩ := h
  simpa using hfile _ (hxy.mem hb)

end Finds

/-! ## §7 Texts -/

/-- A text literal has no bad escape. -/
def Readable (t : Token) : Prop := t.kind = .textLit → ∃ v, textLitValue t.text = .ok v

/-- Where there are no texts there is nothing to decode. -/
theorem Every.readable (h : Lacks .textLit L) : Every Readable L :=
  fun w hw t ht htext => absurd htext (h w hw t ht)

section

open Every

/-- A sign is no text. -/
theorem readable_sign {kind : TokenKind} (h : kind ≠ .textLit) :
    Every Readable (Phrase.sign kind) :=
  .readable (.sign h)

/-- Nor is a keyword. -/
theorem readable_word (text : Bytes) : Every Readable (Phrase.word text) :=
  .readable (.word text (by decide))

/-- Nor a dotted name. -/
theorem readable_pathBut (words : List Bytes) : Every Readable (Phrase.pathBut words) :=
  .readable (.pathBut rfl)

/-- A text of a given value has been decoded. -/
theorem readable_textLitOf (value : Bytes) : Every Readable (textLitOf value) :=
  .one fun _ ht _ => ⟨value, ht.2⟩

/-- A number is no text. -/
theorem readable_intLit : Every Readable intLit := by
  refine .one fun t ht htext => ?_
  rw [htext] at ht
  cases ht.1

/-- Every text of a constant can be read. -/
theorem readable_literal : Every Readable literal := by
  refine .add (.add (.add readable_intLit (.one ?_)) ?_) (.one ?_)
  · rintro t ⟨ht, -⟩ htext
    rw [htext] at ht
    cases ht
  · rintro w ⟨value, hw⟩
    exact readable_textLitOf value w hw
  · rintro t ⟨ht, -⟩ htext
    rw [htext] at ht
    cases ht

/-- The texts among the values are the literals, which have a value. -/
theorem readable_value : Every Readable value := .add readable_literal (readable_pathBut _)

/-- Every text of an annotation can be read. -/
theorem readable_bareAnnot : Every Readable bareAnnot := by
  -- a name is no literal, so nothing of it has to be read
  have hname : Every Readable (nameBut constantWords) := by
    refine .one ?_
    rintro t ⟨ht, -⟩ htext
    rw [htext] at ht
    cases ht
  have harg : Every Readable arg :=
    .add readable_literal
      (.mul hname (.maybe (.mul (readable_sign (by decide)) readable_value)))
  have hargs : Every Readable args :=
    .mul (.mul harg (.kstar (.mul (readable_sign (by decide)) harg)))
      (.maybe (readable_sign (by decide)))
  exact .mul (.mul (readable_sign (by decide)) (readable_pathBut _))
    (.maybe (.mul (.mul (readable_sign (by decide)) (.maybe hargs)) (readable_sign (by decide))))

/-- The texts in front of a declaration are those of its annotations. -/
theorem readable_front : Every Readable front := by
  have hannot : Every Readable annot :=
    .mul readable_bareAnnot (.maybe (readable_sign (by decide)))
  exact .maybe (.mul hannot (.kstar (.add (readable_sign (by decide)) hannot)))

/-- Every text of a body can be read if those of its members can. -/
theorem readable_body {member : Language Token} (h : Every Readable member) :
    Every Readable (body member) :=
  .mul (.mul (readable_sign (by decide))
    (.kstar (.add (readable_sign (by decide)) (.mul readable_front h)))) (readable_sign (by decide))

/-- A field has none of its own. -/
theorem readable_field : Every Readable field := by
  have hlabel : Every Readable label := .add (readable_word _) (readable_word _)
  exact .mul (.mul (.mul (.mul (.add (.mul hlabel (readable_pathBut _)) (readable_pathBut _))
    (readable_sign (by decide))) (.maybe (readable_sign (by decide))))
    (.maybe (.mul (readable_sign (by decide)) readable_intLit))) (readable_sign (by decide))

/-- Nor does a method. -/
theorem readable_method : Every Readable method := by
  -- each phrase holds signs, words and names only
  have hparens : Every Readable parens :=
    .mul (.mul (readable_sign (by decide)) (.maybe (readable_pathBut _)))
      (readable_sign (by decide))
  have hinput : Every Readable input := .add hparens (readable_pathBut _)
  have houtput : Every Readable output :=
    .mul (.add (readable_word _) (readable_sign (by decide))) (.add hparens (readable_pathBut _))
  have hend : Every Readable methodEnd :=
    .add (readable_sign (by decide))
      (.mul (.mul (readable_sign (by decide)) (.kstar (readable_sign (by decide))))
        (readable_sign (by decide)))
  exact .mul (.mul (.mul (.mul (readable_word _) (readable_sign (by decide))) (.maybe hinput))
    (.maybe houtput)) hend

/-- No text literal of a file has a bad escape. -/
theorem readable_file (requirePackage : Bool) : Every Readable (file requirePackage) := by
  have hdecl {text : Bytes} {member : Language Token} (h : Every Readable member) :
      Every Readable (word text * name * body member) :=
    .mul (.mul (readable_word _) (readable_sign (by decide))) (readable_body h)
  have hpackage : Every Readable package :=
    .mul (.mul (readable_word _) (readable_pathBut _)) (readable_sign (by decide))
  have hversion : Every Readable version :=
    .mul (.mul (.mul (readable_word _) (readable_sign (by decide))) (readable_textLitOf _))
      (readable_sign (by decide))
  have hsetting : Every Readable setting :=
    .mul (.mul (.mul (.mul (readable_word _) (readable_pathBut _)) (readable_sign (by decide)))
      readable_value) (readable_sign (by decide))
  have hstatement : Every Readable statement :=
    .add (.add (.add (readable_sign (by decide)) hversion) hsetting)
      (.mul readable_front (.add (hdecl readable_field) (hdecl readable_method)))
  -- the package is the one statement that is not repeated
  refine .mul (.mul (.kstar hstatement) ?_) (.kstar hstatement)
  cases requirePackage with
  | true => exact hpackage
  | false => exact .maybe hpackage

end

end Phrase

end Idl
