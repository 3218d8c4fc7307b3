import Idl.Proofs.Spelling.Rules

/-!
# Forms of names, annotations and fields are read as their trees

The grammar has one token of lookahead, so that what it does on a form depends on the lexeme behind
it as well.

* §1 names and constants, §2 annotations, §3 types, §4 fields.
-/

namespace Idl

namespace Grammar

open Spelling

variable {α β : Type} {i o : List Lexeme}

/-! ## §1 Names and constants -/

theorem yields_ident {w : Word} : Yields ident (name w.text :: o) o fun x =>
    x.mapLoc away = w.tree := by
  apply Yields.peek_bind_cons
  intro t hkind hlexeme
  rw [if_pos (by simpa [name] using hkind)]
  apply Yields.advance_bind
  apply Yields.pure
  rw [Word.tree, ← text_of_lexeme hlexeme rfl]
  rfl

/-- Where there is no name, none is read. -/
theorem ident_of_ne (hi : nextKind i ≠ .ident) : Yields ident i o fun _ => False := by
  apply Yields.peek_bind
  intro t hkind _
  rw [if_neg (by simpa [hkind] using hi)]
  exact Yields.failExpected

/-- A number. -/
theorem yields_intLit {n : Whole} : Yields intLit (n.lexeme :: o) o fun x =>
    x.mapLoc away = n.tree := by
  obtain ⟨base, text⟩ := n
  apply Yields.peek_bind_cons
  intro t hkind hlexeme
  -- the text of the token is that of the number, whatever the base
  have htext : t.text = text := text_of_lexeme hlexeme (by cases base <;> rfl)
  apply Yields.ite
  · intro _
    apply Yields.ite
    · intro _
      apply Yields.advance_bind
      apply Yields.pure
      rw [hkind, htext]
      rfl
    · intro _
      exact Yields.failHere
  · intro _
    exact Yields.failExpected

/-- A text literal is read as it is written. -/
theorem yields_textLit {text : Bytes} : Yields textLit ((.textLit, text) :: o) o fun x =>
    x.mapLoc away = textTree text := by
  apply Yields.peek_bind_cons
  intro t hkind hlexeme
  have htext : t.text = text := text_of_lexeme hlexeme rfl
  rw [if_pos (by simpa using hkind)]
  cases hvalue : textLitValue t.text with
  | ok v =>
    apply Yields.advance_bind
    apply Yields.pure
    rw [htext] at hvalue ⊢
    simp [Tree.TextLit.mapLoc, away, textTree, textValue, hvalue, Except.toOption]
  -- a bad escape is refused, so nothing is read
  | error e => exact Yields.fail

theorem Yields.separator_bind {k : Bool → Grammar α} {Q : α → Prop} {s : Separator}
    (hk : Yields (k true) i o Q) : Yields (separator >>= k) (sign s.kind :: i) o Q := by
  unfold separator
  rw [bind_assoc]
  cases s with
  | dot => exact Yields.accept_bind rfl hk
  | doubleColon =>
    apply Yields.accept_bind_of_ne (by simp [sign, Separator.kind])
    exact Yields.accept_bind rfl hk

theorem Yields.separator_bind_of_ne {k : Bool → Grammar α} {Q : α → Prop}
    (hdot : nextKind i ≠ .dot) (hcolons : nextKind i ≠ .doubleColon)
    (hk : Yields (k false) i o Q) : Yields (separator >>= k) i o Q := by
  unfold separator
  rw [bind_assoc]
  apply Yields.accept_bind_of_ne hdot
  exact Yields.accept_bind_of_ne hcolons hk

/-- The components of a name behind the first one. -/
theorem yields_components (hdot : nextKind o ≠ .dot) (hcolons : nextKind o ≠ .doubleColon)
    (l : List (Separator × Word)) (parts : List Tree.Ident) :
    Yields (loop (fun parts => do
      if ← separator then
        let part ← ident
        return (part :: parts, true)
      else return (parts, false)) parts) (Spelling.Path.moreLexemes l ++ o) o fun x =>
        x.reverse.map (·.mapLoc away)
          = parts.reverse.map (·.mapLoc away) ++ l.map (·.2.tree) := by
  induction l generalizing parts with
  | nil =>
    apply Yields.loop_done
    apply Yields.separator_bind_of_ne hdot hcolons
    apply Yields.pure
    simp
  | cons y l ih =>
    -- a separator and a name, and the others behind them
    apply Yields.loop_more (m := Spelling.Path.moreLexemes l ++ o)
    · apply Yields.separator_bind
      apply yields_ident.bind
      intro part hpart
      apply Yields.pure
      refine ⟨rfl, (ih (part :: parts)).conseq fun x hx => ?_⟩
      simpa [hpart] using hx
    · rw [Spelling.Path.moreLexemes, Spelling.Path.moreLexemes, List.flatMap_cons]
      simp only [List.length_append, List.length_cons]
      omega

/-- A dotted name is read part by part. -/
theorem yields_path {p : Spelling.Path} (hdot : nextKind o ≠ .dot)
    (hcolons : nextKind o ≠ .doubleColon) : Yields path (p.lexemes ++ o) o fun x =>
      x.mapLoc away = p.tree := by
  apply Yields.located (P := fun x => x.1.mapLoc away = p.first.tree
    ∧ x.2.map (·.mapLoc away) = p.more.map (·.2.tree))
  · apply yields_ident.bind
    intro first hfirst
    apply (yields_components hdot hcolons p.more []).bind
    intro more hmore
    exact Yields.pure ⟨hfirst, by simpa using hmore⟩
  · intro loc x hx
    simp only [Tree.Path.mapLoc, hx.1]
    simp [away, Spelling.Path.tree, ← hx.2]

/-- A word that is a literal is told by its text. -/
theorem literal_free {l : Literal} {text : Bytes} (h : l.lexeme = (.ident, text)) :
    text ∈ constantWords := by
  -- only four literals have the lexeme of a name
  cases l with
  | int n =>
    obtain ⟨base, raw⟩ := n
    cases base <;> simp [Literal.lexeme, Whole.lexeme, Base.kind] at h
  | float raw => simp [Literal.lexeme] at h
  | text raw => simp [Literal.lexeme] at h
  | bool b => cases b <;> simp [Literal.lexeme, name] at h <;> simp [← h, constantWords]
  | infinity =>
    simp only [Literal.lexeme, name, Prod.mk.injEq, true_and] at h
    simp [← h, constantWords]
  | nan =>
    simp only [Literal.lexeme, name, Prod.mk.injEq, true_and] at h
    simp [← h, constantWords]

/-- A literal. -/
theorem yields_literal {l : Literal} : Yields value? (l.lexeme :: o) o fun x =>
    x.map (·.mapLoc away) = some ⟨Tree.nowhere, l.constant⟩ := by
  apply Yields.located (P := fun c => c.map (·.mapLoc away) = some l.constant)
  · apply Yields.peek_bind_cons
    intro t hkind hlexeme
    rw [hkind]
    -- the kind of the token decides, and for words the text
    cases l with
    | int n =>
      have hint : Yields (do return some (.int (← intLit))) (n.lexeme :: o) o
          fun c : Option Tree.Constant => c.map (·.mapLoc away) = some (.int n.tree) :=
        yields_intLit.bind fun x hx => Yields.pure (by simp [Tree.Constant.mapLoc, hx])
      obtain ⟨base, text⟩ := n
      cases base <;> exact hint
    | float raw =>
      have htext : t.text = raw := text_of_lexeme hlexeme rfl
      simp only [Literal.lexeme]
      cases hvalue : Binary64.ofNumeral? t.text with
      | some x =>
        apply Yields.advance_bind
        apply Yields.pure
        rw [htext] at hvalue
        simp [Tree.Constant.mapLoc, Literal.constant, hvalue]
      | none => exact Yields.failHere
    | text raw =>
      exact yields_textLit.bind fun x hx =>
        Yields.pure (by simp [Tree.Constant.mapLoc, Literal.constant, hx])
    | bool b =>
      cases b with
      | true =>
        have htext : t.text = "true" := text_of_lexeme hlexeme rfl
        simp only [Literal.lexeme, name, htext]
        exact Yields.advance_bind (Yields.pure rfl)
      | false =>
        have htext : t.text = "false" := text_of_lexeme hlexeme rfl
        simp only [Literal.lexeme, name, htext]
        exact Yields.advance_bind (Yields.pure rfl)
    | infinity =>
      have htext : t.text = "inf" := text_of_lexeme hlexeme rfl
      simp only [Literal.lexeme, name, htext]
      exact Yields.advance_bind (Yields.pure rfl)
    | nan =>
      have htext : t.text = "nan" := text_of_lexeme hlexeme rfl
      simp only [Literal.lexeme, name, htext]
      exact Yields.advance_bind (Yields.pure rfl)
  · intro loc x hx
    obtain ⟨c, rfl, hc⟩ := Option.map_eq_some_iff.mp hx
    simp [Tree.Value.mapLoc, hc, away]

/-- A value. -/
theorem yields_value? {v : Spelling.Value} (hdot : nextKind o ≠ .dot)
    (hcolons : nextKind o ≠ .doubleColon) : Yields value? (v.lexemes ++ o) o fun x =>
      x.map (·.mapLoc away) = some v.tree := by
  cases v with
  | literal l => exact yields_literal
  | path p free =>
    apply Yields.located (P := fun c => c.map (·.mapLoc away) = some (.path p.tree))
    · apply Yields.peek_bind_cons
      intro t hkind hlexeme
      have htext : t.text = p.first.text := text_of_lexeme hlexeme rfl
      -- the first component is no constant word, so it begins a name
      simp only [constantWords, List.mem_cons, List.not_mem_nil, or_false, not_or] at free
      have hpath : Yields (do return some (.path (← path))) (p.lexemes ++ o) o
          fun c : Option Tree.Constant => c.map (·.mapLoc away) = some (.path p.tree) :=
        (yields_path hdot hcolons).bind fun x hx =>
          Yields.pure (by simp [Tree.Constant.mapLoc, hx])
      have hkind : t.kind = .ident := hkind
      rw [hkind, htext]
      simp only [free, beq_iff_eq, Bool.or_eq_true, or_self, if_false]
      exact hpath
    · intro loc x hx
      obtain ⟨c, rfl, hc⟩ := Option.map_eq_some_iff.mp hx
      simp [Tree.Value.mapLoc, hc, away, Spelling.Value.tree]

theorem yields_value {v : Spelling.Value} (hdot : nextKind o ≠ .dot)
    (hcolons : nextKind o ≠ .doubleColon) : Yields value (v.lexemes ++ o) o fun x =>
      x.mapLoc away = v.tree := by
  apply (yields_value? hdot hcolons).bind
  intro x hx
  obtain ⟨y, rfl, hy⟩ := Option.map_eq_some_iff.mp hx
  exact Yields.pure hy

/-! ## §2 Annotations -/

theorem yields_arg? {a : Spelling.Arg} (ho : nextKind o = .comma ∨ nextKind o = .closeParen) :
    Yields arg? (a.lexemes ++ o) o fun x => x.map (·.mapLoc away) = some a.tree := by
  -- what follows an argument goes on neither with its name nor with a value
  have hdot : nextKind o ≠ .dot := by rcases ho with h | h <;> simp [h]
  have hcolons : nextKind o ≠ .doubleColon := by rcases ho with h | h <;> simp [h]
  have heq : nextKind o ≠ .eq := by rcases ho with h | h <;> simp [h]
  apply Yields.located (P := fun f => f.map (·.mapLoc away) = some a.form)
  · cases a with
    | positional l =>
      apply Yields.peek_bind_cons
      intro t hkind hlexeme
      -- a literal is none of the names that could be a key
      have hword : t.kind = .ident → t.text ∈ constantWords := by
        intro h
        have hl : l.lexeme = (.ident, t.text) := by
          rw [← hlexeme, Token.lexeme, h]
          rfl
        exact literal_free hl
      rw [if_neg (by simpa using hword)]
      apply yields_literal.bind
      intro x hx
      obtain ⟨y, rfl, hy⟩ := Option.map_eq_some_iff.mp hx
      exact Yields.pure (by simp [Tree.ArgForm.mapLoc, hy, Spelling.Arg.form])
    | flag key =>
      apply Yields.peek_bind_cons
      intro t hkind hlexeme
      have htext : t.text = key.text := text_of_lexeme hlexeme rfl
      rw [if_pos (by simpa [hkind, htext, name] using key.free)]
      apply yields_ident.bind
      intro x hx
      apply Yields.accept_bind_of_ne heq
      exact Yields.pure (by simp [Tree.ArgForm.mapLoc, hx, Spelling.Arg.form])
    | pair key v =>
      apply Yields.peek_bind_cons
      intro t hkind hlexeme
      have htext : t.text = key.text := text_of_lexeme hlexeme rfl
      rw [if_pos (by simpa [hkind, htext, name] using key.free)]
      apply yields_ident.bind
      intro x hx
      apply Yields.accept_bind rfl
      apply (yields_value hdot hcolons).bind
      intro y hy
      exact Yields.pure (by simp [Tree.ArgForm.mapLoc, hx, hy, Spelling.Arg.form])
  · intro loc x hx
    obtain ⟨f, rfl, hf⟩ := Option.map_eq_some_iff.mp hx
    simp [Tree.Arg.mapLoc, hf, away, Spelling.Arg.tree]

/-- No argument begins with a parenthesis that closes. -/
theorem nextKind_arg {a : Spelling.Arg} : nextKind (a.lexemes ++ o) ≠ .closeParen := by
  cases a with
  | positional l =>
    cases l with
    | int n =>
      obtain ⟨base, text⟩ := n
      cases base <;> simp [Spelling.Arg.lexemes, Literal.lexeme, Whole.lexeme, Base.kind]
    | bool b => cases b <;> simp [Spelling.Arg.lexemes, Literal.lexeme, name]
    | _ => simp [Spelling.Arg.lexemes, Literal.lexeme, name]
  | _ => simp [Spelling.Arg.lexemes, name]

/-- The arguments up to the parenthesis that closes. -/
theorem yields_argsLoop (comma : Bool) (l : List Spelling.Arg) (acc : List Tree.Arg) :
    Yields (loop argsStep acc) (Args.lexemesOf comma l ++ sign .closeParen :: o) o fun x =>
      x.reverse.map (·.mapLoc away)
        = acc.reverse.map (·.mapLoc away) ++ l.map Spelling.Arg.tree := by
  -- an argument is put in front of those read before
  have hone {acc : List Tree.Arg} {a : Spelling.Arg} {x : Option Tree.Arg}
      (hx : x.map (·.mapLoc away) = some a.tree) :
      ∃ y, x = some y ∧ (y :: acc).reverse.map (·.mapLoc away)
        = acc.reverse.map (·.mapLoc away) ++ [a.tree] := by
    obtain ⟨y, rfl, hy⟩ := Option.map_eq_some_iff.mp hx
    exact ⟨y, rfl, by simp [hy]⟩
  -- on the arguments: only behind the last one the comma may be missing
  induction l generalizing acc with
  | nil =>
    apply Yields.loop_done
    apply Yields.accept_bind rfl
    exact Yields.pure ⟨rfl, by simp⟩
  | cons a r ih =>
    cases r with
    | nil =>
      cases comma with
      | false =>
        apply Yields.loop_done
        simp only [Args.lexemesOf, Bool.false_eq_true, if_false, List.append_nil]
        apply Yields.accept_bind_of_ne nextKind_arg
        apply (yields_arg? (Or.inr rfl)).bind
        intro x hx
        obtain ⟨y, rfl, hy⟩ := hone hx
        apply Yields.accept_bind_of_ne (by simp [sign])
        apply Yields.sigil_bind rfl
        exact Yields.pure ⟨rfl, hy⟩
      | true =>
        simp only [Args.lexemesOf, if_true, List.append_assoc, List.singleton_append]
        apply Yields.loop_more (m := sign .closeParen :: o)
        · apply Yields.accept_bind_of_ne nextKind_arg
          apply (yields_arg? (Or.inl rfl)).bind
          intro x hx
          obtain ⟨y, rfl, hy⟩ := hone hx
          apply Yields.accept_bind rfl
          refine Yields.pure ⟨rfl, Yields.loop_done ?_⟩
          apply Yields.accept_bind rfl
          exact Yields.pure ⟨rfl, hy⟩
        · simp only [List.length_append, List.length_cons]
          omega
    | cons b r =>
      rw [Args.lexemesOf, List.append_assoc, List.cons_append]
      apply Yields.loop_more (m := Args.lexemesOf comma (b :: r) ++ sign .closeParen :: o)
      · apply Yields.accept_bind_of_ne nextKind_arg
        apply (yields_arg? (Or.inl rfl)).bind
        intro x hx
        obtain ⟨y, rfl, hy⟩ := hone hx
        apply Yields.accept_bind rfl
        refine Yields.pure ⟨rfl, (ih (y :: acc)).conseq fun z hz => ?_⟩
        rw [hz, hy]
        simp
      · simp only [List.length_append, List.length_cons]
        omega

theorem yields_args {as : Args} : Yields args
    (Args.lexemesOf as.comma as.items ++ sign .closeParen :: o) o fun x =>
      x.map (·.mapLoc away) = as.items.map Spelling.Arg.tree := by
  rw [args_eq]
  apply (yields_argsLoop as.comma as.items []).bind
  intro acc hacc
  exact Yields.pure (by simpa using hacc)

/-- What is left behind a semicolon, if there is one. -/
def pastSemicolon (i : List Lexeme) : List Lexeme :=
  if nextKind i = .semicolon then i.tail else i

/-- The semicolon behind an annotation, if there is one. -/
theorem yields_acceptSemicolon {a : α} : Yields (do
    let _ ← accept .semicolon
    return a) o (pastSemicolon o) fun x => x = a := by
  cases o with
  | nil =>
    apply Yields.accept_bind_of_ne (by simp)
    exact Yields.pure rfl
  | cons x o =>
    -- the semicolon is there, or the next lexeme stays
    by_cases hx : x.1 = .semicolon
    · rw [pastSemicolon, nextKind_cons, if_pos hx]
      apply Yields.accept_bind hx
      exact Yields.pure rfl
    · rw [pastSemicolon, nextKind_cons, if_neg hx]
      apply Yields.accept_bind_of_ne (by simpa using hx)
      exact Yields.pure rfl

/-- An annotation is read together with the semicolon behind it. -/
theorem yields_annot {a : Spelling.Annot} (hdot : nextKind o ≠ .dot)
    (hcolons : nextKind o ≠ .doubleColon) (hparen : nextKind o ≠ .openParen) :
    Yields annot (a.lexemes ++ o) (pastSemicolon o) fun x => x.mapLoc away = a.tree := by
  obtain ⟨name, args?⟩ := a
  apply Yields.located (P := fun x => x.1.mapLoc away = name.tree
    ∧ x.2.map (·.map (·.mapLoc away)) = args?.map fun as => as.items.map Spelling.Arg.tree)
  · rw [Spelling.Annot.lexemes, List.cons_append, List.append_assoc]
    apply Yields.sigil_bind rfl
    cases args? with
    -- no parenthesis follows the name
    | none =>
      apply (yields_path hdot hcolons).bind
      intro p hp
      apply Yields.accept_bind_of_ne hparen
      exact yields_acceptSemicolon.conseq fun x hx => ⟨by rw [hx, hp], by rw [hx]; rfl⟩
    | some as =>
      simp only [Option.map_some, Option.getD_some, Args.lexemes, List.cons_append,
        List.append_assoc, List.nil_append]
      apply (yields_path (by simp [sign]) (by simp [sign])).bind
      intro p hp
      apply Yields.accept_bind rfl
      apply Yields.bind (P := fun x => x.map (·.map (·.mapLoc away))
        = some (as.items.map Spelling.Arg.tree)) (yields_args.map fun x hx => by simp [hx])
      intro x hx
      exact yields_acceptSemicolon.conseq fun y hy => ⟨by rw [hy, hp], by rw [hy]; exact hx⟩
  · intro loc x hx
    simp only [Tree.Annot.mapLoc, hx.1, hx.2]
    rfl

/-! ## §3 Types -/

/-- A type. -/
theorem yields_typeRef {p : Spelling.Path} (hdot : nextKind o ≠ .dot)
    (hcolons : nextKind o ≠ .doubleColon) : Yields typeRef (p.lexemes ++ o) o fun x =>
      x.mapLoc away = ⟨Tree.nowhere, p.tree⟩ := by
  apply Yields.located (P := fun x => x.mapLoc away = p.tree)
  · apply Yields.peek_bind_cons
    intro t hkind hlexeme
    have hkind : t.kind = .ident := hkind
    rw [hkind]
    dsimp only
    -- the name of a type that is not supported is refused
    cases unsupportedType? t.text with
    | some feature => exact Yields.failUnsupported
    | none =>
      apply (yields_path hdot hcolons).bind
      intro name hname
      apply Yields.peek_bind
      intro next _ _
      apply Yields.ite
      · intro _
        exact Yields.fail
      · intro _
        apply Yields.ite
        · intro _
          exact Yields.failUnsupported
        · intro _
          exact Yields.pure hname
  · intro loc x hx
    simp [Tree.TypeRef.mapLoc, hx, away]

/-- Where no name begins, no type is read. -/
theorem typeRef_of_ne (hi : nextKind i ≠ .ident) : Yields typeRef i o fun _ => False := by
  apply Yields.located (P := fun _ => False)
  · apply Yields.peek_bind
    intro t hkind _
    rw [← hkind] at hi
    split
    · contradiction
    · exact Yields.failUnsupported
    · exact Yields.failExpected
  · intro _ _ h
    exact h

/-! ## §4 Fields -/

/-- A label. -/
theorem yields_label {p : Tree.Presence} : Yields label? (Spelling.Field.labelLexeme p :: i) i
    fun x => x.map (·.mapLoc away) = some ⟨Tree.nowhere, p⟩ := by
  apply Yields.peek_bind
  intro t _ _
  cases p with
  | optional =>
    apply Yields.acceptWord_bind
    exact Yields.pure rfl
  | required =>
    -- the first word asked for is the other one
    have hne : ("required" : Bytes) ≠ "optional" := by decide
    apply Yields.acceptWord_bind_of_ne
      (by simpa [NextWord, Spelling.Field.labelLexeme, name] using hne)
    apply Yields.acceptWord_bind
    exact Yields.pure rfl

theorem yields_noLabel (hi : ∀ p, i.head? ≠ some (Spelling.Field.labelLexeme p)) :
    Yields label? i i fun x => x = none := by
  apply Yields.peek_bind
  intro t _ _
  apply Yields.acceptWord_bind_of_ne (hi .optional)
  apply Yields.acceptWord_bind_of_ne (hi .required)
  exact Yields.pure rfl

/-- A field behind its type and name. -/
theorem yields_fieldEnd {question : Bool} {number : Option Whole} {build : Bool →
    Option Tree.IntLit → β} : Yields (do
      let question ← accept .question
      let number ← if ← accept .eq then some <$> intLit else Pure.pure none
      if (← peek).kind == .openSquare then failUnsupported .fieldOptions
      else
        sigil .semicolon
        return build question number)
      (signIf question .question
        ++ ((number.map fun n => [sign .eq, n.lexeme]).getD [] ++ sign .semicolon :: o)) o
      fun x => ∃ n, x = build question n
        ∧ n.map (·.mapLoc away) = number.map Whole.tree := by
  -- from the number on, whether or not a question mark was there
  have hnumber (q : Bool) : Yields (do
      let number ← if ← accept .eq then some <$> intLit else Pure.pure none
      if (← peek).kind == .openSquare then failUnsupported .fieldOptions
      else
        sigil .semicolon
        return build q number)
      ((number.map fun n => [sign .eq, n.lexeme]).getD [] ++ sign .semicolon :: o) o
      fun x => ∃ n, x = build q n ∧ n.map (·.mapLoc away) = number.map Whole.tree := by
    -- from the end of the field on
    have hend (n : Option Tree.IntLit) (hn : n.map (·.mapLoc away) = number.map Whole.tree) :
        Yields (do
          if (← peek).kind == .openSquare then failUnsupported .fieldOptions
          else
            sigil .semicolon
            return build q n) (sign .semicolon :: o) o
          fun x => ∃ n, x = build q n ∧ n.map (·.mapLoc away) = number.map Whole.tree := by
      apply Yields.peek_bind
      intro t _ _
      apply Yields.ite
      · intro _
        exact Yields.failUnsupported
      · intro _
        apply Yields.sigil_bind rfl
        exact Yields.pure ⟨n, rfl, hn⟩
    cases number with
    | none =>
      apply Yields.accept_bind_of_ne (by simp [sign])
      exact hend none rfl
    | some n =>
      apply Yields.accept_bind rfl
      apply Yields.bind (yields_intLit.map
        (R := fun x => x.map (·.mapLoc away) = some n.tree) fun x hx => by simp [hx])
      intro x hx
      exact hend x hx
  cases question with
  | false =>
    apply Yields.accept_bind_of_ne
    · cases number <;> simp [signIf, sign]
    · exact hnumber false
  | true =>
    apply Yields.accept_bind rfl
    exact hnumber true

/-- A field behind the word that may stand in front of it. -/
def fieldRest (label : Option Tree.Label) : Grammar (Option Tree.Label × Tree.TypeRef × Tree.Ident
    × Bool × Option Tree.IntLit) := do
  if ← atWord "repeated" then failUnsupported .repeated
  else
    let type ← typeRef
    let name ← ident
    let question ← accept .question
    let number ← if ← accept .eq then some <$> intLit else Pure.pure none
    if (← peek).kind == .openSquare then failUnsupported .fieldOptions
    else
      sigil .semicolon
      return (label, type, name, question, number)

theorem field_eq (annots : List Tree.Annot) : field annots =
    located (fun loc x => ⟨loc, annots, x.1, x.2.1, x.2.2.1, x.2.2.2.1, x.2.2.2.2⟩)
      (label? >>= fieldRest) := rfl

theorem nextKind_fieldEnd (d : Spelling.Field) :
    nextKind (d.endLexemes ++ o) ∈ [.question, .eq, .semicolon] := by
  obtain ⟨_, _, _, question, number⟩ := d
  cases question <;> cases number <;>
    simp [Spelling.Field.endLexemes, signIf, sign]

/-- A field behind its label. -/
theorem yields_fieldRest {d : Spelling.Field} {label : Option Tree.Label} :
    Yields (fieldRest label) (d.type.lexemes ++ name d.name.text :: (d.endLexemes ++ o)) o fun x =>
      x.1 = label
        ∧ x.2.1.mapLoc away = ⟨Tree.nowhere, d.type.tree⟩
        ∧ x.2.2.1.mapLoc away = d.name.tree
        ∧ x.2.2.2.1 = d.question
        ∧ x.2.2.2.2.map (·.mapLoc away) = d.number.map Whole.tree := by
  apply Yields.atWord_bind
  intro b _
  apply Yields.ite
  · intro _
    exact Yields.failUnsupported
  · intro _
    apply (yields_typeRef (by simp [name]) (by simp [name])).bind
    intro type htype
    apply yields_ident.bind
    intro fieldName hname
    simp only [Spelling.Field.endLexemes, List.append_assoc, List.cons_append, List.nil_append]
    apply yields_fieldEnd.conseq
    -- the end tells the mark of an optional field, and the number
    intro x ⟨n, hx, hn⟩
    rw [hx]
    exact ⟨rfl, htype, hname, rfl, hn⟩

/-- A type that begins with a word that may stand in front of a field is not read as the type of a
field without such a word: the word is taken for itself, and then there is a name too few. -/
theorem fieldRest_of_label {d : Spelling.Field} {label : Option Tree.Label} :
    Yields (fieldRest label) (Spelling.Path.moreLexemes d.type.more
      ++ name d.name.text :: (d.endLexemes ++ o)) o fun _ => False := by
  have hends {kind : TokenKind} (h : kind ∉ [.question, .eq, .semicolon]) :
      nextKind (d.endLexemes ++ o) ≠ kind := ne_of_mem_of_not_mem (nextKind_fieldEnd d) h
  apply Yields.atWord_bind
  intro b _
  apply Yields.ite
  · intro _
    exact Yields.failUnsupported
  · intro _
    cases d.type.more with
    | nil =>
      -- the name of the field is taken for its type
      have htype : Yields typeRef (name d.name.text :: (d.endLexemes ++ o)) (d.endLexemes ++ o)
          fun x => x.mapLoc away = ⟨Tree.nowhere, (⟨d.name, []⟩ : Spelling.Path).tree⟩ :=
        yields_typeRef (p := ⟨d.name, []⟩) (hends (by decide)) (hends (by decide))
      apply htype.bind
      intro type _
      apply (ident_of_ne (hends (by decide))).bind (m := o)
      intro _ h
      exact h.elim
    | cons x r =>
      obtain ⟨separator, word⟩ := x
      apply (typeRef_of_ne (o := o) (by cases separator <;> simp [Spelling.Path.moreLexemes,
        sign, Separator.kind])).bind
      intro _ h
      exact h.elim

theorem yields_field {d : Spelling.Field} {annots : List Tree.Annot} :
    Yields (field annots) (d.lexemes ++ o) o fun x =>
      x.mapLoc away = d.tree (annots.map (·.mapLoc away)) := by
  have hlexemes : d.lexemes ++ o = d.label.toList.map Spelling.Field.labelLexeme
      ++ (d.type.lexemes ++ name d.name.text :: (d.endLexemes ++ o)) := by
    simp [Spelling.Field.lexemes]
  rw [field_eq, hlexemes]
  apply Yields.located (P := fun x =>
    x.1.map (·.mapLoc away) = (d.label.map fun p => ⟨Tree.nowhere, p⟩)
      ∧ x.2.1.mapLoc away = ⟨Tree.nowhere, d.type.tree⟩
      ∧ x.2.2.1.mapLoc away = d.name.tree
      ∧ x.2.2.2.1 = d.question
      ∧ x.2.2.2.2.map (·.mapLoc away) = d.number.map Whole.tree)
  · cases hlabel : d.label with
    | some p =>
      apply yields_label.bind
      intro label hp
      exact yields_fieldRest.conseq fun x hx => ⟨by rw [hx.1, hp]; rfl, hx.2⟩
    | none =>
      -- the first word of a type is taken for a label if it is spelled like one
      by_cases hword : ∃ p, name d.type.first.text = Spelling.Field.labelLexeme p
      · obtain ⟨p, hp⟩ := hword
        simp only [Option.toList_none, List.map_nil, List.nil_append, Spelling.Path.lexemes, hp]
        apply yields_label.bind
        intro label _
        exact fieldRest_of_label.conseq fun _ h => h.elim
      · apply (yields_noLabel ?_).bind
        · rintro label rfl
          exact yields_fieldRest.conseq fun x hx => ⟨by rw [hx.1]; rfl, hx.2⟩
        · intro p hp
          exact hword ⟨p, Option.some.inj hp⟩
  · intro loc x hx
    obtain ⟨hlabel, htype, hname, hquestion, hnumber⟩ := hx
    simp only [Tree.Field.mapLoc, hlabel, htype, hname, hquestion, hnumber]
    rfl

/-- A field begins with a name. -/
theorem nextKind_field (d : Spelling.Field) (o : List Lexeme) :
    nextKind (d.lexemes ++ o) = .ident := by
  obtain ⟨label, type, _⟩ := d
  cases label with
  | none => rfl
  | some p => cases p <;> rfl

theorem yields_messageMember (d : Spelling.Field) (annots : List Tree.Annot) (o : List Lexeme) :
    Yields (messageMember annots) (d.lexemes ++ o) o fun x =>
      x.mapLoc away = d.tree (annots.map (·.mapLoc away)) := by
  apply Yields.peek_bind
  intro t hkind _
  rw [hkind, nextKind_field]
  dsimp only
  cases unsupportedMember? t.text with
  | some feature => exact Yields.failUnsupported
  | none => exact yields_field

end Grammar

end Idl
