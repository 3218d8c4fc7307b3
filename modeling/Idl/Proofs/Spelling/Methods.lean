import Idl.Proofs.Spelling.Fields

/-!
# Forms of methods are read as their trees

The word that announces the output of a method is a name like any other, so that it has to be told
where it may stand for a type.

* §1 inputs and outputs, §2 methods.
-/

namespace Idl

namespace Grammar

open Spelling

variable {i o : List Lexeme}

/-! ## §1 Inputs and outputs -/

theorem yields_parameter {type : Option Spelling.Path} : Yields parameter
    ((type.map Spelling.Path.lexemes).getD [] ++ sign .closeParen :: o) o fun x =>
      x.map (·.mapLoc away) = type.map fun p => ⟨Tree.nowhere, p.tree⟩ := by
  cases type with
  | none =>
    apply Yields.accept_bind rfl
    exact Yields.pure rfl
  | some p =>
    apply Yields.accept_bind_of_ne (by simp [Spelling.Path.lexemes, name])
    apply (yields_typeRef (by simp [sign]) (by simp [sign])).bind
    intro x hx
    apply Yields.sigil_bind rfl
    exact Yields.pure (by simp [hx])

/-- A type or parentheses, with what tells them apart. -/
theorem yields_parens {p : Spelling.Parameter} (hdot : nextKind o ≠ .dot)
    (hcolons : nextKind o ≠ .doubleColon) : Yields (do
      if ← accept .openParen then parameter else some <$> typeRef) (p.lexemes ++ o) o fun x =>
        x.map (·.mapLoc away) = p.tree := by
  cases p with
  -- no bracket is next, so the type itself is
  | bare type =>
    apply Yields.accept_bind_of_ne (by simp [Parameter.lexemes, Spelling.Path.lexemes, name])
    apply (yields_typeRef hdot hcolons).map
    intro x hx
    simp [hx, Parameter.tree, Parameter.type?]
  | parens type =>
    simp only [Parameter.lexemes, List.cons_append, List.append_assoc, List.nil_append]
    apply Yields.accept_bind rfl
    exact yields_parameter

/-- The lexemes that can follow the output of a method. -/
def FollowsOutput (i : List Lexeme) : Prop := nextKind i = .semicolon ∨ nextKind i = .openCurl

/-- The lexemes that can follow the input of a method. -/
def FollowsInput (i : List Lexeme) : Prop :=
  NextWord i "returns" ∨ nextKind i = .arrow ∨ FollowsOutput i

theorem NextWord.nextKind {word : Bytes} (h : NextWord i word) : nextKind i = .ident := by
  rw [NextWord] at h
  simp [Grammar.nextKind, h]

theorem FollowsInput.nextKind (h : FollowsInput i) :
    nextKind i ∉ [.dot, .doubleColon, .openParen] := by
  rcases h with h | h | h | h
  · simp [h.nextKind]
  · simp [h]
  · simp [h]
  · simp [h]

theorem followsOutput_ending (e : Ending) : FollowsOutput (e.lexemes ++ o) := by
  cases e with
  | semicolon => exact Or.inl rfl
  | braces n => exact Or.inr rfl

theorem followsInput_output {output : Option (Mark × Parameter)} (ho : FollowsOutput o) :
    FollowsInput (Spelling.Method.outputLexemes output ++ o) := by
  cases output with
  | none => exact Or.inr (Or.inr ho)
  | some x =>
    obtain ⟨mark, p⟩ := x
    cases mark with
    | returns => exact Or.inl rfl
    | arrow => exact Or.inr (Or.inl rfl)

/-- An input is not read where the word that announces the output stands, nor where no name
stands. -/
theorem methodInput_of_returns (hparen : nextKind i ≠ .openParen)
    (hi : nextKind i = .ident → NextWord i "returns") :
    Yields methodInput i i fun x => x = none := by
  apply Yields.accept_bind_of_ne hparen
  apply Yields.peek_bind
  intro t hkind hlexeme
  have hnone : ¬(t.kind == .ident && t.text != "returns") = true := by
    intro h
    simp only [Bool.and_eq_true, beq_iff_eq, bne_iff_ne] at h
    obtain ⟨r, rfl⟩ := List.head?_eq_some_iff.mp (hi (hkind.symm.trans h.1))
    exact h.2 (text_of_lexeme (hlexeme _ r rfl) rfl)
  rw [if_neg hnone]
  exact Yields.pure rfl

theorem yields_methodInput {input : Option Parameter}
    (hfree : ∀ p, input = some (.bare p) → p.first.text ≠ "returns") (ho : FollowsInput o) :
    Yields methodInput ((input.map Parameter.lexemes).getD [] ++ o) o fun x =>
      x.map (·.mapLoc away) = input.bind Parameter.tree := by
  have hnext := ho.nextKind
  simp only [List.mem_cons, List.not_mem_nil, or_false, not_or] at hnext
  rcases input with _ | type | type
  -- no input: what follows must not be read as one
  · apply (methodInput_of_returns hnext.2.2 ?_).conseq
    · rintro x rfl
      rfl
    · intro hident
      rcases ho with hword | harrow | hends | hends
      · exact hword
      · exact absurd (hident.symm.trans harrow) (by decide)
      · exact absurd (hident.symm.trans hends) (by decide)
      · exact absurd (hident.symm.trans hends) (by decide)
  · apply Yields.accept_bind_of_ne (by simp [Parameter.lexemes, Spelling.Path.lexemes, name])
    apply Yields.peek_bind
    intro t hkind hlexeme
    have htext : t.text = type.first.text := text_of_lexeme (hlexeme _ _ rfl) rfl
    have hkind : t.kind = .ident := hkind
    -- a bare type is read unless it is the word before the output
    rw [if_pos (by simpa [hkind, htext] using hfree type rfl)]
    apply (yields_typeRef hnext.1 hnext.2.1).map
    intro x hx
    simp [hx, Parameter.tree, Parameter.type?]
  · simp only [Option.map_some, Option.getD_some, Parameter.lexemes, List.cons_append,
      List.append_assoc, List.nil_append]
    apply Yields.accept_bind rfl
    exact yields_parameter

/-- What is written behind the input is read as the output. -/
theorem yields_methodOutput {output : Option (Mark × Parameter)} (ho : FollowsOutput o) :
    Yields methodOutput (Spelling.Method.outputLexemes output ++ o) o fun x =>
      x.map (·.mapLoc away) = output.bind (·.2.tree) := by
  -- behind the output stands a semicolon or a bracket
  have hnext {kind : TokenKind} (h : kind ≠ .semicolon) (h' : kind ≠ .openCurl) :
      nextKind o ≠ kind := by
    rcases ho with ho | ho
    · exact fun hk => h (hk.symm.trans ho)
    · exact fun hk => h' (hk.symm.trans ho)
  unfold methodOutput outputMark
  cases output with
  | none =>
    rw [bind_assoc]
    apply Yields.acceptWord_bind_of_ne
    · exact fun h => hnext (by decide) (by decide) h.nextKind
    · apply Yields.accept_bind_of_ne (hnext (by decide) (by decide))
      exact Yields.pure rfl
  | some x =>
    obtain ⟨mark, p⟩ := x
    have hdot : nextKind o ≠ .dot := hnext (by decide) (by decide)
    have hcolons : nextKind o ≠ .doubleColon := hnext (by decide) (by decide)
    have hparens := yields_parens (p := p) hdot hcolons
    rw [bind_assoc]
    cases mark with
    | returns =>
      apply Yields.acceptWord_bind
      exact hparens
    | arrow =>
      apply Yields.acceptWord_bind_of_ne
      · intro h
        cases h
      · apply Yields.accept_bind rfl
        exact hparens

/-- Both ways to end a method are read. -/
theorem yields_methodEnd (e : Ending) :
    Yields methodEnd (e.lexemes ++ o) o fun _ => True := by
  cases e with
  | semicolon =>
    apply Yields.accept_bind_of_ne (by simp [Ending.lexemes, sign])
    rw [← bind_pure (sigil .semicolon)]
    apply Yields.sigil_bind rfl
    exact Yields.pure trivial
  | braces n =>
    simp only [Ending.lexemes, List.cons_append, List.append_assoc, List.nil_append]
    apply Yields.accept_bind rfl
    -- between the brackets semicolons are skipped, one at a time
    induction n with
    | zero =>
      apply Yields.loop_done
      apply Yields.accept_bind_of_ne (by simp [sign])
      apply Yields.atWord_bind
      intro b _
      apply Yields.ite
      · intro _
        exact Yields.failUnsupported
      · intro _
        apply Yields.sigil_bind rfl
        exact Yields.pure ⟨rfl, trivial⟩
    | succ n ih =>
      apply Yields.loop_more (m := List.replicate n (sign .semicolon) ++ sign .closeCurl :: o)
      · apply Yields.accept_bind rfl
        exact Yields.pure ⟨rfl, ih⟩
      · simp

/-! ## §2 Methods -/

/-- A method behind its name. -/
def methodRest : Grammar (Option Tree.TypeRef × Option Tree.TypeRef) := do
  let input ← methodInput
  let output ← methodOutput
  methodEnd
  return (input, output)

theorem method_eq (annots : List Tree.Annot) : method annots =
    located (fun loc x => ⟨loc, annots, x.1, x.2.1, x.2.2⟩) (do
      advance
      let name ← ident
      let x ← methodRest
      return (name, x)) := by
  simp only [method, methodRest, bind_assoc, pure_bind]

/-- Input, output and ending of a method, where the input is not taken for the word of an output. -/
theorem yields_methodRest {m : Spelling.Method}
    (hfree : ∀ p, m.input = some (.bare p) → p.first.text ≠ "returns") :
    Yields methodRest (m.restLexemes ++ o) o fun x =>
      x.1.map (·.mapLoc away) = m.input.bind Parameter.tree
        ∧ x.2.map (·.mapLoc away) = m.output.bind (·.2.tree) := by
  simp only [Spelling.Method.restLexemes, List.append_assoc]
  have hends := followsOutput_ending (o := o) m.ending
  apply (yields_methodInput hfree (followsInput_output hends)).bind
  intro input hinput
  apply (yields_methodOutput hends).bind
  intro output houtput
  apply (yields_methodEnd m.ending).bind
  intro _ _
  exact Yields.pure ⟨hinput, houtput⟩

/-- Where a method does not end, no end is read. -/
theorem methodEnd_of_ne (hsemicolon : nextKind i ≠ .semicolon) (hcurl : nextKind i ≠ .openCurl) :
    Yields methodEnd i o fun _ => False := by
  apply Yields.accept_bind_of_ne hcurl
  rw [← bind_pure (sigil .semicolon)]
  exact Yields.sigil_of_ne hsemicolon

/-- The type of an output, or parentheses. -/
def outputType : Grammar (Option Tree.TypeRef) := do
  if ← accept .openParen then parameter else some <$> typeRef

theorem methodOutput_eq :
    methodOutput = outputMark >>= fun marked => if marked then outputType else Pure.pure none := rfl

/-- Where neither a name nor a parenthesis stands, there is no type of an output. -/
theorem outputType_of_ne (hparen : nextKind i ≠ .openParen) (hident : nextKind i ≠ .ident) :
    Yields outputType i o fun _ => False := by
  apply Yields.accept_bind_of_ne hparen
  exact (typeRef_of_ne hident).map fun _ h => h

/-- The word that announces the output, with the rest of a name or with an output behind it. Where
a type is read behind the word, there is more to come than the end of a method. -/
theorem exists_outputType (more : List (Separator × Word)) (output : Option (Mark × Parameter))
    (ho : FollowsOutput o) : ∃ m, nextKind m ≠ .semicolon ∧ nextKind m ≠ .openCurl
      ∧ Yields outputType
        (Spelling.Path.moreLexemes more ++ (Spelling.Method.outputLexemes output ++ o)) m
        fun _ => True := by
  have hnone {i : List Lexeme} (hparen : nextKind i ≠ .openParen) (hident : nextKind i ≠ .ident) :
      ∃ m, nextKind m ≠ .semicolon ∧ nextKind m ≠ .openCurl ∧ Yields outputType i m fun _ => True :=
    ⟨[], by simp, by simp, (outputType_of_ne hparen hident).conseq fun _ _ => trivial⟩
  rcases more with _ | ⟨⟨separator, word⟩, more⟩
  · rcases output with _ | ⟨mark, p⟩
    · rcases ho with ho | ho
      · exact hnone (i := o) (by simp [ho]) (by simp [ho])
      · exact hnone (i := o) (by simp [ho]) (by simp [ho])
    · cases mark with
      | arrow =>
        exact hnone (i := sign .arrow :: (p.lexemes ++ o)) (by simp [sign]) (by simp [sign])
      | returns =>
        -- the second word is taken for the name of a type
        have hnext : nextKind (p.lexemes ++ o) ∈ [.ident, .openParen] := by
          cases p <;> simp [Parameter.lexemes, Spelling.Path.lexemes, name, sign]
        have hne {kind : TokenKind} (h : kind ∉ [.ident, .openParen]) :
            nextKind (p.lexemes ++ o) ≠ kind := ne_of_mem_of_not_mem hnext h
        have hdot : nextKind (p.lexemes ++ o) ≠ .dot := hne (by decide)
        have hcolons : nextKind (p.lexemes ++ o) ≠ .doubleColon := hne (by decide)
        have htype := yields_typeRef (p := ⟨.of "returns" rfl, []⟩) hdot hcolons
        refine ⟨p.lexemes ++ o, hne (by decide), hne (by decide), ?_⟩
        change Yields outputType (name "returns" :: (p.lexemes ++ o)) _ _
        apply Yields.accept_bind_of_ne (by simp [name])
        exact htype.map fun _ _ => trivial
  · have hkind : nextKind (Spelling.Path.moreLexemes ((separator, word) :: more)
        ++ (Spelling.Method.outputLexemes output ++ o)) = separator.kind := rfl
    cases separator with
    | dot => exact hnone (by simp [hkind, Separator.kind]) (by simp [hkind, Separator.kind])
    | doubleColon =>
      exact hnone (by simp [hkind, Separator.kind]) (by simp [hkind, Separator.kind])

/-- A bare input that begins with the word that announces the output is taken for an output, and
then what follows does not fit. -/
theorem methodRest_of_returns {m : Spelling.Method} {p : Spelling.Path}
    (hinput : m.input = some (.bare p)) (hreturns : p.first.text = "returns") :
    Yields methodRest (m.restLexemes ++ o) o fun _ => False := by
  obtain ⟨left, hsemicolon, hcurl, houtput⟩ :=
    exists_outputType p.more m.output (followsOutput_ending (o := o) m.ending)
  -- the type without brackets stands where the word would
  have hlexemes : m.restLexemes ++ o = name "returns" :: (Spelling.Path.moreLexemes p.more
      ++ (Spelling.Method.outputLexemes m.output ++ (m.ending.lexemes ++ o))) := by
    simp [Spelling.Method.restLexemes, hinput, Parameter.lexemes, Spelling.Path.lexemes, hreturns]
  rw [hlexemes]
  have hinput : Yields methodInput (name "returns" :: (Spelling.Path.moreLexemes p.more
      ++ (Spelling.Method.outputLexemes m.output ++ (m.ending.lexemes ++ o)))) _ _ :=
    methodInput_of_returns (by simp [name]) fun _ => rfl
  apply hinput.bind
  intro input _
  rw [methodOutput_eq, outputMark, bind_assoc, bind_assoc]
  apply Yields.acceptWord_bind
  rw [if_pos rfl, pure_bind, if_pos rfl]
  apply houtput.bind
  intro output _
  apply (methodEnd_of_ne (o := o) hsemicolon hcurl).bind
  intro _ h
  exact h.elim

theorem yields_method {m : Spelling.Method} {annots : List Tree.Annot} :
    Yields (method annots) (m.lexemes ++ o) o fun x =>
      x.mapLoc away = m.tree (annots.map (·.mapLoc away)) := by
  rw [method_eq]
  apply Yields.located (P := fun x =>
    x.1.mapLoc away = m.name.tree
      ∧ x.2.1.map (·.mapLoc away) = m.input.bind Parameter.tree
      ∧ x.2.2.map (·.mapLoc away) = m.output.bind (·.2.tree))
  · simp only [Spelling.Method.lexemes, List.cons_append]
    apply Yields.advance_bind
    apply yields_ident.bind
    intro methodName hname
    -- an input without parentheses can begin with the word that announces the output
    by_cases hfree : ∀ p, m.input = some (.bare p) → p.first.text ≠ "returns"
    · apply (yields_methodRest hfree).bind
      intro x hx
      exact Yields.pure ⟨hname, hx⟩
    · push Not at hfree
      obtain ⟨p, hinput, hreturns⟩ := hfree
      apply (methodRest_of_returns hinput hreturns).bind
      intro _ h
      exact h.elim
  · intro loc x hx
    obtain ⟨hname, hinput, houtput⟩ := hx
    simp only [Tree.Method.mapLoc, hname, hinput, houtput]
    rfl

theorem yields_serviceMember (m : Spelling.Method) (annots : List Tree.Annot) (o : List Lexeme) :
    Yields (serviceMember annots) (m.lexemes ++ o) o fun x =>
      x.mapLoc away = m.tree (annots.map (·.mapLoc away)) := by
  apply Yields.atWord_bind
  intro b hb
  rw [if_pos (hb.mpr rfl)]
  exact yields_method

end Grammar

end Idl
