import Idl.Proofs.Formatting
import Idl.Proofs.Grammar.Annotations
import Idl.Proofs.Grammar.Completeness
import Idl.Proofs.Grammar.Interruption

/-!
# Line breaks

A source whose significant tokens form a file can be refused for one reason only: a line ends inside
the parentheses of an annotation, or what the reader takes for them. Here is what this means for the
places between the tokens of a file: other blanks and comments at a place outside of annotations
leave the tree as it is, unless an annotation without arguments stands in front of a method on the
same line. The parentheses of such a method are taken for those of the annotation.

* §1 sources with the words of a file, §2 other blanks at one place.
-/

namespace Idl

/-! ## §1 Sources with the words of a file -/

/-- What is read of tokens is read of the same words at other places. -/
theorem exists_file_of_words {us vs : List Token} {e e' : Token} {requirePackage : Bool}
    {f : Tree.File} {c : Cursor} (hus : Token.InOrder us e) (hvs : Token.InOrder vs e')
    (he : e.word = (.eof, [])) (he' : e'.word = (.eof, []))
    (hwords : us.map Token.word = vs.map Token.word)
    (hfile : Grammar.file requirePackage ⟨us, .ok e, 0⟩ = .ok (f, c)) :
    ∃ f' c', Grammar.file requirePackage ⟨vs, .ok e', 0⟩ = .ok (f', c') ∧ f'.erase = f.erase := by
  obtain ⟨hkind, htext⟩ := Prod.mk.inj he
  obtain ⟨hkind', htext'⟩ := Prod.mk.inj he'
  -- without white space the two token lists are one
  have hpacked : packedCursor vs = packedCursor us := by
    obtain ⟨hpack, hend⟩ := Token.pack_congr (n := 0) hwords
    simp [packedCursor, hpack, hend]
  -- each file is the packed one with its places moved
  have hu := Grammar.file_tracked requirePackage (packedCursor_fits hus)
  have hv := Grammar.file_tracked requirePackage (packedCursor_fits hvs)
  rw [packedCursor_move hus hkind htext, hfile] at hu
  rw [packedCursor_move hvs hkind' htext', hpacked] at hv
  generalize Grammar.file requirePackage (packedCursor us) = x at hu hv
  generalize Grammar.file requirePackage ⟨vs, .ok e', 0⟩ = y at hv
  cases hu with
  | ok =>
    cases hv with
    | ok =>
      refine ⟨_, _, rfl, ?_⟩
      exact (Tree.File.erase_moveFile ..).trans (Tree.File.erase_moveFile ..).symm

/-- The machine passes over the words of a source that is read to its end. -/
theorem exists_run?_of_lex {src : Bytes} {l : Lexed} {e : Token} (h : lex src = .ok l)
    (hend : l.ending = .ok e) : ∃ s, AnnotLine.run? .outside (l.tokens.map Token.word) = some s := by
  unfold lex at h
  split at h
  · cases h
  · split at h
    · cases h
    · cases h
      obtain ⟨ts, htokens, hcuts⟩ := Cuts.of_lexFrom hend
      rw [htokens]
      exact hcuts.exists_run?

section Admissible

variable {src : Bytes} {ts us : List Token} {e : Token} {allowMissingPackage : Bool}
  {f : Tree.File} {c : Cursor}

/-- Where no annotation breaks its line, the words of a file are read as that file. -/
theorem parseFile_of_run?_eq_some {s : AnnotLine} (hsize : src.length ≤ maxSourceSize)
    (hvalid : Utf8.isValid src = true) (hlexes : Lexes 0 src ts)
    (hus : Token.InOrder us e) (he : e.word = (.eof, []))
    (hwords : significantWords (ts.map Token.word) = us.map Token.word)
    (hfile : Grammar.file (!allowMissingPackage) ⟨us, .ok e, 0⟩ = .ok (f, c))
    (hrun : AnnotLine.run? .outside (ts.map Token.word) = some s) :
    ∃ f', parseFile src allowMissingPackage = .ok f' ∧ f'.erase = f.erase := by
  obtain ⟨ts', e', hlexFrom, hsame, he'⟩ :=
    Cuts.exists_lexFrom (b := src) 0 0 .start [] (Cuts.of_lexes hlexes hrun)
  -- the lexer cuts the same tokens, since the lines are accepted
  have hlex := lex_eq hsize hvalid
  rw [hlexFrom, List.reverse_nil, List.nil_append] at hlex
  -- so the parser sees the words it was given
  have hmap : us.map Token.word = (ts'.filter fun t => !t.kind.isTrivia).map Token.word := by
    rw [map_word_significant, hsame, hwords]
  obtain ⟨f', c', hfile', herase⟩ :=
    exists_file_of_words hus (significant_inOrder hlex rfl) he he' hmap hfile
  refine ⟨f', ?_, herase⟩
  rw [parseFile_of_lex hlex]
  change (Grammar.file _ ⟨_, .ok e', 0⟩).map _ = _
  rw [hfile']
  rfl

/-- Where an annotation breaks its line, the words of a file are refused for it. -/
theorem parseFile_of_run?_eq_none (hsize : src.length ≤ maxSourceSize)
    (hvalid : Utf8.isValid src = true) (hlexes : Lexes 0 src ts)
    (hus : Token.InOrder us e) (he : e.word = (.eof, []))
    (hwords : significantWords (ts.map Token.word) = us.map Token.word)
    (hfile : Grammar.file (!allowMissingPackage) ⟨us, .ok e, 0⟩ = .ok (f, c))
    (hrun : AnnotLine.run? .outside (ts.map Token.word) = none) :
    ∃ err, parseFile src allowMissingPackage = .error err ∧ err.cause = .splitAnnot := by
  obtain ⟨vs, rest, err, hlexFrom, hcause, hall, hsame⟩ :=
    exists_lexFrom_of_run?_eq_none (b := src) 0 .start [] hlexes hrun
  have hlex := lex_eq hsize hvalid
  rw [hlexFrom, List.reverse_nil, List.nil_append] at hlex
  -- the tokens up to the end of the source, as if the line did not count
  let eof : Token := ⟨.eof, src.length, .start, []⟩
  have hmap : us.map Token.word
      = ((vs ++ rest).filter fun t => !t.kind.isTrivia).map Token.word := by
    rw [map_word_significant, hsame, hwords]
  have hall : Lexes 0 src (vs ++ rest) := hall
  obtain ⟨f', c', hfile', -⟩ :=
    exists_file_of_words hus (hall.inOrder (e := eof) rfl) he rfl hmap hfile
  have hproper : Cursor.Proper ⟨(vs ++ rest).filter fun t => !t.kind.isTrivia, .ok eof, 0⟩ :=
    ⟨fun t ht => hall.ne_eof t (List.mem_filter.mp ht).1, fun e he => by cases he; rfl⟩
  have hcut : Cursor.CutOff err (rest.filter fun t => !t.kind.isTrivia)
      ⟨(vs ++ rest).filter fun t => !t.kind.isTrivia, .ok eof, 0⟩
      ⟨vs.filter fun t => !t.kind.isTrivia, .error err, 0⟩ := ⟨List.filter_append .., rfl, rfl⟩
  refine ⟨err, ?_, hcause⟩
  rw [parseFile_of_lex hlex]
  change (Grammar.file _ ⟨vs.filter fun t => !t.kind.isTrivia, .error err, 0⟩).map _ = _
  rw [Grammar.file_eq_error_of_cutOff hproper hfile' hcut]
  rfl

end Admissible

/-! ## §2 Other blanks at one place -/

/-- A source and another one that has other blanks, line ends and comments at one place, between
`before` and `after`, and is else cut into the same words. -/
structure Reflow (src src' : Bytes) where
  lexed : Lexed
  before : List Token
  old : List Token
  after : List Token
  tokens : List Token
  new : List (TokenKind × Bytes)
  lex_eq : lex src = .ok lexed
  tokens_eq : lexed.tokens = before ++ (old ++ after)
  old_trivia : ∀ t ∈ old, t.kind.isTrivia = true
  size_le : src'.length ≤ maxSourceSize
  valid : Utf8.isValid src' = true
  lexes : Lexes 0 src' tokens
  words_eq : tokens.map Token.word = before.map Token.word ++ (new ++ after.map Token.word)
  new_trivia : ∀ w ∈ new, w.1.isTrivia = true

namespace Reflow

variable {src src' : Bytes} (r : Reflow src src')

/-- The significant tokens in front of the place. -/
def left : List Token := r.before.filter fun t => !t.kind.isTrivia

/-- The significant tokens behind the place. -/
def right : List Token := r.after.filter fun t => !t.kind.isTrivia

theorem significant_eq : r.lexed.significant = r.left ++ r.right := by
  have hold : r.old.filter (fun t => !t.kind.isTrivia) = [] :=
    List.filter_eq_nil_iff.mpr fun t ht => by simp [r.old_trivia t ht]
  rw [Lexed.significant, r.tokens_eq, List.filter_append, List.filter_append, hold,
    List.nil_append]
  rfl

theorem significantWords_eq :
    significantWords (r.tokens.map Token.word) = r.lexed.significant.map Token.word := by
  have hnew : significantWords r.new = [] :=
    List.filter_eq_nil_iff.mpr fun w hw => by simp [r.new_trivia w hw]
  rw [r.words_eq, significant_eq, List.map_append, left, right, map_word_significant, map_word_significant,
    ← List.nil_append (significantWords (r.after.map Token.word)), ← hnew]
  simp only [significantWords, List.filter_append]

end Reflow

/-- Words that end in a sign and names are those of such tokens. -/
theorem AnnotLine.Trailing.exists_tokens {vs : List Token}
    (h : AnnotLine.Trailing (vs.map Token.word)) :
    ∃ (xs : List Token) (s : Token) (ns : List Token), vs = xs ++ s :: ns ∧ s.kind = .atSign
      ∧ ∀ n ∈ ns, AnnotLine.namePart n.kind = true := by
  obtain ⟨xs, a, ns, hvs, ha, hns⟩ := h
  obtain ⟨xs, _, rfl, -, hvs⟩ := List.map_eq_append_iff.mp hvs
  obtain ⟨s, ns, rfl, rfl, rfl⟩ := List.map_eq_cons_iff.mp hvs
  exact ⟨xs, s, ns, rfl, ha, fun n hn => hns n.word (List.mem_map_of_mem hn)⟩

/-- Words that end in a sign, names and an open parenthesis are those of such tokens. -/
theorem AnnotLine.Opened.exists_tokens {depth : Nat} {vs : List Token}
    (h : AnnotLine.Opened depth (vs.map Token.word)) :
    ∃ (xs : List Token) (s : Token) (ns : List Token) (o : Token) (us : List Token),
      vs = xs ++ s :: (ns ++ o :: us) ∧ s.kind = .atSign
      ∧ (∀ n ∈ ns, AnnotLine.namePart n.kind = true) ∧ o.kind = .openParen
      ∧ ∀ (bs : List Token) (d : Token) (ds : List Token), us = bs ++ d :: ds →
        d.kind = .closeParen → ∃ b ∈ bs, b.kind = .openParen := by
  obtain ⟨xs, a, ns, o, us, hvs, ha, hns, ho, hus⟩ := h
  obtain ⟨xs, _, rfl, -, hvs⟩ := List.map_eq_append_iff.mp hvs
  obtain ⟨s, _, rfl, rfl, htail⟩ := List.map_eq_cons_iff.mp hvs
  obtain ⟨ns, _, rfl, rfl, hparen⟩ := List.map_eq_append_iff.mp htail
  obtain ⟨o, us, rfl, rfl, rfl⟩ := List.map_eq_cons_iff.mp hparen
  refine ⟨xs, s, ns, o, us, rfl, ha, fun n hn => hns n.word (List.mem_map_of_mem hn), ho, ?_⟩
  -- the bracket behind is matched by one that the list opens
  rintro bs d ds rfl hd
  obtain ⟨b, hb, hopen⟩ :=
    hus.matched (bs.map Token.word) d.word (ds.map Token.word) (by simp) hd
  obtain ⟨t, ht, rfl⟩ := List.mem_map.mp hb
  exact ⟨t, ht, hopen⟩

/-- Tokens that come to an open parenthesis after the parts of names at their front. -/
theorem exists_paren_of_dropWhile {ws : List Token} {w : TokenKind × Bytes}
    (h : w ∈ ((ws.map Token.word).dropWhile fun w => AnnotLine.namePart w.1).head?)
    (hw : w.1 = .openParen) :
    ∃ (ms : List Token) (o : Token) (r : List Token), ws = ms ++ o :: r
      ∧ (∀ n ∈ ms, AnnotLine.namePart n.kind = true) ∧ o.kind = .openParen := by
  rw [List.dropWhile_map] at h
  cases hdrop : ws.dropWhile (fun t => AnnotLine.namePart t.kind) with
  | nil =>
    have hnil : ws.dropWhile ((fun w => AnnotLine.namePart w.1) ∘ Token.word) = [] := hdrop
    simp [hnil] at h
  | cons o r =>
    have hcons : ws.dropWhile ((fun w => AnnotLine.namePart w.1) ∘ Token.word) = o :: r := hdrop
    obtain rfl : o.word = w := by simpa [hcons] using h
    -- the tokens before the bracket are those of the name
    refine ⟨ws.takeWhile fun t => AnnotLine.namePart t.kind, o, r, ?_, fun n hn => ?_, hw⟩
    · rw [← hdrop, List.takeWhile_append_dropWhile]
    · exact List.mem_takeWhile_imp (p := fun t : Token => AnnotLine.namePart t.kind) hn

namespace Reflow

variable {src src' : Bytes} {e : Token} (r : Reflow src src')

/-- Other blanks at a place pass, unless the place is in an annotation or behind the bare name of
an annotation and before the end of the method that follows it. -/
theorem passes_or (hend : r.lexed.ending = .ok e)
    (hannotated : Phrase.Annotated (r.left ++ r.right)) :
    (∃ s, AnnotLine.run? .outside (r.tokens.map Token.word) = some s)
      ∨ Phrase.InAnnot r.left r.right ∨ Phrase.BehindName r.left r.right := by
  -- the old trivia was accepted: up to it, over it and behind it
  obtain ⟨s, hrun⟩ := exists_run?_of_lex r.lex_eq hend
  rw [r.tokens_eq, List.map_append, List.map_append] at hrun
  obtain ⟨s₁, hbefore, hrun⟩ := AnnotLine.exists_of_run?_append hrun
  obtain ⟨s₂, hold, hafter⟩ := AnnotLine.exists_of_run?_append hrun
  have hold' : ∀ w ∈ r.old.map Token.word, w.1.isTrivia = true := by
    intro w hw
    obtain ⟨t, ht, rfl⟩ := List.mem_map.mp hw
    exact r.old_trivia t ht
  have hreached : AnnotLine.Reached s₁ (r.left.map Token.word) := by
    have hstart : AnnotLine.Reached .outside [] := trivial
    have := hstart.run hbefore
    rwa [List.nil_append, ← map_word_significant] at this
  have hpass {s' : AnnotLine} (hnew : s₁.run? r.new = some s')
      (h : s'.run? (r.after.map Token.word) ≠ none) :
      ∃ s, AnnotLine.run? .outside (r.tokens.map Token.word) = some s := by
    rw [r.words_eq, AnnotLine.run?_append_of_eq_some hbefore,
      AnnotLine.run?_append_of_eq_some hnew]
    exact Option.ne_none_iff_exists'.mp h
  -- behind a sign and names everything hangs on whether a parenthesis comes next
  have hfree (htrailing : AnnotLine.Trailing (r.left.map Token.word)) (hs₂ : s₂.Free)
      {s' : AnnotLine} (hnew : s₁.run? r.new = some s') (hs' : s'.Free) :
      (∃ s, AnnotLine.run? .outside (r.tokens.map Token.word) = some s)
        ∨ Phrase.InAnnot r.left r.right ∨ Phrase.BehindName r.left r.right := by
    by_cases hparen : ∀ w ∈ ((significantWords (r.after.map Token.word)).dropWhile
        fun w => AnnotLine.namePart w.1).head?, w.1 ≠ .openParen
    · refine .inl (hpass hnew (AnnotLine.run?_ne_none_of_free hs₂ hs' hparen ?_))
      rw [hafter]
      exact Option.some_ne_none s
    · push Not at hparen
      obtain ⟨w, hw, hopen⟩ := hparen
      rw [← map_word_significant] at hw
      obtain ⟨ms, o, q, hright, hms, ho⟩ := exists_paren_of_dropWhile hw hopen
      have hright : r.right = ms ++ o :: q := hright
      obtain ⟨xs, t, ns, hleft, ht, hns⟩ := htrailing.exists_tokens
      rw [hleft, hright] at hannotated ⊢
      exact .inr (Phrase.inAnnot_or_behindName_of_names hannotated ht hns hms ho)
  -- what a newline does depends on the state in front of it
  cases s₁ with
  | outside =>
    rw [AnnotLine.run?_outside_of_trivia hold'] at hold
    cases hold
    refine .inl (hpass (AnnotLine.run?_outside_of_trivia r.new_trivia) ?_)
    rw [hafter]
    exact Option.some_ne_none s
  | args depth =>
    have hopened : AnnotLine.Opened depth (r.left.map Token.word) := hreached
    obtain ⟨xs, t, ns, o, us, hleft, ht, hns, ho, hus⟩ := hopened.exists_tokens
    rw [hleft] at hannotated ⊢
    exact .inr (Phrase.inAnnot_or_behindName_of_open hannotated ht hns ho hus)
  | name =>
    have hs₂ : s₂.Free := by
      rcases AnnotLine.run?_name_of_trivia hold' with h | h <;> rw [h] at hold <;> cases hold <;>
        trivial
    rcases AnnotLine.run?_name_of_trivia r.new_trivia with h | h
    · exact hfree hreached hs₂ h trivial
    · exact hfree hreached hs₂ h trivial
  | ended =>
    rw [AnnotLine.run?_ended_of_trivia hold'] at hold
    cases hold
    exact hfree hreached trivial (AnnotLine.run?_ended_of_trivia r.new_trivia) trivial

end Reflow

/-- Blanks, line ends and comments are free between tokens of which no annotation holds both, up to
a method on the line of an annotation. Where a source is accepted, the source with other ones at
such a place is accepted with the same tree, places apart; or it is refused because of a line that
ends within an annotation, and then the place is in or in front of a method that follows the bare
name of an annotation. -/
theorem parseFile_of_reflow {src src' : Bytes} {allowMissingPackage : Bool} {f : Tree.File}
    (h : parseFile src allowMissingPackage = .ok f) (r : Reflow src src')
    (hplace : ¬Phrase.InAnnot r.left r.right) :
    (∃ f', parseFile src' allowMissingPackage = .ok f' ∧ f'.erase = f.erase)
      ∨ (∃ e, parseFile src' allowMissingPackage = .error e ∧ e.cause = .splitAnnot)
        ∧ Phrase.BehindName r.left r.right := by
  obtain ⟨l, c, hlex, hfile⟩ := exists_of_parseFile_eq_ok h
  obtain rfl : r.lexed = l := Except.ok.inj (r.lex_eq.symm.trans hlex)
  obtain ⟨⟨e, he⟩, hmem, -⟩ := Grammar.file_sound (significant_proper hlex) hfile
  have he : r.lexed.ending = .ok e := he
  obtain ⟨-, hkind, htext, -⟩ := lex_lexes hlex he
  have hword : e.word = (.eof, []) := by rw [Token.word, hkind, htext]
  have horder := significant_inOrder hlex he
  have hannotated : Phrase.Annotated (r.left ++ r.right) := by
    rw [← r.significant_eq]
    exact Phrase.annotated_of_file hmem
  rw [he] at hfile
  -- the words are the same, so the annotation lines alone decide
  cases hrun : AnnotLine.run? .outside (r.tokens.map Token.word) with
  | some s =>
    exact .inl (parseFile_of_run?_eq_some r.size_le r.valid r.lexes horder hword
      r.significantWords_eq hfile hrun)
  | none =>
    refine .inr ⟨parseFile_of_run?_eq_none r.size_le r.valid r.lexes horder hword
      r.significantWords_eq hfile hrun, ?_⟩
    rcases r.passes_or he hannotated with ⟨s, hs⟩ | hin | hbehind
    · rw [hrun] at hs
      cases hs
    · exact absurd hin hplace
    · exact hbehind

/-- A method on the line of an annotation, and a line that ends in its parentheses. -/
theorem parseFile_of_reflow_method :
    (∃ f, parseFile "package p;message M\x7b\x7dservice S\x7b@flag rpc get(M);\x7d" = .ok f)
      ∧ ∃ e, parseFile "package p;message M\x7b\x7dservice S\x7b@flag rpc get(\nM);\x7d" = .error e
        ∧ e.cause = .splitAnnot := by
  let src : Bytes := "package p;message M\x7b\x7dservice S\x7b@flag rpc get(M);\x7d"
  let src' : Bytes := "package p;message M\x7b\x7dservice S\x7b@flag rpc get(\nM);\x7d"
  let l := lexFrom 0 0 .start .outside [] src
  -- all that is new is a newline behind the parenthesis of the method
  let r : Reflow src src' :=
    { lexed := l
      before := l.tokens.take 20
      old := []
      after := l.tokens.drop 20
      tokens := (cutFrom 0 0 src').getD []
      new := [(.newline, [0x0A])]
      lex_eq := lex_eq (by decide +kernel) (by decide +kernel)
      tokens_eq := by rw [List.nil_append, List.take_append_drop]
      old_trivia := by simp
      size_le := by decide +kernel
      valid := by decide +kernel
      lexes := lexes_cutFrom (by decide +kernel)
      words_eq := by decide +kernel
      new_trivia := by decide }
  have hleft : ∃ (x : List Token) (s n t : Token) (q : List Token),
      r.left = x ++ s :: n :: t :: q ∧ s.kind = .atSign
      ∧ (∀ u ∈ n :: t :: q, u.kind ≠ .atSign) ∧ t.kind = .ident :=
    ⟨r.left.take 10, r.left.get ⟨10, by decide +kernel⟩, r.left.get ⟨11, by decide +kernel⟩,
      r.left.get ⟨12, by decide +kernel⟩, r.left.drop 13, by decide +kernel, by decide +kernel,
      by decide +kernel, by decide +kernel⟩
  have hplace : ¬Phrase.InAnnot r.left r.right := by
    obtain ⟨x, s, n, t, q, hleft, hs, hq, ht⟩ := hleft
    rw [hleft]
    exact Phrase.not_inAnnot hs hq (by simp [ht]) (by simp [ht]) (by simp [ht])
  have haccepted : (parseFile src).toOption.isSome = true := by decide +kernel
  have hrefused : (parseFile src').toOption = none := by decide +kernel
  cases hparse : parseFile src with
  | error e => simp [hparse, Except.toOption] at haccepted
  | ok f =>
    refine ⟨⟨f, rfl⟩, ?_⟩
    rcases parseFile_of_reflow hparse r hplace with ⟨f', hf', -⟩ | ⟨herror, -⟩
    · simp [hf', Except.toOption] at hrefused
    · exact herror

end Idl
