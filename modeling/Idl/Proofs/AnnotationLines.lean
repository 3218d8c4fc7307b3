import Idl.Proofs.Grammar.Written
import Idl.Proofs.LineBreaks
import Idl.Proofs.Token.LineEnds

/-!
# The arguments of an annotation are on one line

An annotation whose name is written on one line ends on that line if it has parentheses: no line
ends between its sign and the closing one. In the tree of a file that is accepted there is no other
annotation with its name on one line, and a source with one is refused for it. Where a line ends
within the name, the reader forgets the annotation, and its arguments may take up several lines.

* §1 the machine along an annotation, §2 accepted and refused sources.
-/

namespace Idl

/-! ## §1 The machine along an annotation -/

namespace Phrase

variable {v w : List Token} {s : Token}

/-- A sign is no inner token of an annotation. -/
theorem not_inAnnot_sign (hs : s.kind = .atSign) : ¬InAnnot v (s :: w) := by
  rintro ⟨x, a, b, y, -, hw, ha, hb, hannot⟩
  obtain ⟨u, a, rfl⟩ := List.exists_cons_of_ne_nil ha
  obtain ⟨_, b, rfl⟩ := List.exists_cons_of_ne_nil hb
  obtain ⟨rfl, -⟩ := List.cons.inj hw
  obtain ⟨u', r, heq, -, hr⟩ := exists_of_bareAnnot hannot
  obtain ⟨-, rfl⟩ := List.cons.inj heq
  exact hr s (by simp) hs

/-- A sign is no token of a method. -/
theorem not_behindName_sign (hs : s.kind = .atSign) : ¬BehindName v (s :: w) := by
  rintro ⟨x, u, p, a, b, y, -, hw, -, -, hb, hmethod⟩
  obtain ⟨_, b, rfl⟩ := List.exists_cons_of_ne_nil hb
  obtain ⟨rfl, -⟩ := List.cons.inj hw
  exact Every.method _ hmethod s (by simp) hs

/-- The text literals among arguments denote something. -/
theorem every_args_textLit :
    Every (fun t => t.kind = .textLit → ∃ v, textLitValue t.text = .ok v) args := by
  have hother {k : TokenKind} (hk : k ≠ .textLit) :
      Every (fun t => t.kind = .textLit → ∃ v, textLitValue t.text = .ok v) (sign k) :=
    .one fun t ht htext => absurd (ht.symm.trans htext) hk
  have hpath {words : List Bytes} :
      Every (fun t => t.kind = .textLit → ∃ v, textLitValue t.text = .ok v) (pathBut words) := by
    intro w hw t ht htext
    have hname := namePart_of_pathBut hw ht
    rw [htext] at hname
    cases hname
  have hliteral : Every (fun t => t.kind = .textLit → ∃ v, textLitValue t.text = .ok v) literal := by
    refine .add (.add (.add (.one ?_) (.one ?_)) ?_) (.one ?_)
    · rintro t ⟨hkind, -⟩ htext
      simp [htext, TokenKind.isInteger] at hkind
    · rintro t ⟨hkind, -⟩ htext
      simp [htext] at hkind
    · rintro w ⟨value, t, rfl, -, hvalue⟩ u hu -
      rw [List.mem_singleton.mp hu]
      exact ⟨value, hvalue⟩
    · rintro t ⟨hkind, -⟩ htext
      simp [htext] at hkind
  have hname {words : List Bytes} :
      Every (fun t => t.kind = .textLit → ∃ v, textLitValue t.text = .ok v) (nameBut words) := by
    refine .one ?_
    rintro t ⟨hkind, -⟩ htext
    simp [htext] at hkind
  -- an argument is made of signs, names and literals, and only a literal can be a text
  have harg : Every (fun t => t.kind = .textLit → ∃ v, textLitValue t.text = .ok v) arg :=
    .add hliteral (.mul hname (.maybe (.mul (hother (by decide)) (.add hliteral hpath))))
  exact .mul (.mul harg (.kstar (.mul (hother (by decide)) harg))) (.maybe (hother (by decide)))

end Phrase

/-- The tokens of an annotation among those of a source, with the blanks and comments between
them. -/
theorem Phrase.Parenthesized.exists_tokens {ts : List Token} {sign last opening closing : Token}
    (h : Phrase.Parenthesized (ts.filter fun t => !t.kind.isTrivia) sign last opening closing) :
    ∃ xs nm gs ms ys : List Token,
      ts = xs ++ sign :: (nm ++ last :: (gs ++ opening :: (ms ++ closing :: ys)))
      ∧ sign.kind = .atSign ∧ opening.kind = .openParen ∧ closing.kind = .closeParen
      ∧ (∀ t ∈ gs, t.kind.isTrivia = true)
      ∧ (∃ p, nm.filter (fun t => !t.kind.isTrivia) = p ∧ p ++ [last] ∈ Phrase.path)
      ∧ ∃ as ∈ Phrase.maybe Phrase.args, ms.filter (fun t => !t.kind.isTrivia) = as := by
  -- the tokens left out hold white space only
  have hnone {gs : List Token} (hgs : ∀ t ∈ gs, ¬(!t.kind.isTrivia) = true) :
      gs.filter (fun t => !t.kind.isTrivia) = [] := List.filter_eq_nil_iff.mpr hgs
  obtain ⟨x, p, as, y, hts, hsign, hpath, hopening, has, hclosing⟩ := h
  -- each token of the phrase is found again among all tokens, one after another
  obtain ⟨xs, _, rfl, rfl, hrest⟩ := List.filter_eq_append_iff.mp hts
  obtain ⟨gs, _, rfl, -, -, hname⟩ := List.filter_eq_cons_iff.mp hrest
  obtain ⟨ps, _, rfl, hps, hlast⟩ := List.filter_eq_append_iff.mp hname
  obtain ⟨gs₁, _, rfl, hgs₁, -, hparen⟩ := List.filter_eq_cons_iff.mp hlast
  obtain ⟨gs₂, _, rfl, hgs₂, -, hargs⟩ := List.filter_eq_cons_iff.mp hparen
  obtain ⟨ms, _, rfl, hms, hend⟩ := List.filter_eq_append_iff.mp hargs
  obtain ⟨gs₃, ys, rfl, hgs₃, -, -⟩ := List.filter_eq_cons_iff.mp hend
  refine ⟨xs ++ gs, ps ++ gs₁, gs₂, ms ++ gs₃, ys, by simp, hsign, hopening, hclosing, ?_,
    ⟨p, ?_, hpath⟩, as, has, ?_⟩
  · exact fun t ht => by simpa using hgs₂ t ht
  · rw [List.filter_append, hps, hnone hgs₁, List.append_nil]
  · rw [List.filter_append, hms, hnone hgs₃, List.append_nil]

section Machine

variable {src : Bytes} {s : AnnotLine}

/-- A sign of a file begins the line of an annotation, whatever came before. -/
theorem next?_sign {xs ys : List Token} {sign : Token}
    (hannotated : Phrase.Annotated ((xs ++ sign :: ys).filter fun t => !t.kind.isTrivia))
    (hsign : sign.kind = .atSign)
    (hrun : AnnotLine.run? .outside (xs.map Token.word) = some s) :
    s.next? sign.kind sign.text = some .name := by
  rw [hsign]
  cases s with
  | args depth =>
    have hstart : AnnotLine.Reached .outside [] := trivial
    -- within an argument list a bracket is open behind a name
    have hopened : AnnotLine.Opened depth
        ((xs.filter fun t => !t.kind.isTrivia).map Token.word) := by
      have := hstart.run hrun
      rwa [List.nil_append, ← map_word_significant] at this
    obtain ⟨x, t, ns, o, us, hleft, ht, hns, ho, hus⟩ := hopened.exists_tokens
    rw [List.filter_append, hleft, List.filter_cons_of_pos (by rw [hsign]; rfl)] at hannotated
    -- so the sign would stand inside of an annotation
    rcases Phrase.inAnnot_or_behindName_of_open hannotated ht hns ho hus with hin | hbehind
    · exact absurd hin (Phrase.not_inAnnot_sign hsign)
    · exact absurd hbehind (Phrase.not_behindName_sign hsign)
  | _ => rfl

/-- The kinds of the tokens of a name with blanks and comments among them. -/
theorem namePart_or_trivia {ms p : List Token} {last : Token} {words : List Bytes}
    (hms : ms.filter (fun t => !t.kind.isTrivia) = p) (hp : p ++ [last] ∈ Phrase.pathBut words) :
    ∀ t ∈ ms ++ [last], AnnotLine.namePart t.kind = true ∨ t.kind.isTrivia = true := by
  intro t ht
  by_cases htrivia : t.kind.isTrivia = true
  · exact .inr htrivia
  · refine .inl (Phrase.namePart_of_pathBut hp ?_)
    rcases List.mem_append.mp ht with ht | ht
    · rw [← hms]
      exact List.mem_append_left _ (List.mem_filter.mpr ⟨ht, by simpa using htrivia⟩)
    · exact List.mem_append_right _ ht

/-- Where no line ends in a name, its tokens are parts of names and what is on one line. -/
theorem onLine_of_oneLine {xs ms ys : List Token} {last : Token}
    (hlexes : Lexes 0 src (xs ++ (ms ++ last :: ys)))
    (hkinds : ∀ t ∈ ms ++ [last], AnnotLine.namePart t.kind = true ∨ t.kind.isTrivia = true)
    (hlast : AnnotLine.namePart last.kind = true) (htexts : ∀ t ∈ ms ++ [last], 0x0A ∉ t.text) :
    ∀ t ∈ ms ++ [last], AnnotLine.namePart t.kind = true ∨ AnnotLine.OnLine t.word := by
  have hmem {u : Token} (hu : u ∈ ms ++ [last]) : u ∈ xs ++ (ms ++ last :: ys) := by
    rw [List.append_cons]
    exact List.mem_append_right _ (List.mem_append_left _ hu)
  have hnewline {u : Token} (hu : u ∈ ms ++ [last]) : u.kind ≠ .newline := by
    intro hkind
    obtain ⟨c, r, extra, hscan, htext⟩ := hlexes.exists_scanToken (hmem hu)
    rw [hkind] at hscan
    exact htexts u hu (htext ▸ mem_of_newline hscan)
  intro t ht
  rcases hkinds t ht with hname | htrivia
  · exact .inl hname
  -- a comment would be followed by the end of the line
  have hcomment : t.kind ≠ .comment := by
    intro hkind
    obtain ⟨as, bs, hsplit⟩ := List.append_of_mem ht
    cases bs with
    | nil =>
      obtain ⟨-, hcons⟩ := List.append_inj' hsplit rfl
      obtain ⟨rfl, -⟩ := List.cons.inj hcons
      rw [hkind] at hlast
      cases hlast
    | cons u bs =>
      have hlexes : Lexes 0 src ((xs ++ as) ++ t :: u :: (bs ++ ys)) := by
        have : xs ++ (ms ++ last :: ys) = (xs ++ as) ++ t :: u :: (bs ++ ys) := by
          rw [List.append_cons, hsplit]
          simp
        rwa [this] at hlexes
      exact hnewline (by rw [hsplit]; simp) (hlexes.newline_of_comment hkind)
  refine .inr ?_
  revert htrivia
  cases hkind : t.kind with
  | space => exact fun _ => .inl hkind
  | blockComment => exact fun _ => .inr ⟨hkind, htexts t ht⟩
  | newline => exact absurd hkind (hnewline ht)
  | comment => exact absurd hkind hcomment
  | _ => exact fun htrivia => by cases htrivia

/-- No line ends in a token on one line. -/
theorem not_mem_of_onLine {ts : List Token} {t : Token} {n : Nat} {b : Bytes} (h : Lexes n b ts)
    (ht : t ∈ ts) (hline : AnnotLine.OnLine t.word) : 0x0A ∉ t.text := by
  rcases hline with hkind | ⟨-, htext⟩
  · have hkind : t.kind = .space := hkind
    obtain ⟨c, r, extra, hscan, htext⟩ := h.exists_scanToken ht
    rw [htext]
    exact not_mem_of_scanToken hscan (by rw [hkind]; decide)
  · exact htext

/-- Behind the name of an annotation the parenthesis is on the same line. -/
theorem onLine_of_paren {gs ys : List Token} {opening : Token}
    (htrivia : ∀ t ∈ gs, t.kind.isTrivia = true) (hopening : opening.kind = .openParen)
    (hrun : AnnotLine.run? .name ((gs ++ opening :: ys).map Token.word) = some s) :
    (∀ t ∈ gs, AnnotLine.OnLine t.word)
      ∧ AnnotLine.run? (.args 1) (ys.map Token.word) = some s := by
  have htrivia : ∀ w ∈ gs.map Token.word, w.1.isTrivia = true := by
    intro w hw
    obtain ⟨t, ht, rfl⟩ := List.mem_map.mp hw
    exact htrivia t ht
  rw [List.map_append, List.map_cons] at hrun
  obtain ⟨s₁, hgs, hrun⟩ := AnnotLine.exists_of_run?_append hrun
  rw [AnnotLine.run?_cons, Token.word, hopening] at hrun
  -- the white space keeps the state, or a line break has ended it
  rcases AnnotLine.run?_name_of_trivia htrivia with hname | hended
  · rw [hname] at hgs
    cases hgs
    exact ⟨fun t ht => AnnotLine.onLine_of_run?_name htrivia hname t.word (List.mem_map_of_mem ht),
      hrun⟩
  · rw [hended] at hgs
    cases hgs
    cases hrun

/-- No line ends in the arguments of an annotation. -/
theorem not_mem_of_args {xs ms ys as : List Token}
    (hlexes : Lexes 0 src (xs ++ (ms ++ ys))) (has : as ∈ Phrase.maybe Phrase.args)
    (hms : ms.filter (fun t => !t.kind.isTrivia) = as)
    (hrun : AnnotLine.run? (.args 1) (ms.map Token.word) = some s) :
    ∀ t ∈ ms, 0x0A ∉ t.text := by
  have hlacks {k : TokenKind} (hk : k ∈ Phrase.annotSigns) (hsign : k.isTrivia = false) :
      ∀ w ∈ ms.map Token.word, w.1 ≠ k := by
    rintro w hw rfl
    obtain ⟨t, ht, rfl⟩ := List.mem_map.mp hw
    have hmem : t ∈ as := by
      rw [← hms]
      exact List.mem_filter.mpr ⟨ht, by rw [show t.kind.isTrivia = false from hsign]; rfl⟩
    exact Phrase.Every.maybe (.args hk) as has t hmem rfl
  obtain ⟨-, hline⟩ := AnnotLine.onLine_of_run?_args (hlacks (by decide) rfl)
    (hlacks (by decide) rfl) hrun
  intro t ht
  have hmem : t ∈ xs ++ (ms ++ ys) := List.mem_append_right _ (List.mem_append_left _ ht)
  obtain ⟨c, r, extra, hscan, htext⟩ := hlexes.exists_scanToken hmem
  obtain ⟨hnewline, hblock⟩ := hline t.word (List.mem_map_of_mem ht)
  -- only three kinds of tokens can hold the end of a line
  by_cases hkind : t.kind ∈ lineEndKinds
  · simp only [lineEndKinds, List.mem_cons, List.not_mem_nil, or_false] at hkind
    rcases hkind with hkind | hkind | hkind
    · exact absurd hkind hnewline
    · exact hblock hkind
    · have hmem : t ∈ as := by
        rw [← hms]
        exact List.mem_filter.mpr ⟨ht, by rw [hkind]; rfl⟩
      obtain ⟨v, hv⟩ := Phrase.Every.maybe Phrase.every_args_textLit as has t hmem hkind
      rw [htext] at hv ⊢
      rw [hkind] at hscan
      exact not_mem_textLit hscan hv
  · rw [htext]
    exact not_mem_of_scanToken hscan hkind

/-- Where the machine passes, an annotation with its name on one line ends on that line. -/
theorem oneLine_of_run? {ts : List Token} {sign last opening closing : Token}
    (hlexes : Lexes 0 src ts)
    (hannotated : Phrase.Annotated (ts.filter fun t => !t.kind.isTrivia))
    (hrun : AnnotLine.run? .outside (ts.map Token.word) = some s)
    (h : Phrase.Parenthesized (ts.filter fun t => !t.kind.isTrivia) sign last opening closing)
    (hname : OneLine src sign.start last.stop) : OneLine src sign.start closing.stop := by
  obtain ⟨xs, nm, gs, ms, ys, rfl, hsign, hopening, hclosing, hgs, ⟨p, hnm, hpath⟩, as, has, hms⟩ :=
    h.exists_tokens
  rw [List.map_append, List.map_cons] at hrun
  obtain ⟨s₁, hxs, hrun⟩ := AnnotLine.exists_of_run?_append hrun
  rw [AnnotLine.run?_cons, Token.word, next?_sign hannotated hsign hxs, Option.bind_some] at hrun
  -- no line ends in the name
  have htexts := hlexes.oneLine_iff.mp hname
  have hlexes' : Lexes 0 src ((xs ++ [sign]) ++ (nm ++ last
      :: (gs ++ opening :: (ms ++ closing :: ys)))) := by simpa using hlexes
  have hkinds := namePart_or_trivia hnm hpath
  have hlast := Phrase.namePart_of_pathBut hpath (List.mem_append_right p List.mem_cons_self)
  have honline := onLine_of_oneLine hlexes' hkinds hlast
    fun t ht => htexts t (List.mem_cons_of_mem sign ht)
  have hpass : AnnotLine.run? .name ((nm ++ [last]).map Token.word) = some .name := by
    refine AnnotLine.run?_name_of_onLine fun w hw => ?_
    obtain ⟨t, ht, rfl⟩ := List.mem_map.mp hw
    exact honline t ht
  rw [List.append_cons, List.map_append, AnnotLine.run?_append_of_eq_some hpass] at hrun
  -- nor between the name and the parenthesis, nor among the arguments
  obtain ⟨hgsline, hrun⟩ := onLine_of_paren hgs hopening hrun
  rw [List.map_append] at hrun
  obtain ⟨s₂, hargs, -⟩ := AnnotLine.exists_of_run?_append hrun
  have hlexes'' : Lexes 0 src ((xs ++ sign :: (nm ++ last :: (gs ++ [opening])))
      ++ (ms ++ closing :: ys)) := by simpa using hlexes
  have hmstexts := not_mem_of_args hlexes'' has hms hargs
  have hparen {t : Token} (ht : t ∈ [opening, closing]) : 0x0A ∉ t.text := by
    have hmem : t ∈ xs ++ sign :: (nm ++ last :: (gs ++ opening :: (ms ++ closing :: ys))) := by
      simp only [List.mem_cons, List.not_mem_nil, or_false] at ht
      rcases ht with rfl | rfl <;> simp
    obtain ⟨c, r, extra, hscan, htext⟩ := hlexes.exists_scanToken hmem
    rw [htext]
    refine not_mem_of_scanToken hscan ?_
    simp only [List.mem_cons, List.not_mem_nil, or_false] at ht
    rcases ht with rfl | rfl
    · rw [hopening]
      decide
    · rw [hclosing]
      decide
  have hall : Lexes 0 src (xs ++ sign :: ((nm ++ last :: (gs ++ opening :: ms)) ++ closing :: ys)) := by
    simpa using hlexes
  -- each token up to the closing parenthesis is of one of four parts
  refine hall.oneLine_iff.mpr fun t ht => ?_
  have ht : t ∈ sign :: (nm ++ [last]) ∨ t ∈ gs ∨ t ∈ ms ∨ t ∈ [opening, closing] := by
    simp only [List.mem_cons, List.mem_append, List.not_mem_nil, or_false] at ht ⊢
    grind
  rcases ht with ht | ht | ht | ht
  · exact htexts t ht
  · exact not_mem_of_onLine hlexes (by simp [ht]) (hgsline t ht)
  · exact hmstexts t ht
  · exact hparen ht

end Machine

/-! ## §2 Accepted and refused sources -/

/-- An annotation with its name on one line ends on that line. In a source that is accepted, every
annotation of the tree that has parentheses is found among the tokens by its place and by that of
the last component of its name; if no line ends from its sign to that component, then none ends
from its sign to its closing parenthesis. And every other source whose tokens form a file, but with
an annotation that does not end on the line of its name, is refused for that. -/
theorem annotation_on_one_line (src : Bytes) (allowMissingPackage : Bool) :
    (∀ f, parseFile src allowMissingPackage = .ok f → ∃ l, lex src = .ok l
      ∧ ∀ a ∈ f.annots, a.args?.isSome = true → ∃ sign last opening closing,
        Phrase.Parenthesized l.significant sign last opening closing
          ∧ a.loc.span.start = sign.start ∧ a.name.last.loc = last.loc
          ∧ (OneLine src a.loc.span.start a.name.last.loc.span.stop →
            OneLine src a.loc.span.start closing.stop))
    ∧ ∀ ts sign last opening closing, src.length ≤ maxSourceSize → Utf8.isValid src = true →
      Lexes 0 src ts → ts.filter (fun t => !t.kind.isTrivia) ∈ Phrase.file (!allowMissingPackage) →
      Phrase.Parenthesized (ts.filter fun t => !t.kind.isTrivia) sign last opening closing →
      OneLine src sign.start last.stop → ¬OneLine src sign.start closing.stop →
      ∃ e, parseFile src allowMissingPackage = .error e ∧ e.cause = .splitAnnot := by
  constructor
  · intro f h
    obtain ⟨l, c, hlex, hfile⟩ := exists_of_parseFile_eq_ok h
    have hproper := significant_proper hlex
    obtain ⟨⟨e, he⟩, hmem, -⟩ := Grammar.file_sound hproper hfile
    obtain ⟨s, hrun⟩ := exists_run?_of_lex hlex he
    refine ⟨l, hlex, fun a ha hargs => ?_⟩
    obtain ⟨sign, last, opening, closing, hwritten, hstart, hloc⟩ :=
      Grammar.file_written hproper hfile a ha hargs
    refine ⟨sign, last, opening, closing, hwritten, hstart, hloc, fun hname => ?_⟩
    rw [hstart, hloc] at hname
    rw [hstart]
    exact oneLine_of_run? (lex_lexes hlex he).1 (Phrase.annotated_of_file hmem) hrun hwritten hname
  · intro ts sign last opening closing hsize hvalid hlexes hmem hwritten hname hline
    let eof : Token := ⟨.eof, src.length, .start, []⟩
    obtain ⟨f, stop, hfile, -⟩ := Grammar.takes_file (e := eof) rfl hmem 0
    -- had the machine for annotations passed, there would be no line end
    cases hrun : AnnotLine.run? .outside (ts.map Token.word) with
    | some s =>
      exact absurd (oneLine_of_run? hlexes (Phrase.annotated_of_file hmem) hrun hwritten hname) hline
    | none =>
      exact parseFile_of_run?_eq_none hsize hvalid hlexes (hlexes.inOrder (e := eof) rfl) rfl
        (map_word_significant ts).symm hfile hrun

/-- An annotation whose arguments begin on the next line. -/
theorem annotation_on_one_line_split :
    ∃ e, parseFile "package p;@a(\nx)message M\x7b\x7d" = .error e ∧ e.cause = .splitAnnot := by
  let src : Bytes := "package p;@a(\nx)message M\x7b\x7d"
  let ts := (cutFrom 0 0 src).getD []
  let ws := ts.filter fun t => !t.kind.isTrivia
  let eof : Token := ⟨.eof, src.length, .start, []⟩
  -- the tokens are cut without regard to lines
  have hlexes : Lexes 0 src ts := lexes_cutFrom (by decide +kernel)
  have hproper : Cursor.Proper ⟨ws, .ok eof, 0⟩ :=
    ⟨fun t ht => hlexes.ne_eof t (List.mem_filter.mp ht).1, fun e he => by cases he; rfl⟩
  have haccepted : (Grammar.file true ⟨ws, .ok eof, 0⟩).toOption.isSome = true := by decide +kernel
  obtain ⟨⟨f, c⟩, hfile⟩ : ∃ x, Grammar.file true ⟨ws, .ok eof, 0⟩ = .ok x := by
    cases hfile : Grammar.file true ⟨ws, .ok eof, 0⟩ with
    | error e => simp [hfile, Except.toOption] at haccepted
    | ok x => exact ⟨x, rfl⟩
  -- and without the line break the source would be a file
  have hmem : ws ∈ Phrase.file true := (Grammar.file_sound hproper hfile).2.1
  let t (i : Nat) : Token := ws.getD i eof
  -- the sign, the name, the brackets and the argument, by their places
  have hwords : ws = [t 0, t 1, t 2] ++ t 3 :: ([] ++ t 4 :: t 5 :: ([t 6] ++ t 7 :: ws.drop 8)) := by
    decide +kernel
  have hflag : [t 6] ++ [] ∈ Phrase.arg :=
    .inr (Language.append_mem_mul ⟨t 6, rfl, by decide +kernel, by decide +kernel⟩
      Phrase.nil_mem_maybe)
  have hargs : ([t 6] ++ []) ++ [] ++ [] ∈ Phrase.args :=
    Language.append_mem_mul (Language.append_mem_mul hflag (Language.nil_mem_kstar _))
      Phrase.nil_mem_maybe
  refine (annotation_on_one_line src false).2 ts (t 3) (t 4) (t 5) (t 7) (by decide +kernel)
    (by decide +kernel) hlexes hmem ⟨_, _, _, _, hwords, ?_⟩ (by decide +kernel) (by decide +kernel)
  refine ⟨by decide +kernel, Phrase.name_mem_path (by decide +kernel), by decide +kernel,
    Phrase.mem_maybe hargs, by decide +kernel⟩

end Idl
