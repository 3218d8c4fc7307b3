import Idl.Proofs.Token.Splice

/-!
# The line of an annotation along a source

The machine that watches over the lines of annotations is run here on the words of a source. It is
all that a source has to pass besides being cut into tokens, so that a source is read to its end or
fails for the line of an annotation. What the machine knows of the tokens so far is little: that
they end in a sign and names, or in a sign, names and open parentheses.

* §1 running the machine, §2 the machine beside the reader,
* §3 blanks and comments, §4 what a state tells of the tokens in front of it,
* §5 states from which the same words pass.
-/

namespace Idl

/-- The words that the grammar looks at. -/
def significantWords (ws : List (TokenKind × Bytes)) : List (TokenKind × Bytes) :=
  ws.filter fun w => !w.1.isTrivia

/-- The words of the significant tokens are the significant words. -/
theorem map_word_significant (ts : List Token) :
    (ts.filter fun t => !t.kind.isTrivia).map Token.word = significantWords (ts.map Token.word) := by
  rw [significantWords, List.filter_map]
  rfl

namespace AnnotLine

/-! ## §1 Running the machine -/

/-- The state after some words; none if one of them breaks the line of an annotation. -/
def run? (s : AnnotLine) (ws : List (TokenKind × Bytes)) : Option AnnotLine :=
  ws.foldlM (fun s w => s.next? w.1 w.2) s

@[simp] theorem run?_nil (s : AnnotLine) : s.run? [] = some s := rfl

theorem run?_cons (s : AnnotLine) (w : TokenKind × Bytes) (ws : List (TokenKind × Bytes)) :
    s.run? (w :: ws) = (s.next? w.1 w.2).bind fun s' => s'.run? ws := rfl

theorem run?_append (s : AnnotLine) (vs ws : List (TokenKind × Bytes)) :
    s.run? (vs ++ ws) = (s.run? vs).bind fun s' => s'.run? ws :=
  List.foldlM_append ..

theorem run?_append_of_eq_some {s s' : AnnotLine} {vs : List (TokenKind × Bytes)}
    (h : s.run? vs = some s') (ws : List (TokenKind × Bytes)) :
    s.run? (vs ++ ws) = s'.run? ws := by
  rw [run?_append, h, Option.bind_some]

/-- Where words pass, those in front of a place do. -/
theorem exists_of_run?_append {s s₂ : AnnotLine} {vs ws : List (TokenKind × Bytes)}
    (h : s.run? (vs ++ ws) = some s₂) : ∃ s₁, s.run? vs = some s₁ ∧ s₁.run? ws = some s₂ := by
  rw [run?_append] at h
  exact Option.bind_eq_some_iff.mp h

end AnnotLine

/-! ## §2 The machine beside the reader -/

namespace Cuts

variable {line : AnnotLine} {b : Bytes} {ws : List (TokenKind × Bytes)}

/-- The machine passes over the words of octets that are cut. -/
theorem exists_run? (h : Cuts line b ws) : ∃ s, line.run? ws = some s := by
  induction h with
  | nil line => exact ⟨line, rfl⟩
  | cons scan next rest ih =>
    obtain ⟨s, hs⟩ := ih
    exact ⟨s, by rw [AnnotLine.run?_cons, next, Option.bind_some, hs]⟩

/-- Octets are cut if they are cut into tokens over which the machine passes. -/
theorem of_lexes {n : Nat} {ts : List Token} {s : AnnotLine} (h : Lexes n b ts)
    (hrun : line.run? (ts.map Token.word) = some s) : Cuts line b (ts.map Token.word) := by
  induction h generalizing line with
  | nil => exact .nil line
  | cons pos scan rest ih =>
    rw [List.map_cons, AnnotLine.run?_cons] at hrun
    obtain ⟨line', hnext, hrun⟩ := Option.bind_eq_some_iff.mp hrun
    exact .cons scan hnext (ih hrun)

end Cuts

/-- A source that is cut into tokens is read up to the first of them that breaks the line of an
annotation. -/
theorem exists_lexFrom_of_run?_eq_none (skip : Nat) {start : Nat} (pos : Pos) {line : AnnotLine}
    (acc : List Token) {b : Bytes} {ts : List Token} (h : Lexes start (b.drop skip) ts)
    (hrun : line.run? (ts.map Token.word) = none) :
    ∃ us vs e, lexFrom skip start pos line acc b = ⟨acc.reverse ++ us, .error e⟩
      ∧ e.cause = .splitAnnot ∧ Lexes start (b.drop skip) (us ++ vs)
      ∧ (us ++ vs).map Token.word = ts.map Token.word := by
  -- by the recursion of the scanner, which stops where the machine does
  fun_induction lexFrom skip start pos line acc b generalizing ts with
  | case1 skip start pos line acc =>
    rw [List.drop_nil] at h
    cases h
    cases hrun
  | case2 start pos line acc c r n ih =>
    obtain ⟨us, vs, e, hlex, hcause, hlexes, hwords⟩ := ih (by simpa using h) hrun
    exact ⟨us, vs, e, hlex, hcause, by simpa using hlexes, hwords⟩
  | case3 start pos line acc c r f hscan =>
    cases h with
    | cons _ scan =>
      rw [hscan] at scan
      cases scan
  | case4 start pos line acc c r kind extra hscan text =>
    exact ⟨[], ts, _, by rw [List.append_nil], rfl, h, rfl⟩
  | case5 start pos line acc c r kind extra hscan text line' hline =>
    rename_i ih
    cases h with
    | @cons _ _ _ _ _ ts _ scan rest =>
      rw [hscan] at scan
      cases scan
      rw [List.map_cons, AnnotLine.run?_cons, Token.word, hline, Option.bind_some] at hrun
      obtain ⟨us, vs, e, hlex, hcause, hlexes, hwords⟩ := ih rest hrun
      refine ⟨⟨kind, start, pos, text⟩ :: us, vs, e, ?_, hcause, .cons pos hscan hlexes, ?_⟩
      · rw [hlex, List.reverse_cons, List.append_assoc]
        rfl
      · rw [List.cons_append, List.map_cons, hwords]
        rfl

/-- The tokens that cut octets, wherever lines end; none if the octets cannot be cut. The next token
starts at offset `start`, after `skip` octets that are left of the last one. -/
def cutFrom (skip start : Nat) : Bytes → Option (List Token)
  | [] => some []
  | c :: r =>
    match skip with
    | n + 1 => cutFrom n start r
    | 0 =>
      match scanToken c r with
      | .error _ => none
      | .ok (kind, extra) =>
        let text := c :: r.take extra
        (cutFrom extra (start + text.length) r).map (⟨kind, start, .start, text⟩ :: ·)

theorem lexes_of_cutFrom {skip start : Nat} {b : Bytes} {ts : List Token}
    (h : cutFrom skip start b = some ts) : Lexes start (b.drop skip) ts := by
  fun_induction cutFrom skip start b generalizing ts with
  | case1 skip start =>
    cases h
    simpa using Lexes.nil start
  | case2 start c r n ih => simpa using ih h
  | case3 => cases h
  | case4 start c r kind extra hscan text =>
    rename_i ih
    obtain ⟨us, hus, rfl⟩ := Option.map_eq_some_iff.mp h
    exact .cons .start hscan (ih hus)

/-- Octets that can be cut are cut into those tokens. -/
theorem lexes_cutFrom {b : Bytes} (h : (cutFrom 0 0 b).isSome = true) :
    Lexes 0 b ((cutFrom 0 0 b).getD []) := by
  obtain ⟨ts, hts⟩ := Option.isSome_iff_exists.mp h
  rw [hts]
  exact lexes_of_cutFrom (b := b) hts

namespace AnnotLine

/-! ## §3 Blanks and comments -/

variable {ws : List (TokenKind × Bytes)}

/-- Outside of annotations blanks and comments count for nothing. -/
theorem run?_outside_of_trivia (h : ∀ w ∈ ws, w.1.isTrivia = true) :
    run? .outside ws = some .outside := by
  induction ws with
  | nil => rfl
  | cons w ws ih =>
    obtain ⟨hw, hws⟩ := List.forall_mem_cons.mp h
    have hkind : w.1 ≠ .atSign := by
      intro hat
      simp [hat, TokenKind.isTrivia] at hw
    rw [run?_cons, next?, if_neg (by simpa using hkind), Option.bind_some, ih hws]

/-- Past the line of a name they count for nothing either. -/
theorem run?_ended_of_trivia (h : ∀ w ∈ ws, w.1.isTrivia = true) :
    run? .ended ws = some .ended := by
  induction ws with
  | nil => rfl
  | cons w ws ih =>
    obtain ⟨hw, hws⟩ := List.forall_mem_cons.mp h
    have hnext : next? .ended w.1 w.2 = some .ended := by
      revert hw
      cases w.1 <;> simp [next?, TokenKind.isTrivia]
    rw [run?_cons, hnext, Option.bind_some, ih hws]

/-- In a name they either leave its line or do not. -/
theorem run?_name_of_trivia (h : ∀ w ∈ ws, w.1.isTrivia = true) :
    run? .name ws = some .name ∨ run? .name ws = some .ended := by
  induction ws with
  | nil => exact .inl rfl
  | cons w ws ih =>
    obtain ⟨hw, hws⟩ := List.forall_mem_cons.mp h
    have hnext : next? .name w.1 w.2 = some .name ∨ next? .name w.1 w.2 = some .ended := by
      revert hw
      cases w.1 <;> simp [next?, TokenKind.isTrivia]
    rw [run?_cons]
    rcases hnext with hnext | hnext
    · rw [hnext]
      exact ih hws
    · rw [hnext]
      exact .inr (run?_ended_of_trivia hws)

/-! ## §4 What a state tells of the tokens in front of it -/

/-- The kinds of tokens that make up names. -/
def namePart : TokenKind → Bool
  | .ident | .dot | .doubleColon => true
  | _ => false

theorem isTrivia_of_namePart {kind : TokenKind} (h : namePart kind = true) :
    kind.isTrivia = false := by
  unfold namePart at h
  split at h
  · rfl
  · rfl
  · rfl
  · cases h

/-- The words end in a sign and parts of names. -/
def Trailing (vs : List (TokenKind × Bytes)) : Prop :=
  ∃ (xs : List (TokenKind × Bytes)) (a : TokenKind × Bytes) (ns : List (TokenKind × Bytes)),
    vs = xs ++ a :: ns ∧ a.1 = .atSign ∧ ∀ n ∈ ns, namePart n.1 = true

/-- Words behind an open parenthesis that do not close it; beyond the first depth, there is another
one among them. -/
structure Unclosed (depth : Nat) (vs : List (TokenKind × Bytes)) : Prop where
  matched : ∀ (bs : List (TokenKind × Bytes)) (c : TokenKind × Bytes) (cs : List (TokenKind × Bytes)),
    vs = bs ++ c :: cs → c.1 = .closeParen → ∃ b ∈ bs, b.1 = .openParen
  nested : 2 ≤ depth → ∃ v ∈ vs, v.1 = .openParen

/-- The words end in a sign, parts of names and an open parenthesis that they do not close. -/
def Opened (depth : Nat) (vs : List (TokenKind × Bytes)) : Prop :=
  ∃ (xs : List (TokenKind × Bytes)) (a : TokenKind × Bytes) (ns : List (TokenKind × Bytes))
      (o : TokenKind × Bytes) (us : List (TokenKind × Bytes)),
    vs = xs ++ a :: (ns ++ o :: us) ∧ a.1 = .atSign
    ∧ (∀ n ∈ ns, namePart n.1 = true) ∧ o.1 = .openParen ∧ Unclosed depth us

/-- What is known of the significant words in front of a state. -/
def Reached : AnnotLine → List (TokenKind × Bytes) → Prop
  | .outside, _ => True
  | .name, vs | .ended, vs => Trailing vs
  | .args depth, vs => Opened depth vs

theorem trailing_append_sign (vs : List (TokenKind × Bytes)) {w : TokenKind × Bytes}
    (h : w.1 = .atSign) : Trailing (vs ++ [w]) :=
  ⟨vs, w, [], rfl, h, by simp⟩

theorem Trailing.append {vs : List (TokenKind × Bytes)} {w : TokenKind × Bytes} (h : Trailing vs)
    (hw : namePart w.1 = true) : Trailing (vs ++ [w]) := by
  obtain ⟨xs, a, ns, rfl, ha, hns⟩ := h
  refine ⟨xs, a, ns ++ [w], by simp, ha, fun n hn => ?_⟩
  rcases List.mem_append.mp hn with hn | hn
  · exact hns n hn
  · rw [List.mem_singleton.mp hn]
    exact hw

theorem Trailing.opened {vs : List (TokenKind × Bytes)} {w : TokenKind × Bytes} (h : Trailing vs)
    (hw : w.1 = .openParen) : Opened 1 (vs ++ [w]) := by
  obtain ⟨xs, a, ns, rfl, ha, hns⟩ := h
  exact ⟨xs, a, ns, w, [], by simp, ha, hns, hw, by simp, by simp⟩

/-- One more word behind an open parenthesis. -/
theorem Unclosed.append {depth depth' : Nat} {vs : List (TokenKind × Bytes)}
    {w : TokenKind × Bytes} (h : Unclosed depth vs) (hclose : w.1 = .closeParen → 2 ≤ depth)
    (hdepth : 2 ≤ depth' → 2 ≤ depth ∨ w.1 = .openParen) : Unclosed depth' (vs ++ [w]) where
  matched bs c cs heq hc := by
    rcases List.eq_nil_or_concat cs with rfl | ⟨cs, x, rfl⟩
    · obtain ⟨rfl, rfl⟩ : vs = bs ∧ w = c := by simpa using heq
      exact h.nested (hclose hc)
    · obtain ⟨rfl, rfl⟩ : vs = bs ++ c :: cs ∧ w = x := by
        have : vs ++ [w] = (bs ++ c :: cs) ++ [x] := by simpa using heq
        simpa using List.append_inj' this rfl
      exact h.matched bs c cs rfl hc
  nested hd := by
    rcases hdepth hd with hd | hopen
    · obtain ⟨v, hv, hopen⟩ := h.nested hd
      exact ⟨v, List.mem_append_left _ hv, hopen⟩
    · exact ⟨w, by simp, hopen⟩

theorem Opened.append {depth depth' : Nat} {vs : List (TokenKind × Bytes)}
    {w : TokenKind × Bytes} (h : Opened depth vs) (hclose : w.1 = .closeParen → 2 ≤ depth)
    (hdepth : 2 ≤ depth' → 2 ≤ depth ∨ w.1 = .openParen) : Opened depth' (vs ++ [w]) := by
  obtain ⟨xs, a, ns, o, us, rfl, ha, hns, ho, hus⟩ := h
  exact ⟨xs, a, ns, o, us ++ [w], by simp, ha, hns, ho, hus.append hclose hdepth⟩

/-- A step of the machine keeps what is known of the words. -/
theorem Reached.next {s s' : AnnotLine} {vs : List (TokenKind × Bytes)} {w : TokenKind × Bytes}
    (h : Reached s vs) (hnext : s.next? w.1 w.2 = some s') :
    Reached s' (vs ++ significantWords [w]) := by
  obtain ⟨kind, text⟩ := w
  -- trivia leaves the significant words as they are, any other token is the last of them
  have htrivia : kind.isTrivia = true → vs ++ significantWords [(kind, text)] = vs := by
    intro hkind
    simp [significantWords, hkind]
  have hsign : kind.isTrivia = false →
      vs ++ significantWords [(kind, text)] = vs ++ [(kind, text)] := by
    intro hkind
    simp [significantWords, hkind]
  -- one case for each state, and in it for each kind of token that the state tells apart
  cases s with
  | outside =>
    simp only [next?, Option.some.injEq] at hnext
    subst hnext
    split
    · next hat =>
      have hat : kind = .atSign := by simpa using hat
      subst hat
      exact trailing_append_sign vs rfl
    · trivial
  | name =>
    have h : Trailing vs := h
    cases kind <;> simp only [next?, Option.some.injEq] at hnext <;> subst hnext
    case ident | dot | doubleColon => exact h.append rfl
    case atSign => exact trailing_append_sign vs rfl
    case openParen => exact h.opened rfl
    case space | newline | comment =>
      rw [htrivia rfl]
      exact h
    case blockComment =>
      rw [htrivia rfl]
      split <;> exact h
    all_goals trivial
  | args depth =>
    have h : Opened depth vs := h
    cases kind <;> simp only [next?, Option.some.injEq, reduceCtorEq] at hnext
    case openParen =>
      subst hnext
      exact h.append (fun hclose => by cases hclose) fun _ => .inr rfl
    case closeParen =>
      subst hnext
      -- only the parenthesis that closes the first one ends the annotation
      split
      · trivial
      · exact h.append (fun _ => by omega) fun _ => .inl (by omega)
    case blockComment =>
      split at hnext
      · cases hnext
      · cases hnext
        rw [htrivia rfl]
        exact h
    case space | comment =>
      subst hnext
      rw [htrivia rfl]
      exact h
    all_goals
      subst hnext
      rw [hsign rfl]
      exact h.append (fun hclose => by cases hclose) .inl
  | ended =>
    have h : Trailing vs := h
    cases kind <;> simp only [next?, Option.some.injEq, reduceCtorEq] at hnext <;> subst hnext
    case atSign => exact trailing_append_sign vs rfl
    case space | newline | comment | blockComment =>
      rw [htrivia rfl]
      exact h
    all_goals trivial

/-- What is known of the significant words of a run. -/
theorem Reached.run {s s' : AnnotLine} {vs ws : List (TokenKind × Bytes)} (h : Reached s vs)
    (hrun : s.run? ws = some s') : Reached s' (vs ++ significantWords ws) := by
  induction ws generalizing s vs with
  | nil =>
    cases hrun
    simpa [significantWords] using h
  | cons w ws ih =>
    rw [run?_cons] at hrun
    obtain ⟨s₁, hnext, hrun⟩ := Option.bind_eq_some_iff.mp hrun
    have hws : significantWords (w :: ws) = significantWords [w] ++ significantWords ws :=
      List.filter_append [w] ws
    rw [hws, ← List.append_assoc]
    exact ih (h.next hnext) hrun

/-! ## §5 States from which the same words pass -/

/-- The state is not one inside parentheses. -/
def Free : AnnotLine → Prop
  | .args _ => False
  | _ => True

/-- Blanks, comments and parts of names lead from free states to free states. -/
theorem exists_next?_of_free {s : AnnotLine} {kind : TokenKind} (hs : s.Free) (text : Bytes)
    (h : kind.isTrivia = true ∨ namePart kind = true) :
    ∃ s', s.next? kind text = some s' ∧ s'.Free := by
  cases s with
  | args depth => cases hs
  | name =>
    by_cases hbreak : breaksLine .blockComment text = true <;> cases kind <;>
      simp [TokenKind.isTrivia, namePart, next?, Free, hbreak] at h ⊢
  | _ => cases kind <;> simp [TokenKind.isTrivia, namePart, next?, Free] at h ⊢

/-- All other words but an open parenthesis lead from all free states to the same state. -/
theorem next?_of_free {s : AnnotLine} {kind : TokenKind} (hs : s.Free) (text : Bytes)
    (htrivia : kind.isTrivia = false) (hname : namePart kind = false) (hparen : kind ≠ .openParen) :
    s.next? kind text = some (if kind == .atSign then .name else .outside) := by
  cases s with
  | args depth => cases hs
  | _ => cases kind <;> simp_all [TokenKind.isTrivia, namePart, next?]

/-- Words that come to no parenthesis after the parts of names at their front pass from every free
state or from none. -/
theorem run?_ne_none_of_free {s s' : AnnotLine} {ws : List (TokenKind × Bytes)} (hs : s.Free)
    (hs' : s'.Free)
    (hparen : ∀ w ∈ ((significantWords ws).dropWhile fun w => namePart w.1).head?,
      w.1 ≠ .openParen)
    (h : s.run? ws ≠ none) : s'.run? ws ≠ none := by
  induction ws generalizing s s' with
  | nil => simp
  | cons w ws ih =>
    obtain ⟨kind, text⟩ := w
    rw [run?_cons] at h ⊢
    -- trivia and names leave both states free; what comes first behind them decides
    by_cases hpass : kind.isTrivia = true ∨ namePart kind = true
    · obtain ⟨t, hnext, ht⟩ := exists_next?_of_free hs text hpass
      obtain ⟨t', hnext', ht'⟩ := exists_next?_of_free hs' text hpass
      rw [hnext, Option.bind_some] at h
      rw [hnext', Option.bind_some]
      refine ih ht ht' ?_ h
      have hsame : (significantWords ((kind, text) :: ws)).dropWhile (fun w => namePart w.1)
          = (significantWords ws).dropWhile fun w => namePart w.1 := by
        rcases hpass with hkind | hkind
        · rw [significantWords, List.filter_cons_of_neg (by simp [hkind])]
          rfl
        · rw [significantWords, List.filter_cons_of_pos (by simp [isTrivia_of_namePart hkind]),
            List.dropWhile_cons_of_pos (by simpa using hkind)]
          rfl
      rwa [hsame] at hparen
    · simp only [not_or, Bool.not_eq_true] at hpass
      obtain ⟨htrivia, hname⟩ := hpass
      have hkind : kind ≠ .openParen := by
        refine hparen (kind, text) ?_
        rw [significantWords, List.filter_cons_of_pos (by simp [htrivia]),
          List.dropWhile_cons_of_neg (by simp [hname])]
        rfl
      rw [next?_of_free hs text htrivia hname hkind] at h
      rw [next?_of_free hs' text htrivia hname hkind]
      exact h

end AnnotLine

end Idl
