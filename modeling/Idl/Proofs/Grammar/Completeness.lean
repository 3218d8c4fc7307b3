import Idl.Proofs.Grammar.Phrase
import Idl.Proofs.Grammar.Simulation
import Idl.Proofs.Grammar.Soundness
import Idl.Proofs.Token.Lexemes
import Mathlib.Order.CompletePartialOrder

/-!
# What is in the language is read

`Takes e p i o Q` says that the piece of grammar `p` succeeds on the tokens `i`, leaves the tokens
`o` behind them and gives a result that satisfies `Q`; the end `e` counts only where `o` is empty.
Each phrase is taken by its piece of grammar as long as what follows cannot prolong it. So a source
is read as a file exactly if it can be cut into tokens to its end and the significant ones form a
file.

* §1 the logic of success, §2 its rules,
* §3 names and constants, §4 annotations,
* §5 messages, §6 services, §7 files,
* §8 the language.
-/

namespace Idl

open scoped Computability

namespace Grammar

variable {α β σ : Type} {e t : Token} {i m o : List Token}

/-! ## §1 Success -/

/-- A piece of grammar takes some tokens and leaves others. What comes after those that are left
does not matter, unless none are: then it is the end. -/
def Takes (e : Token) (p : Grammar α) (i o : List Token) (Q : α → Prop) : Prop :=
  o <:+ i ∧ ∀ x s, (o = [] → x = .ok e) → ∃ a s', p ⟨i, x, s⟩ = .ok (a, ⟨o, x, s'⟩) ∧ Q a

/-- What holds of a loop before some tokens as soon as it holds after a step that goes on. -/
def Backward (e : Token) (step : σ → Grammar (σ × Bool)) (P : σ → List Token → Prop) : Prop :=
  ∀ ⦃s i m⦄, Takes e (step s) i m (fun x => x.2 = true ∧ P x.1 m) → m.length < i.length → P s i

/-- What holds of a piece of grammar before some tokens as soon as a first part of it takes tokens
and it holds of the rest. -/
def Sequential (e : Token) (P : Grammar α → List Token → Prop) : Prop :=
  ∀ ⦃β : Type⦄ ⦃p : Grammar β⦄ ⦃k : β → Grammar α⦄ ⦃i m : List Token⦄ ⦃Q : β → Prop⦄,
    Takes e p i m Q → (∀ a, Q a → P (k a) m) → P (p >>= k) i

/-- The token at the front. -/
def next (e : Token) (i : List Token) : Token := i.headD e

@[simp] theorem next_cons : next e (t :: i) = t := rfl

@[simp] theorem next_nil : next e [] = e := rfl

theorem peek_eq {x : Except SyntaxError Token} (s : Nat) (hx : i = [] → x = .ok e) :
    peek ⟨i, x, s⟩ = .ok (next e i, ⟨i, x, s⟩) := by
  cases i with
  | nil =>
    obtain rfl := hx rfl
    rfl
  | cons t r => rfl

/-! ## §2 Rules -/

namespace Takes

variable {Q : α → Prop} {R : β → Prop}

/-- With the end behind the tokens. -/
theorem run {p : Grammar α} (h : Takes e p i o Q) (s : Nat) :
    ∃ a s', p ⟨i, .ok e, s⟩ = .ok (a, ⟨o, .ok e, s'⟩) ∧ Q a := h.2 (.ok e) s fun _ => rfl

/-- Where nothing is read nothing is taken. -/
theorem pure {a : α} (h : Q a) : Takes e (Pure.pure a) i i Q :=
  ⟨List.suffix_rfl, fun _ s _ => ⟨a, s, rfl, h⟩⟩

/-- What is taken first and what is taken then. -/
theorem bind {p : Grammar α} {k : α → Grammar β} (hp : Takes e p i m Q)
    (hk : ∀ a, Q a → Takes e (k a) m o R) : Takes e (p >>= k) i o R := by
  have hom : o <:+ m := by
    obtain ⟨a, -, -, hQ⟩ := hp.run 0
    exact (hk a hQ).1
  refine ⟨hom.trans hp.1, fun x s hx => ?_⟩
  obtain ⟨a, s', ha, hQ⟩ := hp.2 x s fun hm => hx (List.suffix_nil.mp (hm ▸ hom))
  obtain ⟨b, s'', hb, hR⟩ := (hk a hQ).2 x s' hx
  exact ⟨b, s'', (bind_of_ok ha).trans hb, hR⟩

/-- Less may be said of the result. -/
theorem conseq {P : α → Prop} {p : Grammar α} (hp : Takes e p i o P) (h : ∀ a, P a → Q a) :
    Takes e p i o Q := by
  refine ⟨hp.1, fun x s hx => ?_⟩
  obtain ⟨a, s', ha, hP⟩ := hp.2 x s hx
  exact ⟨a, s', ha, h a hP⟩

/-- A function of the result does not read. -/
theorem map {p : Grammar α} {f : α → β} (hp : Takes e p i o Q) (h : ∀ a, Q a → R (f a)) :
    Takes e (f <$> p) i o R := by
  rw [map_eq_pure_bind]
  exact hp.bind fun a ha => pure (h a ha)

/-- The next token is looked at, and the rest goes on in the same place. -/
theorem peek_bind {k : Token → Grammar α} (hk : Takes e (k (next e i)) i o Q) :
    Takes e (peek >>= k) i o Q := by
  refine ⟨hk.1, fun x s hx => ?_⟩
  rw [bind_of_ok (peek_eq s fun hi => hx (List.suffix_nil.mp (hi ▸ hk.1)))]
  exact hk.2 x s hx

/-- The rest may know the position, but it may not depend on it. -/
theorem get_bind {k : Cursor → Grammar α} (hk : ∀ c, Takes e (k c) i o Q) :
    Takes e (get >>= k) i o Q :=
  ⟨(hk ⟨i, .ok e, 0⟩).1, fun x s hx => (hk ⟨i, x, s⟩).2 x s hx⟩

/-- A token is consumed, and the rest goes on behind it. -/
theorem advance_bind {k : Unit → Grammar α} (hk : Takes e (k ()) i o Q) :
    Takes e (advance >>= k) (t :: i) o Q :=
  ⟨hk.1.trans (List.suffix_cons t i), fun x _ hx => hk.2 x t.stop hx⟩

theorem advance : Takes e Grammar.advance (t :: i) i fun _ => True :=
  ⟨List.suffix_cons t i, fun _ _ _ => ⟨(), t.stop, rfl, trivial⟩⟩

/-- The place of a node does not matter for what is taken. -/
theorem located {p : Grammar α} {build : Loc → α → β} (hp : Takes e p i o Q)
    (h : ∀ loc a, Q a → R (build loc a)) : Takes e (Grammar.located build p) i o R :=
  peek_bind (hp.bind fun a ha => get_bind fun _ => pure (h _ a ha))

/-- A sign that is there is consumed. -/
theorem accept_bind {kind : TokenKind} {k : Bool → Grammar α} (ht : t.kind = kind)
    (hk : Takes e (k true) i o Q) : Takes e (accept kind >>= k) (t :: i) o Q := by
  unfold accept
  rw [bind_assoc]
  refine peek_bind ?_
  rw [next_cons, if_pos (by simpa using ht), bind_assoc]
  exact advance_bind hk

/-- A sign that is not there is not, and nothing is consumed. -/
theorem accept_bind_of_ne {kind : TokenKind} {k : Bool → Grammar α} (ht : (next e i).kind ≠ kind)
    (hk : Takes e (k false) i o Q) : Takes e (accept kind >>= k) i o Q := by
  unfold accept
  rw [bind_assoc]
  refine peek_bind ?_
  rw [if_neg (by simpa using ht), pure_bind]
  exact hk

/-- A sign that has to be there. -/
theorem sigil_bind {s : Sigil} {k : Unit → Grammar α} (ht : t.kind = s.kind)
    (hk : Takes e (k ()) i o Q) : Takes e (sigil s >>= k) (t :: i) o Q := by
  unfold sigil
  rw [bind_assoc]
  exact accept_bind ht hk

/-- Whether a word is next can be read off the next token. -/
theorem atWord_bind {text : Bytes} {k : Bool → Grammar α}
    (hk : Takes e (k ((next e i).isWord text)) i o Q) : Takes e (atWord text >>= k) i o Q := by
  unfold atWord
  rw [bind_assoc]
  refine peek_bind ?_
  rw [pure_bind]
  exact hk

/-- A word that is there is consumed. -/
theorem acceptWord_bind {text : Bytes} {k : Bool → Grammar α} (ht : t.isWord text = true)
    (hk : Takes e (k true) i o Q) : Takes e (acceptWord text >>= k) (t :: i) o Q := by
  unfold acceptWord
  rw [bind_assoc]
  refine atWord_bind ?_
  rw [next_cons, if_pos ht, bind_assoc]
  exact advance_bind hk

/-- A word that is not there is not, and nothing is consumed. -/
theorem acceptWord_bind_of_ne {text : Bytes} {k : Bool → Grammar α}
    (ht : (next e i).isWord text = false) (hk : Takes e (k false) i o Q) :
    Takes e (acceptWord text >>= k) i o Q := by
  unfold acceptWord
  rw [bind_assoc]
  refine atWord_bind ?_
  rw [ht, if_neg (by simp), pure_bind]
  exact hk

theorem accept {kind : TokenKind} (ht : t.kind = kind) :
    Takes e (Grammar.accept kind) (t :: i) i fun b => b = true := by
  rw [← bind_pure (Grammar.accept kind)]
  exact accept_bind ht (pure rfl)

theorem accept_of_ne {kind : TokenKind} (ht : (next e i).kind ≠ kind) :
    Takes e (Grammar.accept kind) i i fun b => b = false := by
  rw [← bind_pure (Grammar.accept kind)]
  exact accept_bind_of_ne ht (pure rfl)

/-- A token that may be there is taken. -/
theorem accept_maybe {kind : TokenKind} {w : List Token} (hw : w ∈ Phrase.maybe (Phrase.sign kind))
    (ho : (next e o).kind ≠ kind) : Takes e (Grammar.accept kind) (w ++ o) o fun _ => True := by
  rcases hw with rfl | ⟨t, rfl, ht⟩
  · exact (accept_of_ne ho).conseq fun _ _ => trivial
  · exact (accept ht).conseq fun _ _ => trivial

theorem atWord {text : Bytes} :
    Takes e (Grammar.atWord text) i i fun b => b = (next e i).isWord text := by
  rw [← bind_pure (Grammar.atWord text)]
  exact atWord_bind (pure rfl)

theorem sigil {s : Sigil} (ht : t.kind = s.kind) :
    Takes e (Grammar.sigil s) (t :: i) i fun _ => True := by
  rw [← bind_pure (Grammar.sigil s)]
  exact sigil_bind ht (pure trivial)

/-- A step that goes on leaves fewer tokens to the rest of the loop. -/
theorem loop_more {step : σ → Grammar (σ × Bool)} {s : σ} {R : σ → Prop}
    (hstep : Takes e (step s) i m fun x => x.2 = true ∧ Takes e (Grammar.loop step x.1) m o R)
    (hlt : m.length < i.length) : Takes e (Grammar.loop step s) i o R := by
  have hom : o <:+ m := by
    -- any position will do to see that the loop leaves an end of what the step leaves
    obtain ⟨⟨s', more⟩, -, -, -, hloop⟩ := hstep.run 0
    exact hloop.1
  refine ⟨hom.trans hstep.1, fun x n hx => ?_⟩
  obtain ⟨⟨s', more⟩, n', hs, hmore, hloop⟩ :=
    hstep.2 x n fun hm => hx (List.suffix_nil.mp (hm ▸ hom))
  dsimp only at hmore
  subst hmore
  obtain ⟨a, n'', ha, hR⟩ := hloop.2 x n' hx
  refine ⟨a, n'', ?_, hR⟩
  rw [Grammar.loop, hs]
  simpa [hlt] using ha

/-- A loop that stops has taken what its last round has taken. -/
theorem loop_done {step : σ → Grammar (σ × Bool)} {s : σ} {R : σ → Prop}
    (hstep : Takes e (step s) i o fun x => x.2 = false ∧ R x.1) :
    Takes e (Grammar.loop step s) i o R := by
  refine ⟨hstep.1, fun x n hx => ?_⟩
  obtain ⟨⟨s', more⟩, n', hs, hmore, hR⟩ := hstep.2 x n hx
  dsimp only at hmore
  subst hmore
  refine ⟨s', n', ?_, hR⟩
  rw [Grammar.loop, hs]
  simp

/-- What is taken is composed like the pieces. -/
theorem sequential : Sequential e fun (p : Grammar α) i => Takes e p i o Q :=
  fun _ _ _ _ _ _ => bind

/-- In a loop this goes from the last round to the first. -/
theorem backward {step : σ → Grammar (σ × Bool)} {R : σ → Prop} :
    Backward e step fun s i => Takes e (Grammar.loop step s) i o R :=
  fun _ _ _ => loop_more

end Takes

/-! ## §3 Names and constants -/

/-- A name is taken under its text. -/
theorem takes_ident (ht : t.kind = .ident) :
    Takes e ident (t :: o) o fun i => i.name = t.text := by
  refine Takes.peek_bind ?_
  rw [next_cons, if_pos (by simpa using ht)]
  exact Takes.advance_bind (.pure rfl)

theorem takes_intLit {w : List Token} (hw : w ∈ Phrase.intLit) :
    Takes e intLit (w ++ o) o fun _ => True := by
  obtain ⟨t, rfl, hkind, hlo, hhi⟩ := hw
  have hfits : fitsLiteral (intLitValue t.kind t.text) = true := by
    simp only [fitsLiteral, Bool.and_eq_true, decide_eq_true_eq]
    omega
  refine Takes.peek_bind ?_
  rw [List.cons_append, next_cons, if_pos hkind, if_pos hfits]
  exact Takes.advance_bind (.pure trivial)

/-- A text is taken with what it denotes. -/
theorem takes_textLit {w : List Token} {v : Bytes} (hw : w ∈ Phrase.textLitOf v) :
    Takes e textLit (w ++ o) o fun l => l.value = v := by
  obtain ⟨t, rfl, hkind, hvalue⟩ := hw
  refine Takes.peek_bind ?_
  rw [List.cons_append, next_cons, if_pos (by simpa using hkind), hvalue]
  exact Takes.advance_bind (.pure rfl)

theorem Takes.separator_bind {k : Bool → Grammar α} {Q : α → Prop} {w : List Token}
    (hw : w ∈ Phrase.sign .dot + Phrase.sign .doubleColon) (hk : Takes e (k true) i o Q) :
    Takes e (separator >>= k) (w ++ i) o Q := by
  unfold separator
  rw [bind_assoc]
  rcases hw with ⟨s, rfl, hs⟩ | ⟨s, rfl, hs⟩
  · exact .accept_bind hs hk
  · have hne : (next e ([s] ++ i)).kind ≠ .dot := by simp [show s.kind = .doubleColon from hs]
    exact .accept_bind_of_ne hne (.accept_bind hs hk)

theorem Takes.separator_bind_of_ne {k : Bool → Grammar α} {Q : α → Prop}
    (hdot : (next e i).kind ≠ .dot) (hcolons : (next e i).kind ≠ .doubleColon)
    (hk : Takes e (k false) i o Q) : Takes e (separator >>= k) i o Q := by
  unfold separator
  rw [bind_assoc]
  exact .accept_bind_of_ne hdot (.accept_bind_of_ne hcolons hk)

/-- The components of a name after the first one. -/
theorem takes_components {ws : List (List Token)}
    (hws : ∀ w ∈ ws, w ∈ (Phrase.sign .dot + Phrase.sign .doubleColon) * Phrase.name)
    (hdot : (next e o).kind ≠ .dot) (hcolons : (next e o).kind ≠ .doubleColon)
    (parts : List Tree.Ident) :
    Takes e (loop (fun parts => do
      if ← separator then
        let part ← ident
        return (part :: parts, true)
      else return (parts, false)) parts) (ws.flatten ++ o) o fun _ => True := by
  induction ws generalizing parts with
  -- neither separator is next, so the loop ends
  | nil => exact .loop_done (.separator_bind_of_ne hdot hcolons (.pure ⟨rfl, trivial⟩))
  | cons w ws ih =>
    obtain ⟨x, hx, y, ⟨n, rfl, hn⟩, rfl⟩ := Language.mem_mul.mp (hws w (List.mem_cons_self ..))
    have ih := ih fun w hw => hws w (List.mem_cons_of_mem _ hw)
    rw [List.flatten_cons, List.append_assoc, List.append_assoc]
    refine .loop_more (m := ws.flatten ++ o) (.separator_bind hx ?_)
      (by simp only [List.length_append, List.length_cons]; omega)
    exact (takes_ident hn).bind fun part _ => .pure ⟨rfl, ih (part :: parts)⟩

/-- A dotted name is taken if it does not go on behind its end. -/
theorem takes_path {words : List Bytes} {w : List Token} (hw : w ∈ Phrase.pathBut words)
    (hdot : (next e o).kind ≠ .dot) (hcolons : (next e o).kind ≠ .doubleColon) :
    Takes e path (w ++ o) o fun _ => True := by
  obtain ⟨x, ⟨t, rfl, hkind, -⟩, y, hy, rfl⟩ := Language.mem_mul.mp hw
  obtain ⟨ws, rfl, hws⟩ := Language.mem_kstar.mp hy
  refine Takes.located (Q := fun _ => True) ?_ fun _ _ _ => trivial
  rw [List.append_assoc]
  refine (takes_ident hkind).bind fun first _ => ?_
  exact (takes_components hws hdot hcolons []).bind fun more _ => .pure trivial

/-- A constant that is no name is taken. -/
theorem takes_literal {w : List Token} (hw : w ∈ Phrase.literal) :
    Takes e value? (w ++ o) o fun v => v.isSome = true := by
  refine Takes.located (Q := fun c => c.isSome = true) ?_ fun _ _ h => by simpa using h
  refine Takes.peek_bind ?_
  -- a whole number, a number with a fraction, a text, or one of the four words
  rcases hw with ((hint | ⟨t, rfl, hkind, hsome⟩) | ⟨v, htext⟩) | ⟨t, rfl, hkind, hword⟩
  · have htakes := (takes_intLit (e := e) (o := o) hint).bind fun l _ =>
      Takes.pure (Q := fun c => c.isSome = true) (a := some (Tree.Constant.int l)) rfl
    obtain ⟨t, rfl, hkind, -⟩ := hint
    rw [List.cons_append, next_cons] at *
    -- the three kinds of whole numbers are one branch each of the grammar
    cases h : t.kind <;> simp [h, TokenKind.isInteger] at hkind <;> exact htakes
  · obtain ⟨x, hx⟩ := Option.isSome_iff_exists.mp hsome
    rw [List.cons_append, next_cons, hkind]
    simp only [hx]
    exact Takes.advance_bind (.pure rfl)
  · have htakes := (takes_textLit (e := e) (o := o) htext).bind fun l _ =>
      Takes.pure (Q := fun c => c.isSome = true) (a := some (Tree.Constant.text l)) rfl
    obtain ⟨t, rfl, hkind, -⟩ := htext
    rw [List.cons_append, next_cons, hkind] at *
    exact htakes
  · rw [List.cons_append, next_cons, hkind]
    simp only
    split
    · exact Takes.advance_bind (.pure rfl)
    · split
      · exact Takes.advance_bind (.pure rfl)
      · split
        · exact Takes.advance_bind (.pure rfl)
        · simp only [Phrase.constantWords, List.mem_cons, List.not_mem_nil] at hword
          simp_all

/-- A constant is taken, whether it is written or named. -/
theorem takes_value? {w : List Token} (hw : w ∈ Phrase.value) (hdot : (next e o).kind ≠ .dot)
    (hcolons : (next e o).kind ≠ .doubleColon) :
    Takes e value? (w ++ o) o fun v => v.isSome = true := by
  rcases hw with hliteral | hpath
  · exact takes_literal hliteral
  · have htakes := (takes_path hpath hdot hcolons).bind fun p _ =>
      Takes.pure (Q := fun c => c.isSome = true) (a := some (Tree.Constant.path p)) rfl
    obtain ⟨x, ⟨t, rfl, hkind, hword⟩, y, -, rfl⟩ := Language.mem_mul.mp hpath
    -- a name that is none of the four words is taken for a name
    simp only [Phrase.constantWords, List.mem_cons, List.not_mem_nil, or_false, not_or] at hword
    refine Takes.located (Q := fun c => c.isSome = true) ?_ fun _ _ h => by simpa using h
    refine Takes.peek_bind ?_
    have hnext : next e ([t] ++ y ++ o) = t := rfl
    rw [hnext, hkind]
    simpa [hword] using htakes

/-- The same where a constant has to be there. -/
theorem takes_value {w : List Token} (hw : w ∈ Phrase.value) (hdot : (next e o).kind ≠ .dot)
    (hcolons : (next e o).kind ≠ .doubleColon) : Takes e value (w ++ o) o fun _ => True := by
  refine (takes_value? hw hdot hcolons).bind fun v hv => ?_
  obtain ⟨v, rfl⟩ := Option.isSome_iff_exists.mp hv
  exact .pure trivial

/-! ## §4 Annotations -/

/-- A constant that is no name begins with a literal or with one of its words. -/
theorem exists_head_of_literal {w : List Token} (hw : w ∈ Phrase.literal) :
    ∃ t r, w = t :: r ∧ t.kind ≠ .closeParen ∧ (t.kind = .ident → t.text ∈ Phrase.constantWords) := by
  rcases hw with ((⟨t, rfl, hkind, -⟩ | ⟨t, rfl, hkind, -⟩) | ⟨v, t, rfl, hkind, -⟩) |
    ⟨t, rfl, hkind, hword⟩
  · refine ⟨t, [], rfl, fun h => ?_, fun h => ?_⟩ <;> simp [h, TokenKind.isInteger] at hkind
  · refine ⟨t, [], rfl, ?_, ?_⟩ <;> simp [hkind]
  · refine ⟨t, [], rfl, ?_, ?_⟩ <;> simp [hkind]
  · exact ⟨t, [], rfl, by simp [hkind], fun _ => hword⟩

/-- No argument begins with a closing parenthesis. -/
theorem exists_head_of_arg {w : List Token} (hw : w ∈ Phrase.arg) :
    ∃ t r, w = t :: r ∧ t.kind ≠ .closeParen := by
  rcases hw with hliteral | hnamed
  · obtain ⟨t, r, rfl, hkind, -⟩ := exists_head_of_literal hliteral
    exact ⟨t, r, rfl, hkind⟩
  · obtain ⟨x, ⟨t, rfl, hkind, -⟩, y, -, rfl⟩ := Language.mem_mul.mp hnamed
    exact ⟨t, y, rfl, by simp [hkind]⟩

/-- An argument is taken if a comma or a parenthesis follows it. -/
theorem takes_arg? {w : List Token} (hw : w ∈ Phrase.arg)
    (ho : (next e o).kind = .comma ∨ (next e o).kind = .closeParen) :
    Takes e arg? (w ++ o) o fun a => a.isSome = true := by
  have hdot : (next e o).kind ≠ .dot := by rcases ho with h | h <;> simp [h]
  have hcolons : (next e o).kind ≠ .doubleColon := by rcases ho with h | h <;> simp [h]
  have heq : (next e o).kind ≠ .eq := by rcases ho with h | h <;> simp [h]
  refine Takes.located (Q := fun f => f.isSome = true) ?_ fun _ _ h => by simpa using h
  refine Takes.peek_bind ?_
  -- a bare constant, or a name with or without a value
  rcases hw with hliteral | hnamed
  · obtain ⟨t, r, rfl, -, hword⟩ := exists_head_of_literal hliteral
    rw [List.cons_append, next_cons, if_neg (by simpa [Phrase.mem_constantWords] using hword)]
    exact (takes_literal hliteral).bind fun v hv => .pure (by simpa using hv)
  · obtain ⟨x, ⟨t, rfl, hkind, hword⟩, y, hy, rfl⟩ := Language.mem_mul.mp hnamed
    have hnext : next e ([t] ++ y ++ o) = t := rfl
    rw [hnext, if_pos (by simp [hkind, Phrase.mem_constantWords, hword]), List.append_assoc]
    refine (takes_ident hkind).bind fun key _ => ?_
    rcases hy with rfl | hy
    · exact .accept_bind_of_ne heq (.pure rfl)
    · obtain ⟨x, ⟨q, rfl, hq⟩, v, hv, rfl⟩ := Language.mem_mul.mp hy
      rw [List.append_assoc]
      exact .accept_bind hq ((takes_value hv hdot hcolons).bind fun _ _ => .pure rfl)

/-- One step through the arguments. -/
def argsStep (acc : List Tree.Arg) : Grammar (List Tree.Arg × Bool) := do
  if ← accept .closeParen then return (acc, false)
  else
    match ← arg? with
    | none =>
      sigil .closeParen
      return (acc, false)
    | some a =>
      if ← accept .comma then return (a :: acc, true)
      else
        sigil .closeParen
        return (a :: acc, false)

theorem args_eq : args = (do
    let acc ← loop argsStep []
    return acc.reverse) := rfl

/-- An argument and all that follow it, up to the closing parenthesis. -/
theorem takes_argsLoop {ws : List (List Token)} {a v : List Token} {p : Token}
    (hws : ∀ w ∈ ws, w ∈ Phrase.sign .comma * Phrase.arg) (ha : a ∈ Phrase.arg)
    (hv : v ∈ Phrase.maybe (Phrase.sign .comma)) (hp : p.kind = .closeParen)
    (acc : List Tree.Arg) :
    Takes e (loop argsStep acc) (a ++ (ws.flatten ++ (v ++ p :: o))) o fun _ => True := by
  -- an argument is never taken for the parenthesis that ends the list
  have hfirst {a i : List Token} (ha : a ∈ Phrase.arg) :
      (next e (a ++ i)).kind ≠ .closeParen := by
    obtain ⟨t, r, rfl, ht⟩ := exists_head_of_arg ha
    exact ht
  induction ws generalizing a acc with
  | nil =>
    rw [List.flatten_nil, List.nil_append]
    rcases hv with rfl | ⟨c, rfl, hc⟩
    · -- the last argument without a comma
      refine .loop_done (.accept_bind_of_ne (hfirst ha) ?_)
      refine (takes_arg? ha (by exact .inr hp)).bind fun x hx => ?_
      obtain ⟨x, rfl⟩ := Option.isSome_iff_exists.mp hx
      refine .accept_bind_of_ne (by simp [hp]) (.sigil_bind hp (.pure ⟨rfl, trivial⟩))
    · -- the last argument with one
      refine .loop_more (m := p :: o) (.accept_bind_of_ne (hfirst ha) ?_)
        (by simp only [List.length_append, List.length_cons]; omega)
      refine (takes_arg? ha (by exact .inl hc)).bind fun x hx => ?_
      obtain ⟨x, rfl⟩ := Option.isSome_iff_exists.mp hx
      refine .accept_bind hc (.pure ⟨rfl, .loop_done (.accept_bind hp (.pure ⟨rfl, trivial⟩))⟩)
  | cons w ws ih =>
    obtain ⟨x, ⟨c, rfl, hc⟩, b, hb, rfl⟩ := Language.mem_mul.mp (hws w (List.mem_cons_self ..))
    have ih := ih (fun w hw => hws w (List.mem_cons_of_mem _ hw)) hb
    rw [List.flatten_cons, List.append_assoc, List.append_assoc]
    refine .loop_more (m := b ++ (ws.flatten ++ (v ++ p :: o)))
      (.accept_bind_of_ne (hfirst ha) ?_)
      (by simp only [List.length_append, List.length_cons]; omega)
    refine (takes_arg? ha (by exact .inl hc)).bind fun x hx => ?_
    obtain ⟨x, rfl⟩ := Option.isSome_iff_exists.mp hx
    exact .accept_bind hc (.pure ⟨rfl, ih (x :: acc)⟩)

/-- The arguments up to the parenthesis that ends them, of which there may be none. -/
theorem takes_args {w : List Token} (hw : w ∈ Phrase.maybe Phrase.args * Phrase.sign .closeParen) :
    Takes e args (w ++ o) o fun _ => True := by
  obtain ⟨x, hx, y, ⟨p, rfl, hp⟩, rfl⟩ := Language.mem_mul.mp hw
  rw [List.append_assoc]
  have hloop : Takes e (loop argsStep []) (x ++ p :: o) o fun _ => True := by
    -- no argument, or one and then more of them, each behind a comma
    rcases hx with rfl | hx
    · exact .loop_done (.accept_bind hp (.pure ⟨rfl, trivial⟩))
    · obtain ⟨z, hz, v, hv, rfl⟩ := Language.mem_mul.mp hx
      obtain ⟨a, ha, b, hb, rfl⟩ := Language.mem_mul.mp hz
      obtain ⟨ws, rfl, hws⟩ := Language.mem_kstar.mp hb
      rw [List.append_assoc, List.append_assoc]
      exact takes_argsLoop hws ha hv hp []
  rw [args_eq]
  exact hloop.bind fun acc _ => .pure trivial

/-- What is left behind a semicolon, if there is one. -/
def skipSemicolon : List Token → List Token
  | [] => []
  | t :: r => if t.kind = .semicolon then r else t :: r

theorem skipSemicolon_of_ne (h : (next e o).kind ≠ .semicolon) : skipSemicolon o = o := by
  cases o with
  | nil => rfl
  | cons t r => exact if_neg h

/-- An annotation takes the semicolon that follows it. -/
theorem takes_annot (he : e.kind = .eof) {w : List Token} (hw : w ∈ Phrase.bareAnnot)
    (hdot : (next e o).kind ≠ .dot) (hcolons : (next e o).kind ≠ .doubleColon)
    (hparen : (next e o).kind ≠ .openParen) :
    Takes e annot (w ++ o) (skipSemicolon o) fun _ => True := by
  obtain ⟨x, hx, args, hargs, rfl⟩ := Language.mem_mul.mp hw
  obtain ⟨y, ⟨t, rfl, ht⟩, name, hname, rfl⟩ := Language.mem_mul.mp hx
  refine Takes.located (Q := fun _ => True) ?_ fun _ _ _ => trivial
  rw [List.append_assoc, List.append_assoc]
  refine .sigil_bind ht ?_
  -- a semicolon behind an annotation belongs to it, with arguments and without
  have hend (p : Tree.Path) (a : Option (List Tree.Arg)) : Takes e (do
      let _ ← accept .semicolon
      return (p, a)) o (skipSemicolon o) fun _ => True := by
    cases o with
    | nil => exact .accept_bind_of_ne (by simp [he]) (.pure trivial)
    | cons s r =>
      by_cases hs : s.kind = .semicolon
      · rw [skipSemicolon, if_pos hs]
        exact .accept_bind hs (.pure trivial)
      · rw [skipSemicolon, if_neg hs]
        exact .accept_bind_of_ne hs (.pure trivial)
  -- without arguments no parenthesis may follow
  rcases hargs with rfl | hargs
  · refine (takes_path hname hdot hcolons).bind fun p _ => .accept_bind_of_ne hparen ?_
    exact hend p none
  · rw [mul_assoc] at hargs
    obtain ⟨z, ⟨q, rfl, hq⟩, a, ha, rfl⟩ := Language.mem_mul.mp hargs
    have hq : q.kind = .openParen := hq
    rw [List.append_assoc]
    refine (takes_path hname (by simp [hq]) (by simp [hq])).bind fun p _ => .accept_bind hq ?_
    exact ((takes_args ha).map (R := fun _ => True) fun _ _ => trivial).bind fun a _ => hend p a

/-- An annotation begins with its sign. -/
theorem exists_head_of_bareAnnot {w : List Token} (hw : w ∈ Phrase.bareAnnot) :
    ∃ t r, w = t :: r ∧ t.kind = .atSign := by
  obtain ⟨x, hx, y, -, rfl⟩ := Language.mem_mul.mp hw
  obtain ⟨z, ⟨t, rfl, ht⟩, u, -, rfl⟩ := Language.mem_mul.mp hx
  exact ⟨t, u ++ y, by simp, ht⟩

/-- What may stand in front of a declaration is semicolons and annotations. -/
theorem front_le : Phrase.front ≤ (Phrase.sign .semicolon + Phrase.bareAnnot)∗ := by
  let K : Language Token := (Phrase.sign .semicolon + Phrase.bareAnnot)∗
  obtain ⟨hsemicolon, hbare⟩ : Phrase.sign .semicolon ≤ K ∧ Phrase.bareAnnot ≤ K :=
    add_le_iff.mp le_kstar
  -- an annotation may have its semicolon
  have hannot : Phrase.annot ≤ K := calc
    Phrase.annot ≤ K * K := mul_le_mul' hbare (add_le one_le_kstar hsemicolon)
    _ = K := kstar_mul_kstar _
  have hmore : (Phrase.sign .semicolon + Phrase.annot)∗ ≤ K := calc
    (Phrase.sign .semicolon + Phrase.annot)∗ ≤ K∗ := kstar_mono (add_le hsemicolon hannot)
    _ = K := kstar_idem _
  refine add_le one_le_kstar ?_
  calc
    Phrase.annot * (Phrase.sign .semicolon + Phrase.annot)∗ ≤ K * K := mul_le_mul' hannot hmore
    _ = K := kstar_mul_kstar _

/-- The kinds of tokens that could prolong an annotation. -/
def annotContinuations : List TokenKind := [.dot, .doubleColon, .openParen, .semicolon]

/-- A loop takes what stands in front of a declaration, and comes to the declaration in a state of
which no more is known than what annotations and semicolons keep. -/
theorem Backward.front {step : σ → Grammar (σ × Bool)} {P : σ → List Token → Prop}
    (hP : Backward e step P) (he : e.kind = .eof) {I : σ → Prop}
    (hannot : ∀ s, I s → ∀ t i m, t.kind = .atSign → Takes e annot (t :: i) m (fun _ => True) →
      Takes e (step s) (t :: i) m fun x => x.2 = true ∧ I x.1)
    (hsemicolon : ∀ s, I s → ∀ t i, t.kind = .semicolon →
      Takes e (step s) (t :: i) i fun x => x.2 = true ∧ I x.1)
    (hi : (next e i).kind ∉ annotContinuations) (hrest : ∀ s, I s → P s i) {w : List Token}
    (hw : w ∈ Phrase.front) : ∀ s, I s → P s (w ++ i) := by
  obtain ⟨ws, rfl, hws⟩ := Language.mem_kstar.mp (front_le hw)
  clear hw
  -- an annotation is followed by a semicolon, another annotation or the declaration
  have hfollow {ws : List (List Token)}
      (hws : ∀ w ∈ ws, w ∈ Phrase.sign .semicolon + Phrase.bareAnnot) :
      (next e (ws.flatten ++ i)).kind ∉ [.dot, .doubleColon, .openParen] := by
    cases ws with
    | nil =>
      simp only [annotContinuations, List.mem_cons, List.not_mem_nil] at hi
      simp only [List.flatten_nil, List.nil_append, List.mem_cons, List.not_mem_nil]
      tauto
    | cons w ws =>
      rcases hws w (List.mem_cons_self ..) with ⟨t, rfl, ht⟩ | hw
      · simp [show t.kind = .semicolon from ht]
      · obtain ⟨t, r, rfl, ht⟩ := exists_head_of_bareAnnot hw
        simp [ht]
  -- on the number of phrases, since an annotation takes a semicolon behind it as well
  induction hlen : ws.length using Nat.strongRecOn generalizing ws with
  | ind n ih =>
    intro s hs
    cases ws with
    | nil => exact hrest s hs
    | cons w ws =>
      have hws' := fun w hw => hws w (List.mem_cons_of_mem _ hw)
      simp only [List.length_cons] at hlen
      have ihws := ih ws.length (by omega) ws hws' rfl
      rw [List.flatten_cons, List.append_assoc]
      rcases hws w (List.mem_cons_self ..) with ⟨t, rfl, ht⟩ | hw
      · refine hP ((hsemicolon s hs t _ ht).conseq fun x hx => ?_) (by simp)
        exact ⟨hx.1, ihws x.1 hx.2⟩
      · have hkind := hfollow hws'
        have htakes := takes_annot he hw (o := ws.flatten ++ i) (by grind) (by grind) (by grind)
        obtain ⟨t, r, rfl, ht⟩ := exists_head_of_bareAnnot hw
        have hstep := hannot s hs t _ _ ht htakes
        by_cases hnext : (next e (ws.flatten ++ i)).kind = .semicolon
        · -- the semicolon goes with the annotation
          cases ws with
          | nil =>
            have hnext : (next e i).kind = .semicolon := hnext
            simp [hnext, annotContinuations] at hi
          | cons v ws =>
            rcases hws' v (List.mem_cons_self ..) with ⟨t', rfl, ht'⟩ | hv
            · have hskip : skipSemicolon (([t'] :: ws).flatten ++ i) = ws.flatten ++ i := if_pos ht'
              rw [hskip] at hstep
              have ihws := ih ws.length (by simp at hlen; omega) ws
                (fun w hw => hws' w (List.mem_cons_of_mem _ hw)) rfl
              refine hP (hstep.conseq fun x hx => ⟨hx.1, ihws x.1 hx.2⟩) ?_
              simp only [List.flatten_cons, List.length_append, List.length_cons]
              omega
            · obtain ⟨t', r', rfl, ht'⟩ := exists_head_of_bareAnnot hv
              simp [ht'] at hnext
        · rw [skipSemicolon_of_ne hnext] at hstep
          refine hP (hstep.conseq fun x hx => ⟨hx.1, ihws x.1 hx.2⟩) ?_
          simp only [List.length_append, List.length_cons]
          omega

/-! ## §5 Messages -/

/-- The kinds of tokens that could prolong a reference to a type. -/
def typeContinuations : List TokenKind := [.dot, .doubleColon, .lt, .openSquare]

/-- A type is taken if it does not go on behind its end. -/
theorem takes_typeRef {words : List Bytes} {w : List Token} (hw : w ∈ Phrase.typeBut words)
    (ho : (next e o).kind ∉ typeContinuations) : Takes e typeRef (w ++ o) o fun _ => True := by
  simp only [typeContinuations, List.mem_cons, List.not_mem_nil, or_false, not_or] at ho
  obtain ⟨hdot, hcolons, hlt, hsquare⟩ := ho
  refine Takes.located (Q := fun _ => True) ?_ fun _ _ _ => trivial
  have hpath := takes_path hw hdot hcolons
  obtain ⟨x, ⟨t, rfl, hkind, hword⟩, y, -, rfl⟩ := Language.mem_mul.mp hw
  -- the first word is none of those that begin an unsupported type
  have htype : unsupportedType? t.text = none :=
    Phrase.unsupportedType?_eq_none.mpr fun h => hword (List.mem_append_right _ h)
  refine .peek_bind ?_
  have hnext : next e ([t] ++ y ++ o) = t := rfl
  simp only [hnext, hkind, htype]
  refine hpath.bind fun name _ => .peek_bind ?_
  -- neither a map nor a list goes on behind the name
  rw [if_neg (by simp [hlt]), if_neg (by simpa using hsquare)]
  exact .pure trivial

/-- A word is a name with that text. -/
theorem isWord_eq_true {text : Bytes} : t.isWord text = true ↔ t.kind = .ident ∧ t.text = text := by
  simp [Token.isWord]

/-- Another text is another word. -/
theorem isWord_eq_false {text : Bytes} (h : t.text ≠ text) : t.isWord text = false := by
  simp [Token.isWord, h]

/-- A name begins with a word that it may begin with. -/
theorem exists_head_of_pathBut {words : List Bytes} {w : List Token}
    (hw : w ∈ Phrase.pathBut words) :
    ∃ t r, w = t :: r ∧ t.kind = .ident ∧ ∀ word ∈ words, t.text ≠ word := by
  obtain ⟨x, ⟨t, rfl, hkind, hword⟩, y, -, rfl⟩ := Language.mem_mul.mp hw
  exact ⟨t, y, rfl, hkind, fun word hmem h => hword (h ▸ hmem)⟩

/-- The word in front of a field. -/
theorem takes_label {w : List Token} (hw : w ∈ Phrase.label) :
    Takes e label? (w ++ o) o fun _ => True := by
  refine .peek_bind ?_
  rcases hw with ⟨t, rfl, ht⟩ | ⟨t, rfl, ht⟩
  · exact .acceptWord_bind ht (.pure trivial)
  · have hne : t.isWord "optional" = false := by
      refine isWord_eq_false ?_
      rw [(isWord_eq_true.mp ht).2]
      decide
    exact .acceptWord_bind_of_ne hne (.acceptWord_bind ht (.pure trivial))

/-- There need not be one. -/
theorem takes_label_of_ne (hoptional : (next e i).isWord "optional" = false)
    (hrequired : (next e i).isWord "required" = false) : Takes e label? i i fun _ => True :=
  .peek_bind (.acceptWord_bind_of_ne hoptional (.acceptWord_bind_of_ne hrequired (.pure trivial)))

/-- The end of a field behind its type: the name, the question mark and the number. -/
theorem Sequential.fieldTail {P : Grammar (Option Tree.Label × Tree.TypeRef × Tree.Ident × Bool
      × Option Tree.IntLit) → List Token → Prop} (hP : Sequential e P)
    {n : Token} {q u : List Token} (hn : n.kind = .ident)
    (hq : q ∈ Phrase.maybe (Phrase.sign .question))
    (hu : u ∈ Phrase.maybe (Phrase.sign .eq * Phrase.intLit))
    (hquestion : (next e o).kind ≠ .question) (heq : (next e o).kind ≠ .eq)
    {label : Option Tree.Label} {type : Tree.TypeRef}
    (hrest : ∀ name question number, P (do
      if (← peek).kind == .openSquare then failUnsupported .fieldOptions
      else
        sigil .semicolon
        return (label, type, name, question, number)) o) :
    P (do
      let name ← ident
      let question ← accept .question
      let number ← if ← accept .eq then some <$> intLit else Pure.pure none
      if (← peek).kind == .openSquare then failUnsupported .fieldOptions
      else
        sigil .semicolon
        return (label, type, name, question, number)) (n :: (q ++ (u ++ o))) := by
  refine hP (takes_ident hn) fun name _ => ?_
  rcases hu with rfl | hu
  · refine hP (.accept_maybe hq (by simpa using hquestion)) fun question _ => ?_
    refine hP (.accept_of_ne (by simpa using heq)) fun b hb => ?_
    subst hb
    exact hP (.pure (Q := fun _ => True) trivial) fun number _ => hrest ..
  · obtain ⟨_, ⟨x, rfl, hx⟩, l, hl, rfl⟩ := Language.mem_mul.mp hu
    have hx : x.kind = .eq := hx
    refine hP (.accept_maybe hq (by simp [hx])) fun question _ => ?_
    rw [List.append_assoc]
    refine hP (.accept hx) fun b hb => ?_
    subst hb
    exact hP ((takes_intLit hl).map (R := fun _ => True) fun _ _ => trivial)
      fun number _ => hrest ..

/-- A field up to where its semicolon belongs. -/
theorem Sequential.fieldHead {P : Grammar (Option Tree.Label × Tree.TypeRef × Tree.Ident × Bool
      × Option Tree.IntLit) → List Token → Prop}
    (hP : Sequential e P) {w : List Token} (hw : w ∈ Phrase.fieldHead)
    (hquestion : (next e o).kind ≠ .question) (heq : (next e o).kind ≠ .eq)
    (hrest : ∀ label type name question number, P (do
      if (← peek).kind == .openSquare then failUnsupported .fieldOptions
      else
        sigil .semicolon
        return (label, type, name, question, number)) o) :
    P (do
      let label ← label?
      if ← atWord "repeated" then failUnsupported .repeated
      else
        let type ← typeRef
        let name ← ident
        let question ← accept .question
        let number ← if ← accept .eq then some <$> intLit else Pure.pure none
        if (← peek).kind == .openSquare then failUnsupported .fieldOptions
        else
          sigil .semicolon
          return (label, type, name, question, number)) (w ++ o) := by
  obtain ⟨_, hmark, u, hu, rfl⟩ := Language.mem_mul.mp hw
  obtain ⟨_, hname, q, hq, rfl⟩ := Language.mem_mul.mp hmark
  obtain ⟨v, hfront, _, ⟨n, rfl, hn⟩, rfl⟩ := Language.mem_mul.mp hname
  have hn : n.kind = .ident := hn
  -- the type ends where the name begins
  have hfollow : (next e (n :: (q ++ (u ++ o)))).kind ∉ typeContinuations := by
    simp [typeContinuations, hn]
  have hw : v ++ [n] ++ q ++ u ++ o = v ++ (n :: (q ++ (u ++ o))) := by simp
  rw [hw]
  rcases hfront with hlabelled | hbare
  · obtain ⟨l, hl, x, hx, rfl⟩ := Language.mem_mul.mp hlabelled
    have htype := takes_typeRef hx hfollow
    obtain ⟨t, r, rfl, -, hword⟩ := exists_head_of_pathBut hx
    rw [List.append_assoc]
    refine hP (takes_label hl) fun label _ => hP .atWord fun b hb => ?_
    rw [List.cons_append, next_cons, isWord_eq_false (hword _ (List.mem_cons_self ..))] at hb
    subst hb
    exact hP htype fun type _ => hP.fieldTail hn hq hu hquestion heq (hrest label type)
  -- without a label the type begins with none of the words that a field cannot begin with
  · have htype := takes_typeRef hbare hfollow
    obtain ⟨t, r, rfl, -, hword⟩ := exists_head_of_pathBut hbare
    have hne {text : Bytes} (h : text ∈ Phrase.bareFieldWords) : t.isWord text = false :=
      isWord_eq_false (hword text (List.mem_append_left _ h))
    refine hP (takes_label_of_ne (hne (by simp [Phrase.bareFieldWords]))
      (hne (by simp [Phrase.bareFieldWords]))) fun label _ => hP .atWord fun b hb => ?_
    rw [List.cons_append, next_cons,
      hne (by simp [Phrase.bareFieldWords, Phrase.memberWords])] at hb
    subst hb
    exact hP htype fun type _ => hP.fieldTail hn hq hu hquestion heq (hrest label type)

/-- A field begins with a name that may begin a member. -/
theorem exists_head_of_fieldHead {w : List Token} (hw : w ∈ Phrase.fieldHead) :
    ∃ t r, w = t :: r ∧ t.kind = .ident ∧ t.text ∉ Phrase.memberWords := by
  obtain ⟨v, z, rfl, hv⟩ : ∃ v z, w = v ++ z ∧ v ∈ Phrase.label * Phrase.typeBut ["repeated"]
      + Phrase.typeBut Phrase.bareFieldWords := by
    obtain ⟨_, hquestion, u, -, rfl⟩ := Language.mem_mul.mp hw
    obtain ⟨_, hname, q, -, rfl⟩ := Language.mem_mul.mp hquestion
    obtain ⟨v, hfront, n, -, rfl⟩ := Language.mem_mul.mp hname
    exact ⟨v, n ++ (q ++ u), by simp, hfront⟩
  -- with a label, or with a type that begins with no word of another member
  rcases hv with hlabelled | hbare
  · obtain ⟨l, hl, x, -, rfl⟩ := Language.mem_mul.mp hlabelled
    rcases hl with ⟨t, rfl, ht⟩ | ⟨t, rfl, ht⟩
    · refine ⟨t, x ++ z, by simp, (isWord_eq_true.mp ht).1, ?_⟩
      rw [(isWord_eq_true.mp ht).2]
      decide
    · refine ⟨t, x ++ z, by simp, (isWord_eq_true.mp ht).1, ?_⟩
      rw [(isWord_eq_true.mp ht).2]
      decide
  · obtain ⟨t, r, rfl, hkind, hword⟩ := exists_head_of_pathBut hbare
    refine ⟨t, r ++ z, rfl, hkind, fun hmem => hword _ ?_ rfl⟩
    exact List.mem_append_left _ (List.mem_cons_of_mem _ (List.mem_cons_of_mem _ hmem))

/-- A field begins with a word that no other member begins with. -/
theorem exists_head_of_field {w : List Token} (hw : w ∈ Phrase.field) :
    ∃ t r, w = t :: r ∧ t.kind = .ident ∧ t.text ∉ Phrase.memberWords := by
  obtain ⟨v, hv, s, -, rfl⟩ := Language.mem_mul.mp (show w ∈ Phrase.fieldHead * _ from hw)
  obtain ⟨t, r, rfl, hkind, hword⟩ := exists_head_of_fieldHead hv
  exact ⟨t, r ++ s, rfl, hkind, hword⟩

/-- A field is a member of a message, whatever stood in front of it. -/
theorem takes_messageMember {w : List Token} (hw : w ∈ Phrase.field) (annots : List Tree.Annot) :
    Takes e (messageMember annots) (w ++ o) o fun _ => True := by
  obtain ⟨t, r, hwt, hkind, hword⟩ := exists_head_of_field hw
  refine .peek_bind ?_
  have hnext : next e (w ++ o) = t := by rw [hwt]; rfl
  -- so the member is read as a field
  simp only [hnext, hkind, Phrase.unsupportedMember?_eq_none.mpr hword]
  refine Takes.located (Q := fun _ => True) ?_ fun _ _ _ => trivial
  obtain ⟨v, hv, _, ⟨s, rfl, hs⟩, rfl⟩ := Language.mem_mul.mp (show w ∈ Phrase.fieldHead * _ from hw)
  have hs : s.kind = .semicolon := hs
  rw [List.append_assoc]
  refine Takes.sequential.fieldHead hv (by simp [hs]) (by simp [hs])
    fun label type name question number => .peek_bind ?_
  simp only [List.cons_append, next_cons, hs]
  exact .sigil_bind hs (.pure trivial)

/-- Where no annotations are left nothing is wrong. -/
theorem takes_noPending : Takes e (noPending []) i i fun _ => True := .pure trivial

/-- An annotation is one round of the loop over a body. -/
theorem takes_memberStep_annot {member : List Tree.Annot → Grammar α} (s : Members α)
    (ht : t.kind = .atSign) (h : Takes e annot (t :: i) m fun _ => True) :
    Takes e (memberStep member s) (t :: i) m fun x => x.2 = true := by
  refine .peek_bind ?_
  simp only [next_cons, ht]
  exact h.bind fun a _ => .pure rfl

/-- A semicolon is one round, and changes nothing. -/
theorem takes_memberStep_semicolon {member : List Tree.Annot → Grammar α} (s : Members α)
    (ht : t.kind = .semicolon) :
    Takes e (memberStep member s) (t :: i) i fun x => x.2 = true ∧ x.1 = s := by
  refine .peek_bind ?_
  simp only [next_cons, ht]
  exact .advance_bind (.pure ⟨rfl, rfl⟩)

/-- What stands in front of a member leaves any annotations waiting. -/
theorem Backward.memberFront {member : List Tree.Annot → Grammar α}
    {P : Members α → List Token → Prop} (hP : Backward e (memberStep member) P)
    (he : e.kind = .eof) (hi : (next e i).kind ∉ annotContinuations) (hrest : ∀ s, P s i)
    {w : List Token} (hw : w ∈ Phrase.front) (s : Members α) : P s (w ++ i) := by
  refine hP.front he (I := fun _ => True) ?_ ?_ hi (fun s _ => hrest s) hw s trivial
  · exact fun s _ t i m ht h => (takes_memberStep_annot s ht h).conseq fun x hx => ⟨hx, trivial⟩
  · exact fun s _ t i ht => (takes_memberStep_semicolon s ht).conseq fun x hx => ⟨hx.1, trivial⟩

/-- Members and semicolons, before and after which no annotation waits. -/
theorem Backward.members {member : List Tree.Annot → Grammar α}
    {P : Members α → List Token → Prop} (hP : Backward e (memberStep member) P)
    (he : e.kind = .eof) {L : Language Token}
    (hmember : ∀ w ∈ L, ∀ annots o, Takes e (member annots) (w ++ o) o fun _ => True)
    (hhead : ∀ w ∈ L, ∃ t r, w = t :: r ∧ t.kind = .ident)
    (hrest : ∀ s, s.pending = [] → P s i) {w : List Token}
    (hw : w ∈ (Phrase.sign .semicolon + Phrase.front * L)∗) :
    ∀ s, s.pending = [] → P s (w ++ i) := by
  obtain ⟨ws, rfl, hws⟩ := Language.mem_kstar.mp hw
  clear hw
  -- induction on the items between the braces, the rest standing behind them
  induction ws with
  | nil => exact hrest
  | cons w ws ih =>
    intro s hs
    have ih := ih fun w hw => hws w (List.mem_cons_of_mem _ hw)
    rw [List.flatten_cons, List.append_assoc]
    rcases hws w (List.mem_cons_self ..) with ⟨t, rfl, ht⟩ | hw
    · refine hP ((takes_memberStep_semicolon s ht).conseq fun x hx => ⟨hx.1, ?_⟩) (by simp)
      exact ih x.1 (hx.2 ▸ hs)
    -- annotations, then a member, which begins with a name and so continues none of them
    · obtain ⟨front, hfront, m, hm, rfl⟩ := Language.mem_mul.mp hw
      obtain ⟨t, r, hmt, hkind⟩ := hhead m hm
      have hnext : (next e (m ++ (ws.flatten ++ i))).kind = .ident := by
        rw [hmt]
        exact hkind
      rw [List.append_assoc]
      refine hP.memberFront he (by simp [hnext, annotContinuations]) (fun s => ?_) hfront s
      refine hP (m := ws.flatten ++ i) (.peek_bind ?_)
        (by simp only [hmt, List.length_append, List.length_cons]; omega)
      simp only [hnext]
      exact (hmember m hm _ _).bind fun a _ => .pure ⟨rfl, ih _ rfl⟩

/-- A body in braces, given that its members are taken. -/
theorem takes_body (he : e.kind = .eof) {member : List Tree.Annot → Grammar α}
    {L : Language Token}
    (hmember : ∀ w ∈ L, ∀ annots o, Takes e (member annots) (w ++ o) o fun _ => True)
    (hhead : ∀ w ∈ L, ∃ t r, w = t :: r ∧ t.kind = .ident) {w : List Token}
    (hw : w ∈ Phrase.body L) : Takes e (body member) (w ++ o) o fun _ => True := by
  obtain ⟨_, hopen, _, ⟨close, rfl, hclose⟩, rfl⟩ := Language.mem_mul.mp hw
  obtain ⟨_, ⟨start, rfl, hstart⟩, items, hitems, rfl⟩ := Language.mem_mul.mp hopen
  have hclose : close.kind = .closeCurl := hclose
  -- at the closing bracket the loop ends, if no annotation is left over
  have hend (s : Members α) (hs : s.pending = []) :
      Takes e (loop (memberStep member) s) (close :: o) o fun _ => True := by
    refine .loop_done (.peek_bind ?_)
    simp only [next_cons, hclose, hs, List.reverse_nil]
    exact takes_noPending.bind fun _ _ => .advance_bind (.pure ⟨rfl, trivial⟩)
  have hloop := Takes.backward.members he hmember hhead hend hitems {} rfl
  rw [List.append_assoc, List.append_assoc]
  exact .sigil_bind hstart (hloop.bind fun s _ => .pure trivial)

/-- A message is taken, whatever stood in front of it. -/
theorem takes_message (he : e.kind = .eof) {w : List Token} (hw : w ∈ Phrase.message)
    (annots : List Tree.Annot) : Takes e (message annots) (w ++ o) o fun _ => True := by
  obtain ⟨_, hname, b, hb, rfl⟩ := Language.mem_mul.mp hw
  obtain ⟨_, ⟨t, rfl, -⟩, _, ⟨n, rfl, hn⟩, rfl⟩ := Language.mem_mul.mp hname
  refine Takes.located (Q := fun _ => True) ?_ fun _ _ _ => trivial
  rw [List.append_assoc, List.append_assoc]
  refine .advance_bind ((takes_ident hn).bind fun name _ => ?_)
  refine (takes_body he (fun w hw annots o => takes_messageMember hw annots) (fun w hw => ?_) hb).bind
    fun fields _ => .pure trivial
  obtain ⟨t, r, hwt, hkind, -⟩ := exists_head_of_field hw
  exact ⟨t, r, hwt, hkind⟩

/-! ## §6 Services -/

/-- A type between parentheses, which may be missing. -/
theorem takes_parameter {w : List Token}
    (hw : w ∈ Phrase.maybe Phrase.type * Phrase.sign .closeParen) :
    Takes e parameter (w ++ o) o fun _ => True := by
  obtain ⟨x, hx, _, ⟨p, rfl, hp⟩, rfl⟩ := Language.mem_mul.mp hw
  have hp : p.kind = .closeParen := hp
  rw [List.append_assoc]
  rcases hx with rfl | hx
  · exact .accept_bind hp (.pure trivial)
  · have htype := takes_typeRef (e := e) (o := p :: o) hx (by simp [hp, typeContinuations])
    obtain ⟨t, r, rfl, hkind, -⟩ := exists_head_of_pathBut hx
    refine .accept_bind_of_ne (by simp [hkind]) (htype.bind fun type _ => ?_)
    exact .sigil_bind hp (.pure trivial)

/-- What introduces a result: the word or the arrow. -/
theorem takes_outputMark {w : List Token} (hw : w ∈ Phrase.word "returns" + Phrase.sign .arrow) :
    Takes e outputMark (w ++ o) o fun b => b = true := by
  rcases hw with ⟨t, rfl, ht⟩ | ⟨t, rfl, ht⟩
  · exact .acceptWord_bind ht (.pure rfl)
  · have hreturns : t.isWord "returns" = false := by
      simp [Token.isWord, show t.kind = .arrow from ht]
    exact .acceptWord_bind_of_ne hreturns (.accept ht)

/-- The tokens that can follow the output of a method. -/
def EndsOutput (t : Token) : Prop := t.kind = .semicolon ∨ t.kind = .openCurl

/-- The tokens that can follow the input of a method. -/
def EndsInput (t : Token) : Prop :=
  t.isWord "returns" = true ∨ t.kind = .arrow ∨ EndsOutput t

theorem EndsOutput.not_mem (h : EndsOutput t) : t.kind ∉ typeContinuations := by
  rcases h with h | h <;> simp [h, typeContinuations]

theorem EndsInput.not_mem (h : EndsInput t) : t.kind ∉ typeContinuations := by
  rcases h with h | h | h
  · simp [(isWord_eq_true.mp h).1, typeContinuations]
  · simp [h, typeContinuations]
  · exact h.not_mem

/-- What announces an output ends the input. -/
theorem endsInput_of_mark {w : List Token} (hw : w ∈ Phrase.word "returns" + Phrase.sign .arrow) :
    EndsInput (next e (w ++ o)) := by
  rcases hw with ⟨s, rfl, hs⟩ | ⟨s, rfl, hs⟩
  · exact .inl hs
  · exact .inr (.inl hs)

/-- An output, or what follows it, ends the input. -/
theorem endsInput_of_output {w : List Token} (hw : w ∈ Phrase.maybe Phrase.output)
    (ho : EndsOutput (next e o)) : EndsInput (next e (w ++ o)) := by
  rcases hw with rfl | hw
  · exact .inr (.inr ho)
  · obtain ⟨m, hm, y, -, rfl⟩ := Language.mem_mul.mp hw
    rw [List.append_assoc]
    exact endsInput_of_mark hm

/-- The parameter of a method, in parentheses, bare or missing. -/
theorem takes_methodInput {w : List Token} (hw : w ∈ Phrase.maybe Phrase.input)
    (ho : EndsInput (next e o)) : Takes e methodInput (w ++ o) o fun _ => True := by
  -- no parameter, one in parentheses, and a bare one
  rcases hw with rfl | hparens | htype
  · have hparen : (next e o).kind ≠ .openParen := by
      rcases ho with h | h | h | h
      · simp [(isWord_eq_true.mp h).1]
      · simp [h]
      · simp [h]
      · simp [h]
    refine .accept_bind_of_ne hparen (.peek_bind ?_)
    have hnone : ¬((next e o).kind == .ident && (next e o).text != "returns") = true := by
      rcases ho with h | h | h | h
      · simp [(isWord_eq_true.mp h).2]
      · simp [h]
      · simp [h]
      · simp [h]
    rw [List.nil_append, if_neg hnone]
    exact .pure trivial
  · rw [Phrase.parens, mul_assoc] at hparens
    obtain ⟨_, ⟨p, rfl, hp⟩, x, hx, rfl⟩ := Language.mem_mul.mp hparens
    rw [List.append_assoc]
    exact .accept_bind hp (takes_parameter hx)
  · have htakes := takes_typeRef htype ho.not_mem
    obtain ⟨t, r, rfl, hkind, hword⟩ := exists_head_of_pathBut htype
    -- a bare type is not the word that introduces the result
    have hreturns : t.text ≠ "returns" := hword _ (List.mem_cons_self ..)
    refine .accept_bind_of_ne (by simp [hkind]) (.peek_bind ?_)
    rw [List.cons_append, next_cons, if_pos (by simp [hkind, hreturns])]
    exact htakes.map fun _ _ => trivial

/-- The result of a method, in parentheses, bare or missing. -/
theorem takes_methodOutput {w : List Token} (hw : w ∈ Phrase.maybe Phrase.output)
    (ho : EndsOutput (next e o)) : Takes e methodOutput (w ++ o) o fun _ => True := by
  -- no result, or a mark and then a type
  rcases hw with rfl | hw
  · refine .bind (Q := fun b => b = false) (m := o) ?_ fun b hb => ?_
    · have hreturns : (next e o).isWord "returns" = false := by
        rcases ho with h | h <;> simp [Token.isWord, h]
      have harrow : (next e o).kind ≠ .arrow := by rcases ho with h | h <;> simp [h]
      exact .acceptWord_bind_of_ne hreturns (.accept_of_ne harrow)
    · subst hb
      exact .pure trivial
  · obtain ⟨m, hm, x, hx, rfl⟩ := Language.mem_mul.mp hw
    rw [List.append_assoc]
    refine (takes_outputMark hm).bind fun b hb => ?_
    subst hb
    rcases hx with hparens | htype
    · rw [Phrase.parens, mul_assoc] at hparens
      obtain ⟨_, ⟨p, rfl, hp⟩, y, hy, rfl⟩ := Language.mem_mul.mp hparens
      rw [List.append_assoc]
      exact .accept_bind hp (takes_parameter hy)
    · have htakes := takes_typeRef htype ho.not_mem
      obtain ⟨t, r, rfl, hkind, -⟩ := exists_head_of_pathBut htype
      exact .accept_bind_of_ne (by simp [hkind]) (htakes.map fun _ _ => trivial)

/-- A method ends in a semicolon or in an empty block. -/
theorem takes_methodEnd {w : List Token} (hw : w ∈ Phrase.methodEnd) :
    Takes e methodEnd (w ++ o) o fun _ => True := by
  rcases hw with ⟨s, rfl, hs⟩ | hw
  · have hs : s.kind = .semicolon := hs
    exact .accept_bind_of_ne (by simp [hs]) (.sigil hs)
  · rw [mul_assoc] at hw
    obtain ⟨_, ⟨q, rfl, hq⟩, x, hx, rfl⟩ := Language.mem_mul.mp hw
    obtain ⟨_, hitems, _, ⟨p, rfl, hp⟩, rfl⟩ := Language.mem_mul.mp hx
    obtain ⟨ws, rfl, hws⟩ := Language.mem_kstar.mp hitems
    have hp : p.kind = .closeCurl := hp
    rw [List.append_assoc, List.append_assoc]
    -- the block holds semicolons only; anything else would have to be an option, which is refused
    change Takes e methodEnd (q :: (ws.flatten ++ p :: o)) o _
    refine .accept_bind hq ?_
    clear hw hx hitems
    induction ws with
    | nil =>
      refine .loop_done (.accept_bind_of_ne (by simp [hp]) (.atWord_bind ?_))
      have hoption : (next e ([].flatten ++ p :: o)).isWord "option" = false := by
        simp [Token.isWord, hp]
      rw [hoption]
      exact .sigil_bind hp (.pure ⟨rfl, trivial⟩)
    | cons w ws ih =>
      obtain ⟨s, rfl, hs⟩ := hws w (List.mem_cons_self ..)
      have ih := ih fun w hw => hws w (List.mem_cons_of_mem _ hw)
      rw [List.flatten_cons, List.append_assoc]
      exact .loop_more (.accept_bind hs (.pure ⟨rfl, ih⟩)) (by simp)

/-- A method is taken, whatever stood in front of it. -/
theorem takes_method {w : List Token} (hw : w ∈ Phrase.method) (annots : List Tree.Annot) :
    Takes e (serviceMember annots) (w ++ o) o fun _ => True := by
  obtain ⟨_, houtput, x, hx, rfl⟩ := Language.mem_mul.mp hw
  obtain ⟨_, hinput, out, hout, rfl⟩ := Language.mem_mul.mp houtput
  obtain ⟨_, hname, inp, hinp, rfl⟩ := Language.mem_mul.mp hinput
  obtain ⟨_, ⟨t, rfl, ht⟩, _, ⟨n, rfl, hn⟩, rfl⟩ := Language.mem_mul.mp hname
  -- what ends a method also ends its result
  have hends : EndsOutput (next e (x ++ o)) := by
    rcases hx with ⟨s, rfl, hs⟩ | hx
    · exact .inl hs
    · rw [mul_assoc] at hx
      obtain ⟨_, ⟨q, rfl, hq⟩, y, -, rfl⟩ := Language.mem_mul.mp hx
      exact .inr hq
  have hw : [t] ++ [n] ++ inp ++ out ++ x ++ o = t :: n :: (inp ++ (out ++ (x ++ o))) := by simp
  rw [hw]
  refine .atWord_bind ?_
  rw [next_cons, if_pos (by exact ht)]
  refine Takes.located (Q := fun _ => True) ?_ fun _ _ _ => trivial
  refine .advance_bind ((takes_ident hn).bind fun name _ => ?_)
  refine (takes_methodInput hinp (endsInput_of_output hout hends)).bind fun input _ => ?_
  refine (takes_methodOutput hout hends).bind fun output _ => ?_
  exact (takes_methodEnd hx).bind fun _ _ => .pure trivial

/-- A method begins with a word. -/
theorem exists_head_of_method {w : List Token} (hw : w ∈ Phrase.method) :
    ∃ t r, w = t :: r ∧ t.kind = .ident := by
  rw [Phrase.method, mul_assoc, mul_assoc, mul_assoc] at hw
  obtain ⟨_, ⟨t, rfl, ht⟩, y, -, rfl⟩ := Language.mem_mul.mp hw
  exact ⟨t, y, rfl, (isWord_eq_true.mp ht).1⟩

/-- A service is taken, whatever stood in front of it. -/
theorem takes_service (he : e.kind = .eof) {w : List Token} (hw : w ∈ Phrase.service)
    (annots : List Tree.Annot) : Takes e (service annots) (w ++ o) o fun _ => True := by
  obtain ⟨_, hname, b, hb, rfl⟩ := Language.mem_mul.mp hw
  obtain ⟨_, ⟨t, rfl, -⟩, _, ⟨n, rfl, hn⟩, rfl⟩ := Language.mem_mul.mp hname
  refine Takes.located (Q := fun _ => True) ?_ fun _ _ _ => trivial
  rw [List.append_assoc, List.append_assoc]
  refine .advance_bind ((takes_ident hn).bind fun name _ => ?_)
  exact (takes_body he (fun w hw annots o => takes_method hw annots)
    (fun w => exists_head_of_method) hb).bind fun methods _ => .pure trivial

/-! ## §7 Files -/

/-- A token is one word only. -/
theorem isWord_of_isWord {a b : Bytes} (h : t.isWord a = true) (hab : a ≠ b) :
    t.isWord b = false :=
  isWord_eq_false fun hb => hab ((isWord_eq_true.mp h).2.symm.trans hb)

/-- A statement that is not an annotation or a semicolon. -/
theorem takes_fileStep {d : Draft} {Q : Draft → Prop} (ht : t.kind = .ident)
    (h : Takes e (statement d) (t :: i) o Q) :
    Takes e (fileStep d) (t :: i) o fun x => x.2 = true ∧ Q x.1 := by
  refine .peek_bind ?_
  simp only [next_cons, ht]
  exact h.bind fun d' hd' => .pure ⟨rfl, hd'⟩

/-- A declaration is one round of the loop over a file, and leaves no annotations behind. -/
theorem takes_decl (he : e.kind = .eof) {w : List Token} (hw : w ∈ Phrase.message + Phrase.service)
    (d : Draft) : Takes e (fileStep d) (w ++ o) o fun x =>
      x.2 = true ∧ x.1.package = d.package ∧ x.1.pending = [] := by
  rcases hw with hw | hw
  · have hmessage := takes_message (e := e) (o := o) he hw d.pending.reverse
    rw [Phrase.message, mul_assoc] at hw
    obtain ⟨_, ⟨t, rfl, ht⟩, y, -, rfl⟩ := Language.mem_mul.mp hw
    refine takes_fileStep (Q := fun d' => d'.package = d.package ∧ d'.pending = [])
      (isWord_eq_true.mp ht).1 (.peek_bind ?_)
    rw [next_cons, if_pos ht]
    exact hmessage.bind fun m _ => .pure ⟨rfl, rfl⟩
  · have hservice := takes_service (e := e) (o := o) he hw d.pending.reverse
    rw [Phrase.service, mul_assoc] at hw
    obtain ⟨_, ⟨t, rfl, ht⟩, y, -, rfl⟩ := Language.mem_mul.mp hw
    refine takes_fileStep (Q := fun d' => d'.package = d.package ∧ d'.pending = [])
      (isWord_eq_true.mp ht).1 (.peek_bind ?_)
    -- the words are told apart, and that of a message is asked for first
    have hmessage : t.isWord "message" = false := isWord_of_isWord ht (by decide)
    rw [next_cons, hmessage, if_neg (by simp), if_pos ht]
    exact hservice.bind fun m _ => .pure ⟨rfl, rfl⟩

/-- A declaration begins with a word. -/
theorem exists_head_of_decl {w : List Token} (hw : w ∈ Phrase.message + Phrase.service) :
    ∃ t r, w = t :: r ∧ t.kind = .ident := by
  rcases hw with hw | hw
  · rw [Phrase.message, mul_assoc] at hw
    obtain ⟨_, ⟨t, rfl, ht⟩, y, -, rfl⟩ := Language.mem_mul.mp hw
    exact ⟨t, y, rfl, (isWord_eq_true.mp ht).1⟩
  · rw [Phrase.service, mul_assoc] at hw
    obtain ⟨_, ⟨t, rfl, ht⟩, y, -, rfl⟩ := Language.mem_mul.mp hw
    exact ⟨t, y, rfl, (isWord_eq_true.mp ht).1⟩

/-- A statement before which no annotation may wait. -/
theorem takes_other {d : Draft} {Q : Draft → Prop} {text : Bytes} (hd : d.pending = [])
    (ht : t.isWord text = true) (hmessage : text ≠ "message") (hservice : text ≠ "service")
    (h : Takes e (do
      if t.isWord "package" then
        let p ← package
        if d.package.isSome then fail (.atToken .duplicatePackage t)
        else return { d with package := some p }
      else if t.isWord "syntax" then return { d with version := some (← version) }
      else if t.isWord "option" then return { d with options := (← setting) :: d.options }
      else if t.isWord "import" then failUnsupported .importing
      else if t.isWord "extend" then failUnsupported .extend
      else if t.isWord "enum" then failUnsupported .enum
      else failExpected .declaration) (t :: i) o Q) :
    Takes e (fileStep d) (t :: i) o fun x => x.2 = true ∧ Q x.1 := by
  refine takes_fileStep (isWord_eq_true.mp ht).1 (.peek_bind ?_)
  -- nothing is pending, so the check for annotations lets the statement through
  have hnone : d.pending.reverse = [] := by rw [hd, List.reverse_nil]
  rw [next_cons, isWord_of_isWord ht hmessage, if_neg (by simp), isWord_of_isWord ht hservice,
    if_neg (by simp), hnone]
  exact takes_noPending.bind fun _ _ => h

/-- The package is one round, unless there is one already. -/
theorem takes_package {w : List Token} (hw : w ∈ Phrase.package) {d : Draft}
    (hd : d.pending = []) (hnone : d.package.isSome = false) :
    Takes e (fileStep d) (w ++ o) o fun x =>
      x.2 = true ∧ x.1.package.isSome = true ∧ x.1.pending = [] := by
  rw [Phrase.package, mul_assoc] at hw
  obtain ⟨_, ⟨t, rfl, ht⟩, y, hy, rfl⟩ := Language.mem_mul.mp hw
  obtain ⟨n, hn, _, ⟨s, rfl, hs⟩, rfl⟩ := Language.mem_mul.mp hy
  have hs : s.kind = .semicolon := hs
  rw [List.append_assoc, List.append_assoc]
  refine takes_other (Q := fun d' => d'.package.isSome = true ∧ d'.pending = []) hd ht (by decide)
    (by decide) ?_
  rw [if_pos ht]
  refine .bind (Q := fun _ => True) (m := o) (Takes.located (Q := fun _ => True) ?_
    fun _ _ _ => trivial) fun p _ => ?_
  · refine .advance_bind ((takes_path hn (by simp [hs]) (by simp [hs])).bind fun name _ => ?_)
    exact .sigil_bind hs (.pure trivial)
  · -- there was no package before, so that this one is kept
    rw [hnone, if_neg (by simp)]
    exact .pure ⟨rfl, hd⟩

/-- The version is one round. -/
theorem takes_version {w : List Token} (hw : w ∈ Phrase.version) {d : Draft}
    (hd : d.pending = []) : Takes e (fileStep d) (w ++ o) o fun x =>
      x.2 = true ∧ x.1.package = d.package ∧ x.1.pending = [] := by
  rw [Phrase.version, mul_assoc, mul_assoc] at hw
  obtain ⟨_, ⟨t, rfl, ht⟩, y, hy, rfl⟩ := Language.mem_mul.mp hw
  obtain ⟨_, ⟨q, rfl, hq⟩, z, hz, rfl⟩ := Language.mem_mul.mp hy
  obtain ⟨v, hv, _, ⟨s, rfl, hs⟩, rfl⟩ := Language.mem_mul.mp hz
  rw [List.append_assoc, List.append_assoc, List.append_assoc]
  refine takes_other (Q := fun d' => d'.package = d.package ∧ d'.pending = []) hd ht (by decide)
    (by decide) ?_
  rw [isWord_of_isWord ht (by decide), if_neg (by simp), if_pos ht]
  refine .bind (Q := fun _ => True) (m := o) ?_ fun l _ => .pure ⟨rfl, hd⟩
  refine .advance_bind (.sigil_bind hq ((takes_textLit hv).bind fun l hl => ?_))
  refine .sigil_bind hs ?_
  -- the text is the one version there is
  rw [if_pos (by simpa using hl)]
  exact .pure trivial

/-- An option is one round. -/
theorem takes_setting {w : List Token} (hw : w ∈ Phrase.setting) {d : Draft}
    (hd : d.pending = []) : Takes e (fileStep d) (w ++ o) o fun x =>
      x.2 = true ∧ x.1.package = d.package ∧ x.1.pending = [] := by
  rw [Phrase.setting, mul_assoc, mul_assoc, mul_assoc] at hw
  obtain ⟨_, ⟨t, rfl, ht⟩, y, hy, rfl⟩ := Language.mem_mul.mp hw
  obtain ⟨n, hn, z, hz, rfl⟩ := Language.mem_mul.mp hy
  obtain ⟨_, ⟨q, rfl, hq⟩, x, hx, rfl⟩ := Language.mem_mul.mp hz
  obtain ⟨v, hv, _, ⟨s, rfl, hs⟩, rfl⟩ := Language.mem_mul.mp hx
  -- the sign and the semicolon end the name and the value
  have hq : q.kind = .eq := hq
  have hs : s.kind = .semicolon := hs
  rw [List.append_assoc, List.append_assoc, List.append_assoc, List.append_assoc]
  refine takes_other (Q := fun d' => d'.package = d.package ∧ d'.pending = []) hd ht (by decide)
    (by decide) ?_
  -- this is the third of the words asked for
  rw [isWord_of_isWord ht (by decide), if_neg (by simp), isWord_of_isWord ht (by decide),
    if_neg (by simp), if_pos ht]
  refine .bind (Q := fun _ => True) (m := o) (Takes.located (Q := fun _ => True) ?_
    fun _ _ _ => trivial) fun l _ => .pure ⟨rfl, hd⟩
  refine .advance_bind ((takes_path hn (by simp [hq]) (by simp [hq])).bind fun name _ => ?_)
  refine .sigil_bind hq ((takes_value hv (by simp [hs]) (by simp [hs])).bind fun value _ => ?_)
  exact .sigil_bind hs (.pure trivial)

/-- An annotation is one round. -/
theorem takes_fileStep_annot (d : Draft) (ht : t.kind = .atSign)
    (h : Takes e annot (t :: i) m fun _ => True) :
    Takes e (fileStep d) (t :: i) m fun x => x.2 = true ∧ x.1.package = d.package := by
  refine .peek_bind ?_
  simp only [next_cons, ht]
  exact h.bind fun a _ => .pure ⟨rfl, rfl⟩

/-- A semicolon is one round, and changes nothing. -/
theorem takes_fileStep_semicolon (d : Draft) (ht : t.kind = .semicolon) :
    Takes e (fileStep d) (t :: i) i fun x => x.2 = true ∧ x.1 = d := by
  refine .peek_bind ?_
  simp only [next_cons, ht]
  exact .advance_bind (.pure ⟨rfl, rfl⟩)

/-- What stands in front of a declaration leaves the package as it was. -/
theorem Backward.fileFront {P : Draft → List Token → Prop} (hP : Backward e fileStep P)
    (he : e.kind = .eof) {b : Bool} (hi : (next e i).kind ∉ annotContinuations)
    (hrest : ∀ d, d.package.isSome = b → P d i) {w : List Token} (hw : w ∈ Phrase.front) :
    ∀ d, d.package.isSome = b → P d (w ++ i) := by
  refine hP.front he ?_ ?_ hi hrest hw
  · exact fun d hseen t i m ht h =>
      (takes_fileStep_annot d ht h).conseq fun x hx => ⟨hx.1, hx.2 ▸ hseen⟩
  · exact fun d hseen t i ht =>
      (takes_fileStep_semicolon d ht).conseq fun x hx => ⟨hx.1, hx.2 ▸ hseen⟩

/-- Statements, after which no annotation waits and the package is as it was. -/
theorem Backward.statements {P : Draft → List Token → Prop} (hP : Backward e fileStep P)
    (he : e.kind = .eof) {b : Bool}
    (hrest : ∀ d, d.pending = [] → d.package.isSome = b → P d i)
    {w : List Token} (hw : w ∈ Phrase.statement∗) :
    ∀ d, d.pending = [] → d.package.isSome = b → P d (w ++ i) := by
  obtain ⟨ws, rfl, hws⟩ := Language.mem_kstar.mp hw
  clear hw
  induction ws with
  | nil => exact hrest
  | cons w ws ih =>
    intro d hd hseen
    have ih := ih fun w hw => hws w (List.mem_cons_of_mem _ hw)
    -- a statement leaves no annotation waiting, and the package as it was
    have hnext {x : Draft × Bool} (hx : x.2 = true ∧ x.1.package = d.package ∧ x.1.pending = []) :
        x.2 = true ∧ P x.1 (ws.flatten ++ i) := ⟨hx.1, ih x.1 hx.2.2 (hx.2.1 ▸ hseen)⟩
    have hlt {w : List Token} (hw : w ≠ []) :
        (ws.flatten ++ i).length < (w ++ (ws.flatten ++ i)).length := by
      have := List.length_pos_iff.mpr hw
      simp only [List.length_append]
      omega
    rw [List.flatten_cons, List.append_assoc]
    rcases hws w (List.mem_cons_self ..) with ((⟨t, rfl, ht⟩ | hversion) | hsetting) | hdecl
    · refine hP ((takes_fileStep_semicolon d ht).conseq fun x hx => hnext ⟨hx.1, ?_, ?_⟩)
        (hlt (by simp))
      · rw [hx.2]
      · rw [hx.2, hd]
    · exact hP ((takes_version hversion hd).conseq fun x => hnext)
        (hlt (Phrase.version_ne_nil w hversion))
    · exact hP ((takes_setting hsetting hd).conseq fun x => hnext)
        (hlt (Phrase.setting_ne_nil w hsetting))
    · obtain ⟨front, hfront, m, hm, rfl⟩ := Language.mem_mul.mp hdecl
      obtain ⟨t, r, rfl, hkind⟩ := exists_head_of_decl hm
      rw [List.append_assoc]
      refine hP.fileFront he (by simp [hkind, annotContinuations]) (fun d hseen => ?_) hfront d hseen
      refine hP ((takes_decl he hm d).conseq fun x hx => ?_) (hlt (by simp))
      exact ⟨hx.1, ih x.1 hx.2.2 (hx.2.1 ▸ hseen)⟩

/-- Statements from the start, after which it is known whether the package statement is among
them. -/
theorem Backward.file {P : Draft → List Token → Prop} (hP : Backward e fileStep P)
    (he : e.kind = .eof) {seen : Bool} {w : List Token} (hw : w ∈ Phrase.statements seen)
    (hrest : ∀ d, d.pending = [] → d.package.isSome = seen → P d i) : P {} (w ++ i) := by
  cases seen with
  -- no clause of the package at all
  | false => exact hP.statements he hrest hw {} rfl rfl
  | true =>
    obtain ⟨_, hxy, z, hz, rfl⟩ := Language.mem_mul.mp hw
    obtain ⟨x, hx, y, hy, rfl⟩ := Language.mem_mul.mp hxy
    -- one such clause, with statements before it and behind it
    have hne := List.length_pos_iff.mpr (Phrase.package_ne_nil y hy)
    rw [List.append_assoc, List.append_assoc]
    refine hP.statements he (b := false) (fun d hd hnone => ?_) hx {} rfl rfl
    refine hP ((takes_package hy hd hnone).conseq fun x hx => ⟨hx.1, ?_⟩)
      (by simp only [List.length_append]; omega)
    exact hP.statements he hrest hz x.1 hx.2.2 hx.2.1

/-- A file is taken as a whole, with its package statement if there has to be one. -/
theorem takes_file (he : e.kind = .eof) {requirePackage : Bool} {w : List Token}
    (hw : w ∈ Phrase.file requirePackage) (s : Nat) :
    ∃ f s', file requirePackage ⟨w, .ok e, s⟩ = .ok (f, ⟨[], .ok e, s'⟩)
      ∧ (requirePackage = true → f.package.isSome = true) := by
  obtain ⟨seen, hseen, hw⟩ := Phrase.mem_file.mp hw
  have hend (d : Draft) (hpending : d.pending = []) (hpackage : d.package.isSome = seen) :
      Takes e (loop fileStep d) [] [] fun d =>
        d.pending = [] ∧ (requirePackage = true → d.package.isSome = true) := by
    refine .loop_done (.peek_bind ?_)
    simp only [next_nil, he]
    exact .pure ⟨rfl, hpending, fun h => hpackage.trans (hseen h)⟩
  have hloop := Takes.backward.file he hw hend
  rw [List.append_nil] at hloop
  refine Takes.run (Q := fun f : Tree.File => requirePackage = true → f.package.isSome = true) ?_ s
  refine .get_bind fun start => hloop.bind fun d hd => ?_
  obtain ⟨hpending, hpackage⟩ := hd
  have hnone : d.pending.reverse = [] := by rw [hpending, List.reverse_nil]
  -- a package that is required is there
  have hmissing : ¬(requirePackage && d.package.isNone) = true := by
    intro h
    obtain ⟨hrequire, hnone⟩ := Bool.and_eq_true_iff.mp h
    have hsome := hpackage hrequire
    rw [Option.isNone_iff_eq_none.mp hnone] at hsome
    cases hsome
  rw [hnone]
  refine takes_noPending.bind fun _ _ => .peek_bind ?_
  rw [if_neg hmissing]
  exact .get_bind fun _ => .pure hpackage

end Grammar

end Idl

/-! ## §8 The language -/

namespace Idl

/-- The position before the significant tokens of a source. -/
theorem significant_proper {src : Bytes} {l : Lexed} (h : lex src = .ok l) :
    Cursor.Proper ⟨l.significant, l.ending, 0⟩ where
  rest t ht := lex_ne_eof h t (List.mem_filter.mp ht).1
  ending _ he := (lex_lexes h he).2.1

/-- A file that is read comes from a source that is cut into tokens. -/
theorem exists_of_parseFile_eq_ok {src : Bytes} {allowMissingPackage : Bool} {d : Tree.File}
    (h : parseFile src allowMissingPackage = .ok d) :
    ∃ l c, lex src = .ok l
      ∧ Grammar.file (!allowMissingPackage) ⟨l.significant, l.ending, 0⟩ = .ok (d, c) := by
  cases hlex : lex src with
  | error e => simp [parseFile, Grammar.run, hlex, bind, Except.bind] at h
  | ok l =>
    rw [parseFile_of_lex hlex] at h
    cases hfile : Grammar.file (!allowMissingPackage) ⟨l.significant, l.ending, 0⟩ with
    | error e => simp [hfile, Except.map] at h
    | ok x =>
      simp only [hfile, Except.map, Except.ok.injEq] at h
      exact ⟨l, x.2, rfl, by rw [← h, hfile]⟩

/-- The grammar accepts exactly its language: a source is read as a file if and only if it can be
cut into tokens to its end and its significant tokens form a file, with one package statement, or
with at most one where it may be missing. -/
theorem parseFile_eq_ok_iff (src : Bytes) (allowMissingPackage : Bool) :
    (∃ d, parseFile src allowMissingPackage = .ok d)
      ↔ ∃ l e, lex src = .ok l ∧ l.ending = .ok e
        ∧ l.significant ∈ Phrase.file (!allowMissingPackage) := by
  constructor
  · rintro ⟨d, hd⟩
    obtain ⟨l, c, hlex, hfile⟩ := exists_of_parseFile_eq_ok hd
    obtain ⟨⟨e, he⟩, hmem, -⟩ := Grammar.file_sound (significant_proper hlex) hfile
    exact ⟨l, e, hlex, he, hmem⟩
  · -- the other way: a sequence of tokens that is a file is taken as a whole
    rintro ⟨l, e, hlex, he, hmem⟩
    obtain ⟨d, s, hfile, -⟩ := Grammar.takes_file (lex_lexes hlex he).2.1 hmem 0
    refine ⟨d, ?_⟩
    rw [parseFile_of_lex hlex, he, hfile]
    rfl

end Idl
