import Idl.Proofs.Grammar.Completeness
import Idl.Proofs.Spelling.Forms

/-!
# Reading given lexemes

What a piece of grammar makes of given lexemes, where it succeeds, and the rules of this judgement:
one for each way in which pieces of grammar are put together.

* §1 reading, §2 rules.
-/

namespace Idl

namespace Grammar

variable {α β σ : Type} {i m o r : List Lexeme} {x : Lexeme}

/-! ## §1 Reading -/

/-- Where a piece of grammar succeeds on some lexemes, it leaves others and its result satisfies a
condition. -/
def Yields (p : Grammar α) (i o : List Lexeme) (Q : α → Prop) : Prop :=
  ∀ c : Cursor, c.Proper → c.rest.map Token.lexeme = i → ∀ a d, p c = .ok (a, d) →
    d.Proper ∧ d.rest.map Token.lexeme = o ∧ Q a

/-- The kind of the next token. -/
def nextKind (i : List Lexeme) : TokenKind := (i.head?.map (·.1)).getD .eof

@[simp] theorem nextKind_nil : nextKind [] = .eof := rfl

@[simp] theorem nextKind_cons (x : Lexeme) (i : List Lexeme) : nextKind (x :: i) = x.1 := rfl

/-- The next token is a given word. -/
def NextWord (i : List Lexeme) (word : Bytes) : Prop := i.head? = some (.ident, word)

/-- The text of a token of which the lexeme has one. -/
theorem text_of_lexeme {t : Token} {kind : TokenKind} {text : Bytes}
    (h : t.lexeme = (kind, text)) (hkind : kind.hasText = true) : t.text = text := by
  obtain ⟨rfl, htext⟩ := Prod.mk.inj h
  rwa [if_pos hkind] at htext

/-! ## §2 Rules -/

/-- The next token is the first one that is left, or the end. -/
theorem exists_of_peek_ok {c d : Cursor} {t : Token} (hc : c.Proper)
    (hi : c.rest.map Token.lexeme = i) (h : peek c = .ok (t, d)) :
    c = d ∧ t.kind = nextKind i ∧ ∀ x r, i = x :: r → t.lexeme = x := by
  obtain rfl := eq_of_peek_eq_ok h
  obtain ⟨rest, ending, stop⟩ := c
  refine ⟨rfl, ?_⟩
  cases rest with
  -- at the end the kind is that of the end
  | nil =>
    subst hi
    cases ending with
    | error e => cases h
    | ok e =>
      cases h
      exact ⟨hc.ending _ rfl, by simp⟩
  | cons u w =>
    cases h
    subst hi
    refine ⟨rfl, fun x r hx => ?_⟩
    exact (List.cons.inj hx).1

namespace Yields

variable {P Q : α → Prop} {R : β → Prop}

theorem pure {a : α} (h : Q a) : Yields (Pure.pure a) i i Q := by
  rintro c hc hi _ _ ⟨⟩
  exact ⟨hc, hi, h⟩

theorem fail {e : SyntaxError} : Yields (Grammar.fail e) i o Q := by
  rintro c hc hi _ _ ⟨⟩

theorem failHere {cause : Token → SyntaxCause} : Yields (Grammar.failHere cause) i o Q := by
  intro c hc hi a d h
  obtain ⟨t, d, -, h⟩ := exists_of_bind_eq_ok h
  cases h

theorem failExpected {want : Expectation} : Yields (Grammar.failExpected want) i o Q := failHere

theorem failUnsupported {feature : Feature} : Yields (Grammar.failUnsupported feature) i o Q :=
  failHere

theorem bind {p : Grammar α} {k : α → Grammar β} (hp : Yields p i m P)
    (hk : ∀ a, P a → Yields (k a) m o R) : Yields (p >>= k) i o R := by
  intro c hc hi b d h
  obtain ⟨a, c', ha, hb⟩ := exists_of_bind_eq_ok h
  obtain ⟨hc', hm, hP⟩ := hp c hc hi a c' ha
  exact hk a hP c' hc' hm b d hb

theorem conseq {p : Grammar α} (hp : Yields p i o P) (h : ∀ a, P a → Q a) : Yields p i o Q := by
  intro c hc hi a d ha
  obtain ⟨hd, ho, hP⟩ := hp c hc hi a d ha
  exact ⟨hd, ho, h a hP⟩

theorem map {p : Grammar α} {f : α → β} (hp : Yields p i o P) (h : ∀ a, P a → R (f a)) :
    Yields (f <$> p) i o R := by
  rw [map_eq_pure_bind]
  exact hp.bind fun a ha => pure (h a ha)

theorem peek_bind {k : Token → Grammar α}
    (hk : ∀ t, t.kind = nextKind i → (∀ x r, i = x :: r → t.lexeme = x) → Yields (k t) i o Q) :
    Yields (peek >>= k) i o Q := by
  intro c hc hi a d h
  obtain ⟨t, c', hpeek, h⟩ := exists_of_bind_eq_ok h
  obtain ⟨rfl, hkind, hlexeme⟩ := exists_of_peek_ok hc hi hpeek
  exact hk t hkind hlexeme c hc hi a d h

/-- Looking at a token that is there. -/
theorem peek_bind_cons {k : Token → Grammar α}
    (hk : ∀ t : Token, t.kind = x.1 → t.lexeme = x → Yields (k t) (x :: i) o Q) :
    Yields (peek >>= k) (x :: i) o Q :=
  peek_bind fun t hkind hlexeme => hk t hkind (hlexeme x i rfl)

theorem get_bind {k : Cursor → Grammar α} (hk : ∀ c, Yields (k c) i o Q) :
    Yields (get >>= k) i o Q :=
  fun c hc hi a d h => hk c c hc hi a d h

theorem advance_bind {k : Unit → Grammar α} (hk : Yields (k ()) i o Q) :
    Yields (advance >>= k) (x :: i) o Q := by
  intro c hc hi a d h
  obtain ⟨rest, ending, stop⟩ := c
  obtain ⟨t, w, rfl, rfl, rfl⟩ := List.map_eq_cons_iff.mp hi
  exact hk ⟨w, ending, t.stop⟩ ⟨fun u hu => hc.rest u (List.mem_cons_of_mem _ hu), hc.ending⟩ rfl
    a d h

theorem located {p : Grammar α} {build : Loc → α → β} (hp : Yields p i o P)
    (h : ∀ loc a, P a → R (build loc a)) : Yields (Grammar.located build p) i o R := by
  apply peek_bind
  intro t _ _
  apply hp.bind
  intro a ha
  apply get_bind
  intro c
  exact pure (h _ a ha)

theorem ite {b : Prop} [Decidable b] {p q : Grammar α} (hp : b → Yields p i o Q)
    (hq : ¬b → Yields q i o Q) : Yields (if b then p else q) i o Q := by
  split
  · exact hp ‹_›
  · exact hq ‹_›

theorem accept_bind {kind : TokenKind} {k : Bool → Grammar α} (hx : x.1 = kind)
    (hk : Yields (k true) i o Q) : Yields (accept kind >>= k) (x :: i) o Q := by
  unfold accept
  rw [bind_assoc]
  apply peek_bind_cons
  intro t ht _
  rw [if_pos (by simp [ht, hx]), bind_assoc]
  exact advance_bind hk

theorem accept_bind_of_ne {kind : TokenKind} {k : Bool → Grammar α} (hi : nextKind i ≠ kind)
    (hk : Yields (k false) i o Q) : Yields (accept kind >>= k) i o Q := by
  unfold accept
  rw [bind_assoc]
  apply peek_bind
  intro t ht _
  rw [if_neg (by simpa [ht] using hi), pure_bind]
  exact hk

theorem sigil_bind {s : Sigil} {k : Unit → Grammar α} (hx : x.1 = s.kind)
    (hk : Yields (k ()) i o Q) : Yields (sigil s >>= k) (x :: i) o Q := by
  unfold sigil
  rw [bind_assoc]
  exact accept_bind hx hk

/-- A sign that is not there ends the reading. -/
theorem sigil_of_ne {s : Sigil} {k : Unit → Grammar α} (hi : nextKind i ≠ s.kind) :
    Yields (sigil s >>= k) i o Q := by
  unfold sigil
  rw [bind_assoc]
  apply accept_bind_of_ne hi
  intro c _ _ a d h
  obtain ⟨_, _, h, -⟩ := exists_of_bind_eq_ok h
  obtain ⟨t, _, -, h⟩ := exists_of_bind_eq_ok h
  cases h

/-- To ask for a word, either answer has to be followed. -/
theorem atWord_bind {word : Bytes} {k : Bool → Grammar α}
    (hk : ∀ b : Bool, (b = true ↔ NextWord i word) → Yields (k b) i o Q) :
    Yields (atWord word >>= k) i o Q := by
  unfold atWord
  rw [bind_assoc]
  apply peek_bind
  intro t hkind hlexeme
  rw [pure_bind]
  apply hk
  rw [isWord_eq_true]
  cases i with
  | nil =>
    rw [hkind]
    simp [NextWord]
  | cons x r =>
    have hx := hlexeme x r rfl
    -- the word is told by kind and text, which is what the lexeme is
    constructor
    · rintro ⟨hkind, htext⟩
      rw [NextWord, List.head?_cons, ← hx, Token.lexeme, hkind, ← htext]
      rfl
    · intro h
      rw [NextWord, List.head?_cons, ← hx] at h
      exact ⟨(Prod.mk.inj (Option.some.inj h)).1, text_of_lexeme (Option.some.inj h) rfl⟩

theorem acceptWord_bind {word : Bytes} {k : Bool → Grammar α} (hk : Yields (k true) i o Q) :
    Yields (acceptWord word >>= k) (Spelling.name word :: i) o Q := by
  unfold acceptWord
  rw [bind_assoc]
  apply atWord_bind
  intro b hb
  rw [if_pos (hb.mpr rfl), bind_assoc]
  exact advance_bind hk

theorem acceptWord_bind_of_ne {word : Bytes} {k : Bool → Grammar α} (hi : ¬NextWord i word)
    (hk : Yields (k false) i o Q) : Yields (acceptWord word >>= k) i o Q := by
  unfold acceptWord
  rw [bind_assoc]
  apply atWord_bind
  intro b hb
  rw [if_neg fun h => hi (hb.mp h), pure_bind]
  exact hk

/-- A step that goes on leaves fewer tokens to the rest of the loop. -/
theorem loop_more {step : σ → Grammar (σ × Bool)} {s : σ} {R : σ → Prop}
    (hstep : Yields (step s) i m fun x => x.2 = true ∧ Yields (Grammar.loop step x.1) m o R)
    (hlt : m.length < i.length) : Yields (Grammar.loop step s) i o R := by
  intro c hc hi a d h
  rw [Grammar.loop] at h
  cases hs : step s c with
  | error e =>
    rw [hs] at h
    cases h
  | ok y =>
    rw [hs] at h
    obtain ⟨hd, hm, hmore, hloop⟩ := hstep c hc hi y.1 y.2 hs
    -- the step has read a token, so the loop goes on
    have hlength : y.2.rest.length < c.rest.length := by
      rw [← hi, ← hm, List.length_map, List.length_map] at hlt
      exact hlt
    have hmore' : (y.1.2 && decide (y.2.rest.length < c.rest.length)) = true := by
      simp [hmore, hlength]
    dsimp only at h
    rw [if_pos (by simpa using hmore')] at h
    exact hloop y.2 hd hm a d h

/-- The loop ends at a step that says so. -/
theorem loop_done {step : σ → Grammar (σ × Bool)} {s : σ} {R : σ → Prop}
    (hstep : Yields (step s) i o fun x => x.2 = false ∧ R x.1) :
    Yields (Grammar.loop step s) i o R := by
  intro c hc hi a d h
  rw [Grammar.loop] at h
  cases hs : step s c with
  | error e =>
    rw [hs] at h
    cases h
  | ok y =>
    rw [hs] at h
    obtain ⟨hd, ho, hdone, hR⟩ := hstep c hc hi y.1 y.2 hs
    dsimp only at h
    rw [if_neg (by simp [hdone])] at h
    cases h
    exact ⟨hd, ho, hR⟩

end Yields

end Grammar

end Idl
