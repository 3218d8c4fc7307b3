import Idl.Proofs.Grammar.Soundness
import Idl.Proofs.Numeric.Reading
import Idl.Proofs.Token.Lexemes
import Idl.Proofs.Tree.Rewording

/-!
# The grammar does not look at documentation

Tokens are aligned if they are the same one by one, in whatever places, except that after the sign,
the word and the parenthesis that open an annotation for documentation one given text literal may
stand in place of another. Where a piece of grammar succeeds on one list of tokens, it succeeds on
the other, and what it builds is akin. The count of the places where the literals differ goes from
the tokens to the tree.

* §1 aligned tokens, §2 one piece of grammar follows another, §3 its rules,
* §4 names and constants, §5 annotations,
* §6 messages, §7 services, §8 files.
-/

namespace Idl

/-! ## §1 Aligned tokens -/

/-- The same token in another place. -/
structure Token.Akin (K : Rewording) (t u : Token) : Prop where
  kind : u.kind = t.kind
  text : u.text = t.text
  place : K.place t.pos
  word : t.kind = .ident → Bytes.IsName t.text

/-- The text of a token of a name is that of a name. -/
theorem Lexes.isName {n : Nat} {b : Bytes} {ts : List Token} {t : Token} (h : Lexes n b ts)
    (ht : t ∈ ts) (hkind : t.kind = .ident) : Bytes.IsName t.text :=
  ⟨(h.bounds ht).2.1, h.isWord_text ht hkind⟩

/-- The same words are seen in both. -/
theorem Token.Akin.isWord {K : Rewording} {t u : Token} (h : t.Akin K u) (word : Bytes) :
    u.isWord word = t.isWord word := by
  rw [Token.isWord, Token.isWord, h.kind, h.text]

/-- The same tokens, except for the literals that are counted. -/
inductive Aligned (K : Rewording) : Nat → List Token → List Token → Prop where
  | nil : Aligned K 0 [] []
  | cons {k : Nat} {t u : Token} {l m : List Token} (head : t.Akin K u) (tail : Aligned K k l m) :
      Aligned K k (t :: l) (u :: m)
  /-- The literals stand behind `@doc(`. -/
  | swap {k : Nat} {sign word paren lit sign' word' paren' lit' : Token} {l m : List Token}
      (hsign : sign.Akin K sign') (sign_kind : sign.kind = .atSign)
      (hword : word.Akin K word') (word_is : word.isWord "doc" = true)
      (hparen : paren.Akin K paren') (paren_kind : paren.kind = .openParen)
      (lit_kind : lit.kind = .textLit) (lit_text : lit.text = K.oldText)
      (lit_kind' : lit'.kind = .textLit) (lit_text' : lit'.text = K.newText)
      (tail : Aligned K k l m) :
      Aligned K (k + 1) (sign :: word :: paren :: lit :: l) (sign' :: word' :: paren' :: lit' :: m)

/-- Aligned tokens are as many. -/
theorem Aligned.length_eq {K : Rewording} {k : Nat} {l m : List Token} (h : Aligned K k l m) :
    m.length = l.length := by
  induction h with
  | nil => rfl
  | cons head tail ih => simp [ih]
  | swap => simp_all

/-- Where there are no tokens, no literal is counted. -/
theorem Aligned.eq_zero_of_nil {K : Rewording} {k : Nat} {m : List Token}
    (h : Aligned K k [] m) : k = 0 := by
  cases h with
  | nil => rfl

/-- Reading positions in aligned tokens, with the same end. -/
structure Cursor.Akin (K : Rewording) (k : Nat) (c c' : Cursor) : Prop where
  proper : c.Proper
  rest : Aligned K k c.rest c'.rest
  ending : ∀ e, c.ending = .ok e → ∃ e', c'.ending = .ok e' ∧ e.Akin K e'

/-- What is left behind a token. -/
theorem Cursor.Proper.tail {t : Token} {l : List Token} {ending : Except SyntaxError Token}
    {stop stop' : Nat} (h : Cursor.Proper ⟨t :: l, ending, stop⟩) :
    Cursor.Proper ⟨l, ending, stop'⟩ :=
  h.next (w := [t]) rfl rfl

namespace Grammar

variable {K : Rewording} {α β γ δ σ τ : Type} {c c' d d' : Cursor} {t u : Token}

/-- A token seen in the first is seen in the second, in another place. -/
theorem exists_of_peek {k : Nat} (hc : c.Akin K k c') (h : peek c = .ok (t, d)) :
    ∃ u, peek c' = .ok (u, c') ∧ t.Akin K u := by
  obtain ⟨rest, ending, stop⟩ := c
  obtain ⟨rest', ending', stop'⟩ := c'
  obtain ⟨hproper, hrest, hending⟩ := hc
  dsimp only at hrest hending
  cases hrest with
  -- no token is left, so the end is what is seen
  | nil =>
    cases ending with
    | error e => cases h
    | ok e =>
      cases h
      obtain ⟨e', rfl, he⟩ := hending _ rfl
      exact ⟨e', rfl, he⟩
  | cons head tail =>
    cases h
    exact ⟨_, rfl, head⟩
  -- in front of a reworded literal the sign of its annotation is seen
  | swap hsign =>
    cases h
    exact ⟨_, rfl, hsign⟩

/-! ## §2 Following -/

/-- If the first outcome is a success, the second one is, with a result that is akin and aligned
tokens left; the counts add up. -/
def Matches (K : Rewording) (L : Nat → α → β → Prop) (k : Nat)
    (x : Except SyntaxError (α × Cursor)) (y : Except SyntaxError (β × Cursor)) : Prop :=
  ∀ a d, x = .ok (a, d) → ∃ b d' i j, y = .ok (b, d') ∧ L i a b ∧ d.Akin K j d' ∧ k = i + j

/-- A piece of grammar follows another one from two positions. -/
def FollowsAt (K : Rewording) (L : Nat → α → β → Prop) (c c' : Cursor) (p : Grammar α)
    (q : Grammar β) : Prop :=
  ∀ k, c.Akin K k c' → Matches K L k (p c) (q c')

/-- A piece of grammar follows another one from everywhere. -/
def Follows (K : Rewording) (L : Nat → α → β → Prop) (p : Grammar α) (q : Grammar β) : Prop :=
  ∀ c c', FollowsAt K L c c' p q

/-- What is akin without any documentation in it. -/
def Plain (R : α → β → Prop) (i : Nat) (a : α) (b : β) : Prop := i = 0 ∧ R a b

/-- Two sequences match when their parts do; the counts of the parts add up. -/
theorem Matches.bind {M : Nat → α → β → Prop} {L : Nat → γ → δ → Prop} {k : Nat}
    {x : Except SyntaxError (α × Cursor)} {y : Except SyntaxError (β × Cursor)}
    {f : α × Cursor → Except SyntaxError (γ × Cursor)}
    {g : β × Cursor → Except SyntaxError (δ × Cursor)} (h : Matches K M k x y)
    (hf : ∀ i j a b d d', M i a b → d.Akin K j d' →
      Matches K (fun n => L (i + n)) j (f (a, d)) (g (b, d'))) :
    Matches K L k (x >>= f) (y >>= g) := by
  intro r e hr
  -- The second outcome only has to be a success where the first one is.
  cases x with
  | error e =>
    cases hr
  | ok v =>
    obtain ⟨a, d⟩ := v
    obtain ⟨b, d', i, j, rfl, hM, hd, rfl⟩ := h a d rfl
    obtain ⟨s, e', i', j', hs, hL, he, rfl⟩ := hf i j a b d d' hM hd r e hr
    exact ⟨s, e', i + i', j', hs, hL, he, (Nat.add_assoc ..).symm⟩

/-- A step ends a loop in a state: it says so, or it has consumed nothing. -/
def EndsIn (E : σ → Prop) (step : σ → Grammar (σ × Bool)) (s : σ) (c : Cursor) : Prop :=
  ∀ x d, step s c = .ok (x, d) → ¬ (x.2 && d.rest.length < c.rest.length) = true → E x.1

/-- A loop whose first step is matched, and the rest of which is. -/
theorem Matches.loop_of_step {S : Nat → σ → τ → Prop} {E : σ → Prop}
    {step : σ → Grammar (σ × Bool)} {step' : τ → Grammar (τ × Bool)} {s : σ} {s' : τ} {k : Nat}
    (hlength : c'.rest.length = c.rest.length)
    (hstep : Matches K (fun n x y => S n x.1 y.1 ∧ y.2 = x.2) k (step s c) (step' s' c'))
    (hend : EndsIn E step s c)
    (hrest : ∀ i j s₁ s₁' d d', d.rest.length < c.rest.length → S i s₁ s₁' → d.Akin K j d' →
      Matches K (fun n x y => S (i + n) x y ∧ E x) j (loop step s₁ d) (loop step' s₁' d')) :
    Matches K (fun n x y => S n x y ∧ E x) k (loop step s c) (loop step' s' c') := by
  intro r e hr
  rw [loop] at hr ⊢
  cases hx : step s c with
  | error err =>
    rw [hx] at hr
    cases hr
  | ok x =>
    obtain ⟨⟨s₁, more⟩, d⟩ := x
    obtain ⟨⟨s₁', more'⟩, d', i, j, hx', ⟨hS, hmore⟩, hd, rfl⟩ := hstep _ _ hx
    dsimp only at hS hmore
    subst hmore
    rw [hx] at hr
    rw [hx']
    dsimp only at hr ⊢
    -- both sides have as many tokens left, so they go on or stop alike
    rw [hlength, hd.rest.length_eq]
    split at hr
    · next hprogress =>
      have hshorter : d.rest.length < c.rest.length := by
        simp only [Bool.and_eq_true, decide_eq_true_eq] at hprogress
        exact hprogress.2
      rw [if_pos hprogress]
      obtain ⟨b, e', i', j', hb, hS', he, rfl⟩ := hrest i j s₁ s₁' d d' hshorter hS hd r e hr
      exact ⟨b, e', i + i', j', hb, hS', he, (Nat.add_assoc ..).symm⟩
    · next hstop =>
      rw [if_neg hstop]
      cases hr
      exact ⟨s₁', d', i, j, rfl, ⟨hS, hend _ _ hx hstop⟩, hd, rfl⟩

/-! ## §3 Rules -/

namespace FollowsAt

variable {L : Nat → α → β → Prop}

/-- Two results that are akin without any literal counted. -/
theorem pure {a : α} {b : β} (h : L 0 a b) : FollowsAt K L c c' (Pure.pure a) (Pure.pure b) := by
  rintro k hc _ _ ⟨⟩
  exact ⟨b, c', 0, k, rfl, h, hc, (Nat.zero_add k).symm⟩

/-- A failure is followed by anything. -/
theorem fail {e : SyntaxError} {q : Grammar β} : FollowsAt K L c c' (Grammar.fail e) q := by
  rintro k hc _ _ ⟨⟩

/-- So is a failure at the next token. -/
theorem failHere {cause : Token → SyntaxCause} {q : Grammar β} :
    FollowsAt K L c c' (Grammar.failHere cause) q := by
  intro k hc a d h
  obtain ⟨t, e, -, h⟩ := exists_of_bind_eq_ok h
  cases h

/-- So is an expectation that fails. -/
theorem failExpected {want : Expectation} {q : Grammar β} :
    FollowsAt K L c c' (Grammar.failExpected want) q := failHere

/-- So is a construct that is not supported. -/
theorem failUnsupported {feature : Feature} {q : Grammar β} :
    FollowsAt K L c c' (Grammar.failUnsupported feature) q := failHere

/-- Sequences whose parts follow each other. -/
theorem bind {M : Nat → γ → δ → Prop} {p : Grammar γ} {q : Grammar δ} {f : γ → Grammar α}
    {g : δ → Grammar β} (hp : FollowsAt K M c c' p q)
    (hf : ∀ i a b d d', M i a b → FollowsAt K (fun n => L (i + n)) d d' (f a) (g b)) :
    FollowsAt K L c c' (p >>= f) (q >>= g) :=
  fun k hc => (hp k hc).bind fun i j a b d d' hM hd => hf i a b d d' hM j hd

/-- A first part without documentation. -/
theorem bind_plain {R : γ → δ → Prop} {p : Grammar γ} {q : Grammar δ} {f : γ → Grammar α}
    {g : δ → Grammar β} (hp : FollowsAt K (Plain R) c c' p q)
    (hf : ∀ a b, R a b → Follows K L (f a) (g b)) : FollowsAt K L c c' (p >>= f) (q >>= g) := by
  refine bind hp ?_
  rintro i a b d d' ⟨rfl, hR⟩
  simp only [Nat.zero_add]
  exact hf a b hR d d'

/-- A weaker relation between the results. -/
theorem conseq {M : Nat → α → β → Prop} {p : Grammar α} {q : Grammar β}
    (hp : FollowsAt K M c c' p q) (h : ∀ i a b, M i a b → L i a b) : FollowsAt K L c c' p q := by
  intro k hc a d ha
  obtain ⟨b, d', i, j, hb, hM, hd, hk⟩ := hp k hc a d ha
  exact ⟨b, d', i, j, hb, h i a b hM, hd, hk⟩

/-- What is done to both results. -/
theorem map {M : Nat → γ → δ → Prop} {p : Grammar γ} {q : Grammar δ} {f : γ → α} {g : δ → β}
    (hp : FollowsAt K M c c' p q) (h : ∀ i a b, M i a b → L i (f a) (g b)) :
    FollowsAt K L c c' (f <$> p) (g <$> q) := by
  rw [map_eq_pure_bind, map_eq_pure_bind]
  exact bind hp fun i a b d d' hM => pure (h i a b hM)

/-- Both sides take the same branch. -/
theorem ite {b b' : Prop} [Decidable b] [Decidable b'] {p p' : Grammar α} {q q' : Grammar β}
    (hb : b' ↔ b) (h : b → FollowsAt K L c c' p q) (h' : ¬b → FollowsAt K L c c' p' q') :
    FollowsAt K L c c' (if b then p else p') (if b' then q else q') := by
  by_cases hb' : b
  · rw [if_pos hb', if_pos (hb.mpr hb')]
    exact h hb'
  · rw [if_neg hb', if_neg (mt hb.mp hb')]
    exact h' hb'

/-- Both look at the next token and see the same in another place. -/
theorem peek_bind {f : Token → Grammar α} {g : Token → Grammar β}
    (h : ∀ t u, Grammar.peek c = .ok (t, c) → t.Akin K u → FollowsAt K L c c' (f t) (g u)) :
    FollowsAt K L c c' (peek >>= f) (peek >>= g) := by
  intro k hc a d ha
  obtain ⟨t, e, hpeek, ha⟩ := exists_of_bind_eq_ok ha
  obtain rfl := eq_of_peek_eq_ok hpeek
  obtain ⟨u, hpeek', htu⟩ := exists_of_peek hc hpeek
  rw [bind_of_ok hpeek']
  exact h t u hpeek htu k hc a d ha

/-- Looking for a word leaves the position as it is. -/
theorem atWord_bind {word : Bytes} {f : Bool → Grammar α} {g : Bool → Grammar β}
    (h : ∀ t, Grammar.peek c = .ok (t, c) →
      FollowsAt K L c c' (f (t.isWord word)) (g (t.isWord word))) :
    FollowsAt K L c c' (atWord word >>= f) (atWord word >>= g) := by
  rw [atWord, bind_assoc, bind_assoc]
  refine peek_bind fun t u ht htu => ?_
  rw [pure_bind, pure_bind, htu.isWord]
  exact h t ht

/-- A token is consumed on both sides. The sign of an annotation is not, since what follows it may
differ. -/
theorem advance (ht : Grammar.peek c = .ok (t, c)) (hkind : t.kind ≠ .atSign) :
    FollowsAt K (Plain fun _ _ => True) c c' Grammar.advance Grammar.advance := by
  intro k hc a e h
  obtain ⟨rest, ending, stop⟩ := c
  obtain ⟨rest', ending', stop'⟩ := c'
  obtain ⟨hproper, hrest, hending⟩ := hc
  dsimp only at hrest hending
  cases hrest with
  -- at the end nothing moves
  | nil =>
    cases h
    exact ⟨(), _, 0, 0, rfl, ⟨rfl, trivial⟩, ⟨hproper, .nil, hending⟩, rfl⟩
  | cons head tail =>
    cases h
    exact ⟨(), _, 0, k, rfl, ⟨rfl, trivial⟩, ⟨hproper.tail, tail, hending⟩, (Nat.zero_add k).symm⟩
  -- a reworded literal stands behind the sign of an annotation, and the token here is none
  | swap hsign sign_kind =>
    cases ht
    exact absurd sign_kind hkind

/-- A node is built from what is akin, at a place that satisfies the condition. -/
theorem located {M : Nat → γ → δ → Prop} {p : Grammar γ} {q : Grammar δ} {build : Loc → γ → α}
    {build' : Loc → δ → β} (hp : FollowsAt K M c c' p q)
    (hbuild : ∀ loc loc' i a b, K.place loc.pos → M i a b → L i (build loc a) (build' loc' b)) :
    FollowsAt K L c c' (Grammar.located build p) (Grammar.located build' q) := by
  refine peek_bind fun t u _ htu => bind hp fun i a b d d' hM => ?_
  rintro k hd _ _ ⟨⟩
  exact ⟨_, d', 0, k, rfl, hbuild _ _ i a b htu.place hM, hd, (Nat.zero_add k).symm⟩

end FollowsAt

namespace Follows

variable {L : Nat → α → β → Prop}

/-- A loop follows if its step does: both sides have the same number of tokens left, so that they
make progress together. -/
theorem loop {S : Nat → σ → τ → Prop} {E : σ → Prop} {step : σ → Grammar (σ × Bool)}
    {step' : τ → Grammar (τ × Bool)}
    (hstep : ∀ i s s', S i s s' →
      Follows K (fun n x y => S (i + n) x.1 y.1 ∧ y.2 = x.2) (step s) (step' s'))
    (hend : ∀ s c, c.Proper → EndsIn E step s c) {i : Nat} {s : σ} {s' : τ} (hs : S i s s') :
    Follows K (fun n x y => S (i + n) x y ∧ E x) (Grammar.loop step s) (Grammar.loop step' s') := by
  intro c c' k hc
  -- on the tokens that are left, since every step of the loop takes some
  induction hlen : c.rest.length using Nat.strongRecOn generalizing i s s' c c' k with
  | ind n ih =>
    refine Matches.loop_of_step hc.rest.length_eq (hstep i s s' hs c c' k hc)
      (hend s c hc.proper) ?_
    intro j l s₁ s₁' d d' hshorter hS hd
    have hloop := ih _ (hlen ▸ hshorter) hS d d' l hd rfl
    simpa only [Nat.add_assoc] using hloop

/-- A loop from a state in which nothing is counted yet. -/
theorem loop_zero {S : Nat → σ → τ → Prop} {E : σ → Prop} {step : σ → Grammar (σ × Bool)}
    {step' : τ → Grammar (τ × Bool)}
    (hstep : ∀ i s s', S i s s' →
      Follows K (fun n x y => S (i + n) x.1 y.1 ∧ y.2 = x.2) (step s) (step' s'))
    (hend : ∀ s c, c.Proper → EndsIn E step s c) {s : σ} {s' : τ} (hs : S 0 s s') :
    Follows K (fun n x y => S n x y ∧ E x) (Grammar.loop step s) (Grammar.loop step' s') := by
  simpa only [Nat.zero_add] using loop hstep hend hs

/-- A loop without documentation. -/
theorem loop_plain {R : σ → τ → Prop} {step : σ → Grammar (σ × Bool)}
    {step' : τ → Grammar (τ × Bool)}
    (hstep : ∀ s s', R s s' →
      Follows K (Plain fun x y => R x.1 y.1 ∧ y.2 = x.2) (step s) (step' s'))
    {s : σ} {s' : τ} (hs : R s s') :
    Follows K (Plain R) (Grammar.loop step s) (Grammar.loop step' s') := by
  intro c c'
  refine (loop_zero (S := Plain R) (E := fun _ => True) ?_ (fun _ _ _ _ _ _ _ => trivial)
    ⟨rfl, hs⟩ c c').conseq fun _ _ _ h => h.1
  -- no text is replaced, so the count stays at zero
  rintro _ s s' ⟨rfl, hs⟩ c c'
  refine (hstep s s' hs c c').conseq ?_
  rintro _ x y ⟨rfl, hR, hmore⟩
  exact ⟨⟨rfl, hR⟩, hmore⟩

/-- A token of a kind, other than the sign of an annotation. -/
theorem accept {kind : TokenKind} (hkind : kind ≠ .atSign) :
    Follows K (Plain Eq) (Grammar.accept kind) (Grammar.accept kind) := by
  intro c c'
  refine .peek_bind fun t u ht htu => ?_
  refine .ite (by rw [htu.kind]) (fun h => ?_) fun _ => .pure ⟨rfl, rfl⟩
  have hk : t.kind = kind := by simpa using h
  exact (FollowsAt.advance ht (hk ▸ hkind)).bind_plain fun _ _ _ _ _ => .pure ⟨rfl, rfl⟩

/-- A sigil, other than the sign of an annotation. -/
theorem sigil {s : Sigil} (hkind : s.kind ≠ .atSign) :
    Follows K (Plain fun _ _ => True) (Grammar.sigil s) (Grammar.sigil s) := by
  intro c c'
  refine (accept hkind c c').bind_plain ?_
  rintro b _ rfl d d'
  cases b with
  | true => exact .pure ⟨rfl, trivial⟩
  | false => exact .failHere

/-- The same answer about the next word. -/
theorem atWord (word : Bytes) : Follows K (Plain Eq) (Grammar.atWord word) (Grammar.atWord word) := by
  intro c c'
  exact .peek_bind fun t u _ htu => .pure ⟨rfl, (htu.isWord word).symm⟩

/-- A word is no sign. -/
theorem ne_atSign_of_isWord {word : Bytes} (h : t.isWord word = true) : t.kind ≠ .atSign := by
  simp only [Token.isWord, Bool.and_eq_true, beq_iff_eq] at h
  simp [h.1]

/-- A word is consumed, or nothing is. -/
theorem acceptWord (word : Bytes) :
    Follows K (Plain Eq) (Grammar.acceptWord word) (Grammar.acceptWord word) := by
  intro c c'
  have hbool : Grammar.acceptWord word = Grammar.peek >>= fun t =>
      if t.isWord word then Grammar.advance >>= fun _ => Pure.pure true else Pure.pure false := by
    rw [Grammar.acceptWord, Grammar.atWord, bind_assoc]
    rfl
  rw [hbool]
  refine .peek_bind fun t u ht htu => .ite (by rw [htu.isWord]) (fun h => ?_) fun _ =>
    .pure ⟨rfl, rfl⟩
  exact (FollowsAt.advance ht (ne_atSign_of_isWord h)).bind_plain fun _ _ _ _ _ => .pure ⟨rfl, rfl⟩

/-! ## §4 Names and constants -/

/-- A name is read as a name of the same text. -/
theorem ident : Follows K (Plain Tree.Ident.Akin) Grammar.ident Grammar.ident := by
  intro c c'
  refine .peek_bind fun t u ht htu => .ite (by rw [htu.kind]) (fun h => ?_) fun _ => .failExpected
  have hkind : t.kind = .ident := by simpa using h
  refine (FollowsAt.advance ht (by simp [hkind])).bind_plain fun _ _ _ _ _ => ?_
  exact .pure ⟨rfl, htu.text, htu.word hkind⟩

/-- A number as the same number. -/
theorem intLit : Follows K (Plain Tree.IntLit.Akin) Grammar.intLit Grammar.intLit := by
  intro c c'
  refine .peek_bind fun t u ht htu => .ite (by rw [htu.kind]) (fun h => ?_) fun _ => .failExpected
  have hkind : t.kind ≠ .atSign := by
    intro hkind
    rw [hkind] at h
    cases h
  rw [htu.kind, htu.text]
  refine .ite Iff.rfl (fun hfits => ?_) fun _ => .failHere
  exact (FollowsAt.advance ht hkind).bind_plain fun _ _ _ _ _ => .pure ⟨rfl, rfl, hfits⟩

/-- The same text. -/
def SameText (a b : Tree.TextLit) : Prop := b.value = a.value

/-- A text as the same text: reworded literals are met only behind the sign of an annotation. -/
theorem textLit : Follows K (Plain SameText) Grammar.textLit Grammar.textLit := by
  intro c c'
  refine .peek_bind fun t u ht htu => .ite (by rw [htu.kind]) (fun h => ?_) fun _ => .failExpected
  have hkind : t.kind = .textLit := by simpa using h
  rw [htu.text]
  cases textLitValue t.text with
  | error bad => exact .fail
  | ok value =>
    refine (FollowsAt.advance ht (by simp [hkind])).bind_plain fun _ _ _ _ _ => ?_
    exact .pure ⟨rfl, rfl⟩

/-- A separator of a dotted name. -/
theorem separator : Follows K (Plain Eq) Grammar.separator Grammar.separator := by
  intro c c'
  refine (accept (by decide) c c').bind_plain ?_
  rintro b _ rfl d d'
  exact .ite Iff.rfl (fun _ => .pure ⟨rfl, rfl⟩) fun _ => accept (by decide) d d'

/-- A dotted name is read as one of the same parts. -/
theorem path : Follows K (Plain Tree.Path.Akin) Grammar.path Grammar.path := by
  intro c c'
  refine .located (M := Plain fun x y => x.1.Akin y.1 ∧ List.Forall₂ Tree.Ident.Akin x.2 y.2) ?_ ?_
  · refine (ident c c').bind_plain fun first first' hfirst d d' => ?_
    -- the separators are the same, the parts are read in pairs
    refine (loop_plain (R := List.Forall₂ Tree.Ident.Akin) ?_ .nil d d').bind_plain
      fun more more' hmore d d' => .pure ⟨rfl, hfirst, List.rel_reverse hmore⟩
    · intro parts parts' hparts d d'
      refine (separator d d').bind_plain ?_
      rintro b _ rfl d d'
      refine .ite Iff.rfl (fun _ => ?_) fun _ => .pure ⟨rfl, hparts, rfl⟩
      refine (ident d d').bind_plain fun part part' hpart d d' => ?_
      exact .pure ⟨rfl, .cons hpart hparts, rfl⟩
  · rintro loc loc' i ⟨first, more⟩ ⟨first', more'⟩ _ ⟨rfl, hfirst, hmore⟩
    exact ⟨rfl, hfirst, hmore⟩

/-- Both are missing or both are akin. -/
abbrev Optional (R : α → β → Prop) : Nat → Option α → Option β → Prop := Plain (Option.Rel R)

/-- A constant, or none in both. -/
theorem constant? :
    Follows K (Optional Tree.Constant.Akin) Grammar.constant? Grammar.constant? := by
  intro c c'
  refine .peek_bind fun t u ht htu => ?_
  rw [htu.kind, htu.text]
  -- where the constant is one token, it is consumed
  have htoken {a : Tree.Constant} (hkind : t.kind ≠ .atSign) (ha : a.Akin a) :
      FollowsAt K (Optional Tree.Constant.Akin) c c'
        (Grammar.advance >>= fun _ => Pure.pure (some a))
        (Grammar.advance >>= fun _ => Pure.pure (some a)) :=
    (FollowsAt.advance ht hkind).bind_plain fun _ _ _ _ _ => .pure ⟨rfl, .some ha⟩
  have hint : FollowsAt K (Optional Tree.Constant.Akin) c c'
      (Grammar.intLit >>= fun n => Pure.pure (some (.int n)))
      (Grammar.intLit >>= fun n => Pure.pure (some (.int n))) :=
    (intLit c c').bind_plain fun a b hab _ _ => .pure ⟨rfl, .some (.int hab)⟩
  cases hkind : t.kind with
  | intLit | octIntLit | hexIntLit => exact hint
  | floatLit =>
    dsimp only
    cases hnumeral : Binary64.ofNumeral? t.text with
    | none => exact .failHere
    | some x => exact htoken (by simp [hkind]) (.float (Binary64.isNaN_of_ofNumeral? hnumeral))
  | textLit =>
    exact (textLit c c').bind_plain fun a b hab _ _ => .pure ⟨rfl, .some (.text hab)⟩
  | ident =>
    have hne : t.kind ≠ .atSign := by simp [hkind]
    refine .ite Iff.rfl (fun _ => htoken hne (.bool _)) fun _ => ?_
    refine .ite Iff.rfl (fun _ => htoken hne (.float ?_)) fun _ => ?_
    · intro hnan
      exact absurd hnan (by decide)
    refine .ite Iff.rfl (fun _ => htoken hne (.float fun _ => rfl)) fun _ => ?_
    exact (path c c').bind_plain fun a b hab _ _ => .pure ⟨rfl, .some (.path hab)⟩
  | _ => exact .pure ⟨rfl, .none⟩

/-- A value, or none in both. -/
theorem value? : Follows K (Optional Tree.Value.Akin) Grammar.value? Grammar.value? := by
  intro c c'
  refine .located (constant? c c') ?_
  rintro loc loc' i a b _ ⟨rfl, hab⟩
  cases hab with
  | none => exact ⟨rfl, .none⟩
  | some h => exact ⟨rfl, .some h⟩

/-- A value that has to be there. -/
theorem value : Follows K (Plain Tree.Value.Akin) Grammar.value Grammar.value := by
  intro c c'
  refine (value? c c').bind_plain fun a b hab d d' => ?_
  cases hab with
  | none => exact .failExpected
  | some h => exact .pure ⟨rfl, h⟩

/-! ## §5 Annotations -/

/-- An argument, or none in both. -/
theorem arg? : Follows K (Optional Tree.Arg.Akin) Grammar.arg? Grammar.arg? := by
  intro c c'
  refine .located (M := Optional Tree.ArgForm.Akin) ?_ ?_
  · refine .peek_bind fun t u _ htu => ?_
    rw [htu.kind, htu.text]
    refine .ite Iff.rfl (fun _ => ?_) fun _ => ?_
    · -- a key, and the value behind its equals sign if there is one
      refine (ident c c').bind_plain fun key key' hkey d d' => (accept (by decide) d d').bind_plain ?_
      rintro b _ rfl d d'
      refine .ite Iff.rfl (fun _ => ?_) fun _ => .pure ⟨rfl, .some (.flag hkey)⟩
      exact (value d d').bind_plain fun v v' hv _ _ => .pure ⟨rfl, .some (.pair hkey hv)⟩
    · -- a value without a key
      refine (value? c c').bind_plain fun v v' hv _ _ => .pure ⟨rfl, ?_⟩
      cases hv with
      | none => exact .none
      | some h => exact .some (.positional h)
  · rintro loc loc' i a b _ ⟨rfl, hab⟩
    cases hab with
    | none => exact ⟨rfl, .none⟩
    | some h => exact ⟨rfl, .some h⟩

/-- A node is built at the place of the next token. -/
theorem located_of_ok {build : Loc → α → β} {p : Grammar α} {a : α}
    (hpeek : Grammar.peek c = .ok (t, c)) (hp : p c = .ok (a, d)) :
    Grammar.located build p c = .ok (build ⟨.between t.start d.stop, t.pos⟩ a, d) := by
  rw [Grammar.located, bind_of_ok hpeek, bind_of_ok hp]
  rfl

/-- The arguments so far, last first. -/
def ArgsSoFar (K : Rewording) (i : Nat) (acc acc' : List Tree.Arg) : Prop :=
  Tree.ArgsAkin K i acc.reverse acc'.reverse

/-- One more argument. -/
theorem ArgsSoFar.cons {i : Nat} {acc acc' : List Tree.Arg} {a b : Tree.Arg}
    (h : ArgsSoFar K i acc acc') (hab : a.Akin b) : ArgsSoFar K i (a :: acc) (b :: acc') := by
  rw [ArgsSoFar, List.reverse_cons, List.reverse_cons]
  exact h.concat hab

/-- What follows an argument. -/
def argEnd (acc : List Tree.Arg) (a : Tree.Arg) : Grammar (List Tree.Arg × Bool) := do
  if ← Grammar.accept .comma then return (a :: acc, true)
  else
    Grammar.sigil .closeParen
    return (a :: acc, false)

/-- One argument, or the end of the arguments. -/
def argStep (acc : List Tree.Arg) : Grammar (List Tree.Arg × Bool) := do
  if ← Grammar.accept .closeParen then return (acc, false)
  else
    match ← Grammar.arg? with
    | none =>
      Grammar.sigil .closeParen
      return (acc, false)
    | some a => argEnd acc a

/-- The arguments are read by a loop of these steps. -/
theorem args_eq : Grammar.args = Grammar.loop argStep [] >>= fun acc => Pure.pure acc.reverse := rfl

/-- What follows an argument is the same in both. -/
theorem argEnd_follows {i : Nat} {acc acc' : List Tree.Arg} {a b : Tree.Arg}
    (h : ArgsSoFar K i (a :: acc) (b :: acc')) :
    Follows K (Plain fun x y => ArgsSoFar K i x.1 y.1 ∧ y.2 = x.2) (argEnd acc a)
      (argEnd acc' b) := by
  intro c c'
  refine (accept (by decide) c c').bind_plain ?_
  rintro more _ rfl d d'
  refine .ite Iff.rfl (fun _ => .pure ⟨rfl, h, rfl⟩) fun _ => ?_
  exact (sigil (by decide) d d').bind_plain fun _ _ _ _ _ => .pure ⟨rfl, h, rfl⟩

/-- So is a whole step. -/
theorem argStep_follows {i : Nat} {acc acc' : List Tree.Arg} (h : ArgsSoFar K i acc acc') :
    Follows K (Plain fun x y => ArgsSoFar K i x.1 y.1 ∧ y.2 = x.2) (argStep acc)
      (argStep acc') := by
  intro c c'
  refine (accept (by decide) c c').bind_plain ?_
  rintro closed _ rfl d d'
  refine .ite Iff.rfl (fun _ => .pure ⟨rfl, h, rfl⟩) fun _ => ?_
  refine (arg? d d').bind_plain fun a? b? hab d d' => ?_
  cases hab with
  | none => exact (sigil (by decide) d d').bind_plain fun _ _ _ _ _ => .pure ⟨rfl, h, rfl⟩
  | some hab => exact argEnd_follows (h.cons hab) d d'

/-- Arguments that are not reworded. -/
theorem args : Follows K (Plain (Tree.ArgsAkin K 0)) Grammar.args Grammar.args := by
  intro c c'
  rw [args_eq]
  refine (loop_plain (R := ArgsSoFar K 0) (fun s s' => argStep_follows) (.same .nil) c c').bind_plain ?_
  exact fun acc acc' h d d' => .pure ⟨rfl, h⟩

/-- A text literal is an argument that says what it denotes. -/
theorem exists_arg?_textLit {lit : Token} {text : Bytes} (hkind : lit.kind = .textLit)
    (hvalue : textLitValue lit.text = .ok text) (l : List Token)
    (ending : Except SyntaxError Token) (stop : Nat) :
    ∃ x : Tree.Arg, x.Says text
      ∧ Grammar.arg? ⟨lit :: l, ending, stop⟩ = .ok (some x, ⟨l, ending, lit.stop⟩) := by
  let loc : Loc := ⟨.between lit.start lit.stop, lit.pos⟩
  -- the parsers that the literal passes on its way up: text, constant, value, argument
  have hpeek : Grammar.peek ⟨lit :: l, ending, stop⟩ = .ok (lit, ⟨lit :: l, ending, stop⟩) := rfl
  have htext : Grammar.textLit ⟨lit :: l, ending, stop⟩
      = .ok (⟨lit.loc, lit.text, text⟩, ⟨l, ending, lit.stop⟩) := by
    rw [Grammar.textLit, bind_of_ok hpeek, if_pos (by simp [hkind]), hvalue]
    rfl
  have hconstant : Grammar.constant? ⟨lit :: l, ending, stop⟩
      = .ok (some (.text ⟨lit.loc, lit.text, text⟩), ⟨l, ending, lit.stop⟩) := by
    rw [Grammar.constant?, bind_of_ok hpeek, hkind]
    exact bind_of_ok htext
  have hvalue? : Grammar.value? ⟨lit :: l, ending, stop⟩
      = .ok (some ⟨loc, .text ⟨lit.loc, lit.text, text⟩⟩, ⟨l, ending, lit.stop⟩) :=
    located_of_ok hpeek hconstant
  refine ⟨⟨loc, .positional ⟨loc, .text ⟨lit.loc, lit.text, text⟩⟩⟩, ⟨_, _, rfl, rfl, rfl⟩, ?_⟩
  rw [Grammar.arg?]
  refine (located_of_ok (a := some (.positional ⟨loc, .text ⟨lit.loc, lit.text, text⟩⟩))
    (d := ⟨l, ending, lit.stop⟩) hpeek ?_).trans rfl
  rw [bind_of_ok hpeek, if_neg (by simp [hkind]), bind_of_ok hvalue?]
  rfl

/-- A word in front of a parenthesis is a whole name. -/
theorem exists_path_word {word paren : Token} (hword : word.kind = .ident)
    (hparen : paren.kind = .openParen) (l : List Token) (ending : Except SyntaxError Token)
    (stop : Nat) :
    ∃ loc loc', Grammar.path ⟨word :: paren :: l, ending, stop⟩
      = .ok (⟨loc, ⟨loc', word.text⟩, []⟩, ⟨paren :: l, ending, word.stop⟩) := by
  -- behind the word neither separator stands, since the parenthesis does
  have haccept (kind : TokenKind) (hkind : kind ≠ .openParen) :
      Grammar.accept kind ⟨paren :: l, ending, word.stop⟩
        = .ok (false, ⟨paren :: l, ending, word.stop⟩) := by
    have hpeek : Grammar.peek ⟨paren :: l, ending, word.stop⟩
        = .ok (paren, ⟨paren :: l, ending, word.stop⟩) := rfl
    rw [Grammar.accept, bind_of_ok hpeek, if_neg (by simpa [hparen] using hkind.symm)]
    rfl
  have hseparator : Grammar.separator ⟨paren :: l, ending, word.stop⟩
      = .ok (false, ⟨paren :: l, ending, word.stop⟩) := by
    rw [Grammar.separator, bind_of_ok (haccept .dot (by decide))]
    exact haccept .doubleColon (by decide)
  have hpeek : Grammar.peek ⟨word :: paren :: l, ending, stop⟩
      = .ok (word, ⟨word :: paren :: l, ending, stop⟩) := rfl
  have hident : Grammar.ident ⟨word :: paren :: l, ending, stop⟩
      = .ok (⟨word.loc, word.text⟩, ⟨paren :: l, ending, word.stop⟩) := by
    rw [Grammar.ident, bind_of_ok hpeek, if_pos (by simp [hword])]
    rfl
  rw [Grammar.path]
  refine ⟨⟨.between word.start word.stop, word.pos⟩, word.loc, (located_of_ok
    (a := (⟨word.loc, word.text⟩, [])) (d := ⟨paren :: l, ending, word.stop⟩) hpeek ?_).trans rfl⟩
  rw [bind_of_ok hident, bind_apply, Grammar.loop, bind_of_ok hseparator]
  rfl

/-- The arguments after the parenthesis, of which the first is reworded. -/
theorem matches_args_swap {lit lit' : Token} {l m : List Token}
    {ending ending' : Except SyntaxError Token} {stop stop' k : Nat}
    (hproper : Cursor.Proper ⟨l, ending, lit.stop⟩) (hkind : lit.kind = .textLit)
    (htext : lit.text = K.oldText) (hkind' : lit'.kind = .textLit) (htext' : lit'.text = K.newText)
    (htail : Aligned K k l m)
    (hending : ∀ e, ending = .ok e → ∃ e', ending' = .ok e' ∧ e.Akin K e') :
    Matches K (fun i x y => i = 1 ∧ Tree.ArgsAkin K 1 x y) (k + 1)
      (Grammar.args ⟨lit :: l, ending, stop⟩) (Grammar.args ⟨lit' :: m, ending', stop'⟩) := by
  obtain ⟨x, hx, harg⟩ := exists_arg?_textLit hkind (htext ▸ K.old_value) l ending stop
  obtain ⟨y, hy, harg'⟩ := exists_arg?_textLit hkind' (htext' ▸ K.new_value) m ending' stop'
  have hstep {t : Token} {l : List Token} {ending : Except SyntaxError Token} {stop : Nat}
      {x : Tree.Arg} (hkind : t.kind = .textLit)
      (harg : Grammar.arg? ⟨t :: l, ending, stop⟩ = .ok (some x, ⟨l, ending, t.stop⟩)) :
      argStep [] ⟨t :: l, ending, stop⟩ = argEnd [] x ⟨l, ending, t.stop⟩ := by
    have hpeek : Grammar.peek ⟨t :: l, ending, stop⟩ = .ok (t, ⟨t :: l, ending, stop⟩) := rfl
    have haccept : Grammar.accept .closeParen ⟨t :: l, ending, stop⟩
        = .ok (false, ⟨t :: l, ending, stop⟩) := by
      rw [Grammar.accept, bind_of_ok hpeek, if_neg (by simp [hkind])]
      rfl
    rw [argStep, bind_of_ok haccept, if_neg (by decide), bind_of_ok harg]
  -- the first step takes the literals, all others go on as usual
  have hfirst : Matches K (fun i x y => (i = 1 ∧ ArgsSoFar K 1 x.1 y.1) ∧ y.2 = x.2) (k + 1)
      (argStep [] ⟨lit :: l, ending, stop⟩) (argStep [] ⟨lit' :: m, ending', stop'⟩) := by
    rw [hstep hkind harg, hstep hkind' harg']
    have hcursor : Cursor.Akin K k ⟨l, ending, lit.stop⟩ ⟨m, ending', lit'.stop⟩ :=
      ⟨hproper, htail, hending⟩
    intro r e hr
    have hargs : ArgsSoFar K 1 [x] [y] := .swap hx hy .nil
    obtain ⟨b, d', _, j, hb, ⟨rfl, hL, hmore⟩, hd, rfl⟩ :=
      argEnd_follows hargs _ _ k hcursor r e hr
    exact ⟨b, d', 1, j, hb, ⟨⟨rfl, hL⟩, hmore⟩, hd, by omega⟩
  rw [args_eq]
  refine Matches.bind (Matches.loop_of_step (S := fun i x y => i = 1 ∧ ArgsSoFar K 1 x y)
    (E := fun _ => True) (by simp [htail.length_eq]) hfirst (fun _ _ _ _ => trivial) ?_) ?_
  · rintro _ j s s' d d' _ ⟨rfl, hs⟩ hd r e hr
    obtain ⟨b, d', _, j, hb, ⟨rfl, hL⟩, he, rfl⟩ :=
      loop_plain (fun s s' => argStep_follows) hs d d' j hd r e hr
    exact ⟨b, d', 0, j, hb, ⟨⟨rfl, hL⟩, trivial⟩, he, rfl⟩
  · rintro _ j acc acc' d d' ⟨⟨rfl, h⟩, -⟩ hd _ _ ⟨⟩
    exact ⟨_, d', 0, j, rfl, ⟨rfl, h⟩, hd, (Nat.zero_add j).symm⟩

/-- What follows the arguments of an annotation. -/
def annotEnd (name : Tree.Path) (args? : Option (List Tree.Arg)) :
    Grammar (Tree.Path × Option (List Tree.Arg)) := do
  let _ ← Grammar.accept .semicolon
  return (name, args?)

/-- What follows the sign of an annotation. -/
def annotTail : Grammar (Tree.Path × Option (List Tree.Arg)) := do
  let name ← Grammar.path
  if ← Grammar.accept .openParen then Grammar.args >>= fun l => annotEnd name (some l)
  else annotEnd name none

/-- An annotation is its sign and what follows it. -/
theorem annot_eq : Grammar.annot = Grammar.located (fun loc x => ⟨loc, x.1, x.2⟩)
    (Grammar.sigil .atSign >>= fun _ => annotTail) := by
  -- the semicolon behind an annotation is read or not, and kept in no tree
  have htail : annotTail = (do
      let name ← Grammar.path
      let args? ← if ← Grammar.accept .openParen then some <$> Grammar.args else pure none
      let _ ← Grammar.accept .semicolon
      return (name, args?)) := by
    unfold annotTail annotEnd
    congr 1
    funext name
    congr 1
    funext b
    cases b <;> simp
  rw [htail]
  rfl

/-- Names and arguments that are akin; only documentation is reworded. -/
structure TailAkin (K : Rewording) (i : Nat)
    (x y : Tree.Path × Option (List Tree.Arg)) : Prop where
  name : x.1.Akin y.1
  args : Tree.ArgsAkin K i (x.2.getD []) (y.2.getD [])
  doc : i ≠ 0 → x.1.dotted = "doc"

/-- The semicolon behind an annotation. -/
theorem annotEnd_follows {i : Nat} {x y : Tree.Path × Option (List Tree.Arg)}
    (h : TailAkin K i x y) : Follows K (Plain (TailAkin K i)) (annotEnd x.1 x.2) (annotEnd y.1 y.2) := by
  intro c c'
  exact (accept (by decide) c c').bind_plain fun _ _ _ _ _ => .pure ⟨rfl, h⟩

/-- What follows the sign, where no literal is reworded. -/
theorem annotTail_follows : Follows K (Plain (TailAkin K 0)) annotTail annotTail := by
  intro c c'
  refine (path c c').bind_plain fun name name' hname d d' => (accept (by decide) d d').bind_plain ?_
  rintro b _ rfl d d'
  refine .ite Iff.rfl (fun _ => ?_) fun _ => ?_
  · refine (args d d').bind_plain fun l l' hl => ?_
    exact annotEnd_follows (x := (name, some l)) (y := (name', some l')) ⟨hname, hl, by simp⟩
  · exact annotEnd_follows (x := (name, none)) (y := (name', none))
      ⟨hname, .same .nil, by simp⟩ d d'

/-- What follows the sign of documentation that is reworded. -/
theorem matches_annotTail_swap {word paren lit word' paren' lit' : Token} {l m : List Token}
    {ending ending' : Except SyntaxError Token} {stop stop' k : Nat}
    (hproper : Cursor.Proper ⟨l, ending, lit.stop⟩) (hword : word.Akin K word')
    (word_is : word.isWord "doc" = true)
    (hparen : paren.Akin K paren') (paren_kind : paren.kind = .openParen)
    (hkind : lit.kind = .textLit) (htext : lit.text = K.oldText)
    (hkind' : lit'.kind = .textLit) (htext' : lit'.text = K.newText) (htail : Aligned K k l m)
    (hending : ∀ e, ending = .ok e → ∃ e', ending' = .ok e' ∧ e.Akin K e') :
    Matches K (fun i x y => i = 1 ∧ TailAkin K 1 x y) (k + 1)
      (annotTail ⟨word :: paren :: lit :: l, ending, stop⟩)
      (annotTail ⟨word' :: paren' :: lit' :: m, ending', stop'⟩) := by
  simp only [Token.isWord, Bool.and_eq_true, beq_iff_eq] at word_is
  obtain ⟨word_kind, word_text⟩ := word_is
  obtain ⟨loc, loc₁, hpath⟩ := exists_path_word word_kind paren_kind (lit :: l) ending stop
  obtain ⟨loc', loc₁', hpath'⟩ := exists_path_word (hword.kind.trans word_kind)
    (hparen.kind.trans paren_kind) (lit' :: m) ending' stop'
  -- the name is the same word, and the parenthesis is there
  have htailOf {word paren lit : Token} {l : List Token} {ending : Except SyntaxError Token}
      {stop : Nat} {name : Tree.Path} (hparen : paren.kind = .openParen)
      (hpath : Grammar.path ⟨word :: paren :: lit :: l, ending, stop⟩
        = .ok (name, ⟨paren :: lit :: l, ending, word.stop⟩)) :
      annotTail ⟨word :: paren :: lit :: l, ending, stop⟩
        = (Grammar.args >>= fun args => annotEnd name (some args)) ⟨lit :: l, ending, paren.stop⟩ := by
    have hpeek : Grammar.peek ⟨paren :: lit :: l, ending, word.stop⟩
        = .ok (paren, ⟨paren :: lit :: l, ending, word.stop⟩) := rfl
    have haccept : Grammar.accept .openParen ⟨paren :: lit :: l, ending, word.stop⟩
        = .ok (true, ⟨lit :: l, ending, paren.stop⟩) := by
      rw [Grammar.accept, bind_of_ok hpeek, if_pos (by simp [hparen])]
      rfl
    rw [annotTail, bind_of_ok hpath, bind_of_ok haccept, if_pos rfl]
  rw [htailOf paren_kind hpath, htailOf (hparen.kind.trans paren_kind) hpath']
  refine Matches.bind (matches_args_swap hproper hkind htext hkind' htext' htail hending) ?_
  rintro _ j args args' d d' ⟨rfl, hargs⟩ hd r e hr
  have hname : Tree.Ident.Akin ⟨loc₁, word.text⟩ ⟨loc₁', word'.text⟩ :=
    ⟨hword.text, hword.word word_kind⟩
  obtain ⟨b, d', _, j, hb, ⟨rfl, hL⟩, he, rfl⟩ := annotEnd_follows (i := 1)
    (x := (⟨loc, ⟨loc₁, word.text⟩, []⟩, some args)) (y := (⟨loc', ⟨loc₁', word'.text⟩, []⟩, some args'))
    ⟨⟨hname, .nil⟩, hargs, fun _ => by simpa [Tree.Path.dotted, Tree.Path.parts, Bytes.join] using word_text⟩
    d d' j hd r e hr
  exact ⟨b, d', 0, j, hb, ⟨rfl, hL⟩, he, rfl⟩

/-- A sigil that is there is consumed. -/
theorem sigil_of_peek {s : Sigil} (hpeek : Grammar.peek c = .ok (t, c)) (hkind : t.kind = s.kind) :
    Grammar.sigil s c = Grammar.advance c := by
  -- the sign is there, so it is taken and never refused
  have haccept : Grammar.accept s.kind c = (Grammar.advance >>= fun _ => Pure.pure true) c := by
    rw [Grammar.accept, bind_of_ok hpeek, if_pos (by simp [hkind])]
  rw [Grammar.sigil, bind_apply, haccept]
  cases h : Grammar.advance c with
  | error e =>
    rw [bind_apply, h]
    rfl
  | ok x =>
    rw [bind_of_ok h]
    rfl

/-- A sigil that is consumed is there. -/
theorem peek_of_sigil {s : Sigil} (h : Grammar.sigil s c = .ok ((), d)) :
    ∃ t, Grammar.peek c = .ok (t, c) ∧ t.kind = s.kind := by
  obtain ⟨b, e, haccept, h⟩ := exists_of_bind_eq_ok h
  obtain ⟨t, e', hpeek, haccept⟩ := exists_of_bind_eq_ok haccept
  obtain rfl := eq_of_peek_eq_ok hpeek
  refine ⟨t, hpeek, ?_⟩
  split at haccept
  · next hkind => simpa using hkind
  · cases haccept
    obtain ⟨u, e, -, h⟩ := exists_of_bind_eq_ok h
    cases h

/-- An annotation is akin, reworded or not. -/
theorem annot : Follows K (Tree.Annot.Akin K) Grammar.annot Grammar.annot := by
  intro c c'
  rw [annot_eq]
  refine .located (M := TailAkin K) ?_ fun loc loc' i x y _ h => ⟨h.name, h.args, h.doc⟩
  intro k hc a e h
  obtain ⟨⟨⟩, d, hsigil, h⟩ := exists_of_bind_eq_ok h
  obtain ⟨t, hpeek, hkind⟩ := peek_of_sigil hsigil
  obtain ⟨u, hpeek', htu⟩ := exists_of_peek hc hpeek
  rw [sigil_of_peek hpeek hkind] at hsigil
  have hsigil' := sigil_of_peek hpeek' (htu.kind.trans hkind)
  rw [bind_apply, hsigil']
  -- where nothing is reworded, all goes on as usual
  have hplain {j : Nat} {d' : Cursor} (hd : d.Akin K j d') :
      ∃ b e' i l, annotTail d' = .ok (b, e') ∧ TailAkin K i a b ∧ e.Akin K l e' ∧ j = i + l := by
    obtain ⟨b, e', _, l, hb, ⟨rfl, hL⟩, he, hj⟩ := annotTail_follows d d' j hd a e h
    exact ⟨b, e', 0, l, hb, hL, he, hj⟩
  obtain ⟨rest, ending, stop⟩ := c
  obtain ⟨rest', ending', stop'⟩ := c'
  obtain ⟨hproper, hrest, hending⟩ := hc
  dsimp only at hrest hending
  cases hrest with
  | nil =>
    cases hsigil
    exact hplain ⟨hproper, .nil, hending⟩
  | cons head tail =>
    cases hsigil
    exact hplain ⟨hproper.tail, tail, hending⟩
  | swap hsign sign_kind hword word_is hparen paren_kind lit_kind lit_text lit_kind' lit_text' tail =>
    cases hsigil
    obtain ⟨b, e', _, l, hb, ⟨rfl, hL⟩, he, hj⟩ := matches_annotTail_swap
      (hproper.next (w := [_, _, _, _]) rfl rfl) hword word_is hparen paren_kind
        lit_kind lit_text lit_kind' lit_text' tail hending a e h
    exact ⟨b, e', 1, l, hb, hL, he, hj⟩

/-! ## §6 Messages -/

/-- The same name behind a reference to a type. -/
abbrev SameType (s t : Tree.TypeRef) : Prop := s.name.Akin t.name

/-- A type is read as one of the same name. -/
theorem typeRef : Follows K (Plain SameType) Grammar.typeRef Grammar.typeRef := by
  intro c c'
  refine .located (M := Plain Tree.Path.Akin) ?_ fun loc loc' i a b _ h => h
  refine .peek_bind fun t u _ htu => ?_
  rw [htu.kind, htu.text]
  cases t.kind with
  | ident =>
    dsimp only
    cases unsupportedType? t.text with
    | some feature => exact .failUnsupported
    | none =>
      refine (path c c').bind_plain fun name name' hname d d' => .peek_bind fun t u _ htu => ?_
      -- what is refused depends on the dotted name and on the kind of the next token
      rw [hname.dotted, htu.kind]
      refine .ite Iff.rfl (fun _ => .fail) fun _ => ?_
      exact .ite Iff.rfl (fun _ => .failUnsupported) fun _ => .pure ⟨rfl, hname⟩
  | openSquare => exact .failUnsupported
  | _ => exact .failExpected

/-- The same word in front of a field. -/
def SameLabel (a b : Tree.Label) : Prop := b.presence = a.presence

/-- The same label, or none in both. -/
theorem label? : Follows K (Optional SameLabel) Grammar.label? Grammar.label? := by
  intro c c'
  refine .peek_bind fun t u _ _ => (acceptWord _ c c').bind_plain ?_
  rintro b _ rfl d d'
  refine .ite Iff.rfl (fun _ => .pure ⟨rfl, .some rfl⟩) fun _ => (acceptWord _ d d').bind_plain ?_
  rintro b _ rfl d d'
  exact .ite Iff.rfl (fun _ => .pure ⟨rfl, .some rfl⟩) fun _ => .pure ⟨rfl, .none⟩

/-- The parts of a field that follow its annotations. -/
structure FieldParts
    (x y : Option Tree.Label × Tree.TypeRef × Tree.Ident × Bool × Option Tree.IntLit) : Prop where
  label : Option.Rel SameLabel x.1 y.1
  type : SameType x.2.1 y.2.1
  name : x.2.2.1.Akin y.2.2.1
  question : y.2.2.2.1 = x.2.2.2.1
  number : Option.Rel Tree.IntLit.Akin x.2.2.2.2 y.2.2.2.2

/-- A field, with the annotations that wait in front of it. -/
theorem field {i : Nat} {l m : List Tree.Annot} (h : Summed (Tree.Annot.Akin K) i l m) :
    Follows K (Plain (Tree.Field.Akin K i)) (Grammar.field l) (Grammar.field m) := by
  intro c c'
  refine .located (M := Plain FieldParts) ?_ ?_
  · refine (label? c c').bind_plain fun label label' hlabel d d' => (atWord _ d d').bind_plain ?_
    rintro b _ rfl d d'
    refine .ite Iff.rfl (fun _ => .failUnsupported) fun _ => ?_
    refine (typeRef d d').bind_plain fun type type' htype d d' => ?_
    refine (ident d d').bind_plain fun name name' hname d d' => (accept (by decide) d d').bind_plain ?_
    rintro question _ rfl d d'
    refine (accept (by decide) d d').bind_plain ?_
    rintro b _ rfl d d'
    -- behind the number both sides refuse options in square brackets
    have hrest {number number' : Option Tree.IntLit}
        (hnumber : Option.Rel Tree.IntLit.Akin number number') :
        Follows K (Plain FieldParts)
          (do
            if (← Grammar.peek).kind == .openSquare then Grammar.failUnsupported .fieldOptions
            else
              Grammar.sigil .semicolon
              return (label, type, name, question, number))
          (do
            if (← Grammar.peek).kind == .openSquare then Grammar.failUnsupported .fieldOptions
            else
              Grammar.sigil .semicolon
              return (label', type', name', question, number')) := by
      intro d d'
      refine .peek_bind fun t u _ htu => .ite (by rw [htu.kind]) (fun _ => .failUnsupported) fun _ => ?_
      refine (sigil (by decide) d d').bind_plain fun _ _ _ _ _ => .pure ⟨rfl, ?_⟩
      exact ⟨hlabel, htype, hname, rfl, hnumber⟩
    dsimp only
    refine .ite Iff.rfl (fun _ => ?_) fun _ => ?_
    · refine FollowsAt.bind_plain (R := Option.Rel Tree.IntLit.Akin) ?_ fun _ _ => hrest
      refine (intLit d d').map ?_
      rintro _ n n' ⟨rfl, hn⟩
      exact ⟨rfl, .some hn⟩
    · exact FollowsAt.bind_plain (R := Option.Rel Tree.IntLit.Akin) (.pure ⟨rfl, .none⟩) fun _ _ => hrest
  · rintro loc loc' _ ⟨label, type, name, question, number⟩ ⟨label', type', name', question', number'⟩
      hplace ⟨rfl, hlabel, htype, hname, hquestion, hnumber⟩
    dsimp only at hlabel htype hname hquestion hnumber
    refine ⟨rfl, hplace, h, htype, hname, ?_, hnumber⟩
    rw [Tree.Field.isOptional, Tree.Field.isOptional, hquestion]
    cases hlabel with
    | none => rfl
    | some hlabel =>
      dsimp only [SameLabel] at hlabel
      simp [hlabel]

/-- The members of a body: those read so far and the annotations that wait. -/
inductive MembersAkin {μ : Type} (R : Nat → μ → μ → Prop) (K : Rewording) :
    Nat → Members μ → Members μ → Prop where
  | mk {i j : Nat} {a b : Members μ} (done : Summed R i a.done b.done)
      (pending : Summed (Tree.Annot.Akin K) j a.pending b.pending) : MembersAkin R K (i + j) a b

/-- Nothing waits where a body ends. -/
theorem memberStep_ends {μ : Type} {member : List Tree.Annot → Grammar μ} (s : Members μ)
    (hc : c.Proper) : EndsIn (fun r => r.pending = []) (memberStep member) s c := by
  intro x d hx hend
  obtain ⟨t, c₁, hpeek, hx⟩ := exists_of_bind_eq_ok hx
  obtain rfl := eq_of_peek_eq_ok hpeek
  change StateT.run _ c = _ at hx
  split at hx
  -- a body that closes has no annotation waiting
  · obtain ⟨_, c₂, hnone, hx⟩ := exists_of_bind_eq_ok hx
    obtain ⟨_, c₃, -, hx⟩ := exists_of_bind_eq_ok hx
    cases hx
    cases hrev : s.pending.reverse with
    | nil => exact List.reverse_eq_nil_iff.mp hrev
    | cons a r =>
      rw [hrev] at hnone
      cases hnone
  · -- an annotation is at least one token
    obtain ⟨a, c₂, hannot, hx⟩ := exists_of_bind_eq_ok hx
    cases hx
    obtain ⟨w, hrest, -, hw⟩ := reads_annot c hc hannot
    have hpos := List.length_pos_iff.mpr (Phrase.annot_ne_nil w hw)
    rw [hrest, List.length_append] at hend
    simp only [Bool.true_and, decide_eq_true_eq, not_lt] at hend
    omega
  · next hkind =>
    obtain ⟨_, c₂, hadvance, hx⟩ := exists_of_bind_eq_ok hx
    cases hx
    obtain ⟨r, hrest⟩ := hc.rest_eq hpeek (by simp [hkind])
    simp only [Grammar.advance, hrest] at hadvance
    cases hadvance
    simp [hrest] at hend
  -- a member takes all that wait
  · obtain ⟨m, c₂, -, hx⟩ := exists_of_bind_eq_ok hx
    cases hx
    rfl

/-- A body follows if its members do. -/
theorem body {μ : Type} {R : Nat → μ → μ → Prop} {member : List Tree.Annot → Grammar μ}
    (h : ∀ i l m, Summed (Tree.Annot.Akin K) i l m →
      Follows K (Plain (R i)) (member l) (member m)) :
    Follows K (Summed R) (Grammar.body member) (Grammar.body member) := by
  intro c c'
  refine (sigil (by decide) c c').bind_plain fun _ _ _ d d' => ?_
  refine (loop_zero (S := MembersAkin R K) (E := fun r => r.pending = []) ?_
    (fun s c hc => memberStep_ends s hc) (.mk (i := 0) (j := 0) .nil .nil) d d').bind ?_
  · rintro _ s s' (@⟨i, j, _, _, hdone, hpending⟩) d d'
    refine .peek_bind fun t u ht htu => ?_
    rw [htu.kind]
    -- a member takes the annotations that wait
    have hmember : FollowsAt K (fun n x y => MembersAkin R K (i + j + n) x.1 y.1 ∧ y.2 = x.2) d d'
        (do
          let m ← member s.pending.reverse
          return ({ done := m :: s.done }, true))
        (do
          let m ← member s'.pending.reverse
          return ({ done := m :: s'.done }, true)) := by
      refine (h j _ _ hpending.reverse d d').bind_plain fun m m' hm d d' => .pure ⟨?_, rfl⟩
      have hcons : MembersAkin R K (j + i + 0) { done := m :: s.done } { done := m' :: s'.done } :=
        .mk (.cons hm hdone) .nil
      rwa [Nat.add_comm j i] at hcons
    have hsame : MembersAkin R K (i + j) s s' := .mk hdone hpending
    cases hkind : t.kind with
    | closeCurl =>
      -- at the end of a body no annotation waits, so nothing is left over
      have hreverse := hpending.reverse
      dsimp only
      generalize s.pending.reverse = l, s'.pending.reverse = m at hreverse
      cases hreverse with
      | nil =>
        exact (FollowsAt.advance ht (by simp [hkind])).bind_plain fun _ _ _ _ _ => .pure ⟨hsame, rfl⟩
      | cons => exact FollowsAt.bind (M := fun _ _ _ => False) .fail fun _ _ _ _ _ h => h.elim
    | atSign =>
      refine (annot d d').bind fun n a a' d d' ha => .pure ⟨?_, rfl⟩
      have hcons : MembersAkin R K (i + (n + j)) { s with pending := a :: s.pending }
          { s' with pending := a' :: s'.pending } := .mk hdone (.cons ha hpending)
      rwa [Nat.add_comm n j, ← Nat.add_assoc] at hcons
    | semicolon =>
      exact (FollowsAt.advance ht (by simp [hkind])).bind_plain fun _ _ _ _ _ => .pure ⟨hsame, rfl⟩
    | _ => exact hmember
  · rintro _ s s' d d' ⟨⟨hdone, hpending⟩, hnone⟩
    rw [hnone] at hpending
    obtain ⟨rfl, -⟩ := hpending.eq_zero_of_nil
    exact .pure hdone.reverse

/-- A member of a message. -/
theorem messageMember {i : Nat} {l m : List Tree.Annot} (h : Summed (Tree.Annot.Akin K) i l m) :
    Follows K (Plain (Tree.Field.Akin K i)) (Grammar.messageMember l) (Grammar.messageMember m) := by
  intro c c'
  refine .peek_bind fun t u _ htu => ?_
  rw [htu.kind, htu.text]
  cases t.kind with
  | ident =>
    dsimp only
    -- the two tokens have one kind and one text, so one branch is taken
    cases unsupportedMember? t.text with
    | some feature => exact .failUnsupported
    | none => exact field h c c'
  | openSquare => exact .failUnsupported
  | _ => exact .failExpected

/-- A name and the members of a body. -/
abbrev NamedAkin {μ : Type} (R : Nat → μ → μ → Prop) (i : Nat) (x y : Tree.Ident × List μ) : Prop :=
  x.1.Akin y.1 ∧ Summed R i x.2 y.2

/-- A keyword, a name and a body. -/
theorem named {μ : Type} {R : Nat → μ → μ → Prop} {member : List Tree.Annot → Grammar μ}
    (h : ∀ i l m, Summed (Tree.Annot.Akin K) i l m →
      Follows K (Plain (R i)) (member l) (member m))
    (ht : Grammar.peek c = .ok (t, c)) (hkind : t.kind ≠ .atSign) :
    FollowsAt K (NamedAkin R) c c'
      (do
        Grammar.advance
        let name ← Grammar.ident
        let members ← Grammar.body member
        return (name, members))
      (do
        Grammar.advance
        let name ← Grammar.ident
        let members ← Grammar.body member
        return (name, members)) := by
  -- only the members can hold annotations, so only they are counted
  refine (FollowsAt.advance ht hkind).bind_plain fun _ _ _ d d' => ?_
  refine (ident d d').bind_plain fun name name' hname d d' => ?_
  exact (body h d d').bind fun i members members' d d' hmembers => .pure ⟨hname, hmembers⟩

/-- A message, with the annotations in front of it and inside. -/
theorem message {i : Nat} {l m : List Tree.Annot} (h : Summed (Tree.Annot.Akin K) i l m)
    (ht : Grammar.peek c = .ok (t, c)) (hkind : t.kind ≠ .atSign) :
    FollowsAt K (fun n => Tree.Message.Akin K (i + n)) c c' (Grammar.message l)
      (Grammar.message m) := by
  refine .located (named (fun _ _ _ => messageMember) ht hkind) ?_
  rintro loc loc' n ⟨name, fields⟩ ⟨name', fields'⟩ hplace ⟨hname, hfields⟩
  exact .mk hplace h hname hfields

/-! ## §7 Services -/

/-- A parameter in parentheses. -/
theorem parameter : Follows K (Optional SameType) Grammar.parameter Grammar.parameter := by
  intro c c'
  refine (accept (by decide) c c').bind_plain ?_
  rintro b _ rfl d d'
  refine .ite Iff.rfl (fun _ => .pure ⟨rfl, .none⟩) fun _ => ?_
  refine (typeRef d d').bind_plain fun type type' htype d d' => ?_
  exact (sigil (by decide) d d').bind_plain fun _ _ _ _ _ => .pure ⟨rfl, .some htype⟩

/-- A type that has to be there. -/
theorem someType : Follows K (Optional SameType) (some <$> Grammar.typeRef)
    (some <$> Grammar.typeRef) := by
  intro c c'
  refine (typeRef c c').map ?_
  rintro _ a b ⟨rfl, hab⟩
  exact ⟨rfl, .some hab⟩

/-- The input of a method. -/
theorem methodInput : Follows K (Optional SameType) Grammar.methodInput Grammar.methodInput := by
  intro c c'
  refine (accept (by decide) c c').bind_plain ?_
  rintro b _ rfl d d'
  refine .ite Iff.rfl (fun _ => parameter d d') fun _ => .peek_bind fun t u _ htu => ?_
  rw [htu.kind, htu.text]
  exact .ite Iff.rfl (fun _ => someType d d') fun _ => .pure ⟨rfl, .none⟩

/-- The mark in front of the answer. -/
theorem outputMark : Follows K (Plain Eq) Grammar.outputMark Grammar.outputMark := by
  intro c c'
  refine (acceptWord _ c c').bind_plain ?_
  rintro b _ rfl d d'
  exact .ite Iff.rfl (fun _ => .pure ⟨rfl, rfl⟩) fun _ => accept (by decide) d d'

/-- The answer of a method. -/
theorem methodOutput : Follows K (Optional SameType) Grammar.methodOutput Grammar.methodOutput := by
  intro c c'
  refine (outputMark c c').bind_plain ?_
  rintro b _ rfl d d'
  refine .ite Iff.rfl (fun _ => (accept (by decide) d d').bind_plain ?_) fun _ => .pure ⟨rfl, .none⟩
  rintro b _ rfl d d'
  exact .ite Iff.rfl (fun _ => parameter d d') fun _ => someType d d'

/-- The end of a method. -/
theorem methodEnd : Follows K (Plain fun _ _ => True) Grammar.methodEnd Grammar.methodEnd := by
  intro c c'
  refine (accept (by decide) c c').bind_plain ?_
  rintro b _ rfl d d'
  refine .ite Iff.rfl (fun _ => ?_) fun _ => sigil (by decide) d d'
  -- semicolons between the brackets, in the same number
  refine loop_plain (R := fun _ _ => True) (fun _ _ _ c c' => ?_) trivial d d'
  refine (accept (by decide) c c').bind_plain ?_
  rintro b _ rfl d d'
  refine .ite Iff.rfl (fun _ => .pure ⟨rfl, trivial, rfl⟩) fun _ => (atWord _ d d').bind_plain ?_
  rintro b _ rfl d d'
  refine .ite Iff.rfl (fun _ => .failUnsupported) fun _ => ?_
  exact (sigil (by decide) d d').bind_plain fun _ _ _ _ _ => .pure ⟨rfl, trivial, rfl⟩

/-- The parts of a method that follow its annotations. -/
structure MethodParts
    (x y : Tree.Ident × Option Tree.TypeRef × Option Tree.TypeRef) : Prop where
  name : x.1.Akin y.1
  input : Option.Rel SameType x.2.1 y.2.1
  output : Option.Rel SameType x.2.2 y.2.2

/-- A method, with the annotations in front of it. -/
theorem method {i : Nat} {l m : List Tree.Annot} (h : Summed (Tree.Annot.Akin K) i l m)
    (ht : Grammar.peek c = .ok (t, c)) (hkind : t.kind ≠ .atSign) :
    FollowsAt K (Plain (Tree.Method.Akin K i)) c c' (Grammar.method l) (Grammar.method m) := by
  refine .located (M := Plain MethodParts) ?_ ?_
  · refine (FollowsAt.advance ht hkind).bind_plain fun _ _ _ d d' => ?_
    refine (ident d d').bind_plain fun name name' hname d d' => ?_
    refine (methodInput d d').bind_plain fun input input' hinput d d' => ?_
    refine (methodOutput d d').bind_plain fun output output' houtput d d' => ?_
    exact (methodEnd d d').bind_plain fun _ _ _ _ _ => .pure ⟨rfl, hname, hinput, houtput⟩
  · -- no text is replaced within a method, only among the annotations before it
    rintro loc loc' _ ⟨name, input, output⟩ ⟨name', input', output'⟩ hplace
      ⟨rfl, hname, hinput, houtput⟩
    exact ⟨rfl, hplace, h, hname, hinput, houtput⟩

/-- A member of a service. -/
theorem serviceMember {i : Nat} {l m : List Tree.Annot} (h : Summed (Tree.Annot.Akin K) i l m) :
    Follows K (Plain (Tree.Method.Akin K i)) (Grammar.serviceMember l) (Grammar.serviceMember m) := by
  intro c c'
  refine .atWord_bind fun t ht => .ite Iff.rfl (fun hword => method h ht (ne_atSign_of_isWord hword))
    fun _ => ?_
  refine .atWord_bind fun t _ => .ite Iff.rfl (fun _ => .failUnsupported) fun _ => ?_
  exact .atWord_bind fun t _ => .ite Iff.rfl (fun _ => .failUnsupported) fun _ => .failExpected

/-- A service, with the annotations in front of it and inside. -/
theorem service {i : Nat} {l m : List Tree.Annot} (h : Summed (Tree.Annot.Akin K) i l m)
    (ht : Grammar.peek c = .ok (t, c)) (hkind : t.kind ≠ .atSign) :
    FollowsAt K (fun n => Tree.Service.Akin K (i + n)) c c' (Grammar.service l)
      (Grammar.service m) := by
  refine .located (named (fun _ _ _ => serviceMember) ht hkind) ?_
  rintro loc loc' n ⟨name, methods⟩ ⟨name', methods'⟩ hplace ⟨hname, hmethods⟩
  exact .mk hplace h hname hmethods

/-! ## §8 Files -/

/-- The package. -/
theorem package (ht : Grammar.peek c = .ok (t, c)) (hkind : t.kind ≠ .atSign) :
    FollowsAt K (Plain fun p q : Tree.Package => p.name.Akin q.name) c c' Grammar.package
      Grammar.package := by
  refine .located (M := Plain Tree.Path.Akin) ?_ fun loc loc' i a b _ h => h
  refine (FollowsAt.advance ht hkind).bind_plain fun _ _ _ d d' => ?_
  refine (path d d').bind_plain fun name name' hname d d' => ?_
  exact (sigil (by decide) d d').bind_plain fun _ _ _ _ _ => .pure ⟨rfl, hname⟩

/-- The version statement. -/
theorem version (ht : Grammar.peek c = .ok (t, c)) (hkind : t.kind ≠ .atSign) :
    FollowsAt K (Plain fun _ _ => True) c c' Grammar.version Grammar.version := by
  refine (FollowsAt.advance ht hkind).bind_plain fun _ _ _ d d' => ?_
  refine (sigil (by decide) d d').bind_plain fun _ _ _ d d' => ?_
  refine (textLit d d').bind_plain fun v v' hv d d' => ?_
  refine (sigil (by decide) d d').bind_plain fun _ _ _ d d' => ?_
  exact .ite (by rw [hv]) (fun _ => .pure ⟨rfl, trivial⟩) fun _ => .fail

/-- A setting. -/
theorem setting (ht : Grammar.peek c = .ok (t, c)) (hkind : t.kind ≠ .atSign) :
    FollowsAt K (Plain Tree.Setting.Akin) c c' Grammar.setting Grammar.setting := by
  refine .located (M := Plain fun x y : Tree.Path × Tree.Value => x.1.Akin y.1 ∧ x.2.Akin y.2) ?_ ?_
  · refine (FollowsAt.advance ht hkind).bind_plain fun _ _ _ d d' => ?_
    refine (path d d').bind_plain fun name name' hname d d' => ?_
    refine (sigil (by decide) d d').bind_plain fun _ _ _ d d' => ?_
    refine (value d d').bind_plain fun v v' hv d d' => ?_
    exact (sigil (by decide) d d').bind_plain fun _ _ _ _ _ => .pure ⟨rfl, hname, hv⟩
  · rintro loc loc' _ ⟨name, v⟩ ⟨name', v'⟩ _ ⟨rfl, hname, hv⟩
    exact ⟨rfl, hname, hv⟩

/-- Two options that are akin are both there or both missing. -/
theorem isSome_eq_of_rel {R : α → β → Prop} {a : Option α} {b : Option β} (h : Option.Rel R a b) :
    b.isSome = a.isSome := by
  cases h <;> rfl

/-- What has been read of a file. -/
inductive DraftAkin (K : Rewording) : Nat → Draft → Draft → Prop where
  | mk {i j : Nat} {a b : Draft}
      (package : Option.Rel (fun p q : Tree.Package => p.name.Akin q.name) a.package b.package)
      (options : List.Forall₂ Tree.Setting.Akin a.options b.options)
      (decls : Summed (Tree.Decl.Akin K) i a.decls b.decls)
      (pending : Summed (Tree.Annot.Akin K) j a.pending b.pending) : DraftAkin K (i + j) a b

/-- A statement of the file, added to what was read before. -/
theorem statement {k : Nat} {s s' : Draft} (h : DraftAkin K k s s') :
    Follows K (fun n => DraftAkin K (k + n)) (Grammar.statement s) (Grammar.statement s') := by
  cases h with
  | @mk i j _ _ hpackage hoptions hdecls hpending =>
  intro c c'
  refine .peek_bind fun t u ht htu => ?_
  simp only [htu.isWord]
  -- a declaration takes the annotations that wait
  have hdecl {n : Nat} {a b : Tree.Decl} (hab : a.Akin K (j + n) b) :
      DraftAkin K (i + j + n) { s with decls := a :: s.decls, pending := [] }
        { s' with decls := b :: s'.decls, pending := [] } := by
    have hsum : i + j + n = j + n + i + 0 := by omega
    rw [hsum]
    exact .mk hpackage hoptions (.cons hab hdecls) .nil
  refine .ite Iff.rfl (fun hword => ?_) fun _ => ?_
  · refine (message hpending.reverse ht (ne_atSign_of_isWord hword)).bind
      fun n m m' d d' hm => .pure (hdecl (.message hm))
  refine .ite Iff.rfl (fun hword => ?_) fun _ => ?_
  · refine (service hpending.reverse ht (ne_atSign_of_isWord hword)).bind
      fun n m m' d d' hm => .pure (hdecl (.service hm))
  -- nothing else may have annotations in front of it
  cases hrev : s.pending.reverse with
  | cons a r =>
    have hnone : Grammar.noPending (a :: r)
        = (Grammar.fail ⟨.danglingAnnots, a.loc.span, a.loc.pos⟩ : Grammar Unit) := rfl
    exact FollowsAt.bind (M := fun _ _ _ => False) (hnone ▸ .fail) fun _ _ _ _ _ h => h.elim
  | nil =>
    have hnil : s.pending = [] := List.reverse_eq_nil_iff.mp hrev
    rw [hnil] at hpending
    obtain ⟨rfl, hnil'⟩ := hpending.eq_zero_of_nil
    have hrest {a b : Draft} (hpackage : Option.Rel (fun p q : Tree.Package => p.name.Akin q.name)
        a.package b.package) (hoptions : List.Forall₂ Tree.Setting.Akin a.options b.options)
        (hdecls : Summed (Tree.Decl.Akin K) i a.decls b.decls) (ha : a.pending = [])
        (hb : b.pending = []) : DraftAkin K (i + 0 + 0) a b := by
      refine .mk hpackage hoptions hdecls ?_
      rw [ha, hb]
      exact .nil
    rw [hnil']
    refine FollowsAt.ite Iff.rfl (fun hword => ?_) fun _ => ?_
    · refine (package ht (ne_atSign_of_isWord hword)).bind_plain fun p p' hp d d' => ?_
      exact .ite (by rw [isSome_eq_of_rel hpackage]) (fun _ => .fail)
        fun _ => .pure (hrest (.some hp) hoptions hdecls hnil rfl)
    refine .ite Iff.rfl (fun hword => ?_) fun _ => ?_
    · exact (version ht (ne_atSign_of_isWord hword)).bind_plain
        fun _ _ _ _ _ => .pure (hrest hpackage hoptions hdecls hnil rfl)
    refine .ite Iff.rfl (fun hword => ?_) fun _ => ?_
    · exact (setting ht (ne_atSign_of_isWord hword)).bind_plain
        fun o o' ho _ _ => .pure (hrest hpackage (.cons ho hoptions) hdecls hnil rfl)
    refine .ite Iff.rfl (fun _ => .failUnsupported) fun _ => ?_
    refine .ite Iff.rfl (fun _ => .failUnsupported) fun _ => ?_
    exact .ite Iff.rfl (fun _ => .failUnsupported) fun _ => .failExpected

/-- One step of the loop over the file. -/
theorem fileStep {k : Nat} {s s' : Draft} (h : DraftAkin K k s s') :
    Follows K (fun n x y => DraftAkin K (k + n) x.1 y.1 ∧ y.2 = x.2) (Grammar.fileStep s)
      (Grammar.fileStep s') := by
  intro c c'
  refine .peek_bind fun t u ht htu => ?_
  have hstatement : FollowsAt K (fun n x y => DraftAkin K (k + n) x.1 y.1 ∧ y.2 = x.2) c c'
      (do return (← Grammar.statement s, true)) (do return (← Grammar.statement s', true)) :=
    (statement h c c').bind fun n a b _ _ hab => .pure ⟨hab, rfl⟩
  rw [htu.kind]
  cases hkind : t.kind with
  -- the end: both stop
  | eof => exact .pure ⟨h, rfl⟩
  -- an annotation joins those that wait, and its literals are counted with theirs
  | atSign =>
    refine (annot c c').bind fun n a b _ _ hab => .pure ⟨?_, rfl⟩
    cases h with
    | @mk i j _ _ hpackage hoptions hdecls hpending =>
      have hsum : i + j + (n + 0) = i + (n + j) := by omega
      rw [hsum]
      exact .mk hpackage hoptions hdecls (.cons hab hpending)
  | semicolon =>
    exact (FollowsAt.advance ht (by simp [hkind])).bind_plain fun _ _ _ _ _ => .pure ⟨h, rfl⟩
  | _ => exact hstatement

end Follows

/-- A file is akin, with as many texts reworded as there are in its tokens. -/
theorem exists_file_akin {k : Nat} {requirePackage : Bool} {f : Tree.File} (hc : c.Akin K k c')
    (h : file requirePackage c = .ok (f, d)) :
    ∃ f' d', file requirePackage c' = .ok (f', d') ∧ f.Akin K k f' := by
  have hget (c : Cursor) : (get : Grammar Cursor) c = .ok (c, c) := rfl
  unfold file at h ⊢
  rw [bind_of_ok (hget c)] at h
  rw [bind_of_ok (hget c')]
  obtain ⟨s, c₁, hloop, h⟩ := exists_of_bind_eq_ok h
  have hstart : Follows.DraftAkin K 0 {} {} := .mk (i := 0) (j := 0) .none .nil .nil .nil
  obtain ⟨s', c₁', i, j, hloop', ⟨hdraft, -⟩, hc₁, rfl⟩ := Follows.loop_zero (E := fun _ => True)
    (fun i s s' hs => Follows.fileStep hs) (fun _ _ _ _ _ _ _ => trivial) hstart c c' k hc _ _ hloop
  -- at the end no token is left, and no annotation waits
  obtain rfl : j = 0 := by
    have hrest := hc₁.rest
    rw [(eof_of_loop hc.proper hloop).1] at hrest
    exact hrest.eq_zero_of_nil
  obtain ⟨_, c₂, hnone, h⟩ := exists_of_bind_eq_ok h
  obtain ⟨hpending, rfl⟩ : s.pending = [] ∧ c₁ = c₂ := by
    cases hrev : s.pending.reverse with
    | nil =>
      rw [hrev] at hnone
      cases hnone
      exact ⟨List.reverse_eq_nil_iff.mp hrev, rfl⟩
    | cons a r =>
      rw [hrev] at hnone
      cases hnone
  obtain ⟨e, c₂, hpeek, h⟩ := exists_of_bind_eq_ok h
  obtain rfl := eq_of_peek_eq_ok hpeek
  obtain ⟨e', hpeek', -⟩ := exists_of_peek hc₁ hpeek
  cases hdraft with
  | @mk i j _ _ hpackage hoptions hdecls hannots =>
    rw [hpending] at hannots
    obtain ⟨rfl, hpending'⟩ := hannots.eq_zero_of_nil
    have hmissing : s'.package.isNone = s.package.isNone := by
      rw [← Option.not_isSome, ← Option.not_isSome, Follows.isSome_eq_of_rel hpackage]
    have hnone' : noPending s'.pending.reverse c₁' = .ok ((), c₁') := by
      rw [hpending']
      rfl
    rw [bind_of_ok hloop', bind_of_ok hnone', bind_of_ok hpeek', hmissing]
    split at h
    · cases h
    · next hrequire =>
      rw [if_neg hrequire, bind_of_ok (hget c₁')]
      rw [bind_of_ok (hget c₁)] at h
      cases h
      exact ⟨_, _, rfl, hpackage, List.rel_reverse hoptions, hdecls.reverse⟩

end Grammar

end Idl
