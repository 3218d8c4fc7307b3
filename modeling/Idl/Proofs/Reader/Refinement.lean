import Idl.Proofs.Reader.Linked

/-!
# What the reader does, by the grammar

A part of the reader refines a piece of grammar if it never ends the program, comes to what the
grammar comes to, and keeps the link between the two; where the grammar gives up, the reader has the
same error, and what it still does changes nothing.

* §1 going on after an error, §2 refinement,
* §3 single tokens,
* §4 nodes, pieces within pieces and loops.
-/

namespace Idl.Reader

variable {α β γ δ σ τ : Type} {src : Bytes} {m m' : Context} {c c' first : Cursor} {t : Token}

/-! ## §1 After an error -/

/-- Nothing is said of a result. -/
def Anyhow (_ : SyntaxError) (_ : α) : Prop := True

/-- A piece comes to nothing but its error. -/
def Aborted (e : SyntaxError) (x : Piece α) : Prop := x = (none, some e)

/-- After an error a part of the reader does not end the program, and the error stays. -/
class Stays (p : Reader α) (E : SyntaxError → α → Prop) : Prop where
  stays : ∀ {src e m}, Failed src e m → ∃ a m', p m = some (a, m') ∧ Failed src e m' ∧ E e a

section stays

variable {E : SyntaxError → α → Prop}

instance (a : α) : Stays (pure a) Anyhow := ⟨fun h => ⟨a, _, rfl, h, trivial⟩⟩

instance {p : Reader β} {k : β → Reader α} [hp : Stays p Anyhow] [hk : ∀ b, Stays (k b) E] :
    Stays (p >>= k) E where
  stays h := by
    obtain ⟨b, m₁, hpm, hm₁, -⟩ := hp.stays h
    rw [bind_of_some hpm]
    exact (hk b).stays hm₁

instance {b : Prop} [Decidable b] {p q : Reader α} [hp : Stays p E] [hq : Stays q E] :
    Stays (if b then p else q) E := by
  split
  · exact hp
  · exact hq

instance {o : Option β} {q : Reader α} {f : β → Reader α} [hq : Stays q E] [hf : ∀ b, Stays (f b) E] :
    Stays (o.elim q f) E := by
  cases o with
  | none => exact hq
  | some b => exact hf b

/-- After an error no token is got, so that what would be done with it does not matter. -/
instance (priority := high) {p q : Reader α} [hq : Stays q E] :
    Stays (ensureToken >>= fun b => if b = true then p else q) E where
  stays {src e m} h := by
    have hensure : ensureToken m = some (false, m) := by
      rw [ensureToken, get_bind, h.error]
      rfl
    rw [bind_of_some hensure]
    exact hq.stays h

instance : Stays kind Anyhow := ⟨fun h => ⟨_, _, rfl, h, trivial⟩⟩

instance : Stays tokenSpan Anyhow := ⟨fun h => ⟨_, _, rfl, h, trivial⟩⟩

instance : Stays failed Anyhow := ⟨fun h => ⟨_, _, rfl, h, trivial⟩⟩

instance : Stays readToken Anyhow where
  stays {src e m} h := by
    have hwithin := h.within
    have hbound := h.bound
    refine ⟨(src.drop m.offset).take (m.offset + m.token.length - m.offset), m, ?_, h, trivial⟩
    rw [readToken, get_bind, need, h.source, slice?_eq (Nat.le_add_right _ _) (by omega)]
    rfl

instance : Stays tokenLoc Anyhow where
  stays {src e m} h := by
    have hwithin := h.within
    have hbound := h.bound
    have hpos : posOf m.offset m = some (Pos.ofOffset m.src m.offset, m) := by
      rw [posOf, get_bind, h.source, slice?_eq (Nat.zero_le _) (by omega)]
      rfl
    refine ⟨⟨⟨m.offset, m.token.length⟩, Pos.ofOffset m.src m.offset⟩, m, ?_, h, trivial⟩
    rw [tokenLoc, bind_of_some (show tokenSpan m = some (⟨m.offset, m.token.length⟩, m) from rfl),
      bind_of_some hpos]
    rfl

instance : Stays consumeToken Anyhow :=
  ⟨fun h => ⟨_, _, rfl, ⟨h.source, h.error, h.within, h.bound⟩, trivial⟩⟩

instance (cause : SyntaxCause) (span : Span) : Stays (fail cause span) Anyhow where
  stays {src e m} h := by
    refine ⟨_, _, rfl, ⟨h.source, ?_, h.within, h.bound⟩, trivial⟩
    change some (m.error.getD _) = _
    rw [h.error]
    rfl

instance (cause : TokenKind → Bytes → SyntaxCause) : Stays (failHere cause) Anyhow := by
  unfold failHere
  infer_instance

instance (want : TokenKind) : Stays (peek want) Anyhow := by
  unfold peek
  infer_instance

instance : Stays peekKeyword Anyhow := by
  unfold peekKeyword
  infer_instance

instance (want : TokenKind) : Stays (sigil want) Anyhow := by
  unfold sigil
  infer_instance

instance (want : TokenKind) : Stays (trySigil want) Anyhow := by
  unfold trySigil
  infer_instance

instance (word : Bytes) : Stays (tryKeyword word) Anyhow := by
  unfold tryKeyword
  infer_instance

instance : Stays ident Anyhow := by
  unfold ident
  infer_instance

instance : Stays int Anyhow := by
  unfold int
  infer_instance

instance : Stays text Anyhow := by
  unfold text
  infer_instance

instance (feature : Feature) : Stays (unsupported feature) Anyhow := by
  unfold unsupported
  infer_instance

instance : Stays (abort : Reader (Piece α)) Aborted :=
  ⟨fun h => ⟨_, _, rfl, h, congrArg (none, ·) h.error⟩⟩

instance (build : Loc → Option α) : Stays (finish build) Aborted where
  stays {src e m} h := by
    refine ⟨(none, some e), m, ?_, h, rfl⟩
    rw [finish, get_bind, h.error]
    rfl

instance (piece : Reader (Piece α)) : Stays (child piece) Anyhow where
  stays {src e m} h := by
    refine ⟨none, m, ?_, h, trivial⟩
    rw [child, get_bind, h.error]
    rfl

instance (step : σ → Reader (σ × Bool)) (s : σ) : Stays (loop step s) Anyhow where
  stays {src e m} h := by
    refine ⟨s, m, ?_, h, trivial⟩
    rw [loop, get_bind, h.error]
    rfl

end stays

/-! ## §2 Refinement -/

/-- A part of the reader refines a piece of grammar at a context and a cursor that are linked: `Q`
relates the results, and `E` says what the reader comes to where the grammar gives up. -/
def Refines (src : Bytes) (first : Cursor) (m : Context) (c : Cursor) (p : Reader α) (g : Grammar β)
    (Q : β → α → Context → Prop) (E : SyntaxError → α → Prop) : Prop :=
  match g c with
  | .error e => ∃ a m', p m = some (a, m') ∧ Failed src e m' ∧ E e a
  | .ok (b, c') =>
    ∃ a m', p m = some (a, m') ∧ Linked src first m' c' ∧ m.consumed ≤ m'.consumed ∧ Q b a m'

section refines

variable {p : Reader α} {g : Grammar β} {Q : β → α → Context → Prop} {E : SyntaxError → α → Prop}

/-- Where the grammar gives up, the reader has come to its error. -/
theorem refines_of_error {e : SyntaxError} {a : α} (hg : g c = .error e) (hp : p m = some (a, m'))
    (hm' : Failed src e m') (hE : E e a) : Refines src first m c p g Q E := by
  rw [Refines, hg]
  exact ⟨a, m', hp, hm', hE⟩

/-- Where the grammar goes on, the reader is linked to it again. -/
theorem refines_of_ok {a : α} {b : β} (hg : g c = .ok (b, c')) (hp : p m = some (a, m'))
    (hm' : Linked src first m' c') (hle : m.consumed ≤ m'.consumed) (hQ : Q b a m') :
    Refines src first m c p g Q E := by
  rw [Refines, hg]
  exact ⟨a, m', hp, hm', hle, hQ⟩

/-- Giving related results. -/
theorem refines_pure {a : α} {b : β} {E : SyntaxError → α → Prop} (hm : Linked src first m c)
    (hQ : Q b a m) : Refines src first m c (pure a) (pure b) Q E :=
  refines_of_ok rfl rfl hm le_rfl hQ

namespace Refines

/-- The grammar may be replaced by one that does the same here. -/
theorem congr {g' : Grammar β} (hg : g c = g' c) (h : Refines src first m c p g' Q E) :
    Refines src first m c p g Q E := by
  unfold Refines at h ⊢
  rwa [hg]

/-- A weaker relation between the results. -/
theorem conseq {Q' : β → α → Context → Prop} (h : Refines src first m c p g Q E)
    (hQ : ∀ b a m', Q b a m' → Q' b a m') : Refines src first m c p g Q' E := by
  unfold Refines at h ⊢
  cases hg : g c with
  | error e => rwa [hg] at h
  | ok x =>
    rw [hg] at h
    obtain ⟨a, m', hp, hm', hle, hq⟩ := h
    exact ⟨a, m', hp, hm', hle, hQ _ _ _ hq⟩

/-- A sequence: the parts after an error stay with it, the others refine in turn. -/
theorem bind {k : α → Reader γ} {h : β → Grammar δ} {Q' : δ → γ → Context → Prop}
    {E' : SyntaxError → γ → Prop} [hstays : ∀ a, Stays (k a) E']
    (hp : Refines src first m c p g Q Anyhow)
    (hk : ∀ b a m' c', g c = .ok (b, c') → Linked src first m' c' → m.consumed ≤ m'.consumed →
      Q b a m' → Refines src first m' c' (k a) (h b) Q' E') :
    Refines src first m c (p >>= k) (g >>= h) Q' E' := by
  unfold Refines at hp
  cases hg : g c with
  | error e =>
    rw [hg] at hp
    obtain ⟨a, m₁, hpm, hm₁, -⟩ := hp
    -- the grammar stops here, while the reader runs its other part over the error
    obtain ⟨b, m₂, hkm, hm₂, hE⟩ := (hstays a).stays hm₁
    refine refines_of_error ?_ ((bind_of_some hpm).trans hkm) hm₂ hE
    rw [Grammar.bind_apply, hg]
    rfl
  | ok x =>
    obtain ⟨b, c₁⟩ := x
    rw [hg] at hp
    obtain ⟨a, m₁, hpm, hm₁, hle, hq⟩ := hp
    have hrest := hk b a m₁ c₁ hg hm₁ hle hq
    unfold Refines at hrest ⊢
    rw [Grammar.bind_of_ok hg, bind_of_some hpm]
    cases hh : h b c₁ with
    | error e => rwa [hh] at hrest
    | ok y =>
      rw [hh] at hrest
      obtain ⟨a', m₂, hkm, hm₂, hle₂, hq₂⟩ := hrest
      exact ⟨a', m₂, hkm, hm₂, hle.trans hle₂, hq₂⟩

/-- A part of the reader may do something of its own that changes nothing. -/
theorem look {q : Reader γ} {x : γ} {k : γ → Reader α} (hq : q m = some (x, m))
    (h : Refines src first m c (k x) g Q E) : Refines src first m c (q >>= k) g Q E := by
  unfold Refines at h ⊢
  rwa [bind_of_some hq]

/-- Getting a token is the same as looking at it. -/
theorem ensure {q : Reader α} {k : Token → Grammar β} [hstays : Stays q E] (hm : Linked src first m c)
    (h : ∀ t m', Holding src first m' c t → m'.consumed = m.consumed →
      Refines src first m' c p (k t) Q E) :
    Refines src first m c (ensureToken >>= fun b => if b = true then p else q)
      (Grammar.peek >>= k) Q E := by
  have hgets := gets_ensureToken hm.stands
  unfold Gets at hgets
  cases hpeek : Grammar.peek c with
  -- no token can be had, and the context has the error
  | error e =>
    rw [hpeek] at hgets
    obtain ⟨m₁, hensure, hm₁⟩ := hgets
    obtain ⟨a, m₂, hq, hm₂, hE⟩ := hstays.stays hm₁
    refine refines_of_error ?_ ((bind_of_some hensure).trans hq) hm₂ hE
    rw [Grammar.bind_apply, hpeek]
    rfl
  | ok x =>
    obtain ⟨t, c₁⟩ := x
    rw [hpeek] at hgets
    obtain ⟨m₁, hensure, hm₁, hloaded, ht, hsame⟩ := hgets
    have hrest := h t m₁ ⟨⟨hm₁, hm.extent.of_same hsame⟩, hloaded, ht⟩ hsame.consumed
    unfold Refines at hrest ⊢
    rw [Grammar.bind_of_ok ht.peek, bind_of_some hensure, ← hsame.consumed]
    exact hrest

/-- With a token in hand, looking at it gives that token. -/
theorem peek_bind {k : Token → Grammar β} (hm : Holding src first m c t)
    (h : Refines src first m c p (k t) Q E) : Refines src first m c p (Grammar.peek >>= k) Q E :=
  h.congr (Grammar.bind_of_ok hm.hand.peek)

end Refines

end refines

/-! ## §3 Single tokens -/

section tokens

variable {E : SyntaxError → Unit → Prop}

/-- With a token in hand that is not the end of the source, both sides consume it. -/
theorem refines_consumeToken (hm : Holding src first m c t) (hkind : t.kind ≠ .eof) :
    Refines src first m c consumeToken Grammar.advance (fun _ _ m' => m.consumed < m'.consumed)
      E := by
  obtain ⟨r, hrest⟩ := hm.exists_rest hkind
  obtain ⟨m', hconsume, hm', hcount⟩ := hm.consumeToken_eq hrest
  exact refines_of_ok (Holding.advance_eq hrest) hconsume hm' (by omega) (by omega)

/-- Where the grammar gives up, the reader may do other things after it has the error. -/
theorem refines_of_failed {p : Reader α} {k : α → Reader γ} {g : Grammar δ}
    {Q : δ → γ → Context → Prop} {E : SyntaxError → γ → Prop} [hk : ∀ a, Stays (k a) E]
    {e : SyntaxError} (hp : ∃ a m', p m = some (a, m') ∧ Failed src e m') (hg : g c = .error e) :
    Refines src first m c (p >>= k) g Q E := by
  obtain ⟨a, m₁, hpm, hm₁⟩ := hp
  obtain ⟨b, m₂, hkm, hm₂, hE⟩ := (hk a).stays hm₁
  exact refines_of_error hg ((bind_of_some hpm).trans hkm) hm₂ hE

/-- A failure at the next token, of the grammar. -/
theorem failHere_apply (hpeek : Grammar.peek c = .ok (t, c)) (cause : Token → SyntaxCause) :
    (Grammar.failHere cause : Grammar β) c = .error (.atToken (cause t) t) := by
  rw [Grammar.failHere, Grammar.bind_of_ok hpeek]
  rfl

/-- And of the reader. -/
theorem refines_failHere (hm : Holding src first m c t) (cause : TokenKind → Bytes → SyntaxCause)
    {Q : β → Unit → Context → Prop} :
    Refines src first m c (failHere cause) (Grammar.failHere fun t => cause t.kind t.text) Q
      Anyhow := by
  obtain ⟨m', hfail, hm'⟩ := hm.failHere_eq cause
  exact refines_of_error (failHere_apply hm.hand.peek _) hfail hm' trivial

/-- The reader may go on after it, and the error stays. -/
theorem refines_failHere_bind (hm : Holding src first m c t)
    (cause : TokenKind → Bytes → SyntaxCause) {k : Unit → Reader γ} {Q : δ → γ → Context → Prop}
    {E : SyntaxError → γ → Prop} [∀ a, Stays (k a) E] :
    Refines src first m c (failHere cause >>= k) (Grammar.failHere fun t => cause t.kind t.text) Q
      E := by
  obtain ⟨m', hfail, hm'⟩ := hm.failHere_eq cause
  exact refines_of_failed ⟨(), m', hfail, hm'⟩ (failHere_apply hm.hand.peek _)

/-- An attempt at a sign, beginning with the token. -/
theorem trySigil_eq (want : TokenKind) : trySigil want = ensureToken >>= fun b =>
    if b = true then (do
      if (← kind) == want then
        consumeToken
        return true
      else return false) else pure false := by
  unfold trySigil peek
  rw [bind_assoc]
  congr
  funext b
  cases b <;> simp

/-- The attempt takes the sign if it stands there. -/
theorem refines_trySigil (hm : Linked src first m c) {want : TokenKind} (hwant : want ≠ .eof) :
    Refines src first m c (trySigil want) (Grammar.accept want)
      (fun b a m' => a = b ∧ (b = true → m.consumed < m'.consumed)) Anyhow := by
  rw [trySigil_eq]
  refine Refines.ensure hm fun t m₁ hm₁ hcount => ?_
  refine Refines.look hm₁.kind_eq ?_
  split
  · -- the sign is there, and no end of the source
    next hkind =>
    refine (refines_consumeToken hm₁ ?_).bind fun _ _ m₂ c₂ _ hm₂ _ hless => ?_
    · rw [beq_iff_eq] at hkind
      exact hkind ▸ hwant
    · exact refines_pure hm₂ ⟨rfl, fun _ => by omega⟩
  · exact refines_pure hm₁.toLinked ⟨rfl, fun h => absurd h Bool.false_ne_true⟩

/-- A look at the kind of the next token. -/
theorem refines_peek (hm : Linked src first m c) (want : TokenKind) :
    Refines src first m c (peek want) (Grammar.peek >>= fun t => pure (t.kind == want))
      (fun b a m' => a = b ∧ m'.consumed = m.consumed ∧ ∃ t, Holding src first m' c t) Anyhow := by
  unfold peek
  refine Refines.ensure hm fun t m₁ hm₁ hcount => ?_
  refine Refines.look hm₁.kind_eq ?_
  exact refines_pure hm₁.toLinked ⟨rfl, hcount, t, hm₁⟩

/-- The text of a token that is a name; empty otherwise. -/
def keyword (t : Token) : Bytes := if t.kind == .ident then t.text else []

/-- A token is a word if its text is. -/
theorem keyword_beq {word : Bytes} (hword : word ≠ []) (t : Token) :
    (keyword t == word) = t.isWord word := by
  unfold keyword Token.isWord
  cases t.kind == .ident with
  | true => rfl
  | false => simpa using Ne.symm hword

/-- A look at the next word. -/
theorem refines_peekKeyword (hm : Linked src first m c) :
    Refines src first m c peekKeyword (Grammar.peek >>= fun t => pure (keyword t))
      (fun b a m' => a = b ∧ m'.consumed = m.consumed ∧ ∃ t, Holding src first m' c t) Anyhow := by
  unfold peekKeyword
  refine Refines.ensure hm fun t m₁ hm₁ hcount => ?_
  refine Refines.look hm₁.kind_eq ?_
  unfold keyword
  split
  · exact refines_of_ok rfl hm₁.readToken_eq hm₁.toLinked le_rfl ⟨rfl, hcount, t, hm₁⟩
  · exact refines_pure hm₁.toLinked ⟨rfl, hcount, t, hm₁⟩

/-- The sign missed is named in the message. -/
theorem expectedSigil?_kind (s : Sigil) : expectedSigil? s.kind = some s := by
  cases s <;> rfl

/-- No sign is the end of the source. -/
theorem kind_ne_eof (s : Sigil) : s.kind ≠ .eof := by
  cases s <;> decide

/-- A sigil that is insisted on has an error of its own. -/
theorem refines_sigil (hm : Linked src first m c) (s : Sigil) :
    Refines src first m c (sigil s.kind) (Grammar.sigil s)
      (fun _ _ m' => m.consumed < m'.consumed) Anyhow := by
  -- the grammar looks at the token once and takes it, as the reader does
  have hg : Grammar.sigil s = Grammar.peek >>= fun t =>
      if t.kind == s.kind then Grammar.advance
      else Grammar.failHere fun t => .missingSigil s t.kind t.text := by
    unfold Grammar.sigil Grammar.accept
    rw [bind_assoc]
    congr
    funext t
    split <;> simp
  rw [hg, sigil]
  refine Refines.ensure hm fun t m₁ hm₁ hcount => ?_
  refine Refines.look hm₁.kind_eq ?_
  split
  · next hkind =>
    rw [beq_iff_eq] at hkind
    exact (refines_consumeToken hm₁ (hkind ▸ kind_ne_eof s)).conseq fun _ _ _ hless => by omega
  · -- another token: the reader looks up how the sign is called
    refine Refines.look (x := s) ?_ (refines_failHere hm₁ _)
    rw [need, expectedSigil?_kind]
    rfl

/-- What was seen of the next token. -/
theorem eq_of_peek_pure {f : Token → γ} {b : γ} (hpeek : Grammar.peek c = .ok (t, c))
    (h : (Grammar.peek >>= fun t => pure (f t)) c = .ok (b, c')) : b = f t ∧ c' = c := by
  rw [Grammar.bind_of_ok hpeek] at h
  cases h
  exact ⟨rfl, rfl⟩

/-- A word is taken after a look at it. -/
theorem acceptWord_eq {word : Bytes} (hword : word ≠ []) :
    Grammar.acceptWord word = (Grammar.peek >>= fun t => pure (keyword t)) >>= fun w =>
      if w == word then (do Grammar.advance; return true) else pure false := by
  unfold Grammar.acceptWord Grammar.atWord
  rw [bind_assoc, bind_assoc]
  congr
  funext t
  rw [pure_bind, pure_bind, keyword_beq hword]

/-- The attempt at a keyword takes it if it stands there, and keeps its place. -/
theorem refines_tryKeyword (hm : Linked src first m c) {word : Bytes} (hword : word ≠ []) :
    Refines src first m c (tryKeyword word) (Grammar.acceptWord word)
      (fun b a m' => a.isSome = b ∧ (∀ t, Grammar.peek c = .ok (t, c) → b = true → a = some t.loc)
        ∧ (b = true → m.consumed < m'.consumed)) Anyhow := by
  rw [acceptWord_eq hword, tryKeyword]
  refine (refines_peekKeyword hm).bind fun w a m₁ c₁ hg _ _ ⟨rfl, hcount, t, ht⟩ => ?_
  obtain ⟨rfl, rfl⟩ := eq_of_peek_pure ht.hand.peek hg
  split
  · next hkeyword =>
    -- a keyword is a name, so it can be consumed
    have hkind : t.kind ≠ .eof := by
      rw [keyword_beq hword, Token.isWord, Bool.and_eq_true, beq_iff_eq] at hkeyword
      rw [hkeyword.1]
      decide
    refine Refines.look ht.tokenLoc_eq ?_
    refine (refines_consumeToken ht hkind).bind fun _ _ m₂ c₂ _ hm₂ _ hless => ?_
    refine refines_pure hm₂ ⟨rfl, fun u hu _ => ?_, fun _ => by omega⟩
    rw [ht.hand.peek] at hu
    cases hu
    rfl
  · exact refines_pure ht.toLinked ⟨rfl, fun _ _ h => absurd h Bool.false_ne_true,
      fun h => absurd h Bool.false_ne_true⟩

/-- A name. -/
theorem refines_ident (hm : Linked src first m c) :
    Refines src first m c ident Grammar.ident
      (fun b a m' => a = some b ∧ m.consumed < m'.consumed) Anyhow := by
  unfold ident Grammar.ident
  refine Refines.ensure hm fun t m₁ hm₁ hcount => ?_
  refine Refines.look hm₁.readToken_eq (Refines.look hm₁.kind_eq ?_)
  split
  · -- the place is asked for before the token is given up
    next hkind =>
    rw [beq_iff_eq] at hkind
    refine Refines.look hm₁.tokenLoc_eq ?_
    refine (refines_consumeToken hm₁ (hkind ▸ by decide)).bind fun _ _ m₂ c₂ _ hm₂ _ hless => ?_
    exact refines_pure hm₂ ⟨rfl, by omega⟩
  · exact refines_failHere_bind hm₁ _

/-- A number. -/
theorem refines_int (hm : Linked src first m c) :
    Refines src first m c int Grammar.intLit
      (fun b a m' => a = some b ∧ m.consumed < m'.consumed) Anyhow := by
  unfold int Grammar.intLit
  refine Refines.ensure hm fun t m₁ hm₁ hcount => ?_
  refine Refines.look hm₁.readToken_eq (Refines.look hm₁.kind_eq ?_)
  split
  · next hkind =>
    -- the digits are read as the grammar reads them
    have hvalue := intValue?_eq (hm₁.hand.cut.sound.lead hkind)
    refine Refines.look (x := if fitsLiteral (intLitValue t.kind t.text)
      then some (intLitValue t.kind t.text) else none) ?_ ?_
    · rw [need, hvalue]
      rfl
    dsimp only
    split
    · refine Refines.look hm₁.tokenLoc_eq ?_
      refine (refines_consumeToken hm₁ ?_).bind fun _ _ m₂ c₂ _ hm₂ _ hless => ?_
      · intro heof
        rw [heof] at hkind
        cases hkind
      · exact refines_pure hm₂ ⟨rfl, by omega⟩
    · exact refines_failHere_bind hm₁ fun _ text => .intOutOfRange text
  · exact refines_failHere_bind hm₁ _

/-- A text literal. -/
theorem refines_text (hm : Linked src first m c) :
    Refines src first m c text Grammar.textLit
      (fun b a m' => a = some b ∧ m.consumed < m'.consumed) Anyhow := by
  unfold text Grammar.textLit
  refine Refines.ensure hm fun t m₁ hm₁ hcount => ?_
  refine Refines.look hm₁.readToken_eq (Refines.look hm₁.kind_eq ?_)
  split
  · next hkind =>
    rw [beq_iff_eq] at hkind
    refine Refines.look hm₁.escapes_eq (Refines.look (x := textLitValue t.text) ?_ ?_)
    · rw [need, textValue?_eq (hm₁.hand.cut.sound.quotes hkind) (by simp)]
      rfl
    cases hvalue : textLitValue t.text with
    | ok value =>
      refine Refines.look hm₁.tokenLoc_eq ?_
      refine (refines_consumeToken hm₁ (hkind ▸ by decide)).bind fun _ _ m₂ c₂ _ hm₂ _ hless => ?_
      exact refines_pure hm₂ ⟨rfl, by omega⟩
    -- a bad escape, whose place is counted from the mark
    | error x =>
      obtain ⟨offset, bad⟩ := x
      have hoffset := offset_of_textLitValue hvalue
      refine Refines.look hm₁.tokenSpan_eq ?_
      obtain ⟨m', hfail, hm'⟩ := hm₁.toLinked.fail_eq (.badEscape bad) ⟨t.start + offset, bad.length⟩
      refine refines_of_failed ⟨(), m', hfail, hm'⟩ ?_
      rw [locate, hm₁.hand.cut.ofOffset_add hoffset]
      rfl
  · exact refines_failHere_bind hm₁ _

theorem refines_unsupported (hm : Linked src first m c) (feature : Feature)
    {Q : β → Unit → Context → Prop} :
    Refines src first m c (unsupported feature) (Grammar.failUnsupported feature) Q Anyhow := by
  unfold unsupported Grammar.failUnsupported Grammar.failHere
  refine Refines.ensure hm fun t m₁ hm₁ hcount => ?_
  obtain ⟨m', hfail, hm'⟩ := hm₁.failHere_eq fun _ text => .unsupported feature text
  exact refines_of_error rfl hfail hm' trivial

end tokens

/-! ## §4 Pieces -/

section pieces

variable {R : β → Option α → Prop} {piece : Reader (Piece α)} {g : Grammar β}

/-- A piece ends without an error: with a node if it has a token, and with the next token in hand if
it has none. -/
structure Ends (R : β → Option α → Prop) (b : β) (x : Piece α) (m : Context) : Prop where
  error : x.2 = none
  empty : m.consumed = 0 → m.loaded = true ∧ R b none
  node : m.consumed ≠ 0 → ∃ a, x.1 = some a ∧ R b (some a)

/-- Reading a piece from a cursor on refines a piece of grammar; `R` relates what the grammar comes
to with the node, if there is one. -/
def Parses (src : Bytes) (c : Cursor) (piece : Reader (Piece α)) (g : Grammar β)
    (R : β → Option α → Prop) : Prop :=
  ∀ m, Linked src c m c → m.consumed = 0 → Refines src c m c piece g (Ends R) Aborted

/-- Where a context stands does not depend on what belongs to its piece. -/
theorem Stands.congr (h : Stands src m c) (hsource : m'.src = src) (herror : m'.error = none)
    (htokens : m'.tokens = m.tokens) (hloaded : m'.loaded = m.loaded) (htoken : m'.token = m.token)
    (hoffset : m'.offset = m.offset) : Stands src m' c where
  source := hsource
  error := herror
  within := by rw [htokens, htoken, hoffset]; exact h.within
  good := htokens ▸ h.good
  ahead hnot := htokens ▸ h.ahead (hloaded ▸ hnot)
  hand hyes := by
    obtain ⟨t, ht⟩ := h.hand (hloaded ▸ hyes)
    exact ⟨t, ht.peek, ht.cut, htoken ▸ ht.kind, htoken ▸ ht.length, htoken ▸ ht.escapes,
      hoffset ▸ ht.start, htokens ▸ ht.tail, ht.eof⟩

/-- The context in which a piece within a piece is read. -/
theorem Linked.fresh (hm : Linked src first m c) :
    Linked src c { m with consumed := 0, start := 0, stop := 0 } c where
  stands := hm.stands.congr hm.stands.source hm.stands.error rfl rfl rfl rfl
  extent := ⟨Nat.zero_add _, fun _ => ⟨rfl, rfl, rfl⟩, fun h => absurd rfl h⟩

/-- The context behind a piece within a piece, of which the tokens are not counted yet. -/
def back (m m' : Context) : Context :=
  { m with tokens := m'.tokens, loaded := m'.loaded, token := m'.token, offset := m'.offset }

/-- A part read on its own gives its error, nothing, or what it has read. -/
theorem child_eq {x : Piece α} (herror : m.error = none)
    (hpiece : piece { m with consumed := 0, start := 0, stop := 0 } = some (x, m')) :
    child piece m = if x.2.isSome then some (none, { back m m' with error := x.2 })
      else if x.1.isNone || m'.consumed == 0 then some (none, back m m')
      else some (x.1, { back m m' with
        start := if m.consumed = 0 then m'.start else m.start
        consumed := m.consumed + m'.consumed
        stop := m'.stop }) := by
  rw [child, get_bind, if_neg (by simp [herror]),
    bind_of_some (show (set _ : Reader PUnit) m = some ((), _) from rfl), bind_of_some hpiece]
  change (if x.2.isSome then _ else _ : Reader (Option α)) m' = _
  split
  · rfl
  · split <;> rfl

theorem Parses.child (h : Parses src c piece g R) (hm : Linked src first m c) :
    Refines src first m c (child piece) g
      (fun b a m' => R b a ∧ (a.isSome = true → m.consumed < m'.consumed)
        ∧ (a = none → m'.consumed = m.consumed ∧ m'.loaded = true)) Anyhow := by
  have hpiece := h _ hm.fresh rfl
  unfold Refines at hpiece
  cases hg : g c with
  | error e =>
    rw [hg] at hpiece
    obtain ⟨x, m₁, hx, hm₁, rfl⟩ := hpiece
    refine refines_of_error hg (child_eq hm.stands.error hx) ?_ trivial
    exact ⟨hm.stands.source, rfl, hm₁.within, hm₁.bound⟩
  | ok y =>
    obtain ⟨b, c₁⟩ := y
    rw [hg] at hpiece
    obtain ⟨⟨node, error⟩, m₁, hx, hm₁, -, rfl, hempty, hnode⟩ := hpiece
    have hchild := child_eq hm.stands.error hx
    by_cases hzero : m₁.consumed = 0
    · -- nothing was consumed, so that both sides are where they were
      obtain ⟨rfl, -⟩ := hm₁.extent.none hzero
      rw [if_neg (by simp), if_pos (by simp [hzero])] at hchild
      obtain ⟨hloaded, hR⟩ := hempty hzero
      refine refines_of_ok hg hchild ⟨?_, ?_⟩ le_rfl ⟨hR, nofun, fun _ => ⟨rfl, hloaded⟩⟩
      · exact hm₁.stands.congr hm.stands.source hm.stands.error rfl rfl rfl rfl
      · exact hm.extent.of_same ⟨rfl, rfl, rfl⟩
    · obtain ⟨a, rfl, hR⟩ := hnode hzero
      obtain ⟨t, r, hfirst, hcut, hstart, hstop⟩ := hm₁.extent.some hzero
      have hcount := hm.extent.count
      have hcount₁ := hm₁.extent.count
      -- what was consumed is added to what had been, and the span begins where it did before
      rw [if_neg (by simp), if_neg (by simpa using hzero)] at hchild
      refine refines_of_ok hg hchild ⟨?_, ?_⟩ (Nat.le_add_right _ _)
        ⟨hR, fun _ => ?_, nofun⟩
      · exact hm₁.stands.congr hm.stands.source hm.stands.error rfl rfl rfl rfl
      · refine ⟨?_, fun h => ?_, fun _ => ?_⟩
        · change m.consumed + m₁.consumed + c₁.rest.length = first.rest.length
          omega
        · change m.consumed + m₁.consumed = 0 at h
          omega
        · by_cases hm0 : m.consumed = 0
          · obtain ⟨rfl, -⟩ := hm.extent.none hm0
            exact ⟨t, r, hfirst, hcut, (if_pos hm0).trans hstart, hstop⟩
          · obtain ⟨u, q, hu, hcut', hstart', -⟩ := hm.extent.some hm0
            exact ⟨u, q, hu, hcut', (if_neg hm0).trans hstart', hstop⟩
      · change m.consumed < m.consumed + m₁.consumed
        omega

/-! ### Nodes -/

/-- The place of something that begins at an offset of the source. -/
def Placed (src : Bytes) (loc : Loc) : Prop := loc.pos = Pos.ofOffset src loc.span.start

theorem posOf_eq (hm : m.src = src) {offset : Nat} (h : offset ≤ src.length) :
    posOf offset m = some (Pos.ofOffset src offset, m) := by
  rw [posOf, get_bind, hm, slice?_eq (Nat.zero_le _) h]
  rfl

theorem finish_eq (hm : Linked src first m c) {build : Loc → Option α} {a : α} {loc : Loc}
    (hpos : posOf m.start m = some (loc.pos, m)) (hspan : Span.between m.start m.stop = loc.span)
    (hbuild : build loc = some a) : finish build m = some ((some a, none), m) := by
  have hneed : need (build ⟨Span.between m.start m.stop, loc.pos⟩) m = some (a, m) := by
    rw [hspan, need, hbuild]
    rfl
  rw [finish, get_bind, hm.stands.error]
  change (posOf m.start >>= _) m = _
  rw [bind_of_some hpos, bind_of_some hneed]
  rfl

/-- Adds the place from a token to the last one consumed. -/
def sealAt (t : Token) (build : Loc → β → γ) (b : β) : Grammar γ := do
  let c ← get
  return build ⟨.between t.start c.stop, t.pos⟩ b

/-- The place of a phrase begins at the token that was seen before it. -/
theorem located_eq (build : Loc → β → γ) {g : Grammar β}
    (hpeek : ∀ e, Grammar.peek c = .error e → g c = .error e) :
    ∃ t, (∀ u r, c.rest = u :: r → u = t) ∧
      Grammar.located build g c = (g >>= sealAt t build) c := by
  cases hc : Grammar.peek c with
  | error e =>
    -- the lexer fails, so no token is there
    refine ⟨default, fun u r hrest => ?_, ?_⟩
    · rw [peek_of_cons hrest] at hc
      cases hc
    · rw [Grammar.located, Grammar.bind_apply, Grammar.bind_apply, hc, hpeek e hc]
      rfl
  | ok x =>
    obtain ⟨t, c₁⟩ := x
    obtain rfl : c = c₁ := by
      unfold Grammar.peek at hc
      grind
    refine ⟨t, fun u r hrest => ?_, ?_⟩
    · rw [peek_of_cons hrest] at hc
      cases hc
      rfl
    · rw [Grammar.located, Grammar.bind_of_ok hc]
      rfl

theorem parses_located {build : Loc → γ → β} {g : Grammar γ}
    (hpeek : ∀ e, Grammar.peek c = .error e → g c = .error e)
    (h : ∀ t m, (∀ u r, c.rest = u :: r → u = t) → Linked src c m c → m.consumed = 0 →
      Refines src c m c piece (g >>= sealAt t build) (Ends R) Aborted) :
    Parses src c piece (Grammar.located build g) R := by
  intro m hm hzero
  obtain ⟨t, ht, hlocated⟩ := located_eq build hpeek
  exact (h t m ht hm hzero).congr hlocated

/-- A piece that has a token ends with the node that the grammar makes. -/
theorem refines_seal {build : Loc → γ → β} {make : Loc → Option α} {x : γ}
    (ht : ∀ u r, first.rest = u :: r → u = t) (hm : Linked src first m c) (hpos : 0 < m.consumed)
    (hmake : ∀ loc, Placed src loc → ∃ a, make loc = some a ∧ R (build loc x) (some a)) :
    Refines src first m c (finish make) (sealAt t build x) (Ends R) Aborted := by
  -- something was read, so the phrase has a first token
  obtain ⟨u, r, hfirst, hcut, hstart, hstop⟩ := hm.extent.some (Nat.pos_iff_ne_zero.mp hpos)
  obtain rfl := ht u r hfirst
  have hbound := hcut.bound
  rw [Token.stop] at hbound
  obtain ⟨a, ha, hR⟩ := hmake ⟨.between u.start c.stop, u.pos⟩ hcut.pos
  refine refines_of_ok rfl (finish_eq hm ?_ ?_ ha) hm le_rfl ⟨rfl, fun h => ?_, fun _ => ⟨a, rfl, hR⟩⟩
  · rw [hstart, hcut.pos]
    exact posOf_eq hm.stands.source (by omega)
  · rw [hstart, hstop]
  · omega

end pieces

/-! ### Loops -/

/-- There are no more tokens than bytes. -/
theorem length_lexFrom_le (skip start : Nat) (pos : Pos) (line : AnnotLine) (acc : List Token)
    (b : Bytes) : (lexFrom skip start pos line acc b).tokens.length ≤ acc.length + b.length := by
  fun_induction lexFrom skip start pos line acc b with
  | case1 => simp
  | case2 start pos line acc c r n ih =>
    rw [List.length_cons]
    omega
  | case3 => simp
  | case4 => simp
  | case5 start pos line acc c r kind extra hscan text line' hline ih =>
    simp only [List.length_cons] at ih ⊢
    omega

/-- There are no more tokens than octets. -/
theorem Upcoming.length_le {k : Tokens} {rest : List Token} {ending : Except SyntaxError Token}
    (h : Upcoming src k rest ending) (hk : k.Good src) : rest.length ≤ src.length := by
  obtain ⟨rfl, -⟩ := h
  have htokens := length_lexFrom_le 0 k.offset (Pos.ofOffset src k.offset) k.line [] k.rest
  have hfilter : (k.lexed src).significant.length ≤ (k.lexed src).tokens.length :=
    List.length_filter_le ..
  have hrest := congrArg List.length hk.rest
  rw [List.length_drop] at hrest
  change (k.lexed src).tokens.length ≤ 0 + k.rest.length at htokens
  omega

/-- The tokens left are counted by the bytes of the source. -/
theorem Stands.length_le (h : Stands src m c) : c.rest.length ≤ src.length + 1 := by
  cases hloaded : m.loaded with
  | false =>
    have hle := (h.ahead hloaded).length_le h.good
    omega
  -- a token is at hand, and the others are behind it
  | true =>
    obtain ⟨t, ht⟩ := h.hand hloaded
    cases hrest : c.rest with
    | nil => simp
    | cons u r =>
      have hpeek := ht.peek
      rw [peek_of_cons hrest] at hpeek
      cases hpeek
      have hle := (ht.tail r hrest).length_le h.good
      rw [List.length_cons]
      omega

section loops

variable {step : τ → Reader (τ × Bool)} {gstep : σ → Grammar (σ × Bool)} {R : σ → τ → Prop}

/-- The steps of a loop keep a relation between the states of the two sides. -/
def StepsRefine (src : Bytes) (first : Cursor) (step : τ → Reader (τ × Bool))
    (gstep : σ → Grammar (σ × Bool)) (R : σ → τ → Prop) : Prop :=
  ∀ s a m c, Linked src first m c → R s a →
    Refines src first m c (step a) (gstep s) (fun x y _ => y.2 = x.2 ∧ R x.1 y.1) Anyhow

theorem refines_loopFrom (hstep : StepsRefine src first step gstep R) (fuel : Nat) {s : σ} {a : τ}
    (hfuel : c.rest.length < fuel) (hm : Linked src first m c) (hR : R s a) :
    Refines src first m c (loopFrom step fuel a) (Grammar.loop gstep s) (fun s' a' _ => R s' a')
      Anyhow := by
  -- on the fuel, of which there is more than tokens: a pass that goes on has read one
  induction fuel generalizing m c s a with
  | zero => omega
  | succ fuel ih =>
    have hs := hstep s a m c hm hR
    unfold Refines at hs
    cases hg : gstep s c with
    | error e =>
      rw [hg] at hs
      -- the step has failed, which the loop sees in the state of the reader
      obtain ⟨⟨a', more⟩, m₁, hp, hm₁, -⟩ := hs
      have hloop : loopFrom step (fuel + 1) a m = some (a', m₁) := by
        rw [loopFrom, get_bind, bind_of_some hp]
        change (if (!more || m₁.error.isSome || _) = true then pure a' else _ : Reader τ) m₁ = _
        rw [hm₁.error, if_pos (by simp)]
        rfl
      refine refines_of_error ?_ hloop hm₁ trivial
      rw [Grammar.loop, hg]
    | ok x =>
      obtain ⟨⟨s', more⟩, c₁⟩ := x
      rw [hg] at hs
      obtain ⟨⟨a', more'⟩, m₁, hp, hm₁, hle, hmore', hR'⟩ := hs
      obtain rfl : more' = more := hmore'
      have hcount := hm.extent.count
      have hcount₁ := hm₁.extent.count
      have hloop : loopFrom step (fuel + 1) a m
          = (if (!more' || m₁.error.isSome || m₁.consumed == m.consumed) = true then pure a'
              else loopFrom step fuel a' : Reader τ) m₁ := by
        rw [loopFrom, get_bind, bind_of_some hp]
        rfl
      rw [hm₁.stands.error] at hloop
      -- the grammar goes on while tokens are read, the reader while it consumes any
      cases hmore : more' && decide (c₁.rest.length < c.rest.length) with
      | true =>
        have hless := hmore
        rw [Bool.and_eq_true, decide_eq_true_eq] at hless
        have hne : (m₁.consumed == m.consumed) = false := by
          rw [beq_eq_false_iff_ne]
          omega
        rw [if_neg (by simp [hless.1, hne])] at hloop
        have hrest := ih (m := m₁) (c := c₁) (by omega) hm₁ hR'
        have hgloop : Grammar.loop gstep s c = Grammar.loop gstep s' c₁ := by
          rw [Grammar.loop, hg]
          simp only [hmore, if_true]
        unfold Refines at hrest ⊢
        rw [hgloop, hloop]
        cases hc : Grammar.loop gstep s' c₁ with
        | error e => rwa [hc] at hrest
        | ok y =>
          rw [hc] at hrest
          obtain ⟨a₂, m₂, hp₂, hm₂, hle₂, hR₂⟩ := hrest
          exact ⟨a₂, m₂, hp₂, hm₂, hle.trans hle₂, hR₂⟩
      | false =>
        have hdone : more' = false ∨ m₁.consumed = m.consumed := by
          rw [Bool.and_eq_false_iff, decide_eq_false_iff_not] at hmore
          rcases hmore with hmore | hmore
          · exact .inl hmore
          · exact .inr (by omega)
        rw [if_pos (by rcases hdone with h | h <;> simp [h])] at hloop
        have hgloop : Grammar.loop gstep s c = .ok (s', c₁) := by
          rw [Grammar.loop, hg]
          simp only [hmore, Bool.false_eq_true, if_false]
        exact refines_of_ok hgloop hloop hm₁ hle hR'

/-- Loops refine loops, and come to an end. -/
theorem refines_loop (hstep : StepsRefine src first step gstep R) {s : σ} {a : τ}
    (hm : Linked src first m c) (hR : R s a) :
    Refines src first m c (loop step a) (Grammar.loop gstep s) (fun s' a' _ => R s' a') Anyhow := by
  have hlength := hm.stands.length_le
  have hloop : loop step a m = loopFrom step (src.length + 2) a m := by
    rw [loop, get_bind, hm.stands.error, hm.stands.source]
    rfl
  have h := refines_loopFrom hstep (src.length + 2) (by omega) hm hR
  unfold Refines at h ⊢
  rwa [hloop]

end loops

end Idl.Reader
