import Idl.Proofs.Grammar.Completeness
import Idl.Proofs.Grammar.Refusal

/-!
# Errors for constructs that are left out

A file is refused for a construct exactly where some of its tokens lead up to the construct. One half
of this is that such a file is refused; the other half is that nothing else makes the grammar give
such an error: `Blames p S` says that where the piece of grammar `p` gives one, the tokens in front
are among those of `S`.

* §1 pieces that give no such error,
* §2 the logic of blame, §3 types, §4 messages, §5 services, §6 files,
* §7 lexical errors, §8 sources.
-/

namespace Idl

open scoped Computability

namespace Grammar

variable {α β σ : Type} {c : Cursor} {t : Token}

/-! ## §1 Pieces that blame nothing -/

/-- A piece of grammar gives no error for a construct, other than the one that stands where the
tokens end. -/
structure Quiet (p : Grammar α) : Prop where
  error : ∀ ⦃c e⦄, p c = .error e → c.ending = .error e ∨ ∀ f text, e.cause ≠ .unsupported f text
  ending : ∀ ⦃c a d⦄, p c = .ok (a, d) → d.ending = c.ending

/-- There is no next token only where the tokens end with an error. -/
theorem ending_of_peek {e : SyntaxError} (h : peek c = .error e) : c.ending = .error e := by
  unfold peek at h
  split at h
  · cases h
  · split at h
    · cases h
    · cases h
      assumption

/-- A sequence fails in its first part, or in its second after the first gave a result. -/
theorem exists_of_bind_eq_error {p : Grammar α} {k : α → Grammar β} {e : SyntaxError}
    (h : (p >>= k) c = .error e) : p c = .error e ∨ ∃ a d, p c = .ok (a, d) ∧ k a d = .error e := by
  rw [bind_apply] at h
  cases hp : p c with
  | error e' =>
    rw [hp] at h
    cases h
    exact .inl rfl
  | ok x =>
    rw [hp] at h
    exact .inr ⟨x.1, x.2, rfl, h⟩

namespace Quiet

/-- Giving a result raises nothing and reads nothing. -/
theorem pure (a : α) : Quiet (Pure.pure a : Grammar α) where
  error _ _ h := by cases h
  ending _ _ _ h := by
    cases h
    rfl

/-- A fault that is not about an unsupported construct is quiet. -/
theorem fail {e : SyntaxError} (h : ∀ f text, e.cause ≠ .unsupported f text) :
    Quiet (Grammar.fail e : Grammar α) where
  error _ _ he := by
    cases he
    exact .inr h
  ending _ _ _ h := by cases h

/-- A sequence of quiet parts is quiet: the ending seen by the second is that of the first. -/
theorem bind {p : Grammar α} {k : α → Grammar β} (hp : Quiet p) (hk : ∀ a, Quiet (k a)) :
    Quiet (p >>= k) where
  error c e h := by
    rcases exists_of_bind_eq_error h with h | ⟨a, d, ha, h⟩
    · exact hp.error h
    · rw [← hp.ending ha]
      exact (hk a).error h
  ending c b d h := by
    obtain ⟨a, c', ha, hb⟩ := exists_of_bind_eq_ok h
    exact ((hk a).ending hb).trans (hp.ending ha)

/-- What is done to the result does not matter. -/
theorem map {p : Grammar α} (f : α → β) (hp : Quiet p) : Quiet (f <$> p) := by
  rw [map_eq_pure_bind]
  exact hp.bind fun a => pure (f a)

/-- A choice between quiet parsers is quiet. -/
theorem ite {b : Prop} [Decidable b] {p q : Grammar α} (hp : Quiet p) (hq : Quiet q) :
    Quiet (if b then p else q) := by
  split
  · exact hp
  · exact hq

/-- Looking at the next token can only meet the ending of the tokens. -/
theorem peek : Quiet Grammar.peek where
  error _ _ h := .inl (ending_of_peek h)
  ending _ _ _ h := by rw [eq_of_peek_eq_ok h]

/-- So can moving past it. -/
theorem advance : Quiet Grammar.advance where
  error c e h := by
    unfold Grammar.advance at h
    split at h <;> cases h
  ending c a d h := by
    unfold Grammar.advance at h
    split at h <;> cases h <;> rfl

/-- Reading the cursor itself never fails. -/
theorem get : Quiet (MonadState.get : Grammar Cursor) where
  error _ _ h := by cases h
  ending _ _ _ h := by
    cases h
    rfl

/-- A fault at the next token is quiet when its cause is never an unsupported construct. -/
theorem failHere {cause : Token → SyntaxCause} (h : ∀ t f text, cause t ≠ .unsupported f text) :
    Quiet (Grammar.failHere cause : Grammar α) :=
  peek.bind fun t => fail (h t)

/-- An expectation that fails names what was wanted, not a construct. -/
theorem failExpected (want : Expectation) : Quiet (Grammar.failExpected want : Grammar α) :=
  failHere (by simp)

/-- Recording the place around a part keeps it quiet. -/
theorem located {p : Grammar α} (build : Loc → α → β) (hp : Quiet p) :
    Quiet (Grammar.located build p) :=
  peek.bind fun _ => hp.bind fun _ => get.bind fun _ => pure _

/-- A loop of quiet steps is quiet. -/
theorem loop {step : σ → Grammar (σ × Bool)} (hstep : ∀ s, Quiet (step s)) (s : σ) :
    Quiet (Grammar.loop step s) := by
  have hrun (c : Cursor) (s : σ) :
      (∀ e, Grammar.loop step s c = .error e →
        c.ending = .error e ∨ ∀ f text, e.cause ≠ .unsupported f text)
      ∧ ∀ a d, Grammar.loop step s c = .ok (a, d) → d.ending = c.ending := by
    -- By strong induction on the number of tokens left: a round that asks for another has read one.
    induction hlen : c.rest.length using Nat.strongRecOn generalizing s c with
    | ind n ih =>
      rw [Grammar.loop]
      cases hs : step s c with
      | error e =>
        refine ⟨fun e' he => ?_, fun a d ha => by cases ha⟩
        cases he
        -- the round itself fails
        exact (hstep s).error hs
      | ok x =>
        obtain ⟨⟨s', more⟩, c'⟩ := x
        have hending := (hstep s).ending hs
        dsimp only
        split
        · next hmore =>
          -- another round, from an ending that the first has not changed
          rw [← hending]
          refine ih c'.rest.length ?_ c' s' rfl
          simp only [Bool.and_eq_true, decide_eq_true_eq] at hmore
          omega
        · refine ⟨fun e he => (by cases he), fun a d ha => ?_⟩
          cases ha
          exact hending
  exact ⟨fun c e => (hrun c s).1 e, fun c a d => (hrun c s).2 a d⟩

/-- Taking a token of a kind if it stands there. -/
theorem accept (kind : TokenKind) : Quiet (Grammar.accept kind) :=
  peek.bind fun _ => ite (advance.bind fun _ => pure _) (pure _)

/-- Requiring a sigil. -/
theorem sigil (s : Sigil) : Quiet (Grammar.sigil s) :=
  (accept s.kind).bind fun b => by
    cases b with
    | true => exact pure ()
    | false => exact failHere (by simp)

/-- Asking for a word without taking it. -/
theorem atWord (word : Bytes) : Quiet (Grammar.atWord word) := peek.bind fun _ => pure _

/-- Taking a word if it stands there. -/
theorem acceptWord (word : Bytes) : Quiet (Grammar.acceptWord word) :=
  (atWord word).bind fun _ => ite (advance.bind fun _ => pure _) (pure _)

/-- Reading a name. -/
theorem ident : Quiet Grammar.ident :=
  peek.bind fun _ => ite (advance.bind fun _ => pure _) (failExpected _)

/-- Reading a number. -/
theorem intLit : Quiet Grammar.intLit :=
  peek.bind fun _ => ite (ite (advance.bind fun _ => pure _) (failHere (by simp))) (failExpected _)

/-- Reading a text. -/
theorem textLit : Quiet Grammar.textLit := by
  refine peek.bind fun t => ite ?_ (failExpected _)
  split
  · exact advance.bind fun _ => pure _
  · exact fail (by simp)

/-- Reading a separator of a dotted path. -/
theorem separator : Quiet Grammar.separator :=
  (accept .dot).bind fun _ => ite (pure _) (accept .doubleColon)

/-- Reading a dotted path: only names and separators are asked for. -/
theorem path : Quiet Grammar.path := by
  refine located _ (ident.bind fun first => (loop (fun parts => ?_) []).bind fun more => pure _)
  exact separator.bind fun _ => ite (ident.bind fun _ => pure _) (pure _)

/-- Reading a constant, if there is one. -/
theorem constant? : Quiet Grammar.constant? := by
  refine peek.bind fun t => ?_
  split
  · exact intLit.bind fun _ => pure _
  · exact intLit.bind fun _ => pure _
  · exact intLit.bind fun _ => pure _
  · split
    · exact advance.bind fun _ => pure _
    · exact failHere (by simp)
  · exact textLit.bind fun _ => pure _
  · refine ite (advance.bind fun _ => pure _) (ite (advance.bind fun _ => pure _) ?_)
    exact ite (advance.bind fun _ => pure _) (path.bind fun _ => pure _)
  · exact pure _

/-- Reading a value, if there is one. -/
theorem value? : Quiet Grammar.value? := located _ constant?

/-- Reading a value that has to be there. -/
theorem value : Quiet Grammar.value :=
  value?.bind fun o => by
    cases o with
    | none => exact failExpected _
    | some v => exact pure v

/-- Reading an argument of an annotation, if there is one. -/
theorem arg? : Quiet Grammar.arg? := by
  refine located _ (peek.bind fun t => ite ?_ (value?.bind fun _ => pure _))
  exact ident.bind fun key => (accept .eq).bind fun _ => ite (value.bind fun _ => pure _) (pure _)

/-- Reading the arguments of an annotation. -/
theorem args : Quiet Grammar.args := by
  refine (loop (fun acc => ?_) []).bind fun acc => pure _
  refine (accept .closeParen).bind fun _ => ite (pure _) (arg?.bind fun o => ?_)
  have hend {x : List Tree.Arg × Bool} : Quiet (Grammar.sigil .closeParen >>= fun _ => Pure.pure x) :=
    (sigil .closeParen).bind fun _ => pure x
  cases o with
  | none => exact hend
  | some a => exact (accept .comma).bind fun _ => ite (pure _) hend

/-- A whole annotation is free of unsupported constructs. -/
theorem annot : Quiet Grammar.annot := by
  refine located _ ((sigil .atSign).bind fun _ => path.bind fun name => ?_)
  refine (accept .openParen).bind fun b => ?_
  have hend (args? : Option (List Tree.Arg)) :
      Quiet (Grammar.accept .semicolon >>= fun _ => Pure.pure (name, args?)) :=
    (accept .semicolon).bind fun _ => pure _
  exact ite ((args.map _).bind hend) ((pure _).bind hend)

/-- Annotations with nothing to stand on are refused as such. -/
theorem noPending (pending : List Tree.Annot) : Quiet (Grammar.noPending pending) := by
  cases pending with
  | nil => exact pure ()
  | cons a r => exact fail (by simp)

/-- The label of a field raises nothing: its words are all supported. -/
theorem label? : Quiet Grammar.label? :=
  peek.bind fun _ => (acceptWord _).bind fun _ => ite (pure _)
    ((acceptWord _).bind fun _ => ite (pure _) (pure _))

/-- The mark before the answer of a method. -/
theorem outputMark : Quiet Grammar.outputMark :=
  (acceptWord _).bind fun _ => ite (pure _) (accept .arrow)

/-- The package declaration. -/
theorem package : Quiet Grammar.package :=
  located _ (advance.bind fun _ => path.bind fun _ => (sigil _).bind fun _ => pure _)

/-- The version statement. -/
theorem version : Quiet Grammar.version :=
  advance.bind fun _ => (sigil _).bind fun _ => textLit.bind fun _ => (sigil _).bind fun _ =>
    ite (pure _) (fail (by simp))

/-- A setting, which is read and put aside. -/
theorem setting : Quiet Grammar.setting :=
  located _ (advance.bind fun _ => path.bind fun _ => (sigil _).bind fun _ => value.bind fun _ =>
    (sigil _).bind fun _ => pure _)

end Quiet

/-! ## §2 Blame -/

/-- If a piece of grammar fails at a position for a construct, the tokens `i` that were to be read
from somewhere before it lead up to the construct. -/
def BlamesAt (i : List Token) (c : Cursor) (p : Grammar α) (S : Phrase.Lead) : Prop :=
  ∀ ⦃e f text⦄, p c = .error e → e.cause = .unsupported f text →
    c.ending = .error e ∨ ∃ w t r, e = refusal f t ∧ i = w ++ t :: r ∧ w ∈ S f t r

/-- If a piece of grammar fails anywhere for a construct, the tokens there lead up to it. -/
def Blames (p : Grammar α) (S : Phrase.Lead) : Prop :=
  ∀ c : Cursor, c.Proper → BlamesAt c.rest c p S

/-- A quiet parser blames nothing, so it blames only where any set of places says. -/
theorem Quiet.blamesAt {p : Grammar α} (hp : Quiet p) {i : List Token} {S : Phrase.Lead} :
    BlamesAt i c p S := by
  intro e f text h hcause
  rcases hp.error h with h | h
  · exact .inl h
  · exact absurd hcause (h f text)

/-- What leads up to a construct in a part leads up to it in the whole. -/
theorem BlamesAt.within {p : Grammar α} {i w : List Token} {S S' : Phrase.Lead}
    (hp : BlamesAt c.rest c p S') (hi : i = w ++ c.rest)
    (hS : ∀ f t r v, c.rest = v ++ t :: r → v ∈ S' f t r → w ++ v ∈ S f t r) :
    BlamesAt i c p S := by
  intro e f text h hcause
  rcases hp h hcause with h | ⟨v, t, r, he, hrest, hv⟩
  · exact .inl h
  · refine .inr ⟨w ++ v, t, r, he, ?_, hS f t r v hrest hv⟩
    rw [hi, hrest, List.append_assoc]

/-- A parser that starts behind the tokens of w blames the same places, seen from before w. -/
theorem Blames.at {p : Grammar α} {i w : List Token} {S S' : Phrase.Lead} (hp : Blames p S')
    (hc : c.Proper) (hi : i = w ++ c.rest)
    (hS : ∀ f t r v, c.rest = v ++ t :: r → v ∈ S' f t r → w ++ v ∈ S f t r) :
    BlamesAt i c p S := (hp c hc).within hi hS

namespace BlamesAt

variable {i w : List Token} {S : Phrase.Lead}

/-- The places of a sequence: those of the first part, and those of the second from where the first
one stopped. -/
theorem bind {p : Grammar α} {k : α → Grammar β} {P : α → List Token → Prop} (hc : c.Proper)
    (hp : BlamesAt i c p S) (hr : ReadsAt c p P)
    (hk : ∀ a w c', c'.Proper → c.rest = w ++ c'.rest → P a w → BlamesAt i c' (k a) S) :
    BlamesAt i c (p >>= k) S := by
  intro e f text h hcause
  rcases exists_of_bind_eq_error h with h | ⟨a, c', ha, h⟩
  · exact hp h hcause
  · obtain ⟨w, hrest, hending, hw⟩ := hr ha
    rw [← hending]
    exact hk a w c' (hc.next hrest hending) hrest hw h hcause

/-- What comes later gives no such error. -/
theorem bind_quiet {p : Grammar α} {k : α → Grammar β} {P : α → List Token → Prop}
    (hp : BlamesAt i c p S) (hr : ReadsAt c p P) (hk : ∀ a, Quiet (k a)) :
    BlamesAt i c (p >>= k) S := by
  intro e f text h hcause
  rcases exists_of_bind_eq_error h with h | ⟨a, c', ha, h⟩
  · exact hp h hcause
  · obtain ⟨w, -, hending, -⟩ := hr ha
    rw [← hending]
    exact (hk a).blamesAt h hcause

/-- A result built from what was read blames nothing more. -/
theorem bind_pure {p : Grammar α} {g : α → β} (hp : BlamesAt i c p S) :
    BlamesAt i c (p >>= fun a => Pure.pure (g a)) S := by
  intro e f text h hcause
  rcases exists_of_bind_eq_error h with h | ⟨a, c', -, h⟩
  · exact hp h hcause
  · cases h

/-- What is done to the result does not move the blame. -/
theorem map {p : Grammar α} {g : α → β} (hp : BlamesAt i c p S) : BlamesAt i c (g <$> p) S := by
  rw [map_eq_pure_bind]
  exact hp.bind_pure

/-- Nor does recording the place. -/
theorem located {p : Grammar α} {build : Loc → α → β} (hp : BlamesAt i c p S) :
    BlamesAt i c (Grammar.located build p) S := by
  intro e f text h hcause
  rcases exists_of_bind_eq_error h with h | ⟨t, c', hpeek, h⟩
  · exact .inl (ending_of_peek h)
  · obtain rfl := eq_of_peek_eq_ok hpeek
    rcases exists_of_bind_eq_error h with h | ⟨a, c', -, h⟩
    · exact hp h hcause
    · cases h

/-- A choice blames what the branch taken blames. -/
theorem ite {b : Prop} [Decidable b] {p q : Grammar α} (hp : b → BlamesAt i c p S)
    (hq : ¬b → BlamesAt i c q S) : BlamesAt i c (if b then p else q) S := by
  split
  · exact hp ‹_›
  · exact hq ‹_›

/-- After a look at the next token the rest is judged at the same cursor. -/
theorem peek_bind {k : Token → Grammar α}
    (hk : ∀ t, peek c = .ok (t, c) → BlamesAt i c (k t) S) : BlamesAt i c (peek >>= k) S := by
  intro e f text h hcause
  rcases exists_of_bind_eq_error h with h | ⟨t, c', hpeek, h⟩
  · exact .inl (ending_of_peek h)
  · obtain rfl := eq_of_peek_eq_ok hpeek
    exact hk t hpeek h hcause

/-- The same after the cursor has been read. -/
theorem get_bind {k : Cursor → Grammar α} (hk : BlamesAt i c (k c) S) :
    BlamesAt i c (MonadState.get >>= k) S := hk

/-- Asking for a word decides on the token that stands there. -/
theorem atWord_bind {word : Bytes} {k : Bool → Grammar α}
    (hk : ∀ t, peek c = .ok (t, c) → BlamesAt i c (k (t.isWord word)) S) :
    BlamesAt i c (atWord word >>= k) S := by
  rw [atWord, bind_assoc]
  refine peek_bind fun t ht => ?_
  rw [pure_bind]
  exact hk t ht

/-- No annotation waits, or that is the error. -/
theorem noPending_bind {l : List Tree.Annot} {k : Unit → Grammar α}
    (hk : l = [] → BlamesAt i c (k ()) S) : BlamesAt i c (noPending l >>= k) S := by
  cases l with
  | nil => exact hk rfl
  | cons a r =>
    intro e f text h hcause
    cases h
    cases hcause

/-- A construct that begins at a token that has been seen. -/
theorem fail_refusal {f : Feature} {r : List Token} (hi : i = w ++ t :: r) (hw : w ∈ S f t r) :
    BlamesAt i c (Grammar.fail (refusal f t) : Grammar α) S := by
  intro e g text h hcause
  cases h
  cases hcause
  exact .inr ⟨w, t, r, rfl, hi, hw⟩

/-- A construct that begins at the next token. -/
theorem failUnsupported {f : Feature} (hc : c.Proper) (ht : peek c = .ok (t, c))
    (hkind : t.kind ≠ .eof) (hi : i = w ++ c.rest) (hw : ∀ r, c.rest = t :: r → w ∈ S f t r) :
    BlamesAt i c (Grammar.failUnsupported f : Grammar α) S := by
  obtain ⟨r, hrest⟩ := hc.rest_eq ht hkind
  refine peek_bind fun u hu => ?_
  obtain rfl := eq_of_peek hu hrest
  exact fail_refusal (hi.trans (by rw [hrest])) (hw r hrest)

/-- A keyword at the next token and the name behind it are consumed. -/
theorem named {text : Bytes} {k : Tree.Ident → Grammar α} (hc : c.Proper)
    (ht : peek c = .ok (t, c)) (hword : t.isWord text = true)
    (hk : ∀ name u c', c'.Proper → u ∈ Phrase.word text * Phrase.name → c.rest = u ++ c'.rest →
      BlamesAt i c' (k name) S) :
    BlamesAt i c (do
      advance
      let name ← ident
      k name) S := by
  -- the keyword has been seen, so moving past it cannot fail
  refine bind hc Quiet.advance.blamesAt (ReadsAt.advance hc ht (kind_ne_eof_of_isWord hword))
    fun _ w c₁ hc₁ hw hkeyword => ?_
  -- the name behind it is one token
  refine bind hc₁ Quiet.ident.blamesAt (reads_ident c₁ hc₁) fun name n c₂ hc₂ hn hname => ?_
  subst hkeyword
  obtain ⟨x, rfl, hx, -⟩ := hname
  exact hk name ([t] ++ [x]) c₂ hc₂ (Language.append_mem_mul ⟨t, rfl, hword⟩ ⟨x, rfl, hx⟩)
    (by rw [hw, hn, List.append_assoc])

/-- The blame of a loop is that of its steps. The invariant speaks of the state and of all that has
been consumed; a step that does not end the loop has to consume something. -/
theorem loop {step : σ → Grammar (σ × Bool)} {I : σ → List Token → Prop}
    (hreads : ∀ s w, I s w → Reads (step s) fun x v => x.2 = true → v ≠ [] ∧ I x.1 (w ++ v))
    (hstep : ∀ s w c, I s w → c.Proper → BlamesAt (w ++ c.rest) c (step s) S)
    {s : σ} (h : I s w) (hc : c.Proper) :
    BlamesAt (w ++ c.rest) c (Grammar.loop step s) S := by
  -- By strong induction on the tokens left; w collects what the rounds so far have read.
  induction hlen : c.rest.length using Nat.strongRecOn generalizing s w c with
  | ind n ih =>
    intro e f text hloop hcause
    rw [Grammar.loop] at hloop
    split at hloop
    · next e' hs =>
      cases hloop
      -- the round fails, and blames a place seen from the start of the loop
      exact hstep s w c h hc hs hcause
    next s₁ more c₁ hs =>
      obtain ⟨v, hrest, hending, hv⟩ := hreads s w h c hc hs
      split at hloop
      · next hmore =>
        simp only [Bool.and_eq_true, decide_eq_true_eq] at hmore
        have ih := ih c₁.rest.length (by omega) (hv hmore.1).2 (hc.next hrest hending) rfl
          hloop hcause
        rwa [hending, List.append_assoc, ← hrest] at ih
      · cases hloop

end BlamesAt

/-! ## §3 Types -/

/-- A name takes one token for its first component and two for each of the others. -/
theorem reads_path_length : Reads path fun p w => w.length = 2 * p.more.length + 1 := by
  refine Reads.located (P := fun (x : Tree.Ident × List Tree.Ident) w =>
    w.length = 2 * x.2.length + 1) ?_ fun _ _ _ h => h
  refine .bind reads_ident fun first w hw => ?_
  obtain ⟨t, rfl, -⟩ := hw
  -- invariant of the loop: a separator and a name for each further part
  refine (Reads.loop (I := fun parts w => w.length = 2 * parts.length + 1)
    (J := fun parts w => w.length = 2 * parts.length + 1) (w := [t]) ?_ rfl).bind
    fun more v hv => .pure ?_
  · intro parts w hw
    refine .bind reads_separator fun b v hv => ?_
    cases b with
    | false =>
      obtain rfl := took_false.mp hv
      exact .pure (by simpa using hw)
    | true =>
      refine .bind reads_ident fun part u hu => .pure ?_
      obtain ⟨x, rfl, -⟩ := hu
      obtain ⟨y, rfl⟩ : ∃ y, v = [y] := by
        rcases hv with ⟨y, rfl, -⟩ | ⟨y, rfl, -⟩
        · exact ⟨y, rfl⟩
        · exact ⟨y, rfl⟩
      refine ⟨by simp, ?_⟩
      simp only [List.length_append, List.length_cons, List.length_nil]
      omega
  · simpa using hv

/-- A name of several components has a dot, so that `map` is one component. -/
theorem eq_map_of_dotted {p : Tree.Path} (h : p.dotted = "map") :
    p.first.name = "map" ∧ p.more = [] := by
  cases hmore : p.more with
  | nil => simpa [Tree.Path.dotted, Tree.Path.parts, hmore, Bytes.join] using h
  | cons part r =>
    have hdot : (0x2E : UInt8) ∈ p.dotted := by
      simp only [Tree.Path.dotted, Tree.Path.parts, hmore, Bytes.join, List.map_cons,
        List.intercalate_cons_cons, List.mem_append]
      exact .inl (.inr (by decide))
    rw [h] at hdot
    exact absurd hdot (by decide)

/-- A type blames an opening square bracket, or a word that begins a construct of another language.
-/
theorem blames_typeRef : Blames typeRef (Phrase.openTypeLead []) := by
  refine fun c hc => .located (.peek_bind fun t ht => ?_)
  split
  · next hkind =>
    have heof : t.kind ≠ .eof := by rw [hkind]; decide
    split
    · next f hf =>
      refine .failUnsupported hc ht heof rfl fun r _ => .inr (.inl (.inl ⟨rfl, t.text, ?_, ?_⟩))
      · exact Phrase.unsupportedType?_eq_some.mp hf
      · exact isWord_eq_true.mpr ⟨hkind, rfl⟩
    · next hword =>
      obtain ⟨r, hrest⟩ := hc.rest_eq ht heof
      refine .bind hc Quiet.path.blamesAt ((reads_path c hc).and (reads_path_length c hc))
        fun name w c' hc' hw hname => ?_
      obtain ⟨⟨hpath, hnames⟩, hlength⟩ := hname
      refine .peek_bind fun next hnext => .ite (fun hmap => ?_) fun _ => .ite (fun hsquare => ?_) ?_
      -- the word in front of the bracket is the whole name
      · simp only [Bool.and_eq_true, beq_iff_eq] at hmap
        obtain ⟨hdotted, hlt⟩ := hmap
        obtain ⟨hfirst, hmore⟩ := eq_map_of_dotted hdotted
        rw [hmore] at hlength
        obtain ⟨u, rfl⟩ := List.length_eq_one_iff.mp hlength
        obtain rfl : t = u := (List.cons.inj (hrest.symm.trans hw)).1
        obtain ⟨v, hv⟩ := hc'.rest_eq hnext (by rw [hlt]; decide)
        obtain ⟨x, hx, -, htext⟩ := hnames name.first (List.mem_cons_self ..)
        obtain rfl := List.mem_singleton.mp hx
        refine .fail_refusal (w := []) (r := next :: v) (by rw [hw, hv]; rfl) (.inr (.inl (.inr ?_)))
        exact ⟨rfl, rfl, isWord_eq_true.mpr ⟨hkind, htext.trans hfirst⟩, next, v, rfl, hlt⟩
      · have hsquare : next.kind = .openSquare := by simpa using hsquare
        refine .failUnsupported hc' hnext (by rw [hsquare]; decide) hw fun r' _ => ?_
        refine .inr (.inr (Phrase.mem_mul_here.mpr ⟨?_, rfl, hsquare⟩))
        exact Phrase.mem_pathBut hpath (hrest.symm.trans hw)
          (Phrase.unsupportedType?_eq_none.mp hword)
      · exact fun _ => (Quiet.pure name).blamesAt
  · next hkind =>
    exact .failUnsupported hc ht (by rw [hkind]; decide) rfl fun r _ => .inl ⟨rfl, rfl, hkind⟩
  · exact (Quiet.failExpected _).blamesAt

/-- What leads up to a construct in a type that begins with a name that may begin it. -/
theorem mem_typeLead {words : List Bytes} {f : Feature} {r v w : List Token} {u : Token}
    (h : w ∈ Phrase.typeLead [] f t r) (hu : w ++ t :: r = u :: v) (hword : u.text ∉ words) :
    w ∈ Phrase.typeLead words f t r := by
  rcases h with hword | hsquare
  · exact .inl hword
  · obtain ⟨htype, rfl, ht⟩ := Phrase.mem_mul_here.mp hsquare
    obtain ⟨x, y, rfl, -⟩ := exists_head_of_pathBut htype
    obtain rfl : x = u := (List.cons.inj hu).1
    exact .inr (Phrase.mem_mul_here.mpr ⟨Phrase.mem_typeBut htype hword, rfl, ht⟩)

/-! ## §4 Messages -/

/-- What leads up to a construct in the type of a field, read behind a label or not. -/
theorem mem_fieldLead_of_type {f : Feature} {u x : Token} {l r v z : List Token}
    (hlabel : l ∈ Phrase.label ∨ l = [] ∧ t = u ∧ t.text ∉ Phrase.bareFieldWords)
    (hkind : t.kind = .ident) (hrepeated : ¬u.isWord "repeated" = true) (hu : v ++ x :: r = u :: z)
    (h : v ∈ Phrase.openTypeLead [] f x r) : l ++ v ∈ Phrase.fieldLead f x r := by
  rcases hlabel with hl | ⟨rfl, rfl, htext⟩
  · refine .inl (.inl (Language.append_mem_mul hl (.inr ?_)))
    -- with a label in front, any place of an open type will do
    rcases h with hsquare | htype
    · exact .inl hsquare
    · refine .inr (mem_typeLead htype hu ?_)
      obtain ⟨u', z', huz, hkind, -⟩ := Phrase.exists_head_of_typeLead (by simp) htype
      obtain rfl : u = u' := (List.cons.inj (hu.symm.trans huz)).1
      simpa [Token.isWord, hkind] using hrepeated
  · -- without one the type begins with the word seen, which is no bracket and no bare word
    rcases h with ⟨rfl, -, hx⟩ | htype
    · obtain rfl : x = t := (List.cons.inj hu).1
      rw [hkind] at hx
      cases hx
    · exact .inl (.inr (mem_typeLead htype hu htext))

/-- A field, provided that it does not begin with a word that is kept for something else. -/
theorem blamesAt_field (annots : List Tree.Annot) (hc : c.Proper) (ht : peek c = .ok (t, c))
    (hkind : t.kind = .ident) (hword : t.text ∉ Phrase.memberWords) :
    BlamesAt c.rest c (field annots) Phrase.fieldLead := by
  refine .located ?_
  refine .bind hc Quiet.label?.blamesAt (readsAt_label? hc ht) fun o l c₁ hc₁ hl hlabel => ?_
  obtain ⟨htook, hnone⟩ := hlabel
  refine .atWord_bind fun u hu => ?_
  have hlabel := label_cases ht hkind hword hc htook hnone hl hu
  refine .ite (fun hrepeated => ?_) fun hrepeated => ?_
  · -- the word behind a label, since no member begins with it
    refine .failUnsupported hc₁ hu (kind_ne_eof_of_isWord hrepeated) hl fun r _ => ?_
    rcases hlabel with hl | ⟨rfl, rfl, -⟩
    · refine .inl (.inl (Language.mem_mul.mpr ⟨l, hl, [], .inl ⟨rfl, "repeated", ?_, hrepeated⟩, ?_⟩))
      · exact List.mem_singleton_self _
      · exact List.append_nil l
    · rw [(isWord_eq_true.mp hrepeated).2] at hword
      exact absurd (by decide) hword
  refine .bind hc₁ (blames_typeRef.at hc₁ hl fun f x r v hrest hv => ?_) (reads_typeRef c₁ hc₁)
    fun type w c₂ hc₂ hw htype => ?_
  -- the type may be refused as well, at a word behind what was read of it
  · obtain ⟨u', z, huz⟩ : ∃ u' z, v ++ x :: r = u' :: z := List.exists_cons_of_ne_nil (by simp)
    obtain rfl : u = u' := eq_of_peek hu (hrest.trans huz)
    exact mem_fieldLead_of_type hlabel hkind hrepeated huz hv
  have hfront := mem_fieldFront hlabel hrepeated hu htype hw
  refine .bind hc₂ Quiet.ident.blamesAt (reads_ident c₂ hc₂) fun name n c₃ hc₃ hn hname => ?_
  obtain ⟨x, rfl, hx, -⟩ := hname
  refine .bind hc₃ (Quiet.accept _).blamesAt (reads_accept (by decide) c₃ hc₃)
    fun question q c₄ hc₄ hq hquestion => ?_
  refine .bind hc₄ (Quiet.accept _).blamesAt (reads_accept (by decide) c₄ hc₄)
    fun b e c₅ hc₅ he hb => ?_
  -- behind the number only options in square brackets are refused
  have hend (number : Option Tree.IntLit) {m : List Token} {c₆ : Cursor} (hc₆ : c₆.Proper)
      (hm : c₅.rest = m ++ c₆.rest)
      (hnumber : e ++ m ∈ Phrase.maybe (Phrase.sign .eq * Phrase.intLit)) :
      BlamesAt c.rest c₆ (do
        if (← peek).kind == .openSquare then failUnsupported .fieldOptions
        else
          sigil .semicolon
          return (o, type, name, question, number)) Phrase.fieldLead := by
    refine .peek_bind fun y hy => .ite (fun hsquare => ?_) fun _ =>
      ((Quiet.sigil _).bind fun _ => .pure _).blamesAt
    have hsquare : y.kind = .openSquare := by simpa using hsquare
    have hhead := Language.append_mem_mul (Language.append_mem_mul (Language.append_mem_mul hfront
      (show [x] ∈ Phrase.name from ⟨x, rfl, hx⟩)) hquestion.mem_maybe) hnumber
    refine .failUnsupported (w := l ++ w ++ [x] ++ q ++ (e ++ m)) hc₆ hy
      (by rw [hsquare]; decide) ?_ fun r _ => .inr (Phrase.mem_mul_here.mpr ⟨hhead, rfl, hsquare⟩)
    rw [hl, hw, hn, hq, he, hm]
    simp
  cases b with
  | true =>
    rw [if_pos rfl, map_eq_pure_bind, bind_assoc]
    refine .bind hc₅ Quiet.intLit.blamesAt (reads_intLit c₅ hc₅) fun number m c₆ hc₆ hm hnumber => ?_
    rw [pure_bind]
    exact hend (some number) hc₆ hm (Phrase.mem_maybe (Language.append_mem_mul hb hnumber))
  | false =>
    obtain rfl := took_false.mp hb
    rw [if_neg (by simp), pure_bind]
    exact hend none hc₅ (m := []) rfl Phrase.nil_mem_maybe

/-- A member of a message blames one of the unsupported members, a group, or a place inside a field.
-/
theorem blames_messageMember (annots : List Tree.Annot) :
    Blames (messageMember annots) Phrase.messageMemberLead := by
  refine fun c hc => .peek_bind fun t ht => ?_
  split
  · next hkind =>
    split
    · next f hf =>
      -- a word from the table of unsupported members
      refine .failUnsupported (w := []) hc ht (by rw [hkind]; decide) rfl
        fun r _ => .inl (.inl ?_)
      exact ⟨rfl, t.text, Phrase.unsupportedMember?_eq_some.mp hf, isWord_eq_true.mpr ⟨hkind, rfl⟩⟩
    · next hword =>
      -- any other word begins a field
      have hfield := blamesAt_field annots hc ht hkind (Phrase.unsupportedMember?_eq_none.mp hword)
      exact hfield.within (w := []) rfl fun f u r w _ hw => .inr hw
  · next hkind =>
    exact .failUnsupported (w := []) hc ht (by rw [hkind]; decide) rfl
      fun r _ => .inl (.inr ⟨rfl, rfl, hkind⟩)
  · exact (Quiet.failExpected _).blamesAt

/-- A body in braces: what leads up to a construct in one of its members. -/
theorem blames_body {member : List Tree.Annot → Grammar α} {L : Language Token}
    {lead : Phrase.Lead} (hmember : ∀ annots, Reads (member annots) fun _ w => w ∈ L)
    (hne : ∀ w ∈ L, w ≠ []) (hblames : ∀ annots, Blames (member annots) lead) :
    Blames (body member) (Phrase.bodyLead L lead) := by
  let K : Language Token := (Phrase.sign .semicolon + Phrase.front * L)∗
  have hreads (s : Members α) (w : List Token) (hw : Pends K s.pending w) :
      Reads (memberStep member s) fun x v => x.2 = true → v ≠ [] ∧ Pends K x.1.pending (w ++ v) := by
    refine (reads_memberStep (n := 0) hmember hne (fun w _ => Nat.zero_le _) hw (by simp)).conseq
      fun x v hx hmore => ?_
    rw [if_pos hmore] at hx
    exact ⟨hx.1, hx.2.1⟩
  -- inside the braces
  let inside : Phrase.Lead := fun f t r => K * Phrase.front * lead f t r
  have hstep (s : Members α) (w : List Token) (c : Cursor) (hw : Pends K s.pending w)
      (hc : c.Proper) : BlamesAt (w ++ c.rest) c (memberStep member s) inside := by
    refine .peek_bind fun t ht => ?_
    split
    · exact ((Quiet.noPending _).bind fun _ => Quiet.advance.bind fun _ => .pure _).blamesAt
    · exact (Quiet.annot.bind fun _ => .pure _).blamesAt
    · exact (Quiet.advance.bind fun _ => .pure _).blamesAt
    · refine .bind_pure ((hblames _).at hc rfl fun f t r v _ hv => ?_)
      exact Language.append_mem_mul hw.mem_mul_front hv
  have hloop : Blames (loop (memberStep member) {}) inside := fun c hc =>
    BlamesAt.loop (w := []) hreads hstep (Language.nil_mem_kstar _) hc
  intro c hc
  refine .bind hc (Quiet.sigil _).blamesAt (reads_sigil .openCurl c hc) fun _ u c₁ hc₁ hu hopen => ?_
  refine .bind_pure (hloop.at hc₁ hu fun f t r v _ hv => ?_)
  have := Language.append_mem_mul hopen hv
  rwa [← mul_assoc, ← mul_assoc] at this

/-- A message blames what a member of its body blames, behind the name and the opening brace. -/
theorem blamesAt_message (annots : List Tree.Annot) (hc : c.Proper) (ht : peek c = .ok (t, c))
    (hword : t.isWord "message" = true) :
    BlamesAt c.rest c (message annots) Phrase.messageLead := by
  refine .located (.named hc ht hword fun name u c₁ hc₁ hu hrest => .bind_pure ?_)
  exact (blames_body reads_messageMember Phrase.field_ne_nil blames_messageMember).at hc₁ hrest
    fun f t r v _ hv => Language.append_mem_mul hu hv

/-! ## §5 Services -/

/-- A parameter in parentheses blames what its type blames. -/
theorem blames_parameter : Blames parameter (Phrase.openTypeLead []) := by
  refine fun c hc => .bind hc (Quiet.accept _).blamesAt (reads_accept (by decide) c hc)
    fun b w c₁ hc₁ hw hb => ?_
  cases b with
  | true => exact (Quiet.pure none).blamesAt
  | false =>
    obtain rfl := took_false.mp hb
    exact .bind_quiet (blames_typeRef.at hc₁ hw fun f t r v _ hv => hv) (reads_typeRef c₁ hc₁)
      fun type => (Quiet.sigil _).bind fun _ => .pure _

/-- The input of a method, in parentheses or bare. -/
theorem blames_methodInput : Blames methodInput Phrase.inputLead := by
  refine fun c hc => .bind hc (Quiet.accept _).blamesAt (reads_accept (by decide) c hc)
    fun b w c₁ hc₁ hw hb => ?_
  cases b with
  | true =>
    -- in parentheses
    exact blames_parameter.at hc₁ hw fun f t r v _ hv => .inl (Language.append_mem_mul hb hv)
  | false =>
    obtain rfl := took_false.mp hb
    -- bare: a type, when a name other than returns stands there
    refine .peek_bind fun t ht => .ite (fun hname => ?_) fun _ => (Quiet.pure none).blamesAt
    obtain ⟨hkind, htext⟩ : t.kind = .ident ∧ t.text ≠ "returns" := by simpa using hname
    refine .map (blames_typeRef.at hc₁ hw fun f x r v hrest hv => .inr ?_)
    obtain ⟨u, z, huz⟩ : ∃ u z, v ++ x :: r = u :: z := List.exists_cons_of_ne_nil (by simp)
    obtain rfl : t = u := eq_of_peek ht (hrest.trans huz)
    rcases hv with ⟨rfl, -, hx⟩ | htype
    · obtain rfl : x = t := (List.cons.inj huz).1
      rw [hkind] at hx
      cases hx
    · exact mem_typeLead htype huz (by simpa using htext)

/-- The answer of a method, behind its mark. -/
theorem blames_methodOutput : Blames methodOutput Phrase.outputLead := by
  refine fun c hc => .bind hc Quiet.outputMark.blamesAt (reads_outputMark c hc)
    fun b m c₁ hc₁ hm hmark => ?_
  cases b with
  | false => exact (Quiet.pure none).blamesAt
  | true =>
    refine .bind hc₁ (Quiet.accept _).blamesAt (reads_accept (by decide) c₁ hc₁)
      fun b w c₂ hc₂ hw hb => ?_
    cases b with
    | true =>
      -- in parentheses
      refine blames_parameter.at (w := m ++ w) hc₂ (by rw [hm, hw, List.append_assoc])
        fun f t r v _ hv => ?_
      rw [List.append_assoc]
      exact Language.append_mem_mul hmark (.inl (Language.append_mem_mul hb hv))
    | false =>
      obtain rfl := took_false.mp hb
      -- bare
      refine .map (blames_typeRef.at (w := m) hc₂ (by rw [hm, hw, List.nil_append])
        fun f t r v _ hv => ?_)
      exact Language.append_mem_mul hmark (.inr hv)

/-- The end of a method blames an option inside its braces, and nothing else. -/
theorem blames_methodEnd : Blames methodEnd Phrase.methodEndLead := by
  let inside : Phrase.Lead := fun f t r =>
    (Phrase.sign .semicolon)∗ * Phrase.wordLead [("option", .nestedOption)] f t r
  have hloop : Blames (loop methodEndStep ()) inside := by
    -- invariant of the loop: only semicolons have been read
    refine fun c hc => BlamesAt.loop (I := fun _ w => w ∈ (Phrase.sign .semicolon)∗) (w := [])
      (fun u w hw => (reads_methodEndStep hw).conseq fun x v hx hmore => ?_)
      (fun u w c hw hc => ?_) (Language.nil_mem_kstar _) hc
    · rwa [if_pos hmore] at hx
    · refine .bind hc (Quiet.accept _).blamesAt (reads_accept (by decide) c hc)
        fun b v c₁ hc₁ hv hb => ?_
      cases b with
      | true => exact (Quiet.pure _).blamesAt
      | false =>
        obtain rfl := took_false.mp hb
        refine .atWord_bind fun t ht => .ite (fun hword => ?_) fun _ =>
          ((Quiet.sigil _).bind fun _ => .pure _).blamesAt
        -- the word option, which is the one construct blamed here
        refine .failUnsupported hc₁ ht (kind_ne_eof_of_isWord hword) (by rw [hv]; rfl) fun r _ => ?_
        refine Phrase.mem_mul_here.mpr ⟨hw, "option", ?_, hword⟩
        exact List.mem_singleton_self _
  rw [methodEnd_eq]
  refine fun c hc => .bind hc (Quiet.accept _).blamesAt (reads_accept (by decide) c hc)
    fun b w c₁ hc₁ hw hb => ?_
  cases b with
  | false => exact (Quiet.sigil _).blamesAt
  | true =>
    refine hloop.at hc₁ hw fun f t r v _ hv => ?_
    have := Language.append_mem_mul hb hv
    rwa [← mul_assoc] at this

/-- A method blames a place in its input, in its answer behind the input, or in its end behind both.
-/
theorem blamesAt_method (annots : List Tree.Annot) (hc : c.Proper) (ht : peek c = .ok (t, c))
    (hword : t.isWord "rpc" = true) : BlamesAt c.rest c (method annots) Phrase.methodLead := by
  refine .located (.named hc ht hword fun name u c₁ hc₁ hu hrest => ?_)
  refine .bind hc₁ (blames_methodInput.at hc₁ hrest fun f t r v _ hv =>
    Language.append_mem_mul hu (.inl hv)) (reads_methodInput c₁ hc₁) fun input v c₂ hc₂ hv hinput => ?_
  -- the answer starts behind the name and the input
  refine .bind hc₂ (blames_methodOutput.at (w := u ++ v) hc₂ (by rw [hrest, hv, List.append_assoc])
    fun f t r z _ hz => ?_) (reads_methodOutput c₂ hc₂) fun output z c₃ hc₃ hz houtput => ?_
  · rw [List.append_assoc]
    exact Language.append_mem_mul hu (.inr (Language.append_mem_mul hinput (.inl hz)))
  -- and the end behind all three
  refine .bind_pure (blames_methodEnd.at (w := u ++ (v ++ z)) hc₃
    (by rw [hrest, hv, hz, List.append_assoc, List.append_assoc]) fun f t r y _ hy => ?_)
  rw [List.append_assoc, List.append_assoc]
  exact Language.append_mem_mul hu (.inr (Language.append_mem_mul hinput
    (.inr (Language.append_mem_mul houtput hy))))

/-- A member of a service blames an option or what a method blames. -/
theorem blames_serviceMember (annots : List Tree.Annot) :
    Blames (serviceMember annots) Phrase.serviceMemberLead := by
  refine fun c hc => .atWord_bind fun t ht => .ite (fun hword => ?_) fun _ => ?_
  · exact (blamesAt_method annots hc ht hword).within (w := []) rfl fun f u r w _ hw => .inr hw
  refine .atWord_bind fun t ht => .ite (fun hword => ?_) fun _ => ?_
  · exact .failUnsupported (w := []) hc ht (kind_ne_eof_of_isWord hword) rfl
      fun r _ => .inl ⟨rfl, "option", by simp [Phrase.serviceConstructs], hword⟩
  refine .atWord_bind fun t ht => .ite (fun hword => ?_) fun _ => (Quiet.failExpected _).blamesAt
  exact .failUnsupported (w := []) hc ht (kind_ne_eof_of_isWord hword) rfl
    fun r _ => .inl ⟨rfl, "stream", by simp [Phrase.serviceConstructs], hword⟩

/-- A service blames what a member of its body blames, behind the name and the opening brace. -/
theorem blamesAt_service (annots : List Tree.Annot) (hc : c.Proper) (ht : peek c = .ok (t, c))
    (hword : t.isWord "service" = true) :
    BlamesAt c.rest c (service annots) Phrase.serviceLead := by
  refine .located (.named hc ht hword fun name u c₁ hc₁ hu hrest => .bind_pure ?_)
  exact (blames_body reads_serviceMember Phrase.method_ne_nil blames_serviceMember).at hc₁ hrest
    fun f t r v _ hv => Language.append_mem_mul hu hv

/-! ## §6 Files -/

/-- A statement of a file blames a place of a file read from its first token. -/
theorem blamesAt_statement {d : Draft} {w : List Token} (h : Drafted d w) (hc : c.Proper) :
    BlamesAt (w ++ c.rest) c (statement d) Phrase.fileLead := by
  -- what has been read so far is the front of a file
  have hfile {seen : Bool} {v : List Token} (hv : v ∈ Phrase.statements seen) :
      v ∈ Phrase.file false := Phrase.mem_file.mpr ⟨seen, by simp, hv⟩
  -- a declaration may have annotations pending, which stand in front of its keyword
  have hdecl {f : Feature} {t : Token} {r v : List Token}
      (hv : v ∈ Phrase.messageLead f t r + Phrase.serviceLead f t r) :
      w ++ v ∈ Phrase.fileLead f t r := by
    obtain ⟨x, hx, y, hy, rfl⟩ := Language.mem_mul.mp h.pends.mem_mul_front
    rw [List.append_assoc]
    exact Language.append_mem_mul (hfile hx) (.inr (Language.append_mem_mul hy hv))
  refine .peek_bind fun t ht => .ite (fun hword => ?_) fun _ => .ite (fun hword => ?_) fun _ => ?_
  · exact .bind_pure ((blamesAt_message _ hc ht hword).within rfl fun f t r v _ hv => hdecl (.inl hv))
  · exact .bind_pure ((blamesAt_service _ hc ht hword).within rfl fun f t r v _ hv => hdecl (.inr hv))
  -- every other statement refuses pending annotations first
  refine .noPending_bind fun hpending => ?_
  -- the words of the constructs that a file does not have
  have hword {f : Feature} {text : Bytes} (hf : (text, f) ∈ Phrase.fileConstructs)
      (hword : t.isWord text = true) :
      BlamesAt (w ++ c.rest) c (failUnsupported f : Grammar Draft) Phrase.fileLead := by
    refine .failUnsupported hc ht (kind_ne_eof_of_isWord hword) rfl fun r _ => ?_
    refine Language.mem_mul.mpr ⟨w, hfile (h.pends.mem (List.reverse_eq_nil_iff.mp hpending)), [],
      .inl ⟨rfl, text, hf, hword⟩, List.append_nil w⟩
  refine .ite (fun _ => (Quiet.package.bind fun _ => ?_).blamesAt) fun _ => ?_
  · exact .ite (.fail (by simp [SyntaxError.atToken])) (.pure _)
  refine .ite (fun _ => (Quiet.version.bind fun _ => .pure _).blamesAt) fun _ => ?_
  refine .ite (fun _ => (Quiet.setting.bind fun _ => .pure _).blamesAt) fun _ => ?_
  refine .ite (hword (by simp [Phrase.fileConstructs])) fun _ => ?_
  refine .ite (hword (by simp [Phrase.fileConstructs])) fun _ => ?_
  exact .ite (hword (by simp [Phrase.fileConstructs])) fun _ => (Quiet.failExpected _).blamesAt

/-- One step of the loop over a file: a statement, an annotation, or a stray semicolon. -/
theorem blamesAt_fileStep {d : Draft} {w : List Token} (h : Drafted d w) (hc : c.Proper) :
    BlamesAt (w ++ c.rest) c (fileStep d) Phrase.fileLead := by
  refine .peek_bind fun t ht => ?_
  split
  · exact (Quiet.pure _).blamesAt
  · exact (Quiet.annot.bind fun _ => .pure _).blamesAt
  · exact (Quiet.advance.bind fun _ => .pure _).blamesAt
  · exact .bind_pure (blamesAt_statement h hc)

/-- A file that is refused for a construct begins with what leads up to it. -/
theorem blames_file (requirePackage : Bool) : Blames (file requirePackage) Phrase.fileLead := by
  intro c hc
  have hstart : Drafted {} [] :=
    ⟨Language.nil_mem_kstar _, fun p hp => (by cases hp), fun m hm => (by cases hm)⟩
  have hloop : BlamesAt c.rest c (loop fileStep {}) Phrase.fileLead :=
    BlamesAt.loop (I := Drafted) (w := []) (fun d w hd => (reads_fileStep hd).conseq
      fun x v hx hmore => by simpa [hmore] using hx) (fun d w c hd hc => blamesAt_fileStep hd hc)
      hstart hc
  have hreads := Reads.loop (I := Drafted) (J := Drafted) (fun d w hd => reads_fileStep hd) hstart c hc
  refine .get_bind (.bind_quiet hloop hreads fun d => ?_)
  refine (Quiet.noPending _).bind fun _ => Quiet.peek.bind fun eof => .ite (.fail (by simp)) ?_
  exact Quiet.get.bind fun _ => .pure _

end Grammar

/-! ## §7 Lexical errors -/

/-- Whatever is wrong, it is a lexical error. -/
def ScanFault.Lexical {δ : Type} (x : Except ScanFault δ) : Prop :=
  ∀ f, x = .error f → f.cause.isLexical = true

namespace Scan

open ScanFault

/-- A token carries no fault. -/
theorem lexical_token (kind : TokenKind) (length : Nat) : Lexical (token kind length) := by
  intro f h
  unfold token at h
  split at h
  · cases h
    rfl
  · cases h

/-- The faults of an open text are lexical. -/
theorem lexical_textEnd (mark : UInt8) (n : Nat) (escaped : Bool) (b : Bytes) :
    Lexical (textEnd mark n escaped b) := by
  intro f h
  fun_induction textEnd mark n escaped b with
  -- the source ends inside the text
  | case1 =>
    cases h
    rfl
  | case2 n c r ih => exact ih h
  | case3 n c r => exact lexical_token _ _ f h
  -- an escape cut off, a newline, a control character
  | case4 n c r =>
    cases h
    rfl
  | case5 n c r =>
    cases h
    rfl
  | case6 n c r =>
    cases h
    rfl
  | case7 n c r hc hctl ih => exact ih h

/-- The faults of a number are lexical. -/
theorem lexical_number (b : Bytes) : Lexical (number b) := by
  intro f h
  -- both branches finish in the same way
  have hfinish {kind : TokenKind} {length : Nat} {ok : Bool} {text : Bytes}
      (h : (if ok = true then token kind length else .error ⟨.badNumber text, 0, length⟩) = .error f) :
      f.cause.isLexical = true := by
    split at h
    · exact lexical_token _ _ f h
    · cases h
      rfl
  simp only [number] at h
  split at h
  · split at h
    · exact hfinish h
    · cases h
      rfl
  · exact hfinish h

/-- A character that begins no token is a lexical fault. -/
theorem lexical_other (c : UInt8) (r : Bytes) : Lexical (other c r) := by
  intro f h
  unfold other at h
  split at h
  · split at h
    · exact lexical_token _ _ f h
    · split at h
      · cases h
        rfl
      · cases h
        rfl
  · cases h
    rfl

end Scan

/-- Every fault of one scan is lexical. -/
theorem lexical_scanToken (c : UInt8) (r : Bytes) : ScanFault.Lexical (scanToken c r) := by
  intro f h
  -- one case for each way a token can begin
  cases scannedBy c r with
  | sigil _ hx => cases hx.symm.trans h
  | blanks _ hx => exact Scan.lexical_token _ _ f (hx.symm.trans h)
  | doubleColon _ _ hx => cases hx.symm.trans h
  | arrow _ _ hx => cases hx.symm.trans h
  | carriageReturn _ _ hx => cases hx.symm.trans h
  | comment _ _ hx => exact Scan.lexical_token _ _ f (hx.symm.trans h)
  | blockComment _ _ _ hx => exact Scan.lexical_token _ _ f (hx.symm.trans h)
  | unterminated _ _ hx =>
    cases hx.symm.trans h
    rfl
  | text _ hx => exact Scan.lexical_textEnd _ _ _ _ f (hx.symm.trans h)
  | number _ hx => exact Scan.lexical_number _ f (hx.symm.trans h)
  | ident _ hx => exact Scan.lexical_token _ _ f (hx.symm.trans h)
  | other hx => exact Scan.lexical_other c r f (hx.symm.trans h)

/-- What stops the cutting of a source into tokens is a lexical error. -/
theorem lexical_lexFrom {skip start : Nat} {pos : Pos} {line : AnnotLine} {acc : List Token}
    {b : Bytes} {e : SyntaxError} (h : (lexFrom skip start pos line acc b).ending = .error e) :
    e.cause.isLexical = true := by
  fun_induction lexFrom skip start pos line acc b with
  | case1 => cases h
  | case2 n start pos line acc c r ih => exact ih h
  | case3 start pos line acc c r f hf =>
    cases h
    exact lexical_scanToken c r f hf
  | case4 =>
    cases h
    rfl
  | case5 start pos line acc c r kind extra hscan text line' hline ih => exact ih h

/-- A source that is refused as a whole, or not cut to its end, has a lexical error. -/
theorem lexical_lex {src : Bytes} {e : SyntaxError}
    (h : lex src = .error e ∨ ∃ l, lex src = .ok l ∧ l.ending = .error e) :
    e.cause.isLexical = true := by
  unfold lex at h
  split at h
  · -- bytes that are not UTF-8
    rcases h with h | ⟨l, h, -⟩
    · cases h
      rfl
    · cases h
  · split at h
    · rcases h with h | ⟨l, h, -⟩
      · cases h
        rfl
      · cases h
    · rcases h with h | ⟨l, h, hending⟩
      · cases h
      · cases h
        -- a fault behind tokens that were read
        exact lexical_lexFrom hending

/-! ## §8 Sources -/

/-- The numbers from 2100 on are those of the constructs. -/
theorem SyntaxCause.exists_feature {x : SyntaxCause} (h : 2100 ≤ x.code) :
    ∃ f text, x = .unsupported f text := by
  cases x with
  | unsupported f text => exact ⟨f, text, rfl⟩
  | missingSigil want got text => cases want <;> simp [code, Sigil.code] at h
  | expected want got text => cases want <;> simp [code, Expectation.code] at h
  | _ => simp [code] at h

/-- A source is refused for a construct if and only if its tokens up to the construct lead up to it.
The error has the number of the construct, its name, and the place of the token that it begins
with, whatever comes after it. -/
theorem parseFile_unsupported_iff (src : Bytes) (allowMissingPackage : Bool) (code : Nat)
    (name : Bytes) (span : Span) :
    (2100 ≤ code ∧ code ≤ 2114 ∧ ∃ e, parseFile src allowMissingPackage = .error e
        ∧ e.cause.code = code ∧ e.cause.found = name ∧ e.span = span)
      ↔ ∃ l w t r f, lex src = .ok l ∧ l.significant = w ++ t :: r ∧ w ∈ Phrase.fileLead f t r
        ∧ (f, code, name) ∈ Phrase.constructs ∧ t.span = span := by
  constructor
  · rintro ⟨hcode, -, e, he, rfl, rfl, rfl⟩
    obtain ⟨f, text, hcause⟩ := SyntaxCause.exists_feature hcode
    have hlexical : ¬e.cause.isLexical = true := by
      simp only [SyntaxCause.isLexical, decide_eq_true_eq]
      omega
    -- a construct is refused by the grammar, not by the scanner
    cases hlex : lex src with
    | error e' =>
      obtain rfl : e' = e := by simpa [parseFile, Grammar.run, hlex, bind, Except.bind] using he
      exact absurd (lexical_lex (.inl hlex)) hlexical
    | ok l =>
      rw [parseFile_of_lex hlex] at he
      have hfile : Grammar.file (!allowMissingPackage) ⟨l.significant, l.ending, 0⟩ = .error e := by
        cases hfile : Grammar.file (!allowMissingPackage) ⟨l.significant, l.ending, 0⟩ with
        | error e' => simpa [hfile, Except.map] using he
        | ok x => simp [hfile, Except.map] at he
      rcases Grammar.blames_file _ _ (significant_proper hlex) hfile hcause with
        hending | ⟨w, t, r, rfl, hrest, hw⟩
      · exact absurd (lexical_lex (.inr ⟨l, hlex, hending⟩)) hlexical
      · exact ⟨l, w, t, r, f, rfl, hrest, hw, Phrase.mem_constructs.mpr ⟨rfl, rfl⟩, rfl⟩
  · rintro ⟨l, w, t, r, f, hlex, hrest, hw, hconstruct, rfl⟩
    obtain ⟨rfl, rfl⟩ := Phrase.mem_constructs.mp hconstruct
    have hfile := (Grammar.refuses_file (!allowMissingPackage) hw).2 l.ending 0
    refine ⟨by cases f <;> decide, by cases f <;> decide, Grammar.refusal f t, ?_, rfl, rfl, rfl⟩
    rw [parseFile_of_lex hlex, hrest, hfile]
    rfl

end Idl
