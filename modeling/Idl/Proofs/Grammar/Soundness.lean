import Idl.Proofs.Grammar.Phrase
import Idl.Proofs.Grammar.Simulation

/-!
# What is read is in the language

`Reads p Q` says that whenever the piece of grammar `p` succeeds, its result `a` and the tokens `w`
that it consumed satisfy `Q a w`. Each piece of grammar is shown to consume a phrase of its own.

* §1 the logic of consumed tokens, §2 its rules,
* §3 names and constants, §4 annotations,
* §5 messages, §6 services, §7 files.
-/

namespace Idl

open scoped Computability

/-! ## §1 Consumed tokens -/

namespace Cursor

/-- A position before tokens that are not the end, with the end behind them. -/
structure Proper (c : Cursor) : Prop where
  rest : ∀ t ∈ c.rest, t.kind ≠ .eof
  ending : ∀ e, c.ending = .ok e → e.kind = .eof

/-- What is left of proper tokens is proper. -/
theorem Proper.next {c c' : Cursor} {w : List Token} (hc : c.Proper)
    (hrest : c.rest = w ++ c'.rest) (hending : c'.ending = c.ending) : c'.Proper where
  rest t ht := hc.rest t (by rw [hrest]; exact List.mem_append_right _ ht)
  ending e he := hc.ending e (hending ▸ he)

/-- A token that is not the end is the first one of those that are left. -/
theorem Proper.rest_eq {c : Cursor} {t : Token} (hc : c.Proper)
    (ht : Grammar.peek c = .ok (t, c)) (hkind : t.kind ≠ .eof) : ∃ r, c.rest = t :: r := by
  obtain ⟨rest, ending, stop⟩ := c
  cases rest with
  | nil =>
    cases ending with
    | error e => cases ht
    | ok e =>
      cases ht
      -- the token at the end is that of the end
      exact absurd (hc.ending _ rfl) hkind
  | cons u r =>
    cases ht
    exact ⟨r, rfl⟩

end Cursor

namespace Grammar

variable {α β σ : Type} {c : Cursor}

/-- If a piece of grammar succeeds at a position, its result and what it consumed satisfy a
condition. -/
def ReadsAt (c : Cursor) (p : Grammar α) (Q : α → List Token → Prop) : Prop :=
  ∀ ⦃a c'⦄, p c = .ok (a, c') → ∃ w, c.rest = w ++ c'.rest ∧ c'.ending = c.ending ∧ Q a w

/-- If a piece of grammar succeeds anywhere, its result and what it consumed satisfy a condition. -/
def Reads (p : Grammar α) (Q : α → List Token → Prop) : Prop :=
  ∀ c : Cursor, c.Proper → ReadsAt c p Q

/-- A phrase was consumed, or nothing was, and a flag tells which. -/
def Took (L : Language Token) (b : Bool) (w : List Token) : Prop := if b then w ∈ L else w = []

/-- What was taken is of the language. -/
@[simp] theorem took_true {L : Language Token} {w : List Token} : Took L true w ↔ w ∈ L := Iff.rfl

/-- What was not taken is nothing. -/
@[simp] theorem took_false {L : Language Token} {w : List Token} : Took L false w ↔ w = [] :=
  Iff.rfl

/-- Taken or not, it is an optional phrase. -/
theorem Took.mem_maybe {L : Language Token} {b : Bool} {w : List Token} (h : Took L b w) :
    w ∈ Phrase.maybe L := by
  cases b with
  | true => exact .inr h
  | false => exact .inl h

/-! ## §2 Rules -/

/-- A sequence succeeds if both of its parts do. -/
theorem exists_of_bind_eq_ok {p : Grammar α} {k : α → Grammar β} {b : β} {d : Cursor}
    (h : (p >>= k) c = .ok (b, d)) : ∃ a c', p c = .ok (a, c') ∧ k a c' = .ok (b, d) := by
  rw [bind_apply] at h
  cases hp : p c with
  | error e =>
    rw [hp] at h
    cases h
  | ok x =>
    rw [hp] at h
    exact ⟨x.1, x.2, rfl, h⟩

/-- Looking at the next token consumes nothing. -/
theorem eq_of_peek_eq_ok {t : Token} {d : Cursor} (h : peek c = .ok (t, d)) : c = d := by
  unfold peek at h
  split at h
  · cases h
    rfl
  · split at h <;> cases h
    rfl

namespace ReadsAt

variable {Q : α → List Token → Prop} {t : Token}

/-- Giving a result reads nothing. -/
theorem pure {a : α} (h : Q a []) : ReadsAt c (Pure.pure a) Q := by
  rintro _ _ ⟨⟩
  exact ⟨[], rfl, rfl, h⟩

/-- A failure reads nothing that would have to be a phrase. -/
theorem fail {e : SyntaxError} : ReadsAt c (Grammar.fail e) Q := by
  rintro _ _ ⟨⟩

/-- The same at the next token. -/
theorem failHere {cause : Token → SyntaxCause} : ReadsAt c (Grammar.failHere cause) Q := by
  intro a c' h
  obtain ⟨t, d, -, h⟩ := exists_of_bind_eq_ok h
  cases h

/-- The same where something was expected. -/
theorem failExpected {want : Expectation} : ReadsAt c (Grammar.failExpected want) Q := failHere

/-- The same for a construct that is not supported. -/
theorem failUnsupported {feature : Feature} : ReadsAt c (Grammar.failUnsupported feature) Q :=
  failHere

/-- What a sequence reads is what its parts read, in a row. -/
theorem bind {P : α → List Token → Prop} {R : β → List Token → Prop} {p : Grammar α}
    {k : α → Grammar β} (hc : c.Proper) (hp : ReadsAt c p P)
    (hk : ∀ a w c', c'.Proper → c.rest = w ++ c'.rest → P a w →
      ReadsAt c' (k a) fun b v => R b (w ++ v)) :
    ReadsAt c (p >>= k) R := by
  intro b d h
  obtain ⟨a, c', ha, hb⟩ := exists_of_bind_eq_ok h
  obtain ⟨w, hrest, hending, hw⟩ := hp ha
  obtain ⟨v, hrest', hending', hv⟩ := hk a w c' (hc.next hrest hending) hrest hw hb
  exact ⟨w ++ v, by rw [hrest, hrest', List.append_assoc], hending'.trans hending, hv⟩

/-- A weaker account of what was read. -/
theorem conseq {P : α → List Token → Prop} {p : Grammar α} (hp : ReadsAt c p P)
    (h : ∀ a w, P a w → Q a w) : ReadsAt c p Q := by
  intro a c' ha
  obtain ⟨w, hrest, hending, hw⟩ := hp ha
  exact ⟨w, hrest, hending, h a w hw⟩

/-- What is consumed is determined, so that two facts about it hold together. -/
theorem and {p : Grammar α} {P : α → List Token → Prop} (hp : ReadsAt c p P)
    (hq : ReadsAt c p Q) : ReadsAt c p fun a w => P a w ∧ Q a w := by
  intro a c' h
  obtain ⟨w, hrest, hending, hw⟩ := hp h
  obtain ⟨v, hrest', -, hv⟩ := hq h
  obtain rfl : w = v := List.append_cancel_right (hrest.symm.trans hrest')
  exact ⟨w, hrest, hending, hw, hv⟩

/-- A choice reads what the branch taken reads. -/
theorem ite {b : Prop} [Decidable b] {p q : Grammar α} (hp : b → ReadsAt c p Q)
    (hq : ¬b → ReadsAt c q Q) : ReadsAt c (if b then p else q) Q := by
  split
  · exact hp ‹_›
  · exact hq ‹_›

/-- A look at the next token reads nothing. -/
theorem peek_bind {k : Token → Grammar α}
    (hk : ∀ t, peek c = .ok (t, c) → ReadsAt c (k t) Q) : ReadsAt c (peek >>= k) Q := by
  intro a c' hbind
  obtain ⟨t, d, hpeek, h⟩ := exists_of_bind_eq_ok hbind
  obtain rfl := eq_of_peek_eq_ok hpeek
  exact hk t hpeek h

/-- Nor does the question whether it is a word. -/
theorem atWord_bind {text : Bytes} {k : Bool → Grammar α}
    (hk : ∀ t, peek c = .ok (t, c) → ReadsAt c (k (t.isWord text)) Q) :
    ReadsAt c (atWord text >>= k) Q := by
  rw [atWord, bind_assoc]
  refine peek_bind fun t ht => ?_
  rw [pure_bind]
  exact hk t ht

/-- A word is taken if it is the one that stands there, else the parser goes on at the same place.
-/
theorem acceptWord_bind {text : Bytes} {k : Bool → Grammar α} (ht : peek c = .ok (t, c))
    (htrue : t.isWord text = true → ReadsAt c (Grammar.advance >>= fun _ => k true) Q)
    (hfalse : ¬t.isWord text = true → ReadsAt c (k false) Q) :
    ReadsAt c (acceptWord text >>= k) Q := by
  intro a c' h
  rw [acceptWord_bind_apply ht] at h
  split at h
  · exact htrue ‹_› h
  · exact hfalse ‹_› h

/-- The next token is consumed. -/
theorem advance (hc : c.Proper) (ht : peek c = .ok (t, c)) (hkind : t.kind ≠ .eof) :
    ReadsAt c Grammar.advance fun _ w => w = [t] := by
  obtain ⟨r, hrest⟩ := hc.rest_eq ht hkind
  intro _ c' h
  simp only [Grammar.advance, hrest] at h
  cases h
  exact ⟨[t], hrest, rfl, rfl⟩

/-- The next token is consumed and nothing else. -/
theorem advance_pure {a : α} (hc : c.Proper) (ht : peek c = .ok (t, c)) (hkind : t.kind ≠ .eof)
    (h : Q a [t]) : ReadsAt c (Grammar.advance >>= fun _ => Pure.pure a) Q := by
  refine (advance hc ht hkind).bind hc fun _ w _ _ _ hw => pure ?_
  subst hw
  exact h

/-- The place that is added does not count. -/
theorem located {p : Grammar α} {build : Loc → α → β} {P : α → List Token → Prop}
    {R : β → List Token → Prop} (hc : c.Proper) (hp : ReadsAt c p P)
    (h : ∀ loc a w, P a w → R (build loc a) w) : ReadsAt c (Grammar.located build p) R := by
  refine peek_bind fun t _ => hp.bind hc fun a w c' _ _ hw => ?_
  intro b d hb
  cases hb
  exact ⟨[], rfl, rfl, by simpa using h _ a w hw⟩

end ReadsAt

namespace Reads

variable {Q : α → List Token → Prop}

/-- Giving a result, from any cursor. -/
theorem pure {a : α} (h : Q a []) : Reads (Pure.pure a) Q := fun _ _ => .pure h

/-- A sequence, from any cursor. -/
theorem bind {P : α → List Token → Prop} {R : β → List Token → Prop} {p : Grammar α}
    {k : α → Grammar β} (hp : Reads p P)
    (hk : ∀ a w, P a w → Reads (k a) fun b v => R b (w ++ v)) : Reads (p >>= k) R :=
  fun c hc => (hp c hc).bind hc fun a w c' hc' _ hw => hk a w hw c' hc'

/-- What is done to the result. -/
theorem map {P : α → List Token → Prop} {R : β → List Token → Prop} {p : Grammar α} {f : α → β}
    (hp : Reads p P) (h : ∀ a w, P a w → R (f a) w) : Reads (f <$> p) R := by
  rw [map_eq_pure_bind]
  exact hp.bind fun a w hw => pure (by simpa using h a w hw)

/-- A weaker account, from any cursor. -/
theorem conseq {P : α → List Token → Prop} {p : Grammar α} (hp : Reads p P)
    (h : ∀ a w, P a w → Q a w) : Reads p Q :=
  fun c hc => (hp c hc).conseq h

/-- A choice, from any cursor. -/
theorem ite {b : Prop} [Decidable b] {p q : Grammar α} (hp : b → Reads p Q)
    (hq : ¬b → Reads q Q) : Reads (if b then p else q) Q :=
  fun c hc => .ite (hp · c hc) (hq · c hc)

/-- Recording the place around a part does not change what it reads. -/
theorem located {p : Grammar α} {build : Loc → α → β} {P : α → List Token → Prop}
    {R : β → List Token → Prop} (hp : Reads p P)
    (h : ∀ loc a w, P a w → R (build loc a) w) : Reads (Grammar.located build p) R :=
  fun c hc => (hp c hc).located hc h

/-- A loop consumes what its steps consume. The invariant speaks of the state and of all that has
been consumed; a step that does not end the loop has to consume something. -/
theorem loop {step : σ → Grammar (σ × Bool)} {I J : σ → List Token → Prop}
    (hstep : ∀ s w, I s w → Reads (step s) fun x v =>
      if x.2 then v ≠ [] ∧ I x.1 (w ++ v) else J x.1 (w ++ v))
    {s : σ} {w : List Token} (h : I s w) :
    Reads (Grammar.loop step s) fun s' v => J s' (w ++ v) := by
  intro c hc
  -- By strong induction on the number of tokens left. The invariant speaks of all that the rounds
  -- have read, so w grows from round to round.
  induction hlen : c.rest.length using Nat.strongRecOn generalizing s w c with
  | ind n ih =>
    intro s₂ c₂ hloop
    rw [Grammar.loop] at hloop
    split at hloop
    · cases hloop
    next s₁ more c₁ hs =>
      obtain ⟨v, hrest, hending, hv⟩ := hstep s w h c hc hs
      have hlength : c.rest.length = v.length + c₁.rest.length := by
        rw [hrest, List.length_append]
      cases more with
      -- the last round
      | false =>
        simp only [Bool.false_and, Bool.false_eq_true, if_false] at hloop hv
        cases hloop
        exact ⟨v, hrest, hending, hv⟩
      -- a round that asks for another has read a token, so fewer are left
      | true =>
        obtain ⟨hne, hI⟩ : v ≠ [] ∧ I s₁ (w ++ v) := hv
        have hpos : 0 < v.length := List.length_pos_iff.mpr hne
        rw [if_pos (by simp; omega)] at hloop
        obtain ⟨u, hrest', hending', hu⟩ :=
          ih c₁.rest.length (by omega) hI c₁ (hc.next hrest hending) rfl hloop
        refine ⟨v ++ u, by rw [hrest, hrest', List.append_assoc], hending'.trans hending, ?_⟩
        simpa only [List.append_assoc] using hu

end Reads

/-- A token that is looked for is there, or nothing is consumed. -/
theorem reads_accept {kind : TokenKind} (hkind : kind ≠ .eof) :
    Reads (accept kind) (Took (Phrase.sign kind)) := by
  refine fun c hc => .peek_bind fun t ht => .ite (fun h => ?_) fun _ => .pure rfl
  have h : t.kind = kind := by simpa using h
  exact .advance_pure hc ht (h ▸ hkind) ⟨t, rfl, h⟩

/-- A sigil is one token, its sign. -/
theorem reads_sigil (s : Sigil) : Reads (sigil s) fun _ w => w ∈ Phrase.sign s.kind := by
  refine (reads_accept (by cases s <;> decide)).bind fun b w hw => ?_
  cases b with
  | true => exact .pure (by simpa using hw)
  | false => exact fun c hc => .failHere

/-- A word is not the end of the tokens. -/
theorem kind_ne_eof_of_isWord {t : Token} {text : Bytes} (h : t.isWord text = true) :
    t.kind ≠ .eof := by
  simp only [Token.isWord, Bool.and_eq_true, beq_iff_eq] at h
  rw [h.1]
  decide

/-- A word that is taken is one token. -/
theorem reads_acceptWord (text : Bytes) :
    Reads (acceptWord text) (Took (Phrase.word text)) := by
  refine fun c hc => .atWord_bind fun t ht => .ite (fun h => ?_) fun _ => .pure rfl
  exact .advance_pure hc ht (kind_ne_eof_of_isWord h) ⟨t, rfl, h⟩

/-! ## §3 Names and constants -/

/-- The token at a position is the first one that is consumed there. -/
theorem eq_of_peek {t u : Token} {r : List Token} (ht : peek c = .ok (t, c))
    (hrest : c.rest = u :: r) : t = u := by
  simp only [peek, hrest] at ht
  cases ht
  rfl

/-- A name that was read is the text of a token. -/
def Names (i : Tree.Ident) (w : List Token) : Prop :=
  ∃ t ∈ w, t.kind = .ident ∧ t.text = i.name

/-- A name among some tokens is among more of them. -/
theorem Names.append_left {i : Tree.Ident} {w : List Token} (h : Names i w) (v : List Token) :
    Names i (v ++ w) := by
  obtain ⟨t, ht, hname⟩ := h
  exact ⟨t, List.mem_append_right _ ht, hname⟩

/-- The same with tokens behind. -/
theorem Names.append_right {i : Tree.Ident} {w : List Token} (h : Names i w) (v : List Token) :
    Names i (w ++ v) := by
  obtain ⟨t, ht, hname⟩ := h
  exact ⟨t, List.mem_append_left _ ht, hname⟩

/-- A name is one token with that text. -/
theorem reads_ident :
    Reads ident fun i w => ∃ t, w = [t] ∧ t.kind = .ident ∧ t.text = i.name := by
  refine fun c hc => .peek_bind fun t ht => .ite (fun h => ?_) fun _ => .failExpected
  have h : t.kind = .ident := by simpa using h
  exact .advance_pure hc ht (by rw [h]; decide) ⟨t, rfl, h, rfl⟩

/-- A number is one token. -/
theorem reads_intLit : Reads intLit fun _ w => w ∈ Phrase.intLit := by
  refine fun c hc => .peek_bind fun t ht => .ite (fun h => ?_) fun _ => .failExpected
  refine .ite (fun hfits => ?_) fun _ => .failHere
  have hkind : t.kind ≠ .eof := fun heof => by simp [heof, TokenKind.isInteger] at h
  simp only [fitsLiteral, Bool.and_eq_true, decide_eq_true_eq] at hfits
  exact .advance_pure hc ht hkind ⟨t, rfl, h, hfits.1, by omega⟩

/-- A text is one token, of which the value has been decoded. -/
theorem reads_textLit : Reads textLit fun l w => w ∈ Phrase.textLitOf l.value := by
  refine fun c hc => .peek_bind fun t ht => .ite (fun h => ?_) fun _ => .failExpected
  have h : t.kind = .textLit := by simpa using h
  split
  · next value hvalue => exact .advance_pure hc ht (by rw [h]; decide) ⟨t, rfl, h, hvalue⟩
  · exact .fail

/-- A separator of a dotted name is a dot or two colons. -/
theorem reads_separator :
    Reads separator (Took (Phrase.sign .dot + Phrase.sign .doubleColon)) := by
  refine (reads_accept (by decide)).bind fun b w hw => ?_
  cases b with
  | true => exact .pure (by rw [List.append_nil]; exact .inl hw)
  | false =>
    obtain rfl := took_false.mp hw
    refine (reads_accept (by decide)).conseq fun b w hw => ?_
    cases b with
    | true => exact .inr hw
    | false => exact hw

/-- A dotted name: a phrase, and each component is the text of a token. -/
theorem reads_path :
    Reads path fun p w => w ∈ Phrase.path ∧ ∀ i ∈ p.parts, Names i w := by
  refine Reads.located (P := fun (x : Tree.Ident × List Tree.Ident) w =>
    w ∈ Phrase.path ∧ ∀ i ∈ x.1 :: x.2, Names i w) ?_ fun _ _ _ h => h
  refine .bind reads_ident fun first w ⟨t, hw, hkind, htext⟩ => ?_
  subst hw
  -- all that has been read is a dotted name
  refine (Reads.loop (I := fun parts w => w ∈ Phrase.path ∧ ∀ i ∈ first :: parts, Names i w)
    (J := fun parts w => w ∈ Phrase.path ∧ ∀ i ∈ first :: parts, Names i w) (w := [t]) ?_ ?_).bind
    ?_
  · rintro parts w ⟨hw, hnames⟩
    refine .bind reads_separator fun b v hv => ?_
    cases b with
    | false =>
      obtain rfl := took_false.mp hv
      exact .pure (by simpa using And.intro hw hnames)
    | true =>
      refine .bind reads_ident fun part u ⟨t, hu, hkind, htext⟩ => .pure ?_
      subst hu
      have hname : Names part [t] := ⟨t, List.mem_singleton_self t, hkind, htext⟩
      obtain ⟨a, ha, b, hb, rfl⟩ := Language.mem_mul.mp hw
      simp only [List.append_nil, if_true]
      refine ⟨by simp, ?_, ?_⟩
      · rw [List.append_assoc]
        exact Language.append_mem_mul ha (Phrase.kstar_append hb
          (Language.append_mem_mul hv ⟨t, rfl, hkind⟩))
      · intro i hi
        rcases List.mem_cons.mp hi with rfl | hi
        · exact (hnames i (List.mem_cons_self ..)).append_right _
        · rcases List.mem_cons.mp hi with rfl | hi
          · exact (hname.append_left v).append_left _
          · exact (hnames i (List.mem_cons_of_mem _ hi)).append_right _
  · refine ⟨Phrase.name_mem_path hkind, ?_⟩
    intro i hi
    obtain rfl := List.mem_singleton.mp hi
    exact ⟨t, List.mem_singleton_self t, hkind, htext⟩
  · rintro more v ⟨hv, hnames⟩
    exact .pure (by simpa using And.intro hv hnames)

/-- A constant that is read is a value. -/
theorem reads_constant? : Reads constant? fun o w => Took Phrase.value o.isSome w := by
  refine fun c hc => .peek_bind fun t ht => ?_
  have hint : ReadsAt c (do return some (Tree.Constant.int (← intLit)))
      fun o w => Took Phrase.value o.isSome w :=
    (Reads.bind reads_intLit fun l w hw => .pure (by simpa using .inl (.inl (.inl (.inl hw))))) c hc
  split
  · exact hint
  · exact hint
  · exact hint
  · next hkind =>
    split
    · next x hx =>
      refine .advance_pure hc ht (by rw [hkind]; decide) ?_
      exact .inl (.inl (.inl (.inr ⟨t, rfl, hkind, by simp [hx]⟩)))
    · exact .failHere
  · refine (Reads.bind reads_textLit fun l w hw => .pure ?_) c hc
    simpa using .inl (.inl (.inr ⟨l.value, hw⟩))
  · next hkind =>
    have heof : t.kind ≠ .eof := by rw [hkind]; decide
    have hword (hmem : t.text ∈ Phrase.constantWords) : [t] ∈ Phrase.value :=
      .inl (.inr ⟨t, rfl, hkind, hmem⟩)
    -- the words that are values, then names that are none of them
    refine .ite (fun h => .advance_pure hc ht heof (hword ?_)) fun hbool => ?_
    · simp only [Bool.or_eq_true, beq_iff_eq] at h
      simp only [Phrase.constantWords, List.mem_cons]
      tauto
    refine .ite (fun h => .advance_pure hc ht heof (hword ?_)) fun hinf => ?_
    · simp [Phrase.constantWords, beq_iff_eq.mp h]
    refine .ite (fun h => .advance_pure hc ht heof (hword ?_)) fun hnan => ?_
    · simp [Phrase.constantWords, beq_iff_eq.mp h]
    obtain ⟨r, hrest⟩ := hc.rest_eq ht heof
    refine (reads_path c hc).bind hc fun p w c' _ hw hp => .pure ?_
    rw [List.append_nil]
    refine .inr (Phrase.mem_pathBut hp.1 (hrest.symm.trans hw) ?_)
    simp only [Bool.or_eq_true, beq_iff_eq] at hbool hinf hnan
    simp only [Phrase.constantWords, List.mem_cons, List.not_mem_nil]
    tauto
  · exact .pure rfl

/-- So is a value. -/
theorem reads_value? : Reads value? fun o w => Took Phrase.value o.isSome w :=
  .located reads_constant? fun _ _ _ h => by simpa using h

/-- A value that had to be there was read. -/
theorem reads_value : Reads value fun _ w => w ∈ Phrase.value := by
  refine .bind reads_value? fun o w hw => ?_
  cases o with
  | none => exact fun c hc => .failExpected
  | some v => exact .pure (by simpa using hw)

/-! ## §4 Annotations -/

/-- An argument of an annotation, if there is one. -/
theorem reads_arg? : Reads arg? fun o w => Took Phrase.arg o.isSome w := by
  refine Reads.located (P := fun (o : Option Tree.ArgForm) w => Took Phrase.arg o.isSome w) ?_
    fun _ _ _ h => by simpa using h
  refine fun c hc => .peek_bind fun t ht => .ite (fun h => ?_) fun h => ?_
  · simp only [Bool.and_eq_true, beq_iff_eq, Bool.not_eq_true', List.contains_eq_mem,
      decide_eq_false_iff_not] at h
    obtain ⟨hkind, htext⟩ := h
    -- a name first: the value after it is optional
    refine (reads_ident c hc).bind hc fun key w c' hc' hw ⟨u, hu, hukind, _⟩ => ?_
    subst hu
    obtain rfl := eq_of_peek ht hw
    have hkey : [t] ∈ Phrase.nameBut Phrase.constantWords :=
      ⟨t, rfl, hkind, fun hmem => htext (Phrase.mem_constantWords.mpr hmem)⟩
    refine ((reads_accept (by decide)).bind fun b v hv => ?_) c' hc'
    cases b with
    | false =>
      obtain rfl := took_false.mp hv
      exact .pure (.inr (Language.append_mem_mul hkey Phrase.nil_mem_maybe))
    | true =>
      refine .bind reads_value fun x u hu => .pure (.inr ?_)
      rw [List.append_nil]
      exact Language.append_mem_mul hkey (Phrase.mem_maybe (Language.append_mem_mul hv hu))
  -- no name of an argument, so what follows is a value or nothing
  · refine (reads_value? c hc).bind hc fun o w c' _ hw hvalue => .pure ?_
    rw [List.append_nil, Option.isSome_map]
    cases o with
    | none => exact hvalue
    | some v =>
      rcases hvalue with hliteral | hpath
      · exact .inl hliteral
      · -- a name that is no such word is the name of an argument
        obtain ⟨a, ⟨u, rfl, hkind, htext⟩, b, -, rfl⟩ := Language.mem_mul.mp hpath
        obtain rfl := eq_of_peek ht hw
        have hmem : t.text ∈ constantWords := by simpa [hkind] using h
        exact absurd (Phrase.mem_constantWords.mp hmem) htext

/-- The arguments of an annotation up to the closing parenthesis. -/
theorem reads_args :
    Reads args fun _ w => w ∈ Phrase.maybe Phrase.args * Phrase.sign .closeParen := by
  let some : Language Token := Phrase.arg * (Phrase.sign .comma * Phrase.arg)∗
  -- what has been read is nothing, or arguments and a comma
  have hnext {w v : List Token} (hw : w = [] ∨ w ∈ some * Phrase.sign .comma)
      (hv : v ∈ Phrase.arg) : w ++ v ∈ some := by
    rcases hw with rfl | hw
    · exact Language.mem_mul.mpr ⟨v, hv, [], Language.nil_mem_kstar _, List.append_nil v⟩
    · obtain ⟨a, ha, b, hb, rfl⟩ := Language.mem_mul.mp hw
      obtain ⟨x, hx, y, hy, rfl⟩ := Language.mem_mul.mp ha
      rw [List.append_assoc, List.append_assoc]
      exact Language.append_mem_mul hx (Phrase.kstar_append hy (Language.append_mem_mul hb hv))
  have hdone {w : List Token} (hw : w = [] ∨ w ∈ some * Phrase.sign .comma) :
      w ∈ Phrase.maybe Phrase.args := by
    rcases hw with rfl | hw
    · exact Phrase.nil_mem_maybe
    · obtain ⟨a, ha, b, hb, rfl⟩ := Language.mem_mul.mp hw
      exact Phrase.mem_maybe (Language.append_mem_mul ha (Phrase.mem_maybe hb))
  have hlast {w : List Token} (hw : w ∈ some) : w ∈ Phrase.maybe Phrase.args := by
    refine Phrase.mem_maybe ?_
    have := Language.append_mem_mul hw (Phrase.nil_mem_maybe (L := Phrase.sign .comma))
    rwa [List.append_nil] at this
  refine (Reads.loop (I := fun _ w => w = [] ∨ w ∈ some * Phrase.sign .comma)
    (J := fun _ w => w ∈ Phrase.maybe Phrase.args * Phrase.sign .closeParen) (w := [])
    ?_ (.inl rfl)).bind fun acc w hw => .pure (by simpa using hw)
  intro acc w hw
  refine (reads_accept (by decide)).bind fun b u hu => ?_
  cases b with
  | true =>
    refine .pure ?_
    rw [List.append_nil]
    exact Language.append_mem_mul (hdone hw) hu
  | false =>
    obtain rfl := took_false.mp hu
    refine .bind reads_arg? fun o v hv => ?_
    cases o with
    | none =>
      obtain rfl := took_false.mp hv
      refine (reads_sigil .closeParen).bind fun _ u hu => .pure ?_
      rw [List.append_nil]
      exact Language.append_mem_mul (hdone hw) hu
    | some a =>
      have hsome := hnext hw hv
      refine (reads_accept (by decide)).bind fun b u hu => ?_
      cases b with
      | true =>
        refine .pure ⟨by obtain ⟨t, rfl, -⟩ := hu; simp, .inr ?_⟩
        have := Language.append_mem_mul hsome hu
        simpa using this
      | false =>
        obtain rfl := took_false.mp hu
        refine (reads_sigil .closeParen).bind fun _ u hu => .pure ?_
        have := Language.append_mem_mul (hlast hsome) hu
        simpa [Sigil.kind] using this

/-- An annotation with the semicolon that may stand behind it. -/
theorem reads_annot : Reads annot fun _ w => w ∈ Phrase.annot := by
  refine Reads.located (P := fun _ w => w ∈ Phrase.annot) ?_ fun _ _ _ h => h
  refine (reads_sigil .atSign).bind fun _ u hu => .bind reads_path fun name v hv => ?_
  refine (reads_accept (by decide)).bind fun b x hx => ?_
  -- y is the argument list, if there is one, and z the semicolon
  have hend {y z : List Token} (hy : y ∈ Phrase.maybe
      (Phrase.sign .openParen * Phrase.maybe Phrase.args * Phrase.sign .closeParen))
      (hz : z ∈ Phrase.maybe (Phrase.sign .semicolon)) : u ++ (v ++ (y ++ z)) ∈ Phrase.annot := by
    have := Language.append_mem_mul (Language.append_mem_mul (Language.append_mem_mul hu hv.1) hy) hz
    simpa [Sigil.kind, Phrase.annot, Phrase.bareAnnot] using this
  cases b with
  | false =>
    obtain rfl := took_false.mp hx
    refine (Reads.pure (Q := fun _ w => w = []) rfl).bind fun args? y hy => ?_
    subst hy
    refine (reads_accept (by decide)).bind fun b z hz => .pure ?_
    simpa using hend Phrase.nil_mem_maybe hz.mem_maybe
  | true =>
    refine (Reads.map reads_args (R := fun _ w => w ∈ Phrase.maybe Phrase.args
      * Phrase.sign .closeParen) fun _ _ h => h).bind fun args? y hy => ?_
    refine (reads_accept (by decide)).bind fun b z hz => .pure ?_
    have hargs := Language.append_mem_mul hx hy
    rw [← mul_assoc] at hargs
    simpa using hend (Phrase.mem_maybe hargs) hz.mem_maybe

/-- No annotation waits, or all is in vain. -/
theorem ReadsAt.noPending_bind {l : List Tree.Annot} {k : Unit → Grammar α}
    {Q : α → List Token → Prop} (h : l = [] → ReadsAt c (k ()) Q) :
    ReadsAt c (noPending l >>= k) Q := by
  cases l with
  | nil => exact h rfl
  | cons a r => exact fun _ _ h => by cases h

/-! ## §5 Messages -/

/-- A type that is accepted begins with none of the words of unsupported constructs. -/
theorem reads_typeRef : Reads typeRef fun _ w => w ∈ Phrase.type := by
  refine Reads.located (P := fun _ w => w ∈ Phrase.type) ?_ fun _ _ _ h => h
  refine fun c hc => .peek_bind fun t ht => ?_
  split
  · next hkind =>
    split
    · exact .failUnsupported
    · next hword =>
      obtain ⟨r, hrest⟩ := hc.rest_eq ht (by rw [hkind]; decide)
      -- the word has been looked at and is read again as the first of the name
      refine (reads_path c hc).bind hc fun name w c' hc' hw hname => ?_
      refine .peek_bind fun next _ => .ite (fun _ => .fail) fun _ => ?_
      refine .ite (fun _ => .failUnsupported) fun _ => .pure ?_
      rw [List.append_nil]
      exact Phrase.mem_pathBut hname.1 (hrest.symm.trans hw) (Phrase.unsupportedType?_eq_none.mp hword)
  · -- an opening square bracket
    exact .failUnsupported
  · exact .failExpected

/-- The word in front of a field is consumed, or the next token is none. -/
theorem readsAt_label? {t : Token} (hc : c.Proper) (ht : peek c = .ok (t, c)) :
    ReadsAt c label? fun o w => Took Phrase.label o.isSome w
      ∧ (o = none → t.isWord "optional" = false ∧ t.isWord "required" = false) := by
  refine .peek_bind fun u hu => ?_
  obtain rfl : t = u := by
    rw [ht] at hu
    cases hu
    rfl
  -- one of the two words, or neither
  refine .acceptWord_bind ht (fun h => ?_) fun hoptional => ?_
  · exact .advance_pure hc ht (kind_ne_eof_of_isWord h) ⟨.inl ⟨t, rfl, h⟩, nofun⟩
  refine .acceptWord_bind ht (fun h => ?_) fun hrequired => ?_
  · exact .advance_pure hc ht (kind_ne_eof_of_isWord h) ⟨.inr ⟨t, rfl, h⟩, nofun⟩
  · exact .pure ⟨rfl, fun _ => ⟨by simpa using hoptional, by simpa using hrequired⟩⟩

/-- Where a member begins with none of its words, what stands before the type of a field is a label,
or it is nothing and the type may begin a field. -/
theorem label_cases {t u : Token} {c₁ : Cursor} {o : Option Tree.Label} {l : List Token}
    (ht : peek c = .ok (t, c)) (hkind : t.kind = .ident) (hword : t.text ∉ Phrase.memberWords)
    (hc : c.Proper) (htook : Took Phrase.label o.isSome l)
    (hnone : o = none → t.isWord "optional" = false ∧ t.isWord "required" = false)
    (hl : c.rest = l ++ c₁.rest) (hu : peek c₁ = .ok (u, c₁)) :
    l ∈ Phrase.label ∨ l = [] ∧ t = u ∧ t.text ∉ Phrase.bareFieldWords := by
  cases o with
  | some label => exact .inl htook
  | none =>
    -- no label was taken, so the word seen first is that of the type
    obtain rfl := took_false.mp htook
    obtain ⟨r, hrest⟩ := hc.rest_eq ht (by rw [hkind]; decide)
    have htu : t = u := (eq_of_peek hu (hl.symm.trans hrest)).symm
    obtain ⟨hoptional, hrequired⟩ := hnone rfl
    simp only [Token.isWord, hkind, beq_self_eq_true, Bool.true_and, beq_eq_false_iff_ne]
      at hoptional hrequired
    refine .inr ⟨rfl, htu, ?_⟩
    simp only [Phrase.bareFieldWords, List.mem_cons, not_or]
    exact ⟨hoptional, hrequired, hword⟩

/-- What a type, read behind a label or not, forms with the label. -/
theorem mem_fieldFront {t u : Token} {l w r : List Token}
    (hlabel : l ∈ Phrase.label ∨ l = [] ∧ t = u ∧ t.text ∉ Phrase.bareFieldWords)
    (hrepeated : ¬u.isWord "repeated" = true) (hu : peek c = .ok (u, c)) (htype : w ∈ Phrase.type)
    (hw : c.rest = w ++ r) :
    l ++ w ∈ Phrase.label * Phrase.typeBut ["repeated"] + Phrase.typeBut Phrase.bareFieldWords := by
  obtain ⟨v, x, rfl, hx⟩ : ∃ v x, w = x :: v ∧ x.kind = .ident := by
    obtain ⟨a, ⟨x, rfl, hx, -⟩, b, -, rfl⟩ := Language.mem_mul.mp htype
    exact ⟨b, x, rfl, hx⟩
  obtain rfl := eq_of_peek hu hw
  -- behind a label one word is not allowed, without one there are several
  rcases hlabel with hl | ⟨rfl, rfl, htext⟩
  · refine .inl (Language.append_mem_mul hl (Phrase.mem_typeBut htype ?_))
    simpa [Token.isWord, hx] using hrepeated
  · exact .inr (Phrase.mem_typeBut htype htext)

/-- A field, provided that it does not begin with a word that is kept for something else. -/
theorem readsAt_field {t : Token} (annots : List Tree.Annot) (hc : c.Proper)
    (ht : peek c = .ok (t, c)) (hkind : t.kind = .ident) (hword : t.text ∉ Phrase.memberWords) :
    ReadsAt c (field annots) fun _ w => w ∈ Phrase.field := by
  refine .located (P := fun _ w => w ∈ Phrase.field) hc ?_ fun _ _ _ h => h
  refine (readsAt_label? hc ht).bind hc fun o l c₁ hc₁ hl hlabel => ?_
  obtain ⟨htook, hnone⟩ := hlabel
  refine .atWord_bind fun u hu => .ite (fun _ => .failUnsupported) fun hrepeated => ?_
  refine (reads_typeRef c₁ hc₁).bind hc₁ fun type w c₂ hc₂ hw htype => ?_
  have hfront := mem_fieldFront (label_cases ht hkind hword hc htook hnone hl hu) hrepeated hu htype hw
  refine (Reads.bind reads_ident fun name n hname => ?_) c₂ hc₂
  obtain ⟨x, hn, hx, -⟩ := hname
  refine (reads_accept (by decide)).bind fun question q hq => ?_
  refine (reads_accept (by decide)).bind fun b e he => ?_
  -- from the end of the number on
  have hend (number : Option Tree.IntLit) {i : List Token}
      (hi : e ++ i ∈ Phrase.maybe (Phrase.sign .eq * Phrase.intLit)) :
      Reads (do
        if (← peek).kind == .openSquare then failUnsupported .fieldOptions
        else
          sigil .semicolon
          return (o, type, name, question, number))
        fun _ v => l ++ (w ++ (n ++ (q ++ (e ++ (i ++ v))))) ∈ Phrase.field := by
    refine fun c hc => .peek_bind fun u _ => .ite (fun _ => .failUnsupported) fun _ => ?_
    refine ((reads_sigil .semicolon).bind fun _ s hs => .pure ?_) c hc
    subst hn
    have := Language.append_mem_mul (Language.append_mem_mul (Language.append_mem_mul
      (Language.append_mem_mul hfront (show [x] ∈ Phrase.name from ⟨x, rfl, hx⟩))
      hq.mem_maybe) hi) hs
    simpa [Sigil.kind, Phrase.field, Phrase.name] using this
  cases b with
  | true =>
    refine (Reads.map reads_intLit (R := fun _ w => w ∈ Phrase.intLit) fun _ _ h => h).bind
      fun number i hi => ?_
    exact hend number (Phrase.mem_maybe (Language.append_mem_mul he hi))
  | false =>
    obtain rfl := took_false.mp he
    refine (Reads.pure (Q := fun _ w => w = []) rfl).bind fun number i hi => ?_
    subst hi
    exact hend number Phrase.nil_mem_maybe

/-- A member of a message is a field. -/
theorem reads_messageMember (annots : List Tree.Annot) :
    Reads (messageMember annots) fun _ w => w ∈ Phrase.field := by
  refine fun c hc => .peek_bind fun t ht => ?_
  split
  · next hkind =>
    split
    · exact .failUnsupported
    · next hword => exact readsAt_field annots hc ht hkind (Phrase.unsupportedMember?_eq_none.mp hword)
  · exact .failUnsupported
  · exact .failExpected

/-- What has been read where annotations may wait for a declaration: something complete, and then
the annotations. -/
def Pends (S : Language Token) (pending : List Tree.Annot) (w : List Token) : Prop :=
  if pending = [] then w ∈ S
  else w ∈ S * (Phrase.annot * (Phrase.sign .semicolon + Phrase.annot)∗)

namespace Pends

variable {S : Language Token} {pending : List Tree.Annot} {v w : List Token}

/-- With no annotation pending, what was read is of the language. -/
theorem mem (h : Pends S pending w) (hpending : pending = []) : w ∈ S := by
  rwa [Pends, if_pos hpending] at h

/-- Another annotation waits. -/
theorem annot (h : Pends S pending w) (hv : v ∈ Phrase.annot) (a : Tree.Annot) :
    Pends S (a :: pending) (w ++ v) := by
  rw [Pends, if_neg (by simp)]
  unfold Pends at h
  split at h
  · -- the first annotation, before which the statements end
    have hfirst := Language.append_mem_mul hv
      (Language.nil_mem_kstar (Phrase.sign .semicolon + Phrase.annot))
    rw [List.append_nil] at hfirst
    exact Language.append_mem_mul h hfirst
  · obtain ⟨x, hx, y, hy, rfl⟩ := Language.mem_mul.mp h
    obtain ⟨a, ha, b, hb, rfl⟩ := Language.mem_mul.mp hy
    rw [List.append_assoc, List.append_assoc]
    exact Language.append_mem_mul hx (Language.append_mem_mul ha (Phrase.kstar_append hb (.inr hv)))

/-- A semicolon changes nothing. -/
theorem semicolon (hS : ∀ w ∈ S, ∀ v ∈ Phrase.sign .semicolon, w ++ v ∈ S)
    (h : Pends S pending w) (hv : v ∈ Phrase.sign .semicolon) : Pends S pending (w ++ v) := by
  unfold Pends at h ⊢
  split at h
  · next hpending =>
    rw [if_pos hpending]
    exact hS w h v hv
  · -- a semicolon behind an annotation belongs to the declaration
    next hpending =>
    rw [if_neg hpending]
    obtain ⟨x, hx, y, hy, rfl⟩ := Language.mem_mul.mp h
    obtain ⟨a, ha, b, hb, rfl⟩ := Language.mem_mul.mp hy
    rw [List.append_assoc, List.append_assoc]
    exact Language.append_mem_mul hx (Language.append_mem_mul ha (Phrase.kstar_append hb (.inl hv)))

/-- The annotations stand in front of what comes next. -/
theorem mem_mul_front (h : Pends S pending w) : w ∈ S * Phrase.front := by
  unfold Pends at h
  split at h
  · have := Language.append_mem_mul h
      (Phrase.nil_mem_maybe (L := Phrase.annot * (Phrase.sign .semicolon + Phrase.annot)∗))
    rwa [List.append_nil] at this
  · obtain ⟨x, hx, y, hy, rfl⟩ := Language.mem_mul.mp h
    exact Language.append_mem_mul hx (Phrase.mem_maybe hy)

end Pends

/-- One step through a body: what has been read, and that each member takes up its room. -/
theorem reads_memberStep {member : List Tree.Annot → Grammar α} {L : Language Token} {n : Nat}
    (hmember : ∀ annots, Reads (member annots) fun _ w => w ∈ L)
    (hne : ∀ w ∈ L, w ≠ []) (hroom : ∀ w ∈ L, n ≤ Phrase.room w) {s : Members α} {w : List Token}
    (hw : Pends (Phrase.sign .semicolon + Phrase.front * L)∗ s.pending w)
    (hlength : n * s.done.length ≤ Phrase.room w) :
    Reads (memberStep member s) fun x v =>
      if x.2 then v ≠ [] ∧ Pends (Phrase.sign .semicolon + Phrase.front * L)∗ x.1.pending (w ++ v)
        ∧ n * x.1.done.length ≤ Phrase.room (w ++ v)
      else w ++ v ∈ (Phrase.sign .semicolon + Phrase.front * L)∗ * Phrase.sign .closeCurl
        ∧ n * x.1.done.length ≤ Phrase.room (w ++ v) := by
  have hgrow {k : Nat} {w v : List Token} (h : k ≤ Phrase.room w) :
      k ≤ Phrase.room (w ++ v) := by
    have := Phrase.room_append w v
    omega
  refine fun c hc => .peek_bind fun t ht => ?_
  split
  · next hkind =>
    -- the end of the body, at which no annotation may wait
    refine .noPending_bind fun hpending => .advance_pure hc ht (by rw [hkind]; decide) ?_
    have hw := hw.mem (List.reverse_eq_nil_iff.mp hpending)
    exact ⟨Language.append_mem_mul hw ⟨t, rfl, hkind⟩, hgrow hlength⟩
  · refine (Reads.bind reads_annot fun a v hv => .pure ?_) c hc
    rw [List.append_nil]
    exact ⟨Phrase.annot_ne_nil v hv, hw.annot hv a, hgrow hlength⟩
  · next hkind =>
    refine .advance_pure hc ht (by rw [hkind]; decide) ?_
    exact ⟨by simp, hw.semicolon (fun w hw v hv => Phrase.kstar_append hw (.inl hv))
      ⟨t, rfl, hkind⟩, hgrow hlength⟩
  · refine ((hmember s.pending.reverse).bind fun m v hv => .pure ?_) c hc
    rw [List.append_nil]
    refine ⟨hne v hv, ?_, ?_⟩
    · obtain ⟨x, hx, y, hy, rfl⟩ := Language.mem_mul.mp hw.mem_mul_front
      rw [List.append_assoc]
      exact Phrase.kstar_append hx (.inr (Language.append_mem_mul hy hv))
    · have := Phrase.room_append w v
      have := hroom v hv
      simp only [List.length_cons, Nat.mul_add]
      omega

/-- A body in braces: a phrase, and each member takes up its room. -/
theorem reads_body {member : List Tree.Annot → Grammar α} {L : Language Token} {n : Nat}
    (hmember : ∀ annots, Reads (member annots) fun _ w => w ∈ L)
    (hne : ∀ w ∈ L, w ≠ []) (hroom : ∀ w ∈ L, n ≤ Phrase.room w) :
    Reads (body member) fun l w => w ∈ Phrase.body L ∧ n * l.length ≤ Phrase.room w := by
  let S : Language Token := (Phrase.sign .semicolon + Phrase.front * L)∗
  refine (reads_sigil .openCurl).bind fun _ u hu => ?_
  -- The invariant holds the members read so far, with annotations pending, and the room they take.
  refine (Reads.loop
    (I := fun (s : Members α) w => Pends S s.pending w ∧ n * s.done.length ≤ Phrase.room w)
    (J := fun s w => w ∈ S * Phrase.sign .closeCurl ∧ n * s.done.length ≤ Phrase.room w)
    (w := []) (fun s w h => reads_memberStep hmember hne hroom h.1 h.2)
    ⟨Language.nil_mem_kstar _, by simp⟩).bind fun s w h => .pure ?_
  obtain ⟨hw, hlength⟩ := h
  rw [List.append_nil, List.length_reverse]
  refine ⟨?_, ?_⟩
  · -- the phrase
    have := Language.append_mem_mul hu hw
    rwa [← mul_assoc] at this
  · -- the room, of which the opening brace only adds
    have := Phrase.room_append u w
    simp only [List.nil_append] at hlength
    omega

/-- A keyword at the next token is consumed. -/
theorem ReadsAt.keyword {text : Bytes} {t : Token} {k : Unit → Grammar α}
    {Q : α → List Token → Prop} (hc : c.Proper) (ht : peek c = .ok (t, c))
    (hword : t.isWord text = true)
    (hk : ∀ u ∈ Phrase.word text, Reads (k ()) fun b v => Q b (u ++ v)) :
    ReadsAt c (Grammar.advance >>= k) Q := by
  refine (ReadsAt.advance hc ht (kind_ne_eof_of_isWord hword)).bind hc fun _ u c' hc' _ hu => ?_
  subst hu
  exact hk [t] ⟨t, rfl, hword⟩ c' hc'

/-- A message: a phrase, and its fields take up their room. -/
theorem readsAt_message {t : Token} (annots : List Tree.Annot) (hc : c.Proper)
    (ht : peek c = .ok (t, c)) (hword : t.isWord "message" = true) :
    ReadsAt c (message annots)
      fun m w => w ∈ Phrase.message ∧ 4 * m.fields.length ≤ Phrase.room w := by
  refine .located (P := fun (x : Tree.Ident × List Tree.Field) w =>
    w ∈ Phrase.message ∧ 4 * x.2.length ≤ Phrase.room w) hc ?_ fun _ _ _ h => h
  refine .keyword hc ht hword fun u hu => .bind reads_ident fun name n ⟨x, hn, hx, _⟩ => ?_
  refine (reads_body reads_messageMember Phrase.field_ne_nil fun w => Phrase.four_le_room).bind
    fun fields w ⟨hw, hlength⟩ => .pure ?_
  subst hn
  have hmem := Language.append_mem_mul
    (Language.append_mem_mul hu (show [x] ∈ Phrase.name from ⟨x, rfl, hx⟩)) hw
  -- the keyword and the name take room as well
  have hroom := Phrase.room_append (u ++ [x]) w
  rw [List.append_nil, ← List.append_assoc]
  exact ⟨hmem, hlength.trans (by omega)⟩

/-! ## §6 Services -/

/-- What stands behind the opening parenthesis of a parameter. -/
theorem reads_parameter :
    Reads parameter fun _ w => w ∈ Phrase.maybe Phrase.type * Phrase.sign .closeParen := by
  refine (reads_accept (by decide)).bind fun b w hw => ?_
  cases b with
  | true =>
    -- closed at once
    refine .pure ?_
    rw [List.append_nil]
    exact Language.append_mem_mul Phrase.nil_mem_maybe hw
  | false =>
    obtain rfl := took_false.mp hw
    -- a type inside
    refine .bind reads_typeRef fun type v hv => ?_
    refine (reads_sigil .closeParen).bind fun _ u hu => .pure ?_
    rw [List.append_nil]
    exact Language.append_mem_mul (a := v) (Phrase.mem_maybe hv) hu

/-- A parameter with its opening parenthesis. -/
theorem parens_of_parameter {u v : List Token} (hu : u ∈ Phrase.sign .openParen)
    (hv : v ∈ Phrase.maybe Phrase.type * Phrase.sign .closeParen) : u ++ v ∈ Phrase.parens := by
  have := Language.append_mem_mul hu hv
  rwa [← mul_assoc] at this

/-- The input of a method: in parentheses, bare or absent. -/
theorem reads_methodInput : Reads methodInput fun _ w => w ∈ Phrase.maybe Phrase.input := by
  refine (reads_accept (by decide)).bind fun b u hu => ?_
  cases b with
  | true =>
    exact .conseq reads_parameter fun _ v hv =>
      Phrase.mem_maybe (.inl (parens_of_parameter hu hv))
  | false =>
    obtain rfl := took_false.mp hu
    refine fun c hc => .peek_bind fun t ht => .ite (fun h => ?_) fun _ => ?_
    · -- bare: a type that does not begin with returns
      obtain ⟨hkind, htext⟩ : t.kind = .ident ∧ t.text ≠ "returns" := by simpa using h
      rw [map_eq_pure_bind]
      refine (reads_typeRef c hc).bind hc fun type w c' _ hw htype => .pure ?_
      obtain ⟨a, ⟨x, rfl, hx, hword⟩, b, hb, rfl⟩ := Language.mem_mul.mp htype
      obtain rfl := eq_of_peek ht hw
      rw [List.append_nil]
      exact Phrase.mem_maybe (.inr (Phrase.mem_typeBut htype (by simpa using htext)))
    · exact .pure Phrase.nil_mem_maybe

/-- The mark in front of the answer is the word returns or an arrow. -/
theorem reads_outputMark :
    Reads outputMark (Took (Phrase.word "returns" + Phrase.sign .arrow)) := by
  refine (reads_acceptWord "returns").bind fun b w hw => ?_
  cases b with
  | true => exact .pure (by rw [List.append_nil]; exact .inl hw)
  | false =>
    obtain rfl := took_false.mp hw
    refine (reads_accept (by decide)).conseq fun b w hw => ?_
    cases b with
    | true => exact .inr hw
    | false => exact hw

/-- The answer of a method. -/
theorem reads_methodOutput : Reads methodOutput fun _ w => w ∈ Phrase.maybe Phrase.output := by
  refine .bind reads_outputMark fun b m hm => ?_
  cases b with
  | false =>
    obtain rfl := took_false.mp hm
    exact .pure Phrase.nil_mem_maybe
  | true =>
    refine (reads_accept (by decide)).bind fun b u hu => ?_
    cases b with
    | true =>
      -- in parentheses
      exact .conseq reads_parameter fun _ v hv =>
        Phrase.mem_maybe (Language.append_mem_mul hm (.inl (parens_of_parameter hu hv)))
    | false =>
      obtain rfl := took_false.mp hu
      -- bare
      exact .map reads_typeRef fun _ v hv =>
        Phrase.mem_maybe (Language.append_mem_mul (b := v) hm (.inr hv))

/-- One step through the braces behind a method. -/
def methodEndStep (_ : Unit) : Grammar (Unit × Bool) := do
  if ← accept .semicolon then return ((), true)
  else if ← atWord "option" then failUnsupported .nestedOption
  else
    sigil .closeCurl
    return ((), false)

/-- The end of a method, written without the early return. -/
theorem methodEnd_eq : methodEnd = (do
    if ← accept .openCurl then loop methodEndStep ()
    else sigil .semicolon) := rfl

/-- Inside the braces of a method only semicolons are read. -/
theorem reads_methodEndStep {u : Unit} {w : List Token} (hw : w ∈ (Phrase.sign .semicolon)∗) :
    Reads (methodEndStep u) fun x v => if x.2 then v ≠ [] ∧ w ++ v ∈ (Phrase.sign .semicolon)∗
      else w ++ v ∈ (Phrase.sign .semicolon)∗ * Phrase.sign .closeCurl := by
  refine (reads_accept (by decide)).bind fun b v hv => ?_
  cases b with
  | true =>
    refine .pure ?_
    rw [List.append_nil]
    exact ⟨Phrase.one_ne_nil v hv, Phrase.kstar_append hw hv⟩
  | false =>
    obtain rfl := took_false.mp hv
    refine fun c hc => .atWord_bind fun t _ => .ite (fun _ => .failUnsupported) fun _ => ?_
    -- the closing brace ends the loop
    refine ((reads_sigil .closeCurl).bind fun _ x hx => .pure ?_) c hc
    rw [List.append_nil]
    exact Language.append_mem_mul hw hx

/-- The end of a method is a semicolon, or braces with semicolons between them. -/
theorem reads_methodEnd : Reads methodEnd fun _ w => w ∈ Phrase.methodEnd := by
  rw [methodEnd_eq]
  refine (reads_accept (by decide)).bind fun b u hu => ?_
  cases b with
  | false =>
    obtain rfl := took_false.mp hu
    exact (reads_sigil .semicolon).conseq fun _ w hw => .inl hw
  | true =>
    -- semicolons, and the bracket that ends the loop
    refine Reads.conseq (Reads.loop (I := fun _ w => w ∈ (Phrase.sign .semicolon)∗)
      (J := fun _ w => w ∈ (Phrase.sign .semicolon)∗ * Phrase.sign .closeCurl) (w := [])
      (fun _ w hw => reads_methodEndStep hw) (Language.nil_mem_kstar _)) fun _ w hw => .inr ?_
    have := Language.append_mem_mul hu hw
    rwa [← mul_assoc] at this

/-- A method, from its keyword. -/
theorem readsAt_method {t : Token} (annots : List Tree.Annot) (hc : c.Proper)
    (ht : peek c = .ok (t, c)) (hword : t.isWord "rpc" = true) :
    ReadsAt c (method annots) fun _ w => w ∈ Phrase.method := by
  refine .located (P := fun _ w => w ∈ Phrase.method) hc ?_ fun _ _ _ h => h
  refine .keyword hc ht hword fun u hu => .bind reads_ident fun name n ⟨x, hn, hx, _⟩ => ?_
  refine .bind reads_methodInput fun input v hv => .bind reads_methodOutput fun output w hw => ?_
  refine .bind reads_methodEnd fun _ e he => .pure ?_
  subst hn
  have := Language.append_mem_mul (Language.append_mem_mul (Language.append_mem_mul
    (Language.append_mem_mul hu (show [x] ∈ Phrase.name from ⟨x, rfl, hx⟩)) hv) hw) he
  simpa [Phrase.method] using this

/-- A member of a service is a method. -/
theorem reads_serviceMember (annots : List Tree.Annot) :
    Reads (serviceMember annots) fun _ w => w ∈ Phrase.method := by
  refine fun c hc => .atWord_bind fun t ht => .ite (fun h => readsAt_method annots hc ht h) fun _ => ?_
  refine .atWord_bind fun t _ => .ite (fun _ => .failUnsupported) fun _ => ?_
  exact .atWord_bind fun t _ => .ite (fun _ => .failUnsupported) fun _ => .failExpected

/-- A service, from its keyword. -/
theorem readsAt_service {t : Token} (annots : List Tree.Annot) (hc : c.Proper)
    (ht : peek c = .ok (t, c)) (hword : t.isWord "service" = true) :
    ReadsAt c (service annots) fun _ w => w ∈ Phrase.service := by
  refine .located (P := fun _ w => w ∈ Phrase.service) hc ?_ fun _ _ _ h => h
  refine .keyword hc ht hword fun u hu => .bind reads_ident fun name n ⟨x, hn, hx, _⟩ => ?_
  refine (reads_body (n := 0) reads_serviceMember Phrase.method_ne_nil
    fun w _ => Nat.zero_le _).bind fun methods w ⟨hw, _⟩ => .pure ?_
  subst hn
  rw [List.append_nil, ← List.append_assoc]
  exact Language.append_mem_mul
    (Language.append_mem_mul hu (show [x] ∈ Phrase.name from ⟨x, rfl, hx⟩)) hw

/-! ## §7 Files -/

/-- The package statement: a phrase, and each component of the name is the text of a token. -/
theorem readsAt_package {t : Token} (hc : c.Proper) (ht : peek c = .ok (t, c))
    (hword : t.isWord "package" = true) :
    ReadsAt c package fun p w => w ∈ Phrase.package ∧ ∀ i ∈ p.name.parts, Names i w := by
  refine .located (P := fun (name : Tree.Path) w =>
    w ∈ Phrase.package ∧ ∀ i ∈ name.parts, Names i w) hc ?_ fun _ _ _ h => h
  refine .keyword hc ht hword fun u hu => .bind reads_path fun name v ⟨hv, hnames⟩ => ?_
  refine (reads_sigil .semicolon).bind fun _ w hw => .pure ⟨?_, fun i hi => ?_⟩
  · rw [List.append_nil, ← List.append_assoc]
    exact Language.append_mem_mul (Language.append_mem_mul hu hv) hw
  · exact ((hnames i hi).append_right _).append_left u

/-- The version statement, from its keyword. -/
theorem readsAt_version {t : Token} (hc : c.Proper) (ht : peek c = .ok (t, c))
    (hword : t.isWord "syntax" = true) : ReadsAt c version fun _ w => w ∈ Phrase.version := by
  refine .keyword hc ht hword fun u hu => (reads_sigil .eq).bind fun _ e he => ?_
  refine .bind reads_textLit fun l v hv => (reads_sigil .semicolon).bind fun _ w hw => ?_
  refine .ite (fun h => .pure ?_) fun _ => fun c _ => .fail
  rw [beq_iff_eq.mp h] at hv
  have := Language.append_mem_mul (Language.append_mem_mul (Language.append_mem_mul hu he) hv) hw
  simpa [Sigil.kind, Phrase.version] using this

/-- A setting, from its keyword. -/
theorem readsAt_setting {t : Token} (hc : c.Proper) (ht : peek c = .ok (t, c))
    (hword : t.isWord "option" = true) : ReadsAt c setting fun _ w => w ∈ Phrase.setting := by
  refine .located (P := fun _ w => w ∈ Phrase.setting) hc ?_ fun _ _ _ h => h
  refine .keyword hc ht hword fun u hu => .bind reads_path fun name n ⟨hn, _⟩ => ?_
  refine (reads_sigil .eq).bind fun _ e he => .bind reads_value fun value v hv => ?_
  refine (reads_sigil .semicolon).bind fun _ w hw => .pure ?_
  have := Language.append_mem_mul (Language.append_mem_mul (Language.append_mem_mul
    (Language.append_mem_mul hu hn) he) hv) hw
  simpa [Sigil.kind, Phrase.setting] using this

/-- What has been read of a file, and what is known of it. -/
structure Drafted (d : Draft) (w : List Token) : Prop where
  pends : Pends (Phrase.statements d.package.isSome) d.pending w
  package : ∀ p, d.package = some p → ∀ i ∈ p.name.parts, Names i w
  room : ∀ m, .message m ∈ d.decls → 4 * m.fields.length ≤ Phrase.room w

namespace Drafted

variable {d : Draft} {v w : List Token}

/-- The names of the package stay among the tokens as more are read. -/
theorem package_append (h : Drafted d w) (v : List Token) :
    ∀ p, d.package = some p → ∀ i ∈ p.name.parts, Names i (w ++ v) :=
  fun p hp i hi => (h.package p hp i hi).append_right v

/-- And the messages keep their room. -/
theorem room_append (h : Drafted d w) (v : List Token) :
    ∀ m, .message m ∈ d.decls → 4 * m.fields.length ≤ Phrase.room (w ++ v) := by
  intro m hm
  have := h.room m hm
  have := Phrase.room_append w v
  omega

/-- A declaration takes the annotations in front of it. -/
theorem decl (h : Drafted d w) (hv : v ∈ Phrase.message + Phrase.service) :
    w ++ v ∈ Phrase.statements d.package.isSome := by
  obtain ⟨x, hx, y, hy, rfl⟩ := Language.mem_mul.mp h.pends.mem_mul_front
  rw [List.append_assoc]
  exact Phrase.statements_append hx (.inr (Language.append_mem_mul hy hv))

/-- Other statements stand alone. -/
theorem other (h : Drafted d w) (hpending : d.pending = []) (hv : v ∈ Phrase.statement) :
    Pends (Phrase.statements d.package.isSome) d.pending (w ++ v) := by
  rw [Pends, if_pos hpending]
  exact Phrase.statements_append (h.pends.mem hpending) hv

end Drafted

/-- One statement or declaration. -/
theorem reads_statement {d : Draft} {w : List Token} (h : Drafted d w) :
    Reads (statement d) fun d' v => v ≠ [] ∧ Drafted d' (w ++ v) := by
  -- in the order of the keywords: a message, a service, a package, and the others
  refine fun c hc => .peek_bind fun t ht => .ite (fun hword => ?_) fun _ => ?_
  · refine (readsAt_message d.pending.reverse hc ht hword).bind hc
      fun m v c' _ _ ⟨hv, hroom⟩ => .pure ?_
    rw [List.append_nil]
    refine ⟨Phrase.message_ne_nil v hv, ⟨h.decl (.inl hv), h.package_append v, fun m' hm' => ?_⟩⟩
    rcases List.mem_cons.mp hm' with heq | hm'
    · cases heq
      have := Phrase.room_append w v
      omega
    · exact h.room_append v m' hm'
  refine .ite (fun hword => ?_) fun _ => .noPending_bind fun hpending => ?_
  · refine (readsAt_service d.pending.reverse hc ht hword).bind hc fun s v c' _ _ hv => .pure ?_
    rw [List.append_nil]
    refine ⟨Phrase.service_ne_nil v hv, ⟨h.decl (.inr hv), h.package_append v, fun m hm => ?_⟩⟩
    rcases List.mem_cons.mp hm with heq | hm
    · cases heq
    · exact h.room_append v m hm
  have hpending : d.pending = [] := List.reverse_eq_nil_iff.mp hpending
  refine .ite (fun hword => ?_) fun _ => ?_
  · refine (readsAt_package hc ht hword).bind hc fun p v c' _ _ ⟨hv, hnames⟩ => ?_
    refine .ite (fun _ => .fail) fun hnone => .pure ?_
    rw [List.append_nil]
    have hnone : d.package.isSome = false := by simpa using hnone
    have hstatements := h.pends.mem hpending
    rw [hnone] at hstatements
    refine ⟨Phrase.package_ne_nil v hv, ⟨?_, fun p' hp' i hi => ?_, h.room_append v⟩⟩
    · rw [Pends, if_pos hpending]
      exact Phrase.statements_append_package hstatements hv
    · cases hp'
      exact (hnames i hi).append_left w
  -- the others leave the package, the annotations and the declarations as they are
  have hother {v : List Token} (hv : v ∈ Phrase.statement) (hne : v ≠ []) (d' : Draft)
      (hpackage : d'.package = d.package) (hpend : d'.pending = d.pending)
      (hdecls : d'.decls = d.decls) : v ≠ [] ∧ Drafted d' (w ++ v) := by
    refine ⟨hne, ⟨?_, ?_, ?_⟩⟩
    · rw [hpackage, hpend]
      exact h.other hpending hv
    · rw [hpackage]
      exact h.package_append v
    · rw [hdecls]
      exact h.room_append v
  refine .ite (fun hword => ?_) fun _ => ?_
  · refine (readsAt_version hc ht hword).bind hc fun l v c' _ _ hv => .pure ?_
    rw [List.append_nil]
    exact hother (.inl (.inl (.inr hv))) (Phrase.version_ne_nil v hv) _ rfl rfl rfl
  refine .ite (fun hword => ?_) fun _ => ?_
  · refine (readsAt_setting hc ht hword).bind hc fun l v c' _ _ hv => .pure ?_
    rw [List.append_nil]
    exact hother (.inl (.inr hv)) (Phrase.setting_ne_nil v hv) _ rfl rfl rfl
  refine .ite (fun _ => .failUnsupported) fun _ => .ite (fun _ => .failUnsupported) fun _ => ?_
  exact .ite (fun _ => .failUnsupported) fun _ => .failExpected

/-- One step over a file reads a statement, an annotation or a semicolon, and stops at the end. -/
theorem reads_fileStep {d : Draft} {w : List Token} (h : Drafted d w) :
    Reads (fileStep d) fun x v => if x.2 then v ≠ [] ∧ Drafted x.1 (w ++ v)
      else Drafted x.1 (w ++ v) := by
  refine fun c hc => .peek_bind fun t ht => ?_
  split
  · -- the end of the tokens
    exact .pure (by simpa using h)
  · -- an annotation, which stays pending
    refine (Reads.bind reads_annot fun a v hv => .pure ?_) c hc
    rw [List.append_nil]
    exact ⟨Phrase.annot_ne_nil v hv, ⟨h.pends.annot hv a, h.package_append v, h.room_append v⟩⟩
  · next hkind =>
    -- a semicolon
    refine .advance_pure hc ht (by rw [hkind]; decide)
      ⟨by simp, ⟨?_, h.package_append _, h.room_append _⟩⟩
    exact h.pends.semicolon (fun w hw v hv => Phrase.statements_append hw (.inl (.inl (.inl hv))))
      ⟨t, rfl, hkind⟩
  · -- a statement
    refine ((reads_statement h).bind fun d' v hv => .pure ?_) c hc
    rw [List.append_nil]
    exact hv

/-- A loop that consumes something in each step ends where a step ends it. -/
theorem loop_ending {step : σ → Grammar (σ × Bool)} {I : σ → List Token → Prop} {P : Cursor → Prop}
    (hstep : ∀ s w, I s w → Reads (step s) fun x v => x.2 = true → v ≠ [] ∧ I x.1 (w ++ v))
    (hend : ∀ s c s' c', step s c = .ok ((s', false), c') → P c')
    {s s' : σ} {w : List Token} (h : I s w) {c' : Cursor} (hc : c.Proper)
    (hloop : loop step s c = .ok (s', c')) : P c' := by
  -- By the same induction as the loop itself; only the last round matters.
  induction hlen : c.rest.length using Nat.strongRecOn generalizing s w c with
  | ind n ih =>
    rw [Grammar.loop] at hloop
    split at hloop
    · cases hloop
    next s₁ more c₁ hs =>
      cases more with
      | false =>
        simp only [Bool.false_and, Bool.false_eq_true, if_false] at hloop
        cases hloop
        exact hend _ _ _ _ hs
      | true =>
        obtain ⟨v, hrest, hending, hv⟩ := hstep s w h c hc hs
        obtain ⟨hne, hI⟩ := hv rfl
        have hlength : c.rest.length = v.length + c₁.rest.length := by
          rw [hrest, List.length_append]
        have hpos : 0 < v.length := List.length_pos_iff.mpr hne
        rw [if_pos (by simp; omega)] at hloop
        exact ih c₁.rest.length (by omega) hI (hc.next hrest hending) hloop rfl

/-- A file ends at the end of the source. -/
theorem eof_of_fileStep {d d' : Draft} {c' : Cursor} (h : fileStep d c = .ok ((d', false), c')) :
    ∃ e, peek c' = .ok (e, c') ∧ e.kind = .eof := by
  obtain ⟨t, c₁, hpeek, h⟩ := exists_of_bind_eq_ok h
  obtain rfl := eq_of_peek_eq_ok hpeek
  change StateT.run _ c = _ at h
  split at h
  · -- the end of the tokens, where the loop stops
    next hkind =>
    cases h
    exact ⟨t, hpeek, hkind⟩
  · -- in the other cases the step asks for another round
    obtain ⟨a, c₂, -, h⟩ := exists_of_bind_eq_ok h
    cases h
  · obtain ⟨a, c₂, -, h⟩ := exists_of_bind_eq_ok h
    cases h
  · obtain ⟨a, c₂, -, h⟩ := exists_of_bind_eq_ok h
    cases h

/-- A file is read to the end of the source. -/
theorem eof_of_loop {d : Draft} {c' : Cursor} (hc : c.Proper)
    (h : loop fileStep {} c = .ok (d, c')) :
    c'.rest = [] ∧ ∃ e, peek c' = .ok (e, c') ∧ e.kind = .eof := by
  have hstart : Drafted {} [] := ⟨Language.nil_mem_kstar _, nofun, nofun⟩
  obtain ⟨w, hrest, hending, -⟩ := Reads.loop (I := Drafted) (J := Drafted)
    (fun d w hd => reads_fileStep hd) hstart c hc h
  -- the step that stopped has seen the end
  obtain ⟨e, hpeek, hkind⟩ := loop_ending (I := Drafted)
    (P := fun c' => ∃ e, peek c' = .ok (e, c') ∧ e.kind = .eof)
    (fun d w hd => (reads_fileStep hd).conseq fun x v hx hmore => by simpa [hmore] using hx)
    (fun _ _ _ _ => eof_of_fileStep) hstart hc h
  refine ⟨?_, e, hpeek, hkind⟩
  cases hc' : c'.rest with
  | nil => rfl
  -- a token left over would be the end, which no proper token is
  | cons t r =>
    obtain rfl := eq_of_peek hpeek hc'
    exact absurd hkind ((hc.next hrest hending).rest e (by simp [hc']))

/-- A file that is read: its tokens are those of a file, and what is known of its parts. -/
theorem file_sound {requirePackage : Bool} {d : Tree.File} {c' : Cursor} (hc : c.Proper)
    (h : file requirePackage c = .ok (d, c')) :
    (∃ e, c.ending = .ok e) ∧ c.rest ∈ Phrase.file requirePackage
      ∧ (∀ p, d.package = some p → ∀ i ∈ p.name.parts, Names i c.rest)
      ∧ ∀ m ∈ d.messages, 4 * m.fields.length ≤ Phrase.room c.rest := by
  obtain ⟨start, c₀, hget, h⟩ := exists_of_bind_eq_ok h
  cases hget
  obtain ⟨draft, c₁, hloop, h⟩ := exists_of_bind_eq_ok h
  have hstart : Drafted {} [] := ⟨Language.nil_mem_kstar _, nofun, nofun⟩
  obtain ⟨w, hrest, hending, hw⟩ := Reads.loop (I := Drafted) (J := Drafted)
    (fun d w hd => reads_fileStep hd) hstart c hc hloop
  obtain ⟨hnil, e, hpeek, hkind⟩ := eof_of_loop hc hloop
  -- at the end nothing is left, and no annotation waits
  obtain ⟨_, c₂, hnone, h⟩ := exists_of_bind_eq_ok h
  obtain ⟨hpending, rfl⟩ : draft.pending = [] ∧ c₁ = c₂ := by
    cases hrev : draft.pending.reverse with
    | nil =>
      rw [hrev] at hnone
      cases hnone
      exact ⟨List.reverse_eq_nil_iff.mp hrev, rfl⟩
    | cons a r =>
      rw [hrev] at hnone
      cases hnone
  have hend : c.ending = .ok e := by
    rw [← hending]
    simp only [peek, hnil] at hpeek
    split at hpeek <;> cases hpeek
    assumption
  rw [hnil, List.append_nil] at hrest
  obtain ⟨t, c₂, hpeek₂, h⟩ := exists_of_bind_eq_ok h
  obtain rfl := eq_of_peek_eq_ok hpeek₂
  -- a file that needs a package has one
  by_cases hmissing : (requirePackage && draft.package.isNone) = true
  · rw [if_pos hmissing] at h
    cases h
  · rw [if_neg hmissing] at h
    obtain ⟨_, _, hget, h⟩ := exists_of_bind_eq_ok h
    cases hget
    cases h
    refine ⟨⟨e, hend⟩, ?_, ?_, fun m hm => ?_⟩
    · rw [hrest]
      refine Phrase.mem_file.mpr ⟨draft.package.isSome, ?_, hw.pends.mem hpending⟩
      intro hrequire
      simpa [hrequire, Option.isSome_iff_ne_none] using hmissing
    · rw [hrest]
      exact hw.package
    · rw [hrest]
      refine hw.room m ?_
      obtain ⟨x, hx, hm⟩ := List.mem_filterMap.mp hm
      cases x with
      | message m' =>
        cases hm
        exact List.mem_reverse.mp hx
      | service => cases hm

end Grammar

end Idl
