import Idl.Proofs.Tree.Relocation

/-!
# The grammar does not look at places

The same tokens in other places are read in the same way: the grammar fails for the same cause, or
it builds the same tree in other places. The places of one reading are given as a function of the
places of the other, a relocation. The reading on the left is one in which the tokens stand end to
end, as they do in a source without blanks and comments.

* §1 relocations of tokens and reading positions,
* §2 one piece of grammar tracks another,
* §3 single tokens, §4 names, constants and annotations,
* §5 messages, §6 services, §7 files.
-/

namespace Idl

/-! ## §1 Relocations -/

/-- Where an offset at which a token starts, or stops, is found, and its line and column. -/
structure Relocation where
  start : Nat → Nat
  stop : Nat → Nat
  pos : Nat → Pos

namespace Relocation

/-- Where a node is found. -/
def loc (φ : Relocation) (l : Loc) : Loc :=
  ⟨.between (φ.start l.span.start) (φ.stop l.span.stop), φ.pos l.span.start⟩

end Relocation

namespace Token

/-- A token where the relocation puts it. -/
def move (φ : Relocation) (t : Token) : Token := ⟨t.kind, φ.start t.start, φ.pos t.start, t.text⟩

/-- The token ends where the relocation says. -/
def Fits (φ : Relocation) (t : Token) : Prop := (t.move φ).stop = φ.stop t.stop

/-- The place of a moved token. -/
theorem Fits.loc_move {φ : Relocation} {t : Token} (h : t.Fits φ) :
    (t.move φ).loc = φ.loc t.loc := by
  have hstop : φ.stop t.span.stop = φ.start t.start + t.text.length := h.symm
  simp only [Relocation.loc, Token.loc, Span.between, hstop]
  simp [Token.move, Token.span]

/-- Tokens end to end from one offset to another. -/
def Packed : Nat → List Token → Nat → Prop
  | n, [], stop => n = stop
  | n, t :: r, stop => t.start = n ∧ Packed t.stop r stop

end Token

namespace Cursor

/-- A reading position in the moved tokens. -/
def move (φ : Relocation) (c : Cursor) : Cursor :=
  ⟨c.rest.map (Token.move φ), c.ending.map (Token.move φ), φ.stop c.stop⟩

/-- The tokens that are left stand end to end, and so do they in the order of the relocation. -/
structure Fits (φ : Relocation) (c : Cursor) : Prop where
  fits : ∀ t ∈ c.rest, t.Fits φ
  ending : ∃ e, c.ending = .ok e ∧ e.kind = .eof ∧ Token.Packed c.stop c.rest e.start

/-- The next token is moved with the rest, and begins where the last one ends. -/
theorem Fits.peek {φ : Relocation} {c : Cursor} (h : c.Fits φ) :
    ∃ t, Grammar.peek c = .ok (t, c) ∧ Grammar.peek (c.move φ) = .ok (t.move φ, c.move φ)
      ∧ (t.kind ≠ .eof → t.Fits φ) ∧ t.start = c.stop := by
  obtain ⟨rest, ending, stop⟩ := c
  obtain ⟨e, rfl, hkind, hpacked⟩ := id h.ending
  cases rest with
  | nil => exact ⟨e, rfl, rfl, fun h => absurd hkind h, Eq.symm hpacked⟩
  | cons t r => exact ⟨t, rfl, rfl, fun _ => h.fits t (List.mem_cons_self ..), hpacked.1⟩

end Cursor

namespace Grammar

/-- Running two pieces of grammar one after the other. -/
theorem bind_apply {α β : Type} (p : Grammar α) (k : α → Grammar β) (c : Cursor) :
    (p >>= k) c = p c >>= fun x => k x.1 x.2 := rfl

/-- A sequence whose first part is known. -/
theorem bind_of_ok {α β : Type} {p : Grammar α} {k : α → Grammar β} {a : α} {c d : Cursor}
    (h : p c = .ok (a, d)) : (p >>= k) c = k a d := by
  rw [bind_apply, h]
  rfl

/-- What is done after a word has been looked for depends on the next token. -/
theorem acceptWord_bind_apply {β : Type} {word : Bytes} {k : Bool → Grammar β} {t : Token}
    {c : Cursor} (h : peek c = .ok (t, c)) :
    (acceptWord word >>= k) c
      = if t.isWord word then (advance >>= fun _ => k true) c else k false c := by
  have hword : atWord word c = .ok (t.isWord word, c) := bind_of_ok h
  rw [acceptWord, bind_assoc, bind_of_ok hword]
  split
  · rw [bind_assoc]
    rfl
  · rfl

/-! ## §2 Tracking -/

variable {φ : Relocation} {α β γ δ σ τ : Type}

/-- The outcome of a piece of grammar beside the outcome of another one on moved tokens: both fail
for one cause, or both succeed and `f` relates what they give. -/
inductive Tracked (φ : Relocation) (f : α → β) (stop : Nat) :
    Except SyntaxError (α × Cursor) → Except SyntaxError (β × Cursor) → Prop where
  | error {e e' : SyntaxError} (h : e'.cause = e.cause) : Tracked φ f stop (.error e) (.error e')
  | ok {a : α} {d : Cursor} (fits : d.Fits φ) (le : stop ≤ d.stop) :
      Tracked φ f stop (.ok (a, d)) (.ok (f a, d.move φ))

/-- A piece of grammar is tracked by another one on moved tokens. -/
def Tracks (φ : Relocation) (f : α → β) (p : Grammar α) (q : Grammar β) : Prop :=
  ∀ c : Cursor, c.Fits φ → Tracked φ f c.stop (p c) (q (c.move φ))

/-- A reading that began earlier. -/
theorem Tracked.of_le {f : α → β} {n m : Nat} {x : Except SyntaxError (α × Cursor)}
    {y : Except SyntaxError (β × Cursor)} (h : Tracked φ f m x y) (hle : n ≤ m) :
    Tracked φ f n x y := by
  cases h with
  | error h => exact .error h
  | ok fits le => exact .ok fits (Nat.le_trans hle le)

/-- The second part goes on from where the first one stopped, in both. -/
theorem Tracked.bind {f : α → β} {g : γ → δ} {stop : Nat}
    {x : Except SyntaxError (α × Cursor)} {y : Except SyntaxError (β × Cursor)}
    {k : α × Cursor → Except SyntaxError (γ × Cursor)}
    {k' : β × Cursor → Except SyntaxError (δ × Cursor)} (h : Tracked φ f stop x y)
    (hk : ∀ a d, d.Fits φ → stop ≤ d.stop →
      Tracked φ g d.stop (k (a, d)) (k' (f a, d.move φ))) :
    Tracked φ g stop (x >>= k) (y >>= k') := by
  cases h with
  | error h => exact .error h
  | @ok a d fits le => exact (hk a d fits le).of_le le

namespace Tracks

/-- Giving a result, and the related one. -/
theorem pure {f : α → β} {a : α} {b : β} (h : b = f a) :
    Tracks φ f (Pure.pure a) (Pure.pure b) := by
  intro c hc
  subst h
  exact .ok hc (Nat.le_refl _)

/-- A sequence. -/
theorem bind {f : α → β} {g : γ → δ} {p : Grammar α} {q : Grammar β} {k : α → Grammar γ}
    {k' : β → Grammar δ} (hp : Tracks φ f p q) (hk : ∀ a, Tracks φ g (k a) (k' (f a))) :
    Tracks φ g (p >>= k) (q >>= k') :=
  fun c hc => (hp c hc).bind fun a d hd _ => hk a d hd

/-- What is done to both results. -/
theorem map {f : α → β} {g : γ → δ} {u : α → γ} {u' : β → δ} {p : Grammar α} {q : Grammar β}
    (hp : Tracks φ f p q) (h : ∀ a, u' (f a) = g (u a)) : Tracks φ g (u <$> p) (u' <$> q) := by
  rw [map_eq_pure_bind, map_eq_pure_bind]
  exact hp.bind fun a => pure (h a)

/-- Failures for one cause. -/
theorem fail {f : α → β} {e e' : SyntaxError} (h : e'.cause = e.cause) :
    Tracks φ f (Grammar.fail e) (Grammar.fail e') :=
  fun _ _ => .error h

/-- The next token is the same one in another place. Unless it is the end, it ends where the
relocation says. -/
theorem peek_bind {g : γ → δ} {k : Token → Grammar γ} {k' : Token → Grammar δ}
    (hk : ∀ t, (t.kind ≠ .eof → t.Fits φ) → Tracks φ g (k t) (k' (t.move φ))) :
    Tracks φ g (peek >>= k) (peek >>= k') := by
  intro c hc
  obtain ⟨t, hpeek, hmoved, hfits, -⟩ := hc.peek
  rw [bind_of_ok hpeek, bind_of_ok hmoved]
  exact hk t hfits c hc

/-- Past the next token, which ends where the relocation says. -/
theorem advance : Tracks φ id Grammar.advance Grammar.advance := by
  intro c hc
  obtain ⟨rest, ending, stop⟩ := c
  obtain ⟨e, rfl, hkind, hpacked⟩ := id hc.ending
  cases rest with
  -- at the end nothing moves
  | nil => exact .ok hc (Nat.le_refl _)
  | cons t r =>
    obtain ⟨hstart, hpacked⟩ : t.start = stop ∧ Token.Packed t.stop r e.start := hpacked
    -- the end of the moved token is the moved end
    have hmove : (t.move φ).stop = φ.stop t.stop := hc.fits t (List.mem_cons_self ..)
    have hnext : Cursor.Fits φ ⟨r, .ok e, t.stop⟩ :=
      ⟨fun u hu => hc.fits u (List.mem_cons_of_mem _ hu), e, rfl, hkind, hpacked⟩
    have hle : stop ≤ t.stop := by
      rw [← hstart]
      exact Nat.le_add_right ..
    have hd : (Grammar.advance (Cursor.move φ ⟨t :: r, .ok e, stop⟩))
        = .ok ((), Cursor.move φ ⟨r, .ok e, t.stop⟩) := by
      simp [Grammar.advance, Cursor.move, hmove]
    rw [hd]
    exact .ok (a := ()) (f := id) hnext hle

/-- A loop is tracked if its step is: both sides have the same number of tokens left, so that they
make progress together. -/
theorem loop {f : σ → τ} {step : σ → Grammar (σ × Bool)} {step' : τ → Grammar (τ × Bool)}
    (hstep : ∀ s, Tracks φ (Prod.map f id) (step s) (step' (f s))) (s : σ) :
    Tracks φ f (Grammar.loop step s) (Grammar.loop step' (f s)) := by
  intro c hc
  -- By strong induction on the tokens left, of which the moved ones are as many.
  induction hlen : c.rest.length using Nat.strongRecOn generalizing s c with
  | ind n ih =>
    rw [Grammar.loop, Grammar.loop]
    have h := hstep s c hc
    revert h
    generalize step s c = x, step' (f s) (c.move φ) = y
    intro h
    cases h with
    | error h => exact .error h
    | @ok a d fits le =>
      obtain ⟨s', more⟩ := a
      have hmoved (c : Cursor) : (c.move φ).rest.length = c.rest.length := by simp [Cursor.move]
      simp only [Prod.map_apply, id_eq, hmoved]
      split
      · -- another round
        next hmore =>
        have hshorter : d.rest.length < n := by
          simp only [Bool.and_eq_true, decide_eq_true_eq] at hmore
          omega
        exact (ih _ hshorter s' d fits rfl).of_le le
      · exact .ok (a := s') (f := f) fits le

/-- A node is built where the relocation puts its place. -/
theorem located {f : α → β} {g : γ → δ} {p : Grammar α} {q : Grammar β} {build : Loc → α → γ}
    {build' : Loc → β → δ} (hp : Tracks φ f p q)
    (hbuild : ∀ loc a, build' (φ.loc loc) (f a) = g (build loc a)) :
    Tracks φ g (Grammar.located build p) (Grammar.located build' q) := by
  intro c hc
  obtain ⟨t, hpeek, hmoved, -, hstart⟩ := hc.peek
  unfold Grammar.located
  rw [bind_of_ok hpeek, bind_of_ok hmoved]
  refine (hp c hc).bind fun a d hd hle => ?_
  -- the node ends where the last token that was read does, which is not before it begins
  have hloc : (⟨.between (t.move φ).start (d.move φ).stop, (t.move φ).pos⟩ : Loc)
      = φ.loc ⟨.between t.start d.stop, t.pos⟩ := by
    have hstop : t.start + (d.stop - t.start) = d.stop := by omega
    simp [Relocation.loc, Span.between, Span.stop, hstop, Token.move, Cursor.move]
  change Tracked φ g d.stop (.ok (build ⟨.between t.start d.stop, t.pos⟩ a, d))
    (.ok (build' ⟨.between (t.move φ).start (d.move φ).stop, (t.move φ).pos⟩ (f a), d.move φ))
  rw [hloc, hbuild]
  exact .ok hd (Nat.le_refl _)

/-- Both sides take the same branch. -/
theorem ite {f : α → β} {b : Prop} [Decidable b] {p p' : Grammar α} {q q' : Grammar β}
    (h : b → Tracks φ f p q) (h' : ¬b → Tracks φ f p' q') :
    Tracks φ f (if b then p else p') (if b then q else q') := by
  split
  · next hb => exact h hb
  · next hb => exact h' hb

/-! ## §3 Single tokens -/

/-- A failure for a cause that does not depend on the place. -/
theorem failHere {f : α → β} {cause cause' : Token → SyntaxCause}
    (h : ∀ t : Token, cause' (t.move φ) = cause t) :
    Tracks φ f (Grammar.failHere cause) (Grammar.failHere cause') :=
  peek_bind fun t _ => fail (h t)

/-- An expectation that fails. -/
theorem failExpected {f : α → β} (want : Expectation) :
    Tracks φ f (Grammar.failExpected want) (Grammar.failExpected want) :=
  failHere fun _ => rfl

/-- A construct that is not supported. -/
theorem failUnsupported {f : α → β} (feature : Feature) :
    Tracks φ f (Grammar.failUnsupported feature) (Grammar.failUnsupported feature) :=
  failHere fun _ => rfl

/-- Taking a token of a kind if it stands there. -/
theorem accept (kind : TokenKind) : Tracks φ id (Grammar.accept kind) (Grammar.accept kind) :=
  peek_bind fun _ _ => ite (fun _ => advance.bind fun _ => pure rfl) fun _ => pure rfl

/-- Requiring a sigil. -/
theorem sigil (s : Sigil) : Tracks φ id (Grammar.sigil s) (Grammar.sigil s) :=
  (accept s.kind).bind fun b => by
    cases b
    · exact failHere fun _ => rfl
    · exact pure rfl

/-- Asking for a word. -/
theorem atWord (word : Bytes) : Tracks φ id (Grammar.atWord word) (Grammar.atWord word) :=
  peek_bind fun _ _ => pure rfl

/-- Taking a word if it stands there. -/
theorem acceptWord (word : Bytes) :
    Tracks φ id (Grammar.acceptWord word) (Grammar.acceptWord word) :=
  (atWord word).bind fun _ => ite (fun _ => advance.bind fun _ => pure rfl) fun _ => pure rfl

/-! ## §4 Names, constants and annotations -/

/-- A name, moved. -/
theorem ident : Tracks φ (Tree.Ident.mapLoc φ.loc) Grammar.ident Grammar.ident := by
  refine peek_bind fun t ht => ite (fun hkind => ?_) fun _ => failExpected .ident
  have hkind : t.kind = .ident := by simpa using hkind
  have hloc : (t.move φ).loc = φ.loc t.loc := (ht (by simp [hkind])).loc_move
  refine advance.bind fun _ => pure ?_
  rw [hloc]
  rfl

/-- A number, moved. -/
theorem intLit : Tracks φ (Tree.IntLit.mapLoc φ.loc) Grammar.intLit Grammar.intLit := by
  refine peek_bind fun t ht => ite (fun hkind => ?_) fun _ => failExpected .intLit
  have hkind : t.kind ≠ .eof := by
    intro h
    have hkind : t.kind.isInteger = true := hkind
    simp [h, TokenKind.isInteger] at hkind
  have hloc : (t.move φ).loc = φ.loc t.loc := (ht hkind).loc_move
  refine ite (fun _ => advance.bind fun _ => pure ?_) fun _ => failHere fun _ => rfl
  rw [hloc]
  rfl

/-- A text, moved. -/
theorem textLit : Tracks φ (Tree.TextLit.mapLoc φ.loc) Grammar.textLit Grammar.textLit := by
  refine peek_bind fun t ht => ite (fun hkind => ?_) fun _ => failExpected .textLit
  have hkind : t.kind = .textLit := by simpa using hkind
  have hloc : (t.move φ).loc = φ.loc t.loc := (ht (by simp [hkind])).loc_move
  have htext : (t.move φ).text = t.text := rfl
  rw [htext]
  cases textLitValue t.text with
  | error bad => exact fail rfl
  | ok value =>
    refine advance.bind fun _ => pure ?_
    rw [hloc]
    rfl

/-- A separator of a dotted name. -/
theorem separator : Tracks φ id Grammar.separator Grammar.separator :=
  (accept .dot).bind fun _ => ite (fun _ => pure rfl) fun _ => accept .doubleColon

/-- A dotted name, with the places of its parts. -/
theorem path : Tracks φ (Tree.Path.mapLoc φ.loc) Grammar.path Grammar.path := by
  refine located (f := Prod.map (Tree.Ident.mapLoc φ.loc) (List.map (Tree.Ident.mapLoc φ.loc))) ?_
    fun _ _ => rfl
  refine ident.bind fun first => ?_
  refine (loop (f := List.map (Tree.Ident.mapLoc φ.loc)) (fun parts => ?_) []).bind fun more => ?_
  · refine separator.bind fun _ => ite (fun _ => ?_) fun _ => pure rfl
    exact ident.bind fun part => pure rfl
  · exact pure (by simp)

/-- A constant, if there is one. -/
theorem constant? :
    Tracks φ (Option.map (Tree.Constant.mapLoc φ.loc)) Grammar.constant? Grammar.constant? := by
  refine peek_bind fun t ht => ?_
  have hkind : (t.move φ).kind = t.kind := rfl
  have htext : (t.move φ).text = t.text := rfl
  rw [hkind, htext]
  -- the kind and the text of the token decide, and both are the same
  cases t.kind with
  | intLit | octIntLit | hexIntLit => exact intLit.bind fun _ => pure rfl
  | floatLit =>
    cases Binary64.ofNumeral? t.text with
    | none => exact failHere fun _ => rfl
    | some x => exact advance.bind fun _ => pure rfl
  | textLit => exact textLit.bind fun _ => pure rfl
  | ident =>
    refine ite (fun _ => advance.bind fun _ => pure rfl) fun _ => ?_
    refine ite (fun _ => advance.bind fun _ => pure rfl) fun _ => ?_
    refine ite (fun _ => advance.bind fun _ => pure rfl) fun _ => ?_
    exact path.bind fun _ => pure rfl
  | _ => exact pure rfl

/-- A value, if there is one. -/
theorem value? : Tracks φ (Option.map (Tree.Value.mapLoc φ.loc)) Grammar.value? Grammar.value? :=
  located constant? fun loc c? => by cases c? <;> rfl

/-- A value. -/
theorem value : Tracks φ (Tree.Value.mapLoc φ.loc) Grammar.value Grammar.value :=
  value?.bind fun v? => by
    cases v? with
    | none => exact failExpected .value
    | some v => exact pure rfl

/-- An argument, if there is one. -/
theorem arg? : Tracks φ (Option.map (Tree.Arg.mapLoc φ.loc)) Grammar.arg? Grammar.arg? := by
  refine located (f := Option.map (Tree.ArgForm.mapLoc φ.loc)) ?_
    fun loc f? => by cases f? <;> rfl
  refine peek_bind fun t ht => ite (fun _ => ?_) fun _ => ?_
  · refine ident.bind fun key => (accept .eq).bind fun _ => ite (fun _ => ?_) fun _ => pure rfl
    exact value.bind fun _ => pure rfl
  · exact value?.bind fun v? => pure (by cases v? <;> rfl)

/-- The arguments of an annotation. -/
theorem args : Tracks φ (List.map (Tree.Arg.mapLoc φ.loc)) Grammar.args Grammar.args := by
  refine (loop (f := List.map (Tree.Arg.mapLoc φ.loc)) (fun acc => ?_) []).bind
    fun acc => pure (by simp)
  refine (accept .closeParen).bind fun _ => ite (fun _ => pure rfl) fun _ => arg?.bind fun a? => ?_
  cases a? with
  | none => exact (sigil .closeParen).bind fun _ => pure rfl
  | some a =>
    refine (accept .comma).bind fun _ => ite (fun _ => pure rfl) fun _ => ?_
    exact (sigil .closeParen).bind fun _ => pure rfl

/-- An annotation. -/
theorem annot : Tracks φ (Tree.Annot.mapLoc φ.loc) Grammar.annot Grammar.annot := by
  refine located (f := Prod.map (Tree.Path.mapLoc φ.loc)
    (Option.map (List.map (Tree.Arg.mapLoc φ.loc)))) ?_ fun _ _ => rfl
  refine (sigil .atSign).bind fun _ => path.bind fun name => (accept .openParen).bind fun _ => ?_
  dsimp only
  refine ite (fun _ => ?_) fun _ => ?_
  · refine (args.map (g := Option.map (List.map (Tree.Arg.mapLoc φ.loc))) fun _ => rfl).bind
      fun args? => ?_
    exact (accept .semicolon).bind fun _ => pure rfl
  · refine (pure (f := Option.map (List.map (Tree.Arg.mapLoc φ.loc))) rfl).bind fun args? => ?_
    exact (accept .semicolon).bind fun _ => pure rfl

/-- Annotations that wait for nothing are refused on both sides. -/
theorem noPending (pending : List Tree.Annot) :
    Tracks φ id (Grammar.noPending pending.reverse)
      (Grammar.noPending (pending.map (Tree.Annot.mapLoc φ.loc)).reverse) := by
  rw [← List.map_reverse]
  cases pending.reverse with
  | nil => exact pure rfl
  | cons a r => exact fail rfl

/-! ## §5 Messages -/

/-- A type. -/
theorem typeRef : Tracks φ (Tree.TypeRef.mapLoc φ.loc) Grammar.typeRef Grammar.typeRef := by
  refine located (f := Tree.Path.mapLoc φ.loc) ?_ fun _ _ => rfl
  refine peek_bind fun t ht => ?_
  have hkind : (t.move φ).kind = t.kind := rfl
  have htext : (t.move φ).text = t.text := rfl
  rw [hkind, htext]
  cases t.kind with
  | ident =>
    cases unsupportedType? t.text with
    | some feature => exact failUnsupported feature
    | none =>
      refine path.bind fun name => peek_bind fun next _ => ?_
      have hnext : (next.move φ).kind = next.kind := rfl
      -- what is refused does not depend on the places
      rw [Tree.Path.mapLoc_dotted, hnext]
      refine ite (fun _ => fail rfl) fun _ => ?_
      exact ite (fun _ => failUnsupported .array) fun _ => pure rfl
  | openSquare => exact failUnsupported .array
  | _ => exact failExpected .type

/-- A label, if there is one. -/
theorem label? : Tracks φ (Option.map (Tree.Label.mapLoc φ.loc)) Grammar.label? Grammar.label? := by
  intro c hc
  obtain ⟨t, hpeek, hmoved, hfits, -⟩ := hc.peek
  -- a label is given the place of the next token, which is then a word and not the end
  have hlabel (word : Bytes) (presence : Tree.Presence) (hword : t.isWord word = true) :
      Tracks φ (Option.map (Tree.Label.mapLoc φ.loc))
        (Grammar.advance >>= fun _ => Pure.pure (some ⟨t.loc, presence⟩))
        (Grammar.advance >>= fun _ => Pure.pure (some ⟨(t.move φ).loc, presence⟩)) := by
    have hkind : t.kind = .ident := by
      simp only [Token.isWord, Bool.and_eq_true, beq_iff_eq] at hword
      exact hword.1
    refine advance.bind fun _ => pure ?_
    rw [(hfits (by simp [hkind])).loc_move]
    rfl
  have hword (word : Bytes) : (t.move φ).isWord word = t.isWord word := rfl
  unfold Grammar.label?
  rw [bind_of_ok hpeek, bind_of_ok hmoved]
  rw [acceptWord_bind_apply hpeek, acceptWord_bind_apply hmoved, hword]
  split
  · next h => exact hlabel _ .optional h c hc
  · simp only [Bool.false_eq_true, if_false]
    rw [acceptWord_bind_apply hpeek, acceptWord_bind_apply hmoved, hword]
    split
    · next h => exact hlabel _ .required h c hc
    · exact pure rfl c hc

/-- A field, with the moved annotations in front of it. -/
theorem field (annots : List Tree.Annot) :
    Tracks φ (Tree.Field.mapLoc φ.loc) (Grammar.field annots)
      (Grammar.field (annots.map (Tree.Annot.mapLoc φ.loc))) := by
  refine located (f := Prod.map (Option.map (Tree.Label.mapLoc φ.loc))
    (Prod.map (Tree.TypeRef.mapLoc φ.loc) (Prod.map (Tree.Ident.mapLoc φ.loc)
      (Prod.map id (Option.map (Tree.IntLit.mapLoc φ.loc)))))) ?_ fun _ _ => rfl
  refine label?.bind fun label => (atWord "repeated").bind fun _ => ?_
  refine ite (fun _ => failUnsupported .repeated) fun _ => ?_
  refine typeRef.bind fun type => ident.bind fun name => (accept .question).bind fun question => ?_
  refine (accept .eq).bind fun _ => ?_
  dsimp only
  refine ite (fun _ => ?_) fun _ => ?_
  · -- with a number
    refine (intLit.map (g := Option.map (Tree.IntLit.mapLoc φ.loc)) fun _ => rfl).bind
      fun number => peek_bind fun t _ => ite (fun _ => failUnsupported .fieldOptions) fun _ => ?_
    exact (sigil .semicolon).bind fun _ => pure rfl
  · -- without one
    refine (pure (f := Option.map (Tree.IntLit.mapLoc φ.loc)) rfl).bind
      fun number => peek_bind fun t _ => ite (fun _ => failUnsupported .fieldOptions) fun _ => ?_
    exact (sigil .semicolon).bind fun _ => pure rfl

/-- The members of a body, moved. -/
def moveMembers (φ : Relocation) {μ : Type} (f : μ → μ) (s : Members μ) : Members μ :=
  ⟨s.done.map f, s.pending.map (Tree.Annot.mapLoc φ.loc)⟩

/-- A body is tracked if its members are. -/
theorem body {μ : Type} {f : μ → μ} {member : List Tree.Annot → Grammar μ}
    (h : ∀ annots, Tracks φ f (member annots)
      (member (annots.map (Tree.Annot.mapLoc φ.loc)))) :
    Tracks φ (List.map f) (Grammar.body member) (Grammar.body member) := by
  refine (sigil .openCurl).bind fun _ => ?_
  refine (loop (f := moveMembers φ f) (fun s => ?_) {}).bind fun s => pure (by simp [moveMembers])
  refine peek_bind fun t _ => ?_
  have hkind : (t.move φ).kind = t.kind := rfl
  -- the waiting annotations are moved with the members
  have hmember : Tracks φ (Prod.map (moveMembers φ f) id)
      (do
        let m ← member s.pending.reverse
        return ({ done := m :: s.done }, true))
      (do
        let m ← member (moveMembers φ f s).pending.reverse
        return ({ done := m :: (moveMembers φ f s).done }, true)) := by
    have hpending : (moveMembers φ f s).pending.reverse
        = s.pending.reverse.map (Tree.Annot.mapLoc φ.loc) := by simp [moveMembers]
    rw [hpending]
    exact (h s.pending.reverse).bind fun _ => pure rfl
  rw [hkind]
  cases t.kind with
  | closeCurl => exact (noPending s.pending).bind fun _ => advance.bind fun _ => pure rfl
  | atSign => exact annot.bind fun _ => pure rfl
  | semicolon => exact advance.bind fun _ => pure rfl
  | _ => exact hmember

/-- A member of a message. -/
theorem messageMember (annots : List Tree.Annot) :
    Tracks φ (Tree.Field.mapLoc φ.loc) (Grammar.messageMember annots)
      (Grammar.messageMember (annots.map (Tree.Annot.mapLoc φ.loc))) := by
  refine peek_bind fun t _ => ?_
  have hkind : (t.move φ).kind = t.kind := rfl
  have htext : (t.move φ).text = t.text := rfl
  rw [hkind, htext]
  cases t.kind with
  | ident =>
    cases unsupportedMember? t.text with
    | some feature => exact failUnsupported feature
    | none => exact field annots
  | openSquare => exact failUnsupported .array
  | _ => exact failExpected .messageMember

/-- A message. -/
theorem message (annots : List Tree.Annot) :
    Tracks φ (Tree.Message.mapLoc φ.loc) (Grammar.message annots)
      (Grammar.message (annots.map (Tree.Annot.mapLoc φ.loc))) := by
  refine located (f := Prod.map (Tree.Ident.mapLoc φ.loc) (List.map (Tree.Field.mapLoc φ.loc))) ?_
    fun _ _ => rfl
  refine advance.bind fun _ => ident.bind fun name => ?_
  exact (body messageMember).bind fun fields => pure rfl

/-! ## §6 Services -/

/-- A parameter in parentheses. -/
theorem parameter :
    Tracks φ (Option.map (Tree.TypeRef.mapLoc φ.loc)) Grammar.parameter Grammar.parameter := by
  refine (accept .closeParen).bind fun _ => ite (fun _ => pure rfl) fun _ => ?_
  exact typeRef.bind fun _ => (sigil .closeParen).bind fun _ => pure rfl

/-- The input of a method. -/
theorem methodInput :
    Tracks φ (Option.map (Tree.TypeRef.mapLoc φ.loc)) Grammar.methodInput Grammar.methodInput := by
  refine (accept .openParen).bind fun _ => ite (fun _ => parameter) fun _ => ?_
  exact peek_bind fun t _ => ite (fun _ => typeRef.map fun _ => rfl) fun _ => pure rfl

/-- The mark in front of the answer. -/
theorem outputMark : Tracks φ id Grammar.outputMark Grammar.outputMark :=
  (acceptWord "returns").bind fun _ => ite (fun _ => pure rfl) fun _ => accept .arrow

/-- The answer of a method. -/
theorem methodOutput :
    Tracks φ (Option.map (Tree.TypeRef.mapLoc φ.loc)) Grammar.methodOutput Grammar.methodOutput := by
  refine outputMark.bind fun _ => ite (fun _ => ?_) fun _ => pure rfl
  refine (accept .openParen).bind fun _ => ite (fun _ => parameter) fun _ => ?_
  exact typeRef.map fun _ => rfl

/-- The end of a method. -/
theorem methodEnd : Tracks φ id Grammar.methodEnd Grammar.methodEnd := by
  refine (accept .openCurl).bind fun _ => ite (fun _ => ?_) fun _ => sigil .semicolon
  refine loop (f := id) (fun _ => ?_) ()
  refine (accept .semicolon).bind fun _ => ite (fun _ => pure rfl) fun _ => ?_
  refine (atWord "option").bind fun _ => ite (fun _ => failUnsupported .nestedOption) fun _ => ?_
  exact (sigil .closeCurl).bind fun _ => pure rfl

/-- A method. -/
theorem method (annots : List Tree.Annot) :
    Tracks φ (Tree.Method.mapLoc φ.loc) (Grammar.method annots)
      (Grammar.method (annots.map (Tree.Annot.mapLoc φ.loc))) := by
  refine located (f := Prod.map (Tree.Ident.mapLoc φ.loc)
    (Prod.map (Option.map (Tree.TypeRef.mapLoc φ.loc))
      (Option.map (Tree.TypeRef.mapLoc φ.loc)))) ?_ fun _ _ => rfl
  refine advance.bind fun _ => ident.bind fun name => methodInput.bind fun input => ?_
  exact methodOutput.bind fun output => methodEnd.bind fun _ => pure rfl

/-- A member of a service. -/
theorem serviceMember (annots : List Tree.Annot) :
    Tracks φ (Tree.Method.mapLoc φ.loc) (Grammar.serviceMember annots)
      (Grammar.serviceMember (annots.map (Tree.Annot.mapLoc φ.loc))) := by
  refine (atWord "rpc").bind fun _ => ite (fun _ => method annots) fun _ => ?_
  refine (atWord "option").bind fun _ => ite (fun _ => failUnsupported .nestedOption) fun _ => ?_
  refine (atWord "stream").bind fun _ => ite (fun _ => failUnsupported .stream) fun _ => ?_
  exact failExpected .serviceMember

/-- A service. -/
theorem service (annots : List Tree.Annot) :
    Tracks φ (Tree.Service.mapLoc φ.loc) (Grammar.service annots)
      (Grammar.service (annots.map (Tree.Annot.mapLoc φ.loc))) := by
  refine located (f := Prod.map (Tree.Ident.mapLoc φ.loc) (List.map (Tree.Method.mapLoc φ.loc))) ?_
    fun _ _ => rfl
  refine advance.bind fun _ => ident.bind fun name => ?_
  exact (body serviceMember).bind fun methods => pure rfl

/-! ## §7 Files -/

/-- The package. -/
theorem package : Tracks φ (Tree.Package.mapLoc φ.loc) Grammar.package Grammar.package := by
  refine located (f := Tree.Path.mapLoc φ.loc) ?_ fun _ _ => rfl
  exact advance.bind fun _ => path.bind fun name => (sigil .semicolon).bind fun _ => pure rfl

/-- The version statement. -/
theorem version : Tracks φ (Tree.TextLit.mapLoc φ.loc) Grammar.version Grammar.version := by
  refine advance.bind fun _ => (sigil .eq).bind fun _ => textLit.bind fun version => ?_
  exact (sigil .semicolon).bind fun _ => ite (fun _ => pure rfl) fun _ => fail rfl

/-- A setting. -/
theorem setting : Tracks φ (Tree.Setting.mapLoc φ.loc) Grammar.setting Grammar.setting := by
  refine located (f := Prod.map (Tree.Path.mapLoc φ.loc) (Tree.Value.mapLoc φ.loc)) ?_
    fun _ _ => rfl
  refine advance.bind fun _ => path.bind fun name => (sigil .eq).bind fun _ => ?_
  exact value.bind fun _ => (sigil .semicolon).bind fun _ => pure rfl

/-- What has been read of a file, moved. -/
def moveDraft (φ : Relocation) (d : Draft) : Draft where
  version := d.version.map (Tree.TextLit.mapLoc φ.loc)
  package := d.package.map (Tree.Package.mapLoc φ.loc)
  options := d.options.map (Tree.Setting.mapLoc φ.loc)
  decls := d.decls.map (Tree.Decl.mapLoc φ.loc)
  pending := d.pending.map (Tree.Annot.mapLoc φ.loc)

/-- A statement, added to the moved draft. -/
theorem statement (d : Draft) :
    Tracks φ (moveDraft φ) (Grammar.statement d) (Grammar.statement (moveDraft φ d)) := by
  have hpending : (moveDraft φ d).pending.reverse
      = d.pending.reverse.map (Tree.Annot.mapLoc φ.loc) := by simp [moveDraft]
  have hpackage : (moveDraft φ d).package.isSome = d.package.isSome := by simp [moveDraft]
  refine peek_bind fun t _ => ?_
  rw [hpending, hpackage]
  -- the two declarations, in front of which annotations may wait
  refine ite (fun _ => (message d.pending.reverse).bind fun m => pure rfl) fun _ => ?_
  refine ite (fun _ => (service d.pending.reverse).bind fun s => pure rfl) fun _ => ?_
  rw [← hpending]
  refine (noPending d.pending).bind fun _ => ?_
  -- a second package is refused by a cause without a place
  refine ite (fun _ => package.bind fun p => ite (fun _ => fail rfl) fun _ => pure rfl) fun _ => ?_
  refine ite (fun _ => version.bind fun _ => pure rfl) fun _ => ?_
  refine ite (fun _ => setting.bind fun _ => pure rfl) fun _ => ?_
  refine ite (fun _ => failUnsupported .importing) fun _ => ?_
  refine ite (fun _ => failUnsupported .extend) fun _ => ?_
  exact ite (fun _ => failUnsupported .enum) fun _ => failExpected .declaration

/-- One step of the loop over the file. -/
theorem fileStep (d : Draft) :
    Tracks φ (Prod.map (moveDraft φ) id) (Grammar.fileStep d)
      (Grammar.fileStep (moveDraft φ d)) := by
  refine peek_bind fun t _ => ?_
  have hkind : (t.move φ).kind = t.kind := rfl
  have hstatement : Tracks φ (Prod.map (moveDraft φ) id)
      (do return (← Grammar.statement d, true))
      (do return (← Grammar.statement (moveDraft φ d), true)) :=
    (statement d).bind fun _ => pure rfl
  rw [hkind]
  cases t.kind with
  | eof => exact pure rfl
  | atSign => exact annot.bind fun _ => pure rfl
  | semicolon => exact advance.bind fun _ => pure rfl
  | _ => exact hstatement

end Tracks

/-- A file, moved. A file without any token has a place of its own, which stays. -/
def moveFile (φ : Relocation) (isEmpty : Bool) (d : Tree.File) : Tree.File :=
  { d.mapLoc φ.loc with loc := if isEmpty then d.loc else φ.loc d.loc }

/-- A whole file is tracked. -/
theorem file_tracked (requirePackage : Bool) {c : Cursor} (hc : c.Fits φ) :
    Tracked φ (moveFile φ c.rest.isEmpty) c.stop (file requirePackage c)
      (file requirePackage (c.move φ)) := by
  have hget (c : Cursor) : (get : Grammar Cursor) c = .ok (c, c) := rfl
  unfold file
  rw [bind_of_ok (hget c), bind_of_ok (hget (c.move φ))]
  refine (Tracks.loop Tracks.fileStep {} c hc).bind fun d c₁ hc₁ hle₁ => ?_
  refine (Tracks.noPending d.pending c₁ hc₁).bind fun _ c₂ hc₂ hle₂ => ?_
  have hpackage : (Tracks.moveDraft φ d).package.isNone = d.package.isNone := by
    simp [Tracks.moveDraft]
  obtain ⟨t, hpeek, hmoved, -, -⟩ := hc₂.peek
  change Tracked φ _ c₂.stop ((peek >>= _) c₂) ((peek >>= _) (c₂.move φ))
  rw [bind_of_ok hpeek, bind_of_ok hmoved, hpackage]
  split
  · exact .error rfl
  · rw [bind_of_ok (hget c₂), bind_of_ok (hget (c₂.move φ))]
    -- both sides have come to the same result, and only the place of the file is to be compared
    have hfile (l : Loc) (l' : Loc) (hl : l' = if c.rest.isEmpty then l else φ.loc l) :
        (⟨l', (Tracks.moveDraft φ d).version, (Tracks.moveDraft φ d).package,
            (Tracks.moveDraft φ d).options.reverse, (Tracks.moveDraft φ d).decls.reverse⟩ : Tree.File)
          = moveFile φ c.rest.isEmpty
            ⟨l, d.version, d.package, d.options.reverse, d.decls.reverse⟩ := by
      simp [moveFile, Tree.File.mapLoc, Tracks.moveDraft, hl]
    obtain ⟨rest, ending, stop⟩ := c
    obtain ⟨e, rfl, -, hpacked⟩ := id hc.ending
    cases rest with
    | nil => exact Tracks.pure (hfile _ _ rfl) c₂ hc₂
    | cons u r =>
      have hstart : u.start = stop := hpacked.1
      have hstop : u.start + (c₂.stop - u.start) = c₂.stop := by
        dsimp only at hle₁
        omega
      refine Tracks.pure (hfile _ _ ?_) c₂ hc₂
      simp [Relocation.loc, Span.between, Span.stop, hstop, Token.move, Cursor.move]

end Grammar

/-- A source that is cut into tokens is read from its first significant token on. -/
theorem parseFile_of_lex {src : Bytes} {l : Lexed} (h : lex src = .ok l)
    (allowMissingPackage : Bool) :
    parseFile src allowMissingPackage
      = (Grammar.file (!allowMissingPackage) ⟨l.significant, l.ending, 0⟩).map (·.1) := by
  simp only [parseFile, Grammar.run, h]
  change Grammar.file (!allowMissingPackage) ⟨l.significant, l.ending, 0⟩ >>= _ = _
  cases Grammar.file (!allowMissingPackage) ⟨l.significant, l.ending, 0⟩ <;> rfl

end Idl
