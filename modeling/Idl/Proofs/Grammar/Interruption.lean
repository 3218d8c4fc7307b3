import Idl.Proofs.Grammar.Rewording

/-!
# Tokens that break off

Where the tokens break off with an error, the grammar gives the same results as on all of the
tokens, until it comes to the place where they break off; there it fails with that error. So a
source whose tokens would make up a file fails for what stopped the reading, and for nothing else.

* §1 the relation of the two readings, §2 its rules,
* §3 single tokens, §4 names, constants and annotations,
* §5 messages, §6 services, §7 files.
-/

namespace Idl

/-! ## §1 Two readings -/

/-- The second position is the first one, with the tokens from `tail` on replaced by an error. -/
structure Cursor.CutOff (e : SyntaxError) (tail : List Token) (c d : Cursor) : Prop where
  rest : c.rest = d.rest ++ tail
  ending : d.ending = .error e
  stop : d.stop = c.stop

namespace Grammar

variable {α β σ : Type} {e : SyntaxError} {tail : List Token}

/-- The outcome on all tokens beside the outcome on those that break off. The second one is the
error at the break, or the same as the first one; of a reading that fails nothing is said. -/
inductive Interrupted (e : SyntaxError) (tail : List Token) :
    Except SyntaxError (α × Cursor) → Except SyntaxError (α × Cursor) → Prop where
  | stopped {x : Except SyntaxError (α × Cursor)} : Interrupted e tail x (.error e)
  | failed {e' : SyntaxError} {y : Except SyntaxError (α × Cursor)} :
      Interrupted e tail (.error e') y
  | going {a : α} {c d : Cursor} (h : c.CutOff e tail d) :
      Interrupted e tail (.ok (a, c)) (.ok (a, d))

/-- A piece of grammar can be interrupted. -/
def Interruptible (p : Grammar α) : Prop :=
  ∀ ⦃e tail c d⦄, Cursor.CutOff e tail c d → Interrupted e tail (p c) (p d)

/-- A piece of grammar can be interrupted after the next token. -/
def InterruptibleBehind (p : Grammar α) : Prop :=
  ∀ ⦃e tail c d⦄, Cursor.CutOff e tail c d → d.rest ≠ [] → Interrupted e tail (p c) (p d)

/-- What can be interrupted anywhere can be behind a token. -/
theorem Interruptible.behind {p : Grammar α} (h : Interruptible p) : InterruptibleBehind p :=
  fun _ _ _ _ hcut _ => h hcut

/-! ## §2 Rules -/

/-- The second part of a sequence is only compared where the first went on in both readings. -/
theorem Interrupted.bind {x y : Except SyntaxError (α × Cursor)}
    {k : α × Cursor → Except SyntaxError (β × Cursor)} (h : Interrupted e tail x y)
    (hk : ∀ a c d, c.CutOff e tail d → Interrupted e tail (k (a, c)) (k (a, d))) :
    Interrupted e tail (x >>= k) (y >>= k) := by
  cases h with
  | stopped => exact .stopped
  | failed => exact .failed
  | going h => exact hk _ _ _ h

namespace InterruptibleBehind

/-- A sequence whose first part needs a token. -/
theorem bind {p : Grammar α} {k : α → Grammar β} (hp : InterruptibleBehind p)
    (hk : ∀ a, Interruptible (k a)) : InterruptibleBehind (p >>= k) :=
  fun _ _ _ _ hcut hne => (hp hcut hne).bind fun a _ _ h => hk a h

/-- The next token, which is there, is consumed. -/
theorem advance : InterruptibleBehind Grammar.advance := by
  rintro e tail ⟨rest, ending, stop⟩ ⟨rest', ending', stop'⟩ ⟨rfl, hending, rfl⟩ hne
  cases rest' with
  | nil => exact absurd rfl hne
  | cons t r => exact .going ⟨rfl, hending, rfl⟩

/-- Past a token that is there, both readings go on. -/
theorem advance_bind {k : Unit → Grammar α} (hk : Interruptible (k ())) :
    InterruptibleBehind (Grammar.advance >>= k) :=
  advance.bind fun _ => hk

/-- Both branches behind a token. -/
theorem ite {b : Prop} [Decidable b] {p q : Grammar α} (hp : InterruptibleBehind p)
    (hq : InterruptibleBehind q) : InterruptibleBehind (if b then p else q) := by
  split
  · exact hp
  · exact hq

/-- Looking for annotations that wait consumes nothing. -/
theorem noPending_bind {l : List Tree.Annot} {k : Unit → Grammar α}
    (hk : InterruptibleBehind (k ())) : InterruptibleBehind (Grammar.noPending l >>= k) := by
  cases l with
  | nil => exact hk
  | cons a r => exact fun _ _ _ _ _ _ => .failed

end InterruptibleBehind

namespace Interruptible

/-- Giving a result needs no token. -/
theorem pure (a : α) : Interruptible (Pure.pure a : Grammar α) := fun _ _ _ _ h => .going h

/-- A failure is not compared. -/
theorem fail (e : SyntaxError) : Interruptible (Grammar.fail e : Grammar α) :=
  fun _ _ _ _ _ => .failed

/-- A sequence. -/
theorem bind {p : Grammar α} {k : α → Grammar β} (hp : Interruptible p)
    (hk : ∀ a, Interruptible (k a)) : Interruptible (p >>= k) :=
  fun _ _ _ _ hcut => (hp hcut).bind fun a _ _ h => hk a h

/-- What is done to the result. -/
theorem map {p : Grammar α} (f : α → β) (hp : Interruptible p) : Interruptible (f <$> p) := by
  rw [map_eq_pure_bind]
  exact hp.bind fun a => pure (f a)

/-- Looking at the next token fails at the break, and elsewhere shows the same token. -/
theorem peek_bind {k : Token → Grammar α} (hk : ∀ t, InterruptibleBehind (k t)) :
    Interruptible (peek >>= k) := by
  rintro e tail ⟨rest, ending, stop⟩ ⟨rest', ending', stop'⟩ ⟨hrest, hending, hstop⟩
  cases rest' with
  | nil =>
    obtain rfl : ending' = .error e := hending
    exact .stopped
  | cons t r =>
    obtain rfl : rest = t :: r ++ tail := hrest
    exact hk t ⟨rfl, hending, hstop⟩ (List.cons_ne_nil t r)

/-- Both branches. -/
theorem ite {b : Prop} [Decidable b] {p q : Grammar α} (hp : Interruptible p)
    (hq : Interruptible q) : Interruptible (if b then p else q) := by
  split
  · exact hp
  · exact hq

/-- A loop can be interrupted if its step can: both sides consume the same tokens. -/
theorem loop {step : σ → Grammar (σ × Bool)} (hstep : ∀ s, Interruptible (step s)) (s : σ) :
    Interruptible (Grammar.loop step s) := by
  intro e tail c d hcut
  -- By strong induction on the tokens of the full reading; the shortened one takes as many in each
  -- round.
  induction hlen : c.rest.length using Nat.strongRecOn generalizing s c d with
  | ind n ih =>
    rw [Grammar.loop, Grammar.loop]
    have h := hstep s hcut
    revert h
    generalize step s c = x, step s d = y
    intro h
    cases h with
    | stopped => exact .stopped
    | failed => exact .failed
    | @going a c' d' hcut' =>
      obtain ⟨s', more⟩ := a
      -- one round consumes something in the one reading if it does in the other
      have hless : d'.rest.length < d.rest.length ↔ c'.rest.length < c.rest.length := by
        rw [hcut.rest, hcut'.rest, List.length_append, List.length_append]
        omega
      simp only [hless]
      split
      · next hmore =>
        have hshorter : c'.rest.length < n := by
          simp only [Bool.and_eq_true, decide_eq_true_eq] at hmore
          omega
        exact ih _ hshorter s' hcut' rfl
      · exact .going hcut'

/-- A node that begins at the next token. -/
theorem located_behind {p : Grammar α} (build : Loc → α → β) (hp : InterruptibleBehind p) :
    Interruptible (Grammar.located build p) := by
  refine peek_bind fun t _ _ c d hcut hne => (hp hcut hne).bind fun a c' d' hcut' => ?_
  change Interrupted _ _ (.ok (build ⟨.between t.start c'.stop, t.pos⟩ a, c'))
    (.ok (build ⟨.between t.start d'.stop, t.pos⟩ a, d'))
  rw [hcut'.stop]
  exact .going hcut'

/-- The place of a part ends where its last token ends, in both. -/
theorem located {p : Grammar α} (build : Loc → α → β) (hp : Interruptible p) :
    Interruptible (Grammar.located build p) :=
  located_behind build hp.behind

/-! ## §3 Single tokens -/

/-- A failure at the next token. -/
theorem failHere (cause : Token → SyntaxCause) :
    Interruptible (Grammar.failHere cause : Grammar α) :=
  peek_bind fun _ => (fail _).behind

/-- An expectation that fails. -/
theorem failExpected (want : Expectation) : Interruptible (Grammar.failExpected want : Grammar α) :=
  failHere _

/-- A construct that is not supported. -/
theorem failUnsupported (feature : Feature) :
    Interruptible (Grammar.failUnsupported feature : Grammar α) :=
  failHere _

/-- Taking a token of a kind if it stands there. -/
theorem accept (kind : TokenKind) : Interruptible (Grammar.accept kind) :=
  peek_bind fun _ => .ite (.advance_bind (pure true)) (pure false).behind

/-- The same in front of other parts. -/
theorem accept_bind {kind : TokenKind} {k : Bool → Grammar α} (hk : ∀ b, Interruptible (k b)) :
    Interruptible (Grammar.accept kind >>= k) :=
  (accept kind).bind hk

/-- Requiring a sigil. -/
theorem sigil (s : Sigil) : Interruptible (Grammar.sigil s) :=
  accept_bind fun b => by
    cases b
    · exact failHere _
    · exact pure ()

/-- Looking for a word consumes nothing. -/
theorem atWord_bind {word : Bytes} {k : Bool → Grammar α} (hk : ∀ b, InterruptibleBehind (k b)) :
    Interruptible (Grammar.atWord word >>= k) := by
  rw [Grammar.atWord, bind_assoc]
  refine peek_bind fun t => ?_
  rw [pure_bind]
  exact hk _

/-- Taking a word if it stands there. -/
theorem acceptWord (word : Bytes) : Interruptible (Grammar.acceptWord word) :=
  atWord_bind fun _ => .ite (.advance_bind (pure true)) (pure false).behind

/-- The same in front of other parts. -/
theorem acceptWord_bind {word : Bytes} {k : Bool → Grammar α} (hk : ∀ b, Interruptible (k b)) :
    Interruptible (Grammar.acceptWord word >>= k) :=
  (acceptWord word).bind hk

/-! ## §4 Names, constants and annotations -/

/-- A name. -/
theorem ident : Interruptible Grammar.ident :=
  peek_bind fun _ => .ite (.advance_bind (pure _)) (failExpected .ident).behind

/-- A number. -/
theorem intLit : Interruptible Grammar.intLit :=
  peek_bind fun _ => .ite (.ite (.advance_bind (pure _)) (failHere _).behind)
    (failExpected .intLit).behind

/-- A text. -/
theorem textLit : Interruptible Grammar.textLit := by
  refine peek_bind fun t => .ite ?_ (failExpected .textLit).behind
  split
  · exact .advance_bind (pure _)
  · exact (fail _).behind

/-- A separator of a dotted name. -/
theorem separator : Interruptible Grammar.separator :=
  accept_bind fun _ => ite (pure true) (accept .doubleColon)

/-- A dotted name. -/
theorem path : Interruptible Grammar.path := by
  refine located _ (ident.bind fun first => ?_)
  refine (loop (fun parts => ?_) []).bind fun more => pure _
  exact separator.bind fun _ => ite (ident.bind fun _ => pure _) (pure _)

/-- A constant, if there is one. -/
theorem constant? : Interruptible Grammar.constant? := by
  refine peek_bind fun t => ?_
  -- the branches of the parser, by the kind of the token seen
  split
  · exact (intLit.bind fun _ => pure _).behind
  · exact (intLit.bind fun _ => pure _).behind
  · exact (intLit.bind fun _ => pure _).behind
  · split
    · exact .advance_bind (pure _)
    · exact (failHere _).behind
  · exact (textLit.bind fun _ => pure _).behind
  · refine .ite (.advance_bind (pure _)) (.ite (.advance_bind (pure _)) ?_)
    exact .ite (.advance_bind (pure _)) (path.bind fun _ => pure _).behind
  · exact (pure _).behind

/-- A value, if there is one. -/
theorem value? : Interruptible Grammar.value? := located _ constant?

/-- A value. -/
theorem value : Interruptible Grammar.value :=
  value?.bind fun v? => by
    cases v? with
    | none => exact failExpected .value
    | some v => exact pure v

/-- An argument, if there is one. -/
theorem arg? : Interruptible Grammar.arg? := by
  refine located _ (peek_bind fun t => .ite ?_ (value?.bind fun _ => pure _).behind)
  exact (ident.bind fun key => accept_bind fun _ => ite (value.bind fun _ => pure _)
    (pure _)).behind

/-- The arguments of an annotation. -/
theorem args : Interruptible Grammar.args := by
  refine (loop (fun acc => ?_) []).bind fun acc => pure _
  refine accept_bind fun _ => ite (pure _) (arg?.bind fun a? => ?_)
  cases a? with
  | none => exact (sigil .closeParen).bind fun _ => pure _
  | some a => exact accept_bind fun _ => ite (pure _) ((sigil .closeParen).bind fun _ => pure _)

/-- An annotation. -/
theorem annot : Interruptible Grammar.annot := by
  refine located _ ((sigil .atSign).bind fun _ => path.bind fun name => accept_bind fun _ => ?_)
  dsimp only
  refine ite ?_ ?_
  · exact (args.map some).bind fun _ => accept_bind fun _ => pure _
  · exact (pure none).bind fun _ => accept_bind fun _ => pure _

/-! ## §5 Messages -/

/-- A type. -/
theorem typeRef : Interruptible Grammar.typeRef := by
  refine located _ (peek_bind fun t => ?_)
  split
  · split
    · exact (failUnsupported _).behind
    · refine (path.bind fun name => peek_bind fun next => ?_).behind
      exact .ite (fail _).behind (.ite (failUnsupported _).behind (pure name).behind)
  · exact (failUnsupported _).behind
  · exact (failExpected _).behind

/-- A label, if there is one. -/
theorem label? : Interruptible Grammar.label? := by
  refine peek_bind fun t => (acceptWord_bind fun _ => ite (pure _) ?_).behind
  exact acceptWord_bind fun _ => ite (pure _) (pure _)

/-- A field. -/
theorem field (annots : List Tree.Annot) : Interruptible (Grammar.field annots) := by
  refine located _ (label?.bind fun label => atWord_bind fun _ => ?_)
  refine .ite (failUnsupported _).behind (typeRef.bind fun type => ?_).behind
  refine ident.bind fun name => accept_bind fun question => accept_bind fun _ => ?_
  -- what stands behind the number, or behind the name where there is none
  have hend (number : Option Tree.IntLit) : Interruptible (do
      if (← peek).kind == .openSquare then Grammar.failUnsupported .fieldOptions
      else
        Grammar.sigil .semicolon
        return (label, type, name, question, number)) :=
    peek_bind fun _ => .ite (failUnsupported _).behind
      ((sigil .semicolon).bind fun _ => pure _).behind
  dsimp only
  exact ite ((intLit.map some).bind hend) ((pure none).bind hend)

/-- A body can be interrupted if its members can. -/
theorem body {member : List Tree.Annot → Grammar α} (h : ∀ annots, Interruptible (member annots)) :
    Interruptible (Grammar.body member) := by
  refine (sigil .openCurl).bind fun _ => (loop (fun s : Members α => ?_) { }).bind
    fun s => pure _
  refine peek_bind fun t => ?_
  split
  · exact .noPending_bind (.advance_bind (pure _))
  · exact (annot.bind fun _ => pure _).behind
  · exact .advance_bind (pure _)
  · exact ((h _).bind fun _ => pure _).behind

/-- A member of a message. -/
theorem messageMember (annots : List Tree.Annot) :
    Interruptible (Grammar.messageMember annots) := by
  refine peek_bind fun t => ?_
  split
  · split
    · exact (failUnsupported _).behind
    · exact (field annots).behind
  · exact (failUnsupported _).behind
  · exact (failExpected _).behind

/-- A message. -/
theorem message (annots : List Tree.Annot) : Interruptible (Grammar.message annots) := by
  refine located_behind _ (.advance_bind (ident.bind fun name => ?_))
  exact (body messageMember).bind fun _ => pure _

/-! ## §6 Services -/

/-- A parameter in parentheses. -/
theorem parameter : Interruptible Grammar.parameter :=
  accept_bind fun _ => ite (pure none) (typeRef.bind fun _ => (sigil .closeParen).bind fun _ =>
    pure _)

/-- The input of a method. -/
theorem methodInput : Interruptible Grammar.methodInput :=
  accept_bind fun _ => ite parameter (peek_bind fun _ => .ite (typeRef.map some).behind
    (pure none).behind)

/-- The mark in front of the answer. -/
theorem outputMark : Interruptible Grammar.outputMark :=
  acceptWord_bind fun _ => ite (pure true) (accept .arrow)

/-- The answer of a method. -/
theorem methodOutput : Interruptible Grammar.methodOutput :=
  outputMark.bind fun _ => ite (accept_bind fun _ => ite parameter (typeRef.map some)) (pure none)

/-- The end of a method. -/
theorem methodEnd : Interruptible Grammar.methodEnd := by
  refine accept_bind fun _ => ite (loop (fun _ => ?_) ()) (sigil .semicolon)
  refine accept_bind fun _ => ite (pure _) (atWord_bind fun _ => ?_)
  exact .ite (failUnsupported _).behind ((sigil .closeCurl).bind fun _ => pure _).behind

/-- A method. -/
theorem method (annots : List Tree.Annot) : Interruptible (Grammar.method annots) := by
  refine located_behind _ (.advance_bind (ident.bind fun name => methodInput.bind fun input => ?_))
  exact methodOutput.bind fun output => methodEnd.bind fun _ => pure _

/-- A member of a service. -/
theorem serviceMember (annots : List Tree.Annot) :
    Interruptible (Grammar.serviceMember annots) := by
  refine atWord_bind fun _ => .ite (method annots).behind (atWord_bind fun _ => ?_).behind
  refine .ite (failUnsupported _).behind (atWord_bind fun _ => ?_).behind
  exact .ite (failUnsupported _).behind (failExpected _).behind

/-- A service. -/
theorem service (annots : List Tree.Annot) : Interruptible (Grammar.service annots) := by
  refine located_behind _ (.advance_bind (ident.bind fun name => ?_))
  exact (body serviceMember).bind fun _ => pure _

/-! ## §7 Files -/

/-- The package. -/
theorem package : Interruptible Grammar.package :=
  located_behind _ (.advance_bind (path.bind fun _ => (sigil .semicolon).bind fun _ => pure _))

/-- A setting. -/
theorem setting : Interruptible Grammar.setting := by
  refine located_behind _ (.advance_bind (path.bind fun name => (sigil .eq).bind fun _ => ?_))
  exact value.bind fun _ => (sigil .semicolon).bind fun _ => pure _

end Interruptible

/-- The version statement, whose keyword has been seen. -/
theorem InterruptibleBehind.version : InterruptibleBehind Grammar.version := by
  refine .advance_bind ((Interruptible.sigil .eq).bind fun _ => Interruptible.textLit.bind
    fun version => (Interruptible.sigil .semicolon).bind fun _ => ?_)
  exact .ite (.pure version) (.fail _)

namespace Interruptible

/-- A statement of the file. -/
theorem statement (d : Draft) : Interruptible (Grammar.statement d) := by
  refine peek_bind fun t => ?_
  refine .ite ((message _).bind fun m => pure _).behind ?_
  refine .ite ((service _).bind fun s => pure _).behind (.noPending_bind ?_)
  refine .ite (package.bind fun p => ite (fail _) (pure _)).behind ?_
  refine .ite (InterruptibleBehind.version.bind fun _ => pure _) ?_
  refine .ite (setting.bind fun _ => pure _).behind ?_
  refine .ite (failUnsupported _).behind (.ite (failUnsupported _).behind ?_)
  exact .ite (failUnsupported _).behind (failExpected _).behind

/-- One step of the loop over the file. -/
theorem fileStep (d : Draft) : Interruptible (Grammar.fileStep d) := by
  refine peek_bind fun t => ?_
  split
  · exact (pure _).behind
  · exact (annot.bind fun _ => pure _).behind
  · exact .advance_bind (pure _)
  · exact ((statement d).bind fun _ => pure _).behind

end Interruptible

/-- A file whose tokens break off is refused for the error at the break. -/
theorem file_eq_error_of_cutOff {requirePackage : Bool} {c c' d : Cursor} {f : Tree.File}
    (hc : c.Proper) (hfile : file requirePackage c = .ok (f, c')) (hcut : c.CutOff e tail d) :
    file requirePackage d = .error e := by
  obtain ⟨_, _, hget, hfile⟩ := exists_of_bind_eq_ok hfile
  cases hget
  obtain ⟨draft, c₁, hloop, hfile⟩ := exists_of_bind_eq_ok hfile
  have hget : (get : Grammar Cursor) d = .ok (d, d) := rfl
  unfold file
  rw [bind_of_ok hget]
  have hinterrupted := Interruptible.loop Interruptible.fileStep {} hcut
  rw [hloop] at hinterrupted
  generalize hstopped : loop fileStep {} d = y at hinterrupted
  cases hinterrupted with
  | stopped =>
    rw [bind_apply, hstopped]
    rfl
  | @going _ _ d₁ hcut₁ =>
    -- all tokens have been read, and what is left is to look at the end
    rw [bind_of_ok hstopped]
    obtain ⟨_, c₂, hpending, -⟩ := exists_of_bind_eq_ok hfile
    have hnil : d₁.rest = [] := by
      have hrest := hcut₁.rest
      rw [(eof_of_loop hc hloop).1] at hrest
      exact (List.append_eq_nil_iff.mp hrest.symm).1
    have hpeek : peek d₁ = .error e := by
      rw [peek, hnil]
      dsimp only
      rw [hcut₁.ending]
    cases hreverse : draft.pending.reverse with
    | cons a r =>
      rw [hreverse] at hpending
      cases hpending
    | nil =>
      have hnone : noPending [] d₁ = .ok ((), d₁) := rfl
      rw [bind_of_ok hnone, bind_apply, hpeek]
      rfl

end Grammar

end Idl
