import Idl.Proofs.Grammar.Completeness
import Idl.Proofs.Reader.Declarations

/-!
# Reading never ends the program

Whatever the octets of a source are, the reader comes to an end without an octet or a slice out of
bounds, a sigil without an error of its own or a node with a part missing, and what it comes to is
what the grammar comes to. So there is always a file or an error, and a compilation or an error.

* §1 files,
* §2 the beginning of a source, §3 whole sources, §4 every source.
-/

namespace Idl.Reader

variable {α β γ δ : Type} {src : Bytes} {m m' : Context} {c c' first : Cursor} {t : Token}

/-! ## §1 Files -/

theorem parses_package {r : List Token} (hrest : c.rest = t :: r)
    (hword : t.isWord "package" = true) : Parses src c package Grammar.package Same := by
  refine parses_located (fun e h => peeks_of_cons hrest h) fun u m hu hm hzero => ?_
  unfold package
  rw [bind_assoc]
  refine refines_keyword hrest hword (by decide) hm fun m₁ c₁ hm₁ hless₁ => ?_
  rw [bind_assoc]
  refine (parses_path.child hm₁).bind fun name a m₂ c₂ _ hm₂ hle₂ ⟨ha, _⟩ => ?_
  obtain rfl : a = some name := ha
  rw [bind_assoc]
  refine (refines_sigil hm₂ .semicolon).bind fun _ _ m₃ c₃ _ hm₃ hle₃ _ => ?_
  rw [pure_bind]
  exact refines_seal hu hm₃ (by omega) fun loc _ => ⟨_, rfl, rfl⟩

/-- A dotted name does not begin with a token that is no name. -/
theorem path_eq_error (hpeek : Grammar.peek c = .ok (t, c)) (hkind : t.kind ≠ .ident) :
    Grammar.path c = .error (.atToken (.expected .ident t.kind t.text) t) := by
  have hident : Grammar.ident c = .error (.atToken (.expected .ident t.kind t.text) t) := by
    rw [Grammar.ident, Grammar.bind_of_ok hpeek, if_neg (by simpa using hkind), Grammar.failExpected,
      failHere_apply hpeek]
  rw [Grammar.path, Grammar.located, Grammar.bind_of_ok hpeek, bind_assoc, Grammar.bind_apply, hident]
  rfl

instance : Peeks Grammar.path := by
  unfold Grammar.path Grammar.located
  infer_instance

/-- A token may be looked at before something that looks at it anyway. -/
theorem peek_pure_bind (g : Grammar α) [hg : Peeks g] (f : Token → β) :
    g c = ((Grammar.peek >>= fun t => pure (f t)) >>= fun _ => g) c := by
  rw [bind_assoc]
  cases hc : Grammar.peek c with
  | error e =>
    rw [hg.peeks hc, Grammar.bind_apply, hc]
    rfl
  | ok x =>
    obtain ⟨t, c₁⟩ := x
    obtain rfl := Grammar.eq_of_peek_eq_ok hc
    rw [Grammar.bind_of_ok hc, pure_bind]

theorem parses_setting {r : List Token} (hrest : c.rest = t :: r)
    (hword : t.isWord "option" = true) : Parses src c setting Grammar.setting Same := by
  refine parses_located (fun e h => peeks_of_cons hrest h) fun u m hu hm hzero => ?_
  unfold setting
  rw [bind_assoc]
  refine refines_keyword hrest hword (by decide) hm fun m₁ c₁ hm₁ hless₁ => ?_
  refine Refines.congr (peek_pure_bind _ fun t => t.kind == .openParen) ?_
  refine (refines_peek hm₁ .openParen).bind fun b a m₂ c₂ hc₂ hm₂ hle₂ ⟨ha, _, v, hv⟩ => ?_
  subst ha
  obtain ⟨hkind, rfl⟩ := eq_of_peek_pure hv.hand.peek hc₂
  -- an opening sign starts an extension's name, which both sides refuse
  cases a with
  | true =>
    have hkind : v.kind = .openParen := by simpa using hkind.symm
    obtain ⟨m₃, hfail, hm₃⟩ := hv.failHere_eq (.expected .ident)
    refine refines_of_failed ⟨(), m₃, hfail, hm₃⟩ ?_
    rw [bind_assoc, Grammar.bind_apply, path_eq_error hv.hand.peek (by simp [hkind])]
    rfl
  | false =>
    rw [if_neg Bool.false_ne_true, bind_assoc]
    refine (parses_path.child hm₂).bind fun name a m₃ c₃ _ hm₃ hle₃ ⟨ha, _⟩ => ?_
    obtain rfl : a = some name := ha
    rw [bind_assoc]
    refine (refines_sigil hm₃ .eq).bind fun _ _ m₄ c₄ _ hm₄ hle₄ _ => ?_
    rw [bind_assoc]
    refine (refines_constValue hm₄).bind fun x a m₅ c₅ _ hm₅ hle₅ ⟨ha, _⟩ => ?_
    subst ha
    rw [bind_assoc]
    refine (refines_sigil hm₅ .semicolon).bind fun _ _ m₆ c₆ _ hm₆ hle₆ _ => ?_
    rw [pure_bind]
    exact refines_seal hu hm₆ (by omega) fun loc _ => ⟨_, rfl, rfl⟩

/-- A text literal stands where its token stands. -/
theorem Linked.placed_of_textLit {v : Tree.TextLit} (hm : Linked src first m c)
    (h : Grammar.textLit c = .ok (v, c')) : Placed src v.loc := by
  obtain ⟨t, c₁, hpeek, h⟩ := Grammar.exists_of_bind_eq_ok h
  obtain rfl := Grammar.eq_of_peek_eq_ok hpeek
  have hgets := gets_ensureToken hm.stands
  unfold Gets at hgets
  rw [hpeek] at hgets
  obtain ⟨m₁, -, -, -, ht, -⟩ := hgets
  split at h
  · -- the literal is decoded, or an escape in it is refused
    cases hvalue : textLitValue t.text with
    | ok value =>
      rw [hvalue] at h
      obtain ⟨_, _, -, h⟩ := Grammar.exists_of_bind_eq_ok h
      cases h
      exact ht.cut.pos
    | error x =>
      rw [hvalue] at h
      cases h
  · rw [Grammar.failExpected, failHere_apply hpeek] at h
    cases h

instance : Stays version Anyhow := by
  unfold version
  infer_instance

/-- The clause that names the version of the syntax. -/
theorem refines_version {r : List Token} (hrest : c.rest = t :: r)
    (hword : t.isWord "syntax" = true) (hm : Linked src first m c) :
    Refines src first m c version Grammar.version (fun b a _ => a = some b) Anyhow := by
  unfold version Grammar.version
  refine refines_tryKeyword_bind hrest hword (by decide) hm fun _ m₁ c₁ _ hm₁ _ => ?_
  refine (refines_sigil hm₁ .eq).bind fun _ _ m₂ c₂ _ hm₂ _ _ => ?_
  refine (refines_text hm₂).bind fun v a m₃ c₃ hv hm₃ _ ⟨ha, _⟩ => ?_
  subst ha
  refine (refines_sigil hm₃ .semicolon).bind fun _ _ m₄ c₄ _ hm₄ _ _ => ?_
  -- the only version taken is that of this word
  cases hversion : v.value == ("proto3" : Bytes) with
  | true =>
    simp only [Option.elim_some, hversion, if_true, pure_bind]
    exact refines_pure hm₄ rfl
  | false =>
    simp only [Option.elim_some, hversion, Bool.false_eq_true, if_false]
    obtain ⟨m₅, hfail, hm₅⟩ := hm₄.fail_eq (.unsupportedVersion v.value) v.loc.span
    refine refines_of_failed ⟨(), m₅, hfail, hm₅⟩ ?_
    -- the error stands at the literal
    rw [locate, ← hm₂.placed_of_textLit hv]
    rfl

/-- What the reader has of a file is what the grammar has, last first. -/
structure SheetRead (src : Bytes) (s : Grammar.Draft) (d : Sheet) : Prop where
  version : d.version = s.version
  package : d.package = s.package
  options : d.options = s.options.reverse
  decls : d.decls = s.decls.reverse
  pending : d.pending = s.pending.reverse
  placed : ∀ a ∈ d.pending, Placed src a.loc

instance (word : Bytes) (d : Sheet) : Stays (statement word d) Anyhow := by
  unfold statement
  infer_instance

/-- A statement that is neither a declaration nor an annotation. -/
def otherStatement (t : Token) (s : Grammar.Draft) : Grammar Grammar.Draft := do
  if t.isWord "package" then
    let p ← Grammar.package
    if s.package.isSome then Grammar.fail (.atToken .duplicatePackage t)
    else return { s with package := some p }
  else if t.isWord "syntax" then return { s with version := some (← Grammar.version) }
  else if t.isWord "option" then return { s with options := (← Grammar.setting) :: s.options }
  else if t.isWord "import" then Grammar.failUnsupported .importing
  else if t.isWord "extend" then Grammar.failUnsupported .extend
  else if t.isWord "enum" then Grammar.failUnsupported .enum
  else Grammar.failExpected .declaration

theorem refines_statement {s : Grammar.Draft} {d : Sheet} (hm : Holding src first m c t)
    (hd : SheetRead src s d) :
    Refines src first m c (statement (keyword t) d) (otherStatement t s)
      (fun b a _ => SheetRead src b a) Anyhow := by
  have hrest {word : Bytes} (hword : t.isWord word = true) : ∃ r, c.rest = t :: r :=
    hm.exists_rest (Grammar.kind_ne_eof_of_isWord hword)
  unfold statement otherStatement
  -- both sides ask for the same words
  rw [keyword_beq (by decide), keyword_beq (by decide), keyword_beq (by decide),
    keyword_beq (by decide), keyword_beq (by decide), keyword_beq (by decide)]
  split
  · next hword =>
    obtain ⟨r, hrest⟩ := hrest hword
    refine Refines.look hm.tokenSpan_eq ?_
    refine ((parses_package hrest hword).child hm.toLinked).bind
      fun p a m₁ c₁ _ hm₁ _ ⟨ha, _⟩ => ?_
    obtain rfl : a = some p := ha
    rw [hd.package]
    cases hp : s.package with
    | some q =>
      -- the second package is refused at its keyword
      obtain ⟨m₂, hfail, hm₂⟩ := hm₁.fail_eq .duplicatePackage t.span
      refine refines_of_failed ⟨(), m₂, hfail, hm₂⟩ ?_
      rw [← hm.hand.cut.atToken_eq]
      rfl
    | none => exact refines_pure hm₁ ⟨hd.version, rfl, hd.options, hd.decls, hd.pending, hd.placed⟩
  split
  · next hword =>
    obtain ⟨r, hrest⟩ := hrest hword
    refine (refines_version hrest hword hm.toLinked).bind fun v a m₁ c₁ _ hm₁ _ ha => ?_
    subst ha
    exact refines_pure hm₁ ⟨rfl, hd.package, hd.options, hd.decls, hd.pending, hd.placed⟩
  split
  · next hword =>
    obtain ⟨r, hrest⟩ := hrest hword
    refine ((parses_setting hrest hword).child hm.toLinked).bind
      fun o a m₁ c₁ _ hm₁ _ ⟨ha, _⟩ => ?_
    obtain rfl : a = some o := ha
    refine refines_pure hm₁ ⟨hd.version, hd.package, ?_, hd.decls, hd.pending, hd.placed⟩
    simp [hd.options]
  split
  · exact refines_unsupported_bind hm.toLinked .importing
  split
  · exact refines_unsupported_bind hm.toLinked .extend
  split
  · exact refines_unsupported_bind hm.toLinked .enum
  exact refines_failHere_bind hm (.expected .declaration)

instance (d : Sheet) : Stays (declaration d) Anyhow := by
  unfold declaration
  infer_instance

theorem refines_declaration {s : Grammar.Draft} {d : Sheet} (hm : Holding src first m c t)
    (hd : SheetRead src s d) :
    Refines src first m c (declaration d) (do return (← Grammar.statement s, true))
      (fun x y _ => y.2 = x.2 ∧ SheetRead src x.1 y.1) Anyhow := by
  have hrest {word : Bytes} (hword : t.isWord word = true) : ∃ r, c.rest = t :: r :=
    hm.exists_rest (Grammar.kind_ne_eof_of_isWord hword)
  unfold declaration Grammar.statement
  rw [bind_assoc]
  -- one word is looked at: it selects a message, a service or some other statement
  refine Refines.peek_bind hm (Refines.look hm.peekKeyword_eq ?_)
  rw [keyword_beq (by decide), keyword_beq (by decide)]
  split
  · next hword =>
    obtain ⟨r, hrest⟩ := hrest hword
    rw [bind_assoc, ← hd.pending]
    refine ((parses_message hrest hword d.pending).child hm.toLinked).bind
      fun b a m₁ c₁ _ hm₁ _ ⟨ha, _⟩ => ?_
    obtain ⟨x, rfl, rfl, -⟩ := ha
    exact refines_pure hm₁
      ⟨rfl, hd.version, hd.package, hd.options, by simp [hd.decls], rfl, by simp⟩
  split
  · next hword =>
    obtain ⟨r, hrest⟩ := hrest hword
    rw [bind_assoc, ← hd.pending]
    refine ((parses_service hrest hword d.pending).child hm.toLinked).bind
      fun b a m₁ c₁ _ hm₁ _ ⟨ha, _⟩ => ?_
    obtain ⟨x, rfl, rfl, -⟩ := ha
    exact refines_pure hm₁
      ⟨rfl, hd.version, hd.package, hd.options, by simp [hd.decls], rfl, by simp⟩
  -- any other statement takes no annotations, so none may be waiting
  rw [bind_assoc, ← hd.pending]
  refine refines_noPending hm.toLinked hd.placed fun _ => ?_
  exact (refines_statement hm hd).bind fun b a m₁ c₁ _ hm₁ _ ha => refines_pure hm₁ ⟨rfl, ha⟩

theorem refines_fileStep : StepsRefine src first fileStep Grammar.fileStep (SheetRead src) := by
  intro s d m c hm hd
  unfold fileStep Grammar.fileStep
  refine Refines.ensure hm fun t m₁ hm₁ _ => ?_
  refine Refines.look hm₁.kind_eq ?_
  -- anything else begins a statement, which takes the annotations that wait
  have hother (hsign : t.kind ≠ .atSign) (hsemicolon : t.kind ≠ .semicolon) : Refines src first m₁ c
      (do
        (← child annot).elim
          (do
            if ← trySigil .semicolon then return (d, true) else declaration d)
          fun a => return ({ d with pending := d.pending ++ [a] }, true))
      (do return (← Grammar.statement s, true))
      (fun x y _ => y.2 = x.2 ∧ SheetRead src x.1 y.1) Anyhow := by
    refine Refines.look (hm₁.child_annot hsign) ?_
    exact Refines.look (hm₁.trySigil_eq_false hsemicolon) (refines_declaration hm₁ hd)
  cases hkind : t.kind with
  | eof => exact refines_pure hm₁.toLinked ⟨rfl, hd⟩
  | atSign =>
    obtain ⟨r, hrest⟩ := hm₁.exists_rest (by simp [hkind])
    rw [if_neg (by decide)]
    dsimp only
    -- an annotation waits for the declaration behind it
    refine ((parses_annot hrest hkind).child hm₁.toLinked).bind
      fun b a m₂ c₂ _ hm₂ _ ⟨⟨ha, hplaced⟩, _⟩ => ?_
    subst ha
    refine refines_pure hm₂ ⟨rfl, hd.version, hd.package, hd.options, hd.decls, ?_, ?_⟩
    · simp [hd.pending]
    · intro a ha
      rcases List.mem_append.mp ha with ha | ha
      · exact hd.placed a ha
      · exact List.mem_singleton.mp ha ▸ hplaced
  | semicolon =>
    rw [if_neg (by decide)]
    dsimp only
    -- a semicolon alone is skipped
    refine Refines.look (hm₁.child_annot (by simp [hkind])) ?_
    refine Refines.congr_left (hkind ▸ hm₁.trySigil_bind _) ?_
    refine (refines_consumeToken hm₁ (by simp [hkind])).bind fun _ _ m₂ c₂ _ hm₂ _ _ => ?_
    exact refines_pure hm₂ ⟨rfl, hd⟩
  | _ => exact hother (by simp [hkind]) (by simp [hkind])

/-- The end of the source, if it is the next token. -/
theorem Linked.eof_of_peek (hm : Linked src first m c) (hpeek : Grammar.peek c = .ok (t, c))
    (hkind : t.kind = .eof) : t.span = ⟨src.length, 0⟩ ∧ t.pos = Pos.ofOffset src src.length := by
  have hgets := gets_ensureToken hm.stands
  unfold Gets at hgets
  rw [hpeek] at hgets
  obtain ⟨m₁, -, -, -, ht, -⟩ := hgets
  have hstart := ht.cut.eof hkind
  have hbound := ht.cut.bound
  rw [Token.stop] at hbound
  refine ⟨?_, hstart ▸ ht.cut.pos⟩
  rw [Token.span, hstart, show t.text.length = 0 by omega]

/-- The place of a whole file. -/
def fileLoc (rest : List Token) (stop : Nat) : Loc :=
  match rest with
  | t :: _ => ⟨.between t.start stop, t.pos⟩
  | [] => ⟨⟨0, 0⟩, .start⟩

/-- The place of a file that was read to its end is from its first to its last token. -/
theorem Linked.fileLoc_eq (hm : Linked src first m c) (hnil : c.rest = []) :
    posOf m.start m = some ((fileLoc first.rest c.stop).pos, m)
      ∧ Span.between m.start m.stop = (fileLoc first.rest c.stop).span := by
  -- a source without tokens, whose place is its end
  by_cases hzero : m.consumed = 0
  · obtain ⟨rfl, hstart, hstop⟩ := hm.extent.none hzero
    rw [hnil, hstart, hstop]
    exact ⟨posOf_eq hm.stands.source (Nat.zero_le _), rfl⟩
  · obtain ⟨t, r, hrest, hcut, hstart, hstop⟩ := hm.extent.some hzero
    have hbound := hcut.bound
    rw [Token.stop] at hbound
    rw [hrest, hstart, hstop]
    refine ⟨?_, rfl⟩
    rw [posOf_eq hm.stands.source (by omega), ← hcut.pos]
    rfl

instance : Stays sourceSize Anyhow := ⟨fun h => ⟨_, _, rfl, h, trivial⟩⟩

/-- The end of a file, of which the tokens are given. -/
def fileEnd (requirePackage : Bool) (tokens : List Token) (d : Grammar.Draft) :
    Grammar Tree.File := do
  Grammar.noPending d.pending.reverse
  let eof ← Grammar.peek
  if requirePackage && d.package.isNone then Grammar.fail ⟨.missingPackage, eof.span, eof.pos⟩
  else
    let stop := (← get).stop
    return ⟨fileLoc tokens stop, d.version, d.package, d.options.reverse, d.decls.reverse⟩

theorem file_eq (requirePackage : Bool) : Grammar.file requirePackage c
    = (Grammar.loop Grammar.fileStep {} >>= fileEnd requirePackage c.rest) c := rfl

/-- A whole file. -/
theorem refines_file (hc : c.Proper) (requirePackage : Bool) (hm : Linked src c m c) :
    Refines src c m c (file requirePackage) (Grammar.file requirePackage)
      (fun b a _ => a = (some b, none)) Aborted := by
  refine Refines.congr (file_eq requirePackage) ?_
  unfold file
  -- nothing is declared before the first token
  have hstart : SheetRead src {} {} := ⟨rfl, rfl, rfl, rfl, rfl, by simp⟩
  refine (refines_loop refines_fileStep hm hstart).bind fun s d m₁ c₁ hloop hm₁ _ hd => ?_
  refine Refines.look (failed_eq hm₁) ?_
  rw [fileEnd, ← hd.pending]
  refine refines_noPending hm₁ hd.placed fun _ => ?_
  -- the loop ends only at the end of the source
  obtain ⟨hnil, e, hpeek, hkind⟩ := Grammar.eof_of_loop hc hloop
  obtain ⟨hspan, hpos⟩ := hm₁.eof_of_peek hpeek hkind
  refine Refines.congr (Grammar.bind_of_ok hpeek) ?_
  rw [hd.package, Bool.and_comm]
  -- a clause of the package may be asked for
  cases hmissing : requirePackage && s.package.isNone with
  | true =>
    refine Refines.look (x := src.length) ?_ ?_
    · change some (m₁.src.length, m₁) = _
      rw [hm₁.stands.source]
    obtain ⟨m₂, hfail, hm₂⟩ := hm₁.fail_eq .missingPackage ⟨src.length, 0⟩
    refine refines_of_failed ⟨(), m₂, hfail, hm₂⟩ ?_
    rw [hspan, hpos]
    rfl
  | false =>
    obtain ⟨hpos, hspan⟩ := hm₁.fileLoc_eq hnil
    rw [if_neg Bool.false_ne_true, hd.version, hd.options, hd.decls]
    exact refines_of_ok rfl (finish_eq hm₁ hpos hspan rfl) hm₁ le_rfl rfl

/-! ## §2 The beginning of a source -/

/-- The position in front of all tokens. -/
def before (l : Lexed) : Cursor := ⟨l.significant, l.ending, 0⟩

theorem begin_of_lex_eq_error {e : SyntaxError} (h : lex src = .error e) : begin src = .error e := by
  unfold lex at h
  unfold begin
  split at h
  · next hsize =>
    rw [if_pos hsize]
    exact congrArg Except.error (Except.error.inj h)
  · next hsize =>
    split at h
    · next hvalid =>
      rw [if_neg hsize, if_pos hvalid]
      exact congrArg Except.error (Except.error.inj h)
    · cases h

/-- A source that can be lexed is one that the reader starts on. -/
theorem begin_of_lex_eq_ok {l : Lexed} (h : lex src = .ok l) :
    ∃ m, begin src = .ok m ∧ Linked src (before l) m (before l) ∧ m.consumed = 0 := by
  unfold lex at h
  unfold begin
  split at h
  · cases h
  · next hsize =>
    split at h
    · cases h
    · next hvalid =>
      cases h
      -- nothing is consumed yet, so the extent is empty
      refine ⟨_, by rw [if_neg hsize, if_neg hvalid], ⟨?_, ?_⟩, rfl⟩
      · exact {
          source := rfl
          error := rfl
          within := Nat.zero_le _
          good := ⟨rfl, Nat.zero_le _, by simpa using hvalid⟩
          ahead := fun _ => ⟨rfl, rfl⟩
          hand := nofun }
      · exact ⟨Nat.zero_add _, fun _ => ⟨rfl, rfl, rfl⟩, fun h => absurd rfl h⟩

/-- Where a keyword does not stand, nothing is consumed and no error is kept. -/
theorem tryKeyword_eq_none {word : Bytes} {m : Context} {c first : Cursor} (hne : word ≠ [])
    (hword : ∀ t r, c.rest = t :: r → t.isWord word = false) (hm : Linked src first m c) :
    ∃ m', tryKeyword word m = some (none, m') := by
  have hgets := gets_ensureToken hm.stands
  have hskip {m₁ : Context} {w : Bytes} (hw : peekKeyword m = some (w, m₁))
      (hne : (w == word) = false) : tryKeyword word m = some (none, m₁) := by
    rw [tryKeyword, bind_of_some hw, hne]
    rfl
  unfold Gets at hgets
  -- the next token may not load: then the word looked at is empty
  cases hpeek : Grammar.peek c with
  | error e =>
    rw [hpeek] at hgets
    obtain ⟨m₁, hensure, -⟩ := hgets
    refine ⟨m₁, hskip (w := []) ?_ (by simpa using hne.symm)⟩
    rw [peekKeyword, bind_of_some hensure]
    rfl
  | ok x =>
    rw [hpeek] at hgets
    obtain ⟨m₁, hensure, hm₁, hloaded, ht, hsame⟩ := hgets
    have hholds : Holding src first m₁ c x.1 := ⟨⟨hm₁, hm.extent.of_same hsame⟩, hloaded, ht⟩
    refine ⟨m₁, hskip (w := keyword x.1) ?_ ?_⟩
    · rw [← hholds.peekKeyword_eq]
      unfold peekKeyword
      rw [bind_of_some hensure, bind_of_some hholds.ensureToken_eq]
    -- the end of the source is no word, any other token is excluded by hypothesis
    · rw [keyword_beq hne]
      by_cases heof : x.1.kind = .eof
      · rw [Token.isWord, heof]
        rfl
      · obtain ⟨r, hrest⟩ := hholds.exists_rest heof
        exact hword _ r hrest

/-! ## §3 Whole sources -/

/-- What a source comes to, as a piece. -/
def settle : Except SyntaxError α → Piece α
  | .ok a => (some a, none)
  | .error e => (none, some e)

/-- What a source comes to that need not hold a piece. -/
def settle? : Except SyntaxError (Option α) → Piece α
  | .ok a => (a, none)
  | .error e => (none, some e)

theorem run_of_lex_eq_error {e : SyntaxError} (h : lex src = .error e) (piece : Reader (Piece α)) :
    run piece src = some (none, some e) := by
  rw [run, begin_of_lex_eq_error h]

/-- The reader of slices answers as the parser does, a crash never being the answer. -/
theorem readFile_eq (src : Bytes) (allowMissingPackage : Bool) :
    readFile src allowMissingPackage = some (settle (parseFile src allowMissingPackage)) := by
  cases hlex : lex src with
  -- refused before the first token, with the error of the lexer
  | error e =>
    rw [readFile, run_of_lex_eq_error hlex, parseFile, Grammar.run, hlex]
    rfl
  | ok l =>
    obtain ⟨m, hbegin, hm, -⟩ := begin_of_lex_eq_ok hlex
    -- the two readers take the same course, declaration by declaration
    have h : Refines src (before l) m (before l) _ _ _ _ :=
      refines_file (significant_proper hlex) (!allowMissingPackage) hm
    rw [readFile, run, hbegin, parseFile_of_lex hlex]
    unfold Refines at h
    change Option.map _ _ = some (settle (Except.map _ (Grammar.file _ (before l))))
    cases hfile : Grammar.file (!allowMissingPackage) (before l) with
    | error e =>
      rw [hfile] at h
      obtain ⟨a, m', hp, -, rfl⟩ := h
      rw [hp]
      rfl
    | ok x =>
      rw [hfile] at h
      obtain ⟨a, m', hp, -, -, rfl⟩ := h
      rw [hp]
      rfl

/-- A source that does not begin with the keyword of a piece has neither the piece nor an error. -/
theorem runAt_eq_ok_none_iff {word : Bytes} {g : Grammar α} :
    Grammar.runAt word g src = .ok none
      ↔ ∃ l, lex src = .ok l ∧ ∀ t r, l.significant = t :: r → t.isWord word = false := by
  cases hlex : lex src with
  | error e => simp [Grammar.runAt, hlex, bind, Except.bind]
  | ok l =>
    simp only [Grammar.runAt, hlex, bind, Except.bind, Except.ok.injEq, exists_eq_left']
    -- no token is there, or the first one decides
    cases hsig : l.significant with
    | nil => simp [pure, Except.pure]
    | cons t r =>
      cases hword : t.isWord word with
      | false => simp [pure, Except.pure, hword]
      | true =>
        simp only [hword, if_true]
        split <;> simp [pure, Except.pure, hword]

/-- A piece that begins with a keyword. -/
def atKeyword (word : Bytes) (q : Reader (Piece α)) : Reader (Piece α) := do
  if (← tryKeyword word).isSome then q else return (none, none)

/-- A source that is read as one piece, which begins with a keyword. -/
theorem run_eq {word : Bytes} {q : Reader (Piece α)} {g : Grammar α}
    {put : List Tree.Annot → α → α} (hne : word ≠ [])
    (hparses : ∀ {c : Cursor} {t : Token} {r : List Token}, c.rest = t :: r →
      t.isWord word = true → Parses src c (atKeyword word q) g (ReadBare put [])) :
    run (atKeyword word q) src = some (settle? (Grammar.runAt word g src)) := by
  cases hlex : lex src with
  | error e =>
    rw [run_of_lex_eq_error hlex, Grammar.runAt, hlex]
    rfl
  | ok l =>
    obtain ⟨m, hbegin, hm, hzero⟩ := begin_of_lex_eq_ok hlex
    rw [run, hbegin]
    -- a source that does not begin with the keyword has no piece
    by_cases hnone : ∀ t r, l.significant = t :: r → t.isWord word = false
    · obtain ⟨m', hkeyword⟩ := tryKeyword_eq_none hne hnone hm
      rw [runAt_eq_ok_none_iff.mpr ⟨l, hlex, hnone⟩]
      change Option.map _ ((tryKeyword word >>= _) m) = _
      rw [bind_of_some hkeyword]
      rfl
    · push Not at hnone
      obtain ⟨t, r, hsig, hword⟩ := hnone
      rw [ne_eq, Bool.not_eq_false] at hword
      have h := hparses (c := before l) hsig hword m hm hzero
      have hrun : Grammar.runAt word g src = (g (before l)).map (some ·.1) := by
        simp only [Grammar.runAt, hlex, bind, Except.bind, before, hsig, hword, if_true]
        cases hg : g ⟨t :: r, l.ending, 0⟩ <;> simp [StateT.run, hg, Except.map, pure, Except.pure]
      rw [hrun]
      unfold Refines at h
      cases hg : g (before l) with
      | error e =>
        rw [hg] at h
        obtain ⟨a, m', hp, -, rfl⟩ := h
        dsimp only
        rw [hp]
        rfl
      | ok x =>
        rw [hg] at h
        obtain ⟨a, m', hp, -, -, herror, hempty, hnode⟩ := h
        -- the piece has its keyword, so that it is not empty
        have hsome : m'.consumed ≠ 0 := fun h0 => by
          obtain ⟨_, y, hy, _⟩ := hempty h0
          cases hy
        obtain ⟨b, hb, y, hy, hput, hbare⟩ := hnode hsome
        dsimp only
        rw [hp]
        cases hy
        cases a
        cases hb
        cases herror
        have hsame : x.1 = b := hput.symm.trans hbare
        simp [settle?, Except.map, hsame]

theorem readMessage_eq (src : Bytes) : readMessage src = some (settle? (parseMessage src)) :=
  run_eq (by decide) fun hrest hword => parses_message hrest hword []

theorem readService_eq (src : Bytes) : readService src = some (settle? (parseService src)) :=
  run_eq (by decide) fun hrest hword => parses_service hrest hword []

theorem compile_eq (src sourcePath : Bytes) (allowMissingPackage : Bool) :
    compile src sourcePath allowMissingPackage
      = some (settle (compileSource src sourcePath allowMissingPackage)) := by
  rw [compile, readFile_eq, compileSource]
  cases h : parseFile src allowMissingPackage with
  | error e => rfl
  | ok f => rfl

/-! ## §4 Every source -/

/-- Reading and compiling never end the program, whatever the octets of the source are: each comes to
what the grammar comes to. For a file and a compilation that is a result or an error. For a single
message or service it is a result, an error or neither, and neither exactly for a source that is cut
into tokens and does not begin with the keyword, also where its first token cannot be cut. -/
theorem reading_never_crashes (src sourcePath : Bytes) (allowMissingPackage : Bool) :
    readFile src allowMissingPackage = some (settle (parseFile src allowMissingPackage))
    ∧ compile src sourcePath allowMissingPackage
      = some (settle (compileSource src sourcePath allowMissingPackage))
    ∧ readMessage src = some (settle? (parseMessage src))
    ∧ readService src = some (settle? (parseService src))
    ∧ (parseMessage src = .ok none
      ↔ ∃ l, lex src = .ok l ∧ ∀ t r, l.significant = t :: r → t.isWord "message" = false)
    ∧ (parseService src = .ok none
      ↔ ∃ l, lex src = .ok l ∧ ∀ t r, l.significant = t :: r → t.isWord "service" = false) :=
  ⟨readFile_eq .., compile_eq .., readMessage_eq src, readService_eq src, runAt_eq_ok_none_iff,
    runAt_eq_ok_none_iff⟩

end Idl.Reader
