import Idl.Proofs.Grammar.Simulation
import Idl.Proofs.Reader.Octets
import Idl.Reader.Context

/-!
# The reader stands where the grammar stands

The grammar goes through the significant tokens of a source one by one; the reader cuts them when it
gets to them. `Linked` says that a context and a cursor stand at the same token, and `Failed` is all
that is left to say after an error: whatever token is in hand then, its length from the noted offset
on stays within what has been cut.

* §1 tokens that are cut from a source, §2 the tokens from a place on,
* §3 contexts that stand at a token, §4 contexts after an error,
* §5 getting a token, §6 looking at it, consuming it and failing because of it.
-/

namespace Idl.Reader

variable {src : Bytes}

/-! ## §1 Tokens of a source -/

/-- A token that is cut from a source. The end of the source counts as one. -/
structure Cut (src : Bytes) (t : Token) : Prop where
  bound : t.stop ≤ src.length
  text : (src.drop t.start).take t.text.length = t.text
  pos : t.pos = Pos.ofOffset src t.start
  begins : Utf8.Begins (src.drop t.start)
  sound : Sound t.kind t.text
  word : t.kind = .ident → t.text ≠ []
  eof : t.kind = .eof → t.start = src.length

namespace Cut

variable {t : Token}

/-- The place of a token that was cut from the source. -/
theorem loc_eq (h : Cut src t) : t.loc = ⟨⟨t.start, t.text.length⟩, Pos.ofOffset src t.start⟩ := by
  rw [Token.loc, Token.span, h.pos]

/-- Its text is the slice of the source. -/
theorem slice (h : Cut src t) : slice? src t.start (t.start + t.text.length) = some t.text := by
  rw [slice?_eq (Nat.le_add_right _ _) h.bound, Nat.add_sub_cancel_left, h.text]

/-- An error at the token is located by its span. -/
theorem atToken_eq (h : Cut src t) (cause : SyntaxCause) :
    SyntaxError.atToken cause t = locate src cause t.span := by
  rw [SyntaxError.atToken, h.pos]
  rfl

/-- A position within a token. -/
theorem ofOffset_add (h : Cut src t) {n : Nat} (hn : n ≤ t.text.length) :
    Pos.ofOffset src (t.start + n) = t.pos.advance (t.text.take n) := by
  have htake : (src.drop t.start).take n = t.text.take n := by
    conv_rhs => rw [← h.text]
    rw [List.take_take, Nat.min_eq_left hn]
  rw [Pos.ofOffset_add h.begins, ← h.pos, htake]

end Cut

/-! ## §2 The tokens from a place on -/

/-- Tokens read before stand in front, and change nothing. -/
theorem lexFrom_acc (skip start : Nat) (pos : Pos) (line : AnnotLine) (acc : List Token) (b : Bytes) :
    lexFrom skip start pos line acc b
      = ⟨acc.reverse ++ (lexFrom skip start pos line [] b).tokens,
          (lexFrom skip start pos line [] b).ending⟩ := by
  induction b generalizing skip start pos line acc with
  | nil => simp [lexFrom]
  | cons c r ih =>
    cases skip with
    | succ n =>
      rw [lexFrom, lexFrom]
      exact ih ..
    | zero =>
      rw [lexFrom, lexFrom]
      -- a fault ends the tokens, and so does a broken annotation line
      cases scanToken c r with
      | error f => simp
      | ok x =>
        obtain ⟨kind, extra⟩ := x
        dsimp only
        cases line.next? kind (c :: r.take extra) with
        | none => simp
        | some line' =>
          dsimp only
          rw [ih _ _ _ _ (_ :: acc), ih _ _ _ _ [_]]
          simp

/-- To skip bytes is to begin behind them. -/
theorem lexFrom_skip (skip start : Nat) (pos : Pos) (line : AnnotLine) (acc : List Token) (b : Bytes) :
    lexFrom skip start pos line acc b = lexFrom 0 start pos line acc (b.drop skip) := by
  induction skip generalizing b with
  | zero => rfl
  | succ n ih =>
    cases b with
    | nil => simp [lexFrom]
    | cons c r =>
      rw [lexFrom, ih]
      rfl

namespace Tokens

/-- A place of a source that is not within a character. -/
structure Good (src : Bytes) (k : Tokens) : Prop where
  rest : k.rest = src.drop k.offset
  bound : k.offset ≤ src.length
  valid : Utf8.isValid k.rest = true

/-- The tokens from a place on. -/
def lexed (src : Bytes) (k : Tokens) : Lexed :=
  lexFrom 0 k.offset (Pos.ofOffset src k.offset) k.line [] k.rest

variable {k : Tokens}

/-- A good place begins a character. -/
theorem Good.begins (h : k.Good src) : Utf8.Begins (src.drop k.offset) :=
  h.rest ▸ Utf8.begins_of_isValid h.valid

/-- At the end of the source there is the end of the tokens only. -/
theorem lexed_nil (h : k.rest = []) :
    k.lexed src = ⟨[], .ok ⟨.eof, k.offset, Pos.ofOffset src k.offset, []⟩⟩ := by
  rw [lexed, h]
  rfl

section cons

variable {c : UInt8} {r : Bytes}

/-- The place behind a token. -/
def behind (k : Tokens) (length : Nat) (line : AnnotLine) : Tokens :=
  ⟨k.rest.drop length, k.offset + length, line⟩

/-- Behind a token the place is good again. -/
theorem Good.behind (h : k.Good src) (hrest : k.rest = c :: r) {kind : TokenKind} {extra : Nat}
    (hscan : scanToken c r = .ok (kind, extra)) (line : AnnotLine) :
    (k.behind (extra + 1) line).Good src := by
  have hle := length_of_scanToken hscan
  -- the rest of a valid text is valid where a token ends
  have hvalid := isValid_drop_of_scanToken hscan (hrest ▸ h.valid)
  have hlength := congrArg List.length h.rest
  rw [hrest, List.length_cons, List.length_drop] at hlength
  refine ⟨?_, ?_, ?_⟩
  · rw [Tokens.behind, h.rest, List.drop_drop]
  · have := h.bound
    change k.offset + (extra + 1) ≤ src.length
    omega
  · rwa [Tokens.behind, hrest, List.drop_succ_cons]

/-- Where the scanner fails there are no tokens, and its error. -/
theorem lexed_of_error (h : k.Good src) (hrest : k.rest = c :: r) {f : ScanFault}
    (hscan : scanToken c r = .error f) :
    k.lexed src = ⟨[], .error (locate src f.cause ⟨k.offset + f.offset, f.length⟩)⟩ := by
  rw [lexed, hrest, lexFrom, hscan]
  simp only [List.reverse_nil, locate, Pos.ofOffset_add h.begins, ← h.rest, hrest]

/-- Where an annotation crosses a line, the error of that. -/
theorem lexed_of_split (hrest : k.rest = c :: r) {kind : TokenKind} {extra : Nat}
    (hscan : scanToken c r = .ok (kind, extra))
    (hline : k.line.next? kind (k.rest.take (extra + 1)) = none) :
    k.lexed src = ⟨[], .error (locate src .splitAnnot ⟨k.offset, extra + 1⟩)⟩ := by
  have hle := length_of_scanToken hscan
  rw [hrest, List.take_succ_cons] at hline
  rw [lexed, hrest, lexFrom, hscan]
  simp only [hline, List.reverse_nil, locate, List.length_cons, List.length_take,
    Nat.min_eq_left hle]

/-- Else the token, and what comes behind it. -/
theorem lexed_of_ok (h : k.Good src) (hrest : k.rest = c :: r) {kind : TokenKind} {extra : Nat}
    (hscan : scanToken c r = .ok (kind, extra)) {line : AnnotLine}
    (hline : k.line.next? kind (k.rest.take (extra + 1)) = some line) :
    k.lexed src = ⟨⟨kind, k.offset, Pos.ofOffset src k.offset, k.rest.take (extra + 1)⟩
        :: ((k.behind (extra + 1) line).lexed src).tokens,
      ((k.behind (extra + 1) line).lexed src).ending⟩ := by
  have hle := length_of_scanToken hscan
  have hlength : (k.rest.take (extra + 1)).length = extra + 1 := by
    rw [hrest, List.length_take, List.length_cons]
    omega
  -- the position is counted on along the text of the token
  have hpos : (Pos.ofOffset src k.offset).advance (k.rest.take (extra + 1))
      = Pos.ofOffset src (k.offset + (extra + 1)) := by
    rw [Pos.ofOffset_add h.begins, ← h.rest]
  rw [lexed, lexed, behind]
  rw [show k.rest.take (extra + 1) = c :: r.take extra by rw [hrest, List.take_succ_cons]]
    at hline hlength hpos ⊢
  rw [hrest, lexFrom, hscan]
  simp only [hline, hlength, hpos]
  rw [lexFrom_skip, lexFrom_acc]
  rfl

/-- The token at a place is cut from the source. -/
theorem Good.cut (h : k.Good src) (hrest : k.rest = c :: r) {kind : TokenKind} {extra : Nat}
    (hscan : scanToken c r = .ok (kind, extra)) :
    Cut src ⟨kind, k.offset, Pos.ofOffset src k.offset, k.rest.take (extra + 1)⟩ := by
  have hle := length_of_scanToken hscan
  have hlength := congrArg List.length h.rest
  rw [hrest, List.length_cons, List.length_drop] at hlength
  have htext : k.rest.take (extra + 1) = c :: r.take extra := by rw [hrest, List.take_succ_cons]
  have hlength' : (k.rest.take (extra + 1)).length = extra + 1 := by
    rw [hrest, List.length_take, List.length_cons]
    omega
  refine ⟨?_, ?_, rfl, h.begins, ?_, ?_, ?_⟩
  · -- the scan never takes more than is left
    rw [Token.stop, hlength']
    have := h.bound
    dsimp only
    omega
  · rw [hlength', ← h.rest]
  · exact htext ▸ sound_of_scanToken hscan
  · intro _
    rw [htext]
    exact List.cons_ne_nil _ _
  · intro heof
    exact absurd heof (scanToken_ne_eof hscan)

end cons

/-- The end of a source counts as a token that is cut from it. -/
theorem Good.cut_eof (h : k.Good src) (hrest : k.rest = []) :
    Cut src ⟨.eof, k.offset, Pos.ofOffset src k.offset, []⟩ := by
  -- no byte is left, so the offset is the length
  have hlength : k.offset = src.length := by
    have hlength := congrArg List.length h.rest
    rw [hrest, List.length_nil, List.length_drop] at hlength
    have := h.bound
    omega
  refine ⟨?_, rfl, rfl, h.begins, ⟨?_, ?_⟩, ?_, fun _ => hlength⟩
  · exact hlength.le
  · intro hkind
    cases hkind
  · intro hkind
    cases hkind
  · intro hkind
    cases hkind

end Tokens

/-! ## §3 Contexts that stand at a token -/

/-- What is still to come from a place on. -/
def Upcoming (src : Bytes) (k : Tokens) (rest : List Token) (ending : Except SyntaxError Token) :
    Prop :=
  (k.lexed src).significant = rest ∧ (k.lexed src).ending = ending

/-- A context has the next token of a cursor in hand. -/
structure InHand (src : Bytes) (m : Context) (c : Cursor) (t : Token) : Prop where
  peek : Grammar.peek c = .ok (t, c)
  cut : Cut src t
  kind : m.token.kind = t.kind
  length : m.token.length = t.text.length
  escapes : m.token.escapes = t.text.contains 0x5C
  start : m.offset = t.start
  tail : ∀ r, c.rest = t :: r → Upcoming src m.tokens r c.ending
  eof : c.rest = [] → t.kind = .eof

/-- A context without an error stands where a cursor stands. -/
structure Stands (src : Bytes) (m : Context) (c : Cursor) : Prop where
  source : m.src = src
  error : m.error = none
  within : m.offset + m.token.length ≤ m.tokens.offset
  good : m.tokens.Good src
  ahead : m.loaded = false → Upcoming src m.tokens c.rest c.ending
  hand : m.loaded = true → ∃ t, InHand src m c t

/-- The piece that a context reads goes from one cursor to another. -/
structure Extent (src : Bytes) (first : Cursor) (m : Context) (c : Cursor) : Prop where
  count : m.consumed + c.rest.length = first.rest.length
  none : m.consumed = 0 → c = first ∧ m.start = 0 ∧ m.stop = 0
  some : m.consumed ≠ 0 → ∃ t r, first.rest = t :: r ∧ Cut src t ∧ m.start = t.start ∧ m.stop = c.stop

/-- A context has read a piece from a cursor on and stands where another cursor stands. -/
structure Linked (src : Bytes) (first : Cursor) (m : Context) (c : Cursor) : Prop where
  stands : Stands src m c
  extent : Extent src first m c

/-- A context that is linked and has the next token in hand. -/
structure Holding (src : Bytes) (first : Cursor) (m : Context) (c : Cursor) (t : Token) : Prop
    extends Linked src first m c where
  loaded : m.loaded = true
  hand : InHand src m c t

/-! ## §4 Contexts after an error -/

/-- A context after an error. Nothing is known of the token in hand but that its length from the
offset on has been cut. -/
structure Failed (src : Bytes) (e : SyntaxError) (m : Context) : Prop where
  source : m.src = src
  error : m.error = some e
  within : m.offset + m.token.length ≤ m.tokens.offset
  bound : m.tokens.offset ≤ src.length

/-- A context that records an error has failed with it. -/
theorem Stands.failed {m : Context} {c : Cursor} (h : Stands src m c) (e : SyntaxError) :
    Failed src e { m with error := some e } :=
  ⟨h.source, rfl, h.within, h.good.bound⟩

/-! ## §5 Getting a token -/

variable {m m' : Context} {c first : Cursor} {t : Token}

/-- A step that went through. -/
theorem bind_of_some {α β : Type} {p : Reader α} {k : α → Reader β} {a : α} (h : p m = some (a, m')) :
    (p >>= k) m = k a m' := by
  change (p m).bind _ = _
  rw [h]
  rfl

/-- Reading the context. -/
theorem get_bind {β : Type} (k : Context → Reader β) : (get >>= k) m = k m m := rfl

/-- The end of the source never breaks an annotation line. -/
theorem exists_next?_eof (line : AnnotLine) : ∃ line', line.next? .eof [] = some line' := by
  cases line <;> exact ⟨_, rfl⟩

section next

variable {b : UInt8} {r : Bytes} {kind : TokenKind} {extra : Nat}

/-- At the end of the source the next token is the end. -/
theorem next_nil (hrest : m.tokens.rest = []) :
    ∃ line, next m = some (none, { m with
      token := ⟨.eof, 0, false⟩
      tokens := m.tokens.behind 0 line }) := by
  obtain ⟨line, hline⟩ := exists_next?_eof m.tokens.line
  refine ⟨line, ?_⟩
  -- at the end nothing is scanned
  have hcut : need (if m.tokens.rest.length == 0 then some (.ok (.eof, 0)) else scan m.tokens.rest) m
      = some (.ok (.eof, 0), m) := by
    rw [hrest]
    rfl
  rw [next, get_bind, bind_of_some hcut]
  simp only [List.take_zero, hline]
  rfl

/-- What a scan needs is there, and it is the token or the fault of the scanner. -/
theorem need_scan (hrest : m.tokens.rest = b :: r) (hvalid : Utf8.isValid m.tokens.rest = true) :
    need (if m.tokens.rest.length == 0 then some (.ok (.eof, 0)) else scan m.tokens.rest) m
      = some ((scanToken b r).map whole, m) := by
  rw [hrest] at hvalid ⊢
  rw [if_neg (by simp), scan_eq hvalid]
  rfl

/-- A fault of the scanner is located and handed on. -/
theorem next_of_error (hrest : m.tokens.rest = b :: r) (hvalid : Utf8.isValid m.tokens.rest = true)
    {f : ScanFault} (hscan : scanToken b r = .error f) :
    next m = some (some (locate m.src f.cause ⟨m.tokens.offset + f.offset, f.length⟩), m) := by
  rw [next, get_bind, bind_of_some (need_scan hrest hvalid), hscan]
  rfl

/-- A token is taken over, unless it breaks an annotation line. -/
theorem next_of_ok (hrest : m.tokens.rest = b :: r) (hvalid : Utf8.isValid m.tokens.rest = true)
    (hscan : scanToken b r = .ok (kind, extra)) :
    next m = match m.tokens.line.next? kind (m.tokens.rest.take (extra + 1)) with
      | none => some (some (locate m.src .splitAnnot ⟨m.tokens.offset, extra + 1⟩), { m with
          token := ⟨kind, extra + 1, (m.tokens.rest.take (extra + 1)).contains 0x5C⟩
          tokens := m.tokens.behind (extra + 1) m.tokens.line })
      | some line => some (none, { m with
          token := ⟨kind, extra + 1, (m.tokens.rest.take (extra + 1)).contains 0x5C⟩
          tokens := m.tokens.behind (extra + 1) line }) := by
  rw [next, get_bind, bind_of_some (need_scan hrest hvalid), hscan]
  -- what is left is the line of the annotation, which accepts the token or not
  change (match m.tokens.line.next? kind (m.tokens.rest.take (extra + 1)) with
    | none => _
    | some line => _ : Reader (Option SyntaxError)) m = _
  cases m.tokens.line.next? kind (m.tokens.rest.take (extra + 1)) <;> rfl

end next

/-- Two contexts of one piece between which no token was consumed. -/
structure SameExtent (m m' : Context) : Prop where
  consumed : m'.consumed = m.consumed
  start : m'.start = m.start
  stop : m'.stop = m.stop

/-- The extent of a node depends on what was consumed only. -/
theorem Extent.of_same (h : Extent src first m c) (hm : SameExtent m m') : Extent src first m' c where
  count := by rw [hm.consumed, h.count]
  none hzero := by
    rw [hm.start, hm.stop]
    exact h.none (hm.consumed ▸ hzero)
  some hpos := by
    rw [hm.start, hm.stop]
    exact h.some (hm.consumed ▸ hpos)

/-- Getting the next token of a cursor: it is in hand then, unless there is an error in its place. -/
def Gets (src : Bytes) (c : Cursor) (get : Reader Bool) (m : Context) : Prop :=
  match Grammar.peek c with
  | .error e => ∃ m', get m = some (false, m') ∧ Failed src e m'
  | .ok (t, _) => ∃ m', get m = some (true, m') ∧ Stands src m' c ∧ m'.loaded = true
      ∧ InHand src m' c t ∧ SameExtent m m'

/-- An attempt at a token where the cursor is at its error. -/
theorem gets_of_error {e : SyntaxError} {get : Reader Bool} (hpeek : Grammar.peek c = .error e)
    (hget : get m = some (false, m')) (hm : Failed src e m') : Gets src c get m := by
  rw [Gets, hpeek]
  exact ⟨m', hget, hm⟩

/-- An attempt that has the token in hand. -/
theorem gets_of_ok {get : Reader Bool} (hget : get m = some (true, m')) (hm : Stands src m' c)
    (hloaded : m'.loaded = true) (ht : InHand src m' c t) (hsame : SameExtent m m') :
    Gets src c get m := by
  rw [Gets, ht.peek]
  exact ⟨m', hget, hm, hloaded, ht, hsame⟩

/-- At the end of the tokens their error is seen. -/
theorem peek_of_nil {e : SyntaxError} (hrest : c.rest = []) (hending : c.ending = .error e) :
    Grammar.peek c = .error e := by
  simp only [Grammar.peek, hrest, hending]

/-- Or the end of the source. -/
theorem peek_of_eof (hrest : c.rest = []) (hending : c.ending = .ok t) :
    Grammar.peek c = .ok (t, c) := by
  simp only [Grammar.peek, hrest, hending]

/-- Before that, the next token. -/
theorem peek_of_cons {r : List Token} (hrest : c.rest = t :: r) : Grammar.peek c = .ok (t, c) := by
  simp only [Grammar.peek, hrest]

/-- A token that has just been taken in hand. -/
theorem gets_of_inHand {get : Reader Bool} {k : Tokens} {x : Hand} (h : Stands src m c)
    (hget : get m
      = some (true, { m with token := x, tokens := k, offset := t.start, loaded := true }))
    (hk : k.Good src) (hwithin : t.start + x.length ≤ k.offset)
    (ht : InHand src { m with token := x, tokens := k, offset := t.start, loaded := true } c t) :
    Gets src c get m :=
  gets_of_ok hget
    { source := h.source
      error := h.error
      within := hwithin
      good := hk
      ahead := fun hloaded => by cases hloaded
      -- the token is the one that was read just now
      hand := fun _ => ⟨t, ht⟩ }
    rfl ht ⟨rfl, rfl, rfl⟩

/-- Something may be done first. -/
theorem Gets.of_eq {get get' : Reader Bool} (h : Gets src c get' m') (hget : get m = get' m')
    (hm : SameExtent m m') : Gets src c get m := by
  unfold Gets at h ⊢
  cases hpeek : Grammar.peek c with
  -- both fail alike
  | error e =>
    rw [hpeek] at h
    rwa [hget]
  | ok x =>
    rw [hpeek] at h
    obtain ⟨m₂, hm₂, hstands, hloaded, ht, hsame⟩ := h
    exact ⟨m₂, hget.trans hm₂, hstands, hloaded, ht, hsame.consumed.trans hm.consumed,
      hsame.start.trans hm.start, hsame.stop.trans hm.stop⟩

/-- Blanks and comments are passed over. -/
theorem significant_cons (t : Token) (l : Lexed) :
    (Lexed.mk (t :: l.tokens) l.ending).significant
      = if t.kind.isTrivia then l.significant else t :: l.significant := by
  simp only [Lexed.significant, List.filter_cons, Bool.not_eq_eq_eq_not, Bool.not_true]
  cases t.kind.isTrivia <;> rfl

/-! One pass of the loop that loads a token, by what the scanner finds. -/

section Passes

variable {b : UInt8} {r : Bytes} {kind : TokenKind} {extra : Nat}

/-- At the end the token in hand is empty, and the grammar has no token left. -/
theorem gets_load_nil (h : Stands src m c) (hloaded : m.loaded = false)
    (hrest : m.tokens.rest = []) (fuel : Nat) : Gets src c (load (fuel + 1)) m := by
  obtain ⟨hleft, hending⟩ := h.ahead hloaded
  obtain ⟨line, hnext⟩ := next_nil hrest
  rw [Tokens.lexed_nil hrest] at hleft hending
  refine gets_of_inHand (k := m.tokens.behind 0 line) (x := ⟨.eof, 0, false⟩) h ?_
    ⟨h.good.rest, h.good.bound, h.good.valid⟩ le_rfl
    { peek := peek_of_eof hleft.symm hending.symm
      cut := h.good.cut_eof hrest
      kind := rfl
      length := rfl
      escapes := rfl
      start := rfl
      tail := fun r hr => by cases hleft.trans hr
      eof := fun _ => rfl }
  rw [load, get_bind, bind_of_some hnext]
  rfl

/-- The error of the scanner is that of the reader, at the same place. -/
theorem gets_load_of_error (h : Stands src m c) (hloaded : m.loaded = false)
    (hrest : m.tokens.rest = b :: r) {f : ScanFault} (hscan : scanToken b r = .error f)
    (fuel : Nat) : Gets src c (load (fuel + 1)) m := by
  obtain ⟨hleft, hending⟩ := h.ahead hloaded
  rw [Tokens.lexed_of_error h.good hrest hscan] at hleft hending
  have hnext := next_of_error hrest h.good.valid hscan
  rw [h.source] at hnext
  refine gets_of_error (peek_of_nil hleft.symm hending.symm) ?_ (h.failed _)
  rw [load, get_bind, bind_of_some hnext]
  rfl

theorem Stands.offset_le (h : Stands src m c) (n : Nat) (line : AnnotLine) :
    m.offset + n ≤ (m.tokens.behind n line).offset := by
  have hwithin := h.within
  change m.offset + n ≤ m.tokens.offset + n
  omega

/-- A token may be fine by itself and break an annotation over lines. -/
theorem gets_load_of_split (h : Stands src m c) (hloaded : m.loaded = false)
    (hrest : m.tokens.rest = b :: r) (hscan : scanToken b r = .ok (kind, extra))
    (hline : m.tokens.line.next? kind (m.tokens.rest.take (extra + 1)) = none) (fuel : Nat) :
    Gets src c (load (fuel + 1)) m := by
  obtain ⟨hleft, hending⟩ := h.ahead hloaded
  rw [Tokens.lexed_of_split hrest hscan hline] at hleft hending
  have hnext := next_of_ok hrest h.good.valid hscan
  rw [hline] at hnext
  have hload : load (fuel + 1) m = some (false, { m with
      token := ⟨kind, extra + 1, (m.tokens.rest.take (extra + 1)).contains 0x5C⟩
      tokens := m.tokens.behind (extra + 1) m.tokens.line
      error := some (locate m.src .splitAnnot ⟨m.tokens.offset, extra + 1⟩) }) := by
    rw [load, get_bind, bind_of_some hnext]
    rfl
  exact gets_of_error (peek_of_nil hleft.symm hending.symm) hload
    ⟨h.source, by rw [h.source], h.offset_le _ _, (h.good.behind hrest hscan _).bound⟩

section Accepted

variable {line : AnnotLine} (h : Stands src m c) (hloaded : m.loaded = false)
  (hrest : m.tokens.rest = b :: r) (hscan : scanToken b r = .ok (kind, extra))
  (hline : m.tokens.line.next? kind (m.tokens.rest.take (extra + 1)) = some line)

include h hloaded hrest hscan hline

/-- The next significant token is then in hand. -/
theorem gets_load_of_significant (hsignificant : kind.isTrivia = false) (fuel : Nat) :
    Gets src c (load (fuel + 1)) m := by
  obtain ⟨hleft, hending⟩ := h.ahead hloaded
  rw [Tokens.lexed_of_ok h.good hrest hscan hline] at hleft hending
  rw [significant_cons, hsignificant, if_neg (by simp)] at hleft
  have hnext := next_of_ok hrest h.good.valid hscan
  rw [hline] at hnext
  have hlength := length_of_scanToken hscan
  refine gets_of_inHand (k := m.tokens.behind (extra + 1) line)
    (x := ⟨kind, extra + 1, (m.tokens.rest.take (extra + 1)).contains 0x5C⟩) h ?_
    (h.good.behind hrest hscan line) le_rfl
    { peek := peek_of_cons hleft.symm
      cut := h.good.cut hrest hscan
      kind := rfl
      length := ?_
      escapes := rfl
      start := rfl
      tail := fun r hr => ⟨(List.cons.inj (hleft.trans hr)).2, hending⟩
      eof := fun hnil => by cases hleft.trans hnil }
  · rw [load, get_bind, bind_of_some hnext]
    change (if kind.isTrivia then load fuel else _) _ = _
    rw [hsignificant, if_neg (by simp)]
    rfl
  · change extra + 1 = (m.tokens.rest.take (extra + 1)).length
    rw [hrest, List.length_take, List.length_cons]
    omega

/-- A blank or a comment is skipped, and the offset stays where it was. -/
theorem gets_load_of_trivia (htrivia : kind.isTrivia = true) {fuel : Nat}
    (hload : ∀ m' : Context, m'.tokens = m.tokens.behind (extra + 1) line → Stands src m' c →
      m'.loaded = false → Gets src c (load fuel) m') : Gets src c (load (fuel + 1)) m := by
  obtain ⟨hleft, hending⟩ := h.ahead hloaded
  rw [Tokens.lexed_of_ok h.good hrest hscan hline] at hleft hending
  rw [significant_cons, htrivia, if_pos rfl] at hleft
  have hnext := next_of_ok hrest h.good.valid hscan
  rw [hline] at hnext
  let m' : Context := { m with
    token := ⟨kind, extra + 1, (m.tokens.rest.take (extra + 1)).contains 0x5C⟩
    tokens := m.tokens.behind (extra + 1) line }
  have hstands : Stands src m' c :=
    ⟨h.source, h.error, h.offset_le _ _, h.good.behind hrest hscan line,
      fun _ => ⟨hleft, hending⟩, fun hyes => absurd (hloaded.symm.trans hyes) Bool.false_ne_true⟩
  refine (hload m' rfl hstands hloaded).of_eq ?_ ⟨rfl, rfl, rfl⟩
  rw [load, get_bind, bind_of_some hnext]
  change (if kind.isTrivia then load fuel else _) _ = _
  rw [htrivia, if_pos rfl]

end Accepted

end Passes

/-- Tokens are taken until one is significant, of which there are enough octets. -/
theorem gets_load {fuel : Nat} (hfuel : m.tokens.rest.length < fuel) (h : Stands src m c)
    (hloaded : m.loaded = false) : Gets src c (load fuel) m := by
  -- on the fuel: each pass takes at least one octet off what is left
  induction fuel generalizing m with
  | zero => omega
  | succ fuel ih =>
    cases hrest : m.tokens.rest with
    | nil => exact gets_load_nil h hloaded hrest fuel
    | cons b r =>
      cases hscan : scanToken b r with
      | error f => exact gets_load_of_error h hloaded hrest hscan fuel
      | ok x =>
        obtain ⟨kind, extra⟩ := x
        cases hline : m.tokens.line.next? kind (m.tokens.rest.take (extra + 1)) with
        | none => exact gets_load_of_split h hloaded hrest hscan hline fuel
        | some line =>
          cases htrivia : kind.isTrivia with
          | false => exact gets_load_of_significant h hloaded hrest hscan hline htrivia fuel
          | true =>
            refine gets_load_of_trivia h hloaded hrest hscan hline htrivia fun m' htokens => ?_
            refine ih ?_
            rw [htokens, Tokens.behind, List.length_drop]
            rw [hrest, List.length_cons] at hfuel ⊢
            omega

/-- The context gets the token that the cursor sees. -/
theorem gets_ensureToken (h : Stands src m c) : Gets src c ensureToken m := by
  cases hloaded : m.loaded with
  | true =>
    obtain ⟨t, ht⟩ := h.hand hloaded
    refine gets_of_ok ?_ h hloaded ht ⟨rfl, rfl, rfl⟩
    rw [ensureToken, get_bind, h.error, hloaded]
    rfl
  | false =>
    refine (gets_load (Nat.lt_succ_self _) h hloaded).of_eq ?_ ⟨rfl, rfl, rfl⟩
    rw [ensureToken, get_bind, h.error, hloaded]
    rfl

/-! ## §6 The token in hand -/

namespace Holding

/-- The kind of the token in hand. -/
theorem kind_eq (h : Holding src first m c t) : kind m = some (t.kind, m) := by
  rw [← h.hand.kind]
  rfl

/-- Its span. -/
theorem tokenSpan_eq (h : Holding src first m c t) : tokenSpan m = some (t.span, m) := by
  rw [Token.span, ← h.hand.start, ← h.hand.length]
  rfl

/-- Whether it holds a backslash. -/
theorem escapes_eq (h : Holding src first m c t) :
    escapes m = some (t.text.contains 0x5C, m) := by
  rw [← h.hand.escapes]
  rfl

/-- Its text. -/
theorem readToken_eq (h : Holding src first m c t) : readToken m = some (t.text, m) := by
  rw [readToken, get_bind, need, h.stands.source, h.hand.start, h.hand.length, h.hand.cut.slice]
  rfl

/-- Its place. -/
theorem tokenLoc_eq (h : Holding src first m c t) : tokenLoc m = some (t.loc, m) := by
  have hbound := h.hand.cut.bound
  rw [Token.stop] at hbound
  have hslice := slice?_eq (b := src) (Nat.zero_le t.start) (by omega)
  have hpos : posOf t.span.start m = some (Pos.ofOffset src t.start, m) := by
    rw [posOf, get_bind, h.stands.source, Token.span, hslice]
    rfl
  rw [tokenLoc, bind_of_some h.tokenSpan_eq, bind_of_some hpos, h.hand.cut.loc_eq]
  rfl

/-- A token in hand that is not the end is the next of the tokens left. -/
theorem exists_rest (h : Holding src first m c t) (hkind : t.kind ≠ .eof) : ∃ r, c.rest = t :: r := by
  have hpeek := h.hand.peek
  cases hrest : c.rest with
  | nil => exact absurd (h.hand.eof hrest) hkind
  | cons u r =>
    rw [peek_of_cons hrest] at hpeek
    cases hpeek
    exact ⟨r, rfl⟩

/-- The cursor moves past it. -/
theorem advance_eq {r : List Token} (hrest : c.rest = t :: r) :
    Grammar.advance c = .ok ((), ⟨r, c.ending, t.stop⟩) := by
  simp only [Grammar.advance, hrest]

/-- So does the context, which counts it. -/
theorem consumeToken_eq (h : Holding src first m c t) {r : List Token} (hrest : c.rest = t :: r) :
    ∃ m', consumeToken m = some ((), m') ∧ Linked src first m' ⟨r, c.ending, t.stop⟩
      ∧ m'.consumed = m.consumed + 1 := by
  have hcount := h.extent.count
  rw [hrest, List.length_cons] at hcount
  refine ⟨_, rfl, ⟨?_, ?_⟩, rfl⟩
  · -- the context stands behind the token, with nothing loaded
    exact {
      source := h.stands.source
      error := h.stands.error
      within := h.stands.within
      good := h.stands.good
      ahead := fun _ => h.hand.tail r hrest
      hand := fun hloaded => by cases hloaded }
  · -- one more token has been consumed, so the node has an extent
    refine ⟨?_, fun hzero => absurd hzero (Nat.succ_ne_zero _), fun _ => ?_⟩
    · change m.consumed + 1 + r.length = _
      omega
    · have hstop : m.offset + m.token.length = t.stop := by
        rw [h.hand.start, h.hand.length]
        rfl
      by_cases hzero : m.consumed = 0
      · -- it is the first one: the node begins here
        obtain ⟨rfl, -⟩ := h.extent.none hzero
        exact ⟨t, r, hrest, h.hand.cut, (if_pos hzero).trans h.hand.start, hstop⟩
      · -- it began earlier
        obtain ⟨u, q, hfirst, hcut, hstart, -⟩ := h.extent.some hzero
        exact ⟨u, q, hfirst, hcut, (if_neg hzero).trans hstart, hstop⟩

end Holding

/-- A failure at a span is recorded where the span is located. -/
theorem Linked.fail_eq (h : Linked src first m c) (cause : SyntaxCause) (span : Span) :
    ∃ m', fail cause span m = some ((), m') ∧ Failed src (locate src cause span) m' := by
  refine ⟨_, rfl, h.stands.source, ?_, h.stands.within, h.stands.good.bound⟩
  change some (m.error.getD _) = _
  rw [h.stands.error, h.stands.source]
  rfl

/-- A failure at the token in hand is the one of the grammar. -/
theorem Holding.failHere_eq (h : Holding src first m c t)
    (cause : TokenKind → Bytes → SyntaxCause) :
    ∃ m', failHere cause m = some ((), m')
      ∧ Failed src (.atToken (cause t.kind t.text) t) m' := by
  obtain ⟨m', hfail, hm'⟩ := h.toLinked.fail_eq (cause t.kind t.text) t.span
  refine ⟨m', ?_, h.hand.cut.atToken_eq _ ▸ hm'⟩
  rw [failHere, bind_of_some h.kind_eq, bind_of_some h.readToken_eq, bind_of_some h.tokenSpan_eq,
    hfail]

end Idl.Reader
