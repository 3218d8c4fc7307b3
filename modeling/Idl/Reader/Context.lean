import Idl.Reader.Octets
import Idl.Tree.Parse

/-!
# A reader with one token in hand

This reader keeps the source, the place where the next token is cut, and one token in hand by its
kind, offset and length. The first error is kept, and the reading goes on with parts that are
missing, until the piece that is being read is finished and found to have failed. What ends the
whole program is `none`: an octet or a slice out of bounds, a sigil without an error of its own, a
node with a part missing, and a loop that is not over when it should be.

* §1 contexts, §2 the next token,
* §3 single tokens,
* §4 pieces within pieces.
-/

namespace Idl

namespace Reader

/-! ## §1 Contexts -/

/-- Where the next token is cut: the octets from there on, their offset, and how far an annotation
has got. -/
structure Tokens where
  rest : Bytes
  offset : Nat
  line : AnnotLine

/-- A token without its text: its kind, its length, and whether there is a backslash in it. -/
structure Hand where
  kind : TokenKind
  length : Nat
  escapes : Bool

/-- All that the reader knows while it reads one piece: the source, the token in hand with its
offset, unless it is consumed, the first error, and the number and extent of the tokens of the
piece. -/
structure Context where
  src : Bytes
  tokens : Tokens
  loaded : Bool := false
  token : Hand := ⟨.eof, 0, false⟩
  offset : Nat := 0
  error : Option SyntaxError := none
  consumed : Nat := 0
  start : Nat := 0
  stop : Nat := 0

end Reader

/-- A part of the reader. -/
abbrev Reader := StateT Reader.Context Option

namespace Reader

/-- The end of the program. -/
def crash {α : Type} : Reader α := fun _ => none

/-- Something that has to be there. -/
def need {α : Type} (a? : Option α) : Reader α := fun m => a?.map fun a => (a, m)

/-! ## §2 The next token -/

/-- Takes the next token in hand, whatever it is. Where no token can be cut, the one in hand stays;
where a token breaks the line of an annotation, that token is in hand. -/
def next : Reader (Option SyntaxError) := do
  let m ← get
  let cut ← need (if m.tokens.rest.length == 0 then some (.ok (.eof, 0)) else scan m.tokens.rest)
  match cut with
  | .error f => return some (locate m.src f.cause ⟨m.tokens.offset + f.offset, f.length⟩)
  | .ok (kind, length) =>
    let text := m.tokens.rest.take length
    let token : Hand := ⟨kind, length, text.contains 0x5C⟩
    let tokens : Tokens := ⟨m.tokens.rest.drop length, m.tokens.offset + length, m.tokens.line⟩
    match m.tokens.line.next? kind text with
    | none =>
      set { m with token, tokens }
      return some (locate m.src .splitAnnot ⟨m.tokens.offset, length⟩)
    | some line =>
      set { m with token, tokens := { tokens with line } }
      return none

/-- Takes tokens until one is significant, after fewer of them than the number says. The offset is
noted only then. -/
def load : Nat → Reader Bool
  | 0 => crash
  | fuel + 1 => do
    let offset := (← get).tokens.offset
    match ← next with
    | some e =>
      modify fun m => { m with error := some e }
      return false
    | none =>
      if (← get).token.kind.isTrivia then load fuel
      else
        modify fun m => { m with offset, loaded := true }
        return true

/-- Sees to it that a significant token is in hand, which fails after an error. -/
def ensureToken : Reader Bool := do
  let m ← get
  if m.error.isSome then return false
  else if m.loaded then return true
  else load (m.tokens.rest.length + 1)

/-! ## §3 Single tokens -/

/-- The kind of the token in hand. -/
def kind : Reader TokenKind := return (← get).token.kind

/-- The octets from the offset on that the token in hand covers. -/
def readToken : Reader Bytes := do
  let m ← get
  need (slice? m.src m.offset (m.offset + m.token.length))

/-- The span of the token in hand. -/
def tokenSpan : Reader Span := do
  let m ← get
  return ⟨m.offset, m.token.length⟩

/-- The position of an offset of the source. -/
def posOf (offset : Nat) : Reader Pos := do
  let m ← get
  let _ ← need (slice? m.src 0 offset)
  return Pos.ofOffset m.src offset

/-- Where the token in hand stands. -/
def tokenLoc : Reader Loc := do
  let span ← tokenSpan
  let pos ← posOf span.start
  return ⟨span, pos⟩

/-- Makes the token in hand part of the piece. -/
def consumeToken : Reader Unit := modify fun m =>
  { m with
    start := if m.consumed = 0 then m.offset else m.start
    consumed := m.consumed + 1
    stop := m.offset + m.token.length
    loaded := false }

/-- Whether there is an error. -/
def failed : Reader Bool := return (← get).error.isSome

/-- Keeps an error, if it is the first. -/
def fail (cause : SyntaxCause) (span : Span) : Reader Unit := modify fun m =>
  { m with error := some (m.error.getD (locate m.src cause span)) }

/-- Whether the next token is of a kind. -/
def peek (want : TokenKind) : Reader Bool := do
  if ← ensureToken then return (← kind) == want else return false

/-- The next token, if it is a name; empty otherwise. -/
def peekKeyword : Reader Bytes := do
  if ← ensureToken then
    if (← kind) == .ident then readToken else return []
  else return []

/-- The sigils whose absence is an error of its own. -/
def expectedSigil? : TokenKind → Option Sigil
  | .atSign => some .atSign
  | .dot => some .dot
  | .eq => some .eq
  | .comma => some .comma
  | .semicolon => some .semicolon
  | .openCurl => some .openCurl
  | .closeCurl => some .closeCurl
  | .openParen => some .openParen
  | .closeParen => some .closeParen
  | .gt => some .gt
  | _ => none

/-- Keeps the error that something else stands here; `cause` is given its kind and its text. -/
def failHere (cause : TokenKind → Bytes → SyntaxCause) : Reader Unit := do
  let kind ← kind
  let text ← readToken
  fail (cause kind text) (← tokenSpan)

/-- Consumes a sigil that has to be there. -/
def sigil (want : TokenKind) : Reader Unit := do
  if ← ensureToken then
    if (← kind) == want then consumeToken
    else
      let s ← need (expectedSigil? want)
      failHere (.missingSigil s)
  else return ()

/-- Consumes the next token if it is of a kind. -/
def trySigil (want : TokenKind) : Reader Bool := do
  if ← peek want then
    consumeToken
    return true
  else return false

/-- Consumes the next token if it is a word, and tells where it stands. -/
def tryKeyword (word : Bytes) : Reader (Option Loc) := do
  if (← peekKeyword) == word then
    let loc ← tokenLoc
    consumeToken
    return some loc
  else return none

/-- A name of one component. -/
def ident : Reader (Option Tree.Ident) := do
  if ← ensureToken then
    let text ← readToken
    if (← kind) == .ident then
      let loc ← tokenLoc
      consumeToken
      return some ⟨loc, text⟩
    else
      failHere (.expected .ident)
      return none
  else return none

/-- An integer literal. -/
def int : Reader (Option Tree.IntLit) := do
  if ← ensureToken then
    let text ← readToken
    let kind ← kind
    if kind.isInteger then
      (← need (intValue? kind text)).elim
        (do
          failHere fun _ text => .intOutOfRange text
          return none)
        fun value => do
          let loc ← tokenLoc
          consumeToken
          return some ⟨loc, text, value⟩
    else
      failHere (.expected .intLit)
      return none
  else return none

/-- Whether there is a backslash in the token in hand. -/
def escapes : Reader Bool := return (← get).token.escapes

/-- A text literal. -/
def text : Reader (Option Tree.TextLit) := do
  if ← ensureToken then
    let text ← readToken
    if (← kind) == .textLit then
      match ← need (textValue? text (← escapes)) with
      | .ok value =>
        let loc ← tokenLoc
        consumeToken
        return some ⟨loc, text, value⟩
      | .error (offset, bad) =>
        let span ← tokenSpan
        fail (.badEscape bad) ⟨span.start + offset, bad.length⟩
        return none
    else
      failHere (.expected .textLit)
      return none
  else return none

/-- Keeps the error that a construct is left out on purpose. -/
def unsupported (feature : Feature) : Reader Unit := do
  if ← ensureToken then failHere fun _ text => .unsupported feature text
  else return ()

/-! ## §4 Pieces -/

/-- What reading a piece comes to: the piece, an error, or neither. -/
abbrev Piece (α : Type) := Option α × Option SyntaxError

/-- Ends a piece with its error, if it has one. -/
def abort {α : Type} : Reader (Piece α) := return (none, (← get).error)

/-- Ends a piece and makes its node, of which no part may be missing. -/
def finish {α : Type} (build : Loc → Option α) : Reader (Piece α) := do
  let m ← get
  if m.error.isSome then return (none, m.error)
  else
    let pos ← posOf m.start
    let node ← need (build ⟨.between m.start m.stop, pos⟩)
    return (some node, none)

/-- Reads a piece within a piece, from the token in hand on. It counts only if it has a token. -/
def child {α : Type} (piece : Reader (Piece α)) : Reader (Option α) := do
  let m ← get
  if m.error.isSome then return none
  else
    set { m with consumed := 0, start := 0, stop := 0 }
    let (node, error) ← piece
    let c ← get
    let m := { m with tokens := c.tokens, loaded := c.loaded, token := c.token, offset := c.offset }
    if error.isSome then
      set { m with error }
      return none
    else if node.isNone || c.consumed == 0 then
      set m
      return none
    else
      set { m with
        start := if m.consumed = 0 then c.start else m.start
        consumed := m.consumed + c.consumed
        stop := c.stop }
      return node

/-- Repeats a step until it ends the loop, fails or consumes nothing, in fewer steps than the number
says. -/
def loopFrom {σ : Type} (step : σ → Reader (σ × Bool)) : Nat → σ → Reader σ
  | 0, _ => crash
  | fuel + 1, s => do
    let consumed := (← get).consumed
    let (s, more) ← step s
    let m ← get
    if !more || m.error.isSome || m.consumed == consumed then return s else loopFrom step fuel s

/-- Repeats a step, which is not done after an error. A source has no more tokens than octets, and one
step may find that there are none. -/
def loop {σ : Type} (step : σ → Reader (σ × Bool)) (s : σ) : Reader σ := do
  let m ← get
  if m.error.isSome then return s else loopFrom step (m.src.length + 2) s

end Reader

end Idl
