import Idl.Bindings.Template

/-!
# Reading templates

Actions stand between double braces. A minus sign at an end of an action, with a blank between it
and the rest, removes the blanks of the text beyond.

* §1 pieces of an action, §2 texts and actions, §3 expressions, §4 templates.
-/

namespace Idl.Template

/-! ## §1 Pieces -/

/-- A piece of an action. -/
inductive Piece where
  /-- A path of fields, from the data at hand or from those of the whole template. -/
  | path (fromRoot : Bool) (names : List Bytes)
  | word (w : Bytes)
  | literal (t : Bytes)
  | bar
deriving DecidableEq, Repr

/-- The blanks between pieces, which are also those that a minus sign removes. -/
def isGap (b : UInt8) : Bool := b == 0x20 || b == 0x09 || b == 0x0A || b == 0x0D

/-- The text of a quoted literal and how many octets there are up to its end; `skip` octets belong
to an escape. -/
def quotedText (n : Nat) (acc : Bytes) : (escaped : Bool) → Bytes → Option (Bytes × Nat)
  | _, [] => none
  | true, c :: r =>
    if c == 0x6E then quotedText (n + 1) (0x0A :: acc) false r
    else if c == 0x74 then quotedText (n + 1) (0x09 :: acc) false r
    else if c == 0x22 || c == 0x5C then quotedText (n + 1) (c :: acc) false r
    else none
  | false, c :: r =>
    if c == 0x22 then some (acc.reverse, n + 1)
    else if c == 0x5C then quotedText (n + 1) acc true r
    else if c == 0x0A then none
    else quotedText (n + 1) (c :: acc) false r

/-- The names of a path, which are joined by points, and how many octets they take. -/
def pathAfter (b : Bytes) : List Bytes × Nat :=
  let run := b.takeWhile fun c => Bytes.isWord c || c == 0x2E
  if run.isEmpty then ([], 0) else (Bytes.split 0x2E run, run.length)

/-- The piece that starts with an octet, and how many of the octets after it belong to it. -/
def pieceAt? (c : UInt8) (r : Bytes) : Option (Piece × Nat) :=
  if c == 0x2E then
    let (names, n) := pathAfter r
    if names.contains [] then none else some (.path false names, n)
  else if c == 0x24 then
    match r with
    | 0x2E :: r =>
      let (names, n) := pathAfter r
      if names.isEmpty || names.contains [] then none else some (.path true names, n + 1)
    | r => if r.head?.any Bytes.isWord then none else some (.path true [], 0)
  else if c == 0x22 then (quotedText 0 [] false r).map fun (t, n) => (.literal t, n)
  else if c == 0x60 then
    let t := r.takeWhile (· != 0x60)
    if t.length == r.length then none else some (.literal t, t.length + 1)
  else if c == 0x7C then some (.bar, 0)
  else if Bytes.isLetter c then
    let w := r.takeWhile Bytes.isWord
    some (.word (c :: w), w.length)
  else none

/-- An action: its pieces, whether it removes the blanks after it, and how long it is. -/
structure Action where
  pieces : List Piece
  trimAfter : Bool
  length : Nat

/-- Reads the pieces of an action up to its end; `n` octets have been read, and `skip` more belong
to the last piece. -/
def piecesOnto (n : Nat) (acc : List Piece) : (skip : Nat) → Bytes → Option Action
  | _, [] => none
  | skip + 1, _ :: r => piecesOnto (n + 1) acc skip r
  | 0, c :: r =>
    if c == 0x7D && r.head? == some 0x7D then some ⟨acc.reverse, false, n + 2⟩
    else if isGap c then
      if r.take 3 == [0x2D, 0x7D, 0x7D] then some ⟨acc.reverse, true, n + 4⟩
      else piecesOnto (n + 1) acc 0 r
    else match pieceAt? c r with
      | none => none
      | some (p, k) => piecesOnto (n + 1) (p :: acc) k r

/-- A remark, which is an action without pieces. -/
def remark? (b : Bytes) : Option Action := do
  guard (Bytes.startsWith b "/*")
  let stop ← Bytes.indexOf? b "*/"
  let a ← piecesOnto 0 [] 0 (b.drop (stop + 2))
  guard a.pieces.isEmpty
  return { a with length := a.length + stop + 2 }

/-! ## §2 Texts and actions -/

/-- A part of the text of a template. -/
inductive Item where
  | text (t : Bytes)
  | action (pieces : List Piece)

/-- The text before an action, without the blanks that the action removes. -/
def textItem (trimBefore : Bool) (reversed : Bytes) : Item :=
  .text (if trimBefore then reversed.dropWhile isGap else reversed).reverse

/-- Cuts a text into texts and actions. The text so far is reversed; `trimming` says that blanks are
being removed after an action. -/
def itemsOnto (trimming : Bool) (text : Bytes) (acc : List Item) :
    (skip : Nat) → Bytes → Option (List Item)
  | _, [] => some (textItem false text :: acc).reverse
  | skip + 1, _ :: r => itemsOnto trimming text acc skip r
  | 0, c :: r =>
    if c == 0x7B && r.head? == some 0x7B then
      let inside := r.drop 1
      let trimBefore := inside.head? == some 0x2D && (inside.drop 1).head?.any isGap
      let lead := if trimBefore then 2 else 0
      let inside := inside.drop lead
      match (remark? inside).orElse fun _ => piecesOnto 0 [] 0 inside with
      | none => none
      | some a =>
        let item : List Item := if Bytes.startsWith inside "/*" then [] else [.action a.pieces]
        itemsOnto a.trimAfter [] (item ++ textItem trimBefore text :: acc) (a.length + lead + 1) r
    else if trimming && isGap c then itemsOnto true text acc 0 r
    else itemsOnto false (c :: text) acc 0 r

/-! ## §3 Expressions -/

/-- The function of a name. -/
def Function.ofName? (name : Bytes) : Option Function :=
  if name == "quote" then some .quote
  else if name == "pascal" then some .pascal
  else if name == "camel" then some .camel
  else if name == "snake" then some .snake
  else if name == "comment" then some .comment
  else if name == "join" then some .join
  else none

/-- A piece that is an expression by itself. -/
def operand? : Piece → Option Expr
  | .path true names => some (.root names)
  | .path false names => some (.here names)
  | .literal t => some (.literal t)
  | _ => none

/-- The pieces between bars. -/
def splitBars (l : List Piece) : List (List Piece) :=
  l.foldr (fun p acc => match p, acc with
    | .bar, acc => [] :: acc
    | p, first :: r => (p :: first) :: r
    | p, [] => [[p]]) [[]]

/-- A call, or an operand by itself; the value of what stands before the bar is the last argument.
-/
def command? (before : Option Expr) : List Piece → Option Expr
  | .word w :: args => do
    let f ← Function.ofName? w
    let args ← args.mapM operand?
    return .call f (args ++ before.toList)
  | [p] => if before.isNone then operand? p else none
  | _ => none

/-- The expression that pieces spell. -/
def expr? (l : List Piece) : Option Expr := do
  let commands := splitBars l
  let value ← commands.foldlM (fun before c => some <$> command? before c) none
  value

/-! ## §4 Templates -/

/-- A part that has been opened. -/
inductive Opened where
  | define (name : Bytes)
  | cond (e : Expr)
  | each (e : Expr)
  | about (e : Expr)

/-- A part that has been opened, with what stood before it and, after an `else`, its first half. -/
structure Frame where
  opened : Opened
  outer : List Node
  first : Option (List Node)

/-- What has been read: the parts that are open, the nodes of the innermost one in reverse, and the
templates that are complete. -/
structure Reading where
  frames : List Frame
  nodes : List Node
  done : Library

namespace Reading

/-- Adds a complete template. Of two with one name, one has to be blank. -/
def define (r : Reading) (name : Bytes) (body : List Node) : Option Reading :=
  match r.done.get? name with
  | none => some { r with done := (name, body) :: r.done }
  | some old =>
    if old.all Node.isBlank then some { r with done := (name, body) :: r.done }
    else if body.all Node.isBlank then some r
    else none

/-- Opens a part. -/
def push (r : Reading) (o : Opened) : Reading :=
  { r with frames := ⟨o, r.nodes, none⟩ :: r.frames, nodes := [] }

/-- Closes the innermost part. -/
def close (r : Reading) : Option Reading :=
  match r.frames with
  | [] => none
  | f :: frames =>
    let inner := r.nodes.reverse
    let (body, otherwise) := match f.first with
      | none => (inner, [])
      | some first => (first, inner)
    let put (n : Node) : Option Reading := some { r with frames, nodes := n :: f.outer }
    match f.opened with
    | .define name =>
      if f.first.isSome then none else { r with frames, nodes := f.outer }.define name inner
    | .cond e => put (.cond e body otherwise)
    | .each e => put (.each e body otherwise)
    | .about e => put (.about e body otherwise)

/-- Goes on to the second half of the innermost part. -/
def turn (r : Reading) : Option Reading :=
  match r.frames with
  | f :: frames =>
    if f.first.isSome then none
    else some { r with frames := { f with first := some r.nodes.reverse } :: frames, nodes := [] }
  | [] => none

/-- Reads one item. -/
def step (r : Reading) : Item → Option Reading
  | .text t => some (if t.isEmpty then r else { r with nodes := .text t :: r.nodes })
  | .action [] => none
  | .action (.word w :: args) =>
    if w == "define" then
      match args with
      | [.literal name] => if r.frames.isEmpty then some (r.push (.define name)) else none
      | _ => none
    else if w == "end" then if args.isEmpty then r.close else none
    else if w == "else" then if args.isEmpty then r.turn else none
    else if w == "if" then (expr? args).map fun e => r.push (.cond e)
    else if w == "range" then (expr? args).map fun e => r.push (.each e)
    else if w == "with" then (expr? args).map fun e => r.push (.about e)
    else if w == "template" then
      match args with
      | [.literal name] => some { r with nodes := .use name .nothing :: r.nodes }
      | .literal name :: args =>
        (expr? args).map fun e => { r with nodes := .use name e :: r.nodes }
      | _ => none
    else (expr? (.word w :: args)).map fun e => { r with nodes := .value e :: r.nodes }
  | .action pieces => (expr? pieces).map fun e => { r with nodes := .value e :: r.nodes }

end Reading

/-- The templates in a text: those that it defines, and the rest under the name of the text. -/
def read? (name text : Bytes) : Option Library := do
  let items ← itemsOnto false [] [] 0 text
  let r ← items.foldlM Reading.step ⟨[], [], []⟩
  guard r.frames.isEmpty
  let r ← r.define name r.nodes.reverse
  return r.done

/-- Adds the templates in a text to a library. -/
def Library.overlay? (l : Library) (name text : Bytes) : Option Library := do
  return (← read? name text).reverse.foldl (fun l (n, body) => l.add n body) l

end Idl.Template
