import Idl.Bindings.GoView

/-!
# The layout of Go sources

A rendered file is brought into the standard layout of its language: columns in structs are aligned,
blank lines separate declarations, and documentation is tidied. What is not a source file at all is
refused.

* §1 tokens, §2 logical lines, §3 the parts of a file, §4 documentation and blank lines, §5 columns.
-/

namespace Idl.GoLayout

open GoView (isNameStart isNamePart isIdentifier keywords)

/-! ## §1 Tokens -/

/-- A token. -/
inductive Tok where
  | word (t : List Char)
  | number (t : List Char)
  /-- A text or a character in any quotes. -/
  | literal (t : List Char)
  | symbol (c : Char)
  | comment (t : List Char)
deriving DecidableEq, Repr

/-- The text of a token. -/
def Tok.text : Tok → List Char
  | .word t | .number t | .literal t | .comment t => t
  | .symbol c => [c]

/-- Whether a token is a certain word. -/
def Tok.isWord (w : Bytes) : Tok → Bool
  | .word t => Utf8.ofChars t == w
  | _ => false

/-- Whether a token is a name that can be declared. -/
def Tok.isName : Tok → Bool
  | .word t => !keywords.contains (Utf8.ofChars t)
  | _ => false

/-- The characters that are tokens or parts of operators. -/
def symbols : List Char :=
  ['+', '-', '*', '/', '%', '&', '|', '^', '<', '>', '=', '!', '(', ')', '[', ']', Char.ofNat 0x7B,
   Char.ofNat 0x7D, ',', ';', '.', ':', '~']

/-- How many characters there are up to the end of a quoted text, which stays on one line. -/
def quotedLength (q : Char) (n : Nat) : (escaped : Bool) → List Char → Option Nat
  | _, [] => none
  | true, _ :: r => quotedLength q (n + 1) false r
  | false, c :: r =>
    if c == q then some (n + 1)
    else if c == '\n' then none
    else quotedLength q (n + 1) (c == '\\') r

/-- How many characters there are up to the end of a remark that may take several lines. -/
def remarkLength (n : Nat) : List Char → Option Nat
  | '*' :: '/' :: _ => some (n + 2)
  | _ :: r => remarkLength (n + 1) r
  | [] => none

/-- The token that starts with a character, and how many characters after it belong to it. -/
def tokenAt? (c : Char) (r : List Char) : Option (Tok × Nat) :=
  if isNameStart c then
    let t := r.takeWhile isNamePart
    some (.word (c :: t), t.length)
  else if isDecimalDigit c then
    let t := r.takeWhile fun c => isNamePart c || c == '.'
    some (.number (c :: t), t.length)
  else if c == '"' || c.toNat == 0x27 then
    (quotedLength c 0 false r).map fun n => (.literal (c :: r.take n), n)
  else if c.toNat == 0x60 then
    let t := r.takeWhile (· != c)
    if t.length == r.length then none else some (.literal (c :: t ++ [c]), t.length + 1)
  else if c == '/' && r.head? == some '/' then
    let t := r.takeWhile (· != '\n')
    some (.comment (c :: t), t.length)
  else if c == '/' && r.head? == some '*' then
    (remarkLength 1 (r.drop 1)).map fun n => (.comment (c :: r.take n), n)
  else if symbols.contains c then some (.symbol c, 0)
  else none

/-! ## §2 Logical lines -/

/-- A line with its tokens; a token may go over the end of a line. -/
structure Line where
  text : List Char
  tokens : List Tok
deriving Repr

/-- A text without the blanks at its end. -/
def trimEnd (t : List Char) : List Char := (t.reverse.dropWhile isSpace).reverse

/-- Cuts a text into lines; `text` and `tokens` are those of the line so far, in reverse. -/
def linesOnto (text : List Char) (tokens : List Tok) (acc : List Line) :
    (skip : Nat) → List Char → Option (List Line)
  | _, [] => some (⟨trimEnd text.reverse, tokens.reverse⟩ :: acc).reverse
  | skip + 1, c :: r => linesOnto (c :: text) tokens acc skip r
  | 0, c :: r =>
    if c == '\n' then linesOnto [] [] (⟨trimEnd text.reverse, tokens.reverse⟩ :: acc) 0 r
    else if c == ' ' || c == '\t' then linesOnto (c :: text) tokens acc 0 r
    else match tokenAt? c r with
      | none => none
      | some (t, n) => linesOnto (c :: text) (t :: tokens) acc n r

/-- The lines of a text. Carriage returns do not count; a zero character and a byte order mark are
not allowed. -/
def lines? (text : Bytes) : Option (List Line) :=
  let chars := Utf8.chars text
  if !Utf8.isValid text || chars.any (fun c => c.toNat == 0 || c.toNat == 0xFEFF) then none
  else linesOnto [] [] [] 0 (chars.filter (· != '\r'))

/-! ## §3 The parts of a file -/

/-- A line by the part it plays. -/
inductive Part where
  | blank
  /-- A comment line outside of any declaration. -/
  | remark (text : List Char)
  /-- The first line of a declaration. -/
  | decl (keyword : Bytes) (text : List Char)
  /-- A field of a struct: its name, its type and its tag. -/
  | field (cells : List (List Char))
  | plain (text : List Char)
deriving Repr

/-- What surrounds a line. -/
inductive Surroundings where
  | outside
  | struct
  | interface
  | other
deriving DecidableEq, Repr

/-- The bracket that a closing bracket belongs to. -/
def opening? (c : Char) : Option Char :=
  if c == ')' then some '('
  else if c == ']' then some '['
  else if c.toNat == 0x7D then some (Char.ofNat 0x7B)
  else none

/-- The brackets that are open after a token; none if a bracket is closed that is not open. -/
def nest? (stack : List Char) : Tok → Option (List Char)
  | .symbol c =>
    if c == '(' || c == '[' || c.toNat == 0x7B then some (c :: stack)
    else match opening? c with
      | none => some stack
      | some o => match stack with
        | top :: rest => if top == o then some rest else none
        | [] => none
  | _ => some stack

/-- Whether tokens are a type: a name, perhaps of another package, behind any number of marks for
references and lists. -/
def isType : List Tok → Bool
  | .symbol '*' :: r => isType r
  | .symbol '[' :: .symbol ']' :: r => isType r
  | [t] => t.isName
  | [t, .symbol '.', u] => t.isName && u.isName
  | _ => false

/-- Whether a token is a literal. -/
def Tok.isLiteral : Tok → Bool
  | .literal _ => true
  | _ => false

/-- The words that start a type that is written out. -/
def typeWords : List Bytes := ["struct", "interface", "map", "chan", "func"]

/-- The text of tokens without anything between them. -/
def textOf (l : List Tok) : List Char := l.flatMap Tok.text

/-- The cells of a field: a name and a type, or only a type, and perhaps a tag. -/
def cells? (tokens : List Tok) : Option (List (List Char)) :=
  let body := tokens.filter (!·.isLiteral)
  let tag := (tokens.drop body.length).map Tok.text
  if tokens.take body.length != body || tag.length > 1 then none
  else match body with
    | t :: r =>
      if t.isName && isType r then some ([t.text, textOf r] ++ tag)
      else if isType body && !(body.head? == some (.symbol '[')) then some (textOf body :: tag)
      else none
    | [] => none

/-- The part of a line inside a struct. -/
def structPart? (l : Line) : Option Part :=
  match l.tokens with
  | [] => some .blank
  | [.symbol _] => some (.plain l.text)
  | t :: _ =>
    let isRemark : Tok → Bool
      | .comment _ => true
      | _ => false
    if isRemark t then some (.plain l.text)
    else if l.tokens.any fun t => isRemark t || typeWords.any t.isWord then some (.plain l.text)
    else (cells? l.tokens).map .field

/-- Whether a line can stand inside an interface: a method, the name of a type, or a comment. -/
def fitsInterface : List Tok → Bool
  | [] => true
  | .comment _ :: _ => true
  | [.symbol _] => true
  | t :: .symbol '(' :: _ => t.isName
  | l => isType l

/-- Whether what follows the word `type` declares a type. -/
def declaresType : List Tok → Bool
  | name :: r => name.isName && (isType r || match r with
    | .symbol '=' :: r => isType r
    | t :: _ => typeWords.any t.isWord
    | [] => false)
  | [] => false

/-- A declaration on one line; nothing stands between the word for an empty type and its braces. -/
def declText (l : Line) : List Char :=
  let ending : List Char := [' ', Char.ofNat 0x7B, Char.ofNat 0x7D]
  match l.tokens.reverse with
  | _ :: _ :: t :: _ =>
    if (t.isWord "struct" || t.isWord "interface") && ending.isSuffixOf l.text then
      l.text.take (l.text.length - 3) ++ ending.drop 1
    else l.text
  | _ => l.text

/-- The words that start a declaration. -/
def declWords : List Bytes := ["import", "const", "type", "var", "func"]

/-- The part of a line outside of any declaration; `started` says that the package has been
named. -/
def outerPart? (started : Bool) (l : Line) : Option Part :=
  match l.tokens with
  | [] => some .blank
  | .comment _ :: _ => some (.remark l.text)
  | .word w :: r =>
    let word := Utf8.ofChars w
    if !started then
      match r with
      | [name] => if word == "package" && name.isName then some (.decl word l.text) else none
      | _ => none
    else if !declWords.contains word then none
    else if word == "type" && !(r.head? == some (.symbol '(')) && !declaresType r then none
    else some (.decl word (declText l))
  | _ => none

/-- What surrounds the lines after a line that opens a declaration. -/
def surroundingsAfter (l : Line) : Surroundings :=
  match l.tokens.reverse with
  | _ :: t :: _ =>
    if t.isWord "struct" then .struct else if t.isWord "interface" then .interface else .other
  | _ => .other

/-- Reads the parts of a file line by line; none if it is not a source file. -/
def partsFrom? (started : Bool) (stack : List Char) (inside : Surroundings) :
    List Line → Option (List Part)
  | [] => if started && stack.isEmpty then some [] else none
  | l :: r => do
    let part ← match stack, inside with
      | [], _ => outerPart? started l
      | [_], .struct => structPart? l
      | [_], .interface => if fitsInterface l.tokens then some (.plain l.text) else none
      | _, _ => some (.plain l.text)
    let after ← l.tokens.foldlM nest? stack
    let inside := if stack.isEmpty then surroundingsAfter l else inside
    let started := match part with
      | .decl .. => true
      | _ => started
    let rest ← partsFrom? started after inside r
    let part := if l.tokens.isEmpty then .blank else part
    return part :: rest

/-! ## §4 Documentation and blank lines -/

/-- The text of a comment line: what follows the mark and one blank. -/
def remarkText (t : List Char) : List Char :=
  match (t.dropWhile isSpace).drop 2 with
  | ' ' :: r => trimEnd r
  | r => trimEnd r

/-- The blanks that all lines of a paragraph start with. -/
def commonIndent : List (List Char) → List Char
  | [] => []
  | [l] => l.takeWhile isSpace
  | l :: r => ((l.takeWhile isSpace).zip (commonIndent r)).takeWhile (fun (a, b) => a == b)
      |>.map (·.1)

/-- Joins runs of empty lines into one, and drops those at the start if `atStart` holds. -/
def squeeze {α : Type} (isEmpty : α → Bool) (atStart : Bool) : List α → List α
  | [] => []
  | l :: r =>
    if isEmpty l then if atStart then squeeze isEmpty true r else l :: squeeze isEmpty true r
    else l :: squeeze isEmpty false r

/-- Joins runs of empty lines and drops those at both ends. -/
def squeezeAll {α : Type} (isEmpty : α → Bool) (l : List α) : List α :=
  (squeeze isEmpty true (squeeze isEmpty true l).reverse).reverse

/-- Documentation in front of a declaration: no empty lines at either end and never two of them in
a row, and no indent that all lines share. -/
def tidyDocs (remarks : List (List Char)) : List (List Char) :=
  let texts := squeezeAll List.isEmpty (remarks.map remarkText)
  let indent := (commonIndent (texts.filter (!·.isEmpty))).length
  texts.map fun t => if t.isEmpty then ['/', '/'] else ['/', '/', ' '] ++ t.drop indent

/-- Whether a part is the first line of a declaration. -/
def Part.isDecl : Part → Bool
  | .decl .. => true
  | _ => false

/-- Tidies the comments in front of declarations. `pending` are the comment lines just before. -/
def documented (pending : List (List Char)) : List Part → List Part
  | [] => pending.reverse.map fun t => .remark (trimEnd t)
  | .remark t :: r => documented (t :: pending) r
  | p :: r =>
    let remarks := if p.isDecl then tidyDocs pending.reverse else pending.reverse.map trimEnd
    remarks.map .remark ++ p :: documented [] r

/-- Whether a declaration follows, perhaps behind its documentation: its keyword, and whether there
is documentation. -/
def nextDecl? : List Part → Option (Bytes × Bool)
  | .remark _ :: r => (nextDecl? r).map fun (k, _) => (k, true)
  | .decl k _ :: _ => some (k, false)
  | _ => none

/-- Puts a blank line in front of a declaration that has documentation or another keyword than the
one before. `last` is the keyword of the declaration before, if it has ended. -/
def separated (last : Option Bytes) (keyword : Bytes) : List Part → List Part
  | [] => []
  | p :: r =>
    let gap := match last, nextDecl? (p :: r) with
      | some k, some (k', hasDocs) => k != k' || hasDocs
      | _, _ => false
    let rest := match p with
      | .decl k _ => p :: separated (some k) k r
      | .remark _ => p :: separated none keyword r
      | .blank => p :: separated none keyword r
      | _ => p :: separated (some keyword) keyword r
    if gap then .blank :: rest else rest

/-! ## §5 Columns -/

/-- How many lines from here on have a cell behind column `i`, and the width of the widest cell in
that column. -/
def columnWidth (i : Nat) : List Part → Nat
  | .field cells :: r =>
    if i + 1 < cells.length then
      let width := (cells[i]?.getD []).length
      -- a cell that takes several lines ends the column
      if cells.any (·.contains '\n') then width else max width (columnWidth i r)
    else 0
  | _ => 0

/-- Fills a cell up to a width. -/
def padTo (width : Nat) (cell : List Char) : List Char :=
  cell ++ List.replicate (width - cell.length) ' '

/-- The cells of a field, each but the last filled up to the width of its column. -/
def rowText (widths : List Nat) : List (List Char) → List Char
  | [] => []
  | [c] => c
  | c :: r => padTo (widths.head?.getD 0) c ++ ' ' :: rowText (widths.drop 1) r

/-- The widths of the columns, carried on from the line before where the column goes on. -/
def widthsAt (before : List Nat) (cells : List (List Char)) (parts : List Part) : List Nat :=
  (List.range cells.length).map fun i => match before[i]? with
    | some w => w
    | none => columnWidth i parts

/-- The text of each part; `before` are the widths of the columns that go on. -/
def alignedFrom (before : List Nat) : List Part → List (List Char)
  | [] => []
  | .field cells :: r =>
    let widths := widthsAt before cells (.field cells :: r)
    let goOn := if cells.any (·.contains '\n') then [] else widths.take (cells.length - 1)
    ('\t' :: rowText widths cells) :: alignedFrom goOn r
  | .blank :: r => [] :: alignedFrom [] r
  | .remark t :: r => t :: alignedFrom [] r
  | .decl _ t :: r => t :: alignedFrom [] r
  | .plain t :: r => t :: alignedFrom [] r

/-- Whether a part is a blank line. -/
def Part.isBlank : Part → Bool
  | .blank => true
  | _ => false

/-- The text in the standard layout, if it is a source file. -/
def format? (text : Bytes) : Option Bytes := do
  let parts ← partsFrom? false [] .outside (← lines? text)
  let parts := squeezeAll Part.isBlank (separated none [] (documented [] parts))
  return Utf8.ofChars ((alignedFrom [] parts).flatMap (· ++ ['\n']))

end Idl.GoLayout
