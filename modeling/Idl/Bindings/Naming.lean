import Idl.Text.Case
import Idl.Text.CharClass
import Idl.Text.Utf8

/-!
# Names in other styles

A name is cut into words at changes of case, at digits and at connectors, and its words are put
together again in the style of the target.

* §1 clusters and words: a stray octet belongs to the character after it,
* §2 cutting a name into words,
* §3 words joined by underscores,
* §4 words joined by capitals.
-/

namespace Idl.Naming

/-! ## §1 Words -/

/-- A character with the unreadable octets in front of it; the last one of a name also has those
behind it. -/
structure Cluster where
  char : Char
  octets : Bytes
deriving DecidableEq, Repr

/-- What a word is made of. -/
inductive WordKind where
  | connector
  | punctuation
  | upper
  | alphabet
  | number
  | other
  /-- No readable character at all. -/
  | invalid
deriving DecidableEq, Repr

/-- A word of a name. -/
structure Word where
  kind : WordKind
  clusters : List Cluster
deriving DecidableEq, Repr

/-- Whether a character only connects words. -/
def isConnector (c : Char) : Bool := c == '-' || c == '_' || isSpace c

/-- Whether a character is an ideograph, which has no case. -/
def isIdeograph (c : Char) : Bool :=
  inRanges [(0x4E00, 0x9FCC), (0x3400, 0x4D85), (0x20000, 0x2B81D)] c

/-- Whether a character belongs to an alphabet. -/
def isAlphabetic (c : Char) : Bool := isLetter c && !isIdeograph c

/-- Whether a letter may continue a word that a small letter has begun. -/
def isPlainLetter (c : Char) : Bool := isAlphabetic c && !isUpper c

/-- The clusters of a name; none if no character can be read. `octets` are the stray octets so
far. -/
def clustersOnto (octets : Bytes) (acc : List Cluster) : List Glyph → List Cluster
  | [] => match acc with
    | [] => []
    | last :: r => (⟨last.char, last.octets ++ octets⟩ :: r).reverse
  | g :: r =>
    if g.toChar.toNat == 0xFFFD then clustersOnto (octets ++ g.octets) acc r
    else clustersOnto [] (⟨g.toChar, octets ++ g.octets⟩ :: acc) r

/-- The kind of the word that starts with a character. -/
def kindOf (c : Char) : WordKind :=
  if isConnector c then .connector
  else if isPunctuation c then .punctuation
  else if isUpper c then .upper
  else if isAlphabetic c then .alphabet
  else if isNumber c then .number
  else .other

/-! ## §2 Cutting -/

/-- How many of the clusters after the first belong to a word of small letters, digits and the
like. -/
def runLength (p : Char → Bool) (l : List Cluster) : Nat := (l.takeWhile fun x => p x.char).length

/-- How many clusters after a capital letter belong to its word: the small letters after a single
capital; or all further capitals, but for the last one if a small letter follows it. -/
def upperLength (l : List Cluster) : Nat :=
  let capitals := runLength isUpper l
  if capitals == 0 then runLength isPlainLetter l
  else match l.drop capitals with
    | [] => capitals
    | x :: _ => if isAlphabetic x.char then capitals - 1 else capitals

/-- How many clusters after the first one belong to the first word. -/
def tailLength (first : Char) (l : List Cluster) : Nat :=
  match kindOf first with
  | .connector => runLength isConnector l
  | .punctuation => runLength isPunctuation l
  | .upper => upperLength l
  | .alphabet => runLength isPlainLetter l
  | .number => runLength isNumber l
  | _ => runLength (fun c => !(isConnector c || isAlphabetic c || isNumber c || isPunctuation c)) l

/-- The words of a sequence of clusters. -/
def cut : List Cluster → List Word
  | [] => []
  | x :: r =>
    let n := tailLength x.char r
    ⟨kindOf x.char, x :: r.take n⟩ :: cut (r.drop n)
termination_by l => l.length
decreasing_by simp only [List.length_cons, List.length_drop]; omega

/-- The words of a name. -/
def words (name : Bytes) : List Word :=
  match clustersOnto [] [] (Utf8.glyphs name) with
  | [] => if name.isEmpty then [] else [⟨.invalid, [⟨Char.ofNat 0xFFFD, name⟩]⟩]
  | l => cut l

/-! ## §3 Underscores -/

/-- The small form of a character; connectors become underscores. -/
def lowerChar (c : Char) : Char :=
  if isConnector c then '_' else if isUpper c then toLowerChar c else c

/-- A word in small letters. Only words with capitals and connectors change. -/
def Word.lower (w : Word) : Bytes :=
  let octets := w.clusters.flatMap (·.octets)
  if w.kind == .upper || w.kind == .connector then
    Utf8.ofChars ((Utf8.chars octets).map lowerChar)
  else octets

/-- Whether a word can stand in a run of digits and letters such as `20x`. -/
def Word.inRun (w : Word) : Bool := w.kind == .alphabet || w.kind == .number

/-- The words after the run at the start. -/
def afterRun (l : List Word) : List Word := l.dropWhile Word.inRun

theorem length_afterRun_le (l : List Word) : (afterRun l).length ≤ l.length :=
  (List.dropWhile_sublist _).length_le

/-- The underscore in front of the next word, which connectors and punctuation do without. -/
def bridge : List Word → Bytes
  | [] => []
  | w :: _ =>
    if w.kind == .invalid || w.kind == .connector || w.kind == .punctuation then [] else "_"

/-- The words in small letters, with underscores between them. Digits stay with the word before
them, unless small letters follow: then digits and letters are a word of their own. -/
def joinLower : List Word → Bytes
  | [] => []
  | [w] => w.lower
  | w :: v :: r =>
    match w.kind with
    | .connector => w.lower ++ joinLower (v :: r)
    | .punctuation => w.lower ++ joinLower (v :: r)
    | .number =>
      let rest := afterRun (v :: r)
      w.lower ++ ((v :: r).takeWhile Word.inRun).flatMap Word.lower ++ bridge rest
        ++ joinLower rest
    | _ =>
      if v.kind != .number then w.lower ++ bridge (v :: r) ++ joinLower (v :: r)
      else match r with
        | [] => w.lower ++ v.lower
        | x :: r =>
          if x.kind != .alphabet then w.lower ++ v.lower ++ bridge (x :: r) ++ joinLower (x :: r)
          else
            let rest := afterRun (x :: r)
            w.lower ++ "_" ++ v.lower ++ ((x :: r).takeWhile Word.inRun).flatMap Word.lower
              ++ bridge rest ++ joinLower rest
termination_by l => l.length
decreasing_by all_goals grind [length_afterRun_le]

/-- The name in small letters with underscores: `getUser` becomes `get_user`. -/
def snake (name : Bytes) : Bytes := joinLower (words name)

/-! ## §4 Capitals -/

/-- Writes what follows the character `last`: a connector is dropped and makes the next letter a
capital one, but of several connectors only the last is dropped. -/
def joinUpper (last : Char) : List Char → List Char
  | [] => [last]
  | c :: r =>
    if isConnector last then
      if isConnector c then last :: joinUpper c r else joinUpper (toUpperChar c) r
    else last :: joinUpper (toLowerChar c) r

/-- The characters with their words joined by capitals; connectors in front are kept. A name of
connectors only has its last one twice. -/
def capitalize (l : List Char) : List Char :=
  let lead := l.takeWhile isConnector
  match l.dropWhile isConnector with
  | [] => lead ++ lead.getLast?.toList
  | c :: r => lead ++ joinUpper (toUpperChar c) r

/-- The name with its words joined by capitals: `get_user` and `getUser` become `GetUser`. -/
def pascal (name : Bytes) : Bytes := Utf8.ofChars (capitalize (Utf8.chars (snake name)))

/-- The same with a small first letter. -/
def camel (name : Bytes) : Bytes :=
  match Utf8.chars (pascal name) with
  | [] => []
  | c :: r => Utf8.ofChars (toLowerChar c :: r)

end Idl.Naming
