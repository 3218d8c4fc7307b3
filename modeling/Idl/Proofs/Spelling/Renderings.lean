import Idl.Proofs.Spelling.Printed

/-!
# Constants in the place of others

An annotation that is written with one constant is cut into the same words as with another one, but
for those of the constant, and what stands around it is cut as before. So the form of a file stays
the same around the annotation when another constant is written there.

* §1 the words of an annotation, §2 a place in a source, §3 constants in the place of others.
-/

namespace Idl

open Proto (isIdentifier)

/-! ## §1 The words of an annotation -/

namespace Spelling

/-- The words of an annotation with a named constant. -/
def annotWords (names : List (TokenKind × Bytes)) (key : Bytes) (ws : List (TokenKind × Bytes)) :
    List (TokenKind × Bytes) :=
  (.atSign, [0x40]) :: names.append ((.openParen, [0x28]) :: (.ident, key) :: (.space, [0x20])
    :: (.eq, [0x3D]) :: (.space, [0x20]) :: ws.append [(.closeParen, [0x29])])

/-- A blank in front of what is none. -/
theorem scanToken_space {r : Bytes} (h : ∀ c ∈ r.head?, c ∉ blankStarts) :
    scanToken 0x20 r = .ok (.space, 0) := by
  have hblanks : Scan.blanks 1 r = 1 := by
    unfold Scan.blanks
    split
    · exact absurd (by decide) (h 0x20 rfl)
    · exact absurd (by decide) (h 0x09 rfl)
    · exact absurd (by decide) (h 0xC2 rfl)
    · exact absurd (by decide) (h 0xEF rfl)
    · rfl
  change Scan.token .space (Scan.blanks 1 r) = _
  rw [hblanks]
  rfl

theorem render_annot (name key : Bytes) (v : Idl.Value) :
    (⟨name, none, [⟨key, v⟩]⟩ : Idl.Annot).render
      = [0x40] ++ (name ++ ([0x28] ++ (key ++ ([0x20] ++ ([0x3D] ++ ([0x20]
        ++ (v.render ++ [0x29]))))))) := by
  have hsign : ("@" : Bytes) = [0x40] := rfl
  have hopen : ("(" : Bytes) = [0x28] := rfl
  have hclose : (")" : Bytes) = [0x29] := rfl
  have heq : (" = " : Bytes) = [0x20, 0x3D, 0x20] := rfl
  simp [Idl.Annot.render, Bytes.join, hsign, hopen, hclose, heq]

/-- The words that such an annotation is cut into. -/
theorem exists_scanned_annot {name key : Bytes} {p : Path} {ls : List Lexeme} {v : Idl.Value}
    (hname : Writes name p.lexemes) (hkey : isIdentifier key = true)
    (hsize : key.length ≤ maxTokenSize) (ht : Writes v.render ls) (z : Bytes) : ∃ names ws,
      Scanned z (⟨name, none, [⟨key, v⟩]⟩ : Idl.Annot).render (annotWords names key ws)
        ∧ names.map Lexeme.ofWord = p.lexemes ∧ ws.map Lexeme.ofWord = ls := by
  -- word by word from the back, so that each is scanned with what follows it
  obtain ⟨ws, hws, hls⟩ := ht.cut ([0x29] ++ z) (by rintro _ ⟨⟩; decide)
  obtain ⟨c, r, hc⟩ := exists_cons_of_isIdentifier hkey
  have hclose : Scanned z [0x29] [(.closeParen, [0x29])] := .sigil rfl
  have hvalue := hws.append hclose
  have hstart : ∀ c ∈ (v.render ++ [0x29] ++ z).head?, c ∉ blankStarts := by
    intro d hd
    cases ht' : v.render with
    | nil =>
      rw [ht'] at hd
      cases hd
      decide
    | cons e t' =>
      rw [ht'] at hd
      cases hd
      exact ht.start d (by rw [ht']; rfl)
  have hspace : Scanned (v.render ++ [0x29] ++ z) [0x20] [(.space, [0x20])] :=
    .word (scanToken_space hstart)
  have heq : Scanned ([0x20] ++ (v.render ++ [0x29]) ++ z) [0x3D] [(.eq, [0x3D])] := .sigil rfl
  have hsecond : Scanned ([0x3D] ++ ([0x20] ++ (v.render ++ [0x29])) ++ z) [0x20]
      [(.space, [0x20])] := .word (scanToken_space (by rintro _ ⟨⟩; decide))
  have hkeyWord : Scanned ([0x20] ++ ([0x3D] ++ ([0x20] ++ (v.render ++ [0x29]))) ++ z) key
      [(.ident, key)] := by
    rw [hc] at hkey hsize ⊢
    exact .word (scanToken_of_isIdentifier hkey hsize (by rintro _ ⟨⟩; rfl))
  have hrest := hkeyWord.append (hsecond.append (heq.append (hspace.append hvalue)))
  have hopen : Scanned (key ++ ([0x20] ++ ([0x3D] ++ ([0x20] ++ (v.render ++ [0x29])))) ++ z) [0x28]
      [(.openParen, [0x28])] := .sigil rfl
  have hargs := hopen.append hrest
  obtain ⟨names, hnames, hlexemes⟩ := hname.cut ([0x28] ++ (key ++ ([0x20] ++ ([0x3D]
    ++ ([0x20] ++ (v.render ++ [0x29]))))) ++ z) (by rintro _ ⟨⟩; decide)
  refine ⟨names, ws, ?_, hlexemes, hls⟩
  rw [render_annot]
  exact Scanned.append (.sigil rfl) (hnames.append hargs)

/-- The kinds of the words of names. -/
def nameKinds : List TokenKind := [.ident, .dot, .doubleColon]

/-- The kinds of the words of constants. -/
def constantKinds : List TokenKind :=
  [.ident, .dot, .doubleColon, .intLit, .octIntLit, .hexIntLit, .floatLit, .textLit]

theorem mem_constantKinds {k : TokenKind} (h : k ∈ nameKinds) : k ∈ constantKinds :=
  (show nameKinds ⊆ constantKinds by decide) h

theorem Path.kind_mem {p : Path} : ∀ x ∈ p.lexemes, x.1 ∈ nameKinds := by
  have hident : TokenKind.ident ∈ nameKinds := by decide
  have hseparator (s : Separator) : s.kind ∈ nameKinds := by cases s <;> decide
  intro x hx
  rcases List.mem_cons.mp hx with rfl | hx
  · exact hident
  · obtain ⟨⟨separator, w⟩, -, hx⟩ := List.mem_flatMap.mp hx
    rcases List.mem_cons.mp hx with rfl | hx
    · exact hseparator separator
    · rw [List.mem_singleton.mp hx]
      exact hident

/-- The kinds of token that a constant is written with. -/
theorem Value.kind_mem {x : Value} : ∀ y ∈ x.lexemes, y.1 ∈ constantKinds := by
  have hbase (base : Base) : base.kind ∈ constantKinds := by cases base <;> decide
  have hident : TokenKind.ident ∈ constantKinds := by decide
  have hfloat : TokenKind.floatLit ∈ constantKinds := by decide
  have htext : TokenKind.textLit ∈ constantKinds := by decide
  intro y hy
  cases x with
  | path p free => exact mem_constantKinds (p.kind_mem y hy)
  | literal l =>
    rw [List.mem_singleton.mp hy]
    cases l with
    | int n => exact hbase n.base
    | float raw => exact hfloat
    | text raw => exact htext
    | bool b => cases b <;> exact hident
    | infinity => exact hident
    | nan => exact hident

theorem kind_mem_of_ofWord {ws : List (TokenKind × Bytes)} {kinds : List TokenKind}
    (h : ∀ y ∈ ws.map Lexeme.ofWord, y.1 ∈ kinds) : ∀ w ∈ ws, w.1 ∈ kinds :=
  fun w hw => h (Lexeme.ofWord w) (List.mem_map_of_mem hw)

end Spelling

namespace AnnotLine

theorem run?_eq_self {s : AnnotLine} {ws : List (TokenKind × Bytes)}
    (h : ∀ w ∈ ws, s.next? w.1 w.2 = some s) : s.run? ws = some s := by
  induction ws with
  | nil => rfl
  | cons w ws ih =>
    obtain ⟨hw, hws⟩ := List.forall_mem_cons.mp h
    rw [run?_cons, hw]
    exact ih hws

/-- The state behind an annotation with arguments. -/
def closed : AnnotLine → AnnotLine
  | .args depth => if depth + 1 ≤ 1 then .outside else .args depth
  | _ => .outside

/-- The state behind an annotation with a named constant does not depend on the constant. -/
theorem after_annotWords (line : AnnotLine) {names ws : List (TokenKind × Bytes)} {key : Bytes}
    (hnames : ∀ w ∈ names, w.1 ∈ Spelling.nameKinds)
    (hws : ∀ w ∈ ws, w.1 ∈ Spelling.constantKinds) :
    line.after (Spelling.annotWords names key ws) = some line.closed := by
  -- neither in the name nor between the parentheses do the words in question change the state
  have hname : ∀ k ∈ Spelling.nameKinds, ∀ text, name.next? k text = some name := by
    intro k hk text
    simp only [Spelling.nameKinds, List.mem_cons, List.not_mem_nil, or_false] at hk
    rcases hk with rfl | rfl | rfl <;> rfl
  have hargs (depth : Nat) : ∀ k ∈ Spelling.constantKinds, ∀ text,
      (args depth).next? k text = some (args depth) := by
    intro k hk text
    simp only [Spelling.constantKinds, List.mem_cons, List.not_mem_nil, or_false] at hk
    rcases hk with rfl | rfl | rfl | rfl | rfl | rfl | rfl | rfl <;> rfl
  have hnamed : name.run? names = some name := run?_eq_self fun w hw => hname _ (hnames w hw) _
  have hquiet (depth : Nat) : (args depth).run? names = some (args depth) :=
    run?_eq_self fun w hw => hargs depth _ (Spelling.mem_constantKinds (hnames w hw)) _
  have hinner (depth : Nat) : (args depth).run? ((.ident, key) :: (.space, [0x20])
      :: (.eq, [0x3D]) :: (.space, [0x20]) :: ws.append [(.closeParen, [0x29])])
      = (args depth).next? .closeParen [0x29] := by
    have hws : (args depth).run? ws = some (args depth) :=
      run?_eq_self fun w hw => hargs depth _ (hws w hw) _
    change (args depth).run? (ws ++ _) = _
    rw [run?_append_of_eq_some hws, run?_cons]
    exact Option.bind_fun_some _
  have hopened (s : AnnotLine) (hs : line.next? .atSign [0x40] = some s)
      (hsnames : s.run? names = some s) (depth : Nat)
      (hopen : s.next? .openParen [0x28] = some (args depth)) :
      line.run? (Spelling.annotWords names key ws) = (args depth).next? .closeParen [0x29] := by
    rw [Spelling.annotWords, run?_cons, hs, Option.bind_some]
    change s.run? (names ++ _) = _
    rw [run?_append_of_eq_some hsnames, run?_cons, hopen, Option.bind_some, hinner]
  change line.run? _ = _
  cases line with
  | args depth => exact hopened (args depth) rfl (hquiet depth) (depth + 1) rfl
  | outside => exact hopened name rfl hnamed 1 rfl
  | name => exact hopened name rfl hnamed 1 rfl
  | ended => exact hopened name rfl hnamed 1 rfl

end AnnotLine

namespace Spelling

theorem significantWords_eq_self {ws : List (TokenKind × Bytes)}
    (h : ∀ w ∈ ws, w.1 ∈ constantKinds) : significantWords ws = ws := by
  refine List.filter_eq_self.mpr fun w hw => ?_
  have hkinds : ∀ k ∈ constantKinds, (!k.isTrivia) = true := by decide
  exact hkinds _ (h w hw)

/-- What the grammar sees of an annotation with a named constant. -/
theorem lexemes_annotWords (key : Key) {names ws : List (TokenKind × Bytes)} {p : Path} {x : Value}
    (hnames : names.map Lexeme.ofWord = p.lexemes) (hws : ws.map Lexeme.ofWord = x.lexemes) :
    (significantWords (annotWords names key.text ws)).map Lexeme.ofWord
      = (Annot.ofPair p key x).lexemes := by
  -- no white space stands inside the name, nor inside the constant
  have hnamed : significantWords names = names := significantWords_eq_self fun w hw =>
    mem_constantKinds (kind_mem_of_ofWord (hnames ▸ p.kind_mem) w hw)
  have hvalued := significantWords_eq_self (kind_mem_of_ofWord (hws ▸ x.kind_mem))
  -- what is left besides them are the signs and the key
  have hsplit : significantWords (annotWords names key.text ws)
      = (TokenKind.atSign, [0x40]) :: (significantWords names
        ++ ((TokenKind.openParen, [0x28]) :: (TokenKind.ident, key.text) :: (TokenKind.eq, [0x3D])
          :: (significantWords ws ++ [(TokenKind.closeParen, [0x29])]))) := by
    simp [significantWords, annotWords, List.filter_append, TokenKind.isTrivia]
  rw [hsplit, hnamed, hvalued]
  simp [hnames, hws, Annot.ofPair, Annot.lexemes, Args.lexemes, Args.lexemesOf, Arg.lexemes,
    Lexeme.ofWord, TokenKind.hasText, name, sign]

end Spelling

/-! ## §2 A place in a source -/

/-- A place in a source for an annotation with a constant under a name. Every name is one that can
be written. -/
structure Site where
  before : Bytes
  name : Bytes
  key : Bytes
  after : Bytes
  isName : Proto.isPackage name = true
  isKey : isIdentifier key = true
  free : key ∉ Grammar.constantWords
  nameFits : ∀ w ∈ Bytes.split 0x2E name, w.length ≤ maxTokenSize
  keyFits : key.length ≤ maxTokenSize

namespace Site

variable (site : Site)

/-- The annotation with a constant. -/
def annot (v : Value) : Annot := ⟨site.name, none, [⟨site.key, v⟩]⟩

/-- The source with the annotation as it is written with a constant. -/
def fill (v : Value) : Bytes := site.before ++ ((site.annot v).render ++ site.after)

/-- Whether a token begins where the annotation begins, which is not inside of a text or a comment
then. -/
def Open (v : Value) : Prop :=
  ∃ l, lex (site.fill v) = .ok l ∧ ∃ t ∈ l.tokens, t.start = site.before.length

/-- The name of the constant. -/
def keyForm : Spelling.Key :=
  { Spelling.Word.ofIdentifier site.key site.isKey with free := site.free }

variable {site}

open Spelling (Writes Lexeme.ofWord annotWords)

/-- What stands around an annotation is valid if the whole source is. -/
theorem isValid_fill {u v : Value} {ls : List Lexeme} (hv : Writes v.render ls)
    (h : Utf8.isValid (site.fill u) = true) : Utf8.isValid (site.fill v) = true := by
  have hname : Utf8.isValid site.name = true := by
    obtain ⟨p, -, hwrites, -⟩ := Spelling.exists_path_of_isPackage site.isName site.nameFits
    exact hwrites.valid
  have hkey : Utf8.isValid site.key = true := (Spelling.writes_word site.isKey site.keyFits).valid
  have hascii : ∀ b : Bytes, (∀ a ∈ b, a.toNat < 0x80) → Utf8.isValid b = true := fun b hb =>
    Utf8.isValid_of_ascii hb
  -- the constant stands between texts that are the same for both
  have hsplit (w : Value) : site.fill w = site.before ++ (0x40 :: ((site.name ++ ([0x28]
      ++ (site.key ++ ([0x20, 0x3D, 0x20] ++ w.render)))) ++ (0x29 :: site.after))) := by
    rw [fill, annot, Spelling.render_annot]
    simp
  -- the bracket is ASCII, so the text can be cut before it
  have hafter : Utf8.isValid (0x29 :: site.after) = true := by
    rw [hsplit, Utf8.isValid_append (Utf8.begins_of_ascii (by decide) _), Bool.and_eq_true] at h
    have hrest := Utf8.isValid_of_ascii_cons (by decide) h.2
    rw [Utf8.isValid_append (Utf8.begins_of_ascii (by decide) _), Bool.and_eq_true] at hrest
    exact hrest.2
  have hbefore : Utf8.isValid site.before = true := by
    rw [hsplit, Utf8.isValid_append (Utf8.begins_of_ascii (by decide) _), Bool.and_eq_true] at h
    exact h.1
  -- put together again, with the other constant
  have hannot : Utf8.isValid ([0x40] ++ ((site.name ++ ([0x28]
      ++ (site.key ++ ([0x20, 0x3D, 0x20] ++ v.render)))) ++ (0x29 :: site.after))) = true := by
    refine Utf8.isValid_append_of (by decide) (Utf8.isValid_append_of ?_ hafter)
    exact Utf8.isValid_append_of hname (Utf8.isValid_append_of (by decide)
      (Utf8.isValid_append_of hkey (Utf8.isValid_append_of (by decide) hv.valid)))
  rw [hsplit]
  exact Utf8.isValid_append_of hbefore hannot

/-- The tokens among some that the grammar looks at. -/
def seen (ts : List Token) : List Token := ts.filter fun t => !t.kind.isTrivia

theorem seen_append (ts us : List Token) : seen (ts ++ us) = seen ts ++ seen us :=
  List.filter_append ..

/-- They are written like the words that it looks at. -/
theorem lexemes_seen (ts : List Token) : (seen ts).map Token.lexeme
    = (significantWords (ts.map Token.word)).map Lexeme.ofWord := by
  rw [← map_word_significant, List.map_map]
  rfl

/-- Tokens around an annotation with a named constant, and others around one with another constant.
Around the annotations, they are written alike. -/
inductive Exchanged (site : Site) (path : Spelling.Path) (x y : Spelling.Value) :
    List Token → List Token → Prop where
  | mk {ts ys zs ts' ys' zs' : List Token} (front : ts'.map Token.lexeme = ts.map Token.lexeme)
      (back : zs'.map Token.lexeme = zs.map Token.lexeme)
      (annot : ys.map Token.lexeme = (Spelling.Annot.ofPair path site.keyForm x).lexemes)
      (annot' : ys'.map Token.lexeme = (Spelling.Annot.ofPair path site.keyForm y).lexemes) :
      Exchanged site path x y (ts ++ (ys ++ zs)) (ts' ++ (ys' ++ zs'))

theorem exists_exchanged {u v : Value} {x y : Spelling.Value} {l : Lexed} {e : Token}
    {path : Spelling.Path} (hname : Writes site.name path.lexemes) (hu : Writes u.render x.lexemes)
    (hv : Writes v.render y.lexemes) (hopen : site.Open u) (h : lex (site.fill u) = .ok l)
    (he : l.ending = .ok e) (hsize : (site.fill v).length ≤ maxSourceSize) :
    ∃ l' e', lex (site.fill v) = .ok l' ∧ l'.ending = .ok e'
      ∧ site.Exchanged path x y l.significant l'.significant := by
  obtain ⟨l₀, hl₀, t, ht, hstart⟩ := hopen
  obtain rfl : l₀ = l := Except.ok.inj (hl₀.symm.trans h)
  -- the words of the annotation before and after the exchange
  obtain ⟨names, ws, hscanned, hnames, hws⟩ :=
    Spelling.exists_scanned_annot hname site.isKey site.keyFits hu site.after
  obtain ⟨names', ws', hscanned', hnames', hws'⟩ :=
    Spelling.exists_scanned_annot hname site.isKey site.keyFits hv site.after
  have hlex' := lex_eq hsize (isValid_fill hv (isValid_of_lex h))
  generalize lexFrom 0 0 .start .outside [] (site.fill v) = l' at hlex'
  have hwalled (w : Value) : Scan.Walled ((site.annot w).render ++ site.after) := by
    rw [annot, Spelling.render_annot]
    exact ⟨0x40, _, rfl, by decide⟩
  -- both take the machine for annotations to the same state
  have hline (line line' : AnnotLine)
      (hline : line.after (annotWords names site.key ws) = some line') :
      line.after (annotWords names' site.key ws') = some line' := by
    rw [← hline, AnnotLine.after_annotWords, AnnotLine.after_annotWords]
    · exact Spelling.kind_mem_of_ofWord (hnames ▸ path.kind_mem)
    · exact Spelling.kind_mem_of_ofWord (hws ▸ x.kind_mem)
    · exact Spelling.kind_mem_of_ofWord (hnames' ▸ path.kind_mem)
    · exact Spelling.kind_mem_of_ofWord (hws' ▸ y.kind_mem)
  obtain ⟨ts, ys, zs, ts', ys', zs', e', htokens, rfl, hts, hys, hys', hzs⟩ :=
    exists_of_lex_exchange h he ht hstart (hwalled u) (hwalled v) hscanned hscanned' hline hlex'
  refine ⟨_, e', hlex', rfl, ?_⟩
  have hold : l₀.significant = seen ts ++ (seen ys ++ seen zs) := by
    rw [← seen_append, ← seen_append, ← htokens]
    rfl
  have hnew : Lexed.significant ⟨ts' ++ (ys' ++ zs'), .ok e'⟩
      = seen ts' ++ (seen ys' ++ seen zs') := by
    rw [← seen_append, ← seen_append]
    rfl
  rw [hold, hnew]
  refine .mk ?_ ?_ ?_ ?_
  · rw [lexemes_seen, lexemes_seen, hts]
  · rw [lexemes_seen, lexemes_seen, hzs]
  · rw [lexemes_seen, hys]
    exact Spelling.lexemes_annotWords site.keyForm hnames hws
  · rw [lexemes_seen, hys']
    exact Spelling.lexemes_annotWords site.keyForm hnames' hws'

/-- A file stays a file when another constant stands in it, if the constant can be read. -/
theorem Exchanged.mem_file {path : Spelling.Path} {x y : Spelling.Value} {l l' : List Token}
    (h : site.Exchanged path x y l l') (hx : x.Sound) (hy : y.Sound) {requirePackage : Bool}
    (hl : l ∈ Phrase.file requirePackage) : l' ∈ Phrase.file requirePackage := by
  obtain ⟨hfront, hback, hannot, hannot'⟩ := h
  have hplace := Phrase.inFile_of_append (Spelling.hasArgs_of_lexemes hx hannot) hl
  refine Phrase.ByLexemes.file _ _ (hplace.mem (Spelling.hasArgs_of_lexemes hy hannot').mem) _ ?_
  simp only [List.map_append, hfront, hback]

/-- What is written around the annotation is a form with a place in it. -/
theorem Exchanged.exists_place {path : Spelling.Path} {x y : Spelling.Value} {l l' : List Token}
    (h : site.Exchanged path x y l l') (hx : x.Sound) {requirePackage : Bool}
    (hl : l ∈ Phrase.file requirePackage) (hnamed : Spelling.Named l) :
    ∃ p : Spelling.Place,
      l.map Token.lexeme = (p.fill (.ofPair path site.keyForm x)).lexemes
        ∧ l'.map Token.lexeme = (p.fill (.ofPair path site.keyForm y)).lexemes := by
  obtain ⟨hfront, hback, hannot, hannot'⟩ := h
  have hplace := Phrase.inFile_of_append (Spelling.hasArgs_of_lexemes hx hannot) hl
  obtain ⟨p, hp⟩ := Spelling.exists_place hplace hnamed.left hnamed.right.right
  refine ⟨p, hp _ _ hannot, ?_⟩
  rw [← hp _ _ hannot']
  simp only [List.map_append, hfront, hback]

end Site

/-! ## §3 Constants in the place of others -/

theorem Value.reread_standIn (v : Value) : v.standIn.reread = some v.standIn := by
  have htext : (Value.text []).reread = some (.text []) := by
    rw [reread, if_neg (by decide)]
  cases v with
  | bool b => rfl
  | _ => exact htext

/-- A constant that is read back has the stand-in of the one written. -/
theorem Value.standIn_of_reread {v w : Value} (h : v.reread = some w) : w.standIn = v.standIn := by
  -- an integer stands for itself, whatever its size
  have hof (n : Int) : (Value.ofInt n).standIn = .text [] := by
    rw [Integer.ofInt_eq]
    split <;> rfl
  cases v with
  | float x =>
    obtain rfl := Option.some.inj h
    split
    · exact hof _
    · rfl
  | text s =>
    rw [reread] at h
    split at h
    · cases h
    · cases h
      rfl
  | _ =>
    cases h
    rfl

namespace Site

variable {site : Site}

open Spelling (Writes)

/-- A stand-in is read as a form. -/
theorem exists_writes_standIn (v : Value) : ∃ x : Spelling.Value,
    Writes v.standIn.render x.lexemes ∧ x.Sound ∧ x.tree.lower = v.standIn := by
  have htext : (Value.text []).render.length ≤ maxTokenSize := by decide
  have hbool : (Value.bool true).render.length ≤ maxTokenSize := by decide
  have hwritten : v.standIn.Written ∧ v.standIn.render.length ≤ maxTokenSize := by
    cases v with
    | bool b => exact ⟨trivial, hbool⟩
    | _ => exact ⟨trivial, htext⟩
  obtain ⟨x, hwrites, hread, -⟩ := Spelling.exists_writes hwritten.1 hwritten.2
  exact ⟨x, hwrites, hread _ v.reread_standIn⟩

variable {u v : Value} {path : Spelling.Path} {x y : Spelling.Value} {l l' : Lexed}
  {allowMissingPackage : Bool}

/-- A file with another constant is read, with the same form around the constant. -/
theorem Exchanged.exists_parseFile {f₀ : Tree.File} (hx : x.Sound) (hy : y.Sound)
    (h : site.Exchanged path x y l.significant l'.significant) (hlex : lex (site.fill u) = .ok l)
    (hlex' : lex (site.fill v) = .ok l') {e' : Token} (he' : l'.ending = .ok e')
    (h₀ : parseFile (site.fill u) allowMissingPackage = .ok f₀) :
    ∃ f p, parseFile (site.fill v) allowMissingPackage = .ok f
      ∧ f₀.erase = (p.fill (.ofPair path site.keyForm x) : Spelling.File).tree
      ∧ f.erase = (Spelling.Place.fill p (.ofPair path site.keyForm y)).tree := by
  obtain ⟨l₀, c, hl₀, hfile₀⟩ := exists_of_parseFile_eq_ok h₀
  obtain rfl : l₀ = l := Except.ok.inj (hl₀.symm.trans hlex)
  obtain ⟨⟨e, he⟩, hmem, -⟩ := Grammar.file_sound (significant_proper hlex) hfile₀
  -- names are what the lexer takes for names
  have hnamed : Spelling.Named l₀.significant := fun t ht hkind =>
    (lex_lexes hlex he).1.isName (List.mem_filter.mp ht).1 hkind
  obtain ⟨p, hold, hnew⟩ := h.exists_place hx hmem hnamed
  obtain ⟨f, s, hfile, -⟩ :=
    Grammar.takes_file (lex_lexes hlex' he').2.1 (h.mem_file hx hy hmem) 0
  -- the tokens with the other constant are those of a file again
  have hparse : parseFile (site.fill v) allowMissingPackage = .ok f := by
    rw [parseFile_of_lex hlex', he', hfile]
    rfl
  exact ⟨f, p, hparse, (parseFile_of_spells ⟨l₀, hlex, hold⟩ h₀).1,
    (parseFile_of_spells ⟨l', hlex', hnew⟩ hparse).1⟩

/-- A text in the place of another constant is among the tokens. -/
theorem Exchanged.exists_mem {raw : Bytes} {ts ts' : List Token}
    (h : site.Exchanged path x (.literal (.text raw)) ts ts') :
    ∃ t ∈ ts', t.lexeme = (.textLit, raw) := by
  obtain ⟨-, -, -, hannot⟩ := h
  have hmem : (.textLit, raw) ∈
      (Spelling.Annot.ofPair path site.keyForm (.literal (.text raw))).lexemes := by
    simp [Spelling.Annot.ofPair, Spelling.Annot.lexemes, Spelling.Args.lexemes,
      Spelling.Args.lexemesOf, Spelling.Arg.lexemes, Spelling.Value.lexemes,
      Spelling.Literal.lexeme]
  rw [← hannot] at hmem
  obtain ⟨t, ht, hlexeme⟩ := List.mem_map.mp hmem
  exact ⟨t, List.mem_append_right _ (List.mem_append_left _ ht), hlexeme⟩

/-- A file with a text that has a bad escape is not read. -/
theorem Exchanged.exists_error {raw : Bytes} (hraw : ∀ w, textLitValue raw ≠ .ok w)
    (h : site.Exchanged path x (.literal (.text raw)) l.significant l'.significant)
    (hlex' : lex (site.fill v) = .ok l') :
    ∃ e, parseFile (site.fill v) allowMissingPackage = .error e := by
  cases hparse : parseFile (site.fill v) allowMissingPackage with
  | error e => exact ⟨e, rfl⟩
  | ok f =>
    exfalso
    obtain ⟨l₀, c, hl₀, hfile⟩ := exists_of_parseFile_eq_ok hparse
    obtain rfl : l₀ = l' := Except.ok.inj (hl₀.symm.trans hlex')
    obtain ⟨-, hmem, -⟩ := Grammar.file_sound (significant_proper hl₀) hfile
    -- the text is among the tokens of the annotation
    obtain ⟨t, ht, hlexeme⟩ := h.exists_mem
    obtain ⟨w, hw⟩ := Phrase.readable_file _ _ hmem t ht (Spelling.kind_of_lexeme hlexeme)
    rw [Grammar.text_of_lexeme hlexeme rfl] at hw
    exact hraw w hw

end Site

/-- A constant of a schema, written at a place in a file that is right with a stand-in there. It is
read back as it is unless it is a binary number that is written as a whole one, or a text with
hidden characters. Such a number becomes a whole number; with such a text, the file is refused. No
other annotation of the file changes. -/
theorem compileSource_fill {src sourcePath path : Bytes} {allowMissingPackage allow : Bool}
    {c c₀ : Compilation} {s s₀ : Schema}
    (h : compileSource src sourcePath allowMissingPackage = .ok c) (hs : c.outcome = .ok s)
    {l : List Annot} {a : Annot} {v : Value} (hl : l ∈ s.annotLists)
    (ha : a ∈ l) (hv : v ∈ a.constants) {site : Site} (hopen : site.Open v.standIn)
    (h₀ : compileSource (site.fill v.standIn) path allow = .ok c₀) (hs₀ : c₀.outcome = .ok s₀)
    (hsize : v.render.length ≤ maxTokenSize) (hsource : (site.fill v).length ≤ maxSourceSize) :
    (v.Faithful ↔ ∃ w, v.reread = some w ∧ v.same w = true)
      ∧ (∀ w, v.reread = some w → ∃ c₁ s₁ L R P Q, compileSource (site.fill v) path allow = .ok c₁
        ∧ c₁.outcome = .ok s₁
        ∧ s₀.annotLists = L ++ (P ++ site.annot v.standIn :: Q) :: R
        ∧ s₁.annotLists = L ++ (P ++ site.annot w :: Q) :: R)
      ∧ (v.reread = none → ∃ e, compileSource (site.fill v) path allow = .error e) := by
  refine ⟨v.faithful_iff, ?_⟩
  obtain ⟨f₀, hparse₀, herrors₀, rfl⟩ := exists_of_compileSource h₀ hs₀
  obtain ⟨p, hname, hnamed, -⟩ := Spelling.exists_path_of_isPackage site.isName site.nameFits
  obtain ⟨x, hx, hxsound, hxlower⟩ := Site.exists_writes_standIn v
  obtain ⟨y, hy, hread, hrefused⟩ :=
    Spelling.exists_writes (written_of_compileSource h hs hl ha hv) hsize
  -- the tokens around the annotation are the same with both constants
  obtain ⟨l₀, u, hlex₀, hfile₀⟩ := exists_of_parseFile_eq_ok hparse₀
  obtain ⟨⟨e₀, he₀⟩, -, -⟩ := Grammar.file_sound (significant_proper hlex₀) hfile₀
  obtain ⟨l₁, e₁, hlex₁, he₁, hexchanged⟩ :=
    Site.exists_exchanged hnamed hx hy hopen hlex₀ he₀ hsource
  constructor
  · intro w hw
    obtain ⟨hysound, hylower⟩ := hread w hw
    obtain ⟨f₁, place, hparse₁, hf₀, hf₁⟩ :=
      hexchanged.exists_parseFile hxsound hysound hlex₀ hlex₁ he₁ hparse₀
    have hlower : x.tree.lower = y.tree.lower.standIn := by
      rw [hxlower, hylower, Value.standIn_of_reread hw]
    obtain ⟨herrors, L, R, P, Q, hlists₀, hlists₁⟩ := place.exchange hlower hf₀ hf₁ herrors₀ path
    refine ⟨f₁.compile path, f₁.schema path, L, R, P, Q, ?_, ?_, ?_, ?_⟩
    · rw [compileSource, hparse₁]
      rfl
    · rw [Tree.File.compile, herrors]
      rfl
    · rw [hlists₀, hname, ← hlower, hxlower]
      rfl
    · rw [hlists₁, hname, hylower]
      rfl
  · intro hnone
    obtain ⟨raw, rfl, hraw⟩ := hrefused hnone
    obtain ⟨e, he⟩ := hexchanged.exists_error hraw hlex₁
    exact ⟨e, by rw [compileSource, he]; rfl⟩

/-- In front of a message without fields. -/
def Site.small : Site where
  before := "package p;"
  name := "x"
  key := "k"
  after := "message M\x7b\x7d"
  isName := by decide
  isKey := by decide
  free := by decide
  nameFits := by decide
  keyFits := by decide

/-- The number one is read back as a whole number, since it is written without a point. -/
theorem compileSource_fill_one :
    ∃ c s, compileSource "package p;@x(k=1.0)message M\x7b\x7d" [] false = .ok c ∧ c.outcome = .ok s
      ∧ s.annotLists = [[], [⟨"x", none, [⟨"k", .float ⟨0x3FF0000000000000⟩⟩]⟩]]
      ∧ ¬ (Value.float ⟨0x3FF0000000000000⟩).Faithful
      ∧ ∃ c₁ s₁, compileSource "package p;@x(k = 1)message M\x7b\x7d" [] false = .ok c₁
        ∧ c₁.outcome = .ok s₁ ∧ ∃ l ∈ s₁.annotLists, ⟨"x", none, [⟨"k", .int 1⟩]⟩ ∈ l := by
  have hcompiles : (compileSource "package p;@x(k=1.0)message M\x7b\x7d" [] false).toOption.any
      (·.outcome.toOption.any fun s =>
        s.annotLists == [[], [⟨"x", none, [⟨"k", .float ⟨0x3FF0000000000000⟩⟩]⟩]]) = true := by
    decide +kernel
  obtain ⟨c, s, hc, hs, hlists⟩ := exists_outcome_of_any hcompiles
  have hlists := eq_of_beq hlists
  -- with an empty text in the place of the number
  have hstandIn : (compileSource (Site.small.fill (.text [])) [] false).toOption.any
      (·.outcome.isOk) = true := by decide +kernel
  obtain ⟨c₀, s₀, hc₀, hs₀⟩ := exists_outcome_eq_ok hstandIn
  have hopen : Site.small.Open (.text []) := by
    have hstart : (lex (Site.small.fill (.text []))).toOption.any
        (·.tokens.any (·.start == 10)) = true := by decide +kernel
    cases hlex : lex (Site.small.fill (.text [])) with
    | error e => simp [hlex, Except.toOption] at hstart
    | ok l =>
      simp only [hlex, Except.toOption, Option.any_some, List.any_eq_true, beq_iff_eq] at hstart
      exact ⟨l, hlex, hstart⟩
  have hreread : (Value.float ⟨0x3FF0000000000000⟩).reread = some (.int 1) := by decide +kernel
  have hwhole : (Binary64.mk 0x3FF0000000000000).Whole := by decide +kernel
  have hlist : [⟨"x", none, [⟨"k", .float ⟨0x3FF0000000000000⟩⟩]⟩] ∈ s.annotLists := by
    rw [hlists]
    exact List.mem_cons_of_mem _ List.mem_cons_self
  obtain ⟨-, hread, -⟩ := compileSource_fill (v := .float ⟨0x3FF0000000000000⟩) hc hs hlist
    List.mem_cons_self (by decide) hopen hc₀ hs₀ (by decide +kernel) (by decide +kernel)
  obtain ⟨c₁, s₁, L, R, P, Q, hc₁, hs₁, -, hlists₁⟩ := hread _ hreread
  have hfill : Site.small.fill (.float ⟨0x3FF0000000000000⟩)
      = "package p;@x(k = 1)message M\x7b\x7d" := by decide +kernel
  have hmem : P ++ Site.small.annot (.int 1) :: Q ∈ s₁.annotLists := by
    rw [hlists₁]
    exact List.mem_append_right L List.mem_cons_self
  exact ⟨c, s, hc, hs, hlists, fun h => h hwhole, c₁, s₁, hfill ▸ hc₁, hs₁, _, hmem,
    List.mem_append_right P List.mem_cons_self⟩

end Idl
