import Idl.Token.Scan
import Mathlib.Data.List.TakeWhile

/-!
# How a source is cut

`Lexes n b ts` says that `ts` cuts the octets `b`, which begin at offset `n`, into tokens, each the
one that `scanToken` finds at the front of what is left. A source that is read to its end is cut in
this sense, and all that the grammar needs to know of the cut follows from it.

* §1 the relation and the reader,
* §2 where the tokens stand: in order, none empty, inside the source,
* §3 names: two of them never touch,
* §4 the tokens that the grammar looks at.
-/

namespace Idl

/-! ## §1 Cutting octets into tokens -/

/-- The tokens cut the octets that begin at an offset. -/
inductive Lexes : Nat → Bytes → List Token → Prop where
  /-- Nothing is left. -/
  | nil (n : Nat) : Lexes n [] []
  /-- The first token is the one at the front; the rest is cut in the same way. -/
  | cons {n : Nat} {c : UInt8} {r : Bytes} {kind : TokenKind} {extra : Nat} {ts : List Token}
      (pos : Pos) (scan : scanToken c r = .ok (kind, extra))
      (rest : Lexes (n + (c :: r.take extra).length) (r.drop extra) ts) :
      Lexes n (c :: r) (⟨kind, n, pos, c :: r.take extra⟩ :: ts)

/-- What the reader makes of octets of which `skip` belong to the last token. -/
theorem lexFrom_lexes {skip start : Nat} {pos : Pos} {line : AnnotLine} {acc : List Token}
    {b : Bytes} {e : Token} (h : (lexFrom skip start pos line acc b).ending = .ok e) :
    ∃ ts, (lexFrom skip start pos line acc b).tokens = acc.reverse ++ ts
      ∧ Lexes start (b.drop skip) ts
      ∧ e.kind = .eof ∧ e.text = [] ∧ e.start = start + (b.drop skip).length := by
  fun_induction lexFrom skip start pos line acc b with
  | case1 skip start pos line acc =>
    cases h
    exact ⟨[], by simp, by simpa using Lexes.nil start, rfl, rfl, by simp⟩
  -- a byte of a token already taken is skipped
  | case2 start pos line acc c r n ih =>
    obtain ⟨ts, htokens, hlexes, hkind, htext, hstart⟩ := ih h
    exact ⟨ts, htokens, by simpa using hlexes, hkind, htext, by simpa using hstart⟩
  | case3 => cases h
  | case4 => cases h
  | case5 start pos line acc c r kind extra hscan text line' hline ih =>
    obtain ⟨ts, htokens, hlexes, hkind, htext, hstart⟩ := ih h
    refine ⟨⟨kind, start, pos, text⟩ :: ts, ?_, Lexes.cons pos hscan hlexes, hkind, htext, ?_⟩
    · -- the token is in front of those that follow
      rw [htokens]
      simp
    · rw [hstart]
      simp only [text, List.length_cons, List.length_take, List.length_drop, List.drop_zero]
      omega

/-- A source that is read to its end is cut into its tokens, and the token at the end covers
nothing. -/
theorem lex_lexes {src : Bytes} {l : Lexed} {e : Token} (h : lex src = .ok l)
    (hend : l.ending = .ok e) :
    Lexes 0 src l.tokens ∧ e.kind = .eof ∧ e.text = [] ∧ e.start = src.length := by
  unfold lex at h
  split at h
  · cases h
  · split at h
    · cases h
    · cases h
      -- the source is small enough and valid, so it is cut from its first byte
      obtain ⟨ts, htokens, hlexes, hkind, htext, hstart⟩ := lexFrom_lexes hend
      rw [htokens]
      simpa [hkind, htext, hstart] using hlexes

/-- A source of an admissible size in valid UTF-8 is cut from its first octet on. -/
theorem lex_eq {src : Bytes} (hsize : src.length ≤ maxSourceSize)
    (hvalid : Utf8.isValid src = true) :
    lex src = .ok (lexFrom 0 0 .start .outside [] src) := by
  rw [lex, if_neg (Nat.not_lt.mpr hsize), if_neg (by simp [hvalid])]

/-- A source that is read is no longer than the limit. -/
theorem length_le_of_lex {src : Bytes} {l : Lexed} (h : lex src = .ok l) :
    src.length ≤ maxSourceSize := by
  unfold lex at h
  split at h
  · cases h
  · omega

/-- A source that is read is valid UTF-8. -/
theorem isValid_of_lex {src : Bytes} {l : Lexed} (h : lex src = .ok l) :
    Utf8.isValid src = true := by
  unfold lex at h
  split at h
  · cases h
  split at h
  · cases h
  · next hvalid => simpa using hvalid

/-! ## §2 Where the tokens stand -/

namespace Token

/-- Whether a token ends before another begins. Two names have something between them. -/
structure Before (t u : Token) : Prop where
  le : t.stop ≤ u.start
  apart : t.kind = .ident → u.kind = .ident → t.stop < u.start

end Token

namespace Lexes

variable {n : Nat} {b : Bytes} {ts : List Token} {t : Token}

/-- Every token covers at least one octet, all of them inside what is cut. -/
theorem bounds (h : Lexes n b ts) (ht : t ∈ ts) :
    n ≤ t.start ∧ t.text ≠ [] ∧ t.stop ≤ n + b.length := by
  induction h with
  | nil => cases ht
  | @cons n c r kind extra ts pos scan rest ih =>
    rcases List.mem_cons.mp ht with rfl | ht
    · -- the first token, which has at least one byte
      refine ⟨le_rfl, List.cons_ne_nil _ _, ?_⟩
      simp only [Token.stop, List.length_cons, List.length_take]
      omega
    · obtain ⟨hstart, htext, hstop⟩ := ih ht
      simp only [List.length_cons, List.length_take, List.length_drop] at hstart hstop ⊢
      exact ⟨by omega, htext, by omega⟩

/-- The octets that are cut are those that the tokens cover. -/
theorem flatMap_text (h : Lexes n b ts) : ts.flatMap (·.text) = b := by
  induction h with
  | nil => rfl
  | cons pos scan rest ih => simp [ih]

/-- Only the first token begins at the offset. -/
theorem start_lt (h : Lexes n b (t :: ts)) {u : Token} (hu : u ∈ ts) : n < u.start := by
  cases h with
  | cons pos scan rest =>
    have := (rest.bounds hu).1
    simp only [List.length_cons] at this
    omega

end Lexes

/-! ## §3 Names -/

namespace Scan

/-- A run is as long as it can be: it takes what satisfies the condition. -/
theorem take_run (p : UInt8 → Bool) (b : Bytes) : b.take (run p b) = b.takeWhile p :=
  (List.prefix_iff_eq_take.mp (List.takeWhile_prefix p)).symm

/-- What follows a run. -/
theorem drop_run (p : UInt8 → Bool) (b : Bytes) : b.drop (run p b) = b.dropWhile p := by
  have h := List.take_append_drop (run p b) b
  rw [take_run] at h
  exact List.append_cancel_left (h.trans List.takeWhile_append_dropWhile.symm)

/-- A token has the kind that it is asked for, and its length. -/
theorem token_eq_ok {kind k : TokenKind} {length extra : Nat}
    (h : token kind length = .ok (k, extra)) : k = kind ∧ extra = length - 1 := by
  unfold token at h
  split at h
  · cases h
  · cases h
    exact ⟨rfl, rfl⟩

/-- What a quote opens is a text literal. -/
theorem textEnd_kind {mark : UInt8} {n : Nat} {escaped : Bool} {b : Bytes} {k : TokenKind}
    {extra : Nat} (h : textEnd mark n escaped b = .ok (k, extra)) : k = .textLit := by
  fun_induction textEnd mark n escaped b with
  | case1 => cases h
  | case2 n c r ih => exact ih h
  | case3 => exact (token_eq_ok h).1
  | case4 => cases h
  | case5 => cases h
  | case6 => cases h
  | case7 n c r _ _ ih => exact ih h

/-- The kinds of numbers. -/
def numberKinds : List TokenKind := [.intLit, .octIntLit, .hexIntLit, .floatLit]

/-- A number is a number, whatever its base. -/
theorem unsigned_kind (b : Bytes) : (unsigned b).1 ∈ numberKinds := by
  unfold unsigned radix numberKinds
  grind

/-- A number is of one of the kinds of numbers. -/
theorem number_kind {b : Bytes} {k : TokenKind} {extra : Nat}
    (h : number b = .ok (k, extra)) : k ∈ numberKinds := by
  -- whatever the sign, the kind is that of the digits
  have finish {body : Bytes} {length : Nat} (hk : token (unsigned body).1 length = .ok (k, extra)) :
      k ∈ numberKinds := by
    rw [(token_eq_ok hk).1]
    exact unsigned_kind body
  unfold number at h
  dsimp only at h
  split at h
  · -- a sign has to be followed by a digit
    split at h
    · split at h
      · exact finish h
      · cases h
    · cases h
  · split at h
    · exact finish h
    · cases h

theorem other_kind {c : UInt8} {r : Bytes} {k : TokenKind} {extra : Nat}
    (h : other c r = .ok (k, extra)) : k = .space := by
  unfold other at h
  split at h
  · split at h
    · exact (token_eq_ok h).1
    · split at h <;> cases h
  · cases h

end Scan

/-- The kinds of the tokens that a single octet makes by itself. -/
def TokenKind.sigilKinds : List TokenKind :=
  [.newline, .atSign, .dot, .eq, .comma, .semicolon, .question, .lt, .gt, .openCurl, .closeCurl,
    .openParen, .closeParen, .openSquare, .closeSquare]

theorem TokenKind.mem_sigilKinds {c : UInt8} {kind : TokenKind} (h : ofSigil? c = some kind) :
    kind ∈ sigilKinds := by
  unfold ofSigil? at h
  split at h <;> cases h <;> decide

/-- The ways in which the front of `c :: r` is scanned. What is scanned is a token or a fault. -/
inductive ScannedBy (c : UInt8) (r : Bytes) (x : Except ScanFault (TokenKind × Nat)) : Prop where
  | sigil {kind : TokenKind} (hc : TokenKind.ofSigil? c = some kind) (hx : x = .ok (kind, 0))
  | blanks (hc : c = 0x20 ∨ c = 0x09) (hx : x = Scan.token .space (Scan.blanks 1 r))
  | doubleColon (hc : c = 0x3A) (hr : r.headD 0 = 0x3A) (hx : x = .ok (.doubleColon, 1))
  | arrow (hc : c = 0x2D) (hr : r.headD 0 = 0x3E) (hx : x = .ok (.arrow, 1))
  | carriageReturn (hc : c = 0x0D) (hr : r.headD 0 = 0x0A) (hx : x = .ok (.newline, 1))
  | comment (hc : c = 0x2F) (hr : r.headD 0 = 0x2F)
      (hx : x = Scan.token .comment (1 + Scan.run (fun c => c != 0x0A && c != 0x0D) r))
  | blockComment (hc : c = 0x2F) (hr : r.headD 0 = 0x2A) {n : Nat}
      (h : Bytes.indexOf? (r.drop 1) "*/" = some n) (hx : x = Scan.token .blockComment (n + 4))
  | unterminated (hc : c = 0x2F) (hr : r.headD 0 = 0x2A)
      (hx : x = .error ⟨.unterminatedComment, 0, r.length + 1⟩)
  | text (hc : c = 0x22 ∨ c = 0x27) (hx : x = Scan.textEnd c 1 false r)
  | number (hc : c = 0x2D ∨ Bytes.isDigit c = true) (hx : x = Scan.number (c :: r))
  | ident (hc : c = 0x5F ∨ Bytes.isLetter c = true)
      (hx : x = Scan.token .ident (1 + Scan.run Bytes.isWord r))
  | other (hx : x = Scan.other c r)

theorem scannedBy (c : UInt8) (r : Bytes) : ScannedBy c r (scanToken c r) := by
  unfold scanToken
  cases hsigil : TokenKind.ofSigil? c with
  | some kind => exact .sigil hsigil rfl
  | none =>
    -- the questions of the scanner in their order; each case is what the ones before leave
    dsimp only
    by_cases hblank : (c == 0x20 || c == 0x09) = true
    · rw [if_pos hblank]
      simp only [Bool.or_eq_true, beq_iff_eq] at hblank
      exact .blanks hblank rfl
    rw [if_neg hblank]
    by_cases hcolon : (c == 0x3A && r.headD 0 == 0x3A) = true
    · rw [if_pos hcolon]
      simp only [Bool.and_eq_true, beq_iff_eq] at hcolon
      exact .doubleColon hcolon.1 hcolon.2 rfl
    rw [if_neg hcolon]
    by_cases harrow : (c == 0x2D && r.headD 0 == 0x3E) = true
    · rw [if_pos harrow]
      simp only [Bool.and_eq_true, beq_iff_eq] at harrow
      exact .arrow harrow.1 harrow.2 rfl
    rw [if_neg harrow]
    by_cases hreturn : (c == 0x0D && r.headD 0 == 0x0A) = true
    · rw [if_pos hreturn]
      simp only [Bool.and_eq_true, beq_iff_eq] at hreturn
      exact .carriageReturn hreturn.1 hreturn.2 rfl
    rw [if_neg hreturn]
    by_cases hcomment : (c == 0x2F && r.headD 0 == 0x2F) = true
    · rw [if_pos hcomment]
      simp only [Bool.and_eq_true, beq_iff_eq] at hcomment
      exact .comment hcomment.1 hcomment.2 rfl
    rw [if_neg hcomment]
    by_cases hblock : (c == 0x2F && r.headD 0 == 0x2A) = true
    · rw [if_pos hblock]
      simp only [Bool.and_eq_true, beq_iff_eq] at hblock
      cases hindex : Bytes.indexOf? (r.drop 1) "*/" with
      | some n => exact .blockComment hblock.1 hblock.2 hindex rfl
      | none => exact .unterminated hblock.1 hblock.2 rfl
    rw [if_neg hblock]
    by_cases hquote : (c == 0x22 || c == 0x27) = true
    · rw [if_pos hquote]
      simp only [Bool.or_eq_true, beq_iff_eq] at hquote
      exact .text hquote rfl
    rw [if_neg hquote]
    by_cases hnumber : (c == 0x2D || Bytes.isDigit c) = true
    · rw [if_pos hnumber]
      simp only [Bool.or_eq_true, beq_iff_eq] at hnumber
      exact .number hnumber rfl
    rw [if_neg hnumber]
    by_cases hident : (c == 0x5F || Bytes.isLetter c) = true
    · rw [if_pos hident]
      simp only [Bool.or_eq_true, beq_iff_eq] at hident
      exact .ident hident rfl
    rw [if_neg hident]
    exact .other rfl

/-- The ways in which the token at the front of `c :: r` comes about. -/
inductive ScannedAs (c : UInt8) (r : Bytes) : TokenKind → Nat → Prop where
  | sigil {kind : TokenKind} (hc : TokenKind.ofSigil? c = some kind) : ScannedAs c r kind 0
  | blanks (hc : c = 0x20 ∨ c = 0x09) : ScannedAs c r .space (Scan.blanks 1 r - 1)
  | doubleColon (hc : c = 0x3A) (hr : r.headD 0 = 0x3A) : ScannedAs c r .doubleColon 1
  | arrow (hc : c = 0x2D) (hr : r.headD 0 = 0x3E) : ScannedAs c r .arrow 1
  | carriageReturn (hc : c = 0x0D) (hr : r.headD 0 = 0x0A) : ScannedAs c r .newline 1
  | comment (hc : c = 0x2F) (hr : r.headD 0 = 0x2F) :
      ScannedAs c r .comment (Scan.run (fun c => c != 0x0A && c != 0x0D) r)
  | blockComment (hc : c = 0x2F) {n : Nat} (h : Bytes.indexOf? (r.drop 1) "*/" = some n)
      (hr : r.headD 0 = 0x2A) : ScannedAs c r .blockComment (n + 3)
  | text (hc : c = 0x22 ∨ c = 0x27) {extra : Nat}
      (h : Scan.textEnd c 1 false r = .ok (.textLit, extra)) : ScannedAs c r .textLit extra
  | number (hc : c = 0x2D ∨ Bytes.isDigit c = true) {kind : TokenKind} {extra : Nat}
      (h : Scan.number (c :: r) = .ok (kind, extra)) : ScannedAs c r kind extra
  | ident (hc : c = 0x5F ∨ Bytes.isLetter c = true) :
      ScannedAs c r .ident (Scan.run Bytes.isWord r)
  | other {extra : Nat} (h : Scan.other c r = .ok (.space, extra)) : ScannedAs c r .space extra

/-- How a token is scanned, by the first byte. -/
theorem scannedAs {c : UInt8} {r : Bytes} {kind : TokenKind} {extra : Nat}
    (h : scanToken c r = .ok (kind, extra)) : ScannedAs c r kind extra := by
  cases scannedBy c r with
  | sigil hc hx =>
    cases hx.symm.trans h
    exact .sigil hc
  | blanks hc hx =>
    obtain ⟨rfl, rfl⟩ := Scan.token_eq_ok (hx.symm.trans h)
    exact .blanks hc
  | doubleColon hc hr hx =>
    cases hx.symm.trans h
    exact .doubleColon hc hr
  | arrow hc hr hx =>
    cases hx.symm.trans h
    exact .arrow hc hr
  | carriageReturn hc hr hx =>
    cases hx.symm.trans h
    exact .carriageReturn hc hr
  | comment hc hr hx =>
    obtain ⟨rfl, rfl⟩ := Scan.token_eq_ok (hx.symm.trans h)
    rw [Nat.add_sub_cancel_left]
    exact .comment hc hr
  | blockComment hc hr hindex hx =>
    obtain ⟨rfl, rfl⟩ := Scan.token_eq_ok (hx.symm.trans h)
    exact .blockComment hc hindex hr
  | unterminated _ _ hx => cases hx.symm.trans h
  | text hc hx =>
    rw [hx] at h
    obtain rfl := Scan.textEnd_kind h
    exact .text hc h
  | number hc hx => exact .number hc (hx.symm.trans h)
  | ident hc hx =>
    obtain ⟨rfl, rfl⟩ := Scan.token_eq_ok (hx.symm.trans h)
    rw [Nat.add_sub_cancel_left]
    exact .ident hc
  | other hx =>
    rw [hx] at h
    obtain rfl := Scan.other_kind h
    exact .other h

/-- The end of a source is no token. -/
theorem scanToken_ne_eof {c : UInt8} {r : Bytes} {kind : TokenKind} {extra : Nat}
    (h : scanToken c r = .ok (kind, extra)) : kind ≠ .eof := by
  rintro rfl
  cases scannedAs h with
  | sigil hc => exact absurd (TokenKind.mem_sigilKinds hc) (by decide)
  | number _ h => exact absurd (Scan.number_kind h) (by decide)

/-- The tokens that cut octets are never their end. -/
theorem Lexes.ne_eof {n : Nat} {b : Bytes} {ts : List Token} (h : Lexes n b ts) :
    ∀ t ∈ ts, t.kind ≠ .eof := by
  induction h with
  | nil => simp
  | cons pos scan rest ih => exact List.forall_mem_cons.mpr ⟨scanToken_ne_eof scan, ih⟩

/-- No token before the end is of the kind of the end. -/
theorem lexFrom_ne_eof {skip start : Nat} {pos : Pos} {line : AnnotLine} {acc : List Token}
    {b : Bytes} (hacc : ∀ t ∈ acc, t.kind ≠ .eof) :
    ∀ t ∈ (lexFrom skip start pos line acc b).tokens, t.kind ≠ .eof := by
  fun_induction lexFrom skip start pos line acc b with
  | case1 => simpa using hacc
  | case2 start pos line acc c r n ih => exact ih hacc
  | case3 => simpa using hacc
  | case4 => simpa using hacc
  | case5 start pos line acc c r kind extra hscan text line' hline ih =>
    refine ih fun t ht => ?_
    rcases List.mem_cons.mp ht with rfl | ht
    · exact scanToken_ne_eof hscan
    · exact hacc t ht

/-- The tokens of a source are never its end, also where it is not read to its end. -/
theorem lex_ne_eof {src : Bytes} {l : Lexed} (h : lex src = .ok l) :
    ∀ t ∈ l.tokens, t.kind ≠ .eof := by
  unfold lex at h
  split at h
  · cases h
  · split at h
    · cases h
    · cases h
      exact lexFrom_ne_eof nofun

/-- A name begins with a letter or an underscore and takes in all octets that may continue it. -/
theorem scanToken_ident {c : UInt8} {r : Bytes} {extra : Nat}
    (h : scanToken c r = .ok (.ident, extra)) :
    (c = 0x5F ∨ Bytes.isLetter c = true) ∧ extra = Scan.run Bytes.isWord r := by
  cases scannedAs h with
  | sigil hc => exact absurd (TokenKind.mem_sigilKinds hc) (by decide)
  | number _ h => exact absurd (Scan.number_kind h) (by decide)
  | ident hc => exact ⟨hc, rfl⟩

/-- The octets of a name are those that may continue one. -/
theorem isWord_of_ident {c : UInt8} {r : Bytes} {extra : Nat}
    (h : scanToken c r = .ok (.ident, extra)) :
    ∀ x ∈ c :: r.take extra, Bytes.isWord x = true := by
  obtain ⟨hc, rfl⟩ := scanToken_ident h
  intro x hx
  rcases List.mem_cons.mp hx with rfl | hx
  · rcases hc with rfl | hc
    · decide
    · simp [Bytes.isWord, hc]
  · rw [Scan.take_run] at hx
    exact List.mem_takeWhile_imp hx

namespace Lexes

variable {n : Nat} {b : Bytes} {ts : List Token} {t : Token}

/-- The octets of a name are those that may continue one. -/
theorem isWord_text (h : Lexes n b ts) (ht : t ∈ ts) (hkind : t.kind = .ident) :
    ∀ x ∈ t.text, Bytes.isWord x = true := by
  induction h with
  | nil => cases ht
  | cons pos scan rest ih =>
    rcases List.mem_cons.mp ht with rfl | ht
    · subst hkind
      exact isWord_of_ident scan
    · exact ih ht

/-- After a name comes an octet that cannot continue it, so that no name follows directly. -/
theorem not_ident_of_ident {c : UInt8} {r : Bytes} {extra : Nat}
    (scan : scanToken c r = .ok (.ident, extra)) (rest : Lexes n (r.drop extra) (t :: ts)) :
    t.kind ≠ .ident := by
  intro hkind
  obtain ⟨-, rfl⟩ := scanToken_ident scan
  rw [Scan.drop_run] at rest
  generalize hd : r.dropWhile Bytes.isWord = d at rest
  cases rest with
  | @cons _ c' r' kind extra' _ pos' scan' rest' =>
    dsimp only at hkind
    subst hkind
    have hword : Bytes.isWord c' = true := isWord_of_ident scan' c' (List.mem_cons_self ..)
    -- the run of word bytes was as long as it could be
    have hnot := List.head?_dropWhile_not Bytes.isWord r
    rw [hd] at hnot
    simp [hword] at hnot

/-- The tokens stand one before the other. -/
theorem pairwise_before (h : Lexes n b ts) : ts.Pairwise Token.Before := by
  induction h with
  | nil => exact List.Pairwise.nil
  | @cons n c r kind extra ts pos scan rest ih =>
    refine List.Pairwise.cons ?_ ih
    intro u hu
    have hle := (rest.bounds hu).1
    refine ⟨hle, fun hkind hu' => ?_⟩
    dsimp only at hkind
    subst hkind
    -- a name cannot be the very next token, and any other token has the next one in front of it
    cases ts with
    | nil => cases hu
    | cons v vs =>
      rcases List.mem_cons.mp hu with rfl | hu
      · exact absurd hu' (not_ident_of_ident scan rest)
      · exact rest.start_lt hu

end Lexes

/-! ## §4 The significant tokens -/

namespace Token

/-- What the order of tokens in a source comes down to. -/
structure InOrder (ts : List Token) (e : Token) : Prop where
  pairwise : ts.Pairwise Before
  text : ∀ t ∈ ts, t.text ≠ []
  le : ∀ t ∈ ts, t.stop ≤ e.start

namespace InOrder

variable {n : Nat} {e t : Token} {ts : List Token}

theorem tail (h : InOrder (t :: ts) e) : InOrder ts e where
  pairwise := (List.pairwise_cons.mp h.pairwise).2
  text u hu := h.text u (List.mem_cons_of_mem _ hu)
  le u hu := h.le u (List.mem_cons_of_mem _ hu)

theorem length_pos (h : InOrder (t :: ts) e) : 0 < t.text.length :=
  List.length_pos_iff.mpr (h.text t (List.mem_cons_self ..))

end InOrder

end Token

/-- The significant ones of the tokens that cut a source are in order. -/
theorem Lexes.inOrder {src : Bytes} {ts : List Token} {e : Token} (h : Lexes 0 src ts)
    (he : e.start = src.length) :
    Token.InOrder (ts.filter fun t => !t.kind.isTrivia) e := by
  refine ⟨h.pairwise_before.filter _, fun t ht => ?_, fun t ht => ?_⟩
  · exact (h.bounds (List.mem_filter.mp ht).1).2.1
  · have := (h.bounds (List.mem_filter.mp ht).1).2.2
    omega

/-- The significant tokens of a source are in order. -/
theorem significant_inOrder {src : Bytes} {l : Lexed} {e : Token} (h : lex src = .ok l)
    (hend : l.ending = .ok e) : Token.InOrder l.significant e := by
  obtain ⟨hlexes, -, -, hstart⟩ := lex_lexes h hend
  exact hlexes.inOrder hstart

end Idl
