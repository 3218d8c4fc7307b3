import Idl.Proofs.Reader.Linked

/-!
# Where the errors of the tokens are

An error points into its source, and its line and column are those of its first octet. Here this is
shown of the errors of cutting a source into tokens, and of every token that is cut.

* §1 places of a source, §2 what is wrong at the front of the input,
* §3 the tokens and the error of a source, §4 sources that are refused as a whole.
-/

namespace Idl

/-! ## §1 Places -/

/-- A place lies within a source, and its line and column are those of where it begins. -/
structure Loc.Within (src : Bytes) (loc : Loc) : Prop where
  bound : loc.span.stop ≤ src.length
  pos : loc.pos = Pos.ofOffset src loc.span.start

/-- The error points into the source. -/
def SyntaxError.Within (src : Bytes) (e : SyntaxError) : Prop := Loc.Within src ⟨e.span, e.pos⟩

variable {src : Bytes}

theorem Reader.Cut.within {t : Token} (h : Reader.Cut src t) : t.loc.Within src := ⟨h.bound, h.pos⟩

/-- An error because of a token points at the token. -/
theorem Reader.Cut.atToken {t : Token} (h : Reader.Cut src t) (cause : SyntaxCause) :
    (SyntaxError.atToken cause t).Within src := h.within

/-! ## §2 Faults -/

/-- A fault lies within what is left of the source. -/
def ScanFault.Fits (f : ScanFault) (b : Bytes) : Prop := f.offset + f.length ≤ b.length

namespace Scan

theorem fits_of_token {kind : TokenKind} {length : Nat} {f : ScanFault} {b : Bytes}
    (h : token kind length = .error f) (hle : length ≤ b.length) : f.Fits b := by
  unfold token at h
  split at h
  · cases h
    simpa [ScanFault.Fits] using hle
  · cases h

theorem bound_of_textEnd {mark : UInt8} {n : Nat} {escaped : Bool} {b : Bytes} {f : ScanFault}
    (h : textEnd mark n escaped b = .error f) : f.offset + f.length ≤ n + b.length := by
  -- by the recursion of the scan: an error lies within what it has passed
  fun_induction textEnd mark n escaped b with
  | case1 =>
    cases h
    simp
  | case2 n c r ih =>
    have := ih h
    simp only [List.length_cons]
    omega
  | case3 n c r =>
    unfold token at h
    split at h <;> cases h
    simp only [List.length_cons]
    omega
  | case4 n c r =>
    cases h
    simp only [List.length_cons]
    omega
  | case5 n c r =>
    cases h
    cases r with
    | nil => simp_all
    | cons d r =>
      simp only [List.length_cons]
      omega
  | case6 n c r =>
    cases h
    simp only [List.length_cons]
    omega
  | case7 n c r hc hctl ih =>
    have := ih h
    simp only [List.length_cons]
    omega

theorem fits_of_number {c : UInt8} {r : Bytes} {f : ScanFault}
    (h : number (c :: r) = .error f) : f.Fits (c :: r) := by
  -- the number takes up its sign, if it has one, and what follows
  have hfinish {sign : Nat} {b : Bytes} (hlength : sign + b.length = r.length + 1)
      (h : (if (unsigned b).2.2 = true then token (unsigned b).1 (sign + (unsigned b).2.1)
        else .error ⟨.badNumber ((c :: r).take (sign + (unsigned b).2.1)), 0,
          sign + (unsigned b).2.1⟩) = .error f) : f.Fits (c :: r) := by
    have hle := Reader.unsigned_le b
    split at h
    · exact fits_of_token h (by rw [List.length_cons]; omega)
    · cases h
      simp only [ScanFault.Fits, List.length_cons]
      omega
  simp only [number] at h
  split at h
  · next b heq =>
    obtain ⟨rfl, rfl⟩ := List.cons.inj heq
    split at h
    · exact hfinish (by omega) h
    · cases h
      simp [ScanFault.Fits]
  · exact hfinish (b := c :: r) (by rw [List.length_cons]; omega) h

theorem fits_of_other {c : UInt8} {r : Bytes} {f : ScanFault} (h : other c r = .error f) :
    f.Fits (c :: r) := by
  unfold other at h
  split at h
  · next x n hfirst =>
    split at h
    · exact fits_of_token h (Reader.blanks_le c r)
    split at h
    · cases h
      simp [ScanFault.Fits]
    · cases h
      rcases Utf8.first_cases c r with ⟨y, k, hy, hk, -⟩ | hstray
      · rw [hfirst] at hy
        cases hy
        simpa [ScanFault.Fits] using hk
      · rw [hfirst] at hstray
        cases hstray
  · cases h
    simp [ScanFault.Fits]

end Scan

/-- What is wrong at the front of the input lies within the input. -/
theorem fits_of_scanToken {c : UInt8} {r : Bytes} {f : ScanFault}
    (h : scanToken c r = .error f) : f.Fits (c :: r) := by
  -- an error reports octets that the scanner has looked at
  cases scannedBy c r with
  | sigil _ hx => cases hx.symm.trans h
  | blanks hc hx =>
    refine Scan.fits_of_token (hx.symm.trans h) ?_
    have hle := Reader.blanks_le c r
    rcases hc with rfl | rfl
    · rwa [Scan.blanks] at hle
    · rwa [Scan.blanks] at hle
  | doubleColon _ _ hx => cases hx.symm.trans h
  | arrow _ _ hx => cases hx.symm.trans h
  | carriageReturn _ _ hx => cases hx.symm.trans h
  | comment _ _ hx =>
    refine Scan.fits_of_token (hx.symm.trans h) ?_
    have hle := Scan.run_le (fun c => c != 0x0A && c != 0x0D) r
    rw [List.length_cons]
    omega
  | blockComment _ _ hindex hx =>
    refine Scan.fits_of_token (hx.symm.trans h) ?_
    have hle := Reader.indexOf?_le hindex (by decide)
    rw [List.length_drop] at hle
    change _ + 2 ≤ _ at hle
    rw [List.length_cons]
    omega
  | unterminated _ _ hx =>
    cases hx.symm.trans h
    simp [ScanFault.Fits]
  | text _ hx =>
    have hle := Scan.bound_of_textEnd (hx.symm.trans h)
    rw [ScanFault.Fits, List.length_cons]
    omega
  | number _ hx => exact Scan.fits_of_number (hx.symm.trans h)
  | ident _ hx =>
    refine Scan.fits_of_token (hx.symm.trans h) ?_
    have hle := Scan.run_le Bytes.isWord r
    rw [List.length_cons]
    omega
  | other hx => exact Scan.fits_of_other (hx.symm.trans h)

/-! ## §3 A source -/

/-- Tokens of a source one after the other, from an offset on. -/
inductive Row (src : Bytes) : Nat → List Token → Prop where
  | nil {n : Nat} : Row src n []
  | cons {n : Nat} {t : Token} {r : List Token} (le : n ≤ t.start) (cut : Reader.Cut src t)
      (text : t.text ≠ []) (rest : Row src t.stop r) : Row src n (t :: r)

namespace Row

variable {m n : Nat} {t : Token} {w : List Token}

theorem of_le (h : Row src n w) (hle : m ≤ n) : Row src m w := by
  cases h with
  | nil => exact .nil
  | cons le cut text rest => exact .cons (hle.trans le) cut text rest

/-- Some tokens may be left out. -/
theorem filter (h : Row src n w) (p : Token → Bool) : Row src n (w.filter p) := by
  induction h with
  | nil => exact .nil
  | @cons n t r le cut text rest ih =>
    rw [List.filter_cons]
    split
    · exact .cons le cut text ih
    · exact ih.of_le (le.trans (Nat.le_add_right _ _))

theorem cut (h : Row src n w) (ht : t ∈ w) : Reader.Cut src t := by
  induction h with
  | nil => cases ht
  | cons le cut text rest ih =>
    rcases List.mem_cons.mp ht with rfl | ht
    · exact cut
    · exact ih ht

end Row

/-- What is cut from a source from an offset on: its tokens, and then its end or an error that
points into it. -/
structure Lexed.Within (src : Bytes) (n : Nat) (l : Lexed) : Prop where
  row : Row src n l.tokens
  eof : ∀ t, l.ending = .ok t → Reader.Cut src t
  error : ∀ e, l.ending = .error e → e.Within src

/-- What is cut from a source from a place on. -/
theorem Reader.Tokens.Good.within {k : Reader.Tokens} (h : k.Good src) :
    (k.lexed src).Within src k.offset := by
  -- on what is left to read; a token takes at least one octet
  induction hn : k.rest.length using Nat.strongRecOn generalizing k with
  | ind n ih =>
    have hlength := congrArg List.length h.rest
    rw [List.length_drop] at hlength
    have hbound := h.bound
    cases hrest : k.rest with
    | nil =>
      rw [lexed_nil hrest]
      refine ⟨.nil, fun t ht => ?_, by simp⟩
      cases ht
      exact h.cut_eof hrest
    | cons c r =>
      have hsize : k.rest.length = r.length + 1 := by rw [hrest, List.length_cons]
      -- whatever is reported lies within what is left
      have hinside {n m : Nat} {cause : SyntaxCause} (hle : n + m ≤ r.length + 1) :
          (locate src cause ⟨k.offset + n, m⟩).Within src := by
        refine ⟨?_, rfl⟩
        dsimp only [locate, Span.stop]
        omega
      cases hscan : scanToken c r with
      | error f =>
        rw [lexed_of_error h hrest hscan]
        refine ⟨.nil, by simp, fun e he => ?_⟩
        cases he
        exact hinside (by simpa [ScanFault.Fits] using fits_of_scanToken hscan)
      | ok x =>
        have hle := length_of_scanToken hscan
        cases hline : k.line.next? x.1 (k.rest.take (x.2 + 1)) with
        | none =>
          rw [lexed_of_split hrest hscan hline]
          refine ⟨.nil, by simp, fun e he => ?_⟩
          cases he
          exact hinside (n := 0) (by omega)
        | some line =>
          rw [lexed_of_ok h hrest hscan hline]
          have hless : (k.rest.drop (x.2 + 1)).length < n := by
            rw [List.length_drop]
            omega
          have hnext := ih _ hless (h.behind hrest hscan line) rfl
          refine ⟨.cons le_rfl (h.cut hrest hscan) ?_ ?_, hnext.eof, hnext.error⟩
          · rw [hrest, List.take_succ_cons]
            exact List.cons_ne_nil _ _
          · refine hnext.row.of_le ?_
            have hoffset : (k.behind (x.2 + 1) line).offset = k.offset + (x.2 + 1) := rfl
            simp only [Token.stop, List.length_take, hoffset]
            omega

/-! ## §4 Refused sources -/

namespace Utf8

/-- Text up to the first replacement character or stray octet, which is not well formed. -/
theorem length_takeWhile_lt {b : Bytes} (h : isValid b = false) :
    (((glyphs b).takeWhile fun g => g.toChar.toNat != 0xFFFD).flatMap Glyph.octets).length
      < b.length := by
  induction hn : b.length using Nat.strongRecOn generalizing b with
  | ind n ih =>
    subst hn
    cases b with
    | nil => cases h
    | cons a r =>
      rw [isValid, glyphs_cons, List.all_cons] at h
      rw [glyphs_cons, List.takeWhile_cons]
      rcases first_cases a r with ⟨c, k, hfirst, hk, hoctets⟩ | hstray
      · rw [hfirst] at h ⊢
        have hrest : isValid (r.drop k) = false := by rwa [Bool.true_and] at h
        split
        · have hlt := ih _ (by rw [List.length_drop, List.length_cons]; omega) hrest rfl
          have hlength := congrArg List.length hoctets
          rw [List.length_cons, List.length_take, Nat.min_eq_left hk] at hlength
          rw [List.length_drop] at hlt
          rw [List.flatMap_cons, List.length_append, Glyph.octets, ← hlength, List.length_cons]
          dsimp only at hlt ⊢
          omega
        · simp
      · rw [hstray]
        simp [Glyph.toChar]

end Utf8

/-- A source that is refused as a whole. -/
theorem within_of_lex_error {e : SyntaxError} (h : lex src = .error e) : e.Within src := by
  unfold lex at h
  split at h
  · cases h
    refine ⟨?_, ?_⟩
    · rw [Span.stop, Nat.zero_add]
      exact Nat.min_le_left _ _
    · simp [Pos.ofOffset, Pos.advance, Utf8.count, Utf8.glyphs, Utf8.scan, Pos.start]
  split at h
  · next hvalid =>
    cases h
    refine ⟨?_, rfl⟩
    exact Utf8.length_takeWhile_lt (by simpa using hvalid)
  · cases h

/-- A source that is cut into tokens. -/
theorem within_of_lex_ok {l : Lexed} (h : lex src = .ok l) : l.Within src 0 := by
  unfold lex at h
  split at h
  · cases h
  split at h
  · cases h
  next hvalid =>
    cases h
    have hvalid : Utf8.isValid src = true := by simpa using hvalid
    exact Reader.Tokens.Good.within (k := ⟨src, 0, .outside⟩) ⟨rfl, Nat.zero_le _, hvalid⟩

end Idl
