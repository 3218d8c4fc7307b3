import Idl.Proofs.Token.Lines
import Idl.Tree.Literal

/-!
# Where lines end

The octet that ends a line occurs in newlines, in comments between marks, and behind a backslash in
a text literal. A text literal with such a backslash is cut like any other one but denotes nothing.
So a run of tokens holds the end of a line only where one of its newlines or comments does.

* §1 runs of octets, §2 numbers, §3 text literals,
* §4 single tokens, §5 tokens of a source,
* §6 the line of an annotation.
-/

namespace Idl

namespace Scan

variable {b : Bytes} {m n : Nat}

/-! ## §1 Runs of octets -/

/-- No line ends among the first `n` octets. -/
def Unbroken (b : Bytes) (n : Nat) : Prop := 0x0A ∉ b.take n

theorem unbroken_zero : Unbroken b 0 := by simp [Unbroken]

theorem Unbroken.cons {c : UInt8} {r : Bytes} (hc : c ≠ 0x0A) (hr : Unbroken r n) :
    Unbroken (c :: r) (n + 1) := by
  rw [Unbroken, List.take_succ_cons, List.mem_cons, not_or]
  exact ⟨hc.symm, hr⟩

/-- Behind the first octet of a token. -/
theorem Unbroken.tail {c : UInt8} {r : Bytes} (h : Unbroken (c :: r) n) : Unbroken r (n - 1) := by
  cases n with
  | zero => exact unbroken_zero
  | succ n => exact fun hmem => h (List.mem_cons_of_mem c hmem)

theorem unbroken_run {p : UInt8 → Bool} (hp : p 0x0A = false) (b : Bytes) : Unbroken b (run p b) := by
  intro hmem
  rw [take_run] at hmem
  rw [List.mem_takeWhile_imp hmem] at hp
  cases hp

theorem le_blanks (n : Nat) (b : Bytes) : n ≤ blanks n b := by
  fun_induction blanks n b <;> omega

/-- Blanks hold no line feed. -/
theorem unbroken_blanks (n : Nat) (b : Bytes) : Unbroken b (blanks n b - n) := by
  -- along the blanks, of one, two or three octets
  fun_induction blanks n b with
  | case1 n r ih =>
    have hle := le_blanks (n + 1) r
    rw [show blanks (n + 1) r - n = (blanks (n + 1) r - (n + 1)) + 1 by omega]
    exact ih.cons (by decide)
  | case2 n r ih =>
    have hle := le_blanks (n + 1) r
    rw [show blanks (n + 1) r - n = (blanks (n + 1) r - (n + 1)) + 1 by omega]
    exact ih.cons (by decide)
  | case3 n r ih =>
    have hle := le_blanks (n + 2) r
    rw [show blanks (n + 2) r - n = (blanks (n + 2) r - (n + 2)) + 1 + 1 by omega]
    exact (ih.cons (by decide)).cons (by decide)
  | case4 n r ih =>
    have hle := le_blanks (n + 3) r
    rw [show blanks (n + 3) r - n = (blanks (n + 3) r - (n + 3)) + 1 + 1 + 1 by omega]
    exact ((ih.cons (by decide)).cons (by decide)).cons (by decide)
  | case5 => simpa using unbroken_zero

/-! ## §2 Numbers -/

/-- The first `n` octets are ASCII characters, none of which ends a line. -/
def Plain (b : Bytes) (n : Nat) : Prop := ∀ x ∈ b.take n, x.toNat < 0x80 ∧ x ≠ 0x0A

theorem plain_zero : Plain b 0 := by simp [Plain]

theorem Plain.add (hm : Plain b m) (hn : Plain (b.drop m) n) : Plain b (m + n) := by
  rw [Plain, List.take_add, List.forall_mem_append]
  exact ⟨hm, hn⟩

theorem Plain.cons {c : UInt8} {r : Bytes} (hc : c.toNat < 0x80 ∧ c ≠ 0x0A) (hr : Plain r n) :
    Plain (c :: r) (n + 1) := by
  rw [Plain, List.take_succ_cons, List.forall_mem_cons]
  exact ⟨hc, hr⟩

/-- Behind the first octet of a token. -/
theorem Plain.tail {c : UInt8} {r : Bytes} (h : Plain (c :: r) n) : Plain r (n - 1) := by
  cases n with
  | zero => exact plain_zero
  | succ n => exact fun x hx => h x (List.mem_cons_of_mem c hx)

theorem Plain.unbroken (h : Plain b n) : Unbroken b n := fun hmem => (h _ hmem).2 rfl

theorem plain_of_isWord {c : UInt8} (h : Bytes.isWord c = true) : c.toNat < 0x80 ∧ c ≠ 0x0A := by
  refine ⟨?_, by rintro rfl; cases h⟩
  simp only [Bytes.isWord, Bytes.isLetter, Bytes.isDigit, Bool.or_eq_true, Bool.and_eq_true,
    decide_eq_true_eq, beq_iff_eq, UInt8.le_iff_toNat_le, ← UInt8.toNat_inj, UInt8.reduceToNat] at h
  omega

theorem isWord_of_isDigit {c : UInt8} (h : Bytes.isDigit c = true) : Bytes.isWord c = true := by
  simp [Bytes.isWord, h]

theorem plain_run {p : UInt8 → Bool} (hp : ∀ c, p c = true → Bytes.isWord c = true) (b : Bytes) :
    Plain b (run p b) := by
  intro c hc
  rw [take_run] at hc
  exact plain_of_isWord (hp c (List.mem_takeWhile_imp hc))

/-- The mark of a radix holds no line break. -/
theorem plain_radix (b : Bytes) : Plain b (radix b).2.2 := by
  unfold radix
  split
  · next c r =>
    split
    · next hc =>
      simp only [Bool.or_eq_true, beq_iff_eq] at hc
      refine (Plain.cons (n := 0) ?_ plain_zero).cons (by decide)
      rcases hc with rfl | rfl <;> decide
    · split
      · exact plain_zero.cons (by decide)
      · exact plain_zero
  · exact plain_zero

/-- The digits of every base can be in names. -/
theorem isWord_of_radix (b : Bytes) (c : UInt8) (h : (radix b).2.1 c = true) :
    Bytes.isWord c = true := by
  -- the digits of every base are word characters
  have hhex (h : Bytes.isHexDigit c = true) : Bytes.isWord c = true := by
    simp only [Bytes.isHexDigit, Bytes.isDigit, Bytes.isWord, Bytes.isLetter, Bool.or_eq_true,
      Bool.and_eq_true, decide_eq_true_eq, beq_iff_eq, UInt8.le_iff_toNat_le, ← UInt8.toNat_inj,
      UInt8.reduceToNat] at h ⊢
    omega
  have hoct (h : Bytes.isOctDigit c = true) : Bytes.isDigit c = true := by
    simp only [Bytes.isOctDigit, Bytes.isDigit, Bool.and_eq_true, decide_eq_true_eq,
      UInt8.le_iff_toNat_le, UInt8.reduceToNat] at h ⊢
    omega
  unfold radix at h
  split at h
  · split at h
    · exact hhex h
    · split at h
      · exact isWord_of_isDigit (hoct h)
      · exact isWord_of_isDigit h
  · exact isWord_of_isDigit h

theorem plain_fraction (b : Bytes) : Plain b (fraction b) := by
  unfold fraction
  split
  · next c r =>
    split
    · next hc =>
      rw [show 2 + run Bytes.isDigit r = run Bytes.isDigit r + 1 + 1 by omega]
      exact ((plain_run (fun _ => isWord_of_isDigit) r).cons
        (plain_of_isWord (isWord_of_isDigit hc))).cons (by decide)
    · exact plain_zero
  · exact plain_zero

/-- The sign of an exponent. -/
theorem plain_sign (r : Bytes) :
    Plain r (match r with | s :: _ => if s == 0x2B || s == 0x2D then 1 else 0 | [] => 0) := by
  cases r with
  | nil => exact plain_zero
  | cons s r =>
    dsimp only
    split
    · -- one of the two signs
      next hs =>
      simp only [Bool.or_eq_true, beq_iff_eq] at hs
      refine plain_zero.cons ?_
      rcases hs with rfl | rfl <;> decide
    · exact plain_zero

/-- An exponent holds no line break. -/
theorem plain_exponent (b : Bytes) : Plain b (exponent b).1 := by
  unfold exponent
  split
  · next c r =>
    split
    · -- the mark in either case, the sign, and the digits
      next hc =>
      simp only [Bool.or_eq_true, beq_iff_eq] at hc
      dsimp only
      rw [Nat.add_assoc, Nat.add_comm 1]
      refine Plain.cons ?_ ((plain_sign r).add (plain_run (fun _ => isWord_of_isDigit) _))
      rcases hc with rfl | rfl <;> decide
    · exact plain_zero
  · exact plain_zero

/-- The digits of a number hold no line break. -/
theorem plain_unsigned (b : Bytes) : Plain b (unsigned b).2.1 := by
  have hlead := plain_radix b
  have hdigit := isWord_of_radix b
  unfold unsigned
  generalize radix b = x at hlead hdigit
  obtain ⟨kind, isDigit, lead⟩ := x
  dsimp only at hlead hdigit ⊢
  have hdigits := hlead.add (plain_run hdigit (b.drop lead))
  have hword (b : Bytes) := plain_run (fun _ h => h) (p := Bytes.isWord) b
  -- a decimal number goes on with a fraction and an exponent
  split
  · exact ((hdigits.add (plain_fraction _)).add (plain_exponent _)).add (hword _)
  · exact hdigits.add (hword _)

/-- A number consists of ASCII characters. -/
theorem plain_number {c : UInt8} {r : Bytes} {k : TokenKind} {extra : Nat}
    (h : number (c :: r) = .ok (k, extra)) : Plain r extra := by
  -- the sign, if there is one, is plain, and the rest is scanned without it
  have finish (sign : Nat) (body : Bytes) (hbody : (c :: r).drop sign = body)
      (hsign : Plain (c :: r) sign)
      (hk : token (unsigned body).1 (sign + (unsigned body).2.1) = .ok (k, extra)) :
      Plain r extra := by
    rw [(token_eq_ok hk).2]
    subst hbody
    exact (hsign.add (plain_unsigned _)).tail
  unfold number at h
  dsimp only at h
  split at h
  · next body heq =>
    split at h
    · split at h
      · obtain ⟨rfl, rfl⟩ := List.cons.inj heq
        exact finish 1 r rfl (plain_zero.cons (by decide)) h
      · cases h
    · cases h
  · split at h
    · exact finish 0 (c :: r) rfl plain_zero h
    · cases h

/-- A run within the first `k` octets. -/
theorem take_run_take (p : UInt8 → Bool) (b : Bytes) (k : Nat) :
    b.take (run p (b.take k)) = (b.take k).takeWhile p :=
  (List.prefix_iff_eq_take.mp ((List.takeWhile_prefix p).trans (List.take_prefix k b))).symm

end Scan

/-! ## §3 Text literals -/

/-- A backslash and the end of a line are no escape, and an escape holds no other backslash. -/
theorem escape_cons {c : UInt8} {r : Bytes} {x : UInt8} {k : Nat} (h : escape (c :: r) = .ok (x, k)) :
    c ≠ 0x0A ∧ ∃ j, k = j + 1 ∧ ∀ y ∈ r.take j, y ≠ 0x5C := by
  -- none of the digits of an escape is a backslash
  have hhex {y : UInt8} (hy : Bytes.isHexDigit y = true) : y ≠ 0x5C := by
    rintro rfl
    cases hy
  have hoct {y : UInt8} (hy : Bytes.isOctDigit y = true) : y ≠ 0x5C := by
    rintro rfl
    cases hy
  unfold escape at h
  dsimp only at h
  split at h
  · next hsimple =>
    cases h
    refine ⟨?_, 0, rfl, by simp⟩
    rintro rfl
    cases hsimple
  · split at h
    · next hx =>
      split at h
      · cases h
      · cases h
        refine ⟨?_, _, Nat.add_comm .., fun y hy => ?_⟩
        · rintro rfl
          cases hx
        · refine hhex (List.mem_takeWhile_imp (l := r.take 2) ?_)
          rw [← Scan.take_run_take]
          exact hy
    · split at h
      · next hc =>
        split at h
        · cases h
        · cases h
          rw [List.take_succ_cons, List.takeWhile_cons_of_pos hc]
          refine ⟨?_, _, rfl, fun y hy => ?_⟩
          · rintro rfl
            cases hc
          · refine hoct (List.mem_takeWhile_imp (l := r.take 2) ?_)
            rw [← Scan.take_run_take]
            exact hy
      · cases h

/-- No line ends in a text literal that denotes something. The reader of tokens and the reader of
escapes agree on which backslashes escape: the octets that an escape covers besides the first are
digits. -/
theorem unbroken_textEnd {mark : UInt8} {n m skip extra : Nat} {acc v b : Bytes} {k : TokenKind}
    (hmark : mark ≠ 0x0A) (h : Scan.textEnd mark n false b = .ok (k, extra))
    (hskip : ∀ y ∈ (b.take (extra - n)).take skip, y ≠ 0x5C)
    (hvalue : decodeBody skip m acc (b.take (extra - n)) = .ok v) :
    Scan.Unbroken b (extra - n + 1) := by
  -- on the rest of the text, since an escape takes two octets at once;
  -- `skip` counts those of an escape that have been decoded with it
  induction hlen : b.length using Nat.strongRecOn generalizing b n m skip acc with
  | ind len ih =>
    cases b with
    | nil => cases h
    | cons c r =>
      rw [List.length_cons] at hlen
      unfold Scan.textEnd at h
      split at h
      · next hc =>
        rw [(Scan.token_eq_ok h).2, Nat.add_sub_cancel, Nat.sub_self, beq_iff_eq.mp hc]
        exact Scan.unbroken_zero.cons hmark
      · split at h
        -- a control character ends the text with an error
        · split at h
          · cases h
          · split at h <;> cases h
        · next hctl =>
          have hc : c ≠ 0x0A := by
            rintro rfl
            exact hctl rfl
          have hle := Scan.le_of_textEnd h
          rw [show extra - n = (extra - (n + 1)) + 1 by omega] at hskip hvalue ⊢
          rw [List.take_succ_cons] at hskip hvalue
          refine Scan.Unbroken.cons hc ?_
          by_cases hback : c = 0x5C
          · subst hback
            -- a backslash, and the octet that it escapes
            cases r with
            | nil => cases h
            | cons d r =>
              have h : Scan.textEnd mark (n + 1 + 1) false r = .ok (k, extra) := h
              have hle := Scan.le_of_textEnd h
              rw [show extra - (n + 1) = (extra - (n + 1 + 1)) + 1 by omega] at hskip hvalue ⊢
              rw [List.take_succ_cons] at hskip hvalue
              cases skip with
              | succ skip => exact absurd rfl (hskip 0x5C (by simp))
              | zero =>
                rw [decodeBody, if_pos (beq_self_eq_true _)] at hvalue
                split at hvalue
                · next x j hescape =>
                  obtain ⟨hd, j, rfl, hj⟩ := escape_cons hescape
                  rw [decodeBody] at hvalue
                  refine Scan.Unbroken.cons hd ?_
                  exact ih r.length (by simp only [List.length_cons] at hlen; omega) h hj hvalue rfl
                · cases hvalue
          · rw [beq_false_of_ne hback] at h
            cases skip with
            | succ skip =>
              rw [decodeBody] at hvalue
              rw [List.take_succ_cons, List.forall_mem_cons] at hskip
              exact ih r.length (by omega) h hskip.2 hvalue rfl
            | zero =>
              rw [decodeBody, if_neg (by simpa using hback)] at hvalue
              exact ih r.length (by omega) h (by simp) hvalue rfl

/-- A text does not end beyond the source. -/
theorem Scan.length_of_textEnd {mark : UInt8} {n extra : Nat} {escaped : Bool} {b : Bytes}
    {k : TokenKind} (h : textEnd mark n escaped b = .ok (k, extra)) : extra < n + b.length := by
  fun_induction textEnd mark n escaped b with
  | case1 => cases h
  | case2 n c r ih =>
    have := ih h
    simp only [List.length_cons]
    omega
  -- the closing mark
  | case3 n c r hc =>
    have := (token_eq_ok h).2
    simp only [List.length_cons]
    omega
  | case4 => cases h
  | case5 => cases h
  | case6 => cases h
  | case7 n c r hc hctl ih =>
    have := ih h
    simp only [List.length_cons]
    omega

/-- No line ends in the text of a literal that denotes something. -/
theorem not_mem_textLit {c : UInt8} {r : Bytes} {extra : Nat} {v : Bytes}
    (h : scanToken c r = .ok (.textLit, extra)) (hvalue : textLitValue (c :: r.take extra) = .ok v) :
    0x0A ∉ c :: r.take extra := by
  obtain ⟨hquote, hend⟩ := scanToken_textLit h
  have hc : c ≠ 0x0A := by rcases hquote with rfl | rfl <;> decide
  have hlength := Scan.length_of_textEnd hend
  have hle := Scan.le_of_textEnd hend
  -- the body without the quotes is what the scan passed before the closing one
  have hbody : ((c :: r.take extra).drop 1).take ((c :: r.take extra).length - 2)
      = r.take (extra - 1) := by
    rw [List.drop_one, List.tail_cons, List.length_cons, List.length_take, List.take_take]
    congr 1
    omega
  rw [textLitValue, hbody] at hvalue
  have hunbroken := unbroken_textEnd hc hend (by simp) hvalue
  rw [Nat.sub_add_cancel hle] at hunbroken
  exact List.not_mem_cons_of_ne_of_not_mem hc.symm hunbroken

/-! ## §4 Single tokens -/

theorem Scan.unbroken_other {c : UInt8} {r : Bytes} {k : TokenKind} {extra : Nat}
    (h : other c r = .ok (k, extra)) : Unbroken r extra := by
  unfold other at h
  split at h
  · split at h
    · rw [(token_eq_ok h).2]
      exact (unbroken_blanks 0 (c :: r)).tail
    · split at h <;> cases h
  · cases h

/-- The kinds of tokens in which lines can end. -/
def lineEndKinds : List TokenKind := [.newline, .blockComment, .textLit]

/-- The second of two octets that make a token. -/
theorem Scan.unbroken_one {r : Bytes} {d : UInt8} (hd : d ≠ 0x0A) (hr : r.headD 0 = d) :
    Unbroken r 1 := by
  cases r with
  | nil => simp [Unbroken]
  | cons x r =>
    obtain rfl : x = d := hr
    exact unbroken_zero.cons hd

/-- In most tokens no line ends. -/
theorem not_mem_of_scanToken {c : UInt8} {r : Bytes} {kind : TokenKind} {extra : Nat}
    (h : scanToken c r = .ok (kind, extra)) (hkind : kind ∉ lineEndKinds) :
    0x0A ∉ c :: r.take extra := by
  have hc : c ≠ 0x0A := by
    rintro rfl
    cases h
    exact hkind (by decide)
  refine List.not_mem_cons_of_ne_of_not_mem hc.symm ?_
  -- only line feeds, carriage returns, block comments and texts can hold one
  cases scannedAs h with
  | sigil => exact Scan.unbroken_zero
  | blanks => exact Scan.unbroken_blanks 1 r
  | doubleColon _ hr => exact Scan.unbroken_one (by decide) hr
  | arrow _ hr => exact Scan.unbroken_one (by decide) hr
  | carriageReturn => exact absurd (by decide) hkind
  | comment => exact Scan.unbroken_run rfl r
  | blockComment => exact absurd (by decide) hkind
  | text => exact absurd (by decide) hkind
  | number _ h => exact (Scan.plain_number h).unbroken
  | ident => exact Scan.unbroken_run rfl r
  | other h => exact Scan.unbroken_other h

theorem eq_newline_of_ofSigil? {c : UInt8} (h : TokenKind.ofSigil? c = some .newline) : c = 0x0A := by
  unfold TokenKind.ofSigil? at h
  split at h <;> cases h
  rfl

/-- A line ends in every newline. -/
theorem mem_of_newline {c : UInt8} {r : Bytes} {extra : Nat}
    (h : scanToken c r = .ok (.newline, extra)) : 0x0A ∈ c :: r.take extra := by
  -- a line break is one byte, or the second one of two
  cases scannedAs h with
  | sigil hc =>
    rw [eq_newline_of_ofSigil? hc]
    exact List.mem_cons_self
  | carriageReturn _ hr =>
    cases r with
    | nil => cases hr
    | cons d r =>
      obtain rfl : d = 0x0A := hr
      simp
  | number _ h => exact absurd (Scan.number_kind h) (by decide)

/-- A comment goes up to the end of its line. -/
theorem newline_of_comment {c d : UInt8} {r q : Bytes} {extra extra' : Nat} {kind : TokenKind}
    (h : scanToken c r = .ok (.comment, extra)) (hrest : r.drop extra = d :: q)
    (hnext : scanToken d q = .ok (kind, extra')) : kind = .newline := by
  -- a line comment runs to a line end, so the next octet is one of the two
  have hd : d = 0x0A ∨ d = 0x0D := by
    cases scannedAs h with
    | sigil hc => exact absurd (TokenKind.mem_sigilKinds hc) (by decide)
    | number _ h => exact absurd (Scan.number_kind h) (by decide)
    | comment =>
      rw [Scan.drop_run] at hrest
      have hnot := List.head?_dropWhile_not (fun c => c != 0x0A && c != 0x0D) r
      rw [hrest] at hnot
      simp only [List.head?_cons] at hnot
      by_cases hd : d = 0x0A
      · exact .inl hd
      · exact .inr (by simpa [hd] using hnot)
  rcases hd with rfl | rfl
  · cases hnext
    rfl
  -- no other token starts with a carriage return
  · cases scannedAs hnext with
    | sigil hc => cases hc
    | carriageReturn => rfl
    | blanks hc => rcases hc with hc | hc <;> cases hc
    | text hc => rcases hc with hc | hc <;> cases hc
    | number hc => rcases hc with hc | hc <;> cases hc
    | ident hc => rcases hc with hc | hc <;> cases hc
    | other h => cases h
    | doubleColon hc => cases hc
    | arrow hc => cases hc
    | comment hc => cases hc
    | blockComment hc _ => cases hc

/-! ## §5 Tokens of a source -/

/-- Each token of a source stands at the front of something, also if the source is not read to its
end. -/
theorem lexFrom_scanned {skip start : Nat} {pos : Pos} {line : AnnotLine} {acc : List Token}
    {b : Bytes} (hacc : ∀ t ∈ acc, ∃ c r extra,
      scanToken c r = .ok (t.kind, extra) ∧ t.text = c :: r.take extra) :
    ∀ t ∈ (lexFrom skip start pos line acc b).tokens, ∃ c r extra,
      scanToken c r = .ok (t.kind, extra) ∧ t.text = c :: r.take extra := by
  fun_induction lexFrom skip start pos line acc b with
  | case1 => simpa using hacc
  | case2 start pos line acc c r n ih => exact ih hacc
  | case3 => simpa using hacc
  | case4 => simpa using hacc
  -- the new token joins those scanned before
  | case5 start pos line acc c r kind extra hscan text line' hline ih =>
    refine ih fun t ht => ?_
    rcases List.mem_cons.mp ht with rfl | ht
    · exact ⟨c, r, extra, hscan, rfl⟩
    · exact hacc t ht

theorem lex_scanned {src : Bytes} {l : Lexed} (h : lex src = .ok l) {t : Token}
    (ht : t ∈ l.tokens) :
    ∃ c r extra, scanToken c r = .ok (t.kind, extra) ∧ t.text = c :: r.take extra := by
  unfold lex at h
  split at h
  · cases h
  split at h
  · cases h
  cases h
  exact lexFrom_scanned (List.forall_mem_nil _) t ht

namespace Lexes

variable {n : Nat} {b : Bytes} {ts us : List Token} {t u : Token}

/-- Each token is one that stands at the front of something. -/
theorem exists_scanToken (h : Lexes n b ts) (ht : t ∈ ts) :
    ∃ c r extra, scanToken c r = .ok (t.kind, extra) ∧ t.text = c :: r.take extra := by
  induction h with
  | nil => cases ht
  | cons pos scan rest ih =>
    rcases List.mem_cons.mp ht with rfl | ht
    · exact ⟨_, _, _, scan, rfl⟩
    · exact ih ht

/-- The tokens behind some others cut what is left. -/
theorem append_right (h : Lexes n b (ts ++ us)) : ∃ m c, Lexes m c us := by
  induction ts generalizing n b with
  | nil => exact ⟨n, b, h⟩
  | cons t ts ih =>
    cases h with
    | cons pos scan rest => exact ih rest

/-- A comment that is not the last token is followed by a newline. -/
theorem newline_of_comment (h : Lexes n b (ts ++ t :: u :: us)) (ht : t.kind = .comment) :
    u.kind = .newline := by
  obtain ⟨m, c, h⟩ := h.append_right
  cases h with
  | @cons _ _ _ _ extra _ pos scan rest =>
    dsimp only at ht
    subst ht
    generalize hrest : List.drop extra _ = x at rest
    cases rest with
    | cons pos scan' rest' => exact Idl.newline_of_comment scan hrest scan'

end Lexes

/-- No line ends in a source from one offset up to another. -/
def OneLine (src : Bytes) (i j : Nat) : Prop := ∀ k < j, i ≤ k → src[k]? ≠ some 0x0A

instance (src : Bytes) (i j : Nat) : Decidable (OneLine src i j) :=
  Nat.decidableBallLT j fun k _ => i ≤ k → src[k]? ≠ some 0x0A

theorem oneLine_append {x m y : Bytes} :
    OneLine (x ++ (m ++ y)) x.length (x.length + m.length) ↔ 0x0A ∉ m := by
  constructor
  · intro h hmem
    obtain ⟨k, hk, hget⟩ := List.getElem_of_mem hmem
    refine h (x.length + k) (by omega) (by omega) ?_
    rw [List.getElem?_append_right (by omega), Nat.add_sub_cancel_left,
      List.getElem?_append_left hk, List.getElem?_eq_getElem hk, hget]
  · intro h k hk hle hget
    rw [List.getElem?_append_right hle, List.getElem?_append_left (by omega)] at hget
    exact h (List.mem_of_getElem? hget)

/-- No line ends from one token to another if and only if none ends in any of the tokens. -/
theorem Lexes.oneLine_iff {src : Bytes} {xs ms ys : List Token} {t u : Token}
    (h : Lexes 0 src (xs ++ t :: (ms ++ u :: ys))) :
    OneLine src t.start u.stop ↔ ∀ m ∈ t :: (ms ++ [u]), 0x0A ∉ m.text := by
  have hstart : t.start = (xs.flatMap (·.text)).length := by simpa using h.start_eq
  have hstop : u.stop = (xs.flatMap (·.text)).length + ((t :: (ms ++ [u])).flatMap (·.text)).length := by
    have hu : Lexes 0 src ((xs ++ t :: ms) ++ u :: ys) := by simpa using h
    rw [Token.stop, hu.start_eq]
    simp
    omega
  -- the source is the texts of the tokens, so the part between is theirs
  have hsrc : src = xs.flatMap (·.text)
      ++ ((t :: (ms ++ [u])).flatMap (·.text) ++ ys.flatMap (·.text)) := by
    rw [← h.flatMap_text]
    simp
  rw [hstart, hstop, hsrc, oneLine_append]
  simp only [List.mem_flatMap, not_exists, not_and]

/-! ## §6 The line of an annotation -/

namespace AnnotLine

variable {ws : List (TokenKind × Bytes)}

theorem isTrivia_cases {kind : TokenKind} (h : kind.isTrivia = true) :
    kind = .space ∨ kind = .newline ∨ kind = .comment ∨ kind = .blockComment := by
  unfold TokenKind.isTrivia at h
  split at h
  · exact .inl rfl
  · exact .inr (.inl rfl)
  · exact .inr (.inr (.inl rfl))
  · exact .inr (.inr (.inr rfl))
  · cases h

/-- A blank on a line, or a comment that does not go over its end. -/
def OnLine (w : TokenKind × Bytes) : Prop := w.1 = .space ∨ w.1 = .blockComment ∧ 0x0A ∉ w.2

theorem next?_name_of_onLine {w : TokenKind × Bytes} (h : OnLine w) :
    next? .name w.1 w.2 = some .name := by
  rcases h with h | ⟨h, htext⟩
  · rw [h]
    rfl
  · rw [h]
    simp [next?, breaksLine, htext]

/-- A name goes on where no line ends. -/
theorem run?_name_of_onLine (h : ∀ w ∈ ws, namePart w.1 = true ∨ OnLine w) :
    run? .name ws = some .name := by
  induction ws with
  | nil => rfl
  | cons w ws ih =>
    obtain ⟨hw, hws⟩ := List.forall_mem_cons.mp h
    -- a part of the name, or white space on the same line
    have hnext : next? .name w.1 w.2 = some .name := by
      rcases hw with hw | hw
      · revert hw
        cases w.1 <;> simp [namePart, next?]
      · exact next?_name_of_onLine hw
    rw [run?_cons, hnext, Option.bind_some, ih hws]

/-- Blanks and comments after which a name can go on are on its line. -/
theorem onLine_of_run?_name (htrivia : ∀ w ∈ ws, w.1.isTrivia = true)
    (h : run? .name ws = some .name) : ∀ w ∈ ws, OnLine w := by
  induction ws with
  | nil => simp
  | cons w ws ih =>
    obtain ⟨hw, hws⟩ := List.forall_mem_cons.mp htrivia
    by_cases hline : OnLine w
    · rw [run?_cons, next?_name_of_onLine hline, Option.bind_some] at h
      exact List.forall_mem_cons.mpr ⟨hline, ih hws h⟩
    · -- past the end of its line the name cannot go on
      have hnext : next? .name w.1 w.2 = some .ended := by
        rcases isTrivia_cases hw with hkind | hkind | hkind | hkind
        · exact absurd (.inl hkind) hline
        · rw [hkind]
          rfl
        · rw [hkind]
          rfl
        · have htext : 0x0A ∈ w.2 := by
            by_contra hnot
            exact hline (.inr ⟨hkind, hnot⟩)
          rw [hkind]
          simp [next?, breaksLine, htext]
      rw [run?_cons, hnext, Option.bind_some, run?_ended_of_trivia hws] at h
      cases h

/-- A word among arguments that is no parenthesis changes nothing, unless a line ends in it. -/
theorem onLine_of_next?_args {s : AnnotLine} {depth : Nat} {w : TokenKind × Bytes}
    (hopen : w.1 ≠ .openParen) (hclose : w.1 ≠ .closeParen)
    (h : next? (.args depth) w.1 w.2 = some s) :
    s = .args depth ∧ w.1 ≠ .newline ∧ (w.1 = .blockComment → 0x0A ∉ w.2) := by
  simp only [next?] at h
  -- inside the arguments: parentheses, line feeds, block comments and the rest
  split at h
  · next hkind => exact absurd hkind hopen
  · next hkind => exact absurd hkind hclose
  · cases h
  · next hkind =>
    split at h
    · cases h
    · next hbreak =>
      cases h
      refine ⟨rfl, by simp [hkind], fun _ hmem => hbreak ?_⟩
      simp [breaksLine, hkind, hmem]
  · next hnewline hblock =>
    cases h
    exact ⟨rfl, hnewline, fun hkind => absurd hkind hblock⟩

/-- Among arguments no line ends outside of literals. -/
theorem onLine_of_run?_args {s : AnnotLine} (hopen : ∀ w ∈ ws, w.1 ≠ .openParen)
    (hclose : ∀ w ∈ ws, w.1 ≠ .closeParen) (h : run? (.args 1) ws = some s) :
    s = .args 1 ∧ ∀ w ∈ ws, w.1 ≠ .newline ∧ (w.1 = .blockComment → 0x0A ∉ w.2) := by
  induction ws with
  | nil =>
    cases h
    exact ⟨rfl, by simp⟩
  -- no parenthesis, so the depth stays
  | cons w ws ih =>
    obtain ⟨hw, hopen⟩ := List.forall_mem_cons.mp hopen
    obtain ⟨hw', hclose⟩ := List.forall_mem_cons.mp hclose
    rw [run?_cons] at h
    obtain ⟨s₁, hnext, h⟩ := Option.bind_eq_some_iff.mp h
    obtain ⟨rfl, hline⟩ := onLine_of_next?_args hw hw' hnext
    obtain ⟨hs, hws⟩ := ih hopen hclose h
    exact ⟨hs, List.forall_mem_cons.mpr ⟨hline, hws⟩⟩

end AnnotLine

end Idl
