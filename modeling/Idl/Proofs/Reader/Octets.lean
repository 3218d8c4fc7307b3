import Idl.Proofs.Token.Positions
import Idl.Reader.Octets

/-!
# Reading by index stays within bounds

Wherever a reader with indices and slices fetches an octet or takes a slice, it is in bounds, and
each of its loops is over when it should be. What is read is what `scanToken`, `textLitValue` and
`intLitValue` say.

* §1 blanks, §2 numbers, §3 every token, §4 every literal,
* §5 what the tokens of a source are like.
-/

namespace Idl.Reader

/-! ## §1 Blanks -/

theorem slice?_eq {b : Bytes} {i j : Nat} (hi : i ≤ j) (hj : j ≤ b.length) :
    slice? b i j = some ((b.drop i).take (j - i)) := by
  rw [slice?, if_pos ⟨hi, hj⟩, List.drop_take]

theorem from?_eq {b : Bytes} {i : Nat} (h : i ≤ b.length) : from? b i = some (b.drop i) := by
  rw [from?, slice?_eq h le_rfl, List.take_of_length_le (by simp)]

/-- A slice that may end early. -/
theorem slice?_min {b : Bytes} {i k : Nat} (h : i ≤ b.length) :
    slice? b i (min (i + k) b.length) = some ((b.drop i).take k) := by
  rw [slice?_eq (by omega) (Nat.min_le_right _ _), Option.some.injEq, List.take_eq_take_iff,
    List.length_drop]
  omega

/-- The length of a token with its first octet. -/
def whole (x : TokenKind × Nat) : TokenKind × Nat := (x.1, x.2 + 1)

theorem emit_eq {b : Bytes} {kind : TokenKind} {n : Nat} (h : n + 1 ≤ b.length) :
    emit b kind (n + 1) = some ((Scan.token kind (n + 1)).map whole) := by
  unfold emit Scan.token
  split
  · rfl
  · rw [from?_eq h]
    rfl

/-- A token of one or two octets is never too long. -/
theorem emit_short {b : Bytes} {kind : TokenKind} {n : Nat} (h : n + 1 ≤ b.length) (hn : n ≤ 1) :
    emit b kind (n + 1) = some (.ok (whole (kind, n))) := by
  have hmax : ¬ n + 1 > maxTokenSize := by
    rw [show maxTokenSize = 65535 from rfl]
    omega
  rw [emit_eq h, Scan.token, if_neg hmax]
  rfl

/-- Without a blank at the front there are no blanks. -/
theorem blanks_eq_self {c : UInt8} {r : Bytes} (hc : ¬ (c = 0x20 ∨ c = 0x09))
    (h : ∀ x k, Utf8.first c r = (.char x, k) → ¬ (x.toNat = 0xA0 ∨ x.toNat = 0xFEFF)) (n : Nat) :
    Scan.blanks n (c :: r) = n := by
  unfold Scan.blanks
  -- the patterns of the scanner, none of which this byte begins
  split
  · next heq => exact absurd (.inl (List.cons.inj heq).1) hc
  · next heq => exact absurd (.inr (List.cons.inj heq).1) hc
  · next z heq =>
    obtain ⟨rfl, rfl⟩ := List.cons.inj heq
    exact absurd (.inl rfl) (h (Char.ofNat 0xA0) 1 rfl)
  · next z heq =>
    obtain ⟨rfl, rfl⟩ := List.cons.inj heq
    exact absurd (.inr rfl) (h (Char.ofNat 0xFEFF) 2 rfl)
  · rfl

/-- There is no blank at the front, or one that is taken off. -/
theorem blank?_cases (c : UInt8) (r : Bytes) :
    (blank? (c :: r) = some none ∧ ∀ n, Scan.blanks n (c :: r) = n) ∨
    ∃ k z, (c :: r).length = k + 1 + z.length ∧ blank? (c :: r) = some (some z) ∧
      ∀ n, Scan.blanks n (c :: r) = Scan.blanks (n + (k + 1)) z := by
  -- a space or a tab
  by_cases hc : c = 0x20 ∨ c = 0x09
  · refine .inr ⟨0, r, by rw [List.length_cons]; omega, ?_, ?_⟩
    · rcases hc with rfl | rfl <;> simp [blank?, at?, from?_eq]
    · rcases hc with rfl | rfl <;> simp [Scan.blanks]
  rcases hfirst : Utf8.first c r with ⟨x | x, n⟩
  · -- a character that is blank though it has several octets, or any other one
    by_cases hx : x.toNat = 0xA0 ∨ x.toNat = 0xFEFF
    · have hblank {z : Bytes} (hlength : n + 1 ≤ (c :: r).length) (hz : (c :: r).drop (n + 1) = z) :
          blank? (c :: r) = some (some z) := by
        simp [blank?, at?, hc, hfirst, hx, from?_eq hlength, ← hz]
      rcases Scan.blank_octets hfirst hx with ⟨z, hz, rfl⟩ | ⟨z, hz, rfl⟩
      · rw [hz] at hblank ⊢
        exact .inr ⟨1, z, by simp only [List.length_cons]; omega, hblank (by simp) rfl,
          fun n => by rw [Scan.blanks]⟩
      · rw [hz] at hblank ⊢
        exact .inr ⟨2, z, by simp only [List.length_cons]; omega, hblank (by simp) rfl,
          fun n => by rw [Scan.blanks]⟩
    · refine .inl ⟨by simp [blank?, at?, hc, hfirst, hx], blanks_eq_self hc fun x' k h => ?_⟩
      rw [hfirst] at h
      cases h
      exact hx
  · refine .inl ⟨by simp [blank?, at?, hc, hfirst], blanks_eq_self hc fun x' k h => ?_⟩
    rw [hfirst] at h
    cases h

/-- Blanks are skipped as the scanner skips them. -/
theorem skipBlanks_eq {fuel : Nat} {b : Bytes} (hb : b ≠ []) (hfuel : b.length < fuel) :
    ∃ z, skipBlanks fuel b = some z ∧ z.length ≤ b.length ∧
      ∀ n, Scan.blanks n b = n + (b.length - z.length) := by
  induction fuel generalizing b with
  | zero => omega
  | succ fuel ih =>
    obtain ⟨c, r, rfl⟩ := List.exists_cons_of_ne_nil hb
    rcases blank?_cases c r with ⟨hblank, hblanks⟩ | ⟨k, z, hlength, hblank, hblanks⟩
    · exact ⟨c :: r, by simp [skipBlanks, hblank], le_rfl, by simpa using hblanks⟩
    · -- the source may end in blanks, where the reader stops without another look
      by_cases hz : z = []
      · subst hz
        refine ⟨[], by simp [skipBlanks, hblank], by simp, fun n => ?_⟩
        rw [hblanks, hlength]
        simp [Scan.blanks]
      · obtain ⟨z', hskip, hle, hblanks'⟩ := ih hz (by omega)
        refine ⟨z', by simp [skipBlanks, hblank, hz, hskip], by omega, fun n => ?_⟩
        rw [hblanks, hblanks', hlength]
        omega

theorem space_eq {c : UInt8} {r : Bytes} (h : Scan.blanks 0 (c :: r) ≠ 0) :
    space (c :: r) = some ((Scan.token .space (Scan.blanks 0 (c :: r))).map whole) := by
  obtain ⟨z, hskip, hle, hblanks⟩ := skipBlanks_eq (List.cons_ne_nil c r) (Nat.lt_succ_self _)
  have hlength : (c :: r).length - z.length = Scan.blanks 0 (c :: r) := by rw [hblanks, Nat.zero_add]
  obtain ⟨n, hn⟩ := Nat.exists_eq_succ_of_ne_zero h
  rw [space, hskip, Option.bind_eq_bind, Option.bind_some, hlength, hn]
  exact emit_eq (by omega)

/-! ## §2 Numbers -/

theorem radix?_eq (b : Bytes) : radix? b = some (Scan.radix b) := by
  rcases b with _ | ⟨c, _ | ⟨d, r⟩⟩
  · rfl
  · simp [radix?, Scan.radix]
  · by_cases hc : c = 0x30
    · subst hc
      simp only [radix?, at?, Scan.radix]
      grind
    · simp [radix?, at?, Scan.radix, hc]

theorem fraction?_eq (b : Bytes) : fraction? b = some (Scan.fraction b) := by
  rcases b with _ | ⟨c, _ | ⟨d, r⟩⟩
  · rfl
  · by_cases hc : c = 0x2E <;> simp [fraction?, at?, Scan.fraction, hc]
  · by_cases hc : c = 0x2E
    · subst hc
      by_cases hd : Bytes.isDigit d = true
      · simp [fraction?, at?, Scan.fraction, from?_eq, Scan.run, hd]
        omega
      · simp [fraction?, at?, Scan.fraction, hd]
    · simp [fraction?, at?, Scan.fraction, hc]

theorem exponent?_eq (b : Bytes) : exponent? b = some (Scan.exponent b) := by
  rcases b with _ | ⟨c, r⟩
  · rfl
  by_cases hc : c = 0x65 ∨ c = 0x45
  · rcases r with _ | ⟨d, r⟩
    · simp [exponent?, at?, Scan.exponent, from?_eq, hc]
    · by_cases hd : d = 0x2B ∨ d = 0x2D
      · simp [exponent?, at?, Scan.exponent, from?_eq, hc, hd]
      · simp [exponent?, at?, Scan.exponent, from?_eq, hc, hd]
  · simp [exponent?, at?, Scan.exponent, hc]

theorem unsigned?_eq (b : Bytes) : unsigned? b = some (Scan.unsigned b) := by
  rcases hradix : Scan.radix b with ⟨kind, isDigit, lead⟩
  have hlead : lead ≤ b.length := by simpa [hradix] using Scan.lead_le b
  have hdigits : Scan.run isDigit (b.drop lead) ≤ (b.drop lead).length := Scan.run_le _ _
  simp only [unsigned?, Scan.unsigned, radix?_eq, hradix, from?_eq hlead, from?_eq hdigits,
    Option.bind_eq_bind, Option.bind_some, List.drop_drop]
  split
  · simp only [fraction?_eq, exponent?_eq, from?_eq (Scan.fraction_le _),
      from?_eq (Scan.exponent_le _), Option.bind_some, List.drop_drop, Option.pure_def]
  · rfl

theorem unsigned_le (b : Bytes) : (Scan.unsigned b).2.1 ≤ b.length := by
  rcases hradix : Scan.radix b with ⟨kind, isDigit, lead⟩
  have hlead : lead ≤ b.length := by simpa [hradix] using Scan.lead_le b
  have hdigits : Scan.run isDigit (b.drop lead) ≤ (b.drop lead).length := Scan.run_le _ _
  have hfraction := Scan.fraction_le (b.drop (lead + Scan.run isDigit (b.drop lead)))
  have hexponent := Scan.exponent_le (b.drop (lead + Scan.run isDigit (b.drop lead)
    + Scan.fraction (b.drop (lead + Scan.run isDigit (b.drop lead)))))
  have hword (n : Nat) := Scan.run_le Bytes.isWord (b.drop n)
  simp only [List.length_drop] at hdigits hfraction hexponent hword
  simp only [Scan.unsigned, hradix]
  split
  · grind
  · grind

/-- A number that is well formed has digits. -/
theorem unsigned_pos {b : Bytes} (h : (Scan.unsigned b).2.2 = true) : 0 < (Scan.unsigned b).2.1 := by
  unfold Scan.unsigned at h ⊢
  grind

/-- A number behind its sign. -/
theorem signed?_eq {b : Bytes} {sign : Nat} (h : sign ≤ b.length) :
    signed? b sign = some ((if (Scan.unsigned (b.drop sign)).2.2
      then Scan.token (Scan.unsigned (b.drop sign)).1 (sign + (Scan.unsigned (b.drop sign)).2.1)
      else .error ⟨.badNumber (b.take (sign + (Scan.unsigned (b.drop sign)).2.1)), 0,
        sign + (Scan.unsigned (b.drop sign)).2.1⟩).map whole) := by
  have hle := unsigned_le (b.drop sign)
  rw [List.length_drop] at hle
  have hpos := unsigned_pos (b := b.drop sign)
  simp only [signed?, from?_eq h, unsigned?_eq, Option.bind_eq_bind, Option.bind_some]
  rcases hunsigned : Scan.unsigned (b.drop sign) with ⟨kind, length, ok⟩
  rw [hunsigned] at hle hpos
  dsimp only at hle hpos ⊢
  cases ok with
  -- a number that was read has a digit, so something is emitted
  | true =>
    obtain ⟨n, hn⟩ : ∃ n, sign + length = n + 1 := ⟨sign + length - 1, by have := hpos rfl; omega⟩
    rw [if_pos rfl, if_pos rfl, hn]
    exact emit_eq (by omega)
  | false =>
    rw [slice?_eq (Nat.zero_le _) (by omega)]
    rfl

theorem number_eq (c : UInt8) (r : Bytes) :
    number (c :: r) = some ((Scan.number (c :: r)).map whole) := by
  by_cases hc : c = 0x2D
  · subst hc
    rcases r with _ | ⟨d, r⟩
    · rfl
    · by_cases hd : Bytes.isDigit d = true
      · simp [number, at?, Scan.number, hd, signed?_eq]
      · simp [number, at?, Scan.number, hd, slice?_eq]
        rfl
  · simp [number, at?, Scan.number, hc, signed?_eq]

/-! ## §3 Every token -/

theorem indexOf?_le {b p : Bytes} {n : Nat} (h : Bytes.indexOf? b p = some n) (hp : p ≠ []) :
    n + p.length ≤ b.length := by
  obtain ⟨z, hz⟩ := (Bytes.indexOf?_eq_some_iff.mp h).1
  have hlength := congrArg List.length hz
  have hpos := List.length_pos_iff.mpr hp
  rw [List.length_append, List.length_drop] at hlength
  omega

/-- A block comment. -/
theorem blockComment_eq {c d : UInt8} {r : Bytes} :
    blockComment (c :: d :: r) = some ((match Bytes.indexOf? r "*/" with
      -- the closing mark lies inside the source
      | some n => Scan.token .blockComment (n + 4)
      | none => .error ⟨.unterminatedComment, 0, r.length + 2⟩).map whole) := by
  simp only [blockComment, from?_eq (show 2 ≤ (c :: d :: r).length by simp), Option.bind_eq_bind,
    Option.bind_some, List.drop_succ_cons, List.drop_zero]
  cases hindex : Bytes.indexOf? r "*/" with
  | none => rfl
  | some n =>
    have hle : n + 2 ≤ r.length := indexOf?_le hindex (by decide)
    have hlength : n + 4 ≤ (c :: d :: r).length := by
      simp only [List.length_cons]
      omega
    simp only [slice?_eq (Nat.zero_le _) hlength, Option.bind_some]
    exact emit_eq hlength

theorem other_eq {c : UInt8} {r : Bytes} (hvalid : Utf8.isValid (c :: r) = true) :
    other (c :: r) c = some ((Scan.other c r).map whole) := by
  unfold other Scan.other
  rcases hfirst : Utf8.first c r with ⟨x | x, n⟩
  · simp only [List.drop_succ_cons, List.drop_zero, hfirst]
    by_cases hx : x.toNat = 0xA0 ∨ x.toNat = 0xFEFF
    · have hx' : (x.toNat == 0xA0 || x.toNat == 0xFEFF) = true := by simpa using hx
      rw [if_pos hx', if_pos hx']
      refine space_eq ?_
      rcases Scan.blank_octets hfirst hx with ⟨z, hz, rfl⟩ | ⟨z, hz, rfl⟩
      · rw [hz, Scan.blanks]
        have := Scan.le_blanks (0 + 2) z
        omega
      · rw [hz, Scan.blanks]
        have := Scan.le_blanks (0 + 3) z
        omega
    · have hx' : ¬ (x.toNat == 0xA0 || x.toNat == 0xFEFF) = true := by simpa using hx
      rw [if_neg hx', if_neg hx']
      split <;> rfl
  · -- a stray octet is not well formed
    rw [Utf8.isValid, Utf8.glyphs_cons, hfirst] at hvalid
    simp at hvalid

/-- Reading a token by index stays within bounds and gives the token at the front. -/
theorem scan_eq {c : UInt8} {r : Bytes} (hvalid : Utf8.isValid (c :: r) = true) :
    scan (c :: r) = some ((scanToken c r).map whole) := by
  have hone : 0 + 1 ≤ (c :: r).length := by simp
  have hnext : (if (c :: r).length > 1 then at? (c :: r) 1 else pure 0) = some (r.headD 0) := by
    cases r <;> rfl
  have htwo {d : UInt8} (h : r.headD 0 = d) (hd : d ≠ 0) : 1 + 1 ≤ (c :: r).length := by
    cases r with
    | nil => exact absurd h.symm hd
    | cons => simp
  -- a token that goes on as long as its octets satisfy `p`
  have hrun {p : UInt8 → Bool} (kind : TokenKind) (hc : p c = true) :
      emit (c :: r) kind (Scan.run p (c :: r))
        = some ((Scan.token kind (1 + Scan.run p r)).map whole) := by
    have hle := Scan.run_le p r
    have hlength : Scan.run p (c :: r) = Scan.run p r + 1 := by simp [Scan.run, hc]
    rw [hlength, Nat.add_comm 1]
    exact emit_eq (by simpa using hle)
  rw [scan, show at? (c :: r) 0 = some c from rfl, Option.bind_eq_bind, Option.bind_some, scanToken]
  -- both scanners ask the same questions in the same order
  cases hsigil : TokenKind.ofSigil? c with
  | some kind => exact emit_short hone (Nat.zero_le _)
  | none =>
    dsimp only
    rw [hnext, Option.bind_some]
    by_cases hblank : (c == 0x20 || c == 0x09) = true
    · rw [if_pos hblank, if_pos hblank]
      have hblanks : Scan.blanks 0 (c :: r) = Scan.blanks 1 r := by
        simp only [Bool.or_eq_true, beq_iff_eq] at hblank
        rcases hblank with rfl | rfl <;> rw [Scan.blanks]
      have hle := Scan.le_blanks 1 r
      rw [space_eq (by omega), hblanks]
    rw [if_neg hblank, if_neg hblank]
    by_cases hcolon : (c == 0x3A && r.headD 0 == 0x3A) = true
    · rw [if_pos hcolon, if_pos hcolon]
      simp only [Bool.and_eq_true, beq_iff_eq] at hcolon
      exact emit_short (htwo hcolon.2 (by decide)) le_rfl
    rw [if_neg hcolon, if_neg hcolon]
    by_cases harrow : (c == 0x2D && r.headD 0 == 0x3E) = true
    · rw [if_pos harrow, if_pos harrow]
      simp only [Bool.and_eq_true, beq_iff_eq] at harrow
      exact emit_short (htwo harrow.2 (by decide)) le_rfl
    rw [if_neg harrow, if_neg harrow]
    by_cases hreturn : (c == 0x0D && r.headD 0 == 0x0A) = true
    · rw [if_pos hreturn, if_pos hreturn]
      simp only [Bool.and_eq_true, beq_iff_eq] at hreturn
      exact emit_short (htwo hreturn.2 (by decide)) le_rfl
    rw [if_neg hreturn, if_neg hreturn]
    by_cases hcomment : (c == 0x2F && r.headD 0 == 0x2F) = true
    · rw [if_pos hcomment, if_pos hcomment]
      simp only [Bool.and_eq_true, beq_iff_eq] at hcomment
      exact hrun .comment (hcomment.1 ▸ by decide)
    rw [if_neg hcomment, if_neg hcomment]
    by_cases hblock : (c == 0x2F && r.headD 0 == 0x2A) = true
    · rw [if_pos hblock, if_pos hblock]
      simp only [Bool.and_eq_true, beq_iff_eq] at hblock
      cases r with
      | nil => exact absurd hblock.2 (by decide)
      | cons d r => exact blockComment_eq
    rw [if_neg hblock, if_neg hblock]
    by_cases hquote : (c == 0x22 || c == 0x27) = true
    · rw [if_pos hquote, if_pos hquote]
      rw [List.drop_succ_cons, List.drop_zero]
      cases htext : Scan.textEnd c 1 false r with
      | error f => rfl
      | ok x =>
        obtain ⟨kind, extra⟩ := x
        have hlength := Scan.length_of_textEnd htext
        dsimp only
        rw [from?_eq (by simp only [List.length_cons]; omega)]
        rfl
    rw [if_neg hquote, if_neg hquote]
    by_cases hnumber : (c == 0x2D || Bytes.isDigit c) = true
    · rw [if_pos hnumber, if_pos hnumber]
      exact number_eq c r
    rw [if_neg hnumber, if_neg hnumber]
    by_cases hident : (c == 0x5F || Bytes.isLetter c) = true
    · rw [if_pos hident, if_pos hident]
      refine hrun .ident ?_
      simp only [Bool.or_eq_true, beq_iff_eq] at hident
      rcases hident with rfl | hletter
      · decide
      · simp [Bytes.isWord, hletter]
    rw [if_neg hident, if_neg hident]
    -- only a blank of several octets is left, and valid text has it whole
    exact other_eq hvalid

/-! ## §4 Every literal -/

theorem decodeBody_skip (skip n : Nat) (acc b : Bytes) :
    decodeBody skip n acc b = decodeBody 0 (n + skip) acc (b.drop skip) := by
  induction skip generalizing n b with
  | zero => rfl
  | succ k ih =>
    cases b with
    | nil => simp [decodeBody]
    | cons c r => rw [decodeBody, ih, List.drop_succ_cons, Nat.add_right_comm, Nat.add_assoc]

/-- A text without a backslash denotes itself. -/
theorem decodeBody_plain {b : Bytes} (h : 0x5C ∉ b) (n : Nat) (acc : Bytes) :
    decodeBody 0 n acc b = .ok (acc.reverse ++ b) := by
  induction b generalizing n acc with
  | nil => simp [decodeBody]
  | cons c r ih =>
    rw [List.mem_cons, not_or] at h
    rw [decodeBody, if_neg (by simpa using Ne.symm h.1), ih h.2]
    simp

/-- What stands at an index, and behind it. -/
theorem at?_of_drop {b : Bytes} {i : Nat} {c : UInt8} {r : Bytes} (h : b.drop i = c :: r) :
    i < b.length ∧ at? b i = some c ∧ b.drop (i + 1) = r := by
  have hi : i < b.length := by
    by_contra hle
    rw [List.drop_of_length_le (by omega)] at h
    cases h
  rw [List.drop_eq_getElem_cons hi] at h
  obtain ⟨rfl, rfl⟩ := List.cons.inj h
  exact ⟨hi, List.getElem?_eq_getElem hi, rfl⟩

/-- An escape that is read by index: what it denotes and where it ends, or what is wrong with it. -/
def placed (i : Nat) (r : Bytes) : Except Nat (UInt8 × Nat) → Except Bytes (UInt8 × Nat)
  | .ok (x, k) => .ok (x, i + 1 + k)
  | .error k => .error (0x5C :: r.take k)

theorem escapeAt_eq {body : Bytes} {i : Nat} {r : Bytes} (h : body.drop i = 0x5C :: r) :
    escapeAt body i = some (placed i r (escape r)) := by
  obtain ⟨hi, -, hr⟩ := at?_of_drop h
  rw [escapeAt]
  rcases r with _ | ⟨d, q⟩
  · have hlength : i + 1 ≥ body.length := by rwa [List.drop_eq_nil_iff] at hr
    rw [if_pos hlength, from?_eq (by omega), h]
    rfl
  obtain ⟨hi', hat, hq⟩ := at?_of_drop hr
  have hlength : (d :: q).length = body.length - (i + 1) := by rw [← hr, List.length_drop]
  -- the text of an escape with `k` octets behind the backslash
  have hslice (k : Nat) (hk : k ≤ (d :: q).length) :
      slice? body i (i + 1 + k) = some (0x5C :: (d :: q).take k) := by
    rw [slice?_eq (by omega) (by omega), h, show i + 1 + k - i = k + 1 by omega,
      List.take_succ_cons]
  rw [List.length_cons] at hlength hslice
  rw [if_neg (by omega), hat, Option.bind_eq_bind, Option.bind_some, escape]
  cases simpleEscape? d with
  | some x => rfl
  | none =>
    dsimp only
    by_cases hx : (d == 0x78 || d == 0x58) = true
    · have hle := Scan.run_le Bytes.isHexDigit (q.take 2)
      rw [List.length_take] at hle
      -- up to two hexadecimal digits behind the mark
      have hdigits : slice? body (i + 2) (i + 2 + Scan.run Bytes.isHexDigit (q.take 2))
          = some ((q.take 2).takeWhile Bytes.isHexDigit) := by
        rw [slice?_eq (by omega) (by omega), hq, Nat.add_sub_cancel_left, Scan.take_run_take]
      rw [if_pos hx, if_pos hx, slice?_min (by omega), hq, Option.bind_eq_bind, Option.bind_some,
        hdigits, show min (i + 2) body.length = i + 1 + 1 by omega, hslice 1 (by omega)]
      unfold Scan.run
      cases (q.take 2).takeWhile Bytes.isHexDigit with
      | nil => rfl
      | cons y z =>
        simp [placed]
        omega
    rw [if_neg hx, if_neg hx]
    by_cases ho : Bytes.isOctDigit d = true
    -- up to three octal digits, the first of which is at hand
    · have hle := Scan.run_le Bytes.isOctDigit ((d :: q).take 3)
      rw [List.length_take, List.length_cons] at hle
      rw [if_pos ho, if_pos ho, slice?_min (by omega), hr, Option.bind_eq_bind, Option.bind_some,
        slice?_eq (by omega) (by omega), hr, Nat.add_sub_cancel_left, Scan.take_run_take,
        Option.bind_some, hslice _ (by omega)]
      change (if _ then _ else _) = some (placed i (d :: q) (if _ then _ else _))
      split <;> rfl
    rw [if_neg ho, if_neg ho, hslice 1 (by omega)]
    rfl

theorem decodeFrom_eq {body : Bytes} {fuel i : Nat} (hfuel : body.length - i < fuel) (acc : Bytes) :
    decodeFrom body fuel i acc = some (decodeBody 0 (i + 1) acc.reverse (body.drop i)) := by
  -- induction on the fuel, which the octets left bound
  induction fuel generalizing i acc with
  | zero => omega
  | succ fuel ih =>
    rw [decodeFrom]
    rcases hdrop : body.drop i with _ | ⟨c, r⟩
    · have hi : ¬ i < body.length := by rwa [List.drop_eq_nil_iff, ← Nat.not_lt] at hdrop
      rw [if_neg hi, decodeBody, List.reverse_reverse]
      rfl
    obtain ⟨hi, hat, hr⟩ := at?_of_drop hdrop
    rw [if_pos hi, hat, Option.bind_eq_bind, Option.bind_some, decodeBody]
    by_cases hc : c = 0x5C
    · subst hc
      rw [if_neg (show ¬ ((0x5C : UInt8) != 0x5C) = true by simp), if_pos (beq_self_eq_true _),
        escapeAt_eq hdrop]
      cases escape r with
      | error k => rfl
      | ok x =>
        obtain ⟨x, k⟩ := x
        -- an escape skips the octets it takes
        have hrest : decodeFrom body fuel (i + 1 + k) (acc ++ [x])
            = some (decodeBody k (i + 1 + 1) (x :: acc.reverse) r) := by
          rw [ih (by omega), decodeBody_skip k, List.reverse_append, ← List.drop_drop, hr,
            Nat.add_right_comm (i + 1) k 1]
          rfl
        exact hrest
    · have hne : (c != 0x5C) = true := by simpa using hc
      rw [if_pos hne, if_neg (by simpa using hc), ih (by omega), List.reverse_append, hr]
      rfl

/-- A text literal has two quotes around its body, and a mark if there is a backslash in it. -/
theorem textValue?_eq {text : Bytes} {escapes : Bool} (hlength : 2 ≤ text.length)
    (h : escapes = false → 0x5C ∉ text) : textValue? text escapes = some (textLitValue text) := by
  rw [textValue?, slice?_eq (by omega) (by omega), Option.bind_eq_bind, Option.bind_some,
    textLitValue, show text.length - 1 - 1 = text.length - 2 by omega]
  cases escapes with
  | true => exact decodeFrom_eq (by omega) []
  | false =>
    rw [decodeBody_plain fun hmem => h rfl (List.mem_of_mem_drop (List.mem_of_mem_take hmem))]
    rfl

/-- A bad escape lies inside the text. -/
theorem offset_of_decodeBody {skip n offset : Nat} {acc b bad : Bytes}
    (h : decodeBody skip n acc b = .error (offset, bad)) : offset < n + b.length := by
  fun_induction decodeBody skip n acc b with
  | case1 => cases h
  | case2 n acc c r k ih =>
    have := ih h
    rw [List.length_cons]
    omega
  | case3 n acc c r hc x k hescape ih =>
    have := ih h
    rw [List.length_cons]
    omega
  | case4 n acc c r hc k hescape =>
    cases h
    rw [List.length_cons]
    omega
  | case5 n acc c r hc ih =>
    have := ih h
    rw [List.length_cons]
    omega

/-- A bad escape is within its literal. -/
theorem offset_of_textLitValue {text : Bytes} {offset : Nat} {bad : Bytes}
    (h : textLitValue text = .error (offset, bad)) : offset ≤ text.length := by
  have hlt := offset_of_decodeBody h
  rw [List.length_take, List.length_drop] at hlt
  omega

/-- Whether an integer literal has the octets that go in front of its digits. -/
def HasLead (kind : TokenKind) (text : Bytes) : Prop :=
  kind.base.2 + (if text.head? == some 0x2D then 1 else 0) ≤ text.length

/-- A literal is long enough for the sign and the prefix that are cut off. -/
theorem intValue?_eq {kind : TokenKind} {text : Bytes} (h : HasLead kind text) :
    intValue? kind text
      = some (if fitsLiteral (intLitValue kind text) then some (intLitValue kind text) else none) := by
  unfold HasLead at h
  unfold intValue?
  split at h
  · next hsign =>
    rw [if_pos hsign, from?_eq (by omega)]
    simp only [Option.bind_eq_bind, Option.bind_some]
    rw [from?_eq (by rw [List.length_drop]; omega)]
    rfl
  · next hsign =>
    rw [if_neg hsign]
    simp only [Option.pure_def, Option.bind_eq_bind, Option.bind_some]
    rw [from?_eq (by omega)]
    rfl

/-! ## §5 The tokens of a source -/

theorem blanks_le (c : UInt8) (r : Bytes) : Scan.blanks 0 (c :: r) ≤ r.length + 1 := by
  obtain ⟨z, -, -, hblanks⟩ := skipBlanks_eq (List.cons_ne_nil c r) (Nat.lt_succ_self _)
  rw [hblanks, List.length_cons]
  omega

/-- A number is a sign, if there is one, and what follows it, which is well formed. -/
theorem number_cases {c : UInt8} {r : Bytes} {kind : TokenKind} {extra : Nat}
    (h : Scan.number (c :: r) = .ok (kind, extra)) :
    ∃ sign b, c :: r = sign ++ b ∧ sign = (if c = 0x2D then [0x2D] else []) ∧
      (Scan.unsigned b).2.2 = true ∧
      kind = (Scan.unsigned b).1 ∧ extra + 1 = sign.length + (Scan.unsigned b).2.1 := by
  -- with a sign or without one, the digits end the token
  have hfinish {sign : Nat} {b : Bytes} (hok : (Scan.unsigned b).2.2 = true)
      (h : Scan.token (Scan.unsigned b).1 (sign + (Scan.unsigned b).2.1) = .ok (kind, extra)) :
      kind = (Scan.unsigned b).1 ∧ extra + 1 = sign + (Scan.unsigned b).2.1 := by
    have hpos := unsigned_pos hok
    obtain ⟨rfl, rfl⟩ := Scan.token_eq_ok h
    exact ⟨rfl, by omega⟩
  simp only [Scan.number] at h
  split at h
  · next b heq =>
    obtain ⟨rfl, rfl⟩ := List.cons.inj heq
    split at h
    · split at h
      · next hok => exact ⟨[0x2D], r, rfl, rfl, hok, hfinish hok h⟩
      · cases h
    · cases h
  · next hsign =>
    have hc : c ≠ 0x2D := by
      rintro rfl
      exact hsign r rfl
    split at h
    · next hok => exact ⟨[], c :: r, rfl, by rw [if_neg hc], hok, hfinish hok h⟩
    · cases h

/-- A token lies within what is left of the source. -/
theorem length_of_scanToken {c : UInt8} {r : Bytes} {kind : TokenKind} {extra : Nat}
    (h : scanToken c r = .ok (kind, extra)) : extra ≤ r.length := by
  have hone {d : UInt8} (hr : r.headD 0 = d) (hd : d ≠ 0) : 1 ≤ r.length := by
    cases r with
    | nil => exact absurd hr.symm hd
    | cons => simp
  -- one case for each way a token can begin; none reads beyond the source
  cases scannedAs h with
  | sigil => exact Nat.zero_le _
  | blanks hc =>
    have hle := blanks_le c r
    have hblanks : Scan.blanks 0 (c :: r) = Scan.blanks 1 r := by
      rcases hc with rfl | rfl <;> rw [Scan.blanks]
    omega
  | doubleColon _ hr => exact hone hr (by decide)
  | arrow _ hr => exact hone hr (by decide)
  | carriageReturn _ hr => exact hone hr (by decide)
  | comment => exact Scan.run_le _ _
  | blockComment _ hindex =>
    have hle := indexOf?_le hindex (by decide)
    rw [List.length_drop] at hle
    change _ + 2 ≤ _ at hle
    omega
  | text _ htext =>
    have hle := Scan.length_of_textEnd htext
    omega
  | number _ hnumber =>
    obtain ⟨sign, b, hb, -, -, -, hextra⟩ := number_cases hnumber
    have hle := unsigned_le b
    have hlength := congrArg List.length hb
    rw [List.length_cons, List.length_append] at hlength
    omega
  | ident => exact Scan.run_le _ _
  | other hother =>
    have hle := blanks_le c r
    rw [Scan.blanks_of_other hother] at hle
    omega

/-- The prefix of a base is a part of the number. -/
theorem base_le_unsigned (b : Bytes) : (Scan.unsigned b).1.base.2 ≤ (Scan.unsigned b).2.1 := by
  -- the prefix has been read before any digit
  have hradix : (Scan.radix b).1.base.2 ≤ (Scan.radix b).2.2 := by
    unfold Scan.radix
    split
    · split
      · exact le_rfl
      · split <;> exact le_rfl
    · exact le_rfl
  rcases hb : Scan.radix b with ⟨kind, isDigit, lead⟩
  rw [hb] at hradix
  simp only [Scan.unsigned, hb]
  split
  · split <;> exact Nat.zero_le _
  · dsimp only at hradix ⊢
    omega

/-- What the readers of literals rely on. -/
structure Sound (kind : TokenKind) (text : Bytes) : Prop where
  quotes : kind = .textLit → 2 ≤ text.length
  lead : kind.isInteger = true → HasLead kind text

/-- A token is long enough for what is cut off from it later. -/
theorem sound_of_scanToken {c : UInt8} {r : Bytes} {kind : TokenKind} {extra : Nat}
    (h : scanToken c r = .ok (kind, extra)) : Sound kind (c :: r.take extra) := by
  have hlength := length_of_scanToken h
  refine ⟨?_, ?_⟩
  · -- a text has two quotes
    rintro rfl
    obtain ⟨-, htext⟩ := scanToken_textLit h
    have hle := Scan.le_of_textEnd htext
    rw [List.length_cons, List.length_take]
    omega
  · intro hinteger
    cases scannedAs h with
    | sigil hc =>
      have hkind : ∀ k ∈ TokenKind.sigilKinds, k.isInteger = false := by decide
      exact absurd hinteger (by simp [hkind _ (TokenKind.mem_sigilKinds hc)])
    -- a number has its sign and the prefix of its base
    | number _ hnumber =>
      obtain ⟨sign, b, hb, hsign, -, rfl, hextra⟩ := number_cases hnumber
      have hle := base_le_unsigned b
      rw [HasLead, List.head?_cons, List.length_cons, List.length_take]
      by_cases hc : c = 0x2D
      · rw [if_pos hc] at hsign
        simp only [hc, hsign, List.length_singleton] at hextra ⊢
        rw [if_pos (by rfl)]
        omega
      · rw [if_neg hc] at hsign
        simp only [hsign, List.length_nil] at hextra
        rw [if_neg (by simpa using hc)]
        omega
    | _ => cases hinteger

end Idl.Reader
