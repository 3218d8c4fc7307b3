import Idl.Proofs.Integers

/-!
# Numbers

A numeral is a whole number in one of three bases, or a decimal number with a fraction, an exponent
or both, and has a sign or none. What a scan takes for a number is a numeral. It is the longest one
at the front, and it is scanned in the same way if it stands alone.

* §1 runs and what ends a number, §2 numerals,
* §3 what a scan makes of a numeral, §4 what a scan finds,
* §5 numbers with their signs.
-/

namespace Idl

open Integer (Magnitude)

namespace Scan

variable {p : UInt8 → Bool} {t z : Bytes}

/-! ## §1 Runs -/

/-- A run goes on behind octets that belong to it. -/
theorem run_append_of_forall (ht : ∀ d ∈ t, p d = true) (z : Bytes) :
    run p (t ++ z) = t.length + run p z := by
  have hall : run p t = t.length := by rw [run, List.takeWhile_eq_self_iff.mpr ht]
  rw [run_append, if_pos hall]

/-- There is no run in front of something else. -/
theorem run_eq_zero (hz : ∀ d ∈ z.head?, p d = false) : run p z = 0 := by
  cases z with
  | nil => rfl
  | cons d z => simp [run, hz d rfl]

/-- A run that is followed by something else. -/
theorem run_eq (ht : ∀ d ∈ t, p d = true) (hz : ∀ d ∈ z.head?, p d = false) :
    run p (t ++ z) = t.length := by
  rw [run_append_of_forall ht, run_eq_zero hz, Nat.add_zero]

/-- What follows a run does not go on with it. -/
theorem eq_false_of_run_eq_zero (h : run p z = 0) : ∀ d ∈ z.head?, p d = false := by
  intro d hd
  obtain ⟨r, rfl⟩ := List.head?_eq_some_iff.mp hd
  by_contra hp
  simp [run, hp] at h

/-- What ends a number. -/
def Ends (z : Bytes) : Prop := ∀ d ∈ z.head?, Bytes.isWord d = false ∧ d ≠ 0x2E

theorem Ends.digit (hz : Ends z) : ∀ d ∈ z.head?, Bytes.isDigit d = false := by
  intro d hd
  have hword := (hz d hd).1
  simp only [Bytes.isWord, Bool.or_eq_false_iff] at hword
  exact hword.1.2

end Scan

/-- What begins like a word is a number or a name. -/
theorem scanToken_of_isWord {c : UInt8} (h : Bytes.isWord c = true) (r : Bytes) :
    scanToken c r = if Bytes.isDigit c then Scan.number (c :: r)
      else Scan.token .ident (1 + Scan.run Bytes.isWord r) := by
  -- a word character is no sigil and begins none of the tokens asked for before
  have hsigil : TokenKind.ofSigil? c = none := by
    unfold TokenKind.ofSigil?
    split <;> first | rfl | exact absurd h (by decide)
  have hne (x : UInt8) (hx : Bytes.isWord x = false) : (c == x) = false := by
    refine beq_false_of_ne fun heq => ?_
    rw [heq, hx] at h
    cases h
  have hword : (c == 0x5F || Bytes.isLetter c) = true ∨ Bytes.isDigit c = true := by
    simpa [Bytes.isWord, or_comm, or_assoc, or_left_comm] using h
  unfold scanToken
  rw [hsigil]
  simp only [hne 0x20 (by decide), hne 0x09 (by decide), hne 0x3A (by decide),
    hne 0x2D (by decide), hne 0x0D (by decide), hne 0x2F (by decide), hne 0x22 (by decide),
    hne 0x27 (by decide), Bool.false_and, Bool.or_self, Bool.false_or, Bool.false_eq_true, if_false]
  split
  · rfl
  · next hdigit => rw [if_pos (hword.resolve_right hdigit)]

namespace Number

variable {b e f w y z : Bytes} {kind : TokenKind} {n : Nat}

/-! ## §2 Numerals -/

/-- Decimal digits, at least one. -/
structure IsDigits (ds : Bytes) : Prop where
  ne_nil : ds ≠ []
  isDigit : ∀ d ∈ ds, Bytes.isDigit d = true

/-- A fraction: a point and digits. -/
def IsFraction (f : Bytes) : Prop := ∃ ds, f = 0x2E :: ds ∧ IsDigits ds

/-- The octets that introduce an exponent. -/
def marks : List UInt8 := [0x65, 0x45]

/-- The signs of an exponent. -/
def signs : List Bytes := [[], [0x2B], [0x2D]]

/-- An exponent: a mark, a sign or none, and digits. -/
def IsExponent (e : Bytes) : Prop :=
  ∃ mark sign ds, e = mark :: (sign ++ ds) ∧ mark ∈ marks ∧ sign ∈ signs ∧ IsDigits ds

/-- The numerals without a sign: whole numbers of each base, and decimal ones with a fraction, an
exponent or both. -/
inductive Unsigned : TokenKind → Bytes → Prop where
  | whole {kind : TokenKind} {b : Bytes} {n : Nat} (h : Magnitude kind b n) : Unsigned kind b
  | real {w f e : Bytes} {n : Nat} (whole : Magnitude .intLit w n)
      (fraction : f = [] ∨ IsFraction f) (exponent : e = [] ∨ IsExponent e)
      (ne_nil : f ++ e ≠ []) : Unsigned .floatLit (w ++ (f ++ e))

/-- The numerals: a sign or none in front of one without a sign. -/
inductive Written (kind : TokenKind) : Bytes → Prop where
  | plain {b : Bytes} (h : Unsigned kind b) : Written kind b
  | minus {b : Bytes} (h : Unsigned kind b) : Written kind (0x2D :: b)

/-! ## §3 What a scan makes of numerals -/

open Scan (radix run fraction exponent unsigned Ends)

/-- A mark of an exponent is no digit, no mark of a base and no point. -/
theorem not_digit_of_mem_marks {d : UInt8} (h : d ∈ marks) :
    Bytes.isDigit d = false ∧ d ≠ 0x78 ∧ d ≠ 0x58 ∧ d ≠ 0x2E := by
  simp only [marks, List.mem_cons, List.not_mem_nil, or_false] at h
  rcases h with rfl | rfl <;> decide

theorem IsFraction.length_scan (h : IsFraction f) (z : Bytes) :
    fraction (f ++ z) = f.length + run Bytes.isDigit z := by
  obtain ⟨ds, rfl, hne, hds⟩ := h
  obtain ⟨d, ds, rfl⟩ := List.exists_cons_of_ne_nil hne
  obtain ⟨hd, hds⟩ := List.forall_mem_cons.mp hds
  simp only [List.cons_append, fraction, hd, if_true, Scan.run_append_of_forall hds,
    List.length_cons]
  omega

/-- A written exponent is scanned to its end. -/
theorem IsExponent.length_scan (h : IsExponent e) (z : Bytes) :
    exponent (e ++ z) = (e.length + run Bytes.isDigit z, true) := by
  obtain ⟨mark, sign, ds, rfl, hmark, hsign, hne, hds⟩ := h
  obtain ⟨d, ds, rfl⟩ := List.exists_cons_of_ne_nil hne
  have hrun := Scan.run_append_of_forall hds z
  have hmark : (mark == 0x65 || mark == 0x45) = true := by simpa [marks] using hmark
  -- the first digit is not taken for a sign
  have hd : (d == 0x2B || d == 0x2D) = false := by
    by_contra h
    have hdigit : Bytes.isDigit d = true := hds d List.mem_cons_self
    simp only [Bool.not_eq_false, Bool.or_eq_true, beq_iff_eq] at h
    rcases h with rfl | rfl <;> cases hdigit
  simp only [signs, List.mem_cons, List.not_mem_nil, or_false] at hsign
  rw [List.cons_append] at hrun
  rcases hsign with rfl | rfl | rfl
  · simp [exponent, hmark, hd, hrun]
    omega
  · simp [exponent, hmark, hrun]
    omega
  · simp [exponent, hmark, hrun]
    omega

theorem IsExponent.head (h : IsExponent e) (z : Bytes) : ∀ d ∈ (e ++ z).head?, d ∈ marks := by
  obtain ⟨mark, sign, ds, rfl, hmark, -⟩ := h
  rintro d ⟨⟩
  exact hmark

theorem fraction_eq_zero (h : ∀ d ∈ z.head?, d ≠ 0x2E) : fraction z = 0 := by
  unfold fraction
  split
  · exact absurd rfl (h _ rfl)
  · rfl

theorem exponent_eq_zero (h : ∀ d ∈ z.head?, d ∉ marks) : exponent z = (0, true) := by
  cases z with
  | nil => rfl
  | cons c r =>
    have hc : (c == 0x65 || c == 0x45) = false := by simpa [marks] using h c rfl
    simp [exponent, hc]

/-- A point or a mark stands behind the digits of a number that is not whole. -/
theorem head_behind (hf : f = [] ∨ IsFraction f) (he : e = [] ∨ IsExponent e) (hne : f ++ e ≠ [])
    (z : Bytes) : ∀ d ∈ (f ++ (e ++ z)).head?, Bytes.isDigit d = false ∧ d ≠ 0x78 ∧ d ≠ 0x58 := by
  rcases hf with rfl | ⟨ds, rfl, -⟩
  · have he := he.resolve_left hne
    intro d hd
    obtain ⟨hdigit, hx, hX, -⟩ := not_digit_of_mem_marks (he.head z d hd)
    exact ⟨hdigit, hx, hX⟩
  · rintro d ⟨⟩
    decide

/-- The radix of a decimal number in front of what goes on with none. -/
theorem radix_decimal (h : Magnitude .intLit w n)
    (hz : ∀ d ∈ z.head?, Bytes.isDigit d = false ∧ d ≠ 0x78 ∧ d ≠ 0x58) :
    radix (w ++ z) = (.intLit, Bytes.isDigit, 0) := by
  cases h with
  | decimal hne hdigits hzero =>
    obtain ⟨c, w, rfl⟩ := List.exists_cons_of_ne_nil hne
    -- only a zero can begin a prefix, and it stands alone here
    by_cases hc : c = 0x30
    · subst hc
      obtain rfl : w = [] := by simpa using hzero rfl
      cases z with
      | nil => rfl
      | cons d r =>
        obtain ⟨hdigit, hx, hX⟩ := hz d rfl
        simp [radix, hdigit, hx, hX]
    · cases w <;> cases z <;> simp [radix, hc]

theorem isDigit_of_magnitude (h : Magnitude .intLit w n) : ∀ d ∈ w, Bytes.isDigit d = true := by
  cases h with
  | decimal hne hdigits hzero => exact fun d hd => Integer.isDigit_of_isDigitOf (hdigits d hd)

theorem ne_nil_of_magnitude (h : Magnitude .intLit w n) : w ≠ [] := by
  cases h with
  | decimal hne => exact hne

/-- The parts of a number whose digits are decimal ones. -/
theorem unsigned_decimal (h : radix b = (.intLit, Bytes.isDigit, 0)) :
    unsigned b =
      let digits := run Bytes.isDigit b
      let frac := fraction (b.drop digits)
      let exp := exponent (b.drop (digits + frac))
      let trailing := run Bytes.isWord (b.drop (digits + frac + exp.1))
      (if frac + exp.1 = 0 then TokenKind.intLit else .floatLit, digits + frac + exp.1 + trailing,
        exp.2 && digits != 0 && trailing == 0) := by
  simp [unsigned, h]

theorem radix_octal {ds : Bytes} (hne : ds ≠ []) (hds : ∀ d ∈ ds, Bytes.isOctDigit d = true)
    (z : Bytes) : radix (0x30 :: (ds ++ z)) = (.octIntLit, Bytes.isOctDigit, 1) := by
  obtain ⟨d, ds, rfl⟩ := List.exists_cons_of_ne_nil hne
  have hd := Integer.isDigit_of_isOctDigit (hds d List.mem_cons_self)
  have hmark : ¬ (d = 0x78 ∨ d = 0x58) := fun h => by simp [Integer.isDigit_of_mark h] at hd
  simp [radix, hmark, hd]

theorem radix_hexadecimal {mark : UInt8} (h : mark = 0x78 ∨ mark = 0x58) (z : Bytes) :
    radix (0x30 :: mark :: z) = (.hexIntLit, Bytes.isHexDigit, 2) := by
  simp [radix, h]

/-- What a scan finds is at least as long as the digits that it looks for. -/
theorem digits_le_unsigned (b : Bytes) :
    (radix b).2.2 + run (radix b).2.1 (b.drop (radix b).2.2) ≤ (unsigned b).2.1 := by
  rcases hradix : radix b with ⟨kind, isDigit, lead⟩
  simp only [unsigned, hradix]
  split <;> omega

/-- The scan takes at least a whole number that stands at the front, whatever follows. -/
theorem length_le_of_magnitude (h : Magnitude kind y n) (z : Bytes) :
    y.length ≤ (unsigned (y ++ z)).2.1 := by
  refine le_trans ?_ (digits_le_unsigned (y ++ z))
  cases h with
  | @decimal _ hne hdigits hzero =>
    -- a zero may turn out to introduce another base, and is all there is then
    have hsingle {d : UInt8} {r : Bytes} (heq : y ++ z = 0x30 :: d :: r) : y = [0x30] := by
      obtain ⟨c, w, rfl⟩ := List.exists_cons_of_ne_nil hne
      exact hzero (congrArg some (List.cons.inj heq).1)
    rcases Integer.radix_cases (y ++ z) with ⟨mark, r, heq, -, hradix⟩ | ⟨d, r, heq, hradix⟩ |
      ⟨-, hradix⟩
    · rw [hradix, hsingle heq]
      exact le_add_right (by decide)
    · rw [hradix, hsingle heq]
      exact le_add_right (by decide)
    · rw [hradix, List.drop_zero, Scan.run_append_of_forall fun d hd =>
        Integer.isDigit_of_isDigitOf (hdigits d hd)]
      omega
  | octal hne hdigits =>
    have hoct := fun d hd => Integer.isOctDigit_of_isDigitOf (hdigits d hd)
    rw [List.cons_append, radix_octal hne hoct]
    simp only [List.drop_succ_cons, List.drop_zero, Scan.run_append_of_forall hoct,
      List.length_cons]
    omega
  | hexadecimal hmark hne hdigits =>
    rw [List.cons_append, List.cons_append, radix_hexadecimal hmark]
    simp only [List.drop_succ_cons, List.drop_zero,
      Scan.run_append_of_forall fun d hd => (hdigits d hd).1, List.length_cons]
    omega

/-- The scan takes at least a numeral that stands at the front, whatever follows. -/
theorem Unsigned.length_le (h : Unsigned kind y) (z : Bytes) :
    y.length ≤ (unsigned (y ++ z)).2.1 := by
  cases h with
  | whole h => exact length_le_of_magnitude h z
  | @real w f e n whole hf he hne =>
    have hhead := head_behind hf he hne z
    -- the whole part ends where the fraction or the exponent begins
    have hrun : run Bytes.isDigit (w ++ (f ++ (e ++ z))) = w.length :=
      Scan.run_eq (isDigit_of_magnitude whole) fun d hd => (hhead d hd).1
    rw [List.append_assoc, List.append_assoc, unsigned_decimal (radix_decimal whole hhead)]
    simp only [hrun, List.drop_left, List.length_append]
    rcases he with rfl | he
    · -- a fraction without an exponent
      have hf := hf.resolve_left (by simpa using hne)
      rw [hf.length_scan, List.length_nil]
      omega
    · -- an exponent: its mark ends the digits in front of it
      have hmark := he.head z
      have hstop : run Bytes.isDigit (e ++ z) = 0 :=
        Scan.run_eq_zero fun d hd => (not_digit_of_mem_marks (hmark d hd)).1
      have hfrac : fraction (f ++ (e ++ z)) = f.length := by
        rcases hf with rfl | hf
        · exact fraction_eq_zero fun d hd => (not_digit_of_mem_marks (hmark d hd)).2.2.2
        · rw [hf.length_scan, hstop, Nat.add_zero]
      rw [hfrac, ← List.drop_drop, List.drop_left, List.drop_left, he.length_scan]
      dsimp only
      omega

/-- A numeral is scanned as what it is in front of what ends a number. -/
theorem Unsigned.scan (h : Unsigned kind y) (hz : Ends z) :
    unsigned (y ++ z) = (kind, y.length, true) := by
  -- with what follows go neither digits nor a fraction nor an exponent
  have hword : run Bytes.isWord z = 0 := Scan.run_eq_zero fun d hd => (hz d hd).1
  have hdigit : run Bytes.isDigit z = 0 := Scan.run_eq_zero hz.digit
  have hfrac : fraction z = 0 := fraction_eq_zero fun d hd => (hz d hd).2
  have hexp : exponent z = (0, true) := exponent_eq_zero fun d hd hmark => by
    have hd := (hz d hd).1
    simp only [marks, List.mem_cons, List.not_mem_nil, or_false] at hmark
    rcases hmark with rfl | rfl <;> cases hd
  have hpos {ds : Bytes} (hne : ds ≠ []) : (ds.length != 0) = true := by simpa using hne
  -- the digits of any radix are parts of words, so they end where `z` begins
  have hstop {b : Bytes} {k : TokenKind} {p : UInt8 → Bool} {lead : Nat}
      (h : radix b = (k, p, lead)) : ∀ d ∈ z.head?, p d = false := by
    intro d hd
    by_contra hp
    have hword := Scan.isWord_of_radix b d (by rw [h]; simpa using hp)
    rw [(hz d hd).1] at hword
    cases hword
  cases h with
  | whole h =>
    cases h with
    | decimal hne hdigits hzero =>
      have hhead : ∀ d ∈ z.head?, Bytes.isDigit d = false ∧ d ≠ 0x78 ∧ d ≠ 0x58 := by
        intro d hd
        refine ⟨hz.digit d hd, ?_, ?_⟩ <;> rintro rfl <;> exact absurd (hz _ hd).1 (by decide)
      have hrun : run Bytes.isDigit (y ++ z) = y.length :=
        Scan.run_eq (fun d hd => Integer.isDigit_of_isDigitOf (hdigits d hd)) hz.digit
      rw [unsigned_decimal (radix_decimal (.decimal hne hdigits hzero) hhead)]
      simp only [hrun, List.drop_left, hfrac, Nat.add_zero, hexp, hword, hpos hne]
      rfl
    | octal hne hdigits =>
      have hoct := fun d hd => Integer.isOctDigit_of_isDigitOf (hdigits d hd)
      have hradix := radix_octal hne hoct z
      simp [unsigned, hradix, Scan.run_eq hoct (hstop hradix), hword, hpos hne, Nat.add_comm]
    | @hexadecimal mark digits hmark hne hdigits =>
      have hhex := fun d hd => (hdigits d hd).1
      have hradix := radix_hexadecimal hmark (digits ++ z)
      simp [unsigned, hradix, Scan.run_eq hhex (hstop hradix), hword, hpos hne, Nat.add_comm]
      omega
  | @real w f e n whole hf he hne =>
    have hhead := head_behind hf he hne z
    have hrun : run Bytes.isDigit (w ++ (f ++ (e ++ z))) = w.length :=
      Scan.run_eq (isDigit_of_magnitude whole) fun d hd => (hhead d hd).1
    -- the exponent goes up to the end, and the fraction up to the exponent
    have hlast : exponent (e ++ z) = (e.length, true) := by
      rcases he with rfl | he
      · exact hexp
      · rw [he.length_scan, hdigit, Nat.add_zero]
    have hnext : ∀ d ∈ (e ++ z).head?, Bytes.isDigit d = false ∧ d ≠ 0x2E := by
      intro d hd
      rcases he with rfl | he
      · exact ⟨hz.digit d hd, (hz d hd).2⟩
      · obtain ⟨hdigit, -, -, hpoint⟩ := not_digit_of_mem_marks (he.head z d hd)
        exact ⟨hdigit, hpoint⟩
    have hpoint : fraction (f ++ (e ++ z)) = f.length := by
      rcases hf with rfl | hf
      · exact fraction_eq_zero fun d hd => (hnext d hd).2
      · rw [hf.length_scan, Scan.run_eq_zero fun d hd => (hnext d hd).1, Nat.add_zero]
    have hsum : f.length + e.length ≠ 0 := by
      rw [← List.length_append]
      exact fun h => hne (List.length_eq_zero_iff.mp h)
    have hbehind : (w ++ (f ++ (e ++ z))).drop (w.length + f.length) = e ++ z := by
      rw [← List.drop_drop, List.drop_left, List.drop_left]
    have hend : (w ++ (f ++ (e ++ z))).drop (w.length + f.length + e.length) = z := by
      rw [← List.drop_drop, hbehind, List.drop_left]
    rw [List.append_assoc, List.append_assoc, unsigned_decimal (radix_decimal whole hhead)]
    simp only [hrun, List.drop_left, hpoint, hbehind, hlast, hend, hword, if_neg hsum,
      hpos (ne_nil_of_magnitude whole), List.length_append, Nat.add_zero]
    rw [Nat.add_assoc]
    rfl

/-! ## §4 What a scan finds -/

/-- A fraction that a scan finds. -/
theorem fraction_cases (b : Bytes) :
    fraction b = 0 ∨ IsFraction (b.take (fraction b)) := by
  unfold fraction
  split
  · next c r =>
    split
    · next hc =>
      refine .inr ⟨c :: r.takeWhile Bytes.isDigit, ?_, List.cons_ne_nil _ _, ?_⟩
      · rw [show 2 + run Bytes.isDigit r = run Bytes.isDigit r + 1 + 1 by omega,
          List.take_succ_cons, List.take_succ_cons, Scan.take_run]
      · exact List.forall_mem_cons.mpr ⟨hc, fun d hd => List.mem_takeWhile_imp hd⟩
    · exact .inl rfl
  · exact .inl rfl

/-- An exponent that a scan finds, if it has digits. -/
theorem exponent_cases {b : Bytes} (h : (exponent b).2 = true) :
    (exponent b).1 = 0 ∨ IsExponent (b.take (exponent b).1) := by
  rcases b with _ | ⟨mark, r⟩
  · exact .inl rfl
  by_cases hmark : (mark == 0x65 || mark == 0x45) = true
  · have hmem : mark ∈ marks := by simpa [marks] using hmark
    -- an exponent that was accepted has digits
    have hdigits (r : Bytes) (hne : run Bytes.isDigit r ≠ 0) :
        IsDigits (r.takeWhile Bytes.isDigit) :=
      ⟨fun hnil => hne (by rw [run, hnil, List.length_nil]), fun d hd => List.mem_takeWhile_imp hd⟩
    right
    rcases r with _ | ⟨s, r⟩
    · simp [exponent, hmark, run] at h
    by_cases hs : (s == 0x2B || s == 0x2D) = true
    · -- with a sign
      simp only [exponent, hmark, hs, if_true, List.drop_succ_cons, List.drop_zero,
        bne_iff_ne] at h ⊢
      refine ⟨mark, [s], r.takeWhile Bytes.isDigit, ?_, hmem, ?_, hdigits r h⟩
      · rw [show 1 + 1 + run Bytes.isDigit r = run Bytes.isDigit r + 1 + 1 by omega,
          List.take_succ_cons, List.take_succ_cons, Scan.take_run]
        rfl
      · simpa [signs] using hs
    · -- without one
      simp only [exponent, hmark, hs, if_true, if_false, Bool.false_eq_true, List.drop_zero,
        bne_iff_ne] at h ⊢
      refine ⟨mark, [], (s :: r).takeWhile Bytes.isDigit, ?_, hmem, by simp [signs], hdigits _ h⟩
      rw [show 1 + 0 + run Bytes.isDigit (s :: r) = run Bytes.isDigit (s :: r) + 1 by omega,
        List.take_succ_cons, Scan.take_run]
      rfl
  · -- no mark, no exponent
    left
    simp [exponent, hmark]

/-- What is scanned as a number without a sign is a numeral. -/
theorem unsigned_of_scan (hok : (unsigned b).2.2 = true) :
    Unsigned (unsigned b).1 (b.take (unsigned b).2.1) := by
  by_cases hkind : (unsigned b).1.isInteger = true
  · obtain ⟨n, hn⟩ := Integer.magnitude_of_unsigned hok hkind
    exact .whole hn
  rcases Integer.radix_cases b with ⟨mark, r, rfl, -, hradix⟩ | ⟨d, r, rfl, hradix⟩ | ⟨-, hradix⟩
  · exact absurd (by simp [unsigned, hradix, TokenKind.isInteger]) hkind
  · exact absurd (by simp [unsigned, hradix, TokenKind.isInteger]) hkind
  rw [unsigned_decimal hradix] at hok hkind ⊢
  dsimp only at hok hkind ⊢
  simp only [Bool.and_eq_true, bne_iff_ne, beq_iff_eq] at hok
  obtain ⟨⟨hexp, hdigits⟩, htrailing⟩ := hok
  split at hkind
  · exact absurd rfl hkind
  next hsum =>
  have hne : b.takeWhile Bytes.isDigit ≠ [] :=
    fun hnil => hdigits (by rw [run, hnil, List.length_nil])
  obtain ⟨n, whole⟩ := Integer.magnitude_of_decimal hradix hne
  rw [if_neg hsum, htrailing, Nat.add_zero, Nat.add_assoc, List.take_add, Scan.take_run,
    List.take_add, List.drop_drop]
  -- fraction and exponent may be missing, but not both
  refine .real whole ?_ ?_ ?_
  · refine (fraction_cases _).imp_left fun h => ?_
    rw [h, List.take_zero]
  · refine (exponent_cases hexp).imp_left fun h => ?_
    rw [h, List.take_zero]
  · intro hnil
    have hfrac := Scan.fraction_le (b.drop (run Bytes.isDigit b))
    have hexp := Scan.exponent_le
      (b.drop (run Bytes.isDigit b + fraction (b.drop (run Bytes.isDigit b))))
    have hlength := congrArg List.length hnil
    simp only [List.length_append, List.length_take, List.length_nil, Nat.min_eq_left hfrac,
      Nat.min_eq_left hexp] at hlength
    exact hsum hlength

theorem trailing_eq_zero (hok : (unsigned b).2.2 = true) :
    run Bytes.isWord (b.drop (unsigned b).2.1) = 0 := by
  rcases hradix : radix b with ⟨kind, isDigit, lead⟩
  simp only [unsigned, hradix] at hok ⊢
  split at hok
  · next hkind =>
    rw [if_pos hkind]
    simp only [Bool.and_eq_true, beq_iff_eq] at hok
    simp only [hok.2, Nat.add_zero]
  · next hkind =>
    rw [if_neg hkind]
    simp only [Bool.and_eq_true, beq_iff_eq] at hok
    simp only [hok.2, Nat.add_zero]

/-! ## §5 Numbers with their signs -/

/-- What is scanned as a number is a numeral. -/
theorem written_of_number {c : UInt8} {r : Bytes} {kind : TokenKind} {extra : Nat}
    (h : Scan.number (c :: r) = .ok (kind, extra)) : Written kind (c :: r.take extra) := by
  obtain ⟨sign, b, hb, hsign, hok, rfl, hextra⟩ := Reader.number_cases h
  have hbody := unsigned_of_scan hok
  have htake : (c :: r).take (extra + 1) = sign ++ b.take (unsigned b).2.1 := by
    rw [hb, hextra, List.take_length_add_append]
  rw [← List.take_succ_cons, htake, hsign]
  split
  · exact .minus hbody
  · exact .plain hbody

/-- Nothing behind a number could go on with it. -/
theorem not_isWord_behind {c : UInt8} {r : Bytes} {kind : TokenKind} {extra : Nat}
    (h : Scan.number (c :: r) = .ok (kind, extra)) :
    ∀ d ∈ (r.drop extra).head?, Bytes.isWord d = false := by
  obtain ⟨sign, b, hb, -, hok, rfl, hextra⟩ := Reader.number_cases h
  have hdrop : r.drop extra = b.drop (unsigned b).2.1 := by
    rw [← List.drop_succ_cons (a := c), hb, hextra, List.drop_length_add_append]
  rw [hdrop]
  exact Scan.eq_false_of_run_eq_zero (trailing_eq_zero hok)

/-- A numeral without a sign begins with a digit. -/
theorem Unsigned.exists_cons (h : Unsigned kind y) :
    ∃ c r, y = c :: r ∧ Bytes.isDigit c = true := by
  -- a float begins with its whole part
  have hmagnitude {kind : TokenKind} {y : Bytes} {n : Nat} (h : Magnitude kind y n) :
      ∃ c r, y = c :: r ∧ Bytes.isDigit c = true := by
    cases h with
    | decimal hne hdigits hzero =>
      obtain ⟨c, r, rfl⟩ := List.exists_cons_of_ne_nil hne
      exact ⟨c, r, rfl, Integer.isDigit_of_isDigitOf (hdigits c List.mem_cons_self)⟩
    | octal => exact ⟨_, _, rfl, rfl⟩
    | hexadecimal => exact ⟨_, _, rfl, rfl⟩
  cases h with
  | whole h => exact hmagnitude h
  | real whole =>
    obtain ⟨c, r, rfl, hc⟩ := hmagnitude whole
    exact ⟨c, _, rfl, hc⟩

/-- No numeral at the front is longer than the number that is scanned there. -/
theorem Written.length_le {c : UInt8} {r : Bytes} {kind' : TokenKind} {extra : Nat}
    (hy : Written kind' y) (hfront : y <+: c :: r) (h : Scan.number (c :: r) = .ok (kind, extra)) :
    y.length ≤ extra + 1 := by
  obtain ⟨sign, b, hb, hsign, -, -, hextra⟩ := Reader.number_cases h
  obtain ⟨z, hz⟩ := hfront
  have hbody {y : Bytes} (hy : Unsigned kind' y) (heq : y ++ z = b) :
      y.length ≤ (unsigned b).2.1 := heq ▸ hy.length_le z
  cases hy with
  -- a number without a sign does not begin with one
  | plain hy =>
    obtain ⟨d, y, rfl, hd⟩ := hy.exists_cons
    have hc : c ≠ 0x2D := by
      rintro rfl
      rw [(List.cons.inj hz).1] at hd
      cases hd
    rw [if_neg hc] at hsign
    subst hsign
    have := hbody hy (hz.trans hb)
    simp only [List.length_nil] at hextra
    omega
  -- the sign is one byte of the token
  | minus hy =>
    obtain rfl : 0x2D = c := (List.cons.inj hz).1
    rw [if_pos rfl] at hsign
    subst hsign
    have := hbody hy (List.cons.inj (hz.trans hb)).2
    simp only [List.length_cons, List.length_nil] at hextra ⊢
    omega

/-- A numeral is scanned as a number in front of what ends one, if it is not too long. -/
theorem Written.scan (h : Written kind y) (hz : Ends z) (hsize : y.length ≤ maxTokenSize) :
    Scan.number (y ++ z) = .ok (kind, y.length - 1) := by
  cases h with
  -- the first byte is a digit, so no sign is scanned
  | plain h =>
    have hscan := h.scan hz
    obtain ⟨c, r, rfl, hc⟩ := h.exists_cons
    unfold Scan.number
    split
    · next heq =>
      rw [(List.cons.inj heq).1] at hc
      cases hc
    · simp only [hscan, if_true, Nat.zero_add]
      rw [Scan.token, if_neg (by omega)]
  -- the byte behind the sign is a digit, so it is the sign of a number
  | @minus b h =>
    have hscan := h.scan hz
    obtain ⟨c, r, rfl, hc⟩ := h.exists_cons
    have hhead : (c :: r ++ z).head?.any Bytes.isDigit = true := hc
    rw [List.length_cons] at hsize
    change Scan.number (0x2D :: (c :: r ++ z)) = _
    simp only [Scan.number, hhead, hscan, if_true]
    rw [Scan.token, if_neg (by omega), List.length_cons, Nat.add_comm]
    rfl

end Number

/-- A numeral is the token in front of what ends a number. -/
theorem scanToken_of_written {kind : TokenKind} {c : UInt8} {t z : Bytes}
    (h : Number.Written kind (c :: t)) (hsize : t.length + 1 ≤ maxTokenSize) (hz : Scan.Ends z) :
    scanToken c (t ++ z) = .ok (kind, t.length) := by
  have hnumber : Scan.number (c :: (t ++ z)) = .ok (kind, t.length) := h.scan hz hsize
  rw [← hnumber]
  cases h with
  | plain h =>
    obtain ⟨c, t, ⟨⟩, hc⟩ := h.exists_cons
    rw [scanToken_of_isWord (Scan.isWord_of_isDigit hc), if_pos hc]
  | minus h =>
    obtain ⟨d, t, rfl, hd⟩ := h.exists_cons
    -- a minus sign in front of a digit is no arrow
    have hnext : (d == 0x3E) = false := by
      refine beq_false_of_ne ?_
      rintro rfl
      cases hd
    simp [scanToken, TokenKind.ofSigil?, hnext]

end Idl
