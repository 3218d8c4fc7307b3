import Idl.Numeric.Notation
import Idl.Proofs.Numeric.Numerals
import Idl.Proofs.Numeric.Rounding

/-!
# Decimal notation reads back

The text of a finite number is a numeral, and the number nearest to the numeral is the number.

* §1 the text of a numeral, §2 the layout of a decimal,
* §3 rounding of decimals, §4 numbers and their texts.
-/

namespace Idl

/-! ## §1 Texts of numerals -/

namespace Numeral

/-- The text of a numeral, with a point and an exponent only where they have digits. -/
def text (n : Numeral) : Bytes :=
  (if n.negative then [0x2D] else []) ++ (n.whole
    ++ ((if n.fraction = [] then [] else 0x2E :: n.fraction)
    ++ (if n.exponent = [] then []
      else 0x65 :: (if n.expNegative then 0x2D else 0x2B) :: n.exponent)))

/-- A numeral whose parts are digits, with at least one in front of the point. -/
structure Proper (n : Numeral) : Prop where
  whole_ne_nil : n.whole ≠ []
  whole : ∀ b ∈ n.whole, Bytes.isDigit b = true
  fraction : ∀ b ∈ n.fraction, Bytes.isDigit b = true
  exponent : ∀ b ∈ n.exponent, Bytes.isDigit b = true
  positive : n.exponent = [] → n.expNegative = false

/-- A proper numeral is read back from its text. -/
theorem ofBytes?_text {n : Numeral} (h : n.Proper) : ofBytes? n.text = some n := by
  obtain ⟨negative, whole, fraction, expNegative, exponent⟩ := n
  obtain ⟨hne, hwhole, hfraction, hexponent, hpositive⟩ := h
  dsimp only at *
  obtain ⟨c, w, rfl⟩ := List.exists_cons_of_ne_nil hne
  have hdigit := hwhole c List.mem_cons_self
  have hminus : c ≠ 0x2D := by rintro rfl; exact absurd hdigit (by decide)
  have hplus : c ≠ 0x2B := by rintro rfl; exact absurd hdigit (by decide)
  -- the exponent part, and the fraction with what follows it
  generalize he : (if exponent = [] then []
    else 0x65 :: (if expNegative then 0x2D else 0x2B) :: exponent) = e
  have hehead : ∀ b ∈ e.head?, Bytes.isDigit b = false := by
    rw [← he]
    split
    · simp
    · rintro b ⟨⟩
      decide
  generalize hp : (if fraction = [] then [] else 0x2E :: fraction) ++ e = p
  have hphead : ∀ b ∈ p.head?, Bytes.isDigit b = false := by
    rw [← hp]
    split
    · exact hehead
    · rintro b ⟨⟩
      decide
  -- each run of digits ends at the next mark
  obtain ⟨htake, hdrop⟩ := Bytes.takeWhile_isDigit hwhole hphead
  obtain ⟨htake', hdrop'⟩ := Bytes.takeWhile_isDigit hfraction hehead
  simp only [List.cons_append] at htake hdrop
  have htext : text ⟨negative, c :: w, fraction, expNegative, exponent⟩
      = (if negative then [0x2D] else []) ++ c :: (w ++ p) := by
    simp only [text, he, hp, List.cons_append]
  rw [htext]
  unfold ofBytes?
  -- read alike with and without a minus
  cases negative
  all_goals
    simp [hminus, hplus, htake, hdrop]
    cases fraction with
    | nil =>
      obtain rfl : e = p := by simpa using hp
      cases exponent with
      | nil =>
        obtain rfl := hpositive rfl
        simp [← he]
      | cons d exponent =>
        cases expNegative <;> simp [← he] <;> simpa using hexponent
    | cons d fraction =>
      obtain rfl : 0x2E :: d :: (fraction ++ e) = p := by simpa using hp
      simp only [List.cons_append] at htake' hdrop'
      simp only [htake', hdrop']
      cases exponent with
      | nil =>
        obtain rfl := hpositive rfl
        simp [← he]
      | cons d exponent =>
        cases expNegative <;> simp [← he] <;> simpa using hexponent

/-- The rational number that a numeral without its sign stands for. -/
def value (n : Numeral) : ℚ := Bytes.toNat 10 (n.whole ++ n.fraction) * 10 ^ n.scale

/-- A numeral without an exponent part. -/
theorem exists_plain (whole fraction : Bytes) (hne : whole ≠ [])
    (hwhole : ∀ b ∈ whole, Bytes.isDigit b = true)
    (hfraction : ∀ b ∈ fraction, Bytes.isDigit b = true) :
    ∃ k : Numeral, k.Proper ∧ k.negative = false
      ∧ k.text = whole ++ (if fraction = [] then [] else 0x2E :: fraction)
      ∧ k.value = Bytes.toNat 10 (whole ++ fraction) * 10 ^ (-(fraction.length : Int)) := by
  refine ⟨⟨false, whole, fraction, false, []⟩, ⟨hne, hwhole, hfraction, nofun, fun _ => rfl⟩, rfl,
    by simp [text], ?_⟩
  simp [value, scale, Bytes.toNat]

/-- A numeral with an exponent that is padded by zeros, unless it is too large. -/
theorem exists_scaled (whole fraction : Bytes) (hne : whole ≠ [])
    (hwhole : ∀ b ∈ whole, Bytes.isDigit b = true)
    (hfraction : ∀ b ∈ fraction, Bytes.isDigit b = true) (width : Nat) {e : Int}
    (he : e.natAbs < 10 ^ 9) :
    ∃ k : Numeral, k.Proper ∧ k.negative = false
      ∧ k.text = whole ++ ((if fraction = [] then [] else 0x2E :: fraction) ++ 0x65
        :: (if e < 0 then 0x2D else 0x2B)
        :: FloatNotation.padZeros width (Bytes.ofNat e.natAbs))
      ∧ k.value = Bytes.toNat 10 (whole ++ fraction) * 10 ^ (e - fraction.length) := by
  generalize hpad : FloatNotation.padZeros width (Bytes.ofNat e.natAbs) = exponent
  have hnil : exponent ≠ [] := by
    rw [← hpad, FloatNotation.padZeros]
    simp [Bytes.ofNat_ne_nil]
  have hdigits : ∀ b ∈ exponent, Bytes.isDigit b = true := by
    intro b hb
    rw [← hpad, FloatNotation.padZeros] at hb
    rcases List.mem_append.mp hb with hb | hb
    · rw [(List.mem_replicate.mp hb).2]
      decide
    · exact Bytes.isDigit_of_mem_ofNat hb
  refine ⟨⟨false, whole, fraction, decide (e < 0), exponent⟩,
    ⟨hne, hwhole, hfraction, hdigits, fun h => absurd h hnil⟩, rfl, by simp [text, hnil], ?_⟩
  -- zeros in front of the exponent do not change it
  have hdrop : exponent.dropWhile (· == 0x30) = (Bytes.ofNat e.natAbs).dropWhile (· == 0x30) := by
    rw [← hpad, FloatNotation.padZeros, List.dropWhile_append_of_pos]
    intro b hb
    simp [(List.mem_replicate.mp hb).2]
  have hshort : ¬ ((Bytes.ofNat e.natAbs).dropWhile (· == 0x30)).length > 9 := by
    have hle := (List.dropWhile_sublist (· == (0x30 : UInt8)) (l := Bytes.ofNat e.natAbs)).length_le
    have := (Bytes.length_ofNat_le_iff (by decide)).mpr he
    omega
  simp only [value, scale, hdrop, if_neg hshort, Bytes.toNat_dropWhile_zero, Bytes.toNat_ofNat]
  congr 2
  by_cases h : e < 0
  · simp only [h, decide_true, if_true]
    omega
  · simp only [h, decide_false, Bool.false_eq_true, if_false]
    omega

end Numeral

/-! ## §2 The layout of a decimal -/

namespace FloatNotation

/-- The layout of a decimal is the text of a numeral with the same value. -/
theorem exists_text_eq_layout (n : FloatNotation) {d : Decimal}
    (hlead : (d.exp + (Bytes.ofNat d.digits).length - 1).natAbs < 10 ^ 9) :
    ∃ k : Numeral, k.Proper ∧ k.negative = false ∧ k.text = n.layout d ∧ k.value = d.value := by
  have hdigits : ∀ b ∈ Bytes.ofNat d.digits, Bytes.isDigit b = true :=
    fun b hb => Bytes.isDigit_of_mem_ofNat hb
  have hzeros (i : Nat) : ∀ b ∈ List.replicate i 0x30, Bytes.isDigit b = true := by
    intro b hb
    rw [(List.mem_replicate.mp hb).2]
    decide
  have hne := Bytes.ofNat_ne_nil d.digits
  have hpos := Bytes.length_ofNat_pos d.digits
  have hvalue := Bytes.toNat_ofNat d.digits
  unfold layout
  dsimp only
  -- below only the number and the value of the digits count
  generalize Bytes.ofNat d.digits = digits at *
  generalize hl : d.exp + digits.length - 1 = lead at *
  split
  · split
    · next hexp =>
      -- all digits, and zeros after them
      obtain ⟨k, hk, hneg, htext, hval⟩ := Numeral.exists_plain
        (digits ++ List.replicate d.exp.toNat 0x30) [] (by simp [hne])
        (List.forall_mem_append.mpr ⟨hdigits, hzeros _⟩) nofun
      refine ⟨k, hk, hneg, htext.trans (by simp), hval.trans ?_⟩
      have hcast : (10 : ℚ) ^ d.exp = 10 ^ d.exp.toNat := by
        rw [← zpow_natCast]
        congr 1
        omega
      rw [List.append_nil, Bytes.toNat_append, hvalue, Bytes.toNat_replicate_zero, Decimal.value,
        hcast]
      simp
    · next hexp =>
      split
      · next hwhole =>
        -- the point is between two digits
        have hdrop : digits.drop (lead + 1).toNat ≠ [] := by
          rw [Ne, List.drop_eq_nil_iff]
          omega
        have htake : digits.take (lead + 1).toNat ≠ [] := by
          rw [Ne, List.take_eq_nil_iff, not_or]
          exact ⟨by omega, hne⟩
        obtain ⟨k, hk, hneg, htext, hval⟩ := Numeral.exists_plain _ _ htake
          (fun b hb => hdigits b (List.mem_of_mem_take hb))
          (fun b hb => hdigits b (List.mem_of_mem_drop hb))
        refine ⟨k, hk, hneg, htext.trans ?_, hval.trans ?_⟩
        · rw [if_neg hdrop, List.append_assoc]
          rfl
        · rw [List.take_append_drop, hvalue, Decimal.value, List.length_drop]
          congr 2
          omega
      · next hwhole =>
        -- zeros stand between the point and the digits
        obtain ⟨k, hk, hneg, htext, hval⟩ := Numeral.exists_plain [0x30]
          (List.replicate (-lead - 1).toNat 0x30 ++ digits) (by simp) (hzeros 1)
          (List.forall_mem_append.mpr ⟨hzeros _, hdigits⟩)
        refine ⟨k, hk, hneg, htext.trans ?_, hval.trans ?_⟩
        · rw [if_neg (by simp [hne]), List.append_assoc]
          rfl
        · have hone : ([0x30] : Bytes) = List.replicate 1 0x30 := rfl
          rw [hone, Bytes.toNat_replicate_zero_append, Bytes.toNat_replicate_zero_append, hvalue,
            Decimal.value, List.length_append, List.length_replicate]
          congr 2
          omega
  -- one digit, the others behind the point, and an exponent
  · obtain ⟨k, hk, hneg, htext, hval⟩ := Numeral.exists_scaled (digits.take 1)
      (digits.drop 1) (by simp [hne])
      (fun b hb => hdigits b (List.mem_of_mem_take hb))
      (fun b hb => hdigits b (List.mem_of_mem_drop hb)) n.expWidth hlead
    refine ⟨k, hk, hneg, htext.trans ?_, hval.trans ?_⟩
    · have hfraction : digits.drop 1 = [] ↔ ¬ digits.length > 1 := by
        rw [List.drop_eq_nil_iff]
        omega
      simp only [List.append_assoc]
      congr 2
      · by_cases hone : digits.length > 1
        · rw [if_neg (by rw [hfraction]; omega), if_pos hone]
          rfl
        · rw [if_pos (hfraction.mpr hone), if_neg hone]
      · split <;> rfl
    · rw [List.take_append_drop, hvalue, Decimal.value, List.length_drop]
      congr 2
      omega

end FloatNotation

/-! ## §3 Rounding of decimals -/

theorem Decimal.digits_pos {d : Decimal} (h : 0 < d.value) : 0 < d.digits := by
  by_contra hzero
  obtain hzero : d.digits = 0 := by omega
  simp [Decimal.value, hzero] at h

/-- The place of the first digit of a decimal goes by its decimal logarithm. -/
theorem Decimal.lead_bounds {d : Decimal} (hlow : (10 : ℚ) ^ (-400 : Int) < d.value)
    (hhigh : d.value < 10 ^ (400 : Int)) :
    -400 < d.exp + (Bytes.ofNat d.digits).length ∧ d.exp + (Bytes.ofNat d.digits).length ≤ 400 := by
  have hone : (1 : ℚ) < 10 := by norm_num
  have hexp : (0 : ℚ) < 10 ^ d.exp := by positivity
  have hlt : (d.digits : ℚ) < 10 ^ ((Bytes.ofNat d.digits).length : Int) := by
    rw [zpow_natCast]
    exact_mod_cast Bytes.lt_pow_length_ofNat d.digits
  have hdigits := Decimal.digits_pos (lt_trans (by positivity) hlow)
  have hpos := Bytes.length_ofNat_pos d.digits
  have hge : (10 : ℚ) ^ (((Bytes.ofNat d.digits).length - 1 : Nat) : Int) ≤ d.digits := by
    rw [zpow_natCast]
    exact_mod_cast Bytes.pow_length_ofNat_le hdigits
  rw [Decimal.value] at hlow hhigh
  constructor
  · have hbound : (10 : ℚ) ^ (-400 : Int) < 10 ^ ((Bytes.ofNat d.digits).length + d.exp) := by
      rw [zpow_add₀ (by norm_num)]
      exact hlow.trans (mul_lt_mul_of_pos_right hlt hexp)
    have := (zpow_lt_zpow_iff_right₀ hone).mp hbound
    omega
  · have hbound : (10 : ℚ) ^ ((((Bytes.ofNat d.digits).length - 1 : Nat) : Int) + d.exp)
        < 10 ^ (400 : Int) := by
      rw [zpow_add₀ (by norm_num)]
      exact (mul_le_mul_of_nonneg_right hge hexp.le).trans_lt hhigh
    have := (zpow_lt_zpow_iff_right₀ hone).mp hbound
    omega

namespace FloatFormat

variable {f : FloatFormat}

/-- The numbers of a format are far from where decimal exponents are cut short. -/
structure Moderate (f : FloatFormat) : Prop where
  fracBits_pos : 0 < f.fracBits
  low : (10 : ℚ) ^ (-400 : Int) < 2 ^ (f.minExp - 1)
  high : (2 : ℚ) ^ (f.minExp + f.fracBits + f.specialExp) < 10 ^ (400 : Int)

theorem double_moderate : double.Moderate := by
  refine ⟨by decide, ?_, ?_⟩
  · have hmin : double.minExp - 1 = -1075 := by decide
    have hlt : ((2 ^ 1075 : Nat) : ℚ) < (10 ^ 400 : Nat) := Nat.cast_lt.mpr (by decide +kernel)
    rw [hmin, zpow_neg, zpow_neg]
    refine inv_strictAnti₀ (by positivity) ?_
    simpa only [Nat.cast_pow, Nat.cast_ofNat, zpow_ofNat] using hlt
  · have hmax : double.minExp + double.fracBits + double.specialExp = 1025 := by decide
    have hlt : ((2 ^ 1025 : Nat) : ℚ) < (10 ^ 400 : Nat) := Nat.cast_lt.mpr (by decide +kernel)
    rw [hmax]
    simpa only [Nat.cast_pow, Nat.cast_ofNat, zpow_ofNat] using hlt

/-- The interval of a finite positive number is in the same range. -/
theorem Represents.value_bounds {m : Nat} {q : Int} {narrow : Bool} {r : ℚ} (hf : f.Moderate)
    (hm : 0 < m) (h : f.Represents m q narrow) (hfinite : f.magnitudeBits m q < f.infinity)
    (hnear : Nearest m q narrow r) : (10 : ℚ) ^ (-400 : Int) < r ∧ r < 10 ^ (400 : Int) := by
  have hmin := h.minExp_le
  have hpos : (0 : ℚ) < 2 ^ (q - 2) := by positivity
  have hone : (1 : ℚ) ≤ 2 := one_le_two
  constructor
  -- a significand of one at the least exponent is the smallest value
  · have hgap : (if narrow then 1 else 2 : ℚ) ≤ 2 := by split <;> norm_num
    have hm' : (1 : ℚ) ≤ m := by exact_mod_cast hm
    calc (10 : ℚ) ^ (-400 : Int) < 2 ^ (f.minExp - 1) := hf.low
      _ ≤ 2 ^ (q - 1) := zpow_le_zpow_right₀ hone (by omega)
      _ = 2 * 2 ^ (q - 2) := by
        rw [← zpow_one_add₀ two_ne_zero]
        congr 1
        ring
      _ ≤ (4 * m - (if narrow then 1 else 2)) * 2 ^ (q - 2) := by nlinarith
      _ ≤ r := hnear.lower
  -- and the largest finite one stays below the exponent kept for the specials
  · have hm' : (m + 1 : ℚ) ≤ 2 ^ (f.fracBits + 1) := by exact_mod_cast h.lt
    have hspecial : (q - f.minExp).toNat < f.specialExp := by
      rw [magnitudeBits, infinity] at hfinite
      exact Nat.lt_of_mul_lt_mul_right (lt_of_le_of_lt (Nat.le_add_left _ _) hfinite)
    calc r ≤ (4 * m + 2) * 2 ^ (q - 2) := hnear.upper
      _ < 4 * 2 ^ (f.fracBits + 1) * 2 ^ (q - 2) := by nlinarith
      _ = 2 ^ (f.fracBits + 1 + q : Int) := by
        rw [show (f.fracBits + 1 + q : Int) = (f.fracBits + 1 : Nat) + 2 + (q - 2) by push_cast; ring,
          zpow_add₀ two_ne_zero, zpow_add₀ two_ne_zero, zpow_natCast, mul_comm (4 : ℚ)]
        norm_num
      _ ≤ 2 ^ (f.minExp + f.fracBits + f.specialExp) := zpow_le_zpow_right₀ hone (by omega)
      _ < 10 ^ (400 : Int) := hf.high

/-- A decimal in the interval of a number is rounded to the number. -/
theorem ofDecimal_eq {m : Nat} {q : Int} {narrow : Bool} {d : Decimal} (hf : f.Moderate)
    (hm : 0 < m) (h : f.Represents m q narrow) (hfinite : f.magnitudeBits m q < f.infinity)
    (hnear : Nearest m q narrow d.value) :
    f.ofDecimal d.digits d.exp = f.magnitudeBits m q := by
  obtain ⟨hlow, hhigh⟩ := h.value_bounds hf hm hfinite hnear
  have hlead := Decimal.lead_bounds hlow hhigh
  have hwidth : decimalWidth d.digits = (Bytes.ofNat d.digits).length := by
    rw [decimalWidth, Bytes.ofNat, List.length_map]
  have hdigits := Decimal.digits_pos (lt_trans (by positivity) hlow)
  have hratio : ((d.digits * 10 ^ d.exp.toNat : Nat) : ℚ) / (10 ^ (-d.exp).toNat : Nat)
      = d.value := by
    rw [Decimal.value]
    push_cast
    rw [← zpow_mul_toNat (by norm_num) d.exp]
    field_simp
  rw [ofDecimal, hwidth, if_neg (by simp; omega), if_neg (by omega)]
  exact ofRatio_eq hf.fracBits_pos (by positivity) (by positivity) h hfinite (hratio ▸ hnear)

end FloatFormat

/-! ## §4 Numbers and their texts -/

/-- A finite number is written as a numeral to which it is the nearest number. -/
theorem FloatNotation.exists_text_eq_render (n : FloatNotation) {f : FloatFormat} (hf : f.Moderate)
    {m : Nat} {q : Int} {narrow : Bool} (h : f.Represents m q narrow)
    (hfinite : f.magnitudeBits m q < f.infinity) (negative : Bool) :
    ∃ k : Numeral, k.Proper ∧ k.negative = negative ∧ k.text = n.render (.finite negative m q narrow)
      ∧ k.toBits f = f.withSign negative (f.magnitudeBits m q) := by
  have hsign : (if negative then [0x2D] else [] : Bytes) = if negative then ("-" : Bytes) else [] := by
    cases negative <;> rfl
  by_cases hm : m = 0
  · subst hm
    have hzero : Bytes.toNat 10 [0x30] = 0 := by decide
    refine ⟨⟨negative, [0x30], [], false, []⟩, ⟨by simp, fun b hb => ?_, nofun, nofun, fun _ => rfl⟩,
      rfl, ?_, ?_⟩
    · rw [List.mem_singleton.mp hb]
      decide
    · simp only [Numeral.text, render, hsign]
      rfl
    · have hq : q = f.minExp := by
        by_contra hne
        exact absurd (h.normal hne) (by simp)
      simp [Numeral.toBits, hzero, FloatFormat.ofDecimal, FloatFormat.magnitudeBits, hq]
  -- the shortest decimal lies where it is read back as the number
  · have hnear := Decimal.nearest_shortest (Nat.pos_of_ne_zero hm) q narrow
    obtain ⟨hlow, hhigh⟩ := h.value_bounds hf (Nat.pos_of_ne_zero hm) hfinite hnear
    have hlead := Decimal.lead_bounds hlow hhigh
    obtain ⟨k, hk, hneg, htext, hvalue⟩ :=
      n.exists_text_eq_layout (d := Decimal.shortest m q narrow) (by omega)
    refine ⟨{ k with negative := negative }, ⟨hk.1, hk.2, hk.3, hk.4, hk.5⟩, rfl, ?_, ?_⟩
    · simp only [render, beq_iff_eq, hm, if_false, ← htext]
      simp [Numeral.text, hneg, hsign]
    · rw [Numeral.toBits]
      rw [← hvalue] at hnear
      exact congrArg (f.withSign negative)
        (FloatFormat.ofDecimal_eq (d := ⟨_, k.scale⟩) hf (Nat.pos_of_ne_zero hm) h hfinite hnear)

namespace Binary64

theorem bits_lt (x : Binary64) :
    x.bits.toNat < 2 ^ (FloatFormat.double.fracBits + FloatFormat.double.expBits + 1) :=
  x.bits.toNat_lt

/-- A finite number is read back from its text. -/
theorem ofNumeral?_render {x : Binary64} {negative narrow : Bool} {m : Nat} {q : Int}
    (h : x.classify = .finite negative m q narrow) : ofNumeral? x.render = some x := by
  obtain ⟨hbits, hfinite, hrep⟩ := FloatFormat.classify_eq_finite x.bits_lt h
  obtain ⟨k, hk, -, htext, htoBits⟩ := FloatNotation.constant.exists_text_eq_render
    FloatFormat.double_moderate hrep hfinite negative
  have hx : ofBits (k.toBits .double) = x := by
    rw [htoBits, ← hbits, ofBits]
    simp
  rw [render, h, ← htext, ofNumeral?, Numeral.ofBytes?_text hk]
  simp [hx, h]

theorem eq_infinity {x : Binary64} {negative : Bool} (h : x.classify = .infinite negative) :
    x = infinity negative := by
  have hbits := FloatFormat.classify_eq_infinite x.bits_lt h
  rw [infinity, ← hbits, ofBits]
  simp

/-- The text of a number reads back, or it is the word of its class, which is no numeral. -/
theorem render_cases (x : Binary64) :
    ofNumeral? x.render = some x
      ∨ ofNumeral? x.render = none
        ∧ (x.isNaN = true ∧ x.render = FloatNotation.constant.nan
          ∨ ∃ negative, x = infinity negative
            ∧ x.render = FloatNotation.constant.render (.infinite negative)) := by
  cases hx : x.classify with
  | nan =>
    have hrender : x.render = FloatNotation.constant.nan := by rw [render, hx]; rfl
    refine .inr ⟨by rw [hrender]; decide, .inl ⟨?_, hrender⟩⟩
    rw [isNaN, hx]
    rfl
  | infinite negative =>
    refine .inr ⟨?_, .inr ⟨negative, eq_infinity hx, by rw [render, hx]⟩⟩
    rw [render, hx]
    cases negative <;> decide
  | finite negative m q narrow => exact .inl (ofNumeral?_render hx)

/-- Texts tell numbers apart, except that all that are not a number look alike. -/
theorem eq_of_render_eq {x y : Binary64} (h : x.render = y.render) :
    x = y ∨ x.isNaN = true ∧ y.isNaN = true := by
  have hread := congrArg ofNumeral? h
  rcases x.render_cases with hx | ⟨hx, hxword⟩ <;> rcases y.render_cases with hy | ⟨hy, hyword⟩
  · rw [hx, hy] at hread
    exact .inl (Option.some.inj hread)
  · rw [hx, hy] at hread
    cases hread
  · rw [hx, hy] at hread
    cases hread
  · -- the words differ, and each but the first stands for one number
    rcases hxword with ⟨hx, hxw⟩ | ⟨a, hx, hxw⟩ <;> rcases hyword with ⟨hy, hyw⟩ | ⟨b, hy, hyw⟩
    all_goals rw [hxw, hyw] at h
    · exact .inr ⟨hx, hy⟩
    · exact absurd h (by cases b <;> decide)
    · exact absurd h (by cases a <;> decide)
    · obtain rfl : a = b := by
        revert h
        cases a <;> cases b <;> decide
      exact .inl (hx.trans hy.symm)

end Binary64

end Idl
