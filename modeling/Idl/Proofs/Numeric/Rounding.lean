import Idl.Numeric.Binary
import Mathlib.Algebra.Order.Field.Power
import Mathlib.Data.Rat.Cast.Order
import Mathlib.Tactic.FieldSimp
import Mathlib.Tactic.Linarith
import Mathlib.Tactic.NormNum
import Mathlib.Tactic.Positivity
import Mathlib.Tactic.Ring

/-!
# Rounding to the nearest number

Around each number of a format lie the rationals that are nearer to it than to its neighbours.
Rounding a quotient in such an interval gives the bits of the number, and the shortest decimal of a
number lies in its interval.

* §1 powers with integer exponents, §2 intervals,
* §3 rounding of quotients, §4 the bits of a class, §5 the shortest decimal.
-/

namespace Idl

/-! ## §1 Powers -/

theorem zpow_mul_toNat {b : ℚ} (hb : b ≠ 0) (i : Int) : b ^ i * b ^ (-i).toNat = b ^ i.toNat := by
  rw [← zpow_natCast, ← zpow_natCast, ← zpow_add₀ hb]
  congr 1
  omega

/-- A power of two in quarters. -/
theorem two_zpow_eq_four_mul (q : Int) : (2 : ℚ) ^ q = 4 * 2 ^ (q - 2) := by
  rw [zpow_sub₀ two_ne_zero]
  norm_num
  ring

namespace Decimal

/-- The rational number that a decimal stands for. -/
def value (d : Decimal) : ℚ := d.digits * 10 ^ d.exp

/-- The two sides of a comparison are the two numbers, both multiplied by the same power. -/
theorem compareScaled_sides (a : Nat) (i : Int) (n : Nat) (j : Int) :
    ∃ c : ℚ, 0 < c
      ∧ ((a * 10 ^ i.toNat * 2 ^ (-j).toNat : Nat) : ℚ) = a * 10 ^ i * c
      ∧ ((n * 2 ^ j.toNat * 10 ^ (-i).toNat : Nat) : ℚ) = n * 2 ^ j * c := by
  refine ⟨10 ^ (-i).toNat * 2 ^ (-j).toNat, by positivity, ?_, ?_⟩
  · push_cast
    rw [← zpow_mul_toNat (by norm_num) i]
    ring
  · push_cast
    rw [← zpow_mul_toNat (by norm_num) j]
    ring

theorem compareScaled_eq_lt {a n : Nat} {i j : Int} (h : compareScaled a i n j = .lt) :
    (a * 10 ^ i : ℚ) < n * 2 ^ j := by
  obtain ⟨c, hc, hleft, hright⟩ := compareScaled_sides a i n j
  have hlt := Nat.cast_lt (α := ℚ).mpr (Nat.compare_eq_lt.mp h)
  rw [hleft, hright] at hlt
  exact lt_of_mul_lt_mul_right hlt hc.le

theorem compareScaled_eq_gt {a n : Nat} {i j : Int} (h : compareScaled a i n j = .gt) :
    (n * 2 ^ j : ℚ) < a * 10 ^ i := by
  obtain ⟨c, hc, hleft, hright⟩ := compareScaled_sides a i n j
  have hlt := Nat.cast_lt (α := ℚ).mpr (Nat.compare_eq_gt.mp h)
  rw [hleft, hright] at hlt
  exact lt_of_mul_lt_mul_right hlt hc.le

theorem compareScaled_eq_eq {a n : Nat} {i j : Int} (h : compareScaled a i n j = .eq) :
    (a * 10 ^ i : ℚ) = n * 2 ^ j := by
  obtain ⟨c, hc, hleft, hright⟩ := compareScaled_sides a i n j
  have heq := congrArg (Nat.cast (R := ℚ)) (Nat.compare_eq_eq.mp h)
  rw [hleft, hright] at heq
  exact mul_right_cancel₀ hc.ne' heq

end Decimal

/-! ## §2 Intervals -/

/-- The rationals that round to `m * 2 ^ q`: those between the halfway points to its neighbours,
which belong to the interval only if `m` is even. -/
structure Nearest (m : Nat) (q : Int) (narrow : Bool) (r : ℚ) : Prop where
  lower : (4 * m - (if narrow then 1 else 2)) * 2 ^ (q - 2) ≤ r
  upper : r ≤ (4 * m + 2) * 2 ^ (q - 2)
  inside : m % 2 = 1 →
    (4 * m - (if narrow then 1 else 2)) * 2 ^ (q - 2) < r ∧ r < (4 * m + 2) * 2 ^ (q - 2)

theorem Nearest.of_readsBack {m : Nat} {q : Int} {narrow : Bool} {d : Decimal} (hm : 0 < m)
    (h : d.readsBack m q narrow = true) : Nearest m q narrow d.value := by
  simp only [Decimal.readsBack, Bool.and_eq_true, Bool.or_eq_true, beq_iff_eq] at h
  obtain ⟨hbelow, habove⟩ := h
  -- the lower bound is a difference of naturals, so the cast needs its sign first
  have hlo : ((if narrow then 4 * m - 1 else 4 * m - 2 : Nat) : ℚ)
      = 4 * m - (if narrow then 1 else 2) := by
    cases narrow
    · simp only [Bool.false_eq_true, if_false]
      rw [Nat.cast_sub (by omega)]
      norm_num
    · simp only [if_true]
      rw [Nat.cast_sub (by omega)]
      norm_num
  have hhi : ((4 * m + 2 : Nat) : ℚ) = 4 * m + 2 := by norm_num
  -- the bounds may be met, and an odd mantissa keeps off them
  refine ⟨?_, ?_, fun hodd => ⟨?_, ?_⟩⟩
  · rw [← hlo]
    rcases hbelow with hgt | ⟨-, heq⟩
    · exact (Decimal.compareScaled_eq_gt hgt).le
    · exact (Decimal.compareScaled_eq_eq heq).ge
  · rw [← hhi]
    rcases habove with hlt | ⟨-, heq⟩
    · exact (Decimal.compareScaled_eq_lt hlt).le
    · exact (Decimal.compareScaled_eq_eq heq).le
  · rw [← hlo]
    rcases hbelow with hgt | ⟨heven, -⟩
    · exact Decimal.compareScaled_eq_gt hgt
    · omega
  · rw [← hhi]
    rcases habove with hlt | ⟨heven, -⟩
    · exact Decimal.compareScaled_eq_lt hlt
    · omega

/-- The number itself is in its interval. -/
theorem Nearest.self (m : Nat) (q : Int) (narrow : Bool) : Nearest m q narrow (m * 2 ^ q) := by
  have hpos : (0 : ℚ) < 2 ^ (q - 2) := by positivity
  have hgap : (0 : ℚ) < if narrow then 1 else 2 := by split <;> norm_num
  have hlower : (4 * m - (if narrow then 1 else 2)) * 2 ^ (q - 2) < (m * 2 ^ q : ℚ) := by
    rw [two_zpow_eq_four_mul q]
    linarith [mul_pos hgap hpos]
  have hupper : (m * 2 ^ q : ℚ) < (4 * m + 2) * 2 ^ (q - 2) := by
    rw [two_zpow_eq_four_mul q]
    linarith
  exact ⟨hlower.le, hupper.le, fun _ => ⟨hlower, hupper⟩⟩

/-- In units of the last place, the interval goes a half to both sides at the most. -/
theorem Nearest.div {m : Nat} {q : Int} {narrow : Bool} {r : ℚ} (h : Nearest m q narrow r) :
    2 * m - 1 ≤ 2 * (r / 2 ^ q) ∧ 2 * (r / 2 ^ q) ≤ 2 * m + 1
      ∧ (m % 2 = 1 → 2 * m - 1 < 2 * (r / 2 ^ q) ∧ 2 * (r / 2 ^ q) < 2 * m + 1) := by
  have hpos : (0 : ℚ) < 2 ^ (q - 2) := by positivity
  have hgap : (if narrow then 1 else 2 : ℚ) ≤ 2 := by split <;> norm_num
  -- in units of a quarter of the spacing
  have hr : r = 4 * (r / 2 ^ q) * 2 ^ (q - 2) := by
    rw [two_zpow_eq_four_mul q]
    field_simp
  generalize r / 2 ^ q = x at *
  subst hr
  refine ⟨?_, ?_, fun hodd => ⟨?_, ?_⟩⟩
  · linarith [le_of_mul_le_mul_right h.lower hpos]
  · linarith [le_of_mul_le_mul_right h.upper hpos]
  · linarith [lt_of_mul_lt_mul_right (h.inside hodd).1 hpos.le]
  · linarith [lt_of_mul_lt_mul_right (h.inside hodd).2 hpos.le]

/-- Where the gap is narrow, what lies below the number is less than a quarter away from it. -/
theorem Nearest.div_of_narrow {m : Nat} {q : Int} {r : ℚ} (h : Nearest m q true r)
    (hbelow : r < m * 2 ^ q) :
    4 * m - 1 ≤ 2 * (r / 2 ^ (q - 1)) ∧ 2 * (r / 2 ^ (q - 1)) < 4 * m := by
  have hpos : (0 : ℚ) < 2 ^ (q - 2) := by positivity
  have hhalf : (2 : ℚ) ^ (q - 1) = 2 * 2 ^ (q - 2) := by
    rw [← zpow_one_add₀ two_ne_zero, show 1 + (q - 2) = q - 1 by ring]
  -- the numbers below a power of two stand half as far apart
  have hr : r = 2 * (r / 2 ^ (q - 1)) * 2 ^ (q - 2) := by
    rw [hhalf]
    field_simp
  have hlower := h.lower
  rw [if_pos rfl] at hlower
  rw [two_zpow_eq_four_mul q, ← mul_assoc] at hbelow
  generalize r / 2 ^ (q - 1) = x at *
  subst hr
  refine ⟨le_of_mul_le_mul_right hlower hpos, ?_⟩
  linarith [lt_of_mul_lt_mul_right hbelow hpos.le]

/-! ## §3 Rounding of quotients -/

/-- A quotient is rounded to the natural number that it is nearest to; halfway it has to be even. -/
theorem roundDiv_eq {num den k : Nat} (hden : 0 < den) (hlower : 2 * k * den ≤ 2 * num + den)
    (hupper : 2 * num ≤ 2 * k * den + den)
    (hinside : k % 2 = 1 → 2 * k * den < 2 * num + den ∧ 2 * num < 2 * k * den + den) :
    roundDiv num den = k := by
  have hnum := Nat.div_add_mod num den
  have hmod := Nat.mod_lt num hden
  rw [roundDiv]
  generalize num / den = q at *
  generalize num % den = s at *
  -- all that is said is linear in the products with the denominator
  rw [Nat.mul_assoc, Nat.mul_comm k] at hlower hupper hinside
  have hle : q ≤ k := by
    by_contra hlt
    have hmul := Nat.mul_le_mul_left den (show k + 1 ≤ q by omega)
    rw [Nat.mul_succ] at hmul
    omega
  have hge : k ≤ q + 1 := by
    by_contra hlt
    have hmul := Nat.mul_le_mul_left den (show q + 2 ≤ k by omega)
    rw [Nat.mul_add] at hmul
    omega
  -- the remainder decides between the two candidates
  obtain rfl | rfl : k = q ∨ k = q + 1 := by omega
  · have hrest : 2 * s ≤ den := by omega
    have hodd (h : k % 2 = 1) : 2 * s < den := by
      have hless := (hinside h).2
      omega
    split
    · rfl
    · next h => exact absurd (Nat.compare_eq_gt.mp h) (by omega)
    · next h =>
      have := Nat.compare_eq_eq.mp h
      rw [if_pos (by simp; omega)]
  · rw [Nat.mul_succ] at hlower hinside
    have hrest : den ≤ 2 * s := by omega
    have hodd (h : (q + 1) % 2 = 1) : den < 2 * s := by
      have hless := (hinside h).1
      omega
    split
    · next h => exact absurd (Nat.compare_eq_lt.mp h) (by omega)
    · rfl
    · next h =>
      have := Nat.compare_eq_eq.mp h
      rw [if_neg (by simp; omega)]

/-- The same for the quotient as a rational number. -/
theorem roundDiv_eq_of_near {num den k : Nat} {r : ℚ} (hden : 0 < den) (hr : (num : ℚ) = r * den)
    (hlower : 2 * k - 1 ≤ 2 * r) (hupper : 2 * r ≤ 2 * k + 1)
    (hinside : k % 2 = 1 → 2 * k - 1 < 2 * r ∧ 2 * r < 2 * k + 1) : roundDiv num den = k := by
  have hpos : (0 : ℚ) < den := by exact_mod_cast hden
  apply roundDiv_eq hden
  · -- the three bounds, each multiplied by the divisor
    have h := mul_le_mul_of_nonneg_right hlower hpos.le
    have : (2 * k * den : ℚ) ≤ 2 * num + den := by rw [hr]; linarith
    exact_mod_cast this
  · have h := mul_le_mul_of_nonneg_right hupper hpos.le
    have : (2 * num : ℚ) ≤ 2 * k * den + den := by rw [hr]; linarith
    exact_mod_cast this
  · intro hodd
    have h := mul_lt_mul_of_pos_right (hinside hodd).1 hpos
    have h' := mul_lt_mul_of_pos_right (hinside hodd).2 hpos
    constructor
    · have : (2 * k * den : ℚ) < 2 * num + den := by rw [hr]; linarith
      exact_mod_cast this
    · have : (2 * num : ℚ) < 2 * k * den + den := by rw [hr]; linarith
      exact_mod_cast this

namespace FloatFormat

variable {f : FloatFormat}

/-- The exponent that a quotient is rounded at goes by its binary logarithm. -/
theorem ofRatio_eq_min (f : FloatFormat) {num den : Nat} (hnum : 0 < num) (hden : 0 < den) :
    ∃ e q : Int, (2 : ℚ) ^ e ≤ num / den ∧ (num / den : ℚ) < 2 ^ (e + 1)
      ∧ q = max (e - f.fracBits) f.minExp
      ∧ f.ofRatio num den = min (roundDiv (num * 2 ^ (-q).toNat) (den * 2 ^ q.toNat)
          + (q - f.minExp).toNat * 2 ^ f.fracBits) f.infinity := by
  have hpos : (0 : ℚ) < den := by exact_mod_cast hden
  have hnumLower : (2 : ℚ) ^ (num.log2 : Int) ≤ num := by
    rw [zpow_natCast]
    exact_mod_cast Nat.log2_self_le hnum.ne'
  have hnumUpper : (num : ℚ) < 2 ^ (num.log2 : Int) * 2 := by
    rw [zpow_natCast, ← pow_succ]
    exact_mod_cast Nat.lt_log2_self
  have hdenLower : (2 : ℚ) ^ (den.log2 : Int) ≤ den := by
    rw [zpow_natCast]
    exact_mod_cast Nat.log2_self_le hden.ne'
  have hdenUpper : (den : ℚ) < 2 ^ (den.log2 : Int) * 2 := by
    rw [zpow_natCast, ← pow_succ]
    exact_mod_cast Nat.lt_log2_self
  unfold ofRatio
  dsimp only
  -- the logarithms of both sides give the exponent, or one more than it
  generalize hguess : (num.log2 : Int) - den.log2 = guess
  have hpow : (2 : ℚ) ^ guess * 2 ^ (den.log2 : Int) = 2 ^ (num.log2 : Int) := by
    rw [← zpow_add₀ two_ne_zero]
    congr 1
    omega
  have hguessPos : (0 : ℚ) < 2 ^ guess := by positivity
  -- so the guess is right exactly if the power is not above the quotient
  have hfits : den * 2 ^ guess.toNat ≤ num * 2 ^ (-guess).toNat ↔ (2 : ℚ) ^ guess ≤ num / den := by
    rw [le_div_iff₀ hpos, ← Nat.cast_le (α := ℚ)]
    push_cast
    rw [← zpow_mul_toNat two_ne_zero guess, ← mul_assoc, mul_comm (den : ℚ)]
    exact mul_le_mul_iff_left₀ (by positivity)
  by_cases h : den * 2 ^ guess.toNat ≤ num * 2 ^ (-guess).toNat
  · refine ⟨guess, _, hfits.mp h, ?_, rfl, ?_⟩
    · have hdouble := mul_le_mul_of_nonneg_left hdenLower hguessPos.le
      rw [hpow] at hdouble
      rw [div_lt_iff₀ hpos, zpow_add_one₀ two_ne_zero]
      linarith
    · simp only [h, decide_true, if_true]
  · refine ⟨guess - 1, _, ?_, ?_, rfl, ?_⟩
    · have hhalf := mul_lt_mul_of_pos_left hdenUpper hguessPos
      rw [← mul_assoc, hpow] at hhalf
      rw [le_div_iff₀ hpos, zpow_sub_one₀ two_ne_zero]
      linarith
    · rw [sub_add_cancel]
      exact not_le.mp (mt hfits.mpr h)
    · simp only [h, decide_false, Bool.false_eq_true, if_false]

/-- The finite numbers of a format, without their signs: the mantissa of all but the smallest ones
has all its bits, and the gap below a number is narrow where the mantissa starts anew. -/
structure Represents (f : FloatFormat) (m : Nat) (q : Int) (narrow : Bool) : Prop where
  lt : m < 2 ^ (f.fracBits + 1)
  minExp_le : f.minExp ≤ q
  normal : q ≠ f.minExp → 2 ^ f.fracBits ≤ m
  narrow_iff : narrow = true ↔ m = 2 ^ f.fracBits ∧ q ≠ f.minExp

/-- The bits of a finite number, apart from the sign. -/
def magnitudeBits (f : FloatFormat) (m : Nat) (q : Int) : Nat :=
  m + (q - f.minExp).toNat * 2 ^ f.fracBits

/-- The interval of a number lies below the next power of two. Where it goes below the power of two
at its own mantissa, the number is that power. -/
theorem Represents.exponent_cases {m : Nat} {q e : Int} {narrow : Bool} {r : ℚ}
    (hfrac : 0 < f.fracBits) (h : f.Represents m q narrow) (hnear : Nearest m q narrow r)
    (hlower : 2 ^ e ≤ r) (hupper : r < 2 ^ (e + 1)) :
    max (e - f.fracBits) f.minExp = q
      ∨ max (e - f.fracBits) f.minExp = q - 1 ∧ narrow = true ∧ r < m * 2 ^ q := by
  have hone : (1 : ℚ) < 2 := one_lt_two
  -- in units of the last place
  have hunits (n : Nat) : r / 2 ^ q < 2 ^ n ↔ r < 2 ^ ((n : Int) + q) := by
    rw [div_lt_iff₀ (by positivity), zpow_add₀ two_ne_zero, zpow_natCast]
  obtain ⟨hfrom, hto, -⟩ := hnear.div
  have hmin := h.minExp_le
  have hle : e - f.fracBits ≤ q := by
    have hmlt : (m + 1 : ℚ) ≤ 2 ^ (f.fracBits + 1) := by exact_mod_cast h.lt
    have hlt := hlower.trans_lt ((hunits (f.fracBits + 1)).mp (by linarith))
    have := (zpow_lt_zpow_iff_right₀ hone).mp hlt
    omega
  by_cases hq : q = f.minExp
  · exact .inl (by omega)
  by_cases hbelow : r < 2 ^ ((f.fracBits : Int) + q)
  · -- only the interval of the power itself goes below it
    have hm : m = 2 ^ f.fracBits := by
      by_contra hne
      have hgt : ((2 ^ f.fracBits + 1 : Nat) : ℚ) ≤ m := by
        exact_mod_cast Nat.lt_of_le_of_ne (h.normal hq) (Ne.symm hne)
      have hlt := (hunits _).mpr hbelow
      push_cast at hgt
      linarith
    have hnarrow : narrow = true := h.narrow_iff.mpr ⟨hm, hq⟩
    have hge : e - f.fracBits ≥ q - 1 := by
      have hhalf : (2 : ℚ) ^ f.fracBits = 2 * 2 ^ (f.fracBits - 1) := by
        rw [← pow_succ', Nat.sub_add_cancel hfrac]
      have hpowPos : (1 : ℚ) ≤ 2 ^ (f.fracBits - 1) := one_le_pow₀ hone.le
      have hnot : ¬ r < 2 ^ (((f.fracBits - 1 : Nat) : Int) + q) := by
        rw [← hunits, not_lt]
        rw [hm] at hfrom
        push_cast at hfrom
        linarith
      have := (zpow_lt_zpow_iff_right₀ hone).mp ((not_lt.mp hnot).trans_lt hupper)
      omega
    have hlt : e - f.fracBits < q := by
      have := (zpow_lt_zpow_iff_right₀ hone).mp (lt_of_le_of_lt hlower hbelow)
      omega
    refine .inr ⟨by omega, hnarrow, ?_⟩
    rw [hm]
    push_cast
    rwa [zpow_add₀ two_ne_zero, zpow_natCast] at hbelow
  · have hge : q ≤ e - f.fracBits := by
      have := (zpow_lt_zpow_iff_right₀ hone).mp (lt_of_le_of_lt (not_lt.mp hbelow) hupper)
      omega
    exact .inl (by omega)

/-- A quotient in the interval of a number is rounded to the number. -/
theorem ofRatio_eq {m num den : Nat} {q : Int} {narrow : Bool} (hfrac : 0 < f.fracBits)
    (hnum : 0 < num) (hden : 0 < den) (h : f.Represents m q narrow)
    (hfinite : f.magnitudeBits m q < f.infinity) (hnear : Nearest m q narrow (num / den)) :
    f.ofRatio num den = f.magnitudeBits m q := by
  obtain ⟨e, p, hlower, hupper, hp, hbits⟩ := ofRatio_eq_min f hnum hden
  have hden' : (den : ℚ) ≠ 0 := by exact_mod_cast hden.ne'
  -- the quotient that is rounded
  have hratio : ((num * 2 ^ (-p).toNat : Nat) : ℚ)
      = num / den / 2 ^ p * (den * 2 ^ p.toNat : Nat) := by
    push_cast
    rw [← zpow_mul_toNat two_ne_zero p]
    field_simp
  have hdenPos : 0 < den * 2 ^ p.toNat := by positivity
  generalize (num / den : ℚ) = r at *
  rw [hbits]
  rcases h.exponent_cases hfrac hnear hlower hupper with hq | ⟨hq, hnarrow, hbelow⟩
  · obtain rfl : p = q := hp.trans hq
    obtain ⟨hge, hle, hinside⟩ := hnear.div
    rw [roundDiv_eq_of_near hdenPos hratio hge hle hinside]
    exact min_eq_left hfinite.le
  · -- the interval reaches into the next smaller spacing, where the number has twice the mantissa
    obtain rfl : p = q - 1 := hp.trans hq
    obtain rfl := hnarrow
    have hround : roundDiv (num * 2 ^ (-(q - 1)).toNat) (den * 2 ^ (q - 1).toNat) = 2 * m := by
      obtain ⟨hge, hlt⟩ := hnear.div_of_narrow hbelow
      refine roundDiv_eq_of_near hdenPos hratio ?_ ?_ fun hodd => ?_
      · push_cast
        linarith
      · push_cast
        linarith
      · omega
    obtain ⟨hm, hne⟩ := h.narrow_iff.mp rfl
    have hmin := h.minExp_le
    have hcarry : (q - f.minExp).toNat = (q - 1 - f.minExp).toNat + 1 := by omega
    have hsame : 2 * m + (q - 1 - f.minExp).toNat * 2 ^ f.fracBits = f.magnitudeBits m q := by
      rw [magnitudeBits, hcarry, Nat.add_mul, ← hm]
      omega
    rw [hround, hsame]
    exact min_eq_left hfinite.le

/-! ## §4 The bits of a class -/

/-- The bits are a sign, an exponent and a fraction. -/
theorem eq_withSign {bits : Nat} (h : bits < 2 ^ (f.fracBits + f.expBits + 1)) :
    bits = f.withSign (bits / 2 ^ (f.fracBits + f.expBits) % 2 == 1)
      (bits % 2 ^ f.fracBits + bits / 2 ^ f.fracBits % 2 ^ f.expBits * 2 ^ f.fracBits) := by
  -- one bit is left above the others
  have hsign : bits / 2 ^ (f.fracBits + f.expBits) < 2 := by
    rw [Nat.div_lt_iff_lt_mul (by positivity), ← Nat.pow_succ']
    exact h
  -- the fraction and the exponent are the bits below the sign
  have hlow := Nat.mod_mul (x := bits) (a := 2 ^ f.fracBits) (b := 2 ^ f.expBits)
  rw [← Nat.pow_add, Nat.mul_comm (2 ^ f.fracBits)] at hlow
  have hbits := Nat.div_add_mod bits (2 ^ (f.fracBits + f.expBits))
  rw [← hlow, withSign]
  generalize bits / 2 ^ (f.fracBits + f.expBits) = s at *
  split
  · next hs =>
    obtain rfl : s = 1 := by simp at hs; omega
    omega
  · next hs =>
    obtain rfl : s = 0 := by simp at hs; omega
    omega

/-- What the bits of a finite number are, and what its mantissa and exponent are like. -/
theorem classify_eq_finite {bits m : Nat} {q : Int} {negative narrow : Bool}
    (hbits : bits < 2 ^ (f.fracBits + f.expBits + 1))
    (h : f.classify bits = .finite negative m q narrow) :
    bits = f.withSign negative (f.magnitudeBits m q) ∧ f.magnitudeBits m q < f.infinity
      ∧ f.Represents m q narrow := by
  have heq := eq_withSign hbits
  have hfrac := Nat.mod_lt bits (Nat.two_pow_pos f.fracBits)
  have hexp := Nat.mod_lt (bits / 2 ^ f.fracBits) (Nat.two_pow_pos f.expBits)
  have hlast : f.specialExp = 2 ^ f.expBits - 1 := rfl
  simp only [classify, infinity] at h ⊢
  generalize bits % 2 ^ f.fracBits = frac at *
  generalize bits / 2 ^ f.fracBits % 2 ^ f.expBits = exp at *
  split at h
  · split at h <;> cases h
  next hspecial =>
  have hspecial : exp + 1 ≤ f.specialExp := by
    simp only [beq_iff_eq] at hspecial
    omega
  -- the magnitude stands below infinity, whose exponent is the last
  have hbound : frac + exp * 2 ^ f.fracBits < f.specialExp * 2 ^ f.fracBits :=
    calc frac + exp * 2 ^ f.fracBits < (exp + 1) * 2 ^ f.fracBits := by
          rw [Nat.add_mul]
          omega
      _ ≤ f.specialExp * 2 ^ f.fracBits := Nat.mul_le_mul_right _ hspecial
  split at h
  · next hzero =>
    -- no exponent: the last place is the least, and nothing is added to the fraction
    obtain rfl : exp = 0 := by simpa using hzero
    cases h
    have hmag : f.magnitudeBits m f.minExp = m + 0 * 2 ^ f.fracBits := by simp [magnitudeBits]
    rw [hmag]
    exact ⟨heq, hbound, by rw [Nat.pow_succ]; omega, le_rfl, fun hne => absurd rfl hne, by simp⟩
  · next hzero =>
    -- an exponent: its leading one is added to the fraction
    have hzero : exp ≠ 0 := by simpa using hzero
    cases h
    have hmag : f.magnitudeBits (2 ^ f.fracBits + frac) (f.minExp + exp - 1)
        = frac + exp * 2 ^ f.fracBits := by
      have hto : (f.minExp + exp - 1 - f.minExp).toNat = exp - 1 := by omega
      have hexp : exp * 2 ^ f.fracBits = (exp - 1) * 2 ^ f.fracBits + 2 ^ f.fracBits := by
        rw [← Nat.succ_mul]
        congr 1
        omega
      rw [magnitudeBits, hto, hexp]
      omega
    rw [hmag]
    refine ⟨heq, hbound, by rw [Nat.pow_succ]; omega, by omega, fun _ => by omega, ?_⟩
    simp only [Bool.and_eq_true, beq_iff_eq, decide_eq_true_eq]
    omega

/-- The bits of an infinity are determined by its sign. -/
theorem classify_eq_infinite {bits : Nat} {negative : Bool}
    (hbits : bits < 2 ^ (f.fracBits + f.expBits + 1))
    (h : f.classify bits = .infinite negative) : bits = f.withSign negative f.infinity := by
  have heq := eq_withSign hbits
  simp only [classify, infinity] at h ⊢
  generalize bits % 2 ^ f.fracBits = frac at *
  generalize bits / 2 ^ f.fracBits % 2 ^ f.expBits = exp at *
  split at h
  · next hspecial =>
    split at h
    · -- all bits of the exponent are set, and no bit of the fraction
      next hzero =>
      cases h
      simp only [beq_iff_eq] at hspecial hzero
      rwa [hzero, hspecial, Nat.zero_add] at heq
    · cases h
  · split at h <;> cases h

end FloatFormat

/-! ## §5 The shortest decimal -/

namespace Decimal

/-- The zeros stripped off do not change the value. -/
theorem value_stripZeros (n : Nat) (d : Decimal) : (d.stripZeros n).value = d.value := by
  induction n generalizing d with
  | zero => rfl
  | succ n ih =>
    rw [stripZeros]
    split
    · next h =>
      simp only [Bool.and_eq_true, bne_iff_ne, beq_iff_eq] at h
      rw [ih, value, value]
      dsimp only
      -- the last digit is zero, so the division is exact
      have hdiv : ((d.digits / 10 : Nat) : ℚ) * 10 = d.digits := by
        exact_mod_cast Nat.div_mul_cancel (Nat.dvd_of_mod_eq_zero h.2)
      rw [zpow_add_one₀ (by norm_num), ← hdiv]
      ring
    · rfl

/-- A decimal of the grid that reads back is a nearest one. -/
theorem nearest_of_onGrid? {m n : Nat} {q k : Int} {narrow : Bool} {d : Decimal} (hm : 0 < m)
    (h : onGrid? m q narrow k n = some d) : Nearest m q narrow d.value := by
  unfold onGrid? at h
  dsimp only at h
  split at h
  · next hlo _ =>
    cases h
    exact .of_readsBack hm hlo
  · next _ hhi =>
    cases h
    exact .of_readsBack hm hhi
  · next hlo hhi =>
    split at h
    · cases h
      exact .of_readsBack hm hlo
    · cases h
      exact .of_readsBack hm hhi
  · cases h

/-- The shortest decimal of a number is in the interval of the number. -/
theorem nearest_shortest {m : Nat} (hm : 0 < m) (q : Int) (narrow : Bool) :
    Nearest m q narrow (shortest m q narrow).value := by
  unfold shortest
  dsimp only
  rw [value_stripZeros]
  cases hfound : (List.range 17).findSome? fun i => onGrid? m q narrow (magnitude m q) (i + 1) with
  | some d =>
    obtain ⟨i, -, hi⟩ := List.exists_of_findSome?_eq_some hfound
    exact nearest_of_onGrid? hm hi
  | none =>
    -- the number itself, with enough fives to make up for the powers of two
    have hexact : ((m * 2 ^ q.toNat * 5 ^ (-q).toNat : Nat) : ℚ) * 10 ^ (-((-q).toNat : Int))
        = m * 2 ^ q := by
      have hten : (10 : ℚ) ^ (-q).toNat = 2 ^ (-q).toNat * 5 ^ (-q).toNat := by
        rw [← mul_pow]
        norm_num
      rw [zpow_neg, zpow_natCast, hten]
      push_cast
      rw [← zpow_mul_toNat two_ne_zero q]
      field_simp
    rw [Option.getD_none, value, hexact]
    exact .self m q narrow

end Decimal

end Idl
