import Idl.Numeric.Reading
import Idl.Proofs.Numeric.Notation
import Idl.Schema.Value
import Mathlib.Data.List.TakeWhile

/-!
# Constants read back

Documents carry numbers and truth values as text. What the notation of a constant writes, the reader
of its kind takes for the same constant.

* §1 whole numbers and truth values, §2 floating-point numbers,
* §3 what readers give.
-/

namespace Idl

/-! ## §1 Whole numbers and truth values -/

/-- A numeral below the bound is read as its number. -/
theorem readNat_ofNat {bound n : Nat} (hbound : bound ≤ 2 ^ 64) (hn : n < bound) :
    readNat bound (Bytes.ofNat n) = .ok n := by
  have hdigits : (Bytes.ofNat n).takeWhile Bytes.isDigit = Bytes.ofNat n :=
    List.takeWhile_eq_self_iff.mpr fun b hb => Bytes.isDigit_of_mem_ofNat hb
  have hsmall : ¬ n ≥ 2 ^ 64 := by omega
  unfold readNat
  simp only [hdigits, Bytes.toNat_ofNat, if_neg hsmall, if_pos hn]
  simp [Bytes.ofNat_ne_nil]

theorem readUInt64_ofNat {n : Nat} (hn : n < 2 ^ 64) : readUInt64 (Bytes.ofNat n) = .ok n :=
  readNat_ofNat le_rfl hn

/-- A numeral does not begin with a sign. -/
theorem exists_ofNat_eq_cons (n : Nat) : ∃ c r, Bytes.ofNat n = c :: r ∧ Bytes.isDigit c = true := by
  obtain ⟨c, r, h⟩ := List.exists_cons_of_ne_nil (Bytes.ofNat_ne_nil n)
  exact ⟨c, r, h, Bytes.isDigit_of_mem_ofNat (h ▸ List.mem_cons_self)⟩

theorem ne_sign_of_isDigit {c : UInt8} (h : Bytes.isDigit c = true) : c ≠ 0x2D ∧ c ≠ 0x2B := by
  constructor <;> rintro rfl <;> exact absurd h (by decide)

/-- A number of 64 bits is read as it was written. -/
theorem readInt64_ofInt {n : Int} (hlow : -2 ^ 63 ≤ n) (hhigh : n < 2 ^ 63) :
    readInt64 (Bytes.ofInt n) = .ok n := by
  cases n with
  | ofNat n =>
    obtain ⟨c, r, hcons, hc⟩ := exists_ofNat_eq_cons n
    have hn : n < 2 ^ 63 := by simpa using hhigh
    -- the first byte is a digit, so no sign is read
    have hread := readNat_ofNat (by decide) hn
    obtain ⟨hminus, hplus⟩ := ne_sign_of_isDigit hc
    rw [Bytes.ofInt, hcons]
    rw [hcons] at hread
    unfold readInt64
    split
    · next heq => exact absurd (List.cons.inj heq).1 hminus
    · next heq => exact absurd (List.cons.inj heq).1 hplus
    · rw [hread]
      rfl
  | negSucc n =>
    have hn : n + 1 < 2 ^ 63 + 1 := by omega
    have hread := readNat_ofNat (by decide) hn
    rw [Bytes.ofInt, readInt64, hread]
    rfl

theorem readBool_boolName (b : Bool) : readBool (Value.boolName b) = .ok b := by
  cases b <;> decide

/-! ## §2 Floating-point numbers -/

namespace Numeral

/-- The octets of a numeral behind its first digit. -/
def isPart (b : UInt8) : Bool :=
  Bytes.isDigit b || b == 0x2E || b == 0x65 || b == 0x2B || b == 0x2D

/-- No part of a numeral marks another base. -/
theorem lower_ne_of_isPart {b : UInt8} (h : isPart b = true) : Bytes.lower b ≠ 0x78 := by
  simp only [isPart, Bytes.isDigit, Bool.or_eq_true, Bool.and_eq_true, decide_eq_true_eq,
    beq_iff_eq] at h
  unfold Bytes.lower
  rcases h with (((h | rfl) | rfl) | rfl) | rfl
  · have hle : ¬ 0x41 ≤ b := by
      simp only [UInt8.le_iff_toNat_le, UInt8.reduceToNat] at h ⊢
      omega
    rw [if_neg (by simp [hle])]
    rintro rfl
    exact absurd h (by decide)
  all_goals decide

/-- A numeral without a sign is a digit followed by parts of numerals. -/
theorem Proper.exists_text_eq_cons {k : Numeral} (h : k.Proper) (hneg : k.negative = false) :
    ∃ c r, k.text = c :: r ∧ Bytes.isDigit c = true ∧ ∀ b ∈ r, isPart b = true := by
  obtain ⟨c, w, hwhole⟩ := List.exists_cons_of_ne_nil h.whole_ne_nil
  have hdigit {b : UInt8} (hb : Bytes.isDigit b = true) : isPart b = true := by simp [isPart, hb]
  refine ⟨c, w ++ ((if k.fraction = [] then [] else 0x2E :: k.fraction)
    ++ (if k.exponent = [] then []
      else 0x65 :: (if k.expNegative then 0x2D else 0x2B) :: k.exponent)),
    by simp [text, hneg, hwhole], h.whole c (by simp [hwhole]), ?_⟩
  intro b hb
  -- digits, then the point and its digits, then the exponent
  rcases List.mem_append.mp hb with hb | hb
  · exact hdigit (h.whole b (by simp [hwhole, hb]))
  rcases List.mem_append.mp hb with hb | hb
  · split at hb
    · cases hb
    rcases List.mem_cons.mp hb with rfl | hb
    · rfl
    · exact hdigit (h.fraction b hb)
  · split at hb
    · cases hb
    rcases List.mem_cons.mp hb with rfl | hb
    · rfl
    rcases List.mem_cons.mp hb with rfl | hb
    · cases k.expNegative <;> rfl
    · exact hdigit (h.exponent b hb)

end Numeral

/-- A sign is split off, and nothing is where there is none. -/
theorem splitSign_append {c : UInt8} {r : Bytes} (hc : Bytes.isDigit c = true) (negative : Bool) :
    splitSign ((if negative then [0x2D] else []) ++ c :: r) = (negative, c :: r) := by
  obtain ⟨hminus, hplus⟩ := ne_sign_of_isDigit hc
  cases negative with
  | true => rfl
  | false =>
    unfold splitSign
    split
    · next heq => exact absurd (List.cons.inj heq).1 hminus
    · next heq => exact absurd (List.cons.inj heq).1 hplus
    · rfl

/-- A text that begins with a digit is no word for a special number, whatever its sign. -/
theorem specialFloat?_eq_none {c : UInt8} {r : Bytes} (hc : Bytes.isDigit c = true)
    (negative : Bool) : specialFloat? ((if negative then [0x2D] else []) ++ c :: r) = none := by
  have hlower : Bytes.lower c = c := by
    have hle : ¬ 0x41 ≤ c := by
      simp only [Bytes.isDigit, Bool.and_eq_true, decide_eq_true_eq, UInt8.le_iff_toNat_le] at hc ⊢
      have := hc.2
      simp only [UInt8.reduceToNat] at this ⊢
      omega
    simp [Bytes.lower, hle]
  -- neither a digit nor a sign begins a word
  have hhead {a b : UInt8} {t w : Bytes} (h : Bytes.lower a ≠ b) :
      (Bytes.toLower (a :: t) == b :: w) = false := by
    simp [Bytes.toLower, h]
  have hne {b : UInt8} (hb : Bytes.isDigit b = false) : Bytes.lower c ≠ b := by
    rw [hlower]
    rintro rfl
    rw [hc] at hb
    cases hb
  have hinf (w : Bytes) : (Bytes.toLower (c :: r) == 0x69 :: w) = false := hhead (hne rfl)
  have hnan (w : Bytes) :
      (Bytes.toLower ((if negative then [0x2D] else []) ++ c :: r) == 0x6E :: w) = false := by
    cases negative with
    | true => exact hhead (by decide)
    | false => exact hhead (hne rfl)
  unfold specialFloat?
  rw [splitSign_append hc]
  dsimp only
  rw [if_neg, if_neg]
  · exact Bool.not_eq_true _ ▸ hnan _
  · rw [Bool.or_eq_true, not_or]
    exact ⟨Bool.not_eq_true _ ▸ hinf _, Bool.not_eq_true _ ▸ hinf _⟩

/-- The numeral of a finite number is read as the number, with the sign in front of it. -/
theorem readFloat_text {k : Numeral} (hk : k.Proper) (hneg : k.negative = false) (negative : Bool)
    (hfinite : k.toBits .double < FloatFormat.double.infinity) :
    readFloat ((if negative then [0x2D] else []) ++ k.text)
      = .ok (.ofBits (FloatFormat.double.withSign negative (k.toBits .double))) := by
  obtain ⟨c, r, htext, hc, hr⟩ := hk.exists_text_eq_cons hneg
  have hpart {b : UInt8} (hb : b ∈ c :: r) : Numeral.isPart b = true := by
    rcases List.mem_cons.mp hb with rfl | hb
    · simp [Numeral.isPart, hc]
    · exact hr b hb
  -- parts of numerals are neither underscores nor the mark of another base
  have hplain : (c :: r).contains 0x5F = false := by
    rw [List.contains_eq_mem, decide_eq_false_iff_not]
    intro hmem
    exact absurd (hpart hmem) (by decide)
  have hfilter : (c :: r).filter (· != 0x5F) = c :: r := by
    rw [List.filter_eq_self]
    rintro b hb
    rw [bne_iff_ne]
    rintro rfl
    exact absurd (hpart hb) (by decide)
  have hsplit : splitSign (c :: r) = (false, c :: r) := splitSign_append hc false
  have hnumeral : Numeral.ofBytes? (c :: r) = some k := by
    rw [← htext]
    exact Numeral.ofBytes?_text hk
  unfold readFloat
  rw [htext, specialFloat?_eq_none hc, splitSign_append hc]
  have hdouble : ¬ k.toBits .double ≥ FloatFormat.double.infinity := Nat.not_le.mpr hfinite
  dsimp only
  split
  · next x t heq =>
    have hx : (Bytes.lower x == 0x78) = false := by
      rw [beq_eq_false_iff_ne]
      exact Numeral.lower_ne_of_isPart (hr x (by rw [(List.cons.inj heq).2]; exact List.mem_cons_self))
    simp only [hx, Bool.false_eq_true, if_false, hplain, Bool.false_and, hfilter, hsplit,
      bne_self_eq_false, hnumeral, hdouble]
  · simp only [Bool.false_eq_true, if_false, hplain, Bool.false_and, hfilter, hsplit,
      bne_self_eq_false, hnumeral, hdouble]

namespace Binary64

/-- A number is read back from its text, if it is the one that stands for all that are not a
number. -/
theorem readFloat_render {x : Binary64} (h : x.isNaN = true → x = nan) :
    readFloat x.render = .ok x := by
  cases hx : x.classify with
  -- one number stands for all that are none
  | nan =>
    obtain rfl := h (by rw [isNaN, hx]; rfl)
    decide
  | infinite negative =>
    rw [render, hx, eq_infinity hx]
    cases negative <;> decide
  | finite negative m q narrow =>
    obtain ⟨hbits, hfinite, hrep⟩ := FloatFormat.classify_eq_finite x.bits_lt hx
    obtain ⟨k, hk, hneg, htext, htoBits⟩ := FloatNotation.constant.exists_text_eq_render
      FloatFormat.double_moderate hrep hfinite false
    -- the sign, and the text of the magnitude
    have hsigned : x.render = (if negative then [0x2D] else []) ++ k.text := by
      rw [render, hx, htext]
      cases negative with
      | true =>
        simp only [FloatNotation.render]
        split <;> rfl
      | false => rfl
    -- which reads back as the bits without the sign
    have hmagnitude : k.toBits .double = FloatFormat.double.magnitudeBits m q := htoBits
    rw [hsigned, readFloat_text hk hneg negative (by rw [hmagnitude]; exact hfinite), hmagnitude,
      ← hbits, ofBits]
    simp

end Binary64

/-! ## §3 What readers give -/

theorem lt_of_readNat {bound n : Nat} {t : Bytes} (h : readNat bound t = .ok n) : n < bound := by
  unfold readNat at h
  dsimp only at h
  split at h
  · cases h
  split at h
  · cases h
  split at h
  · next hlt =>
    cases h
    exact hlt
  · cases h

theorem bounds_of_readInt64 {n : Int} {t : Bytes} (h : readInt64 t = .ok n) :
    -2 ^ 63 ≤ n ∧ n < 2 ^ 63 := by
  have hcases (bound : Nat) (r : Bytes) :
      (∃ e, readNat bound r = .error e) ∨ ∃ k < bound, readNat bound r = .ok k := by
    cases hr : readNat bound r with
    | error e => exact .inl ⟨e, rfl⟩
    | ok k => exact .inr ⟨k, lt_of_readNat hr, rfl⟩
  unfold readInt64 at h
  -- behind a minus one number more is allowed
  split at h
  · next r =>
    rcases hcases (2 ^ 63 + 1) r with ⟨e, he⟩ | ⟨k, hlt, hk⟩
    · rw [he] at h
      cases h
    · rw [hk] at h
      cases h
      dsimp only
      omega
  · next r =>
    rcases hcases (2 ^ 63) r with ⟨e, he⟩ | ⟨k, hlt, hk⟩
    · rw [he] at h
      cases h
    · rw [hk] at h
      cases h
      rw [Int.ofNat_eq_natCast]
      omega
  · rcases hcases (2 ^ 63) t with ⟨e, he⟩ | ⟨k, hlt, hk⟩
    · rw [he] at h
      cases h
    · rw [hk] at h
      cases h
      rw [Int.ofNat_eq_natCast]
      omega

/-- A number with a sign and a finite magnitude is a number. -/
theorem isNaN_ofBits_withSign {bits : Nat} (h : bits < FloatFormat.double.infinity)
    (negative : Bool) :
    (Binary64.ofBits (FloatFormat.double.withSign negative bits)).isNaN = false := by
  have hinfinity : FloatFormat.double.infinity = 2047 * 2 ^ 52 := by decide
  have hsign : FloatFormat.double.withSign negative bits
      = (if negative then 2 ^ 63 else 0) + bits := by
    cases negative
    · exact (Nat.zero_add bits).symm
    · rfl
  rw [hinfinity] at h
  have hlt : (if negative then 2 ^ 63 else 0) + bits < 2 ^ 64 := by split <;> omega
  -- the sign does not touch the exponent
  have hexp : ((if negative then 2 ^ 63 else 0) + bits) / 2 ^ FloatFormat.double.fracBits
      % 2 ^ FloatFormat.double.expBits ≠ FloatFormat.double.specialExp := by
    change ((if negative then 2 ^ 63 else 0) + bits) / 2 ^ 52 % 2 ^ 11 ≠ 2047
    split <;> omega
  -- all bits fit into the word
  have hbits : (Binary64.ofBits (FloatFormat.double.withSign negative bits)).bits.toNat
      = (if negative then 2 ^ 63 else 0) + bits := by
    rw [hsign, Binary64.ofBits, Nat.toUInt64, UInt64.toNat_ofNat']
    exact Nat.mod_eq_of_lt hlt
  rw [Binary64.isNaN, Binary64.classify, hbits, FloatFormat.classify]
  generalize (if negative then 2 ^ 63 else 0) + bits = n at hexp
  rw [if_neg (by simpa using hexp)]
  split <;> rfl

theorem isNaN_of_readFloat {x : Binary64} {t : Bytes} (h : readFloat t = .ok x)
    (hnan : x.isNaN = true) : x = .nan := by
  have hfinite {bits : Nat} {negative : Bool} (hbits : ¬ bits ≥ FloatFormat.double.infinity)
      (hx : Except.ok (Binary64.ofBits (FloatFormat.double.withSign negative bits))
        = (Except.ok x : Except ReadFault Binary64)) : x = .nan := by
    cases hx
    rw [isNaN_ofBits_withSign (Nat.not_le.mp hbits)] at hnan
    cases hnan
  have hhex {negative : Bool} {r : Bytes} (hr : readHexFloat negative r = .ok x) : x = .nan := by
    unfold readHexFloat at hr
    dsimp only at hr
    repeat' split at hr
    all_goals first
      | exact hfinite ‹_› hr
      | cases hr
  unfold readFloat at h
  split at h
  · next y hy =>
    cases h
    unfold specialFloat? at hy
    dsimp only at hy
    split at hy
    · cases hy
      generalize (splitSign t).1 = negative at hnan
      cases negative <;> exact absurd hnan (by decide)
    split at hy
    · cases hy
      rfl
    · cases hy
  dsimp only at h
  -- in either base, a magnitude that is not too large is given a sign
  repeat' split at h
  all_goals first
    | exact hhex h
    | exact hfinite ‹_› h
    | cases h

/-- A numeral is read as a number. -/
theorem Binary64.isNaN_of_ofNumeral? {x : Binary64} {t : Bytes} (h : ofNumeral? t = some x)
    (hnan : x.isNaN = true) : x = .nan := by
  unfold ofNumeral? at h
  obtain ⟨n, -, hn⟩ := Option.bind_eq_some_iff.mp h
  dsimp only at hn
  split at hn
  · next hfinite =>
    cases hn
    rw [isNaN, hfinite] at hnan
    cases hnan
  · cases hn

end Idl
