import Idl.Bytes
import Mathlib.Data.List.Basic
import Mathlib.Tactic.Ring

/-!
# Decimal numerals

The numeral of a number consists of digits and reads back to the number, so that different numbers
have different numerals.
-/

namespace Idl.Bytes

/-! ## §1 Runs of digits -/

/-- What is read so far moves to the left, one place for each digit. -/
theorem foldl_digitValue (n : Nat) (b : Bytes) :
    b.foldl (fun n d => n * 10 + digitValue d) n = n * 10 ^ b.length + toNat 10 b := by
  induction b generalizing n with
  | nil => simp [toNat]
  | cons c b ih =>
    rw [toNat, List.foldl_cons, List.foldl_cons, ih, ih, List.length_cons, Nat.pow_succ]
    ring

theorem toNat_append (a b : Bytes) :
    toNat 10 (a ++ b) = toNat 10 a * 10 ^ b.length + toNat 10 b := by
  rw [toNat, List.foldl_append, foldl_digitValue]
  rfl

theorem toNat_replicate_zero (n : Nat) : toNat 10 (List.replicate n 0x30) = 0 := by
  induction n with
  | zero => rfl
  | succ n ih =>
    rw [List.replicate_succ']
    rw [toNat_append, ih]
    decide

theorem toNat_replicate_zero_append (n : Nat) (b : Bytes) :
    toNat 10 (List.replicate n 0x30 ++ b) = toNat 10 b := by
  rw [toNat_append, toNat_replicate_zero, Nat.zero_mul, Nat.zero_add]

/-- Leading zeros do not count. -/
theorem toNat_dropWhile_zero (b : Bytes) : toNat 10 (b.dropWhile (· == 0x30)) = toNat 10 b := by
  induction b with
  | nil => rfl
  | cons c b ih =>
    rw [List.dropWhile_cons]
    split
    · next h =>
      obtain rfl : c = 0x30 := by simpa using h
      rw [ih]
      exact (toNat_replicate_zero_append 1 b).symm
    · rfl

theorem digitValue_lt {c : UInt8} (h : isDigit c = true) : digitValue c < 10 := by
  rw [digitValue, if_pos h]
  simp only [isDigit, Bool.and_eq_true, decide_eq_true_eq, UInt8.le_iff_toNat_le] at h
  have := h.2
  simp only [UInt8.reduceToNat] at this
  omega

theorem toNat_lt_pow_length {b : Bytes} (hb : ∀ c ∈ b, isDigit c = true) :
    toNat 10 b < 10 ^ b.length := by
  induction b with
  | nil => decide
  | cons c b ih =>
    have hfirst := digitValue_lt (hb c List.mem_cons_self)
    have hrest := ih fun c hc => hb c (List.mem_cons_of_mem _ hc)
    have hcons : toNat 10 (c :: b) = digitValue c * 10 ^ b.length + toNat 10 b := by
      rw [← List.singleton_append, toNat_append]
      simp [toNat]
    have hmul := Nat.mul_le_mul_right (10 ^ b.length) (show digitValue c ≤ 9 by omega)
    rw [hcons, List.length_cons, Nat.pow_succ]
    omega

/-- The digits at the front of a text, up to something that is no digit. -/
theorem takeWhile_isDigit {a r : Bytes} (ha : ∀ b ∈ a, isDigit b = true)
    (hr : ∀ b ∈ r.head?, isDigit b = false) :
    (a ++ r).takeWhile isDigit = a ∧ (a ++ r).dropWhile isDigit = r := by
  rw [List.takeWhile_append_of_pos ha, List.dropWhile_append_of_pos ha]
  cases r with
  | nil => simp
  | cons c r =>
    have hc : isDigit c = false := hr c rfl
    simp [hc]

/-! ## §2 Numerals of naturals -/

theorem ofNat_ne_nil (n : Nat) : ofNat n ≠ [] := by simp [ofNat]

theorem length_ofNat_le_iff {n k : Nat} (hk : 0 < k) : (ofNat n).length ≤ k ↔ n < 10 ^ k := by
  rw [ofNat, List.length_map]
  exact Nat.length_toDigits_le_iff (by decide) hk

theorem length_ofNat_pos (n : Nat) : 0 < (ofNat n).length :=
  List.length_pos_iff.mpr (ofNat_ne_nil n)

theorem lt_pow_length_ofNat (n : Nat) : n < 10 ^ (ofNat n).length :=
  (length_ofNat_le_iff (length_ofNat_pos n)).mp le_rfl

theorem pow_length_ofNat_le {n : Nat} (hn : 0 < n) : 10 ^ ((ofNat n).length - 1) ≤ n := by
  by_contra hlt
  by_cases hone : (ofNat n).length = 1
  · rw [hone] at hlt
    exact hlt hn
  · have hpos := length_ofNat_pos n
    have := (length_ofNat_le_iff (by omega)).mpr (not_le.mp hlt)
    omega

/-- The octet of a digit. -/
theorem octet_of_isDigit {c : Char} (h : c.isDigit = true) :
    isDigit c.toNat.toUInt8 = true ∧ digitValue c.toNat.toUInt8 = c.toNat - 0x30 := by
  obtain ⟨hlo, hhi⟩ : 0x30 ≤ c.toNat ∧ c.toNat ≤ 0x39 := by
    simpa [Char.isDigit, UInt32.le_iff_toNat_le] using h
  have hoctet : c.toNat.toUInt8.toNat = c.toNat := by
    simp only [Nat.toUInt8, UInt8.toNat_ofNat']
    omega
  have hdigit : isDigit c.toNat.toUInt8 = true := by
    simp only [isDigit, Bool.and_eq_true, decide_eq_true_eq, UInt8.le_iff_toNat_le, hoctet]
    exact ⟨hlo, hhi⟩
  rw [digitValue, if_pos hdigit, hoctet]
  exact ⟨hdigit, rfl⟩

theorem isDigit_of_mem_ofNat {n : Nat} {b : UInt8} (h : b ∈ ofNat n) : isDigit b = true := by
  obtain ⟨c, hc, rfl⟩ := List.mem_map.mp h
  exact (octet_of_isDigit (Nat.isDigit_of_mem_toDigits (by decide) (by decide) hc)).1

/-- A numeral reads back. -/
theorem toNat_ofNat (n : Nat) : toNat 10 (ofNat n) = n := by
  have hfold {l : List Char} (hl : ∀ c ∈ l, c.isDigit = true) (i : Nat) :
      (l.map fun c => c.toNat.toUInt8).foldl (fun n d => n * 10 + digitValue d) i
        = Nat.ofDigitChars 10 l i := by
    induction l generalizing i with
    | nil => simp
    | cons c l ih =>
      rw [List.map_cons, List.foldl_cons, ih (fun c hc => hl c (List.mem_cons_of_mem _ hc)),
        Nat.ofDigitChars_cons, (octet_of_isDigit (hl c List.mem_cons_self)).2, Nat.mul_comm i]
      rfl
  rw [toNat, ofNat, hfold fun c hc => Nat.isDigit_of_mem_toDigits (by decide) (by decide) hc]
  exact Nat.ofDigitChars_ten_toDigits

theorem ofNat_injective {m n : Nat} (h : ofNat m = ofNat n) : m = n := by
  rw [← toNat_ofNat m, h, toNat_ofNat]

/-- A numeral has no leading zero. -/
theorem eq_nil_of_ofNat_eq_zero_cons {n : Nat} {t : Bytes} (h : ofNat n = 0x30 :: t) : t = [] := by
  by_contra ht
  have hvalue : toNat 10 t = n := by
    have hread := toNat_ofNat n
    rw [h] at hread
    rw [← hread]
    exact (toNat_replicate_zero_append 1 t).symm
  -- the digits that follow would be too few for the number
  have hlt : n < 10 ^ t.length := by
    rw [← hvalue]
    exact toNat_lt_pow_length fun b hb => isDigit_of_mem_ofNat (h ▸ List.mem_cons_of_mem _ hb)
  have hle := (length_ofNat_le_iff (List.length_pos_iff.mpr ht)).mpr hlt
  rw [h, List.length_cons] at hle
  omega

/-- A minus sign is no digit. -/
theorem ofInt_injective {m n : Int} (h : ofInt m = ofInt n) : m = n := by
  have hsign {i j : Nat} (h : ofNat i = 0x2D :: ofNat j) : False := by
    have hdigit := isDigit_of_mem_ofNat (n := i) (b := 0x2D) (h ▸ List.mem_cons_self)
    exact absurd hdigit (by decide)
  match m, n with
  | .ofNat m, .ofNat n => rw [ofNat_injective h]
  | .ofNat m, .negSucc n => exact (hsign h).elim
  | .negSucc m, .ofNat n => exact (hsign h.symm).elim
  | .negSucc m, .negSucc n =>
    have := ofNat_injective (List.cons.inj h).2
    rw [Nat.succ.inj this]

end Idl.Bytes
