import Idl.Text.Base64
import Mathlib.Data.List.Basic

/-!
# Base64 can be read back

Reading the text of an octet string gives the octet string again, with padding and without it, so
that different octet strings have different texts.
-/

namespace Idl.Base64

theorem value?_character {n : Nat} (h : n < 64) : value? (character n) = some n := by
  have hall : ∀ m : Fin 64, value? (character m) = some m := by decide
  exact hall ⟨n, h⟩

section

variable {padded : Bool} {n : Nat} {offset : Nat} {group : List Nat} {acc r : Bytes}

/-- A character of a group that is not its last one. -/
theorem decodeOnto_inner (h : n < 64) (hgroup : group.length < 3) :
    decodeOnto padded offset group acc (character n :: r)
      = decodeOnto padded (offset + 1) (n :: group) acc r := by
  have hlength : ((n :: group).length == 4) = false := by
    rw [beq_eq_false_iff_ne, List.length_cons]
    omega
  rw [decodeOnto, value?_character h]
  simp only [hlength, Bool.false_eq_true, if_false]

/-- The last character of a group. -/
theorem decodeOnto_last (h : n < 64) (hgroup : group.length = 3) :
    decodeOnto padded offset group acc (character n :: r)
      = decodeOnto padded (offset + 1) [] (emit (n :: group) acc) r := by
  have hlength : ((n :: group).length == 4) = true := by
    rw [beq_iff_eq, List.length_cons, hgroup]
  rw [decodeOnto, value?_character h]
  simp only [hlength, if_true]

/-- A group of three at the end. -/
theorem decodeOnto_three (x y z : Nat) :
    decodeOnto padded offset [z, y, x] acc (if padded then [0x3D] else [])
      = .ok (emit [z, y, x] acc).reverse := by
  cases padded <;> rfl

/-- A group of two at the end. -/
theorem decodeOnto_two (x y : Nat) :
    decodeOnto padded offset [y, x] acc (if padded then [0x3D, 0x3D] else [])
      = .ok (emit [y, x] acc).reverse := by
  cases padded <;> rfl

end

/-- What is written so far stands in front. -/
theorem encodeOnto_eq (padded : Bool) : (b acc : Bytes) →
    encodeOnto padded acc b = acc.reverse ++ encodeOnto padded [] b
  | a :: b :: c :: r, acc => by
    rw [encodeOnto, encodeOnto_eq padded r, encodeOnto, encodeOnto_eq padded r [_, _, _, _]]
    simp
  | [a, b], acc => by cases padded <;> simp [encodeOnto]
  | [a], acc => by cases padded <;> simp [encodeOnto]
  | [], acc => by simp [encodeOnto]

theorem toUInt8_of_eq {n : Nat} {a : UInt8} (h : n = a.toNat) : n.toUInt8 = a := by
  rw [h, Nat.toUInt8_eq, UInt8.ofNat_toNat]

section

variable {a b c : UInt8} {n : Nat} (acc : Bytes)

theorem emit_three (hn : a.toNat * 65536 + b.toNat * 256 + c.toNat = n) :
    emit [n % 64, n / 64 % 64, n / 4096 % 64, n / 262144] acc = c :: b :: a :: acc := by
  have ha := a.toNat_lt
  have hb := b.toNat_lt
  have hc := c.toNat_lt
  have hsum : ((n / 262144 * 64 + n / 4096 % 64) * 64 + n / 64 % 64) * 64 + n % 64 = n := by omega
  simp only [emit, hsum]
  rw [toUInt8_of_eq (n := n % 256) (a := c) (by omega),
    toUInt8_of_eq (n := n / 256 % 256) (a := b) (by omega),
    toUInt8_of_eq (n := n / 65536) (a := a) (by omega)]

theorem emit_two (hn : a.toNat * 1024 + b.toNat * 4 = n) :
    emit [n % 64, n / 64 % 64, n / 4096] acc = b :: a :: acc := by
  have ha := a.toNat_lt
  have hb := b.toNat_lt
  have hsum : ((n / 4096 * 64 + n / 64 % 64) * 64 + n % 64) / 4 = a.toNat * 256 + b.toNat := by
    omega
  simp only [emit, hsum]
  rw [toUInt8_of_eq (n := (a.toNat * 256 + b.toNat) % 256) (a := b) (by omega),
    toUInt8_of_eq (n := (a.toNat * 256 + b.toNat) / 256) (a := a) (by omega)]

theorem emit_one (hn : a.toNat * 16 = n) : emit [n % 64, n / 64] acc = a :: acc := by
  have ha := a.toNat_lt
  rw [emit, toUInt8_of_eq (n := (n / 64 * 64 + n % 64) / 16) (a := a) (by omega)]

end

theorem decodeOnto_encodeOnto (padded : Bool) : (b : Bytes) → (offset : Nat) → (acc : Bytes) →
    decodeOnto padded offset [] acc (encodeOnto padded [] b) = .ok (acc.reverse ++ b)
  | a :: b :: c :: r, offset, acc => by
    have ha := a.toNat_lt
    have hb := b.toNat_lt
    have hc := c.toNat_lt
    rw [encodeOnto, encodeOnto_eq]
    -- three octets are four digits of six bits each
    generalize hn : a.toNat * 65536 + b.toNat * 256 + c.toNat = n
    simp only [List.reverse_cons, List.reverse_nil, List.nil_append, List.cons_append]
    rw [decodeOnto_inner (by omega) (by decide), decodeOnto_inner (by omega) (by simp),
      decodeOnto_inner (by omega) (by simp), decodeOnto_last (by omega) rfl,
      decodeOnto_encodeOnto padded r, emit_three acc hn]
    simp
  | [a, b], offset, acc => by
    have ha := a.toNat_lt
    have hb := b.toNat_lt
    have hpad : (if padded then [0x3D] else [] : Bytes).reverse
        = if padded then [0x3D] else [] := by
      cases padded <;> rfl
    rw [encodeOnto]
    -- two octets are three digits, and the bits left over are zero
    generalize hn : a.toNat * 1024 + b.toNat * 4 = n
    simp only [List.reverse_append, List.reverse_cons, List.reverse_nil, List.nil_append,
      List.cons_append, hpad]
    rw [decodeOnto_inner (by omega) (by decide), decodeOnto_inner (by omega) (by simp),
      decodeOnto_inner (by omega) (by simp), decodeOnto_three, emit_two acc hn]
    simp
  | [a], offset, acc => by
    have ha := a.toNat_lt
    have hpad : (if padded then [0x3D, 0x3D] else [] : Bytes).reverse
        = if padded then [0x3D, 0x3D] else [] := by
      cases padded <;> rfl
    rw [encodeOnto]
    -- one octet is two digits
    generalize hn : a.toNat * 16 = n
    simp only [List.reverse_append, List.reverse_cons, List.reverse_nil, List.nil_append,
      List.cons_append, hpad]
    rw [decodeOnto_inner (by omega) (by decide), decodeOnto_inner (by omega) (by simp),
      decodeOnto_two, emit_one acc hn]
    simp
  | [], offset, acc => by simp [encodeOnto, decodeOnto]

/-- Reading a text without padding gives the octets it was written from. -/
theorem decodeRaw_encodeRaw (b : Bytes) : decodeRaw (encodeRaw b) = .ok b :=
  decodeOnto_encodeOnto false b 0 []

/-- Reading a text with padding gives the octets it was written from. -/
theorem decode_encode (b : Bytes) : decode (encode b) = .ok b :=
  decodeOnto_encodeOnto true b 0 []

theorem encodeRaw_injective {b c : Bytes} (h : encodeRaw b = encodeRaw c) : b = c := by
  have hread := decodeRaw_encodeRaw b
  rw [h, decodeRaw_encodeRaw] at hread
  exact (Except.ok.inj hread).symm

end Idl.Base64
