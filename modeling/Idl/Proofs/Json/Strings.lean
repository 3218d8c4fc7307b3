import Idl.Json.Read
import Idl.Proofs.Text.Utf8
import Mathlib.Tactic.Ring
import Mathlib.Tactic.Tauto

/-!
# JSON strings read back

The text of a string that is well-formed UTF-8 is read back to the string, and whatever string is
read is well formed.

* §1 hexadecimal digits, §2 characters in a string,
* §3 writing and reading a string, §4 strings that are read.
-/

namespace Idl

/-! ## §1 Hexadecimal digits -/

namespace Bytes

theorem length_hexDigits (w n : Nat) : (hexDigits w n).length = w := by
  induction w generalizing n with
  | zero => rfl
  | succ w ih => simp [hexDigits, ih]

theorem digit_spec : ∀ n < 16, isHexDigit (digit n) = true ∧ digitValue (digit n) = n := by
  decide

theorem isHexDigit_of_mem_hexDigits {w n : Nat} {b : UInt8} (h : b ∈ hexDigits w n) :
    isHexDigit b = true := by
  induction w generalizing n with
  | zero => cases h
  | succ w ih =>
    rw [hexDigits, List.mem_append, List.mem_singleton] at h
    rcases h with h | rfl
    · exact ih h
    · exact (digit_spec _ (Nat.mod_lt _ (by decide))).1

theorem toNat_hexDigits (w n : Nat) : toNat 16 (hexDigits w n) = n % 16 ^ w := by
  induction w generalizing n with
  | zero => simp [hexDigits, toNat, Nat.mod_one]
  | succ w ih =>
    have hlast := (digit_spec (n % 16) (Nat.mod_lt _ (by decide))).2
    simp only [toNat] at ih
    rw [hexDigits, toNat, List.foldl_append, ih, List.foldl_cons, List.foldl_nil, hlast,
      Nat.pow_succ', Nat.mod_mul]
    ring

end Bytes

namespace Json

/-! ## §2 Characters in a string -/

/-- The letters after a backslash that stand for one octet. -/
def escapes : List UInt8 := [0x22, 0x5C, 0x62, 0x66, 0x6E, 0x72, 0x74]

/-- A character is written as an escape of one letter, as an escape by its number, or as it is. -/
theorem writeGlyph_cases (markup : Bool) (c : Char) :
    (∃ e ∈ escapes, writeGlyph markup (.char c) = [0x5C, e] ∧ Utf8.ofChar c = [escapeOctet e])
      ∨ writeGlyph markup (.char c) = 0x5C :: 0x75 :: Bytes.hexDigits 4 c.toNat ∧ c.toNat < 0xD800
      ∨ writeGlyph markup (.char c) = Utf8.ofChar c ∧ 0x20 ≤ c.toNat ∧ c.toNat ≠ 0x22
        ∧ c.toNat ≠ 0x5C := by
  have hof {n : Nat} (h : c.toNat = n) : c = Char.ofNat n := by rw [← h, Char.ofNat_toNat]
  unfold writeGlyph
  dsimp only [Glyph.toChar]
  simp only [beq_iff_eq, Bool.or_eq_true, Bool.and_eq_true, decide_eq_true_eq]
  -- first the characters with an escape of their own, then those written by their number
  by_cases hquote : c.toNat = 0x22
  · exact .inl ⟨0x22, by decide, if_pos hquote, by rw [hof hquote]; decide⟩
  rw [if_neg hquote]
  by_cases hslash : c.toNat = 0x5C
  · exact .inl ⟨0x5C, by decide, if_pos hslash, by rw [hof hslash]; decide⟩
  rw [if_neg hslash]
  by_cases hback : c.toNat = 0x08
  · exact .inl ⟨0x62, by decide, if_pos hback, by rw [hof hback]; decide⟩
  rw [if_neg hback]
  by_cases hfeed : c.toNat = 0x0C
  · exact .inl ⟨0x66, by decide, if_pos hfeed, by rw [hof hfeed]; decide⟩
  rw [if_neg hfeed]
  by_cases hline : c.toNat = 0x0A
  · exact .inl ⟨0x6E, by decide, if_pos hline, by rw [hof hline]; decide⟩
  rw [if_neg hline]
  by_cases hreturn : c.toNat = 0x0D
  · exact .inl ⟨0x72, by decide, if_pos hreturn, by rw [hof hreturn]; decide⟩
  rw [if_neg hreturn]
  by_cases htab : c.toNat = 0x09
  · exact .inl ⟨0x74, by decide, if_pos htab, by rw [hof htab]; decide⟩
  rw [if_neg htab]
  split
  · exact .inr (.inl ⟨rfl, by omega⟩)
  · exact .inr (.inr ⟨rfl, by omega⟩)

/-! ## §3 Writing and reading a string -/

theorem stringEnd?_hexDigits {n : Nat} {b : Bytes} (hb : ∀ c ∈ b, Bytes.isHexDigit c = true)
    (r : Bytes) : stringEnd? n b.length (b ++ r) = stringEnd? (n + b.length) 0 r := by
  induction b generalizing n with
  | nil => rfl
  | cons c b ih =>
    rw [List.length_cons, List.cons_append, stringEnd?, if_pos (hb c List.mem_cons_self),
      ih fun c hc => hb c (List.mem_cons_of_mem _ hc), Nat.add_right_comm, Nat.add_assoc]

theorem stringEnd?_quote (n : Nat) (r : Bytes) : stringEnd? n 0 (0x22 :: r) = some n := by
  unfold stringEnd?
  rfl

theorem stringEnd?_control {c : UInt8} (hlow : c < 0x20) (hquote : c ≠ 0x22) (n : Nat) (r : Bytes) :
    stringEnd? n 0 (c :: r) = none := by
  unfold stringEnd?
  simp [hlow, hquote]

/-- One step through a string: an octet that stands for itself. -/
theorem stringEnd?_cons {c : UInt8} (hlow : ¬ c < 0x20) (hquote : c ≠ 0x22) (hback : c ≠ 0x5C)
    (n : Nat) (r : Bytes) : stringEnd? n 0 (c :: r) = stringEnd? (n + 1) 0 r := by
  conv_lhs => unfold stringEnd?
  simp [hlow, hquote, hback]

/-- One step through a string: an escape. -/
theorem stringEnd?_escape (e : UInt8) (n : Nat) (r : Bytes) :
    stringEnd? n 0 (0x5C :: e :: r) =
      if e = 0x75 then stringEnd? (n + 2) 4 r
      else if e ∈ 0x2F :: escapes then stringEnd? (n + 2) 0 r else none := by
  have hperm : [0x22, 0x5C, 0x2F, 0x62, 0x66, 0x6E, 0x72, 0x74].Perm (0x2F :: escapes) := by decide
  have hmem : [0x22, 0x5C, 0x2F, 0x62, 0x66, 0x6E, 0x72, 0x74].contains e = true
      ↔ e ∈ 0x2F :: escapes := List.contains_iff_mem.trans hperm.mem_iff
  conv_lhs => unfold stringEnd?
  simp only [beq_iff_eq, hmem]
  rfl

/-- The octets of a character that stands for itself are passed over. -/
theorem stringEnd?_plain {n : Nat} {b : Bytes}
    (hb : ∀ c ∈ b, ¬ c < 0x20 ∧ c ≠ 0x22 ∧ c ≠ 0x5C) (r : Bytes) :
    stringEnd? n 0 (b ++ r) = stringEnd? (n + b.length) 0 r := by
  induction b generalizing n with
  | nil => rfl
  | cons c b ih =>
    obtain ⟨hlow, hquote, hback⟩ := hb c List.mem_cons_self
    rw [List.cons_append, stringEnd?_cons hlow hquote hback,
      ih fun c hc => hb c (List.mem_cons_of_mem _ hc), List.length_cons, Nat.add_right_comm,
      Nat.add_assoc]

/-- The octets of a character that needs no escape. -/
theorem plain_of_mem_ofChar {c : Char} (hlow : 0x20 ≤ c.toNat) (hquote : c.toNat ≠ 0x22)
    (hback : c.toNat ≠ 0x5C) : ∀ b ∈ Utf8.ofChar c, ¬ b < 0x20 ∧ b ≠ 0x22 ∧ b ≠ 0x5C := by
  intro b hb
  simp only [UInt8.lt_iff_toNat_lt, Ne, ← UInt8.toNat_inj, UInt8.reduceToNat]
  rcases Utf8.ofChar_cases c with ⟨hascii, hoctets⟩ | ⟨-, hoctets⟩
  · rw [hoctets, List.mem_singleton] at hb
    rw [hb, Utf8.toNat_octet (by omega)]
    omega
  · have := hoctets b hb
    omega

/-- A character in a string is passed over. -/
theorem stringEnd?_writeGlyph (markup : Bool) (c : Char) (n : Nat) (r : Bytes) :
    stringEnd? n 0 (writeGlyph markup (.char c) ++ r)
      = stringEnd? (n + (writeGlyph markup (.char c)).length) 0 r := by
  -- escaped by one letter, escaped by its number, or written as it is
  rcases writeGlyph_cases markup c with ⟨e, he, hwrite, -⟩ | ⟨hwrite, -⟩ | ⟨hwrite, hlow, hne⟩
  · have hu : e ≠ 0x75 := by rintro rfl; exact absurd he (by decide)
    rw [hwrite, List.cons_append, List.cons_append, stringEnd?_escape, if_neg hu,
      if_pos (List.mem_cons_of_mem _ he)]
    rfl
  · rw [hwrite, List.cons_append, List.cons_append, stringEnd?_escape, if_pos rfl]
    have hhex := stringEnd?_hexDigits (n := n + 2)
      (fun b hb => Bytes.isHexDigit_of_mem_hexDigits (n := c.toNat) (w := 4) hb) r
    rw [Bytes.length_hexDigits] at hhex
    rw [hhex, List.length_cons, List.length_cons, Bytes.length_hexDigits]
  · rw [hwrite]
    exact stringEnd?_plain (plain_of_mem_ofChar hlow hne.1 hne.2) r

/-- A skipped octet is no part of what follows. -/
theorem unescape_skip (skip : Nat) (acc r : Bytes) :
    unescape skip acc r = unescape 0 acc (r.drop skip) := by
  induction r generalizing skip with
  | nil => cases skip <;> rfl
  | cons c r ih =>
    cases skip with
    | zero => rfl
    | succ n => rw [unescape, ih, List.drop_succ_cons]

/-- One step through a string: a character, or a stray octet. -/
theorem unescape_cons {c : UInt8} (h : c ≠ 0x5C) (acc r : Bytes) :
    unescape 0 acc (c :: r) = unescape 0 ((Utf8.ofChar (Utf8.first c r).1.toChar).reverse ++ acc)
      (r.drop (Utf8.first c r).2) := by
  rw [unescape, if_neg (by simpa using h)]
  exact unescape_skip ..

/-- One step through a string: an escape of one letter. -/
theorem unescape_escape {e : UInt8} (h : e ≠ 0x75) (acc r : Bytes) :
    unescape 0 acc (0x5C :: e :: r) = unescape 0 (escapeOctet e :: acc) r := by
  rw [unescape]
  simp [unitAt?, h, unescape_skip 1]

/-- One or two escapes make a character. -/
theorem unitChar_length (u : Nat) (r : Bytes) : (unitChar u r).2 = 6 ∨ (unitChar u r).2 = 12 := by
  unfold unitChar
  split
  · split
    · split
      · exact .inr rfl
      · exact .inl rfl
    · exact .inl rfl
  · exact .inl rfl

/-- One step through a string: an escape by number. -/
theorem unescape_unit {digits : Bytes} (hlength : digits.length = 4)
    (hdigits : ∀ b ∈ digits, Bytes.isHexDigit b = true) (acc r : Bytes) :
    unescape 0 acc (0x5C :: 0x75 :: (digits ++ r))
      = unescape 0 ((Utf8.ofChar (unitChar (Bytes.toNat 16 digits) r).1).reverse ++ acc)
          (r.drop ((unitChar (Bytes.toNat 16 digits) r).2 - 6)) := by
  -- the four digits are read as one number
  have hunit : unitAt? (0x5C :: 0x75 :: (digits ++ r)) = some (Bytes.toNat 16 digits) := by
    have htake : (digits ++ r).take 4 = digits := by rw [← hlength, List.take_left]
    have hall : digits.all Bytes.isHexDigit = true := List.all_eq_true.mpr hdigits
    simp only [unitAt?, htake, hlength, hall]
    rfl
  have hdrop (n : Nat) : (0x75 :: (digits ++ r)).drop (n + 5) = r.drop n := by
    rw [List.drop_succ_cons, Nat.add_comm, ← List.drop_drop, ← hlength, List.drop_left]
  have hrest : (0x75 :: (digits ++ r)).drop 5 = r := hdrop 0
  rw [unescape, if_pos (by decide), hunit]
  simp only [hrest]
  generalize hx : unitChar (Bytes.toNat 16 digits) r = x
  rw [unescape_skip]
  -- the second half of a pair is taken with the first one, or nothing more is
  rcases hx ▸ unitChar_length (Bytes.toNat 16 digits) r with h | h
  · rw [h, ← hdrop]
  · rw [h, ← hdrop]

/-- A character in a string stands for its octets. -/
theorem unescape_writeGlyph (markup : Bool) (c : Char) (acc r : Bytes) :
    unescape 0 acc (writeGlyph markup (.char c) ++ r)
      = unescape 0 ((Utf8.ofChar c).reverse ++ acc) r := by
  rcases writeGlyph_cases markup c with ⟨e, he, hwrite, hoctet⟩ | ⟨hwrite, hlt⟩ | ⟨hwrite, hlow, hne⟩
  · have hu : e ≠ 0x75 := by rintro rfl; exact absurd he (by decide)
    rw [hwrite, hoctet]
    exact unescape_escape hu acc r
  · -- the digits are those of the number, which is no half of a pair
    have hnumber : Bytes.toNat 16 (Bytes.hexDigits 4 c.toNat) = c.toNat := by
      rw [Bytes.toNat_hexDigits]
      omega
    have hchar : unitChar c.toNat r = (c, 6) := by
      rw [unitChar, if_neg (by simp; omega), Char.ofNat_toNat]
    rw [hwrite, List.cons_append, List.cons_append, unescape_unit (Bytes.length_hexDigits ..)
      (fun b hb => Bytes.isHexDigit_of_mem_hexDigits hb), hnumber, hchar]
    rfl
  · -- the character itself, whose bytes are not a backslash
    obtain ⟨a, t, hoctets, hfirst⟩ := Utf8.first_ofChar c r
    have hback : a ≠ 0x5C := (plain_of_mem_ofChar hlow hne.1 hne.2 a (by simp [hoctets])).2.2
    rw [hwrite, hoctets, List.cons_append, unescape_cons hback, hfirst]
    dsimp only [Glyph.toChar]
    rw [hoctets, List.drop_left]

/-- The text of a string between its quotes. -/
def body (markup : Bool) (l : List Char) : Bytes := l.flatMap fun c => writeGlyph markup (.char c)

theorem stringEnd?_body (markup : Bool) (l : List Char) (n : Nat) (r : Bytes) :
    stringEnd? n 0 (body markup l ++ 0x22 :: r) = some (n + (body markup l).length) := by
  induction l generalizing n with
  | nil => exact stringEnd?_quote n r
  | cons c l ih =>
    rw [body, List.flatMap_cons, List.append_assoc, stringEnd?_writeGlyph, ← body, ih,
      List.length_append, Nat.add_assoc]

theorem unescape_body (markup : Bool) (l : List Char) (acc : Bytes) :
    unescape 0 acc (body markup l) = acc.reverse ++ Utf8.ofChars l := by
  induction l generalizing acc with
  | nil => simp [body, unescape, Utf8.ofChars]
  | cons c l ih =>
    rw [body, List.flatMap_cons, unescape_writeGlyph, ← body, ih]
    simp [Utf8.ofChars]

/-- What is written of a string are its characters. -/
theorem writeString_eq_body (markup : Bool) (s : Bytes) :
    writeString markup s = 0x22 :: (body markup (Utf8.chars s) ++ [0x22]) := by
  rw [body, Utf8.chars, List.flatMap_map]
  rfl

/-- A stray octet is written as the character that stands for it. -/
theorem writeString_sanitize (markup : Bool) (s : Bytes) :
    writeString markup (Utf8.sanitize s) = writeString markup s := by
  rw [writeString_eq_body, writeString_eq_body, Utf8.sanitize, Utf8.chars_ofChars]

/-- A string that is well formed is written between quotes, and what is read between the quotes is
the string. -/
theorem writeString_eq (markup : Bool) {s : Bytes} (h : Utf8.isValid s = true) :
    ∃ t : Bytes, writeString markup s = 0x22 :: (t ++ [0x22]) ∧ unescape 0 [] t = s
      ∧ ∀ r, stringEnd? 0 0 (t ++ 0x22 :: r) = some t.length := by
  refine ⟨body markup (Utf8.chars s), writeString_eq_body markup s, ?_, fun r => ?_⟩
  · rw [unescape_body, Utf8.ofChars_chars h]
    rfl
  · rw [stringEnd?_body, Nat.zero_add]

/-! ## §4 Strings that are read -/

/-- The bodies of strings: octets that stand for themselves, and escapes. -/
inductive Body : Bytes → Prop
  | nil : Body []
  | plain {c : UInt8} {b : Bytes} (hquote : c ≠ 0x22) (hback : c ≠ 0x5C) : Body b → Body (c :: b)
  | escape {e : UInt8} {b : Bytes} (he : e ∈ 0x2F :: escapes) : Body b → Body (0x5C :: e :: b)
  | unit {digits b : Bytes} (hlength : digits.length = 4)
      (hdigits : ∀ c ∈ digits, Bytes.isHexDigit c = true) :
      Body b → Body (0x5C :: 0x75 :: (digits ++ b))

/-- What is skipped before the end of a string are digits. -/
theorem exists_of_stringEnd?_skip {k n skip : Nat} {r : Bytes} (h : stringEnd? k skip r = some n) :
    ∃ digits s, r = digits ++ s ∧ digits.length = skip
      ∧ (∀ c ∈ digits, Bytes.isHexDigit c = true) ∧ stringEnd? (k + skip) 0 s = some n := by
  induction skip generalizing k r with
  | zero => exact ⟨[], r, rfl, rfl, nofun, h⟩
  | succ skip ih =>
    cases r with
    | nil => cases h
    | cons c r =>
      rw [stringEnd?] at h
      split at h
      · next hc =>
        obtain ⟨digits, s, rfl, hlength, hdigits, hend⟩ := ih h
        refine ⟨c :: digits, s, rfl, by rw [List.length_cons, hlength],
          List.forall_mem_cons.mpr ⟨hc, hdigits⟩, ?_⟩
        rwa [Nat.add_right_comm, Nat.add_assoc] at hend
      · cases h

/-- What is between the quotes of a string is the body of a string. -/
theorem body_of_stringEnd? {k n : Nat} {r : Bytes} (h : stringEnd? k 0 r = some n) :
    k ≤ n ∧ Body (r.take (n - k)) := by
  -- on the rest of the string, since an escape takes several octets at once
  induction hr : r.length using Nat.strongRecOn generalizing k r with
  | ind l ih =>
    subst hr
    cases r with
    | nil => cases h
    | cons c r =>
      by_cases hquote : c = 0x22
      · subst hquote
        obtain rfl : k = n := by simpa [stringEnd?_quote] using h
        exact ⟨le_rfl, by rw [Nat.sub_self]; exact .nil⟩
      by_cases hback : c = 0x5C
      · subst hback
        -- a backslash, then `u` with four digits or one of the other escapes
        cases r with
        | nil => simp [stringEnd?] at h
        | cons e r =>
          rw [stringEnd?_escape] at h
          split at h
          · next hu =>
            subst hu
            obtain ⟨digits, s, rfl, hlength, hdigits, hend⟩ := exists_of_stringEnd?_skip h
            obtain ⟨hle, hbody⟩ := ih s.length
              (by simp only [List.length_cons, List.length_append]; omega) hend rfl
            refine ⟨by omega, ?_⟩
            have htake : (0x5C :: 0x75 :: (digits ++ s)).take (n - k)
                = 0x5C :: 0x75 :: (digits ++ s.take (n - (k + 2 + 4))) := by
              rw [show n - k = (n - (k + 2 + 4) + digits.length) + 1 + 1 by omega,
                List.take_succ_cons, List.take_succ_cons, Nat.add_comm, List.take_length_add_append]
            rw [htake]
            exact .unit hlength hdigits hbody
          · split at h
            · next he =>
              obtain ⟨hle, hbody⟩ := ih r.length
                (by simp only [List.length_cons]; omega) h rfl
              refine ⟨by omega, ?_⟩
              rw [show n - k = (n - (k + 2)) + 1 + 1 by omega]
              exact .escape he hbody
            · cases h
      · by_cases hlow : c < 0x20
        · rw [stringEnd?_control hlow hquote] at h
          cases h
        · rw [stringEnd?_cons hlow hquote hback] at h
          obtain ⟨hle, hbody⟩ := ih r.length (by simp) h rfl
          refine ⟨by omega, ?_⟩
          rw [show n - k = (n - (k + 1)) + 1 by omega]
          exact .plain hquote hback hbody

theorem ofChar_escapeOctet : ∀ e ∈ 0x2F :: escapes, e ≠ 0x75
    ∧ Utf8.ofChar (Char.ofNat (escapeOctet e).toNat) = [escapeOctet e] := by
  have hall : ((0x2F :: escapes).all fun e => e != 0x75
      && Utf8.ofChar (Char.ofNat (escapeOctet e).toNat) == [escapeOctet e]) = true := by decide
  intro e he
  simpa using List.all_eq_true.mp hall e he

/-- The octets that continue a character are passed over in the body of a string. -/
theorem Body.of_append {t b : Bytes} (h : Body (t ++ b)) (ht : ∀ c ∈ t, 0x80 ≤ c.toNat) :
    Body b := by
  induction t with
  | nil => exact h
  | cons c t ih =>
    have hc := ht c List.mem_cons_self
    generalize hbody : c :: t ++ b = body at h
    cases h with
    | nil => cases hbody
    | plain hquote hback h =>
      obtain ⟨-, rfl⟩ := List.cons.inj hbody
      exact ih h fun c hc => ht c (List.mem_cons_of_mem _ hc)
    -- an escape begins with a byte below 0x80
    | escape he h =>
      obtain ⟨rfl, -⟩ := List.cons.inj hbody
      exact absurd hc (by decide)
    | unit hlength hdigits h =>
      obtain ⟨rfl, -⟩ := List.cons.inj hbody
      exact absurd hc (by decide)

/-- A second escape by number is passed over. -/
theorem Body.drop_unit {b : Bytes} {u : Nat} (h : Body b) (hu : unitAt? b = some u) :
    Body (b.drop 6) := by
  cases h with
  | nil => cases hu
  | plain hquote hback h => simp [unitAt?, hback] at hu
  | escape he h => simp [unitAt?, (ofChar_escapeOctet _ he).1] at hu
  | @unit digits b hlength hdigits h =>
    have hdrop : (0x5C :: 0x75 :: (digits ++ b)).drop 6 = b := by
      rw [List.drop_succ_cons, List.drop_succ_cons, ← hlength, List.drop_left]
    rw [hdrop]
    exact h

/-- Where two escapes make a character, the second one is there. -/
theorem exists_of_unitChar {u : Nat} {r : Bytes} (h : (unitChar u r).2 = 12) :
    ∃ v, unitAt? r = some v := by
  unfold unitChar at h
  split at h
  · split at h
    · next v hv => exact ⟨v, hv⟩
    · cases h
  · cases h

/-- The body of a string denotes a sequence of characters. -/
theorem Body.exists_chars {b : Bytes} (h : Body b) (acc : Bytes) :
    ∃ l, unescape 0 acc b = acc.reverse ++ Utf8.ofChars l := by
  induction hb : b.length using Nat.strongRecOn generalizing b acc with
  | ind n ih =>
    subst hb
    -- what comes after a character denotes characters as well
    have hcons {c : Char} {r : Bytes} (hr : Body r) (hlt : r.length < b.length) :
        ∃ l, unescape 0 ((Utf8.ofChar c).reverse ++ acc) r = acc.reverse ++ Utf8.ofChars l := by
      obtain ⟨l, hl⟩ := ih r.length hlt hr ((Utf8.ofChar c).reverse ++ acc) rfl
      exact ⟨c :: l, by rw [hl]; simp [Utf8.ofChars]⟩
    cases h with
    | nil => exact ⟨[], by simp [unescape, Utf8.ofChars]⟩
    | @plain c r hquote hback h =>
      rw [unescape_cons hback]
      apply hcons _ (by simp only [List.length_drop, List.length_cons]; omega)
      rcases Utf8.first_cases c r with ⟨x, n, hfirst, hn, hoctets⟩ | hstray
      · rw [hfirst]
        apply Body.of_append (t := r.take n) (by rwa [List.take_append_drop])
        intro d hd
        rcases Utf8.ofChar_cases x with ⟨-, hascii⟩ | ⟨-, hhigh⟩
        · rw [hascii] at hoctets
          rw [(List.cons.inj hoctets).2] at hd
          cases hd
        · exact hhigh d (hoctets ▸ List.mem_cons_of_mem _ hd)
      · rw [hstray]
        exact h
    | @escape e r he h =>
      obtain ⟨hu, hoctet⟩ := ofChar_escapeOctet e he
      obtain ⟨l, hl⟩ := hcons (c := Char.ofNat (escapeOctet e).toNat) h
        (by simp only [List.length_cons]; omega)
      refine ⟨l, ?_⟩
      rwa [hoctet, List.reverse_singleton, List.singleton_append, ← unescape_escape hu] at hl
    | @unit digits r hlength hdigits h =>
      rw [unescape_unit hlength hdigits]
      apply hcons _ (by simp only [List.length_drop, List.length_cons, List.length_append]; omega)
      rcases unitChar_length (Bytes.toNat 16 digits) r with hone | htwo
      · rw [hone]
        exact h
      · obtain ⟨v, hv⟩ := exists_of_unitChar htwo
        rw [htwo]
        exact h.drop_unit hv

/-- A string that is read is well formed. -/
theorem isValid_unescape {r : Bytes} {n : Nat} (h : stringEnd? 0 0 r = some n) :
    Utf8.isValid (unescape 0 [] (r.take n)) = true := by
  obtain ⟨-, hbody⟩ := body_of_stringEnd? h
  obtain ⟨l, hl⟩ := hbody.exists_chars []
  rw [Nat.sub_zero] at hl
  rw [hl]
  exact Utf8.isValid_ofChars l

end Json

end Idl
