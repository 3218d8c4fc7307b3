import Idl.Compile.Annot
import Idl.Document
import Idl.Proofs.Json.RoundTrip
import Idl.Proofs.Reader.Octets
import Idl.Proofs.Schema.Alike
import Idl.Proofs.Schema.Textual
import Idl.Proofs.Token.LineEnds
import Idl.Tree.Parse
import Mathlib.Data.Nat.Digits.Defs

/-!
# Integer literals

An integer literal has a sign, a base and digits, and so denotes a number. The grammar takes it if
the number fits a word of 64 bits, with or without a sign. It is then kept as a sign and a magnitude,
from which it is asked for as a word of one kind or another, and from which the constant of a schema
is made.

* §1 what a literal denotes, §2 what a scan finds,
* §3 digits at the width of a word, §4 sign and magnitude,
* §5 constants, §6 the literals of sources.
-/

namespace Idl

/-! ## §1 What a literal denotes -/

namespace Bytes

/-- A digit of a base up to sixteen. -/
def IsDigitOf (base : Nat) (c : UInt8) : Prop := isHexDigit c = true ∧ digitValue c < base

/-- The number that digits stand for. Each counts as often as its place says: the last one once, and
every other one the base times as often as its right neighbour. -/
def positional (base : Nat) (digits : Bytes) : Nat :=
  Nat.ofDigits base (digits.reverse.map digitValue)

theorem positional_append_singleton (base : Nat) (digits : Bytes) (c : UInt8) :
    positional base (digits ++ [c]) = positional base digits * base + digitValue c := by
  rw [positional, List.reverse_append, List.reverse_singleton, List.singleton_append,
    List.map_cons, Nat.ofDigits_cons, positional]
  ring

/-- Reading digits from left to right gives each of them its place. -/
theorem positional_eq (base : Nat) (digits : Bytes) : positional base digits = toNat base digits := by
  induction digits using List.reverseRecOn with
  | nil => rfl
  | append_singleton digits c ih =>
    rw [positional_append_singleton, ih, toNat, toNat, List.foldl_append]
    rfl

end Bytes

namespace Integer

open Bytes (IsDigitOf positional)

/-- A numeral without a sign, its kind and its number. A leading zero makes a numeral octal unless it
is the whole numeral, and hexadecimal if a mark follows it. -/
inductive Magnitude : TokenKind → Bytes → Nat → Prop where
  | decimal {digits : Bytes} (hne : digits ≠ []) (hdigits : ∀ c ∈ digits, IsDigitOf 10 c)
      (hzero : digits.head? = some 0x30 → digits = [0x30]) :
      Magnitude .intLit digits (positional 10 digits)
  | octal {digits : Bytes} (hne : digits ≠ []) (hdigits : ∀ c ∈ digits, IsDigitOf 8 c) :
      Magnitude .octIntLit (0x30 :: digits) (positional 8 digits)
  | hexadecimal {mark : UInt8} {digits : Bytes} (hmark : mark = 0x78 ∨ mark = 0x58)
      (hne : digits ≠ []) (hdigits : ∀ c ∈ digits, IsDigitOf 16 c) :
      Magnitude .hexIntLit (0x30 :: mark :: digits) (positional 16 digits)

/-- The octets of a literal, its kind and the number that it denotes. -/
inductive Denotes (kind : TokenKind) : Bytes → Int → Prop where
  | plain {b : Bytes} {n : Nat} (h : Magnitude kind b n) : Denotes kind b n
  | minus {b : Bytes} {n : Nat} (h : Magnitude kind b n) : Denotes kind (0x2D :: b) (-n)

theorem isDigit_of_isDigitOf {c : UInt8} (h : IsDigitOf 10 c) : Bytes.isDigit c = true := by
  obtain ⟨hhex, hlt⟩ := h
  by_contra hnot
  -- a letter counts ten or more
  simp only [Bytes.isHexDigit, Bytes.digitValue, hnot, Bool.or_eq_true,
    Bool.and_eq_true, decide_eq_true_eq, UInt8.le_iff_toNat_le] at hhex hlt
  simp at hhex hlt
  split at hlt <;> omega

theorem isOctDigit_of_isDigitOf {c : UInt8} (h : IsDigitOf 8 c) : Bytes.isOctDigit c = true := by
  have hdigit := isDigit_of_isDigitOf ⟨h.1, h.2.trans (by decide)⟩
  have hlt := h.2
  rw [Bytes.digitValue, if_pos hdigit] at hlt
  simp only [Bytes.isDigit, Bytes.isOctDigit, Bool.and_eq_true, decide_eq_true_eq,
    UInt8.le_iff_toNat_le, UInt8.reduceToNat] at hdigit ⊢
  omega

theorem isDigitOf_of_isDigit {c : UInt8} (h : Bytes.isDigit c = true) : IsDigitOf 10 c :=
  ⟨by simp [Bytes.isHexDigit, h], Bytes.digitValue_lt h⟩

theorem isDigit_of_isOctDigit {c : UInt8} (h : Bytes.isOctDigit c = true) :
    Bytes.isDigit c = true := by
  simp only [Bytes.isDigit, Bytes.isOctDigit, Bool.and_eq_true, decide_eq_true_eq,
    UInt8.le_iff_toNat_le, UInt8.reduceToNat] at h ⊢
  omega

theorem isDigitOf_of_isOctDigit {c : UInt8} (h : Bytes.isOctDigit c = true) : IsDigitOf 8 c := by
  have hdigit := isDigit_of_isOctDigit h
  refine ⟨by simp [Bytes.isHexDigit, hdigit], ?_⟩
  rw [Bytes.digitValue, if_pos hdigit]
  simp only [Bytes.isOctDigit, Bool.and_eq_true, decide_eq_true_eq, UInt8.le_iff_toNat_le,
    UInt8.reduceToNat] at h
  omega

theorem isDigitOf_of_isHexDigit {c : UInt8} (h : Bytes.isHexDigit c = true) : IsDigitOf 16 c := by
  refine ⟨h, ?_⟩
  simp only [Bytes.isHexDigit, Bytes.isDigit, Bool.or_eq_true, Bool.and_eq_true,
    decide_eq_true_eq, UInt8.le_iff_toNat_le, UInt8.reduceToNat] at h
  simp only [Bytes.digitValue, Bytes.isDigit, Bool.and_eq_true, decide_eq_true_eq,
    UInt8.le_iff_toNat_le, UInt8.reduceToNat]
  split
  · omega
  · split <;> omega

/-- A mark is no digit. -/
theorem isDigit_of_mark {mark : UInt8} (h : mark = 0x78 ∨ mark = 0x58) :
    Bytes.isDigit mark = false := by
  rcases h with rfl | rfl <;> rfl

namespace Magnitude

variable {kind : TokenKind} {b : Bytes} {n : Nat}

/-- The scan finds the kind of a numeral. -/
theorem kind_eq (h : Magnitude kind b n) : kind = (Scan.radix b).1 := by
  cases h with
  | decimal hne hdigits hzero =>
    rcases b with _ | ⟨c, _ | ⟨d, r⟩⟩
    · exact absurd rfl hne
    · simp [Scan.radix]
    · -- a decimal number of several digits does not begin with zero
      have hc : c ≠ 0x30 := by
        rintro rfl
        exact absurd (hzero rfl) (by simp)
      simp [Scan.radix, hc]
  | @octal digits hne hdigits =>
    rcases digits with _ | ⟨d, r⟩
    · exact absurd rfl hne
    have hd : Bytes.isDigit d = true :=
      isDigit_of_isOctDigit (isOctDigit_of_isDigitOf (hdigits d List.mem_cons_self))
    -- the first octal digit is no mark of a hexadecimal number
    have hmark : ¬ (d = 0x78 ∨ d = 0x58) := fun h => by simp [isDigit_of_mark h] at hd
    simp [Scan.radix, hmark, hd]
  | hexadecimal hmark => simp [Scan.radix, hmark]

/-- What is left of a numeral without what introduces it are digits, which make the number. -/
theorem digits (h : Magnitude kind b n) :
    b.drop kind.base.2 ≠ [] ∧ (∀ c ∈ b.drop kind.base.2, IsDigitOf kind.base.1 c)
      ∧ n = Bytes.toNat kind.base.1 (b.drop kind.base.2) := by
  cases h with
  | decimal hne hdigits => exact ⟨hne, hdigits, Bytes.positional_eq 10 b⟩
  | octal hne hdigits => exact ⟨hne, hdigits, Bytes.positional_eq 8 _⟩
  | hexadecimal hmark hne hdigits => exact ⟨hne, hdigits, Bytes.positional_eq 16 _⟩

theorem head?_ne (h : Magnitude kind b n) : b.head? ≠ some 0x2D := by
  cases h with
  | decimal hne hdigits hzero =>
    intro hhead
    obtain ⟨r, rfl⟩ := List.head?_eq_some_iff.mp hhead
    have hdigit := isDigit_of_isDigitOf (hdigits 0x2D List.mem_cons_self)
    exact absurd hdigit (by decide)
  | octal => simp
  | hexadecimal => simp

/-- A numeral is of one kind and has one number. -/
theorem unique {kind' : TokenKind} {n' : Nat} (h : Magnitude kind b n)
    (h' : Magnitude kind' b n') : kind' = kind ∧ n' = n := by
  obtain rfl : kind' = kind := h'.kind_eq.trans h.kind_eq.symm
  exact ⟨rfl, h'.digits.2.2.trans h.digits.2.2.symm⟩

end Magnitude

/-- A literal is of one kind and denotes one number. -/
theorem Denotes.unique {kind kind' : TokenKind} {b : Bytes} {v w : Int} (h : Denotes kind b v)
    (h' : Denotes kind' b w) : kind' = kind ∧ w = v := by
  cases h with
  | plain h =>
    cases h' with
    | plain h' =>
      obtain ⟨hkind, hn⟩ := h.unique h'
      exact ⟨hkind, congrArg Nat.cast hn⟩
    -- only one of them begins with the sign
    | minus h' => exact absurd rfl h.head?_ne
  | minus h =>
    cases h' with
    | plain h' => exact absurd rfl h'.head?_ne
    | minus h' =>
      obtain ⟨hkind, hn⟩ := h.unique h'
      exact ⟨hkind, by rw [hn]⟩

/-! ## §2 What a scan finds -/

/-- The ways in which a scan finds the radix of a number. -/
theorem radix_cases (b : Bytes) :
    (∃ mark r, b = 0x30 :: mark :: r ∧ (mark = 0x78 ∨ mark = 0x58)
      ∧ Scan.radix b = (.hexIntLit, Bytes.isHexDigit, 2))
    ∨ (∃ d r, b = 0x30 :: d :: r ∧ Scan.radix b = (.octIntLit, Bytes.isOctDigit, 1))
    ∨ (∀ d r, b = 0x30 :: d :: r → Bytes.isDigit d = false)
      ∧ Scan.radix b = (.intLit, Bytes.isDigit, 0) := by
  -- a zero with something behind it, or a number without a prefix
  by_cases hlead : ∃ d r, b = 0x30 :: d :: r
  · obtain ⟨d, r, rfl⟩ := hlead
    by_cases hmark : d = 0x78 ∨ d = 0x58
    · exact .inl ⟨d, r, rfl, hmark, by simp [Scan.radix, hmark]⟩
    by_cases hd : Bytes.isDigit d = true
    · exact .inr (.inl ⟨d, r, rfl, by simp [Scan.radix, hmark, hd]⟩)
    refine .inr (.inr ⟨fun d' r' h => ?_, by simp [Scan.radix, hmark, hd]⟩)
    obtain ⟨rfl, rfl⟩ : d = d' ∧ r = r' := by simpa using h
    simpa using hd
  · refine .inr (.inr ⟨fun d r h => absurd ⟨d, r, h⟩ hlead, ?_⟩)
    unfold Scan.radix
    split
    · next d r => exact absurd ⟨d, r, rfl⟩ hlead
    · rfl

/-- What is scanned as a whole number is the introduction of a radix and at least one digit. -/
theorem unsigned_integer {b : Bytes} (hok : (Scan.unsigned b).2.2 = true)
    (hkind : (Scan.unsigned b).1.isInteger = true) :
    (Scan.unsigned b).1 = (Scan.radix b).1
      ∧ (Scan.unsigned b).2.1
        = (Scan.radix b).2.2 + Scan.run (Scan.radix b).2.1 (b.drop (Scan.radix b).2.2)
      ∧ (b.drop (Scan.radix b).2.2).takeWhile (Scan.radix b).2.1 ≠ [] := by
  have hrun (p : UInt8 → Bool) (b : Bytes) (h : Scan.run p b ≠ 0) : b.takeWhile p ≠ [] :=
    fun hnil => h (by rw [Scan.run, hnil, List.length_nil])
  rcases hradix : Scan.radix b with ⟨kind, isDigit, lead⟩
  simp only [Scan.unsigned, hradix] at hok hkind ⊢
  split at hok
  · next hdecimal =>
    rw [if_pos hdecimal] at hkind ⊢
    dsimp only at hok hkind ⊢
    simp only [Bool.and_eq_true, bne_iff_ne, beq_iff_eq] at hok
    split at hkind
    · next hwhole =>
      -- no fraction and no exponent
      simp only [beq_iff_eq, Nat.add_eq_zero_iff] at hwhole hdecimal
      have hexponent := hwhole.2
      rw [hwhole.1, Nat.add_zero] at hexponent
      exact ⟨by simp [hwhole.1, hexponent, hdecimal], by omega, hrun _ _ hok.1.2⟩
    · cases hkind
  · next hdecimal =>
    rw [if_neg hdecimal] at hkind ⊢
    dsimp only at hok hkind ⊢
    simp only [Bool.and_eq_true, bne_iff_ne, beq_iff_eq] at hok
    exact ⟨rfl, by omega, hrun _ _ hok.1.2⟩

/-- Decimal digits at the front, of which the first one introduces no other base, are a numeral. -/
theorem magnitude_of_decimal {b : Bytes} (hradix : Scan.radix b = (.intLit, Bytes.isDigit, 0))
    (hne : b.takeWhile Bytes.isDigit ≠ []) :
    ∃ n, Magnitude .intLit (b.takeWhile Bytes.isDigit) n := by
  refine ⟨_, .decimal hne (fun c hc => isDigitOf_of_isDigit (List.mem_takeWhile_imp hc))
    fun hzero => ?_⟩
  -- a zero in front stands alone
  rcases b with _ | ⟨c, r⟩
  · cases hzero
  rw [List.takeWhile_cons] at hzero ⊢
  split at hzero
  · next hc =>
    rw [if_pos hc]
    obtain rfl : c = 0x30 := by simpa using hzero
    rcases r with _ | ⟨d, r⟩
    · rfl
    have hd : Bytes.isDigit d = false := by
      rcases radix_cases (0x30 :: d :: r) with ⟨mark, r', heq, -, hother⟩ | ⟨d', r', heq, hother⟩ |
        ⟨hlead, -⟩
      · rw [hradix] at hother
        cases hother
      · rw [hradix] at hother
        cases hother
      · exact hlead d r rfl
    rw [List.takeWhile_cons, hd]
    rfl
  · cases hzero

/-- What is scanned as a whole number without a sign is a numeral. -/
theorem magnitude_of_unsigned {b : Bytes} (hok : (Scan.unsigned b).2.2 = true)
    (hkind : (Scan.unsigned b).1.isInteger = true) :
    ∃ n, Magnitude (Scan.unsigned b).1 (b.take (Scan.unsigned b).2.1) n := by
  obtain ⟨hsame, hlength, hne⟩ := unsigned_integer hok hkind
  rw [hsame, hlength]
  rcases radix_cases b with ⟨mark, r, rfl, hmark, hradix⟩ | ⟨d, r, rfl, hradix⟩ | ⟨-, hradix⟩
  · rw [hradix] at hne ⊢
    -- the prefix, and the digits up to the first byte that is none
    have htake : (0x30 :: mark :: r).take (2 + Scan.run Bytes.isHexDigit r)
        = 0x30 :: mark :: r.takeWhile Bytes.isHexDigit := by
      rw [Nat.add_comm, List.take_succ_cons, List.take_succ_cons, Scan.take_run]
    change ∃ n, Magnitude .hexIntLit ((0x30 :: mark :: r).take (2 + Scan.run Bytes.isHexDigit r)) n
    rw [htake]
    exact ⟨_, .hexadecimal hmark hne fun c hc =>
      isDigitOf_of_isHexDigit (List.mem_takeWhile_imp hc)⟩
  · rw [hradix] at hne ⊢
    -- the zero, and the octal digits behind it
    have htake : (0x30 :: d :: r).take (1 + Scan.run Bytes.isOctDigit (d :: r))
        = 0x30 :: (d :: r).takeWhile Bytes.isOctDigit := by
      rw [Nat.add_comm, List.take_succ_cons, Scan.take_run]
    change ∃ n, Magnitude .octIntLit
      ((0x30 :: d :: r).take (1 + Scan.run Bytes.isOctDigit (d :: r))) n
    rw [htake]
    exact ⟨_, .octal hne fun c hc => isDigitOf_of_isOctDigit (List.mem_takeWhile_imp hc)⟩
  · -- no prefix
    have hdecimal := magnitude_of_decimal hradix
    rw [hradix] at hne ⊢
    dsimp only at hne ⊢
    rw [List.drop_zero] at hne ⊢
    rw [Nat.zero_add, Scan.take_run]
    exact hdecimal hne

/-- What a scan takes for a whole number denotes a number. -/
theorem denotes_of_number {c : UInt8} {r : Bytes} {kind : TokenKind} {extra : Nat}
    (h : Scan.number (c :: r) = .ok (kind, extra)) (hkind : kind.isInteger = true) :
    ∃ v, Denotes kind (c :: r.take extra) v := by
  obtain ⟨sign, b, hb, hsign, hok, rfl, hextra⟩ := Reader.number_cases h
  obtain ⟨n, hn⟩ := magnitude_of_unsigned hok hkind
  rw [← List.take_succ_cons, hextra, hb, List.take_length_add_append, hsign]
  split
  · exact ⟨_, .minus hn⟩
  · exact ⟨_, .plain hn⟩

/-- Every token of a source that is a whole number denotes a number. -/
theorem denotes_of_lex {src : Bytes} {l : Lexed} (h : lex src = .ok l) {t : Token}
    (ht : t ∈ l.tokens) (hkind : t.kind.isInteger = true) : ∃ v, Denotes t.kind t.text v := by
  obtain ⟨c, r, extra, hscan, htext⟩ := lex_scanned h ht
  -- an integer is scanned as a number, since no other way gives its kind
  have hnumber : Scan.number (c :: r) = .ok (t.kind, extra) := by
    generalize t.kind = kind at hscan hkind
    cases scannedAs hscan with
    | number _ h => exact h
    | sigil hc =>
      have hno : ∀ k ∈ TokenKind.sigilKinds, k.isInteger = false := by decide
      rw [hno _ (TokenKind.mem_sigilKinds hc)] at hkind
      cases hkind
    | _ => cases hkind
  rw [htext]
  exact denotes_of_number hnumber hkind

/-- The number that is denoted is the one that is read. -/
theorem Denotes.eq {kind : TokenKind} {b : Bytes} {v : Int} (h : Denotes kind b v) :
    intLitValue kind b = v := by
  cases h with
  | minus h => rw [h.digits.2.2]; rfl
  | plain h =>
    unfold intLitValue
    split
    next base lead hbase =>
    split
    · exact absurd rfl h.head?_ne
    · rw [h.digits.2.2, hbase]

/-! ## §3 Digits at the width of a word -/

/-- The bases of numerals. -/
def IsBase (base : UInt64) : Prop := base = 8 ∨ base = 10 ∨ base = 16

theorem isBase (kind : TokenKind) : IsBase kind.base.1.toUInt64 := by
  unfold IsBase
  cases kind <;> decide

/-- The bound that a number is compared with is the first one whose product with the base is too
large for a word. -/
theorem full_iff {base : UInt64} (hbase : IsBase base) (n : UInt64) :
    0xFFFFFFFFFFFFFFFF / base + 1 ≤ n ↔ 2 ^ 64 ≤ n.toNat * base.toNat := by
  rcases hbase with rfl | rfl | rfl
  · have h : ((0xFFFFFFFFFFFFFFFF / 8 + 1 : UInt64)).toNat = 2 ^ 61 := by decide
    rw [UInt64.le_iff_toNat_le, h, show (8 : UInt64).toNat = 8 from rfl]
    omega
  · have h : ((0xFFFFFFFFFFFFFFFF / 10 + 1 : UInt64)).toNat = 1844674407370955162 := by decide
    rw [UInt64.le_iff_toNat_le, h, show (10 : UInt64).toNat = 10 from rfl]
    omega
  · have h : ((0xFFFFFFFFFFFFFFFF / 16 + 1 : UInt64)).toNat = 2 ^ 60 := by decide
    rw [UInt64.le_iff_toNat_le, h, show (16 : UInt64).toNat = 16 from rfl]
    omega

/-- A sum of two words that wraps around is less than either of them. -/
theorem add_lt_iff (m d : UInt64) : m + d < m ↔ 2 ^ 64 ≤ m.toNat + d.toNat := by
  have hm := m.toNat_lt
  have hd := d.toNat_lt
  rw [UInt64.lt_iff_toNat_lt, UInt64.toNat_add]
  omega

/-- One more digit is taken in exactly if the number still fits. -/
theorem push?_eq {base n : UInt64} {c : UInt8} (hbase : IsBase base)
    (hc : IsDigitOf base.toNat c) :
    push? base n c = if n.toNat * base.toNat + Bytes.digitValue c < 2 ^ 64
      then some (n.toNat * base.toNat + Bytes.digitValue c).toUInt64 else none := by
  obtain ⟨hhex, hlt⟩ := hc
  have hdigit : (Bytes.digitValue c).toUInt64.toNat = Bytes.digitValue c := by
    have := base.toNat_lt
    simp only [Nat.toUInt64_eq, UInt64.toNat_ofNat']
    omega
  have hsmall : ¬ base ≤ (Bytes.digitValue c).toUInt64 := by
    rw [UInt64.le_iff_toNat_le, hdigit]
    omega
  have hguard : ¬ (!Bytes.isHexDigit c || decide (base ≤ (Bytes.digitValue c).toUInt64)) = true := by
    simp [hhex, hsmall]
  rw [push?]
  dsimp only
  rw [if_neg hguard]
  by_cases hfull : 0xFFFFFFFFFFFFFFFF / base + 1 ≤ n
  · -- the product does not fit, let alone the sum
    rw [if_pos hfull, if_neg (by have := (full_iff hbase n).mp hfull; omega)]
  have hproduct : (n * base).toNat = n.toNat * base.toNat := by
    have hfits := mt (full_iff hbase n).mpr hfull
    rw [UInt64.toNat_mul]
    omega
  rw [if_neg hfull]
  -- the product fits, and adding the digit wraps around exactly if the sum does not
  by_cases hwraps : n * base + (Bytes.digitValue c).toUInt64 < n * base
  · have hlarge := (add_lt_iff _ _).mp hwraps
    rw [hproduct, hdigit] at hlarge
    rw [if_pos hwraps, if_neg (by omega)]
  · have hfits := mt (add_lt_iff _ _).mpr hwraps
    rw [hproduct, hdigit, Nat.not_le] at hfits
    rw [if_neg hwraps, if_pos hfits, Option.some_inj, ← UInt64.toNat_inj, UInt64.toNat_add,
      hproduct, hdigit]
    simp

/-- A number only grows with its digits. -/
theorem le_foldl {base : Nat} (hbase : 0 < base) (digits : Bytes) (n : Nat) :
    n ≤ digits.foldl (fun n d => n * base + Bytes.digitValue d) n := by
  induction digits generalizing n with
  | nil => exact Nat.le_refl n
  | cons c r ih =>
    have hstep := ih (n * base + Bytes.digitValue c)
    have hgrows : n ≤ n * base := Nat.le_mul_of_pos_right n hbase
    rw [List.foldl_cons]
    omega

theorem foldlM_push? {base : UInt64} (hbase : IsBase base) {digits : Bytes}
    (hdigits : ∀ c ∈ digits, IsDigitOf base.toNat c) (n : UInt64) :
    digits.foldlM (push? base) n
      = if digits.foldl (fun n d => n * base.toNat + Bytes.digitValue d) n.toNat < 2 ^ 64
        then some (digits.foldl (fun n d => n * base.toNat + Bytes.digitValue d) n.toNat).toUInt64
        else none := by
  have hpos : 0 < base.toNat := by rcases hbase with rfl | rfl | rfl <;> decide
  induction digits generalizing n with
  | nil =>
    rw [List.foldlM_nil, List.foldl_nil, if_pos n.toNat_lt]
    simp
  | cons c r ih =>
    obtain ⟨hc, hr⟩ := List.forall_mem_cons.mp hdigits
    rw [List.foldlM_cons, List.foldl_cons, push?_eq hbase hc]
    by_cases hfits : n.toNat * base.toNat + Bytes.digitValue c < 2 ^ 64
    · have hnext : (n.toNat * base.toNat + Bytes.digitValue c).toUInt64.toNat
          = n.toNat * base.toNat + Bytes.digitValue c := by
        simp only [Nat.toUInt64_eq, UInt64.toNat_ofNat']
        omega
      rw [if_pos hfits, Option.bind_eq_bind, Option.bind_some, ih hr, hnext]
    · -- what does not fit does not come to fit again
      have hle := le_foldl hpos r (n.toNat * base.toNat + Bytes.digitValue c)
      rw [if_neg hfits, if_neg (by omega)]
      rfl

/-- Digits are read exactly if their number fits a word. -/
theorem parse?_eq {base : UInt64} (hbase : IsBase base) {digits : Bytes} (hne : digits ≠ [])
    (hdigits : ∀ c ∈ digits, IsDigitOf base.toNat c) :
    parse? base digits = if Bytes.toNat base.toNat digits < 2 ^ 64
      then some (Bytes.toNat base.toNat digits).toUInt64 else none := by
  rw [parse?, if_neg (by simpa using hne), foldlM_push? hbase hdigits]
  rfl

/-! ## §4 Sign and magnitude -/

/-- A number that fits a word of 64 bits, with or without a sign. -/
def Fits (v : Int) : Prop := -(2 ^ 63) ≤ v ∧ v ≤ 2 ^ 64 - 1

instance (v : Int) : Decidable (Fits v) := inferInstanceAs (Decidable (_ ∧ _))

theorem fitsLiteral_iff (v : Int) : fitsLiteral v = true ↔ Fits v := by
  simp only [fitsLiteral, Bool.and_eq_true, decide_eq_true_eq, Fits]
  omega

namespace Kept

/-- What is kept is a number: of the two signs of zero only one is kept, and what is below zero fits
a signed word. -/
structure Holds (k : Kept) (v : Int) : Prop where
  value : v = if k.negative then -(k.magnitude.toNat : Int) else k.magnitude.toNat
  positive : k.negative = true → 0 < k.magnitude.toNat ∧ k.magnitude.toNat ≤ 2 ^ 63

/-- What a literal that is taken is kept as, and which literals are taken. -/
theorem ofToken?_eq {kind : TokenKind} {text : Bytes} {v : Int} (h : Denotes kind text v) :
    if Fits v then ∃ k, ofToken? kind text = some k ∧ k.Holds v
    else ofToken? kind text = none := by
  have hbase : kind.base.1.toUInt64.toNat = kind.base.1 := by cases kind <;> rfl
  -- the digits are read as one word, if their value fits one
  have hparse {b : Bytes} {n : Nat} (hn : Magnitude kind b n) :
      parse? kind.base.1.toUInt64 (b.drop kind.base.2)
        = if n < 2 ^ 64 then some n.toUInt64 else none := by
    obtain ⟨hne, hdigits, rfl⟩ := hn.digits
    rw [parse?_eq (isBase kind) hne (by rwa [hbase]), hbase]
  have hword {n : Nat} (hn : n < 2 ^ 64) : n.toUInt64.toNat = n := by
    simp only [Nat.toUInt64_eq, UInt64.toNat_ofNat']
    omega
  -- without a sign the whole word is free; with one only half of its range
  cases h with
  | @plain _ n hn =>
    have htext : ofToken? kind text = (parse? kind.base.1.toUInt64 (text.drop kind.base.2)).bind
        fun n => some ⟨false, n⟩ := by
      unfold ofToken?
      split
      next minus r hr =>
      split at hr
      · exact absurd rfl hn.head?_ne
      · cases hr
        rfl
    rw [htext, hparse hn]
    by_cases hsmall : n < 2 ^ 64
    · rw [if_pos (show Fits n by constructor <;> omega), if_pos hsmall]
      exact ⟨⟨false, n.toUInt64⟩, rfl, by simp [hword hsmall], nofun⟩
    · rw [if_neg (show ¬ Fits n from fun hfits => by have := hfits.2; omega), if_neg hsmall]
      rfl
  | @minus b n hn =>
    have htext : ofToken? kind (0x2D :: b) = (parse? kind.base.1.toUInt64 (b.drop kind.base.2)).bind
        fun n => if 0x7FFFFFFFFFFFFFFF + 1 < n then none else some ⟨n != 0, n⟩ := by
      simp [ofToken?]
    rw [htext, hparse hn]
    by_cases hsmall : n < 2 ^ 64
    · rw [if_pos hsmall, Option.bind_some]
      have hlimit : (0x7FFFFFFFFFFFFFFF + 1 < n.toUInt64) ↔ 2 ^ 63 < n := by
        rw [UInt64.lt_iff_toNat_lt, hword hsmall]
        exact Iff.rfl
      by_cases hfits : Fits (-n)
      · have hle : n ≤ 2 ^ 63 := by have := hfits.1; omega
        rw [if_pos hfits, if_neg (mt hlimit.mp (by omega))]
        -- of the two signs of zero the plain one is kept
        have hsign : (n.toUInt64 != 0) = true ↔ 0 < n := by
          rw [bne_iff_ne, ne_eq, ← UInt64.toNat_inj, hword hsmall]
          exact Nat.pos_iff_ne_zero.symm
        refine ⟨⟨n.toUInt64 != 0, n.toUInt64⟩, rfl, ?_, fun hnegative => ?_⟩
        · dsimp only
          rw [hword hsmall]
          split
          · rfl
          · next hzero =>
            have := mt hsign.mpr hzero
            omega
        · rw [hword hsmall]
          exact ⟨hsign.mp hnegative, hle⟩
      · rw [if_neg hfits, if_pos (hlimit.mpr ?_)]
        by_contra hle
        exact hfits ⟨by omega, by omega⟩
    · rw [if_neg hsmall, if_neg (show ¬ Fits (-n) from fun hfits => by have := hfits.1; omega)]
      rfl

theorem toInt_toInt64 {m : UInt64} (h : m.toNat < 2 ^ 63) : m.toInt64.toInt = m.toNat := by
  rw [← Int64.toInt_toBitVec, UInt64.toBitVec_toInt64, BitVec.toInt_eq_toNat_bmod,
    UInt64.toNat_toBitVec, Int.bmod_eq_of_le] <;> omega

/-- The opposite of a magnitude is a signed word, also if the magnitude is none. -/
theorem toInt_opposite {m : UInt64} (hpos : 0 < m.toNat) (hle : m.toNat ≤ 2 ^ 63) :
    (-(m - 1).toInt64 - 1).toInt = -(m.toNat : Int) := by
  have hm : (m - 1).toNat = m.toNat - 1 := by
    rw [UInt64.toNat_sub_of_le]
    · rfl
    · rw [UInt64.le_iff_toNat_le]
      exact hpos
  rw [Int64.toInt_sub, Int64.toInt_neg, toInt_toInt64 (by omega), hm]
  simp only [Int.bmod, Int64.toInt_one]
  omega

namespace Holds

variable {k : Kept} {v : Int}

/-- A number is kept in one of two ways. -/
theorem sign (h : k.Holds v) :
    (k.negative = true ∧ v = -(k.magnitude.toNat : Int) ∧ 0 < k.magnitude.toNat
        ∧ k.magnitude.toNat ≤ 2 ^ 63)
      ∨ (k.negative = false ∧ v = k.magnitude.toNat ∧ k.magnitude.toNat < 2 ^ 64) := by
  cases hnegative : k.negative with
  | true => exact .inl ⟨rfl, by simpa [hnegative] using h.value, h.positive hnegative⟩
  | false => exact .inr ⟨rfl, by simpa [hnegative] using h.value, k.magnitude.toNat_lt⟩

theorem uint64? (h : k.Holds v) :
    k.uint64?.map (fun n => (n.toNat : Int)) = if 0 ≤ v ∧ v < 2 ^ 64 then some v else none := by
  rcases h.sign with ⟨hnegative, rfl, hpos, -⟩ | ⟨hnegative, rfl, hlt⟩
  · rw [if_neg (by omega)]
    simp [Kept.uint64?, hnegative]
  · rw [if_pos (by omega)]
    simp [Kept.uint64?, hnegative]

/-- The accessor of 32 bits. -/
theorem uint32? (h : k.Holds v) :
    k.uint32?.map (fun n => (n.toNat : Int)) = if 0 ≤ v ∧ v < 2 ^ 32 then some v else none := by
  rcases h.sign with ⟨hnegative, rfl, hpos, -⟩ | ⟨hnegative, rfl, hlt⟩
  · rw [if_neg (by omega)]
    simp [Kept.uint32?, hnegative]
  · -- the comparison of words is that of the numbers
    have hlarge : 0xFFFFFFFF < k.magnitude ↔ 2 ^ 32 ≤ k.magnitude.toNat := by
      rw [UInt64.lt_iff_toNat_lt]
      exact Iff.rfl
    by_cases hfits : k.magnitude.toNat < 2 ^ 32
    · rw [if_pos (by omega)]
      have hword : k.magnitude.toUInt32.toNat = k.magnitude.toNat := by
        rw [UInt64.toNat_toUInt32]
        omega
      simp [Kept.uint32?, hnegative, hlarge, hword, hfits]
    · rw [if_neg (by omega)]
      simp [Kept.uint32?, hnegative, hlarge, hfits]

theorem int64? (h : k.Holds v) :
    k.int64?.map Int64.toInt = if v < 2 ^ 63 then some v else none := by
  rcases h.sign with ⟨hnegative, rfl, hpos, hle⟩ | ⟨hnegative, rfl, hlt⟩
  · rw [if_pos (by omega), Kept.int64?, if_pos hnegative, Option.map_some, toInt_opposite hpos hle]
  · have hlarge : 0x7FFFFFFFFFFFFFFF < k.magnitude ↔ 2 ^ 63 ≤ k.magnitude.toNat := by
      rw [UInt64.lt_iff_toNat_lt]
      exact Iff.rfl
    rw [Kept.int64?, if_neg (by simp [hnegative])]
    by_cases hfits : k.magnitude.toNat < 2 ^ 63
    · rw [if_neg (mt hlarge.mp (by omega)), if_pos (by omega), Option.map_some,
        toInt_toInt64 hfits]
    · rw [if_pos (hlarge.mpr (by omega)), if_neg (by omega)]
      rfl

/-- The constant that a literal becomes. -/
theorem constant (h : k.Holds v) :
    k.constant = if v < 2 ^ 63 then .int v else .uint v.toNat := by
  have hint := h.int64?
  rcases h.sign with ⟨hnegative, rfl, hpos, hle⟩ | ⟨hnegative, rfl, hlt⟩
  · rw [if_pos (by omega)] at hint ⊢
    obtain ⟨n, hn, hvalue⟩ := Option.map_eq_some_iff.mp hint
    rw [Kept.constant, if_pos hnegative, hn, Option.getD_some, hvalue]
  · -- up to 2⁶³ the value is kept as a signed number, beyond as an unsigned one
    have hsmall : k.magnitude ≤ 0x7FFFFFFFFFFFFFFF ↔ k.magnitude.toNat < 2 ^ 63 := by
      rw [UInt64.le_iff_toNat_le]
      exact Nat.lt_succ_iff.symm
    have hword : k.uint64? = some k.magnitude := by simp [Kept.uint64?, hnegative]
    rw [Kept.constant, if_neg (by simp [hnegative]), hword]
    dsimp only [Option.getD_some]
    by_cases hfits : k.magnitude.toNat < 2 ^ 63
    · rw [if_pos (hsmall.mpr hfits), if_pos (by omega), toInt_toInt64 hfits]
    · rw [if_neg (mt hsmall.mp hfits), if_neg (by omega), Int.toNat_natCast]

end Holds

end Kept

/-! ## §5 Constants -/

/-- The constant of a number says which number it is, and the decimal numeral of a number denotes
the number. -/
theorem payload_ofInt (v : Int) : (Value.ofInt v).payload = Bytes.ofInt v := by
  cases v with
  | ofNat n =>
    rw [Value.ofInt, Value.ofNat]
    split
    · rfl
    · rfl
  | negSucc n => rfl

theorem ofInt_eq (v : Int) : Value.ofInt v = if v < 2 ^ 63 then .int v else .uint v.toNat := by
  cases v with
  | ofNat n =>
    rw [Value.ofInt, Value.ofNat, Int.ofNat_eq_natCast, Int.toNat_natCast]
    by_cases hn : n < 2 ^ 63
    · rw [if_pos hn, if_pos (by omega)]
    · rw [if_neg hn, if_neg (by omega)]
  | negSucc n =>
    rw [if_pos (by omega)]
    rfl

theorem denotes_ofInt (v : Int) : Denotes .intLit (Bytes.ofInt v) v := by
  have hnat (n : Nat) : Magnitude .intLit (Bytes.ofNat n) n := by
    have hvalue : Bytes.positional 10 (Bytes.ofNat n) = n := by
      rw [Bytes.positional_eq, Bytes.toNat_ofNat]
    have h : Magnitude .intLit (Bytes.ofNat n) (Bytes.positional 10 (Bytes.ofNat n)) := by
      refine .decimal (Bytes.ofNat_ne_nil n)
        (fun c hc => isDigitOf_of_isDigit (Bytes.isDigit_of_mem_ofNat hc)) fun hzero => ?_
      obtain ⟨r, hr⟩ := List.head?_eq_some_iff.mp hzero
      rw [hr, Bytes.eq_nil_of_ofNat_eq_zero_cons hr]
    rwa [hvalue] at h
  cases v with
  | ofNat n => exact .plain (hnat n)
  | negSucc n => exact .minus (hnat (n + 1))

/-- Constants of different numbers have different encodings. -/
theorem encoding_ofInt_eq_iff (v w : Int) :
    (Canonical.value (Value.ofInt v)).compact = (Canonical.value (Value.ofInt w)).compact
      ↔ v = w := by
  have hplain (n : Int) : Json.Plain 1 (Canonical.value (Value.ofInt n)) := by
    refine Canonical.plain_value ?_
    rw [ofInt_eq]
    split <;> trivial
  refine ⟨fun h => ?_, fun h => by rw [h]⟩
  -- the text can be read back, so it tells the value written
  have hvalue := (hplain v).eq_of_compact_eq (hplain w) (by decide) h
  obtain ⟨-, hpayload⟩ : (Value.ofInt v).kindName = (Value.ofInt w).kindName
      ∧ (Value.ofInt v).payload = (Value.ofInt w).payload := by
    simpa [Canonical.value] using hvalue
  rw [payload_ofInt, payload_ofInt] at hpayload
  exact Bytes.ofInt_injective hpayload

/-! ## §6 The literals of sources -/

/-- The constant that the schema gets for a literal. -/
def lowered (loc : Loc) (text : Bytes) (v : Int) : Value :=
  (Tree.Constant.int ⟨loc, text, v⟩).lower

/-- What a literal is asked for when it has been taken. -/
structure Kept.Answers (k : Kept) (text : Bytes) (v : Int) : Prop where
  uint64? : k.uint64?.map (fun n => (n.toNat : Int)) = if 0 ≤ v ∧ v < 2 ^ 64 then some v else none
  uint32? : k.uint32?.map (fun n => (n.toNat : Int)) = if 0 ≤ v ∧ v < 2 ^ 32 then some v else none
  int64? : k.int64?.map Int64.toInt = if v < 2 ^ 63 then some v else none
  constant : k.constant = if v < 2 ^ 63 then .int v else .uint v.toNat
  lowered : ∀ loc, Integer.lowered loc text v = k.constant
  canonical : Canonical.value k.constant
    = .arr [.str (if v < 2 ^ 63 then "int" else "uint"), .str (Bytes.ofInt v)]
  exported : Document.Value.ofSchema k.constant
    = ⟨if v < 2 ^ 63 then "int" else "uint", Bytes.ofInt v⟩

/-- What becomes of a token that is a literal. -/
structure Settled (t : Token) (v : Int) : Prop where
  /-- It denotes the number and no other one. -/
  denotes : ∀ kind w, Denotes kind t.text w ↔ kind = t.kind ∧ w = v
  /-- The grammar takes it if the number fits. -/
  taken : Fits v → ∀ r ending stop, Grammar.intLit ⟨t :: r, ending, stop⟩
    = .ok (⟨t.loc, t.text, v⟩, ⟨r, ending, t.stop⟩)
  /-- The grammar refuses it if the number does not fit. -/
  refused : ¬ Fits v → ∀ r ending stop, ∃ e, Grammar.intLit ⟨t :: r, ending, stop⟩ = .error e
    ∧ e.cause = .intOutOfRange t.text ∧ e.cause.code = 2030 ∧ e.span = t.span
  /-- A sign and a magnitude are kept if the number fits. -/
  kept : Fits v → ∃ k, Kept.ofToken? t.kind t.text = some k ∧ k.Answers t.text v
  /-- Nothing is kept if the number does not fit. -/
  dropped : ¬ Fits v → Kept.ofToken? t.kind t.text = none

theorem intLit_eq {t : Token} (hkind : t.kind.isInteger = true) (r : List Token)
    (ending : Except SyntaxError Token) (stop : Nat) :
    Grammar.intLit ⟨t :: r, ending, stop⟩ = if fitsLiteral (intLitValue t.kind t.text) = true
      then .ok (⟨t.loc, t.text, intLitValue t.kind t.text⟩, ⟨r, ending, t.stop⟩)
      else .error (.atToken (.intOutOfRange t.text) t) := by
  change (if t.kind.isInteger = true then _ else _ : Grammar Tree.IntLit) ⟨t :: r, ending, stop⟩ = _
  rw [if_pos hkind]
  by_cases hfits : fitsLiteral (intLitValue t.kind t.text) = true
  · rw [if_pos hfits, if_pos hfits]
    rfl
  · rw [if_neg hfits, if_neg hfits]
    rfl

theorem Kept.Holds.answers {k : Kept} {v : Int} (h : k.Holds v) (text : Bytes) :
    k.Answers text v := by
  have hconstant : k.constant = Value.ofInt v := h.constant.trans (ofInt_eq v).symm
  have hname : (Value.ofInt v).kindName = if v < 2 ^ 63 then Bytes.ofString "int" else "uint" := by
    rw [ofInt_eq]
    split
    · rfl
    · rfl
  refine ⟨h.uint64?, h.uint32?, h.int64?, h.constant, fun loc => hconstant.symm, ?_, ?_⟩
  · rw [hconstant, Canonical.value, payload_ofInt, hname]
  · rw [hconstant, Document.Value.ofSchema, payload_ofInt, hname]

/-- A literal is settled by what its text denotes. -/
theorem settled {t : Token} {v : Int} (h : Denotes t.kind t.text v)
    (hkind : t.kind.isInteger = true) : Settled t v := by
  have hkept := Kept.ofToken?_eq h
  -- that the reader accepts it is that the value fits
  have hfits : fitsLiteral (intLitValue t.kind t.text) = true ↔ Fits v := by
    rw [h.eq]
    exact fitsLiteral_iff v
  refine ⟨fun kind w => ⟨h.unique, ?_⟩, fun hv r ending stop => ?_, fun hv r ending stop => ?_,
    fun hv => ?_, fun hv => ?_⟩
  · rintro ⟨rfl, rfl⟩
    exact h
  · rw [intLit_eq hkind, if_pos (hfits.mpr hv), h.eq]
  · rw [intLit_eq hkind, if_neg (mt hfits.mp hv)]
    exact ⟨_, rfl, rfl, rfl, rfl⟩
  · rw [if_pos hv] at hkept
    obtain ⟨k, hk, hholds⟩ := hkept
    exact ⟨k, hk, hholds.answers t.text⟩
  · rwa [if_neg hv] at hkept

/-- Every token of a source that is a literal of a whole number denotes one number, in decimal,
octal or hexadecimal, with or without a sign; the grammar takes it exactly if the number fits; and
what is taken is given out as the number wherever it fits, as words of three kinds and as a constant
with a decimal numeral. Two literals, of one source or of two, have the same canonical encoding
exactly if they denote the same number. -/
theorem integer_literals_exact {src src' : Bytes} {l l' : Lexed} (h : lex src = .ok l)
    (h' : lex src' = .ok l') {t u : Token} (ht : t ∈ l.tokens) (hu : u ∈ l'.tokens)
    (hkind : t.kind.isInteger = true) (hkind' : u.kind.isInteger = true) :
    ∃ v w, Settled t v ∧ Settled u w
      ∧ Denotes .intLit (Bytes.ofInt v) v ∧ Denotes .intLit (Bytes.ofInt w) w
      ∧ ∀ loc loc', (Canonical.value (lowered loc t.text v)).compact
        = (Canonical.value (lowered loc' u.text w)).compact ↔ v = w := by
  obtain ⟨v, hv⟩ := denotes_of_lex h ht hkind
  obtain ⟨w, hw⟩ := denotes_of_lex h' hu hkind'
  exact ⟨v, w, settled hv hkind, settled hw hkind', denotes_ofInt v, denotes_ofInt w,
    fun _ _ => encoding_ofInt_eq_iff v w⟩

/-- The least number that fits, and a number in octal that is one too large. -/
theorem integer_literals_exact_bounds :
    let least : Token := ⟨.hexIntLit, 0, .start, "-0x8000000000000000"⟩
    let large : Token := ⟨.octIntLit, 0, .start, "02000000000000000000000"⟩
    ∃ l l', lex least.text = .ok l ∧ lex large.text = .ok l' ∧ least ∈ l.tokens ∧ large ∈ l'.tokens
      ∧ least.kind.isInteger = true ∧ large.kind.isInteger = true
      ∧ Settled least (-(2 ^ 63)) ∧ Settled large (2 ^ 64) := by
  intro least large
  have hl : lex least.text = _ := lex_eq (by decide) (by decide)
  have hl' : lex large.text = _ := lex_eq (by decide) (by decide)
  have ht : least ∈ (lexFrom 0 0 .start .outside [] least.text).tokens := by decide
  have hu : large ∈ (lexFrom 0 0 .start .outside [] large.text).tokens := by decide
  obtain ⟨v, w, hv, hw, -⟩ := integer_literals_exact hl hl' ht hu rfl rfl
  -- what the tokens denote is told by the theorem; the values are computed
  have hleast : v = -(2 ^ 63) := ((hv.denotes _ _).mpr ⟨rfl, rfl⟩).eq.symm.trans (by decide)
  have hlarge : w = 2 ^ 64 := ((hw.denotes _ _).mpr ⟨rfl, rfl⟩).eq.symm.trans (by decide)
  subst hleast hlarge
  exact ⟨_, _, hl, hl', ht, hu, rfl, rfl, hv, hw⟩

end Integer

end Idl
