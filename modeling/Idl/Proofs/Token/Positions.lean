import Idl.Proofs.Text.Utf8
import Idl.Proofs.Token.Lexemes
import Idl.Proofs.Token.LineEnds
import Mathlib.Order.Bounds.Basic

/-!
# The positions of offsets

The reader of tokens carries a position along, token by token. Since tokens are made of whole
characters, that position is the one of the offset that the reader has got to: newlines before it,
and characters since the last of them. A line or a column takes at least one octet, so that neither
number is beyond the number of octets.

* §1 texts that are cut between two characters, §2 the position after two texts,
* §3 tokens are made of whole characters,
* §4 positions along a source,
* §5 how far a position goes, §6 how far the tokens of a source go.
-/

namespace Idl

/-! ## §1 Cuts between characters -/

namespace Utf8

/-- A text can begin here: its first octet does not continue a character. -/
def Begins (b : Bytes) : Prop := ∀ a ∈ b.head?, isTail a = false

theorem begins_nil : Begins [] := by simp [Begins]

theorem begins_of_ascii {a : UInt8} (h : a.toNat < 0x80) (r : Bytes) : Begins (a :: r) := by
  intro x hx
  obtain rfl : a = x := by simpa using hx
  simp only [isTail, Bool.and_eq_false_iff, decide_eq_false_iff_not, UInt8.le_iff_toNat_le,
    UInt8.reduceToNat]
  omega

/-- What a character needs of the octets behind it does not go over such a cut. -/
theorem first_append_of_begins {z : Bytes} (h : Begins z) (a : UInt8) (u : Bytes) :
    first a (u ++ z) = first a u := by
  rcases z with _ | ⟨x, z⟩
  · rw [List.append_nil]
  have hx : ¬ (0x80 ≤ x.toNat ∧ x.toNat ≤ 0xBF) := by
    have hx := h x (by simp)
    simp only [isTail, Bool.and_eq_false_iff, decide_eq_false_iff_not, UInt8.le_iff_toNat_le,
      UInt8.reduceToNat] at hx
    omega
  rw [first_eq, first_eq]
  -- a character has up to three octets behind its first one, and any of them may be beyond the cut
  rcases u with _ | ⟨b, _ | ⟨c, _ | ⟨d, u⟩⟩⟩
  · rcases z with _ | ⟨y, _ | ⟨w, z⟩⟩ <;> simp only [List.nil_append] <;> grind
  · rcases z with _ | ⟨y, z⟩ <;> simp only [List.cons_append, List.nil_append] <;> grind
  · simp only [List.cons_append, List.nil_append]
    grind
  · rfl

theorem glyphs_append {z : Bytes} (h : Begins z) (u : Bytes) :
    glyphs (u ++ z) = glyphs u ++ glyphs z := by
  induction hn : u.length using Nat.strong_induction_on generalizing u with
  | _ n ih =>
    subst hn
    cases u with
    | nil => rfl
    | cons a r =>
      have hle : (first a r).2 ≤ r.length := by
        rcases first_cases a r with ⟨c, k, hfirst, hk, -⟩ | hstray
        · rw [hfirst]
          exact hk
        · rw [hstray]
          exact Nat.zero_le _
      rw [List.cons_append, glyphs_cons, glyphs_cons, first_append_of_begins h,
        List.drop_append_of_le_length hle, ih (r.drop (first a r).2).length ?_ _ rfl,
        List.cons_append]
      rw [List.length_drop, List.length_cons]
      omega

theorem count_append {z : Bytes} (h : Begins z) (u : Bytes) : count (u ++ z) = count u + count z := by
  rw [count, glyphs_append h, List.length_append, count, count]

theorem isValid_append {z : Bytes} (h : Begins z) (u : Bytes) :
    isValid (u ++ z) = (isValid u && isValid z) := by
  rw [isValid, glyphs_append h, List.all_append, isValid, isValid]

/-- A valid text does not begin in the middle of a character. -/
theorem begins_of_isValid {b : Bytes} (h : isValid b = true) : Begins b := by
  intro a ha
  cases b with
  | nil => cases ha
  | cons x r =>
    obtain rfl : x = a := by simpa using ha
    by_contra htail
    simp only [Bool.not_eq_false, isTail, Bool.and_eq_true, decide_eq_true_eq,
      UInt8.le_iff_toNat_le, UInt8.reduceToNat] at htail
    -- a byte of the range 0x80 to 0xBF begins no character
    have hfirst : first x r = (.stray x, 0) := by
      rw [first_eq, if_neg (by omega), if_neg (by omega), if_neg (by omega), if_neg (by omega)]
    rw [isValid, glyphs_cons, hfirst] at h
    simp at h

theorem isValid_append_of {a b : Bytes} (ha : isValid a = true) (hb : isValid b = true) :
    isValid (a ++ b) = true := by
  rw [isValid_append (begins_of_isValid hb), ha, hb]
  rfl

theorem isValid_of_ascii_cons {a : UInt8} (ha : a.toNat < 0x80) {r : Bytes}
    (h : isValid (a :: r) = true) : isValid r = true := by
  have hfirst : first a r = (.char (Char.ofNat a.toNat), 0) := by rw [first_eq, if_pos ha]
  rw [isValid, glyphs_cons, hfirst, List.all_cons, List.drop_zero, Bool.and_eq_true] at h
  exact h.2

/-- What follows an ASCII character in a well-formed text is well formed. -/
theorem isValid_of_append {u z : Bytes} {a : UInt8} (ha : a.toNat < 0x80)
    (h : isValid (u ++ a :: z) = true) : isValid z = true := by
  rw [isValid_append (begins_of_ascii ha z), Bool.and_eq_true] at h
  exact isValid_of_ascii_cons ha h.2

/-- The octets of a well-formed text behind `n` others are well formed. -/
def Whole (b : Bytes) (n : Nat) : Prop := isValid b = true → isValid (b.drop n) = true

theorem whole_zero {b : Bytes} : Whole b 0 := by simp [Whole]

theorem Whole.cons {c : UInt8} {r : Bytes} {n : Nat} (hc : c.toNat < 0x80) (h : Whole r n) :
    Whole (c :: r) (n + 1) := fun hvalid => h (isValid_of_ascii_cons hc hvalid)

theorem whole_of_plain {b : Bytes} {n : Nat} (h : Scan.Plain b n) : Whole b n := by
  induction n generalizing b with
  | zero => exact whole_zero
  | succ n ih =>
    cases b with
    | nil => simp [Whole]
    | cons c r =>
      rw [Scan.Plain, List.take_succ_cons, List.forall_mem_cons] at h
      exact (ih h.2).cons h.1.1

end Utf8

/-! ## §2 Positions after two texts -/

namespace Pos

/-- Advancing over two texts is advancing over the two together. -/
theorem advance_append {z : Bytes} (h : Utf8.Begins z) (p : Pos) (u : Bytes) :
    p.advance (u ++ z) = (p.advance u).advance z := by
  -- the column counts what is behind the last newline, which `z` has if there is one in it
  have hlast : 0x0A ∉ z → (u ++ z).reverse.takeWhile (· != 0x0A)
      = z.reverse ++ u.reverse.takeWhile (· != 0x0A) := by
    intro hz
    rw [List.reverse_append, List.takeWhile_append_of_pos]
    intro a ha
    have hne : a ≠ 0x0A := by
      rintro rfl
      exact hz (List.mem_reverse.mp ha)
    simpa using hne
  have hlast' : 0x0A ∈ z → (u ++ z).reverse.takeWhile (· != 0x0A)
      = z.reverse.takeWhile (· != 0x0A) := by
    intro hz
    rw [List.reverse_append, List.takeWhile_append, if_neg]
    intro hlen
    have hall := List.takeWhile_eq_self_iff.mp
      ((List.takeWhile_prefix _).eq_of_length hlen) 0x0A (List.mem_reverse.mpr hz)
    simp at hall
  unfold advance
  simp only [List.count_append, beq_iff_eq, Nat.add_eq_zero_iff]
  by_cases hz : 0x0A ∈ z
  · have hcount : z.count 0x0A ≠ 0 := by simpa [List.count_eq_zero] using hz
    rw [if_neg (by simp [hcount]), if_neg hcount, hlast' hz]
    split
    · next hu => simp [hu]
    · simp [Nat.add_assoc]
  · have hcount : z.count 0x0A = 0 := List.count_eq_zero.mpr hz
    rw [hlast hz, List.reverse_append, List.reverse_reverse, Utf8.count_append h,
      Utf8.count_append h]
    simp only [hcount, and_true, Nat.add_zero, if_true]
    split <;> simp only [Nat.add_assoc]

end Pos

/-! ## §3 Tokens are made of whole characters -/

theorem ascii_of_ofSigil? {c : UInt8} {kind : TokenKind} (h : TokenKind.ofSigil? c = some kind) :
    c.toNat < 0x80 := by
  unfold TokenKind.ofSigil? at h
  split at h <;> first | decide | cases h

theorem ascii_of_isDigit {c : UInt8} (h : Bytes.isDigit c = true) : c.toNat < 0x80 :=
  (Scan.plain_of_isWord (Scan.isWord_of_isDigit h)).1

namespace Scan

/-- The white space at the start of a text is made of whole characters. -/
theorem whole_blanks (n : Nat) (b : Bytes) : Utf8.Whole b (blanks n b - n) := by
  fun_induction blanks n b with
  -- one byte at a time for ASCII
  | case1 n r ih =>
    have hle := le_blanks (n + 1) r
    rw [show blanks (n + 1) r - n = (blanks (n + 1) r - (n + 1)) + 1 by omega]
    exact ih.cons (by decide)
  | case2 n r ih =>
    have hle := le_blanks (n + 1) r
    rw [show blanks (n + 1) r - n = (blanks (n + 1) r - (n + 1)) + 1 by omega]
    exact ih.cons (by decide)
  -- the two bytes of a no-break space
  | case3 n r ih =>
    have hle := le_blanks (n + 2) r
    rw [show blanks (n + 2) r - n = (blanks (n + 2) r - (n + 2)) + 2 by omega]
    intro h
    rw [Utf8.isValid, Utf8.glyphs_cons, List.all_cons, Bool.and_eq_true] at h
    exact ih h.2
  -- the three bytes of a byte order mark
  | case4 n r ih =>
    have hle := le_blanks (n + 3) r
    rw [show blanks (n + 3) r - n = (blanks (n + 3) r - (n + 3)) + 3 by omega]
    intro h
    rw [Utf8.isValid, Utf8.glyphs_cons, List.all_cons, Bool.and_eq_true] at h
    exact ih h.2
  | case5 => simpa using Utf8.whole_zero

/-- The octets of the blanks that are no ASCII characters. -/
theorem blank_octets {c : UInt8} {r : Bytes} {x : Char} {n : Nat}
    (h : Utf8.first c r = (.char x, n)) (hx : x.toNat = 0xA0 ∨ x.toNat = 0xFEFF) :
    (∃ z, c :: r = 0xC2 :: 0xA0 :: z ∧ n = 1) ∨ ∃ z, c :: r = 0xEF :: 0xBB :: 0xBF :: z ∧ n = 2 := by
  rcases Utf8.first_cases c r with ⟨x', n', hfirst, hle, htake⟩ | hstray
  · rw [h] at hfirst
    cases hfirst
    -- the character is read off the bytes in front, so these are its encoding
    have hlength : n + 1 = (Utf8.ofChar x).length := by
      rw [← htake, List.length_cons, List.length_take, Nat.min_eq_left hle]
    have hr : c :: r = Utf8.ofChar x ++ r.drop n := by
      rw [← htake, List.cons_append, List.take_append_drop]
    -- both characters are known, and so are their bytes
    rcases hx with hx | hx
    · obtain rfl : x = Char.ofNat 0xA0 := by rw [← hx, Char.ofNat_toNat]
      exact .inl ⟨_, hr, Nat.succ.inj hlength⟩
    · obtain rfl : x = Char.ofNat 0xFEFF := by rw [← hx, Char.ofNat_toNat]
      exact .inr ⟨_, hr, Nat.succ.inj hlength⟩
  · rw [h] at hstray
    cases hstray

/-- What has no other rule and is a token is a blank that is no ASCII character. -/
theorem exists_of_other {c : UInt8} {r : Bytes} {k : TokenKind} {extra : Nat}
    (h : other c r = .ok (k, extra)) :
    ∃ z, c :: r = 0xC2 :: 0xA0 :: z ∨ c :: r = 0xEF :: 0xBB :: 0xBF :: z := by
  unfold other at h
  split at h
  · next x n hfirst =>
    -- only two characters outside of ASCII begin a token, and both are blanks
    split at h
    · next hx =>
      simp only [Bool.or_eq_true, beq_iff_eq] at hx
      rcases blank_octets hfirst hx with ⟨z, hz, -⟩ | ⟨z, hz, -⟩
      · exact ⟨z, .inl hz⟩
      · exact ⟨z, .inr hz⟩
    · split at h <;> cases h
  · cases h

/-- All blanks are read with such a one. -/
theorem other_eq {c : UInt8} {r z : Bytes}
    (h : c :: r = 0xC2 :: 0xA0 :: z ∨ c :: r = 0xEF :: 0xBB :: 0xBF :: z) :
    other c r = token .space (blanks 0 (c :: r)) ∧ 2 ≤ blanks 0 (c :: r) := by
  rcases h with ⟨⟨⟩⟩ | ⟨⟨⟩⟩
  · have hfirst : Utf8.first 0xC2 (0xA0 :: z) = (.char (Char.ofNat 0xA0), 1) := rfl
    exact ⟨by rw [other, hfirst]; rfl, le_blanks 2 z⟩
  · have hfirst : Utf8.first 0xEF (0xBB :: 0xBF :: z) = (.char (Char.ofNat 0xFEFF), 2) := rfl
    exact ⟨by rw [other, hfirst]; rfl, (Nat.le_succ 2).trans (le_blanks 3 z)⟩

theorem blanks_of_other {c : UInt8} {r : Bytes} {k : TokenKind} {extra : Nat}
    (h : other c r = .ok (k, extra)) : blanks 0 (c :: r) = extra + 1 := by
  obtain ⟨z, hz⟩ := exists_of_other h
  obtain ⟨heq, hle⟩ := other_eq hz
  rw [heq] at h
  rw [(token_eq_ok h).2]
  omega

/-- A text literal ends with its quote. -/
theorem getElem?_of_textEnd {mark : UInt8} {n extra : Nat} {escaped : Bool} {b : Bytes}
    {k : TokenKind} (h : textEnd mark n escaped b = .ok (k, extra)) : b[extra - n]? = some mark := by
  fun_induction textEnd mark n escaped b with
  | case1 => cases h
  | case2 n c r ih =>
    have hle := le_of_textEnd h
    rw [show extra - n = (extra - (n + 1)) + 1 by omega, List.getElem?_cons_succ]
    exact ih h
  -- the mark that ends the text
  | case3 n c r hc =>
    rw [(token_eq_ok h).2, Nat.add_sub_cancel, Nat.sub_self, beq_iff_eq.mp hc]
    rfl
  | case4 => cases h
  | case5 => cases h
  | case6 => cases h
  | case7 n c r hc hctl ih =>
    have hle := le_of_textEnd h
    rw [show extra - n = (extra - (n + 1)) + 1 by omega, List.getElem?_cons_succ]
    exact ih h

end Scan

namespace Bytes

variable {p b : Bytes}

/-- The count goes along with the search. -/
theorem indexOf?_go_succ (n : Nat) : indexOf?.go p (n + 1) b = (indexOf?.go p n b).map (· + 1) := by
  induction b generalizing n with
  | nil =>
    simp only [indexOf?.go]
    split <;> rfl
  | cons c r ih =>
    simp only [indexOf?.go]
    split
    · rfl
    · exact ih (n + 1)

theorem indexOf?_cons (c : UInt8) (r : Bytes) :
    indexOf? (c :: r) p = if p.isPrefixOf (c :: r) then some 0 else (indexOf? r p).map (· + 1) := by
  rw [indexOf?, indexOf?.go, indexOf?_go_succ, indexOf?]

/-- What is found is the first place where the part stands. -/
theorem indexOf?_eq_some_iff {k : Nat} :
    indexOf? b p = some k ↔ IsLeast {i | p <+: b.drop i} k := by
  induction b generalizing k with
  | nil =>
    cases p with
    | nil => exact ⟨fun h => Option.some.inj h ▸ ⟨List.nil_prefix, fun _ _ => Nat.zero_le _⟩,
        fun h => congrArg some (Nat.le_zero.mp (h.2 List.nil_prefix)).symm⟩
    | cons => simp [indexOf?, indexOf?.go, IsLeast]
  | cons c r ih =>
    rw [indexOf?_cons]
    -- the part stands here, or has to be looked for behind the first byte
    by_cases hp : p <+: c :: r
    · have hleast : IsLeast {i | p <+: (c :: r).drop i} 0 := ⟨hp, fun _ _ => Nat.zero_le _⟩
      rw [if_pos (List.isPrefixOf_iff_prefix.mpr hp), Option.some.injEq]
      exact ⟨fun h => h ▸ hleast, hleast.unique⟩
    rw [if_neg (mt List.isPrefixOf_iff_prefix.mp hp)]
    cases k with
    | zero => exact ⟨by simp, fun h => absurd h.1 hp⟩
    | succ k =>
      simp only [Option.map_eq_some_iff, Nat.add_right_cancel_iff, exists_eq_right, ih]
      refine ⟨fun h => ⟨h.1, fun i hi => ?_⟩, fun h => ⟨h.1, fun i hi => ?_⟩⟩
      · cases i with
        | zero => exact absurd hi hp
        | succ i => exact Nat.succ_le_succ (h.2 hi)
      · exact Nat.le_of_succ_le_succ (h.2 (show i + 1 ∈ {i | p <+: (c :: r).drop i} from hi))

end Bytes

/-- What follows a token of a well-formed text is well formed. -/
theorem isValid_drop_of_scanToken {c : UInt8} {r : Bytes} {kind : TokenKind} {extra : Nat}
    (h : scanToken c r = .ok (kind, extra)) (hvalid : Utf8.isValid (c :: r) = true) :
    Utf8.isValid (r.drop extra) = true := by
  have hascii (hc : c.toNat < 0x80) : Utf8.isValid r = true := Utf8.isValid_of_ascii_cons hc hvalid
  have hone {d : UInt8} (hc : c.toNat < 0x80) (hd : d.toNat < 0x80) (hr : r.headD 0 = d) :
      Utf8.isValid (r.drop 1) = true := by
    cases r with
    | nil => rfl
    | cons x r =>
      obtain rfl : x = d := hr
      exact Utf8.isValid_of_ascii_cons hd (hascii hc)
  -- all but a blank end behind an ASCII octet or in front of one
  cases scannedAs h with
  | sigil hc => exact hascii (ascii_of_ofSigil? hc)
  | blanks hc =>
    exact Scan.whole_blanks 1 r (hascii (by rcases hc with rfl | rfl <;> decide))
  | doubleColon hc hr => exact hone (hc ▸ by decide) (by decide) hr
  | arrow hc hr => exact hone (hc ▸ by decide) (by decide) hr
  | carriageReturn hc hr => exact hone (hc ▸ by decide) (by decide) hr
  | comment hc =>
    -- a comment ends in front of an octet that ends a line
    have hvalid := hascii (hc ▸ by decide)
    have hbegins : Utf8.Begins (r.dropWhile fun c => c != 0x0A && c != 0x0D) := by
      have hnot := List.head?_dropWhile_not (fun c => c != 0x0A && c != 0x0D) r
      cases hd : r.dropWhile fun c => c != 0x0A && c != 0x0D with
      | nil => exact Utf8.begins_nil
      | cons d z =>
        refine Utf8.begins_of_ascii ?_ z
        rw [hd, List.head?_cons] at hnot
        by_cases hd : d = 0x0A
        · exact hd ▸ by decide
        · obtain rfl : d = 0x0D := by simpa [hd] using hnot
          decide
    rw [Scan.drop_run]
    rw [← List.takeWhile_append_dropWhile (p := fun c => c != 0x0A && c != 0x0D) (l := r),
      Utf8.isValid_append hbegins, Bool.and_eq_true] at hvalid
    exact hvalid.2
  | @blockComment hc n hindex =>
    -- a block comment ends behind its slash
    obtain ⟨z, hz⟩ := (Bytes.indexOf?_eq_some_iff.mp hindex).1
    rw [List.drop_drop] at hz
    have hr : r = (r.take (1 + n) ++ [0x2A]) ++ 0x2F :: z := by
      conv_lhs => rw [← List.take_append_drop (1 + n) r, ← hz]
      rw [List.append_assoc]
      rfl
    have hdrop : r.drop (n + 3) = z := by
      rw [show n + 3 = (1 + n) + 2 by omega, ← List.drop_drop, ← hz]
      rfl
    rw [hdrop]
    exact Utf8.isValid_of_append (by decide) (hr ▸ hascii (hc ▸ by decide))
  | text hc h =>
    -- a text ends behind the mark it began with
    have hmark := Scan.getElem?_of_textEnd h
    have hle := Scan.le_of_textEnd h
    have hascii' : c.toNat < 0x80 := by rcases hc with rfl | rfl <;> decide
    have hr : r = r.take (extra - 1) ++ c :: r.drop extra := by
      conv_lhs => rw [← List.take_append_drop (extra - 1) r]
      rw [List.drop_eq_getElem?_toList_append, hmark, show extra - 1 + 1 = extra by omega]
      rfl
    exact Utf8.isValid_of_append hascii' (hr ▸ hascii hascii')
  | number hc h =>
    refine Utf8.whole_of_plain (Scan.plain_number h) (hascii ?_)
    rcases hc with rfl | hc
    · decide
    · exact ascii_of_isDigit hc
  | ident hc =>
    refine Utf8.whole_of_plain (Scan.plain_run (fun _ h => h) r) (hascii ?_)
    rcases hc with rfl | hc
    · decide
    · exact (Scan.plain_of_isWord (by simp [Bytes.isWord, hc])).1
  | other h =>
    -- a blank of several octets is taken whole
    have hwhole := Scan.whole_blanks 0 (c :: r) hvalid
    rwa [Nat.sub_zero, Scan.blanks_of_other h, List.drop_succ_cons] at hwhole

/-! ## §4 Positions along a source -/

theorem Utf8.Begins.take {b : Bytes} (h : Utf8.Begins b) (n : Nat) : Utf8.Begins (b.take n) := by
  intro a ha
  cases n with
  | zero => simp at ha
  | succ n => exact h a (by simpa [List.head?_take] using ha)

/-- The position of a later offset is found by advancing over the octets in between. -/
theorem Pos.ofOffset_add {src : Bytes} {n : Nat} (h : Utf8.Begins (src.drop n)) (k : Nat) :
    ofOffset src (n + k) = (ofOffset src n).advance ((src.drop n).take k) := by
  rw [ofOffset, List.take_add, advance_append (h.take k)]
  rfl

end Idl

namespace Idl

/-! ## §5 How far a position goes -/

/-- There are no more glyphs than octets. -/
theorem Utf8.count_le (b : Bytes) : Utf8.count b ≤ b.length := by
  induction hn : b.length using Nat.strong_induction_on generalizing b with
  | _ n ih =>
    subst hn
    cases b with
    | nil => exact Nat.zero_le _
    | cons a r =>
      rw [count, glyphs_cons, List.length_cons, List.length_cons]
      have hrest := ih (r.drop (first a r).2).length
        (by simp only [List.length_drop, List.length_cons]; omega) _ rfl
      rw [count, List.length_drop] at hrest
      omega

namespace Pos

/-- The position can be reached over a number of octets. -/
structure Within (n : Nat) (p : Pos) : Prop where
  line : p.line ≤ 1 + n
  col : p.col ≤ 1 + n

theorem within_start : start.Within 0 := ⟨le_rfl, le_rfl⟩

theorem Within.mono {m n : Nat} {p : Pos} (h : p.Within m) (hle : m ≤ n) : p.Within n :=
  ⟨by have := h.line; omega, by have := h.col; omega⟩

/-- A position stays within the bytes read when a text is read. -/
theorem Within.advance {n : Nat} {p : Pos} (h : p.Within n) (text : Bytes) :
    (p.advance text).Within (n + text.length) := by
  obtain ⟨hline, hcol⟩ := h
  unfold Pos.advance
  dsimp only
  -- a text without a line break moves the column, one with a break moves the line
  split
  · have hcount := Utf8.count_le text
    exact ⟨by dsimp only; omega, by dsimp only; omega⟩
  · have hbreaks : text.count 0x0A ≤ text.length := List.count_le_length
    have hcount := Utf8.count_le (text.reverse.takeWhile (· != 0x0A)).reverse
    have hlast : (text.reverse.takeWhile (· != 0x0A)).length ≤ text.length := by
      simpa using (text.reverse.takeWhile_prefix (· != 0x0A)).length_le
    rw [List.length_reverse] at hcount
    exact ⟨by dsimp only; omega, by dsimp only; omega⟩

end Pos

/-! ## §6 How far the tokens of a source go -/

/-- The reader keeps the positions within the octets that it has seen. -/
theorem lexFrom_within {skip start n : Nat} {pos : Pos} {line : AnnotLine} {acc : List Token}
    {b : Bytes} (hacc : ∀ t ∈ acc, t.pos.Within n) (hpos : pos.Within start)
    (hn : start + (b.drop skip).length ≤ n) :
    (∀ t ∈ (lexFrom skip start pos line acc b).tokens, t.pos.Within n)
      ∧ ∀ e, (lexFrom skip start pos line acc b).ending = .ok e → e.pos.Within n := by
  fun_induction lexFrom skip start pos line acc b with
  | case1 skip start pos line acc =>
    refine ⟨by simpa using hacc, fun e he => ?_⟩
    cases he
    exact hpos.mono (by omega)
  | case2 start pos line acc c r k ih => exact ih hacc hpos (by simpa using hn)
  | case3 => exact ⟨by simpa using hacc, fun e he => by cases he⟩
  | case4 => exact ⟨by simpa using hacc, fun e he => by cases he⟩
  | case5 start pos line acc c r kind extra hscan text line' hline ih =>
    have hlength : text.length + (r.drop extra).length = (c :: r).length := by
      simp only [text, List.length_cons, List.length_take, List.length_drop]
      omega
    rw [List.drop_zero] at hn
    -- the token stands where its text begins, and the next one behind it
    exact ih (List.forall_mem_cons.mpr ⟨hpos.mono (by omega), hacc⟩) (hpos.advance text) (by omega)

/-- The positions in a source go no further than its octets. -/
theorem within_of_lex {src : Bytes} {l : Lexed} (h : lex src = .ok l) :
    (∀ t ∈ l.tokens, t.pos.Within src.length)
      ∧ ∀ e, l.ending = .ok e → e.pos.Within src.length := by
  unfold lex at h
  split at h
  · cases h
  · split at h
    · cases h
    · cases h
      exact lexFrom_within nofun Pos.within_start (by simp)

end Idl
