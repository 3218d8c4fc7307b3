import Idl.Proofs.Compile.Constants
import Idl.Proofs.Grammar.Surroundings
import Idl.Proofs.Integers
import Idl.Proofs.Proto.Scopes
import Idl.Proofs.Spelling.Coverage
import Idl.Proofs.Text.Pieces
import Idl.Proofs.Token.Numbers

/-!
# How constants are cut

What is written for a constant is read as one token, or as words with dots between them. A whole
number is written like a decimal literal, and a finite number as a numeral. A numeral with neither a
point nor an exponent is a literal of a whole number, though, and the notation for constants writes
small whole numbers without either.

A text is written between quotes, with the escapes of the host and not those of the language. The
host escapes a character beyond ASCII that cannot be printed by its number, which the language does
not know. All other escapes are read as what they stand for.

* §1 words and numbers, §2 the texts of numbers, §3 texts between quotes.
-/

namespace Idl

open Proto (isIdentifier)

/-! ## §1 Words and numbers -/

section

variable {c : UInt8} {t z : Bytes}

/-- A name in front of what cannot be part of it. -/
theorem scanToken_of_isIdentifier (h : isIdentifier (c :: t) = true)
    (hsize : t.length + 1 ≤ maxTokenSize) (hz : ∀ d ∈ z.head?, Bytes.isWord d = false) :
    scanToken c (t ++ z) = .ok (.ident, t.length) := by
  have hwords := List.forall_mem_cons.mp (Proto.isWord_of_isIdentifier h)
  -- a name does not begin with a digit, so no number is scanned
  have hdigit : ¬ Bytes.isDigit c = true := by
    have hfirst := (Bool.and_eq_true_iff.mp h).1
    simp only [Bytes.isLetter, Bytes.isDigit, Bool.or_eq_true, Bool.and_eq_true, decide_eq_true_eq,
      beq_iff_eq, UInt8.le_iff_toNat_le, ← UInt8.toNat_inj, UInt8.reduceToNat] at hfirst ⊢
    omega
  rw [scanToken_of_isWord hwords.1, if_neg hdigit, Scan.run_eq hwords.2 hz, Scan.token,
    if_neg (by omega)]
  simp

end

namespace Numeral

/-- No zero stands in front of another digit, which would be the mark of another base. -/
def Unpadded (k : Numeral) : Prop := k.whole.head? = some 0x30 → k.whole = [0x30]

/-- The kind of a numeral: a whole number has neither a point nor an exponent. -/
def kind (k : Numeral) : TokenKind :=
  if k.fraction = [] ∧ k.exponent = [] then .intLit else .floatLit

/-- The text of a numeral without its sign. -/
def magnitude (k : Numeral) : Bytes := k.whole
  ++ ((if k.fraction = [] then [] else 0x2E :: k.fraction)
  ++ (if k.exponent = [] then [] else 0x65 :: (if k.expNegative then 0x2D else 0x2B) :: k.exponent))

theorem text_eq (k : Numeral) : k.text = (if k.negative then [0x2D] else []) ++ k.magnitude := rfl

theorem kind_eq_intLit_iff_nil {k : Numeral} :
    k.kind = .intLit ↔ k.fraction = [] ∧ k.exponent = [] := by
  rw [kind]
  split
  · next h => exact ⟨fun _ => h, fun _ => rfl⟩
  · next h => exact ⟨fun heq => absurd heq (by decide), fun hnil => absurd hnil h⟩

theorem kind_eq_floatLit {k : Numeral} (h : k.kind ≠ .intLit) : k.kind = .floatLit :=
  if_neg (mt kind_eq_intLit_iff_nil.mpr h)

theorem magnitude_eq_whole {k : Numeral} (h : k.kind = .intLit) : k.magnitude = k.whole := by
  obtain ⟨hfraction, hexponent⟩ := kind_eq_intLit_iff_nil.mp h
  rw [magnitude, hfraction, hexponent, if_pos rfl, if_pos rfl, List.append_nil, List.append_nil]

/-- The text of a numeral is one of the numerals of the language. -/
theorem written_text (k : Numeral) (hk : k.Proper) (hunpadded : k.Unpadded) :
    Number.Written k.kind k.text := by
  have hwhole : Integer.Magnitude .intLit k.whole _ := .decimal hk.whole_ne_nil
    (fun c hc => Integer.isDigitOf_of_isDigit (hk.whole c hc)) hunpadded
  have hmagnitude : Number.Unsigned k.kind k.magnitude := by
    -- without a fraction and an exponent it is an integer
    by_cases hkind : k.kind = .intLit
    · rw [hkind, magnitude_eq_whole hkind]
      exact .whole hwhole
    rw [kind_eq_floatLit hkind]
    refine .real hwhole ?_ ?_ ?_
    · split
      · exact .inl rfl
      · next hne => exact .inr ⟨k.fraction, rfl, hne, hk.fraction⟩
    · -- the exponent has its sign always
      split
      · exact .inl rfl
      · next hne =>
        refine .inr ⟨0x65, [if k.expNegative then 0x2D else 0x2B], k.exponent, rfl, by decide, ?_,
          hne, hk.exponent⟩
        cases k.expNegative <;> decide
    · rw [kind_eq_intLit_iff_nil] at hkind
      by_cases hfraction : k.fraction = []
      · have hexponent : k.exponent ≠ [] := fun h => hkind ⟨hfraction, h⟩
        simp [hexponent]
      · simp [hfraction]
  rw [text_eq]
  split
  · exact .minus hmagnitude
  · exact .plain hmagnitude

end Numeral

/-- A numeral is the token in front of what ends a number. -/
theorem scanToken_text {k : Numeral} {c : UInt8} {t z : Bytes} (hk : k.Proper)
    (hunpadded : k.Unpadded) (htext : k.text = c :: t) (hsize : k.text.length ≤ maxTokenSize)
    (hz : Scan.Ends z) : scanToken c (t ++ z) = .ok (k.kind, t.length) := by
  have hwritten := k.written_text hk hunpadded
  rw [htext] at hwritten hsize
  exact scanToken_of_written hwritten hsize hz

/-! ## §2 The texts of numbers -/

theorem Bytes.head?_ofNat {n : Nat} (h : 0 < n) : (ofNat n).head? ≠ some 0x30 := by
  intro hzero
  obtain ⟨r, hr⟩ := List.head?_eq_some_iff.mp hzero
  have hvalue := toNat_ofNat n
  rw [hr, eq_nil_of_ofNat_eq_zero_cons hr] at hvalue
  have hnil : toNat 10 [0x30] = 0 := by decide
  omega

/-- A whole number is written as a numeral. -/
theorem Bytes.exists_text_eq_ofInt (n : Int) : ∃ k : Numeral, k.Proper ∧ k.Unpadded
    ∧ k.kind = .intLit ∧ k.text = ofInt n := by
  -- the digits of a number do not begin with zero, unless that is all
  have hof (negative : Bool) (m : Nat) : Numeral.Proper ⟨negative, ofNat m, [], false, []⟩
      ∧ Numeral.Unpadded ⟨negative, ofNat m, [], false, []⟩ := by
    refine ⟨⟨ofNat_ne_nil m, fun b hb => isDigit_of_mem_ofNat hb, nofun, nofun, fun _ => rfl⟩,
      fun hzero => ?_⟩
    obtain ⟨r, hr⟩ := List.head?_eq_some_iff.mp hzero
    change ofNat m = _ at hr ⊢
    rw [hr, eq_nil_of_ofNat_eq_zero_cons hr]
  cases n with
  | ofNat m => exact ⟨_, (hof false m).1, (hof false m).2, rfl, List.append_nil _⟩
  | negSucc m =>
    exact ⟨_, (hof true (m + 1)).1, (hof true (m + 1)).2, rfl, congrArg _ (List.append_nil _)⟩

namespace FloatNotation

/-- The layout of a decimal does not begin with a zero in front of another digit. -/
theorem isDigit_of_layout (n : FloatNotation) {d : Decimal} (hd : 0 < d.digits) {c : UInt8}
    {r : Bytes} (h : n.layout d = 0x30 :: c :: r) : Bytes.isDigit c = false := by
  have hhead := Bytes.head?_ofNat hd
  have hne := Bytes.ofNat_ne_nil d.digits
  unfold layout at h
  dsimp only at h
  generalize Bytes.ofNat d.digits = digits at *
  obtain ⟨a, w, rfl⟩ := List.exists_cons_of_ne_nil hne
  -- the digits do not begin with zero, so a zero in front is the one before the point
  have ha : a ≠ 0x30 := by simpa using hhead
  split at h
  · split at h
    · exact absurd (List.cons.inj h).1 ha
    · split at h
      · next hlead =>
        obtain ⟨m, hm⟩ : ∃ m, (d.exp + ((a :: w).length : Int) - 1 + 1).toNat = m + 1 :=
          ⟨_, (Nat.succ_pred_eq_of_pos (by omega)).symm⟩
        rw [hm] at h
        exact absurd (List.cons.inj h).1 ha
      · have hpoint : (0x2E : UInt8) = c := (List.cons.inj (List.cons.inj h).2).1
        rw [← hpoint]
        decide
  · exact absurd (List.cons.inj h).1 ha

/-- A layout without point and exponent is short. -/
theorem length_layout_le (n : FloatNotation) {d : Decimal}
    (h : ∀ b ∈ n.layout d, Bytes.isDigit b = true) :
    ((n.layout d).length : Int) ≤ n.plainBelow := by
  unfold layout at h ⊢
  dsimp only at h ⊢
  -- a point or an exponent would be no digit
  have hnot {x : UInt8} (hx : Bytes.isDigit x = false) {p q : Bytes}
      (h : ∀ b ∈ p ++ x :: q, Bytes.isDigit b = true) : False := by
    have := h x (by simp)
    rw [hx] at this
    cases this
  split at h
  · next hplain =>
    rw [if_pos hplain]
    simp only [Bool.and_eq_true, decide_eq_true_eq] at hplain
    split at h
    · next hexp =>
      rw [if_pos hexp, List.length_append, List.length_replicate]
      omega
    · split at h
      · rw [List.append_assoc] at h
        exact (hnot (x := 0x2E) (by decide) h).elim
      · exact (hnot (x := 0x2E) (p := [0x30]) (by decide) h).elim
  · rw [List.append_assoc, List.append_assoc] at h
    exact (hnot (x := 0x65) (by decide) h).elim

end FloatNotation

namespace Binary64

variable {x : Binary64}

/-- A finite number is written as a numeral. If it is written without point and exponent, it has at
most six digits. -/
theorem exists_numeral {negative narrow : Bool} {m : Nat} {q : Int}
    (h : x.classify = .finite negative m q narrow) : ∃ k : Numeral, k.Proper ∧ k.Unpadded
      ∧ k.text = x.render ∧ (k.kind = .intLit → k.magnitude.length ≤ 6) := by
  obtain ⟨-, hfinite, hrep⟩ := FloatFormat.classify_eq_finite x.bits_lt h
  obtain ⟨k, hk, hnegative, htext, -⟩ := FloatNotation.constant.exists_text_eq_render
    FloatFormat.double_moderate hrep hfinite negative
  -- zero is a single digit, anything else the layout of its shortest decimal
  have hmagnitude : m = 0 ∧ k.magnitude = [0x30]
      ∨ 0 < m ∧ k.magnitude = FloatNotation.constant.layout (Decimal.shortest m q narrow) := by
    have hsign : (if negative then [0x2D] else [] : Bytes)
        = if negative then ("-" : Bytes) else [] := by cases negative <;> rfl
    rw [Numeral.text_eq, hnegative, hsign, FloatNotation.render] at htext
    by_cases hm : m = 0
    · simp only [hm, beq_self_eq_true, if_true] at htext
      exact .inl ⟨hm, List.append_cancel_left htext⟩
    · simp only [beq_iff_eq, hm, if_false] at htext
      exact .inr ⟨Nat.pos_of_ne_zero hm, List.append_cancel_left htext⟩
  refine ⟨k, hk, fun hzero => ?_, by rw [htext, render, h], fun hkind => ?_⟩
  -- behind a zero in front stands the point, and no other digit
  · obtain ⟨w, hw⟩ := List.head?_eq_some_iff.mp hzero
    cases w with
    | nil => exact hw
    | cons c w =>
      have hdigit : Bytes.isDigit c = true := hk.whole c (by simp [hw])
      rw [Numeral.magnitude, hw] at hmagnitude
      rcases hmagnitude with ⟨-, hzero⟩ | ⟨hm, hlayout⟩
      · simp at hzero
      · obtain ⟨hlow, -⟩ := hrep.value_bounds FloatFormat.double_moderate hm hfinite
          (Decimal.nearest_shortest hm q narrow)
        have hdigits := Decimal.digits_pos (lt_trans (by positivity) hlow)
        have hpoint := FloatNotation.isDigit_of_layout _ hdigits hlayout.symm
        rw [hdigit] at hpoint
        cases hpoint
  -- with neither point nor exponent the number is below the limit for plain ones
  · have hwhole := Numeral.magnitude_eq_whole hkind
    rcases hmagnitude with ⟨-, hzero⟩ | ⟨-, hlayout⟩
    · rw [hzero]
      decide
    · have hlength := FloatNotation.length_layout_le .constant (hlayout ▸ hwhole ▸ hk.whole)
      rw [← hlayout] at hlength
      have hbelow : FloatNotation.constant.plainBelow = 6 := rfl
      omega

end Binary64

/-! ## §3 Texts between quotes -/

namespace Quote

open Quoted (Piece piece_sign piece_hex piece_ofChar piece_plain TakesMany)

/-- Whether a glyph is written as an escape that the language does not have: that of a character by
its number. -/
def Hidden : Glyph → Prop
  | .char c => 0x80 ≤ c.toNat ∧ isPrintable c = false
  | .stray _ => False

instance (g : Glyph) : Decidable (Hidden g) :=
  match g with
  | .char c => inferInstanceAs (Decidable (0x80 ≤ c.toNat ∧ isPrintable c = false))
  | .stray _ => inferInstanceAs (Decidable False)

theorem piece_hexDigits {n : Nat} (hn : n < 0x100) :
    Piece (0x5C :: 0x78 :: Bytes.hexDigits 2 n) [UInt8.ofNat n] := by
  refine piece_hex (Bytes.length_hexDigits 2 n) (fun d => Bytes.isHexDigit_of_mem_hexDigits) ?_
  rw [Utf8.toNat_octet hn, Bytes.toNat_hexDigits, Nat.mod_eq_of_lt hn]

/-- A character with a short escape is a piece of a text. -/
theorem piece_shortEscape {c : Char} {t : Bytes} (h : shortEscape? c = some t) :
    Piece t (Utf8.ofChar c) := by
  -- all of them are ASCII
  have hoctets (hc : c.toNat < 0x80) : Utf8.ofChar c = [UInt8.ofNat c.toNat] := by
    rcases Utf8.ofChar_cases c with ⟨-, hoctets⟩ | ⟨hlow, -⟩
    · exact hoctets
    · omega
  unfold shortEscape? at h
  split at h
  all_goals
    next hc =>
    cases h
    try rw [hoctets (by omega), hc]
    try exact piece_sign (by decide)

/-- What is written for a glyph denotes its octets, if the language has the escape. -/
theorem piece_glyph {g : Glyph} (h : ¬ Hidden g) : Piece (glyph g) g.octets := by
  cases g with
  | stray b =>
    -- a stray octet is written as two hexadecimal digits
    have hhex : Bytes.hex2 b = Bytes.hexDigits 2 b.toNat := by
      have hhigh : b.toNat / 16 % 16 = b.toNat / 16 :=
        Nat.mod_eq_of_lt (by have := b.toNat_lt; omega)
      simp [Bytes.hex2, Bytes.hexDigits, hhigh]
    have hpiece := piece_hexDigits b.toNat_lt
    rw [UInt8.ofNat_toNat, ← hhex] at hpiece
    exact hpiece
  | char c =>
    unfold glyph
    dsimp only [Glyph.octets]
    split
    · next hmark =>
      simp only [Bool.or_eq_true, beq_iff_eq] at hmark
      rcases hmark with rfl | rfl
      · exact piece_sign (c := 0x22) (by decide)
      · exact piece_sign (c := 0x5C) (by decide)
    next hmark =>
    split
    · next hprintable =>
      simp only [Bool.or_eq_true, beq_iff_eq, not_or] at hmark
      obtain ⟨hlow, hdel⟩ := toNat_of_isPrintable hprintable
      exact piece_ofChar hlow hdel hmark.1 hmark.2
    next hprintable =>
    cases hshort : shortEscape? c with
    | some t => exact piece_shortEscape hshort
    | none =>
      -- what is left is a control character: a shown one is printable, a high one would hide
      have hascii : c.toNat < 0x80 := by
        by_contra hhigh
        exact h ⟨by omega, by simpa using hprintable⟩
      have hcontrol : c.toNat < 0x20 ∨ c.toNat = 0x7F := by
        by_contra hshown
        refine hprintable (List.any_eq_true.mpr ⟨(0x20, 0x7E), List.mem_cons_self, ?_⟩)
        simp only [Bool.and_eq_true, decide_eq_true_eq]
        omega
      have hnumeric : numericEscape c = 0x5C :: 0x78 :: Bytes.hexDigits 2 c.toNat := by
        rw [numericEscape, if_pos (by simpa using hcontrol)]
        rfl
      rcases Utf8.ofChar_cases c with ⟨-, hoctets⟩ | ⟨hlow, -⟩
      · rw [Option.getD_none, hnumeric, hoctets]
        exact piece_hexDigits (by omega)
      · omega

/-- What is written for the other glyphs. -/
theorem exists_glyph_eq {g : Glyph} (h : Hidden g) : ∃ mark ds, glyph g = 0x5C :: mark :: ds
    ∧ (mark = 0x75 ∨ mark = 0x55) ∧ ∀ d ∈ ds, Bytes.isHexDigit d = true := by
  cases g with
  | stray b => exact h.elim
  | char c =>
    obtain ⟨hhigh, hprintable⟩ := h
    -- a hidden character is high, so none of the short escapes is for it
    have hmark : ¬ (c == '"' || c == '\\') = true := by
      simp only [Bool.or_eq_true, beq_iff_eq]
      rintro (rfl | rfl) <;> exact absurd hhigh (by decide)
    have hshort : shortEscape? c = none := by
      unfold shortEscape?
      split <;> first | omega | rfl
    unfold glyph
    dsimp only
    rw [if_neg hmark, hprintable, if_neg Bool.false_ne_true, hshort, Option.getD_none,
      numericEscape]
    have hcontrol : ¬ (c.toNat < 0x20 || c.toNat == 0x7F) = true := by
      simp only [Bool.or_eq_true, decide_eq_true_eq, beq_iff_eq]
      omega
    rw [if_neg hcontrol]
    split
    · exact ⟨0x75, _, rfl, .inl rfl, fun d => Bytes.isHexDigit_of_mem_hexDigits⟩
    · exact ⟨0x55, _, rfl, .inr rfl, fun d => Bytes.isHexDigit_of_mem_hexDigits⟩

/-- The scan for the end of a literal goes over what is written for a glyph. -/
theorem textEnd_glyph (g : Glyph) (n : Nat) (r : Bytes) :
    Scan.textEnd 0x22 n false (glyph g ++ r)
      = Scan.textEnd 0x22 (n + (glyph g).length) false r := by
  by_cases h : Hidden g
  · obtain ⟨mark, ds, hglyph, -, hds⟩ := exists_glyph_eq h
    -- the digits of the escape are passed one by one
    have hdigits (n : Nat) : Scan.textEnd 0x22 n false (ds ++ r)
        = Scan.textEnd 0x22 (n + ds.length) false r := by
      clear hglyph
      induction ds generalizing n with
      | nil => rfl
      | cons d ds ih =>
        obtain ⟨hd, hds⟩ := List.forall_mem_cons.mp hds
        rw [List.cons_append, Quoted.textEnd_plain (Quoted.isPlain_of_isHexDigit hd), ih hds,
          List.length_cons, Nat.add_assoc, Nat.add_comm 1]
    rw [hglyph]
    change Scan.textEnd 0x22 (n + 1 + 1) false (ds ++ r) = _
    rw [hdigits, List.length_cons, List.length_cons, Nat.add_assoc n, Nat.add_assoc n,
      Nat.add_comm (1 + 1)]
  · exact (piece_glyph h).inside n r

/-- Every glyph is written in valid text. -/
theorem isValid_glyph (g : Glyph) : Utf8.isValid (glyph g) = true := by
  by_cases h : Hidden g
  · -- a glyph that is not shown is written in hexadecimal digits
    obtain ⟨mark, ds, hglyph, hmark, hds⟩ := exists_glyph_eq h
    rw [hglyph]
    refine Utf8.isValid_of_ascii (List.forall_mem_cons.mpr ⟨by decide,
      List.forall_mem_cons.mpr ⟨?_, fun d hd => ?_⟩⟩)
    · rcases hmark with rfl | rfl <;> decide
    · have hshown := Quoted.isPlain_of_isHexDigit (hds d hd)
      have h := hds d hd
      simp only [Bytes.isHexDigit, Bytes.isDigit, Bool.or_eq_true, Bool.and_eq_true,
        decide_eq_true_eq, UInt8.le_iff_toNat_le, UInt8.reduceToNat] at h
      omega
  · exact (piece_glyph h).valid

/-- Where a text has a glyph without an escape in the language, what is written for it has a bad
escape. -/
theorem not_hidden_of_takesMany {l : List Glyph} {v : Bytes}
    (h : TakesMany (l.flatMap glyph) v []) : ∀ g ∈ l, ¬ Hidden g := by
  induction l generalizing v with
  | nil => nofun
  | cons g l ih =>
    rw [List.flatMap_cons] at h
    -- the escape of a hidden character is none of the language
    have hg : ¬ Hidden g := by
      intro hidden
      obtain ⟨mark, ds, hglyph, hmark, -⟩ := exists_glyph_eq hidden
      rw [hglyph] at h
      cases h with
      | cons first rest =>
        obtain ⟨k, hk, -⟩ := first.exists_escape
        rcases hmark with rfl | rfl <;> cases hk
    refine List.forall_mem_cons.mpr ⟨hg, ?_⟩
    obtain ⟨u, hu, -⟩ := ((piece_glyph hg).units (l.flatMap glyph)).cancel h
    exact ih hu

end Quote

/-- Every text is the octets of its glyphs. -/
theorem Utf8.flatMap_octets (b : Bytes) : (glyphs b).flatMap Glyph.octets = b := by
  induction hn : b.length using Nat.strongRecOn generalizing b with
  | ind n ih =>
    cases b with
    | nil => rfl
    | cons a r =>
      rw [glyphs_cons, List.flatMap_cons]
      rcases first_cases a r with ⟨c, k, hfirst, hk, hoctets⟩ | hstray
      · have hrest := ih (r.drop k).length (by simp at hn ⊢; omega) _ rfl
        rw [hfirst, hrest, Glyph.octets, ← hoctets, List.cons_append, List.take_append_drop]
      · -- a stray octet stands for itself
        have hrest := ih r.length (by simp at hn ⊢; omega) _ rfl
        rw [hstray, List.drop_zero, hrest]
        rfl

/-- Whether a text is quoted with an escape that the language does not have. -/
def Bytes.Hidden (s : Bytes) : Prop := ∃ g ∈ Utf8.glyphs s, Quote.Hidden g

instance (s : Bytes) : Decidable s.Hidden :=
  inferInstanceAs (Decidable (∃ g ∈ Utf8.glyphs s, Quote.Hidden g))

section

variable {s : Bytes}

theorem quote_eq (s : Bytes) :
    quote s = Quoted.enclosed ((Utf8.glyphs s).flatMap Quote.glyph) := rfl

theorem isValid_quote (s : Bytes) : Utf8.isValid (quote s) = true := by
  have hbody (l : List Glyph) : Utf8.isValid (l.flatMap Quote.glyph) = true := by
    induction l with
    | nil => rfl
    | cons g l ih => exact Utf8.isValid_append_of (Quote.isValid_glyph g) ih
  exact Utf8.isValid_append_of (Utf8.isValid_append_of (by decide) (hbody _)) (by decide)

/-- A quoted text is one token, whatever follows. -/
theorem scanToken_quote (hsize : (quote s).length ≤ maxTokenSize) (z : Bytes) :
    ∃ t, quote s = 0x22 :: t ∧ scanToken 0x22 (t ++ z) = .ok (.textLit, t.length) := by
  -- every glyph is passed, whether it can be read back or not
  have hinside (l : List Glyph) (n : Nat) (r : Bytes) :
      Scan.textEnd 0x22 n false (l.flatMap Quote.glyph ++ r)
        = Scan.textEnd 0x22 (n + (l.flatMap Quote.glyph).length) false r := by
    induction l generalizing n with
    | nil => rfl
    | cons g l ih =>
      rw [List.flatMap_cons, List.append_assoc, Quote.textEnd_glyph, ih, List.length_append,
        Nat.add_assoc]
  rw [quote_eq, Quoted.length_enclosed] at hsize
  refine ⟨(Utf8.glyphs s).flatMap Quote.glyph ++ [0x22], rfl, scanToken_of_textEnd (.inl rfl) ?_⟩
  rw [List.append_assoc, hinside, List.singleton_append, Scan.textEnd,
    if_pos (beq_self_eq_true _), Scan.token, if_neg (by omega), List.length_append,
    List.length_singleton, Nat.add_sub_cancel, Nat.add_comm]

/-- A quoted text denotes itself, unless it needs an escape that the language does not have. -/
theorem textLitValue_quote_iff {v : Bytes} :
    textLitValue (quote s) = .ok v ↔ ¬ s.Hidden ∧ v = s := by
  -- without hidden characters each glyph reads back
  have hpiece (h : ¬ s.Hidden) : Quoted.Piece ((Utf8.glyphs s).flatMap Quote.glyph) s := by
    have hpieces := Quoted.Piece.flatMap (f := Quote.glyph) (g := Glyph.octets)
      fun g hg => Quote.piece_glyph fun hidden => h ⟨g, hg, hidden⟩
    rwa [Utf8.flatMap_octets] at hpieces
  rw [quote_eq]
  constructor
  · intro hv
    have hshown : ¬ s.Hidden := fun ⟨g, hg, hidden⟩ =>
      Quote.not_hidden_of_takesMany (Quoted.textLitValue_eq_ok_iff.mp hv) g hg hidden
    exact ⟨hshown, Except.ok.inj (hv.symm.trans (hpiece hshown).textLitValue)⟩
  · rintro ⟨hshown, rfl⟩
    exact (hpiece hshown).textLitValue

end

end Idl
