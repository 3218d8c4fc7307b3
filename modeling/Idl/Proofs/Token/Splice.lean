import Idl.Proofs.Text.Utf8
import Idl.Proofs.Token.Lexemes

/-!
# Another text literal in a source

A token that ends before a text literal does not depend on what the literal says: all that can be
seen of the literal from there is a quote. So a source in which a text literal is replaced is cut in
the same way in front of it and behind it. The same goes for what the sign of an annotation opens.

* §1 a quote ends every run, §2 numbers, §3 one token,
* §4 the words of a source, §5 replacing a literal, §6 words that are cut alone.
-/

namespace Idl

namespace Scan

/-! ## §1 Runs in front of a quote -/

/-- The octets that are part of no token in front of them: the quotes and the sign of annotations. -/
def walls : List UInt8 := [0x22, 0x27, 0x40]

/-- The octets begin with a quote or with the sign of an annotation. -/
def Walled (z : Bytes) : Prop := ∃ q y, z = q :: y ∧ q ∈ walls

variable {u z z' : Bytes}

theorem mem_walls {q : UInt8} : q ∈ walls ↔ q = 0x22 ∨ q = 0x27 ∨ q = 0x40 := by
  simp [walls]

/-- What holds of the three octets. -/
theorem forall_mem_walls {P : UInt8 → Prop} (hdouble : P 0x22) (hsingle : P 0x27) (hsign : P 0x40) :
    ∀ q ∈ walls, P q := by
  intro q hq
  rcases mem_walls.mp hq with rfl | rfl | rfl
  · exact hdouble
  · exact hsingle
  · exact hsign

theorem isDigit_of_mem_walls : ∀ q ∈ walls, Bytes.isDigit q = false :=
  forall_mem_walls rfl rfl rfl

theorem isWord_of_mem_walls : ∀ q ∈ walls, Bytes.isWord q = false := forall_mem_walls rfl rfl rfl

theorem mem_walls_of_quote {q : UInt8} (h : q = 0x22 ∨ q = 0x27) : q ∈ walls :=
  mem_walls.mpr (h.imp_right .inl)

/-- What is no quote stands in front of the quote. -/
theorem Walled.exists_of_append_eq_cons (hz : Walled z) {c : UInt8} {r : Bytes}
    (hc : c ∉ walls) (h : u ++ z = c :: r) : ∃ v, u = c :: v ∧ v ++ z = r := by
  obtain ⟨q, y, rfl, hq⟩ := hz
  rcases List.append_eq_cons_iff.mp h with ⟨rfl, h⟩ | ⟨v, rfl, rfl⟩
  · cases h
    exact absurd hq hc
  · exact ⟨v, rfl, rfl⟩

theorem run_append (p : UInt8 → Bool) (u z : Bytes) :
    run p (u ++ z) = if run p u = u.length then u.length + run p z else run p u := by
  unfold run
  rw [List.takeWhile_append]
  split <;> simp

/-- A run of what is no quote ends at a quote. -/
theorem run_append_walled {p : UInt8 → Bool} (hp : ∀ q ∈ walls, p q = false) (hz : Walled z)
    (u : Bytes) : run p (u ++ z) = run p u := by
  have hzero : run p z = 0 := by
    obtain ⟨q, y, rfl, hq⟩ := hz
    simp [run, hp q hq]
  rw [run_append, hzero]
  split
  · next h => rw [h, Nat.add_zero]
  · rfl

/-- A run that a quote would lengthen, but that ends before it, does not depend on it. -/
theorem run_append_of_le {p : UInt8 → Bool} (hp : ∀ q ∈ walls, p q = true) (hz : Walled z)
    (h : run p (u ++ z) ≤ u.length) (z' : Bytes) : run p (u ++ z') = run p (u ++ z) := by
  have hpos : 0 < run p z := by
    obtain ⟨q, y, rfl, hq⟩ := hz
    simp [run, hp q hq]
  rw [run_append] at h ⊢
  rw [run_append]
  split at h
  · omega
  · next hne => rw [if_neg hne, if_neg hne]

/-- Blanks end at a quote. -/
theorem blanks_append (hz : Walled z) (n : Nat) (u : Bytes) :
    blanks n (u ++ z) = blanks n u := by
  -- Along the blanks; the last case is the byte that stops them, which what is appended cannot
  -- complete.
  fun_induction blanks n u with
  | case1 n r ih => rw [List.cons_append, blanks, ih]
  | case2 n r ih => rw [List.cons_append, blanks, ih]
  | case3 n r ih => rw [List.cons_append, List.cons_append, blanks, ih]
  | case4 n r ih => rw [List.cons_append, List.cons_append, List.cons_append, blanks, ih]
  | case5 u n h1 h2 h3 h4 =>
    unfold blanks
    split
    · next r heq =>
      obtain ⟨u, rfl, -⟩ := hz.exists_of_append_eq_cons (by decide) heq
      exact absurd rfl (h1 u)
    · next r heq =>
      obtain ⟨u, rfl, -⟩ := hz.exists_of_append_eq_cons (by decide) heq
      exact absurd rfl (h2 u)
    · next r heq =>
      obtain ⟨u, rfl, hr⟩ := hz.exists_of_append_eq_cons (by decide) heq
      obtain ⟨v, rfl, -⟩ := hz.exists_of_append_eq_cons (by decide) hr
      exact absurd rfl (h3 v)
    · next r heq =>
      obtain ⟨u, rfl, hr⟩ := hz.exists_of_append_eq_cons (by decide) heq
      obtain ⟨v, rfl, hv⟩ := hz.exists_of_append_eq_cons (by decide) hr
      obtain ⟨w, rfl, -⟩ := hz.exists_of_append_eq_cons (by decide) hv
      exact absurd rfl (h4 w)
    · rfl

/-- The search for a mark of two octets that are no quotes, the end of which lies before a quote. -/
theorem indexOf?_go_append {m m' : UInt8} (hm : m' ∉ walls) (hz' : Walled z')
    {n k : Nat} (h : Bytes.indexOf?.go [m, m'] n (u ++ z) = some k) (hk : k + 2 ≤ n + u.length) :
    Bytes.indexOf?.go [m, m'] n (u ++ z') = some k := by
  induction u generalizing n with
  | nil =>
    have hle (b : Bytes) (n : Nat) (h : Bytes.indexOf?.go [m, m'] n b = some k) : n ≤ k := by
      fun_induction Bytes.indexOf?.go [m, m'] n b with
      | case1 n hempty => simp at hempty
      | case2 => simp at h
      | case3 n c r hc => cases h; exact le_rfl
      | case4 n c r hc ih => have := ih h; omega
    have := hle _ _ h
    simp only [List.length_nil] at hk
    omega
  | cons c u ih =>
    rw [List.cons_append, Bytes.indexOf?.go] at h ⊢
    rw [List.length_cons] at hk
    cases u with
    | nil =>
      -- the mark cannot end in what follows
      obtain ⟨q, y, rfl, hq⟩ := hz'
      split at h
      · cases h
        simp at hk
      · have := ih h (by omega)
        rw [if_neg, this]
        grind
    | cons d u =>
      simp only [List.cons_append, List.isPrefixOf_cons_cons, List.isPrefixOf_nil_left,
        Bool.and_true] at h ⊢
      split at h
      · next hc =>
        rw [if_pos hc]
        exact h
      · next hc =>
        rw [if_neg hc]
        exact ih h (by omega)

/-! ## §2 Numbers in front of a quote -/

/-- What stands behind a wall does not change the radix. -/
theorem radix_append (hz : Walled z) (b : Bytes) : radix (b ++ z) = radix b := by
  obtain ⟨q, y, rfl, hq⟩ := hz
  rcases b with _ | ⟨c, _ | ⟨d, r⟩⟩
  · -- no digit at all, so the wall is seen first
    rcases mem_walls.mp hq with rfl | rfl | rfl <;> rfl
  · by_cases hc : c = 0x30
    · subst hc
      rcases mem_walls.mp hq with rfl | rfl | rfl <;> rfl
    · simp [radix, hc]
  · by_cases hc : c = 0x30
    · subst hc
      rfl
    · simp [radix, hc]

theorem lead_le (b : Bytes) : (radix b).2.2 ≤ b.length := by
  unfold radix
  split
  · split
    · simp
    · split <;> simp
  · simp

theorem run_le (p : UInt8 → Bool) (b : Bytes) : run p b ≤ b.length :=
  (List.takeWhile_prefix p).length_le

/-- What stands behind a wall does not change the fraction. -/
theorem fraction_append (hz : Walled z) (b : Bytes) : fraction (b ++ z) = fraction b := by
  have hrun (r : Bytes) := run_append_walled isDigit_of_mem_walls hz r
  obtain ⟨q, y, rfl, hq⟩ := hz
  rcases b with _ | ⟨c, _ | ⟨d, r⟩⟩
  · -- no point at all, so the wall is seen first
    rcases mem_walls.mp hq with rfl | rfl | rfl <;> rfl
  · by_cases hc : c = 0x2E
    · subst hc
      rcases mem_walls.mp hq with rfl | rfl | rfl <;> rfl
    · simp [fraction, hc]
  · by_cases hc : c = 0x2E
    · subst hc
      simp only [List.cons_append, fraction, hrun]
    · simp [fraction, hc]

theorem fraction_le (b : Bytes) : fraction b ≤ b.length := by
  unfold fraction
  split
  · next c r =>
    have := run_le Bytes.isDigit r
    split <;> simp only [List.length_cons] <;> omega
  · omega

/-- An exponent is not continued by a quote or a line feed. -/
theorem exponent_append (hz : Walled z) (b : Bytes) : exponent (b ++ z) = exponent b := by
  have hrun (r : Bytes) := run_append_walled isDigit_of_mem_walls hz r
  obtain ⟨q, y, rfl, hq⟩ := hz
  -- nothing, a mark alone, a mark with something behind it
  rcases b with _ | ⟨c, _ | ⟨d, r⟩⟩
  · rcases mem_walls.mp hq with rfl | rfl | rfl <;> rfl
  · have hzero : run Bytes.isDigit (q :: y) = 0 := by
      rcases mem_walls.mp hq with rfl | rfl | rfl <;> rfl
    have hsign : (q == 0x2B || q == 0x2D) = false := by
      rcases mem_walls.mp hq with rfl | rfl | rfl <;> rfl
    simp [exponent, hsign, hzero]
    rfl
  · have hrun0 := hrun (d :: r)
    rw [List.cons_append] at hrun0
    simp only [List.cons_append, exponent]
    cases hsign : (d == 0x2B || d == 0x2D) <;> simp [hrun, hrun0]

/-- An exponent is not longer than what is left. -/
theorem exponent_le (b : Bytes) : (exponent b).1 ≤ b.length := by
  unfold exponent
  split
  · next c r =>
    split
    · -- the digits behind the mark, or behind the sign
      have h (n : Nat) := run_le Bytes.isDigit (r.drop n)
      simp only [List.length_drop] at h
      have h0 := h 0
      have h1 := h 1
      dsimp only
      split
      · split <;> simp_all <;> omega
      · simp_all
    · simp
  · simp

theorem unsigned_append (hz : Walled z) (b : Bytes) : unsigned (b ++ z) = unsigned b := by
  -- a quote is no digit of any base, so that all cuts fall inside `b`
  have hdigit : ∀ q ∈ walls, (radix b).2.1 q = false := by
    unfold radix
    split
    · split
      · exact forall_mem_walls rfl rfl rfl
      · split
        · exact forall_mem_walls rfl rfl rfl
        · exact isDigit_of_mem_walls
    · exact isDigit_of_mem_walls
  have hlead := lead_le b
  have hdrop {n : Nat} (hn : n ≤ b.length) : (b ++ z).drop n = b.drop n ++ z :=
    List.drop_append_of_le_length hn
  unfold unsigned
  rw [radix_append hz]
  generalize radix b = x at hdigit hlead
  obtain ⟨kind, isDigit, lead⟩ := x
  dsimp only at hdigit hlead ⊢
  rw [hdrop hlead, run_append_walled hdigit hz]
  have hrun := run_le isDigit (b.drop lead)
  rw [List.length_drop] at hrun
  generalize run isDigit (b.drop lead) = digits at hrun
  have hlength : lead + digits ≤ b.length := by omega
  have hfrac := fraction_le (b.drop (lead + digits))
  rw [List.length_drop] at hfrac
  have hexp := exponent_le (b.drop (lead + digits + fraction (b.drop (lead + digits))))
  rw [List.length_drop] at hexp
  rw [hdrop hlength, fraction_append hz, hdrop (by omega), exponent_append hz]
  split
  · rw [hdrop (by omega), run_append_walled isWord_of_mem_walls hz]
  · rw [hdrop hlength, run_append_walled isWord_of_mem_walls hz]

theorem number_append (hz : Walled z) (hz' : Walled z') {c : UInt8} {x : TokenKind × Nat}
    (h : number (c :: (u ++ z)) = .ok x) : number (c :: (u ++ z')) = .ok x := by
  -- a minus needs a digit behind it, and no wall is one
  by_cases hc : c = 0x2D
  · subst hc
    have hhead : (u ++ z').head?.any Bytes.isDigit = (u ++ z).head?.any Bytes.isDigit := by
      cases u with
      | nil =>
        obtain ⟨q, y, rfl, hq⟩ := hz
        obtain ⟨q', y', rfl, hq'⟩ := hz'
        exact (isDigit_of_mem_walls q' hq').trans (isDigit_of_mem_walls q hq).symm
      | cons d u => rfl
    have hminus (b : Bytes) : number (0x2D :: b) = if b.head?.any Bytes.isDigit = true then
        if (unsigned b).2.2 = true then token (unsigned b).1 (1 + (unsigned b).2.1)
        else .error ⟨.badNumber ((0x2D :: b).take (1 + (unsigned b).2.1)), 0, 1 + (unsigned b).2.1⟩
      else .error ⟨.badNumber "-", 0, 1⟩ := rfl
    rw [hminus, unsigned_append hz] at h
    rw [hminus, hhead, unsigned_append hz']
    split at h
    · split at h
      · next hdigit hok => rw [if_pos hdigit, if_pos hok, h]
      · cases h
    · cases h
  · have hplain (b : Bytes) : number (c :: b) = if (unsigned (c :: b)).2.2 = true then
        token (unsigned (c :: b)).1 (0 + (unsigned (c :: b)).2.1)
      else .error ⟨.badNumber ((c :: b).take (0 + (unsigned (c :: b)).2.1)), 0,
        0 + (unsigned (c :: b)).2.1⟩ := by
      unfold number
      split
      · next heq =>
        cases heq
        exact absurd rfl hc
      · rfl
    have hcons {z : Bytes} (hz : Walled z) : unsigned (c :: (u ++ z)) = unsigned (c :: u) :=
      unsigned_append hz (c :: u)
    rw [hplain, hcons hz] at h
    rw [hplain, hcons hz']
    split at h
    · next hok => rw [if_pos hok, h]
    · cases h

/-! ## §3 One token in front of a quote -/

/-- A text literal that ends before a place does not depend on what follows. -/
theorem textEnd_append {mark : UInt8} {n : Nat} {escaped : Bool} {x : TokenKind × Nat}
    (h : textEnd mark n escaped u = .ok x) (z : Bytes) :
    textEnd mark n escaped (u ++ z) = .ok x := by
  fun_induction textEnd mark n escaped u with
  | case1 => cases h
  | case2 n c r ih => exact ih h
  -- the closing mark is within the first part
  | case3 n c r hc => rw [List.cons_append, textEnd, if_pos hc, h]
  | case4 => cases h
  | case5 => cases h
  | case6 => cases h
  | case7 n c r hc hctl ih =>
    rw [List.cons_append, textEnd, if_neg hc, if_neg hctl]
    exact ih h

theorem le_of_textEnd {mark : UInt8} {n extra : Nat} {escaped : Bool} {k : TokenKind}
    (h : textEnd mark n escaped u = .ok (k, extra)) : n ≤ extra := by
  fun_induction textEnd mark n escaped u with
  | case1 => cases h
  | case2 n c r ih => have := ih h; omega
  | case3 n c r hc => have := (token_eq_ok h).2; omega
  | case4 => cases h
  | case5 => cases h
  | case6 => cases h
  | case7 n c r hc hctl ih => have := ih h; omega

/-- A text that ends before what is appended ends there. -/
theorem textEnd_of_append {mark : UInt8} {n extra : Nat} {escaped : Bool} {k : TokenKind}
    (h : textEnd mark n escaped (u ++ z) = .ok (k, extra)) (hextra : extra < n + u.length) :
    textEnd mark n escaped u = .ok (k, extra) := by
  induction u generalizing n escaped with
  | nil =>
    have := le_of_textEnd h
    simp only [List.length_nil] at hextra
    omega
  | cons c u ih =>
    rw [List.length_cons] at hextra
    rw [List.cons_append] at h
    cases escaped with
    -- behind a backslash any byte is passed over
    | true => exact ih h (by omega)
    | false =>
      rw [textEnd] at h ⊢
      split at h
      · next hc => rw [if_pos hc, h]
      · next hc =>
        rw [if_neg hc]
        split at h
        · split at h
          · cases h
          · split at h <;> cases h
        · next hctl =>
          rw [if_neg hctl]
          exact ih h (by omega)

/-- A quote is no part of a character of several octets. -/
theorem first_append (hz : Walled z) {c : UInt8} {x : Char} {n : Nat}
    (h : Utf8.first c (u ++ z) = (.char x, n)) (z' : Bytes) :
    Utf8.first c (u ++ z') = (.char x, n) := by
  rcases Utf8.first_cases c (u ++ z) with ⟨x', n', hfirst, hle, htake⟩ | hstray
  · rw [h] at hfirst
    cases hfirst
    -- the character would hold the wall, which is ASCII, while its other octets are not
    have hn : n ≤ u.length := by
      by_contra hlt
      obtain ⟨q, y, rfl, hq⟩ := hz
      have hmem : q ∈ c :: (u ++ q :: y).take n := by
        have htaken : u ++ [q] <+: (u ++ q :: y).take n := by
          rw [List.prefix_take_iff]
          exact ⟨⟨y, by simp⟩, by simp; omega⟩
        exact List.mem_cons_of_mem _ (htaken.subset (by simp))
      have hlength : 2 ≤ (c :: (u ++ q :: y).take n).length := by
        simp only [List.length_cons, List.length_take, List.length_append]
        omega
      rw [htake] at hmem hlength
      rcases Utf8.ofChar_cases x with ⟨-, hone⟩ | ⟨-, hhigh⟩
      · rw [hone] at hlength
        simp at hlength
      · have := hhigh q hmem
        rcases mem_walls.mp hq with rfl | rfl | rfl <;> simp at this
    rw [List.take_append_of_le_length hn] at htake
    obtain ⟨a, t, hat, hfirst⟩ := Utf8.first_ofChar x (u.drop n ++ z')
    rw [hat] at htake
    cases htake
    rw [← List.append_assoc, List.take_append_drop, List.length_take, Nat.min_eq_left hn] at hfirst
    exact hfirst
  · rw [h] at hstray
    cases hstray

/-- A character that is no token but blank is read as before. -/
theorem other_append (hz : Walled z) (hz' : Walled z') {c : UInt8} {x : TokenKind × Nat}
    (h : other c (u ++ z) = .ok x) : other c (u ++ z') = .ok x := by
  unfold other at h ⊢
  rw [← List.cons_append, blanks_append hz] at h
  rw [← List.cons_append, blanks_append hz']
  split at h
  · next y n hfirst =>
    rw [first_append hz hfirst z']
    split at h
    · -- white space, which ends at the wall
      next hblank =>
      simp only [hblank, if_true]
      exact h
    · split at h <;> cases h
  · cases h

end Scan

theorem scanToken_append {c : UInt8} {u z z' : Bytes} {kind : TokenKind} {extra : Nat}
    (hz : Scan.Walled z) (hz' : Scan.Walled z') (h : scanToken c (u ++ z) = .ok (kind, extra))
    (hextra : extra ≤ u.length) : scanToken c (u ++ z') = .ok (kind, extra) := by
  have hnext {x : UInt8} (hx : x ∉ Scan.walls) :
      ((u ++ z').headD 0 == x) = ((u ++ z).headD 0 == x) := by
    cases u with
    | cons d u => rfl
    | nil =>
      obtain ⟨q, y, rfl, hq⟩ := hz
      obtain ⟨q', y', rfl, hq'⟩ := hz'
      have hne {q : UInt8} (hq : q ∈ Scan.walls) : (q == x) = false :=
        beq_false_of_ne fun heq => hx (heq ▸ hq)
      exact (hne hq').trans (hne hq).symm
  unfold scanToken at h ⊢
  cases hsigil : TokenKind.ofSigil? c with
  | some k =>
    rw [hsigil] at h
    exact h
  | none =>
    rw [hsigil] at h
    dsimp only at h ⊢
    rw [hnext (by decide), hnext (by decide), hnext (by decide), hnext (by decide),
      hnext (by decide)]
    by_cases hblank : (c == 0x20 || c == 0x09) = true
    · rw [if_pos hblank] at h ⊢
      rw [Scan.blanks_append hz', ← Scan.blanks_append hz, h]
    rw [if_neg hblank] at h ⊢
    by_cases hcolon : (c == 0x3A && (u ++ z).headD 0 == 0x3A) = true
    · rw [if_pos hcolon] at h ⊢
      exact h
    rw [if_neg hcolon] at h ⊢
    by_cases harrow : (c == 0x2D && (u ++ z).headD 0 == 0x3E) = true
    · rw [if_pos harrow] at h ⊢
      exact h
    rw [if_neg harrow] at h ⊢
    by_cases hreturn : (c == 0x0D && (u ++ z).headD 0 == 0x0A) = true
    · rw [if_pos hreturn] at h ⊢
      exact h
    rw [if_neg hreturn] at h ⊢
    by_cases hcomment : (c == 0x2F && (u ++ z).headD 0 == 0x2F) = true
    · rw [if_pos hcomment] at h ⊢
      have hlength := (Scan.token_eq_ok h).2
      have hall : ∀ q ∈ Scan.walls, (q != 0x0A && q != 0x0D) = true :=
        Scan.forall_mem_walls rfl rfl rfl
      rw [Scan.run_append_of_le hall hz (by omega), h]
    rw [if_neg hcomment] at h ⊢
    by_cases hblock : (c == 0x2F && (u ++ z).headD 0 == 0x2A) = true
    · rw [if_pos hblock] at h ⊢
      -- the star belongs to the comment, and so does its end
      obtain ⟨u, rfl⟩ : ∃ v, u = 0x2A :: v := by
        cases u with
        | nil =>
          obtain ⟨q, y, rfl, hq⟩ := hz
          have hstar : q = 0x2A := by simpa using (Bool.and_eq_true_iff.mp hblock).2
          exact absurd (hstar ▸ hq) (by decide)
        | cons d v =>
          have hd : d = 0x2A := by simpa using (Bool.and_eq_true_iff.mp hblock).2
          exact ⟨v, by rw [hd]⟩
      rw [List.cons_append, List.drop_succ_cons, List.drop_zero] at h ⊢
      split at h
      · next n hn =>
        have hlength := (Scan.token_eq_ok h).2
        rw [List.length_cons] at hextra
        have hn' : Bytes.indexOf? (u ++ z') "*/" = some n :=
          Scan.indexOf?_go_append (by decide) hz' hn (by omega)
        rw [hn']
        exact h
      · cases h
    rw [if_neg hblock] at h ⊢
    by_cases hquote : (c == 0x22 || c == 0x27) = true
    · rw [if_pos hquote] at h ⊢
      have hend := Scan.textEnd_of_append h (by omega)
      exact Scan.textEnd_append hend z'
    rw [if_neg hquote] at h ⊢
    by_cases hnumber : (c == 0x2D || Bytes.isDigit c) = true
    · rw [if_pos hnumber] at h ⊢
      exact Scan.number_append hz hz' h
    rw [if_neg hnumber] at h ⊢
    by_cases hident : (c == 0x5F || Bytes.isLetter c) = true
    · rw [if_pos hident] at h ⊢
      rw [Scan.run_append_walled Scan.isWord_of_mem_walls hz',
        ← Scan.run_append_walled Scan.isWord_of_mem_walls hz, h]
    rw [if_neg hident] at h ⊢
    exact Scan.other_append hz hz' h

/-- A text literal begins with a quote and goes up to the end of the text. -/
theorem scanToken_textLit {c : UInt8} {r : Bytes} {extra : Nat}
    (h : scanToken c r = .ok (.textLit, extra)) :
    (c = 0x22 ∨ c = 0x27) ∧ Scan.textEnd c 1 false r = .ok (.textLit, extra) := by
  cases scannedAs h with
  | sigil hc => exact absurd (TokenKind.mem_sigilKinds hc) (by decide)
  | text hc h => exact ⟨hc, h⟩
  | number _ h => exact absurd (Scan.number_kind h) (by decide)

/-- What a quote opens is the token up to the end of the text. -/
theorem scanToken_of_textEnd {c : UInt8} {r : Bytes} {x : TokenKind × Nat}
    (hc : c = 0x22 ∨ c = 0x27) (h : Scan.textEnd c 1 false r = .ok x) : scanToken c r = .ok x := by
  unfold scanToken
  rcases hc with rfl | rfl <;> exact h

/-! ## §4 The words of a source -/

namespace Token

/-- The kind of a token and the octets it covers. -/
def word (t : Token) : TokenKind × Bytes := (t.kind, t.text)

end Token

/-- The words cut octets to their end, from a state of the line of an annotation on. -/
inductive Cuts : AnnotLine → Bytes → List (TokenKind × Bytes) → Prop where
  | nil (line : AnnotLine) : Cuts line [] []
  | cons {line line' : AnnotLine} {c : UInt8} {r : Bytes} {kind : TokenKind} {extra : Nat}
      {ws : List (TokenKind × Bytes)} (scan : scanToken c r = .ok (kind, extra))
      (next : line.next? kind (c :: r.take extra) = some line')
      (rest : Cuts line' (r.drop extra) ws) :
      Cuts line (c :: r) ((kind, c :: r.take extra) :: ws)

namespace Cuts

variable {line : AnnotLine} {b : Bytes} {ws : List (TokenKind × Bytes)}

theorem flatMap_text (h : Cuts line b ws) : ws.flatMap (·.2) = b := by
  induction h with
  | nil => rfl
  | cons scan next rest ih => simp [ih]

/-- A source that is read to its end is cut into the words of its tokens. -/
theorem of_lexFrom {skip start : Nat} {pos : Pos} {acc : List Token} {e : Token}
    (h : (lexFrom skip start pos line acc b).ending = .ok e) :
    ∃ ts, (lexFrom skip start pos line acc b).tokens = acc.reverse ++ ts
      ∧ Cuts line (b.drop skip) (ts.map Token.word) := by
  -- along the lexer, of which only the last case cuts a token
  fun_induction lexFrom skip start pos line acc b with
  | case1 skip start pos line acc => exact ⟨[], by simp, by simpa using Cuts.nil line⟩
  | case2 start pos line acc c r n ih =>
    obtain ⟨ts, htokens, hcuts⟩ := ih h
    exact ⟨ts, htokens, by simpa using hcuts⟩
  | case3 => cases h
  | case4 => cases h
  | case5 start pos line acc c r kind extra hscan text line' hline ih =>
    obtain ⟨ts, htokens, hcuts⟩ := ih h
    refine ⟨⟨kind, start, pos, text⟩ :: ts, ?_, .cons hscan hline hcuts⟩
    rw [htokens]
    simp

/-- Words that cut a source are those of its tokens. -/
theorem exists_lexFrom (skip start : Nat) (pos : Pos) (acc : List Token)
    (h : Cuts line (b.drop skip) ws) :
    ∃ ts e, lexFrom skip start pos line acc b = ⟨acc.reverse ++ ts, .ok e⟩
      ∧ ts.map Token.word = ws ∧ e.word = (.eof, []) := by
  -- by the recursion of the scanner: it adds a token where a word has been cut
  fun_induction lexFrom skip start pos line acc b generalizing ws with
  | case1 skip start pos line acc =>
    rw [List.drop_nil] at h
    cases h
    exact ⟨[], _, by rw [List.append_nil], rfl, rfl⟩
  | case2 start pos line acc c r n ih => exact ih (by simpa using h)
  | case3 start pos line acc c r f hscan =>
    cases h with
    | cons scan =>
      rw [hscan] at scan
      cases scan
  | case4 start pos line acc c r kind extra hscan text =>
    rename_i hline
    cases h with
    | cons scan next =>
      rw [hscan] at scan
      cases scan
      rw [hline] at next
      cases next
  | case5 start pos line acc c r kind extra hscan text line' hline =>
    rename_i ih
    cases h with
    | cons scan next rest =>
      rw [hscan] at scan
      cases scan
      rw [hline] at next
      cases next
      obtain ⟨ts, e, hlexed, hwords, hend⟩ := ih rest
      refine ⟨⟨kind, start, pos, c :: r.take extra⟩ :: ts, e, ?_, ?_, hend⟩
      · rw [hlexed, List.reverse_cons, List.append_assoc]
        rfl
      · rw [List.map_cons, hwords]
        rfl

/-! ## §5 Replacing a literal -/

end Cuts

/-- The octets are a text literal and nothing else. -/
def IsTextLiteral (t : Bytes) : Prop :=
  ∃ c r, t = c :: r ∧ scanToken c r = .ok (.textLit, r.length)

namespace Cuts

variable {line : AnnotLine} {b : Bytes} {ws vs : List (TokenKind × Bytes)} {lit new : Bytes}

/-- A word in front of octets that are cut. -/
theorem word_append {line' : AnnotLine} {c : UInt8} {t : Bytes} {kind : TokenKind}
    (rest : Cuts line' b ws) (scan : scanToken c (t ++ b) = .ok (kind, t.length))
    (next : line.next? kind (c :: t) = some line') :
    Cuts line (c :: (t ++ b)) ((kind, c :: t) :: ws) := by
  have htake : (t ++ b).take t.length = t := List.take_left
  have hdrop : (t ++ b).drop t.length = b := List.drop_left
  have hcuts := Cuts.cons scan (htake.symm ▸ next) (hdrop.symm ▸ rest)
  rw [htake] at hcuts
  exact hcuts

/-- The words in front of a wall are the same in front of another one. -/
theorem exists_front {z : Bytes} {us : List (TokenKind × Bytes)} (h : Cuts line b (us ++ ws))
    (hb : b = us.flatMap (·.2) ++ z) : ∃ line', Cuts line' z ws ∧ (Scan.Walled z →
      ∀ z' ws', Scan.Walled z' → Cuts line' z' ws' →
        Cuts line (us.flatMap (·.2) ++ z') (us ++ ws')) := by
  induction us generalizing line b with
  | nil =>
    subst hb
    exact ⟨line, h, fun _ z' ws' _ h' => h'⟩
  | cons u us ih =>
    cases h with
    | @cons _ line₁ c r kind extra _ scan next rest =>
      change Cuts line₁ (r.drop extra) (us ++ ws) at rest
      rw [List.flatMap_cons, List.cons_append, List.cons_append, List.cons.injEq] at hb
      obtain ⟨-, hr⟩ := hb
      have hdrop : r.drop extra = us.flatMap (·.2) ++ z := by
        have htexts := congrArg (List.drop (r.take extra).length) hr
        rw [List.append_assoc, List.drop_left, List.length_take] at htexts
        by_cases hle : extra ≤ r.length
        · rwa [Nat.min_eq_left hle] at htexts
        · rw [Nat.min_eq_right (by omega), List.drop_length] at htexts
          rw [← htexts, List.drop_eq_nil_of_le (by omega)]
      obtain ⟨line', hcuts, hfront⟩ := ih rest hdrop
      refine ⟨line', hcuts, fun hz z' ws' hz' h' => ?_⟩
      -- something stands behind the word, which therefore ends before the wall
      have hextra : extra ≤ r.length := by
        by_contra hlt
        obtain ⟨q, y, rfl, -⟩ := hz
        rw [List.drop_eq_nil_of_le (by omega)] at hdrop
        simp at hdrop
      have hlength : (r.take extra).length = extra := by rw [List.length_take]; omega
      rw [hr] at scan
      have hscan := scanToken_append hz hz' scan (by rw [List.length_append, hlength]; omega)
      rw [List.append_assoc] at hscan
      rw [List.flatMap_cons, List.append_assoc]
      exact (hfront hz z' ws' hz' h').word_append (hscan.trans (by rw [hlength])) next

/-- Another text literal in the place of one leaves the other words as they are. -/
theorem splice (h : Cuts line b (ws ++ (.textLit, lit) :: vs)) (hnew : IsTextLiteral new) :
    Cuts line (ws.flatMap (·.2) ++ (new ++ vs.flatMap (·.2))) (ws ++ (.textLit, new) :: vs) := by
  obtain ⟨z, hz⟩ : ∃ z, z = lit ++ vs.flatMap (·.2) := ⟨_, rfl⟩
  have hb : b = ws.flatMap (·.2) ++ z := by
    rw [hz, ← h.flatMap_text, List.flatMap_append, List.flatMap_cons]
  obtain ⟨line', hcuts, hfront⟩ := h.exists_front hb
  obtain ⟨c', r', rfl, hnewscan⟩ := hnew
  obtain ⟨hc', hend⟩ := scanToken_textLit hnewscan
  cases hcuts with
  | @cons _ line₁ c r _ extra _ scan next rest =>
    -- the old literal begins with a quote, and so does the new one
    have hold : Scan.Walled (c :: r) :=
      ⟨c, r, rfl, Scan.mem_walls_of_quote (scanToken_textLit scan).1⟩
    refine hfront hold _ _ ⟨c', _, rfl, Scan.mem_walls_of_quote hc'⟩ ?_
    have hscan' := scanToken_of_textEnd hc' (Scan.textEnd_append hend (vs.flatMap (·.2)))
    -- to the line of annotations any text is the same
    have hnext : line'.next? .textLit (c' :: r') = some line₁ := by
      rw [← next]
      cases line' <;> rfl
    rw [← rest.flatMap_text] at rest
    exact rest.word_append hscan' hnext

end Cuts

/-- A token begins behind those in front of it. -/
theorem Lexes.start_eq {n : Nat} {b : Bytes} {ts us : List Token} {t : Token}
    (h : Lexes n b (ts ++ t :: us)) : t.start = n + (ts.flatMap (·.text)).length := by
  induction ts generalizing n b with
  | nil =>
    cases h
    rfl
  | cons u ts ih =>
    cases h with
    | cons pos scan rest =>
      rw [ih rest, List.flatMap_cons, List.length_append, Nat.add_assoc]

section

variable {src : Bytes} {l : Lexed} {e : Token}

theorem lexFrom_of_lex (h : lex src = .ok l) : l = lexFrom 0 0 .start .outside [] src := by
  unfold lex at h
  split at h
  · cases h
  · split at h
    · cases h
    · exact (Except.ok.inj h).symm

/-- A source that is read to its end is cut into the words of its tokens. -/
theorem Cuts.of_lex (h : lex src = .ok l) (hend : l.ending = .ok e) :
    Cuts .outside src (l.tokens.map Token.word) := by
  rw [lexFrom_of_lex h] at hend ⊢
  obtain ⟨ts, htokens, hcuts⟩ := Cuts.of_lexFrom hend
  rw [htokens]
  exact hcuts

/-- The tokens of a source have the words that cut it. -/
theorem Cuts.exists_lex {ws : List (TokenKind × Bytes)} (h : Cuts .outside src ws)
    (hlex : lex src = .ok l) :
    ∃ ts e, l = ⟨ts, .ok e⟩ ∧ ts.map Token.word = ws ∧ e.word = (.eof, []) := by
  obtain ⟨ts, e, hlexed, hwords, he⟩ := Cuts.exists_lexFrom 0 0 .start [] h
  exact ⟨ts, e, (lexFrom_of_lex hlex).trans hlexed, hwords, he⟩

/-- A source that is one token is cut into this token. -/
theorem lex_of_scanToken {c : UInt8} {t : Bytes} {kind : TokenKind}
    (h : scanToken c t = .ok (kind, t.length)) (hsize : (c :: t).length ≤ maxSourceSize)
    (hvalid : Utf8.isValid (c :: t) = true) :
    ∃ u e, lex (c :: t) = .ok ⟨[u], .ok e⟩ ∧ u.kind = kind ∧ u.text = c :: t := by
  -- one word, outside of annotations
  have hcuts : Cuts .outside (c :: t) [(kind, c :: t)] := by
    have hline : AnnotLine.outside.next? kind (c :: t)
        = some (if kind == .atSign then .name else .outside) := rfl
    have hword := (Cuts.nil _).word_append (by rwa [List.append_nil]) hline
    rwa [List.append_nil] at hword
  have hlex := lex_eq hsize hvalid
  obtain ⟨ts, e, hl, hwords, -⟩ := hcuts.exists_lex hlex
  obtain ⟨u, rfl, hword⟩ := List.map_eq_singleton_iff.mp hwords
  obtain ⟨hkind, htext⟩ := Prod.mk.inj hword
  exact ⟨u, e, hlex.trans (congrArg Except.ok hl), hkind, htext⟩

/-- The octets in front of a token are those of the tokens in front of it. -/
theorem take_start {ts us : List Token} {t : Token} (h : lex src = .ok l)
    (hend : l.ending = .ok e) (htokens : l.tokens = ts ++ t :: us) :
    src.take t.start = ts.flatMap (·.text) := by
  have hlexes := (lex_lexes h hend).1
  rw [htokens] at hlexes
  have hstart : t.start = (ts.flatMap (·.text)).length := by simpa using hlexes.start_eq
  rw [hstart, ← hlexes.flatMap_text, List.flatMap_append, List.take_left]

/-- Where a text literal is replaced by another one, the other words stay. -/
theorem exists_of_lex_splice {new : Bytes} {l' : Lexed} {lit : Token} {ts us : List Token}
    (h : lex src = .ok l) (hend : l.ending = .ok e) (htokens : l.tokens = ts ++ lit :: us)
    (hlit : lit.kind = .textLit) (hnew : IsTextLiteral new)
    (h' : lex (src.take lit.start ++ (new ++ src.drop lit.stop)) = .ok l') :
    ∃ ts' lit' us' e', l' = ⟨ts' ++ lit' :: us', .ok e'⟩ ∧ ts'.map Token.word = ts.map Token.word
      ∧ lit'.word = (.textLit, new) ∧ us'.map Token.word = us.map Token.word
      ∧ e'.word = (.eof, []) := by
  have htake := take_start h hend htokens
  have hcuts := Cuts.of_lex h hend
  have htexts := (lex_lexes h hend).1.flatMap_text
  rw [htokens, List.flatMap_append, List.flatMap_cons] at htexts
  -- the source behind the literal is the text of the tokens behind it
  have hdrop : src.drop lit.stop = us.flatMap (·.text) := by
    have hle : lit.start = (ts.flatMap (·.text)).length := by
      rw [← htake, List.length_take, Nat.min_eq_left]
      have hbounds := (lex_lexes h hend).1.bounds (t := lit) (by simp [htokens])
      have hstop := hbounds.2.2
      rw [Token.stop] at hstop
      omega
    rw [Token.stop, hle, ← List.drop_drop, ← htexts, List.drop_left, List.drop_left]
  rw [htokens, List.map_append, List.map_cons, Token.word, hlit] at hcuts
  have hsplice := hcuts.splice hnew
  rw [List.flatMap_map, List.flatMap_map] at hsplice
  have hnewcuts : Cuts .outside (src.take lit.start ++ (new ++ src.drop lit.stop))
      (ts.map Token.word ++ (.textLit, new) :: us.map Token.word) := by
    rw [htake, hdrop]
    exact hsplice
  -- the cuts fix the words of any reading of the new source
  obtain ⟨all, e', rfl, hwords, he'⟩ := hnewcuts.exists_lex h'
  obtain ⟨ts', rest, rfl, hts, hrest⟩ := List.map_eq_append_iff.mp hwords
  obtain ⟨lit', us', rfl, hlit', hus⟩ := List.map_eq_cons_iff.mp hrest
  exact ⟨ts', lit', us', e', rfl, hts, hlit', hus, he'⟩

end

/-! ## §6 Words that are cut alone -/

/-- The words cut octets in front of others. -/
inductive Scanned (z : Bytes) : Bytes → List (TokenKind × Bytes) → Prop where
  | nil : Scanned z [] []
  | cons {c : UInt8} {t b : Bytes} {kind : TokenKind} {ws : List (TokenKind × Bytes)}
      (scan : scanToken c (t ++ (b ++ z)) = .ok (kind, t.length)) (rest : Scanned z b ws) :
      Scanned z (c :: (t ++ b)) ((kind, c :: t) :: ws)

/-- The line of an annotation behind some words; none if one of them breaks it. -/
def AnnotLine.after (line : AnnotLine) (ws : List (TokenKind × Bytes)) : Option AnnotLine :=
  ws.foldlM (fun line w => line.next? w.1 w.2) line

namespace Scanned

variable {z a b : Bytes} {us ws : List (TokenKind × Bytes)} {line : AnnotLine}

theorem append (ha : Scanned (b ++ z) a us) (hb : Scanned z b ws) :
    Scanned z (a ++ b) (us ++ ws) := by
  induction ha with
  | nil => exact hb
  | cons scan rest ih =>
    rw [List.cons_append, List.append_assoc]
    exact .cons (by rwa [List.append_assoc]) ih

/-- One word. -/
theorem word {c : UInt8} {t : Bytes} {kind : TokenKind}
    (scan : scanToken c (t ++ z) = .ok (kind, t.length)) : Scanned z (c :: t) [(kind, c :: t)] := by
  have h := Scanned.cons (b := []) scan .nil
  rwa [List.append_nil] at h

/-- A sign that is a token by itself. -/
theorem sigil {c : UInt8} {kind : TokenKind} (hc : TokenKind.ofSigil? c = some kind) :
    Scanned z [c] [(kind, [c])] := by
  refine word ?_
  unfold scanToken
  rw [hc]
  rfl

/-- What is cut begins with the words. -/
theorem exists_of_cuts (h : Scanned z b us) (hcuts : Cuts line (b ++ z) ws) :
    ∃ line' vs, line.after us = some line' ∧ ws = us ++ vs ∧ Cuts line' z vs := by
  induction h generalizing line ws with
  | nil => exact ⟨line, ws, rfl, rfl, hcuts⟩
  | @cons c t b kind us scan rest ih =>
    rw [List.cons_append, List.append_assoc] at hcuts
    cases hcuts with
    -- both cut the same word first, since one scan tells it
    | @cons _ line₁ _ _ _ _ vs scan' next rest' =>
      rw [scan] at scan'
      cases scan'
      rw [List.take_left] at next ⊢
      rw [List.drop_left] at rest'
      obtain ⟨line', vs, hline, rfl, hvs⟩ := ih rest'
      exact ⟨line', vs, by simp [AnnotLine.after, next, ← hline], rfl, hvs⟩

/-- The words in front of what is cut. -/
theorem cuts (h : Scanned z b us) {line' : AnnotLine} (hline : line.after us = some line')
    (hz : Cuts line' z ws) : Cuts line (b ++ z) (us ++ ws) := by
  induction h generalizing line with
  | nil =>
    cases hline
    exact hz
  | @cons c t b kind us scan rest ih =>
    obtain ⟨line₁, hnext, hline⟩ := Option.bind_eq_some_iff.mp hline
    rw [List.cons_append, List.append_assoc]
    exact (ih hline).word_append scan hnext

end Scanned

/-- Where a token begins with octets that are cut alone, and others stand in their place that are as
well, all other words stay. -/
theorem exists_of_lex_exchange {a m m' z : Bytes} {us us' : List (TokenKind × Bytes)}
    {l l' : Lexed} {e t : Token} (h : lex (a ++ (m ++ z)) = .ok l) (hend : l.ending = .ok e)
    (ht : t ∈ l.tokens) (hstart : t.start = a.length) (hm : Scan.Walled (m ++ z))
    (hm' : Scan.Walled (m' ++ z)) (hus : Scanned z m us) (hus' : Scanned z m' us')
    (hline : ∀ line line' : AnnotLine, line.after us = some line' → line.after us' = some line')
    (h' : lex (a ++ (m' ++ z)) = .ok l') :
    ∃ ts ys zs ts' ys' zs' e', l.tokens = ts ++ (ys ++ zs) ∧ l' = ⟨ts' ++ (ys' ++ zs'), .ok e'⟩
      ∧ ts'.map Token.word = ts.map Token.word ∧ ys.map Token.word = us
      ∧ ys'.map Token.word = us' ∧ zs'.map Token.word = zs.map Token.word := by
  obtain ⟨ts, rest, htokens⟩ := List.append_of_mem ht
  have ha : a = ts.flatMap (·.text) := by
    rw [← take_start h hend htokens, hstart, List.take_left]
  have hcuts := Cuts.of_lex h hend
  -- the tokens in front end where the part that is exchanged begins
  have hb : a ++ (m ++ z) = (ts.map Token.word).flatMap (·.2) ++ (m ++ z) := by
    rw [List.flatMap_map, ha]
    rfl
  rw [htokens, List.map_append] at hcuts
  obtain ⟨line, hm₁, hfront⟩ := hcuts.exists_front hb
  -- the part leaves the annotation line as its exchange does, so what follows is cut as before
  obtain ⟨line', vs, hafter, hrest, hz⟩ := hus.exists_of_cuts hm₁
  have hnew := hfront hm _ _ hm' (hus'.cuts (hline _ _ hafter) hz)
  rw [← List.append_cancel_right hb] at hnew
  obtain ⟨all, e', rfl, hwords, -⟩ := hnew.exists_lex h'
  obtain ⟨ts', more, rfl, hts, hmore⟩ := List.map_eq_append_iff.mp hwords
  obtain ⟨ys', zs', rfl, hys', hzs'⟩ := List.map_eq_append_iff.mp hmore
  obtain ⟨ys, zs, hall, hys, hzs⟩ := List.map_eq_append_iff.mp hrest
  exact ⟨ts, ys, zs, ts', ys', zs', e', by rw [htokens, hall], rfl, hts, hys, hys',
    hzs'.trans hzs.symm⟩

end Idl
