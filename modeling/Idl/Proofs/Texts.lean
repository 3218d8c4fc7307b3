import Idl.Proofs.Integers
import Idl.Proofs.Json.Strings
import Idl.Proofs.Reader.Octets
import Idl.Proofs.Token.LineEnds
import Idl.Tree.Parse

/-!
# Text literals

A text literal is a body between two marks. The body is a sequence of units, each of which denotes
an octet: an octet that stands for itself, or a backslash with what goes with it. Where the literal
ends is found by a scan that only knows that a backslash guards the octet behind it, and what the
literal denotes by a reader that knows all units. The two agree on which backslashes begin a unit.

* §1 units, §2 what decoding comes to, §3 where a literal ends,
* §4 the reader of bodies, §5 a literal for every text, §6 the literals of sources.
-/

namespace Idl.Quoted

variable {b m v w : Bytes} {x : UInt8}

/-! ## §1 Units -/

/-- The signs that stand for an octet behind a backslash, with their octets. -/
def signs : List (UInt8 × UInt8) :=
  [(0x61, 0x07), (0x62, 0x08), (0x66, 0x0C), (0x6E, 0x0A), (0x72, 0x0D), (0x74, 0x09), (0x76, 0x0B),
    (0x5C, 0x5C), (0x27, 0x27), (0x22, 0x22), (0x3F, 0x3F)]

/-- Digits at the front, as many as there are, but not more than `n`. -/
structure Greedy (p : UInt8 → Bool) (n : Nat) (ds r : Bytes) : Prop where
  ne_nil : ds ≠ []
  digits : ∀ d ∈ ds, p d = true
  le : ds.length ≤ n
  full : ds.length < n → ∀ d ∈ r.head?, p d = false

/-- A unit at the front of a body, the octet it denotes, and what is left. The number of a unit in
octal has to be that of an octet. -/
inductive Takes : Bytes → UInt8 → Bytes → Prop where
  | plain {c : UInt8} {r : Bytes} (hc : c ≠ 0x5C) : Takes (c :: r) c r
  | sign {c x : UInt8} {r : Bytes} (hc : (c, x) ∈ signs) : Takes (0x5C :: c :: r) x r
  | hex {c x : UInt8} {ds r : Bytes} (hc : c = 0x78 ∨ c = 0x58)
      (hds : Greedy Bytes.isHexDigit 2 ds r) (hx : x.toNat = Bytes.toNat 16 ds) :
      Takes (0x5C :: c :: (ds ++ r)) x r
  | oct {x : UInt8} {ds r : Bytes} (hds : Greedy Bytes.isOctDigit 3 ds r)
      (hx : x.toNat = Bytes.toNat 8 ds) : Takes (0x5C :: (ds ++ r)) x r

/-- Units at the front of a body, the octets they denote, and what is left. -/
inductive TakesMany : Bytes → Bytes → Bytes → Prop where
  | nil (b : Bytes) : TakesMany b [] b
  | cons {b v m r : Bytes} {x : UInt8} (first : Takes b x m) (rest : TakesMany m v r) :
      TakesMany b (x :: v) r

theorem mem_signs_iff (c x : UInt8) : (c, x) ∈ signs ↔ simpleEscape? c = some x := by
  constructor
  · intro h
    simp only [signs, List.mem_cons, Prod.mk.injEq, List.not_mem_nil, or_false] at h
    rcases h with ⟨rfl, rfl⟩ | ⟨rfl, rfl⟩ | ⟨rfl, rfl⟩ | ⟨rfl, rfl⟩ | ⟨rfl, rfl⟩ | ⟨rfl, rfl⟩ |
      ⟨rfl, rfl⟩ | ⟨rfl, rfl⟩ | ⟨rfl, rfl⟩ | ⟨rfl, rfl⟩ | ⟨rfl, rfl⟩ <;> rfl
  · intro h
    unfold simpleEscape? at h
    split at h <;> cases h <;> decide

theorem simpleEscape?_of_isOctDigit {c : UInt8} (h : Bytes.isOctDigit c = true) :
    simpleEscape? c = none := by
  unfold simpleEscape?
  split <;> first | rfl | cases h

namespace Greedy

variable {p : UInt8 → Bool} {n : Nat} {ds r : Bytes}

/-- Such digits are what a reader of at most `n` of them finds. -/
theorem takeWhile_eq (h : Greedy p n ds r) : ((ds ++ r).take n).takeWhile p = ds := by
  rw [List.take_append, List.take_of_length_le h.le, List.takeWhile_append_of_pos h.digits]
  rcases Nat.eq_or_lt_of_le h.le with hlength | hlength
  · rw [hlength, Nat.sub_self, List.take_zero, List.takeWhile_nil, List.append_nil]
  cases r with
  | nil => simp
  | cons d r =>
    have hd : p d = false := h.full hlength d rfl
    obtain ⟨k, hk⟩ : ∃ k, n - ds.length = k + 1 := ⟨n - ds.length - 1, by omega⟩
    rw [hk, List.take_succ_cons, List.takeWhile_cons_of_neg (by simp [hd]), List.append_nil]

/-- What a reader of at most `n` digits finds are such digits. -/
theorem of_takeWhile (h : (r.take n).takeWhile p ≠ []) :
    Greedy p n ((r.take n).takeWhile p) (r.drop ((r.take n).takeWhile p).length) := by
  have hlength : ((r.take n).takeWhile p).length ≤ (r.take n).length :=
    (List.takeWhile_prefix p).length_le
  rw [List.length_take] at hlength
  refine ⟨h, fun d hd => List.mem_takeWhile_imp hd, by omega, fun hlt d hd => ?_⟩
  have hdrop : (r.drop ((r.take n).takeWhile p).length).take (n - ((r.take n).takeWhile p).length)
      = (r.take n).dropWhile p := by
    rw [← List.drop_take]
    exact Scan.drop_run p (r.take n)
  have hhead := List.head?_dropWhile_not p (r.take n)
  rw [← hdrop, List.head?_take, if_neg (by omega), Option.mem_def.mp hd] at hhead
  exact hhead

end Greedy

/-- Two hexadecimal digits are enough for an octet. -/
theorem toNat_lt_of_hex {ds : Bytes} (h : ∀ d ∈ ds, Bytes.isHexDigit d = true)
    (hle : ds.length ≤ 2) : Bytes.toNat 16 ds < 256 := by
  have hdigits : ∀ n ∈ ds.reverse.map Bytes.digitValue, n < 16 := by
    intro n hn
    obtain ⟨d, hd, rfl⟩ := List.mem_map.mp hn
    exact (Integer.isDigitOf_of_isHexDigit (h d (List.mem_reverse.mp hd))).2
  have hlt := Nat.ofDigits_lt_base_pow_length (by decide) hdigits
  rw [List.length_map, List.length_reverse] at hlt
  rw [← Bytes.positional_eq]
  exact hlt.trans_le (Nat.pow_le_pow_right (by decide) hle)

/-- What the reader of escapes finds behind a backslash is a unit. -/
theorem takes_of_escape {r : Bytes} {k : Nat} (h : escape r = .ok (x, k)) :
    Takes (0x5C :: r) x (r.drop k) := by
  cases r with
  | nil => cases h
  | cons c r =>
    unfold escape at h
    dsimp only at h
    split at h
    · next y hy =>
      cases h
      exact .sign ((mem_signs_iff c x).mpr hy)
    -- the octets up to the first that is no digit, and those from it on
    have hcut {p : UInt8 → Bool} (n : Nat) (b : Bytes) :
        (b.take n).takeWhile p ++ b.drop ((b.take n).takeWhile p).length = b := by
      have hsplit := List.take_append_drop (Scan.run p (b.take n)) b
      rw [Scan.take_run_take] at hsplit
      exact hsplit
    split at h
    · next hc =>
      split at h
      · cases h
      · next hdigits =>
        have hds := Greedy.of_takeWhile (p := Bytes.isHexDigit) (n := 2) (r := r)
          (mt List.isEmpty_iff.mpr hdigits)
        have hlt := toNat_lt_of_hex hds.digits hds.le
        cases h
        rw [Nat.add_comm, List.drop_succ_cons]
        have htakes := Takes.hex (by simpa using hc) hds (UInt8.toNat_ofNat_of_lt' hlt)
        rwa [hcut] at htakes
    · split at h
      · next hoct =>
        split at h
        · cases h
        · next hle =>
          cases h
          have hds := Greedy.of_takeWhile (p := Bytes.isOctDigit) (n := 3) (r := c :: r)
            (by simp [hoct])
          have hlt : Bytes.toNat 8 (((c :: r).take 3).takeWhile Bytes.isOctDigit) < 256 := by omega
          have htakes := Takes.oct hds (UInt8.toNat_ofNat_of_lt' hlt)
          rwa [hcut] at htakes
      · cases h

/-- A unit that begins with a backslash is what the reader of escapes finds. -/
theorem Takes.exists_escape {r : Bytes} (h : Takes (0x5C :: r) x m) :
    ∃ k, escape r = .ok (x, k) ∧ m = r.drop k := by
  have hback : x.toNat.toUInt8 = x := UInt8.ofNat_toNat
  cases h with
  | plain hc => exact absurd rfl hc
  | @sign c _ r hc =>
    refine ⟨1, ?_, rfl⟩
    rw [escape, (mem_signs_iff c x).mp hc]
  | @hex c _ ds r hc hds hx =>
    -- the marker is no simple escape, so the digits behind it decide
    refine ⟨1 + ds.length, ?_, ?_⟩
    · have hsimple : simpleEscape? c = none := by rcases hc with rfl | rfl <;> rfl
      have hnil : ds.isEmpty = false := List.isEmpty_eq_false_iff.mpr hds.ne_nil
      rw [escape, hsimple]
      dsimp only
      rw [if_pos (by simpa using hc), hds.takeWhile_eq, hnil, if_neg Bool.false_ne_true, ← hx,
        hback]
    · rw [Nat.add_comm, List.drop_succ_cons, List.drop_left]
  | @oct _ ds r hds hx =>
    refine ⟨ds.length, ?_, by rw [List.drop_left]⟩
    have heq := hds.takeWhile_eq
    have hlt := x.toNat_lt
    obtain ⟨c, ds, rfl⟩ := List.exists_cons_of_ne_nil hds.ne_nil
    have hoct : Bytes.isOctDigit c = true := hds.digits c List.mem_cons_self
    -- an octal digit is no hexadecimal marker
    have hmark : ¬ (c == 0x78 || c == 0x58) = true := by
      intro hc
      rcases (by simpa using hc : c = 0x78 ∨ c = 0x58) with rfl | rfl <;> cases hoct
    rw [List.cons_append] at heq ⊢
    rw [escape, simpleEscape?_of_isOctDigit hoct]
    dsimp only
    rw [if_neg hmark, if_pos hoct, heq, ← hx, if_neg (by omega), hback]

/-- There is one way to read a unit. -/
theorem Takes.unique {y : UInt8} {m' : Bytes} (h : Takes b x m) (h' : Takes b y m') :
    x = y ∧ m = m' := by
  cases b with
  | nil => cases h
  | cons c r =>
    -- only a backslash begins an escape, and that is decoded in one way
    by_cases hc : c = 0x5C
    · subst hc
      obtain ⟨k, hk, rfl⟩ := h.exists_escape
      obtain ⟨j, hj, rfl⟩ := h'.exists_escape
      rw [hk] at hj
      cases hj
      exact ⟨rfl, rfl⟩
    · cases h with
      | plain =>
        cases h' with
        | plain => exact ⟨rfl, rfl⟩
        | _ => exact absurd rfl hc
      | _ => exact absurd rfl hc

namespace TakesMany

/-- What is read after something else has been read. -/
theorem trans {r : Bytes} (h : TakesMany b v m) (h' : TakesMany m w r) :
    TakesMany b (v ++ w) r := by
  induction h with
  | nil => exact h'
  | cons first rest ih => exact .cons first (ih h')

/-- One more unit is read. -/
theorem snoc {r : Bytes} (h : TakesMany b v m) (h' : Takes m x r) : TakesMany b (v ++ [x]) r :=
  h.trans (.cons h' (.nil r))

/-- Where all units are read, some of them have to be read before the others. -/
theorem cancel (h : TakesMany b v m) (h' : TakesMany b w []) :
    ∃ u, TakesMany m u [] ∧ w = v ++ u := by
  induction h generalizing w with
  | nil => exact ⟨w, h', rfl⟩
  | cons first rest ih =>
    cases h' with
    | nil => cases first
    | cons first' rest' =>
      obtain ⟨rfl, rfl⟩ := first.unique first'
      obtain ⟨u, hu, rfl⟩ := ih rest'
      exact ⟨u, hu, rfl⟩

end TakesMany

/-! ## §2 What decoding comes to -/

/-- What decoding a body onto `acc` comes to, where `n` octets come before the body: all of it is
units, or a unit is bad. -/
inductive Decodes (n : Nat) (acc b : Bytes) : Except (Nat × Bytes) Bytes → Prop where
  | all {v : Bytes} (units : TakesMany b v []) : Decodes n acc b (.ok (acc.reverse ++ v))
  | bad {u v r : Bytes} {k : Nat} (split : b = u ++ 0x5C :: r) (units : TakesMany b v (0x5C :: r))
      (fault : escape r = .error k) : Decodes n acc b (.error (n + u.length, 0x5C :: r.take k))

/-- A unit of `k + 1` octets comes first. -/
theorem Decodes.cons {n k : Nat} {acc r : Bytes} {c : UInt8} {a : Except (Nat × Bytes) Bytes}
    (first : Takes (c :: r) x (r.drop k)) (h : Decodes (n + (k + 1)) (x :: acc) (r.drop k) a) :
    Decodes n acc (c :: r) a := by
  cases h with
  | all units =>
    rw [List.reverse_cons, List.append_assoc, List.singleton_append]
    exact .all (.cons first units)
  -- the unit in front is passed over, so the bad one is farther on
  | @bad u v z j split units fault =>
    have hk : (r.take k).length = k := by
      have hlength := congrArg List.length split
      rw [List.length_drop, List.length_append, List.length_cons] at hlength
      rw [List.length_take]
      omega
    have hsplit : c :: r = (c :: (r.take k ++ u)) ++ 0x5C :: z := by
      rw [List.cons_append, List.append_assoc, ← split, List.take_append_drop]
    have hlength : n + (k + 1) + u.length = n + (c :: (r.take k ++ u)).length := by
      rw [List.length_cons, List.length_append, hk]
      omega
    rw [hlength]
    exact .bad hsplit (.cons first units) fault

/-- The decoder decodes. -/
theorem decodes_decodeBody (n : Nat) (acc b : Bytes) : Decodes n acc b (decodeBody 0 n acc b) := by
  -- By strong induction on the length: an escape takes several bytes at once.
  induction hlength : b.length using Nat.strongRecOn generalizing n acc b with
  | ind length ih =>
    subst hlength
    cases b with
    | nil =>
      rw [decodeBody, ← List.append_nil acc.reverse]
      exact .all (.nil [])
    | cons c r =>
      have hlt (k : Nat) : (r.drop k).length < (c :: r).length := by
        rw [List.length_cons, List.length_drop]
        omega
      by_cases hc : c = 0x5C
      · subst hc
        rw [decodeBody, if_pos (beq_self_eq_true _)]
        cases hescape : escape r with
        | ok y =>
          obtain ⟨x, k⟩ := y
          dsimp only
          rw [Reader.decodeBody_skip, Nat.add_assoc, Nat.add_comm 1 k]
          exact .cons (takes_of_escape hescape) (ih _ (hlt k) _ _ _ rfl)
        | error k => exact .bad (u := []) rfl (.nil _) hescape
      · rw [decodeBody, if_neg (by simpa using hc)]
        exact .cons (k := 0) (.plain hc) (ih _ (hlt 0) _ _ _ rfl)

/-- The body has a bad unit behind good ones. It is reported by the offset of its backslash in the
literal, where a mark comes before the body, and by octets of the body that begin with the
backslash. -/
def FirstBad (body : Bytes) (offset : Nat) (bad : Bytes) : Prop :=
  ∃ u v r, body = u ++ 0x5C :: r ∧ offset = 1 + u.length ∧ TakesMany body v (0x5C :: r)
    ∧ (∀ x m, ¬ Takes (0x5C :: r) x m) ∧ bad ≠ [] ∧ bad <+: 0x5C :: r

variable {mark : UInt8} {body : Bytes}

theorem textLitValue_eq (mark : UInt8) (body : Bytes) :
    textLitValue (mark :: (body ++ [mark])) = decodeBody 0 1 [] body := by
  rw [textLitValue, List.drop_succ_cons, List.drop_zero, List.length_cons, List.length_append,
    List.length_singleton, show body.length + 1 + 1 - 2 = body.length by omega, List.take_left]

/-- A literal denotes what the units of its body denote, and nothing if they are not all good. -/
theorem textLitValue_eq_ok_iff :
    textLitValue (mark :: (body ++ [mark])) = .ok v ↔ TakesMany body v [] := by
  rw [textLitValue_eq]
  have h := decodes_decodeBody 1 [] body
  generalize decodeBody 0 1 [] body = a at h
  cases h with
  | @all w units =>
    constructor
    · intro heq
      cases heq
      exact units
    · intro hv
      obtain ⟨u, hu, rfl⟩ := units.cancel hv
      cases hu with
      | nil => rw [List.append_nil, List.reverse_nil, List.nil_append]
      | cons first => cases first
  | bad split units fault =>
    constructor
    · intro heq
      cases heq
    · intro hv
      -- the units that are read go past the one that is bad
      obtain ⟨u, hu, -⟩ := units.cancel hv
      cases hu with
      | cons first =>
        obtain ⟨k, hk, -⟩ := first.exists_escape
        rw [fault] at hk
        cases hk

theorem firstBad_of_textLitValue {offset : Nat} {bad : Bytes}
    (h : textLitValue (mark :: (body ++ [mark])) = .error (offset, bad)) :
    FirstBad body offset bad := by
  rw [textLitValue_eq] at h
  have hdecodes := decodes_decodeBody 1 [] body
  rw [h] at hdecodes
  cases hdecodes with
  | @bad u v r k split units fault =>
    refine ⟨u, v, r, split, rfl, units, fun x m hx => ?_, List.cons_ne_nil _ _, ?_⟩
    · obtain ⟨j, hj, -⟩ := hx.exists_escape
      rw [fault] at hj
      cases hj
    · exact List.cons_prefix_cons.mpr ⟨rfl, List.take_prefix k r⟩

/-! ## §3 Where a literal ends -/

/-- Octets in which every backslash that is not guarded by another one guards an octet. -/
inductive Guarded : Bytes → Prop where
  | nil : Guarded []
  | plain {c : UInt8} {r : Bytes} (hc : c ≠ 0x5C) (rest : Guarded r) : Guarded (c :: r)
  | pair {c : UInt8} {r : Bytes} (rest : Guarded r) : Guarded (0x5C :: c :: r)

/-- Whether the scan for the end of a text literal meets a backslash, which it marks the literal
for. `flagged` is what it has met before, and `escaped` whether the octet in front of what is left
is such a backslash. -/
def flag (mark : UInt8) : (escaped flagged : Bool) → Bytes → Bool
  | _, flagged, [] => flagged
  | true, flagged, _ :: r => flag mark false flagged r
  | false, flagged, c :: r =>
    if c == mark then flagged
    else if c == 0x5C then flag mark true true r
    else flag mark false flagged r

/-- The octets up to the end of a literal, and the backslash before them if there is one. -/
theorem guarded_of_textEnd {n extra : Nat} {escaped : Bool} {kind : TokenKind}
    (h : Scan.textEnd mark n escaped b = .ok (kind, extra)) :
    Guarded ((if escaped then [0x5C] else []) ++ b.take (extra - n)) := by
  -- along the scan; escaped says that a backslash is in front
  fun_induction Scan.textEnd mark n escaped b with
  | case1 => cases h
  | case2 n c r ih =>
    have hle := Scan.le_of_textEnd h
    rw [show extra - n = (extra - (n + 1)) + 1 by omega, List.take_succ_cons]
    exact .pair (ih h)
  | case3 n c r hc =>
    rw [(Scan.token_eq_ok h).2, Nat.add_sub_cancel, Nat.sub_self]
    exact .nil
  | case4 => cases h
  | case5 => cases h
  | case6 => cases h
  | case7 n c r hc hctl ih =>
    have hle := Scan.le_of_textEnd h
    rw [show extra - n = (extra - (n + 1)) + 1 by omega, List.take_succ_cons]
    have hrest := ih h
    -- a backslash guards the next byte
    by_cases hback : c = 0x5C
    · subst hback
      exact hrest
    · rw [beq_false_of_ne hback] at hrest
      exact .plain hback hrest

/-- A literal is marked if and only if it has a backslash. -/
theorem flag_of_textEnd {n extra : Nat} {escaped flagged : Bool} {kind : TokenKind}
    (h : Scan.textEnd mark n escaped b = .ok (kind, extra)) (hflagged : escaped → flagged) :
    flag mark escaped flagged b = (flagged || (b.take (extra - n)).contains 0x5C) := by
  -- along the scan; the flag is raised where a backslash is passed
  fun_induction Scan.textEnd mark n escaped b generalizing flagged with
  | case1 => cases h
  | case2 n c r ih =>
    rw [flag, ih h (by simp), hflagged rfl]
    rfl
  | case3 n c r hc =>
    rw [flag, if_pos hc, (Scan.token_eq_ok h).2, Nat.add_sub_cancel, Nat.sub_self]
    simp
  | case4 => cases h
  | case5 => cases h
  | case6 => cases h
  | case7 n c r hc hctl ih =>
    have hle := Scan.le_of_textEnd h
    rw [flag, if_neg hc, show extra - n = (extra - (n + 1)) + 1 by omega, List.take_succ_cons]
    by_cases hback : c = 0x5C
    · subst hback
      rw [beq_self_eq_true] at h ih
      rw [if_pos (beq_self_eq_true _), ih h (by simp)]
      simp
    · rw [beq_false_of_ne hback] at h ih
      rw [if_neg (by simpa using hback), ih h (by simp), List.contains_cons,
        beq_false_of_ne (Ne.symm hback), Bool.false_or]

namespace Guarded

theorem of_cons {c : UInt8} {r : Bytes} (h : Guarded (c :: r)) (hc : c ≠ 0x5C) : Guarded r := by
  cases h with
  | plain _ rest => exact rest
  | pair => exact absurd rfl hc

/-- Octets that are no backslashes guard nothing. -/
theorem of_append {ds r : Bytes} (h : Guarded (ds ++ r)) (hds : ∀ d ∈ ds, d ≠ 0x5C) :
    Guarded r := by
  induction ds with
  | nil => exact h
  | cons d ds ih =>
    rw [List.forall_mem_cons] at hds
    exact ih (h.of_cons hds.1) hds.2

/-- A unit goes up to where the octets are guarded again. -/
theorem takes (h : Guarded b) (first : Takes b x m) : Guarded m := by
  cases first with
  | plain hc => exact h.of_cons hc
  | sign =>
    cases h with
    | plain hc => exact absurd rfl hc
    | pair rest => exact rest
  -- hexadecimal digits are no backslashes
  | hex hc hds =>
    cases h with
    | plain hc => exact absurd rfl hc
    | pair rest =>
      refine rest.of_append fun d hd => ?_
      rintro rfl
      cases hds.digits _ hd
  -- nor are octal ones, of which the first stands behind the backslash
  | @oct _ ds r hds =>
    have hne : ∀ d ∈ ds, d ≠ 0x5C := by
      rintro d hd rfl
      cases hds.digits _ hd
    obtain ⟨d, ds, rfl⟩ := List.exists_cons_of_ne_nil hds.ne_nil
    cases h with
    | plain hc => exact absurd rfl hc
    | pair rest => exact rest.of_append fun e he => hne e (List.mem_cons_of_mem d he)

theorem takesMany (h : Guarded b) (units : TakesMany b v m) : Guarded m := by
  induction units with
  | nil => exact h
  | cons first rest ih => exact ih (h.takes first)

/-- The last octet is no backslash without an octet to guard. -/
theorem ne_nil {r : Bytes} (h : Guarded (0x5C :: r)) : r ≠ [] := by
  cases h with
  | plain hc => exact absurd rfl hc
  | pair => exact List.cons_ne_nil _ _

end Guarded

/-! ## §4 The reader of bodies -/

/-- The indices at which the reader of a body looks for a unit. -/
inductive Visited (body : Bytes) : Nat → Prop where
  | start : Visited body 0
  | plain {i : Nat} {c : UInt8} (visited : Visited body i) (at? : Reader.at? body i = some c)
      (hc : c ≠ 0x5C) : Visited body (i + 1)
  | escape {i j : Nat} {x : UInt8} (visited : Visited body i) (at? : Reader.at? body i = some 0x5C)
      (escapeAt : Reader.escapeAt body i = some (.ok (x, j))) : Visited body j

theorem drop_of_at? {i : Nat} {c : UInt8} (h : Reader.at? b i = some c) :
    b.drop i = c :: b.drop (i + 1) := by
  obtain ⟨hi, rfl⟩ := List.getElem?_eq_some_iff.mp h
  exact List.drop_eq_getElem_cons hi

/-- Units have been read up to where the reader looks. -/
theorem Visited.takesMany {i : Nat} (h : Visited body i) : ∃ v, TakesMany body v (body.drop i) := by
  induction h with
  | start => exact ⟨[], .nil body⟩
  -- one byte
  | @plain i c _ hat hc ih =>
    obtain ⟨v, units⟩ := ih
    rw [drop_of_at? hat] at units
    exact ⟨v ++ [c], units.snoc (.plain hc)⟩
  -- a whole escape, up to where the walk goes on
  | @escape i j x _ hat hescape ih =>
    obtain ⟨v, units⟩ := ih
    have hdrop := drop_of_at? hat
    rw [Reader.escapeAt_eq hdrop] at hescape
    rw [hdrop] at units
    cases hfound : Idl.escape (body.drop (i + 1)) with
    | error k =>
      rw [hfound] at hescape
      cases hescape
    | ok y =>
      obtain ⟨y, k⟩ := y
      rw [hfound] at hescape
      cases hescape
      have first := takes_of_escape hfound
      rw [List.drop_drop] at first
      exact ⟨_, units.snoc first⟩

/-- Behind a backslash at which the reader looks for a unit the body goes on. -/
theorem Visited.lt_length {i : Nat} (h : Visited body i) (hbody : Guarded body)
    (hat : Reader.at? body i = some 0x5C) : i + 1 < body.length := by
  obtain ⟨v, units⟩ := h.takesMany
  rw [drop_of_at? hat] at units
  have hne := (hbody.takesMany units).ne_nil
  rw [Ne, List.drop_eq_nil_iff] at hne
  omega

/-! ## §5 A literal for every text -/

/-- The body that has every octet in hexadecimal. -/
def hexBody (v : Bytes) : Bytes := v.flatMap fun c => 0x5C :: 0x78 :: Bytes.hexDigits 2 c.toNat

/-- A literal that denotes the octets. -/
def literal (v : Bytes) : Bytes := 0x22 :: (hexBody v ++ [0x22])

theorem takes_hex (c : UInt8) (r : Bytes) :
    Takes (0x5C :: 0x78 :: (Bytes.hexDigits 2 c.toNat ++ r)) c r := by
  have hlength := Bytes.length_hexDigits 2 c.toNat
  refine .hex (.inl rfl) ⟨?_, fun d => Bytes.isHexDigit_of_mem_hexDigits, hlength.le, ?_⟩ ?_
  · exact List.ne_nil_of_length_eq_add_one hlength
  · intro hlt
    omega
  · rw [Bytes.toNat_hexDigits, Nat.mod_eq_of_lt c.toNat_lt]

theorem takesMany_hexBody (v : Bytes) : TakesMany (hexBody v) v [] := by
  induction v with
  | nil => exact .nil []
  | cons c v ih => exact .cons (takes_hex c (hexBody v)) ih

theorem length_hexBody (v : Bytes) : (hexBody v).length = 4 * v.length := by
  induction v with
  | nil => rfl
  | cons c v ih =>
    rw [hexBody, List.flatMap_cons, List.length_append]
    change 4 + (hexBody v).length = _
    rw [ih, List.length_cons]
    omega

/-- A digit neither ends a literal nor guards anything. -/
theorem textEnd_digit : ∀ n < 16,
    ((Bytes.digit n == 0x22) = false ∧ (Bytes.digit n == 0x5C) = false)
    ∧ ((Bytes.digit n ≤ 0x1F || Bytes.digit n == 0x7F) && Bytes.digit n != 0x09) = false
    ∧ (Bytes.digit n).toNat < 0x80 := by
  decide

/-- A text written in hexadecimal escapes ends at its quote. -/
theorem textEnd_hexBody (n : Nat) (v : Bytes) :
    Scan.textEnd 0x22 n false (hexBody v ++ [0x22])
      = Scan.token .textLit (n + 4 * v.length + 1) := by
  -- a digit is neither the quote nor a backslash
  have hdigit (n k : Nat) (r : Bytes) : Scan.textEnd 0x22 n false (Bytes.digit (k % 16) :: r)
      = Scan.textEnd 0x22 (n + 1) false r := by
    obtain ⟨⟨hmark, hback⟩, hcontrol, -⟩ := textEnd_digit (k % 16) (Nat.mod_lt _ (by decide))
    rw [Scan.textEnd, hmark, hcontrol, hback]
    rfl
  induction v generalizing n with
  | nil => rfl
  | cons c v ih =>
    calc Scan.textEnd 0x22 n false (hexBody (c :: v) ++ [0x22])
      _ = Scan.textEnd 0x22 (n + 1 + 1) false (Bytes.digit (c.toNat / 16 % 16) ::
            Bytes.digit (c.toNat % 16) :: (hexBody v ++ [0x22])) := rfl
      _ = Scan.token .textLit (n + 1 + 1 + 1 + 1 + 4 * v.length + 1) := by rw [hdigit, hdigit, ih]
      _ = Scan.token .textLit (n + 4 * (c :: v).length + 1) := by
        rw [List.length_cons]
        congr 1
        omega

/-- Such a text is ASCII. -/
theorem ascii_literal (v : Bytes) : ∀ c ∈ literal v, c.toNat < 0x80 := by
  intro c hc
  have hdigit (k : Nat) : (Bytes.digit (k % 16)).toNat < 0x80 :=
    (textEnd_digit _ (Nat.mod_lt _ (by decide))).2.2
  rcases List.mem_cons.mp hc with rfl | hc
  · decide
  rcases List.mem_append.mp hc with hc | hc
  · obtain ⟨d, -, hd⟩ := List.mem_flatMap.mp hc
    -- the backslash, the letter x and two digits
    rcases hd with _ | ⟨_, hd⟩
    · decide
    rcases hd with _ | ⟨_, hd⟩
    · decide
    rcases hd with _ | ⟨_, hd⟩
    · exact hdigit _
    rcases hd with _ | ⟨_, hd⟩
    · exact hdigit _
    · cases hd
  · rw [List.mem_singleton.mp hc]
    decide

/-- A text that is short enough is what some literal denotes. -/
theorem exists_literal (hlength : v.length ≤ 16383) :
    ∃ t e, lex t.text = .ok ⟨[t], .ok e⟩ ∧ t.kind = .textLit ∧ textLitValue t.text = .ok v := by
  have hbody : (hexBody v ++ [0x22]).length = 1 + 4 * v.length := by
    rw [List.length_append, length_hexBody, List.length_singleton, Nat.add_comm]
  -- four bytes for each one of the value, and the two quotes, are few enough for a token
  have hscan : scanToken 0x22 (hexBody v ++ [0x22])
      = .ok (.textLit, (hexBody v ++ [0x22]).length) := by
    have hshort : ¬ 1 + 4 * v.length + 1 > maxTokenSize := by
      rw [show maxTokenSize = 65535 from rfl]
      omega
    refine scanToken_of_textEnd (.inl rfl) ?_
    rw [textEnd_hexBody, Scan.token, if_neg hshort, hbody, Nat.add_sub_cancel]
  have hsize : (literal v).length ≤ maxSourceSize := by
    rw [literal, List.length_cons, hbody, show maxSourceSize = 2147483647 from rfl]
    omega
  obtain ⟨t, e, hlex, hkind, htext⟩ :=
    lex_of_scanToken hscan hsize (Utf8.isValid_of_ascii (ascii_literal v))
  refine ⟨t, e, ?_, hkind, ?_⟩
  · rw [htext]
    exact hlex
  · rw [htext]
    exact textLitValue_eq_ok_iff.mpr (takesMany_hexBody v)

/-! ## §6 The literals of sources -/

/-- What becomes of a token that is a text literal with some body. -/
structure Settled (t : Token) (mark : UInt8) (body : Bytes) : Prop where
  text : t.text = mark :: (body ++ [mark])
  /-- The octets that it denotes are those of its units. -/
  value : ∀ v, textLitValue t.text = .ok v ↔ TakesMany body v []
  /-- What is reported otherwise is the first bad unit. -/
  fault : ∀ offset bad, textLitValue t.text = .error (offset, bad) → FirstBad body offset bad
  /-- That is what a reader by index finds with the mark that the scan leaves, whatever is behind
  the literal in the source. -/
  read : ∀ z, Reader.textValue? t.text (flag mark false false (body ++ mark :: z))
    = some (textLitValue t.text)
  /-- Without the mark it makes no difference whether the reader looks for units. -/
  unflagged : ∀ z, flag mark false false (body ++ mark :: z) = false →
    Reader.textValue? t.text false = Reader.textValue? t.text true
  /-- Where the reader finds a backslash, the body goes on behind it. -/
  goesOn : ∀ i, Visited body i → Reader.at? body i = some 0x5C → i + 1 < body.length
  /-- The grammar takes the literal if all units are good. -/
  taken : ∀ v, TakesMany body v [] → ∀ r ending stop, Grammar.textLit ⟨t :: r, ending, stop⟩
    = .ok (⟨t.loc, t.text, v⟩, ⟨r, ending, t.stop⟩)
  /-- The grammar refuses it at the first bad unit. -/
  refused : (∀ v, ¬ TakesMany body v []) → ∀ r ending stop, ∃ e offset bad,
    Grammar.textLit ⟨t :: r, ending, stop⟩ = .error e ∧ e.cause = .badEscape bad
      ∧ FirstBad body offset bad ∧ e.span = ⟨t.start + offset, bad.length⟩
      ∧ e.span.start + e.span.length < t.stop

/-- What is reported lies in the literal, before the mark that ends it. -/
theorem FirstBad.lt_length {offset : Nat} {bad : Bytes} (h : FirstBad body offset bad) :
    offset + bad.length < (mark :: (body ++ [mark])).length := by
  obtain ⟨u, v, r, rfl, rfl, -, -, -, hbad⟩ := h
  have hle := hbad.length_le
  simp only [List.length_cons, List.length_append, List.length_nil] at hle ⊢
  omega

theorem textLit_eq {t : Token} (hkind : t.kind = .textLit) (r : List Token)
    (ending : Except SyntaxError Token) (stop : Nat) :
    Grammar.textLit ⟨t :: r, ending, stop⟩ = match textLitValue t.text with
      | .ok value => .ok (⟨t.loc, t.text, value⟩, ⟨r, ending, t.stop⟩)
      | .error (offset, bad) => .error ⟨.badEscape bad, ⟨t.start + offset, bad.length⟩,
          t.pos.advance (t.text.take offset)⟩ := by
  change (if (t.kind == .textLit) = true then _ else _ : Grammar Tree.TextLit)
    ⟨t :: r, ending, stop⟩ = _
  rw [if_pos (by rw [hkind]; rfl)]
  cases textLitValue t.text with
  | ok value => rfl
  | error fault => rfl

/-- A literal is settled that ends where the scan for its end stops. -/
theorem settled_of_textEnd {t : Token} (hkind : t.kind = .textLit)
    (hmark : mark = 0x22 ∨ mark = 0x27) (htext : t.text = mark :: (body ++ [mark]))
    (hend : Scan.textEnd mark 1 false (body ++ [mark]) = .ok (.textLit, body.length + 1)) :
    Settled t mark body := by
  have hbody (z : Bytes) : (body ++ mark :: z).take (body.length + 1 - 1) = body := by
    rw [Nat.add_sub_cancel, List.take_left]
  -- an escape is noted exactly when the body has a backslash
  have hflag (z : Bytes) : flag mark false false (body ++ mark :: z) = body.contains 0x5C := by
    have hend' := Scan.textEnd_append hend z
    rw [List.append_assoc, List.singleton_append] at hend'
    rw [flag_of_textEnd hend' (by simp), hbody, Bool.false_or]
  have hguarded : Guarded body := by
    have h := guarded_of_textEnd hend
    rwa [hbody] at h
  -- escapes are decoded only if they were noted
  have hread {flagged : Bool} (h : flagged = false → 0x5C ∉ body) :
      Reader.textValue? t.text flagged = some (textLitValue t.text) := by
    refine Reader.textValue?_eq ?_ fun hf => ?_
    · rw [htext, List.length_cons, List.length_append, List.length_singleton]
      omega
    · have hne : mark ≠ 0x5C := by rcases hmark with rfl | rfl <;> decide
      rw [htext]
      simp [h hf, hne.symm]
  refine ⟨htext, fun v => ?_, fun offset bad h => ?_, fun z => hread fun h => ?_, fun z h => ?_,
    fun i hi hat => hi.lt_length hguarded hat, fun v hv r ending stop => ?_,
    fun hv r ending stop => ?_⟩
  · rw [htext]
    exact textLitValue_eq_ok_iff
  · rw [htext] at h
    exact firstBad_of_textLitValue h
  · rw [hflag] at h
    simpa using h
  · rw [hflag] at h
    have hplain : Reader.textValue? t.text false = _ := hread fun _ => by simpa using h
    have hmarked : Reader.textValue? t.text true = _ := hread (by simp)
    rw [hplain, hmarked]
  · rw [textLit_eq hkind, htext, textLitValue_eq_ok_iff.mpr hv]
  · rw [textLit_eq hkind]
    cases hvalue : textLitValue t.text with
    | ok v =>
      rw [htext] at hvalue
      exact absurd (textLitValue_eq_ok_iff.mp hvalue) (hv v)
    | error fault =>
      obtain ⟨offset, bad⟩ := fault
      rw [htext] at hvalue
      have hbad := firstBad_of_textLitValue hvalue
      have hlt : offset + bad.length < (mark :: (body ++ [mark])).length := hbad.lt_length
      refine ⟨_, offset, bad, rfl, rfl, hbad, rfl, ?_⟩
      rw [Token.stop, htext]
      dsimp only
      omega

/-- Every token of a source that is a text literal denotes what the units of its body denote, one
after the other, or is refused at its first bad unit; its readers agree on that whether or not it is
marked for a backslash, and no backslash is the last octet at which a unit is looked for. All octets
that are not too many are what some literal denotes. -/
theorem text_literals_exact :
    (∀ (src : Bytes) (l : Lexed), lex src = .ok l → ∀ t ∈ l.tokens, t.kind = .textLit →
      ∃ mark body, (mark = 0x22 ∨ mark = 0x27) ∧ Settled t mark body) ∧
    ∀ v : Bytes, v.length ≤ 16383 →
      ∃ t e, lex t.text = .ok ⟨[t], .ok e⟩ ∧ t.kind = .textLit ∧ textLitValue t.text = .ok v := by
  refine ⟨fun src l h t ht hkind => ?_, fun v hv => exists_literal hv⟩
  obtain ⟨c, r, extra, hscan, htext⟩ := lex_scanned h ht
  rw [hkind] at hscan
  obtain ⟨hc, hend⟩ := scanToken_textLit hscan
  have hle := Scan.le_of_textEnd hend
  have hlength := Scan.length_of_textEnd hend
  have hmark := Scan.getElem?_of_textEnd hend
  obtain ⟨n, rfl⟩ : ∃ n, extra = n + 1 := ⟨extra - 1, by omega⟩
  rw [Nat.add_sub_cancel] at hmark
  have hsplit : r.take (n + 1) = r.take n ++ [c] := by rw [List.take_add_one, hmark]; rfl
  have hn : (r.take n).length = n := by
    rw [List.length_take]
    omega
  refine ⟨c, r.take n, hc, settled_of_textEnd hkind hc ?_ ?_⟩
  · rw [htext, hsplit]
  · -- the scan needs no more than the token
    rw [← hsplit, hn]
    rw [← List.take_append_drop (n + 1) r] at hend
    refine Scan.textEnd_of_append hend ?_
    rw [List.length_take]
    omega

/-- A literal with an escape in hexadecimal, and one whose second escape is no octet. -/
theorem text_literals_exact_escapes :
    let good : Token := ⟨.textLit, 0, .start, "\"a\\x4\""⟩
    let large : Token := ⟨.textLit, 0, .start, "'\\101\\400'"⟩
    ∃ l l', lex good.text = .ok l ∧ lex large.text = .ok l' ∧ good ∈ l.tokens ∧ large ∈ l'.tokens
      ∧ good.kind = .textLit ∧ large.kind = .textLit
      ∧ Settled good 0x22 "a\\x4" ∧ Settled large 0x27 "\\101\\400"
      ∧ textLitValue good.text = .ok [0x61, 0x04]
      ∧ textLitValue large.text = .error (5, "\\400") := by
  intro good large
  have hl : lex good.text = _ := lex_eq (by decide) (by decide)
  have hl' : lex large.text = _ := lex_eq (by decide) (by decide)
  have ht : good ∈ (lexFrom 0 0 .start .outside [] good.text).tokens := by decide
  have hu : large ∈ (lexFrom 0 0 .start .outside [] large.text).tokens := by decide
  obtain ⟨mark, body, -, hgood⟩ := text_literals_exact.1 _ _ hl good ht rfl
  obtain ⟨mark', body', -, hlarge⟩ := text_literals_exact.1 _ _ hl' large hu rfl
  -- the mark and the body are told by the text of the token
  have hbody : mark = 0x22 ∧ body ++ [mark] = (Bytes.ofString "a\\x4") ++ [0x22] :=
    List.cons.inj hgood.text.symm
  have hbody' : mark' = 0x27 ∧ body' ++ [mark'] = (Bytes.ofString "\\101\\400") ++ [0x27] :=
    List.cons.inj hlarge.text.symm
  obtain ⟨rfl, hbody⟩ := hbody
  obtain ⟨rfl, hbody'⟩ := hbody'
  rw [List.append_cancel_right hbody] at hgood
  rw [List.append_cancel_right hbody'] at hlarge
  exact ⟨_, _, hl, hl', ht, hu, rfl, rfl, hgood, hlarge, by decide, by decide⟩

end Idl.Quoted
