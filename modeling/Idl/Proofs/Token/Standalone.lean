import Idl.Proofs.Texts
import Idl.Proofs.Token.Numbers
import Idl.Proofs.Token.Tiling

/-!
# Tokens that stand alone

A token depends neither on what stands before it nor on what follows it: a source that has nothing
but the octets of a token is that token, with the same marks. And it goes as far as it can. Nothing
that could go on with a name or a number stands behind it, a text goes up to the first quote that no
backslash escapes, and a comment between marks up to the first mark that ends one.

* §1 quotes that are not escaped, §2 a token without what follows it,
* §3 marks, §4 one token alone, §5 how far a token goes, §6 the tokens of a source.
-/

namespace Idl

variable {c : UInt8} {b r u z : Bytes} {kind : TokenKind} {extra : Nat}

/-! ## §1 Quotes -/

/-- The number of backslashes at the end. -/
def slashes (b : Bytes) : Nat := (b.reverse.takeWhile (· == 0x5C)).length

/-- An octet is not escaped if the backslashes right in front of it escape one another. -/
def Unescaped (b : Bytes) (i : Nat) : Prop := Even (slashes (b.take i))

/-- A backslash is escaped or escapes, in turn. -/
theorem even_slashes_append_singleton :
    Even (slashes (b ++ [c])) ↔ (c = 0x5C → ¬ Even (slashes b)) := by
  by_cases hc : c = 0x5C
  · subst hc
    simp [slashes, Nat.even_add_one]
  · simp [slashes, hc]

/-- The places of the quotes that could end a text, from an offset on. -/
def closing (mark : UInt8) (start : Nat) (b : Bytes) : Set Nat :=
  {i | start ≤ i ∧ b[i]? = some mark ∧ Unescaped b i}

/-- An octet that does not end a text is passed over. -/
theorem isLeast_closing_of_succ {mark : UInt8} {start k : Nat}
    (h : IsLeast (closing mark (start + 1) b) k) (hnot : start ∉ closing mark start b) :
    IsLeast (closing mark start b) k := by
  obtain ⟨⟨hle, hplace⟩, hleast⟩ := h
  refine ⟨⟨Nat.le_of_succ_le hle, hplace⟩, fun i hi => hleast ⟨?_, hi.2⟩⟩
  refine Nat.lt_of_le_of_ne hi.1 ?_
  rintro rfl
  exact hnot hi

/-- The scan for the end of a text finds the first quote that is not escaped. It knows whether the
octets before end in a backslash that is not escaped itself. -/
theorem isLeast_of_textEnd {mark : UInt8} {escaped : Bool}
    (h : Scan.textEnd mark u.length escaped r = .ok (kind, extra))
    (hescaped : escaped = true ↔ ¬ Even (slashes u)) :
    IsLeast (closing mark u.length (u ++ r)) extra := by
  induction r generalizing u escaped with
  | nil => cases escaped <;> cases h
  | cons c r ih =>
    have hlength : (u ++ [c]).length = u.length + 1 := by simp
    have hhere : (u ++ c :: r)[u.length]? = some c := by simp
    have hfree : Unescaped (u ++ c :: r) u.length ↔ Even (slashes u) := by
      rw [Unescaped, List.take_left]
    -- what is passed over goes to the octets before, and the state tells how many backslashes
    -- they end in
    have hnext {escaped' : Bool}
        (hrest : Scan.textEnd mark (u.length + 1) escaped' r = .ok (kind, extra))
        (hstate : escaped' = true ↔ ¬ Even (slashes (u ++ [c])))
        (hnot : u.length ∉ closing mark u.length (u ++ c :: r)) :
        IsLeast (closing mark u.length (u ++ c :: r)) extra := by
      have hleast := ih (by rwa [hlength]) hstate
      rw [hlength, ← List.append_cons] at hleast
      exact isLeast_closing_of_succ hleast hnot
    cases escaped with
    | true =>
      have hodd := hescaped.mp rfl
      exact hnext h (by simp [even_slashes_append_singleton, hodd])
        fun hmem => hodd (hfree.mp hmem.2.2)
    | false =>
      have heven : Even (slashes u) := not_not.mp fun hodd => by simpa using hescaped.mpr hodd
      rw [Scan.textEnd] at h
      by_cases hc : c = mark
      · subst hc
        rw [if_pos (beq_self_eq_true c)] at h
        obtain rfl : extra = u.length := by
          rw [(Scan.token_eq_ok h).2, Nat.add_sub_cancel]
        exact ⟨⟨le_rfl, hhere, hfree.mpr heven⟩, fun i hi => hi.1⟩
      rw [if_neg (by simpa using hc)] at h
      split at h
      · split at h
        · cases h
        · split at h <;> cases h
      · exact hnext h (by simp [even_slashes_append_singleton, heven])
          fun hmem => hc (Option.some.inj (hhere.symm.trans hmem.2.1))

/-! ## §2 Without what follows -/

namespace Scan

/-- White space ends where it ended when what follows is cut off. -/
theorem blanks_take (n : Nat) (b : Bytes) : blanks n (b.take (blanks n b - n)) = blanks n b := by
  fun_induction blanks n b with
  | case1 n r ih =>
    have hle := le_blanks (n + 1) r
    rw [show blanks (n + 1) r - n = (blanks (n + 1) r - (n + 1)) + 1 by omega,
      List.take_succ_cons, blanks, ih]
  | case2 n r ih =>
    have hle := le_blanks (n + 1) r
    rw [show blanks (n + 1) r - n = (blanks (n + 1) r - (n + 1)) + 1 by omega,
      List.take_succ_cons, blanks, ih]
  -- a no-break space, of two bytes
  | case3 n r ih =>
    have hle := le_blanks (n + 2) r
    rw [show blanks (n + 2) r - n = (blanks (n + 2) r - (n + 2)) + 1 + 1 by omega,
      List.take_succ_cons, List.take_succ_cons, blanks, ih]
  -- a byte order mark, of three bytes
  | case4 n r ih =>
    have hle := le_blanks (n + 3) r
    rw [show blanks (n + 3) r - n = (blanks (n + 3) r - (n + 3)) + 1 + 1 + 1 by omega,
      List.take_succ_cons, List.take_succ_cons, List.take_succ_cons, blanks, ih]
  | case5 n => rw [Nat.sub_self, List.take_zero, blanks] <;> simp

theorem run_take_run (p : UInt8 → Bool) (b : Bytes) : run p (b.take (run p b)) = run p b := by
  rw [take_run, run, List.takeWhile_takeWhile]
  simp [run]

end Scan

/-- What is found is found in what ends with it. -/
theorem Bytes.indexOf?_take {p : Bytes} {k n : Nat} (h : indexOf? b p = some k)
    (hn : k + p.length ≤ n) : indexOf? (b.take n) p = some k := by
  obtain ⟨hk, hleast⟩ := indexOf?_eq_some_iff.mp h
  refine indexOf?_eq_some_iff.mpr ⟨?_, fun i hi => hleast ?_⟩
  · change p <+: (b.take n).drop k
    rw [List.drop_take]
    exact List.prefix_take_iff.mpr ⟨hk, by omega⟩
  · change p <+: (b.take n).drop i at hi
    rw [List.drop_take] at hi
    exact hi.trans (List.take_prefix _ _)

/-- A blank of several octets is read again without what follows it. -/
theorem scanToken_take_of_other (h : Scan.other c r = .ok (kind, extra)) :
    scanToken c (r.take extra) = .ok (kind, extra) := by
  obtain ⟨z, hz⟩ := Scan.exists_of_other h
  have hscan (y : Bytes) : scanToken c y = Scan.other c y := by
    have hfirst : c = 0xC2 ∨ c = 0xEF :=
      hz.imp (fun h => (List.cons.inj h).1) fun h => (List.cons.inj h).1
    rcases hfirst with rfl | rfl
    · rw [scanToken]
      rfl
    · rw [scanToken]
      rfl
  have hblanks := Scan.blanks_of_other h
  have htake := Scan.blanks_take 0 (c :: r)
  rw [hblanks, Nat.sub_zero, List.take_succ_cons] at htake
  -- the first blank is a part of the token
  obtain ⟨y, hy⟩ : ∃ y, c :: r.take extra = 0xC2 :: 0xA0 :: y
      ∨ c :: r.take extra = 0xEF :: 0xBB :: 0xBF :: y := by
    rcases hz with ⟨⟨⟩⟩ | ⟨⟨⟩⟩
    · have hle : 2 ≤ extra + 1 := hblanks ▸ Scan.le_blanks 2 z
      obtain ⟨m, rfl⟩ := Nat.exists_eq_add_of_le' (Nat.le_of_succ_le_succ hle)
      exact ⟨z.take m, .inl rfl⟩
    · have hle : 3 ≤ extra + 1 := hblanks ▸ Scan.le_blanks 3 z
      obtain ⟨m, rfl⟩ := Nat.exists_eq_add_of_le' (Nat.le_of_succ_le_succ hle)
      exact ⟨z.take m, .inr rfl⟩
  rw [(Scan.other_eq hz).1, hblanks] at h
  rw [hscan, (Scan.other_eq hy).1, htake, h]

/-- The octets of a token without those behind it are the same token. -/
theorem scanToken_take (h : scanToken c r = .ok (kind, extra)) :
    scanToken c (r.take extra) = .ok (kind, extra) := by
  have hle := Reader.length_of_scanToken h
  have hlength : (r.take extra).length = extra := List.length_take_of_le hle
  have hcons {d : UInt8} (hr : r.headD 0 = d) (hd : d ≠ 0) : ∃ z, r = d :: z := by
    cases r with
    | nil => exact absurd hr.symm hd
    | cons x r => exact ⟨r, by rw [← hr]; rfl⟩
  -- each kind of token is read again from what tells how far it goes
  cases scannedAs h with
  | sigil hc => rw [scanToken, hc]
  | blanks hc =>
    have hblanks := Scan.blanks_take 1 r
    rcases hc with rfl | rfl
    · change Scan.token .space (Scan.blanks 1 _) = _
      rw [hblanks]
      exact h
    · change Scan.token .space (Scan.blanks 1 _) = _
      rw [hblanks]
      exact h
  | doubleColon hc hr =>
    obtain ⟨z, rfl⟩ := hcons hr (by decide)
    subst hc
    rfl
  | arrow hc hr =>
    obtain ⟨z, rfl⟩ := hcons hr (by decide)
    subst hc
    rfl
  | carriageReturn hc hr =>
    obtain ⟨z, rfl⟩ := hcons hr (by decide)
    subst hc
    rfl
  | comment hc hr =>
    obtain ⟨z, rfl⟩ := hcons hr (by decide)
    subst hc
    have hcomment (y : Bytes) : scanToken 0x2F (0x2F :: y) = Scan.token .comment
        (1 + Scan.run (fun c => c != 0x0A && c != 0x0D) (0x2F :: y)) := rfl
    have hrun := Scan.run_take_run (fun c => c != 0x0A && c != 0x0D) (0x2F :: z)
    rw [Scan.take_run, List.takeWhile_cons_of_pos rfl] at hrun ⊢
    rw [hcomment, hrun, ← hcomment]
    exact h
  | @blockComment hc n hindex hr =>
    obtain ⟨z, rfl⟩ := hcons hr (by decide)
    subst hc
    rw [List.drop_succ_cons, List.drop_zero] at hindex
    have hblock {y : Bytes} (hy : Bytes.indexOf? y "*/" = some n) :
        scanToken 0x2F (0x2A :: y) = Scan.token .blockComment (n + 4) := by
      have hsigil : TokenKind.ofSigil? 0x2F = none := rfl
      simp [scanToken, hsigil, hy]
    have htake : Bytes.indexOf? (z.take (n + 2)) "*/" = some n := Bytes.indexOf?_take hindex le_rfl
    rw [hblock hindex] at h
    rw [List.take_succ_cons, hblock htake]
    exact h
  | text hc htext =>
    refine scanToken_of_textEnd hc (Scan.textEnd_of_append (z := r.drop extra) ?_ (by omega))
    rwa [List.take_append_drop]
  | number hc hnumber =>
    -- nothing at all is behind the numeral, which ends it
    have hscan := scanToken_of_written (Number.written_of_number hnumber)
      (by rw [hlength]; exact Scan.short_scanToken c r kind extra h) (z := []) (by simp [Scan.Ends])
    rwa [List.append_nil, hlength] at hscan
  | ident hc =>
    have hword : Bytes.isWord c = true := by
      rcases hc with rfl | hc
      · rfl
      · simp [Bytes.isWord, hc]
    rw [scanToken_of_isWord hword] at h ⊢
    split at h
    · exact absurd (Scan.number_kind h) (by decide)
    · next hdigit => rwa [if_neg hdigit, Scan.run_take_run]
  | other hother => exact scanToken_take_of_other hother

/-- What the literal of a tree is kept as is read off its token. -/
theorem kept?_of_lex {src : Bytes} {l : Lexed} (h : lex src = .ok l) {t : Token} (ht : t ∈ l.tokens)
    (loc : Loc) (v : Int) :
    Tree.IntLit.kept? ⟨loc, t.text, v⟩ = Integer.Kept.ofToken? t.kind t.text := by
  obtain ⟨c, r, extra, hscan, htext⟩ := lex_scanned h ht
  rw [Tree.IntLit.kept?, htext]
  dsimp only
  rw [scanToken_take hscan]

/-! ## §3 Marks -/

/-- What is noted about a token beside its kind and length: whether a text has escapes, whether it
stands between single quotes, and whether a comment goes over the end of a line. -/
structure Marks where
  escapes : Bool
  singleQuoted : Bool
  multiline : Bool
deriving DecidableEq, Repr

/-- The marks of a token at the front of octets. The escapes of a text are noted on the way to the
quote that ends it. -/
def Marks.of (kind : TokenKind) (length : Nat) : Bytes → Marks
  | [] => ⟨false, false, false⟩
  | c :: r => ⟨kind == .textLit && Quoted.flag c false false r, kind == .textLit && c == 0x27,
      AnnotLine.breaksLine kind ((c :: r).take length)⟩

/-- A token has the same marks without what follows it. -/
theorem Marks.of_take (h : scanToken c r = .ok (kind, extra)) :
    Marks.of kind (extra + 1) (c :: r.take extra) = Marks.of kind (extra + 1) (c :: r) := by
  have hflag : (kind == .textLit && Quoted.flag c false false (r.take extra))
      = (kind == .textLit && Quoted.flag c false false r) := by
    -- the flag of a text is read up to its closing mark, the others on the token itself
    by_cases hkind : kind = .textLit
    · subst hkind
      have hfront := (scanToken_textLit (scanToken_take h)).2
      rw [Quoted.flag_of_textEnd hfront (by simp),
        Quoted.flag_of_textEnd (scanToken_textLit h).2 (by simp), List.take_take,
        Nat.min_eq_left (Nat.sub_le _ _)]
    · rw [beq_false_of_ne hkind]
      rfl
  simp only [Marks.of, hflag, List.take_succ_cons, List.take_take, Nat.min_self]

/-! ## §4 One token alone -/

/-- The length of a token fits 16 bits. -/
theorem toNat_toUInt16 {n : Nat} (h : n + 1 ≤ maxTokenSize) :
    (n + 1).toUInt16.toNat = n + 1 := by
  rw [Nat.toUInt16, UInt16.toNat_ofNat', Nat.mod_eq_of_lt]
  exact Nat.lt_of_le_of_lt h (by decide)

namespace Lexer

variable {src : Bytes} {l l' : Lexer}

/-- The marks of what a call hands out. -/
def marks (l : Lexer) (e : Emitted) : Marks := .of e.kind e.length.toNat l.rest

/-- The octets of what a call hands out. -/
def text (l : Lexer) (e : Emitted) : Bytes := l.rest.take e.length.toNat

/-- What the call after `n` others hands out, with its marks. -/
def shows (src : Bytes) (n : Nat) (l : Lexer) : Option (Except SyntaxError (Emitted × Marks)) :=
  (after src n l).bind fun l => (call src l).map fun x => x.1.map fun e => (e, l.marks e)

theorem shows_zero {e : Emitted} (h : call src l = some (.ok e, l')) :
    shows src 0 l = some (.ok (e, l.marks e)) := by
  rw [shows, after, Option.bind_some, h]
  rfl

theorem shows_succ {a : Except SyntaxError Emitted} (h : call src l = some (a, l')) (n : Nat) :
    shows src (n + 1) l = shows src n l' := by
  rw [shows, shows, after_succ h]

/-- At the end of the source every call hands out the end, which has no marks. -/
theorem shows_nil (h : l.rest = []) (n : Nat) :
    shows src n l = some (.ok (eof, ⟨false, false, false⟩)) := by
  induction n generalizing l with
  | zero =>
    obtain ⟨line, hcall⟩ : ∃ line, call src l = _ := Stands.call_nil h
    rw [shows_zero hcall, marks, h]
    rfl
  | succ n ih =>
    obtain ⟨line, hcall⟩ : ∃ line, call src l = _ := Stands.call_nil h
    rw [shows_succ hcall]
    exact ih rfl

/-- A source that is one token: a lexer takes it, the first call hands out this token, and all later
ones the end. -/
structure Alone (x : Bytes) (e : Emitted) (m : Marks) : Prop where
  size : x.length ≤ maxSourceSize
  valid : Utf8.isValid x = true
  first : shows x 0 (.start x) = some (.ok (e, m))
  later : ∀ n, shows x (n + 1) (.start x) = some (.ok (eof, ⟨false, false, false⟩))
  lexed : e.kind ≠ .eof → ∃ t stop, lex x = .ok ⟨[t], .ok stop⟩ ∧ t.kind = e.kind ∧ t.text = x

/-- The end of a source is all that an empty source has. -/
theorem alone_nil : Alone [] eof ⟨false, false, false⟩ where
  size := Nat.zero_le _
  valid := rfl
  first := shows_nil rfl 0
  later n := shows_nil rfl (n + 1)
  lexed h := absurd rfl h

/-- A token at the front of a well-formed text is one alone. -/
theorem alone_of_scanToken (h : scanToken c r = .ok (kind, extra))
    (hvalid : Utf8.isValid (c :: r) = true) :
    Alone (c :: r.take extra) ⟨kind, (extra + 1).toUInt16⟩ (.of kind (extra + 1) (c :: r)) := by
  have hshort := Scan.short_scanToken c r kind extra h
  have hscan := scanToken_take h
  have hlength : (r.take extra).length = extra :=
    List.length_take_of_le (Reader.length_of_scanToken h)
  have hsize : (c :: r.take extra).length ≤ maxSourceSize := by
    rw [List.length_cons, hlength]
    exact hshort.trans (by decide)
  -- what follows the token is valid, so the token is valid as well
  have hfront : Utf8.isValid (c :: r.take extra) = true := by
    have hrest := Utf8.begins_of_isValid (isValid_drop_of_scanToken h hvalid)
    have happend := Utf8.isValid_append hrest (c :: r.take extra)
    rw [List.cons_append, List.take_append_drop, hvalid] at happend
    exact (Bool.and_eq_true_iff.mp happend.symm).1
  -- the scan of the token alone ends where the text does
  have hcall := (Stands.start hsize hfront).call_of_ok rfl hscan
  have hmarks : (start (c :: r.take extra)).marks ⟨kind, (extra + 1).toUInt16⟩
      = .of kind (extra + 1) (c :: r) := by
    rw [marks, toNat_toUInt16 hshort]
    exact Marks.of_take h
  have hempty : (c :: r.take extra).drop (extra + 1) = [] :=
    List.drop_eq_nil_of_le (by rw [List.length_cons, hlength])
  -- the first call, the calls after it, and the list of all tokens
  refine ⟨hsize, hfront, ?_, fun n => ?_, fun _ => ?_⟩
  · rw [← hmarks]
    exact shows_zero hcall
  · exact (shows_succ hcall n).trans (shows_nil hempty n)
  · exact lex_of_scanToken (by rwa [hlength]) hsize hfront

/-! ## §5 How far a token goes -/

/-- What a token looks like, and why it does not go on with the octets behind it. -/
structure Longest (kind : TokenKind) (x rest : Bytes) : Prop where
  ident : kind = .ident → (∃ c t, x = c :: t ∧ (c = 0x5F ∨ Bytes.isLetter c = true)
      ∧ ∀ d ∈ t, Bytes.isWord d = true) ∧ ∀ d ∈ rest.head?, Bytes.isWord d = false
  number : kind ∈ Scan.numberKinds → Number.Written kind x
      ∧ (∀ d ∈ rest.head?, Bytes.isWord d = false)
      ∧ ∀ k y, Number.Written k y → y <+: x ++ rest → y.length ≤ x.length
  textLit : kind = .textLit → ∃ mark k, (mark = 0x22 ∨ mark = 0x27) ∧ x.head? = some mark
      ∧ x.length = k + 1 ∧ IsLeast (closing mark 1 (x ++ rest)) k
  blockComment : kind = .blockComment → ∃ k, "/*" <+: x ∧ x.length = k + 2
      ∧ IsLeast {i | 2 ≤ i ∧ "*/" <+: (x ++ rest).drop i} k

/-- A token at the front goes as far as it can. -/
theorem longest_of_scanToken (h : scanToken c r = .ok (kind, extra)) :
    Longest kind (c :: r.take extra) (r.drop extra) := by
  have happend : c :: r.take extra ++ r.drop extra = c :: r := by
    rw [List.cons_append, List.take_append_drop]
  have hlength : (c :: r.take extra).length = extra + 1 := by
    rw [List.length_cons, List.length_take_of_le (Reader.length_of_scanToken h)]
  refine ⟨?ident, ?number, ?textLit, ?blockComment⟩
  case ident =>
    rintro rfl
    cases scannedAs h with
    | sigil hc => exact absurd (TokenKind.mem_sigilKinds hc) (by decide)
    | number _ hnumber => exact absurd (Scan.number_kind hnumber) (by decide)
    -- a run of word bytes, which the next byte does not continue
    | ident hc =>
      rw [Scan.take_run, Scan.drop_run]
      refine ⟨⟨c, _, rfl, hc, fun d hd => List.mem_takeWhile_imp hd⟩, fun d hd => ?_⟩
      have hnot := List.head?_dropWhile_not Bytes.isWord r
      rw [hd] at hnot
      simpa using hnot
  case number =>
    intro hkind
    cases scannedAs h with
    | sigil hc =>
      have hdisjoint : ∀ k ∈ TokenKind.sigilKinds, k ∉ Scan.numberKinds := by decide
      exact absurd hkind (hdisjoint kind (TokenKind.mem_sigilKinds hc))
    | number _ hnumber =>
      -- no longer piece of the source is a number
      refine ⟨Number.written_of_number hnumber, Number.not_isWord_behind hnumber,
        fun k y hy hfront => ?_⟩
      rw [happend] at hfront
      rw [hlength]
      exact hy.length_le hfront hnumber
    | _ => exact absurd hkind (by decide)
  case textLit =>
    rintro rfl
    obtain ⟨hc, htext⟩ := scanToken_textLit h
    -- the opening mark holds no backslash, so the count begins at zero
    have hslashes : slashes [c] = 0 := by rcases hc with rfl | rfl <;> rfl
    refine ⟨c, extra, hc, rfl, hlength, ?_⟩
    rw [happend]
    exact isLeast_of_textEnd (u := [c]) htext (by simp [hslashes])
  case blockComment =>
    rintro rfl
    cases scannedAs h with
    | sigil hc => exact absurd (TokenKind.mem_sigilKinds hc) (by decide)
    | number _ hnumber => exact absurd (Scan.number_kind hnumber) (by decide)
    -- the closing pair found is the first one behind the opening one
    | @blockComment hc n hindex hr =>
      obtain ⟨hstar, hleast⟩ := Bytes.indexOf?_eq_some_iff.mp hindex
      have hdrop (i : Nat) : (c :: r).drop (i + 2) = (r.drop 1).drop i := by
        rw [List.drop_succ_cons, List.drop_drop, Nat.add_comm]
      refine ⟨n + 2, ?_, hlength, ⟨Nat.le_add_left 2 n, ?_⟩, fun i hi => ?_⟩
      · cases r with
        | nil => cases hr
        | cons d r =>
          obtain rfl : d = 0x2A := hr
          subst hc
          exact ⟨r.take (n + 2), rfl⟩
      · rw [happend, hdrop]
        exact hstar
      · obtain ⟨hi, hthere⟩ := hi
        obtain ⟨j, rfl⟩ := Nat.exists_eq_add_of_le' hi
        rw [happend, hdrop] at hthere
        exact Nat.add_le_add_right (hleast hthere) 2

/-- The end of a source has no octets, and nothing is asked of it. -/
theorem longest_eof (x rest : Bytes) : Longest .eof x rest where
  ident h := nomatch h
  number h := absurd h (by decide)
  textLit h := nomatch h
  blockComment h := nomatch h

/-! ## §6 The tokens of a source -/

/-- What a call hands out is what stands at the front of what is left. -/
theorem Stands.call_cases (h : Stands src l) {e : Emitted}
    (hcall : Lexer.call src l = some (.ok e, l')) :
    (l.rest = [] ∧ l'.rest = [] ∧ e = eof) ∨ ∃ c r extra, l.rest = c :: r
      ∧ scanToken c r = .ok (e.kind, extra) ∧ e.length = (extra + 1).toUInt16
      ∧ l'.rest = r.drop extra := by
  -- nothing is left, or a first byte that the scan starts from
  cases hrest : l.rest with
  | nil =>
    obtain ⟨line, heof⟩ : ∃ line, Lexer.call src l = _ := call_nil hrest
    rw [hcall] at heof
    cases heof
    exact .inl ⟨rfl, rfl, rfl⟩
  | cons c r =>
    right
    cases hscan : scanToken c r with
    | error f =>
      rw [h.call_of_error hrest hscan] at hcall
      cases hcall
    | ok x =>
      obtain ⟨kind, extra⟩ := x
      rw [h.call_of_ok hrest hscan] at hcall
      cases hline : l.line.next? kind (l.rest.take (extra + 1)) with
      | none =>
        rw [hline] at hcall
        cases hcall
      | some line =>
        rw [hline] at hcall
        cases hcall
        exact ⟨c, r, extra, rfl, hscan, rfl, by rw [hrest]; rfl⟩

end Lexer

/-- The tokens that the calls of a lexer hand out, in whatever state the calls before have left it.
A token covers the octets at the front of what is left. They are one token alone, of the same kind,
length and marks, with nothing but the end behind it; and the token goes as far as it can. -/
theorem tokens_stand_alone (src : Bytes) (hsize : src.length ≤ 2 ^ 31 - 1)
    (hvalid : Utf8.isValid src = true) (n : Nat) (l l' : Lexer) (e : Emitted)
    (hafter : Lexer.after src n (.start src) = some l)
    (hcall : Lexer.call src l = some (.ok e, l')) :
    l.rest = l.text e ++ l'.rest ∧ (l.text e).length = e.length.toNat
      ∧ Lexer.Alone (l.text e) e (l.marks e) ∧ Lexer.Longest e.kind (l.text e) l'.rest := by
  -- every lexer that calls lead to stands in the source, so a call is a scan or the end
  obtain ⟨l₁, hafter₁, hl⟩ := (Lexer.Stands.start hsize hvalid).after n
  obtain rfl : l = l₁ := Option.some.inj (hafter.symm.trans hafter₁)
  rcases hl.call_cases hcall with ⟨hrest, hrest', rfl⟩ |
    ⟨c, r, extra, hrest, hscan, hlength, hrest'⟩
  · have htext : l.text Lexer.eof = [] := by rw [Lexer.text, hrest, List.take_nil]
    have hmarks : l.marks Lexer.eof = ⟨false, false, false⟩ := by
      rw [Lexer.marks, hrest]
      rfl
    rw [htext, hmarks]
    exact ⟨by rw [hrest, hrest']; rfl, rfl, Lexer.alone_nil, Lexer.longest_eof _ _⟩
  · have hshort := Scan.short_scanToken c r e.kind extra hscan
    -- the length fits sixteen bits, so the call reports it in full
    have hextra : e.length.toNat = extra + 1 := by rw [hlength, toNat_toUInt16 hshort]
    have htext : l.text e = c :: r.take extra := by
      rw [Lexer.text, hrest, hextra, List.take_succ_cons]
    have hmarks : l.marks e = .of e.kind (extra + 1) (c :: r) := by
      rw [Lexer.marks, hextra, hrest]
    have hvalid' : Utf8.isValid (c :: r) = true := hrest ▸ hl.good.valid
    rw [htext, hmarks, hrest']
    refine ⟨?_, ?_, ?_, Lexer.longest_of_scanToken hscan⟩
    · rw [hrest, List.cons_append, List.take_append_drop]
    · rw [hextra, List.length_cons, List.length_take_of_le (Reader.length_of_scanToken hscan)]
    · have halone := Lexer.alone_of_scanToken hscan hvalid'
      rwa [← hlength] at halone

/-- A number between other tokens: a sign, a fraction and an exponent. -/
theorem number_stands_alone :
    (Bytes.ofString "a-1.5e3,").length ≤ 2 ^ 31 - 1 ∧ Utf8.isValid "a-1.5e3," = true
      ∧ ∃ l l', Lexer.after "a-1.5e3," 1 (.start "a-1.5e3,") = some l
        ∧ Lexer.call "a-1.5e3," l = some (.ok ⟨.floatLit, 6⟩, l')
        ∧ l.text ⟨.floatLit, 6⟩ = "-1.5e3"
        ∧ Lexer.Alone "-1.5e3" ⟨.floatLit, 6⟩ ⟨false, false, false⟩
        ∧ Lexer.Longest .floatLit "-1.5e3" "," := by
  have hsize : (Bytes.ofString "a-1.5e3,").length ≤ 2 ^ 31 - 1 := by decide
  have hvalid : Utf8.isValid "a-1.5e3," = true := by decide +kernel
  -- one call reads the name, and the number is next, its sign included
  have hafter : Lexer.after "a-1.5e3," 1 (.start "a-1.5e3,") = some ⟨"-1.5e3,", 1, .outside⟩ := rfl
  have hcall : Lexer.call "a-1.5e3," ⟨"-1.5e3,", 1, .outside⟩
      = some (.ok ⟨.floatLit, 6⟩, ⟨",", 7, .outside⟩) := rfl
  have h := tokens_stand_alone _ hsize hvalid 1 _ _ _ hafter hcall
  exact ⟨hsize, hvalid, _, _, hafter, hcall, rfl, h.2.2.1, h.2.2.2⟩

end Idl
