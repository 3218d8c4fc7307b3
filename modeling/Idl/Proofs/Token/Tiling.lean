import Idl.Proofs.Reader.Linked

/-!
# Tokens tile their source

Neither of the words in which a lexer keeps offsets and lengths ever overflows: a call cuts off at
least one octet and at most as many as the longest token has, and it cuts between two characters. So
the tokens lie side by side, no octet is lost, and the calls come to an end.

* §1 no token is too long, §2 cuts between characters,
* §3 what a call leaves, §4 one call after the other,
* §5 the tokens of a source side by side.
-/

namespace Idl

/-! ## §1 Lengths -/

namespace Scan

/-- A token that is found is not too long. -/
def Short (x : Except ScanFault (TokenKind × Nat)) : Prop :=
  ∀ kind extra, x = .ok (kind, extra) → extra + 1 ≤ maxTokenSize

theorem short_error (f : ScanFault) : Short (.error f) := nofun

/-- A token of one or two octets. -/
theorem short_ok {kind : TokenKind} {extra : Nat} (h : extra ≤ 1) : Short (.ok (kind, extra)) := by
  rintro _ _ ⟨⟩
  simp only [maxTokenSize]
  omega

theorem short_token (kind : TokenKind) (length : Nat) : Short (token kind length) := by
  rw [token]
  split
  · exact short_error _
  · next hle =>
    rintro _ _ ⟨⟩
    simp only [maxTokenSize] at hle ⊢
    omega

theorem short_textEnd (mark : UInt8) (n : Nat) (escaped : Bool) (b : Bytes) :
    Short (textEnd mark n escaped b) := by
  fun_induction textEnd mark n escaped b with
  | case1 => exact short_error _
  | case2 n c r ih => exact ih
  | case3 => exact short_token _ _
  | case4 => exact short_error _
  | case5 => exact short_error _
  | case6 => exact short_error _
  | case7 n c r _ _ ih => exact ih

theorem short_number (b : Bytes) : Short (number b) := by
  -- a number is a token if it is well formed, with its sign or without
  have hfinish (sign : Nat) (body : Bytes) : Short
      (if (unsigned body).2.2 = true then token (unsigned body).1 (sign + (unsigned body).2.1)
        else .error ⟨.badNumber (b.take (sign + (unsigned body).2.1)), 0,
          sign + (unsigned body).2.1⟩) := by
    split
    · exact short_token _ _
    · exact short_error _
  unfold number
  split
  · split
    · exact hfinish 1 _
    · exact short_error _
  · exact hfinish 0 b

theorem short_other (c : UInt8) (r : Bytes) : Short (other c r) := by
  unfold other
  split
  · split
    · exact short_token _ _
    split
    · exact short_error _
    · exact short_error _
  · exact short_error _

/-- Every token is short enough for its length to fit. -/
theorem short_scanToken (c : UInt8) (r : Bytes) : Short (scanToken c r) := by
  cases scannedBy c r with
  | sigil _ hx => exact hx ▸ short_ok (Nat.zero_le 1)
  | blanks _ hx => exact hx ▸ short_token _ _
  | doubleColon _ _ hx => exact hx ▸ short_ok le_rfl
  | arrow _ _ hx => exact hx ▸ short_ok le_rfl
  | carriageReturn _ _ hx => exact hx ▸ short_ok le_rfl
  | comment _ _ hx => exact hx ▸ short_token _ _
  | blockComment _ _ _ hx => exact hx ▸ short_token _ _
  | unterminated _ _ hx => exact hx ▸ short_error _
  | text _ hx => exact hx ▸ short_textEnd _ _ _ _
  | number _ hx => exact hx ▸ short_number _
  | ident _ hx => exact hx ▸ short_token _ _
  | other hx => exact hx ▸ short_other c r

end Scan

/-! ## §2 Cuts -/

/-- A place in a text between two characters, or at one of its ends. -/
def Utf8.Between (b : Bytes) (n : Nat) : Prop :=
  ∃ before after : List Char, b = ofChars before ++ ofChars after ∧ (ofChars before).length = n

/-- A well-formed text has a place between two characters wherever what follows is well formed. -/
theorem Utf8.between_of_isValid {b : Bytes} {n : Nat} (hb : isValid b = true) (hn : n ≤ b.length)
    (h : isValid (b.drop n) = true) : Between b n := by
  have hsplit := isValid_append (begins_of_isValid h) (b.take n)
  rw [List.take_append_drop, hb, h, Bool.and_true] at hsplit
  refine ⟨chars (b.take n), chars (b.drop n), ?_, ?_⟩
  · rw [ofChars_chars hsplit.symm, ofChars_chars h, List.take_append_drop]
  · rw [ofChars_chars hsplit.symm, List.length_take, Nat.min_eq_left hn]

namespace Lexer

open Reader (Tokens locate)

variable {src : Bytes} {l : Lexer}

/-! ## §3 What a call leaves -/

/-- The place where the next token is cut. -/
def place (l : Lexer) : Tokens := ⟨l.rest, l.offset.toNat, l.line⟩

/-- A lexer stands in its source, between two characters. -/
structure Stands (src : Bytes) (l : Lexer) : Prop where
  good : l.place.Good src
  size : src.length ≤ maxSourceSize

namespace Stands

theorem start (hsize : src.length ≤ maxSourceSize) (hvalid : Utf8.isValid src = true) :
    Stands src (start src) where
  good := ⟨rfl, Nat.zero_le _, hvalid⟩
  size := hsize

/-- What has been cut off and what is left make up the source. -/
theorem offset_add_length (h : Stands src l) : l.offset.toNat + l.rest.length = src.length := by
  have hbound : l.offset.toNat ≤ src.length := h.good.bound
  have hrest : l.rest = src.drop l.offset.toNat := h.good.rest
  rw [hrest, List.length_drop]
  omega

theorem between (h : Stands src l) (hvalid : Utf8.isValid src = true) :
    Utf8.Between src l.offset.toNat :=
  Utf8.between_of_isValid hvalid h.good.bound (h.good.rest ▸ h.good.valid)

section cut

variable {c : UInt8} {r : Bytes} {kind : TokenKind} {extra : Nat}

/-- The word that counts octets does not overflow. -/
theorem toNat_offset (h : Stands src l) {n : Nat} (hn : n ≤ l.rest.length) :
    (l.offset + n.toUInt32).toNat = l.offset.toNat + n := by
  have hlength := h.offset_add_length
  have hsize := h.size
  simp only [maxSourceSize] at hsize
  simp only [UInt32.toNat_add, Nat.toUInt32, UInt32.toNat_ofNat']
  omega

/-- Behind a token the lexer stands in its source again. -/
theorem behind (h : Stands src l) (hrest : l.rest = c :: r)
    (hscan : scanToken c r = .ok (kind, extra)) (line : AnnotLine) :
    Stands src ⟨l.rest.drop (extra + 1), l.offset + (extra + 1).toUInt32, line⟩ where
  good := by
    have hle := Reader.length_of_scanToken hscan
    have hoffset := h.toNat_offset (n := extra + 1) (by rw [hrest, List.length_cons]; omega)
    have hbehind := h.good.behind hrest hscan line
    rw [place, hoffset]
    exact hbehind
  size := h.size

/-- At the end of the source the end is handed out, and nothing is cut off. -/
theorem call_nil (h : l.rest = []) :
    ∃ line, call src l = some (.ok eof, ⟨[], l.offset, line⟩) := by
  obtain ⟨line, hline⟩ := Reader.exists_next?_eof l.line
  refine ⟨line, ?_⟩
  have hfrom : Reader.from? ([] : Bytes) 0 = some [] := rfl
  simp [call, h, hfrom, hline, eof]

theorem call_of_error (h : Stands src l) (hrest : l.rest = c :: r) {f : ScanFault}
    (hscan : scanToken c r = .error f) :
    call src l
      = some (.error (locate src f.cause ⟨l.offset.toNat + f.offset, f.length⟩), l) := by
  have hcut : Reader.scan l.rest = some (.error f) := by
    have hvalid : Utf8.isValid l.rest = true := h.good.valid
    rw [hrest] at hvalid ⊢
    rw [Reader.scan_eq hvalid, hscan]
    rfl
  have hne : (l.rest.length == 0) = false := by simp [hrest]
  rw [call, hne]
  simp only [Bool.false_eq_true, if_false, hcut]
  rfl

/-- A call that scans a token hands it out, unless it splits an annotation. -/
theorem call_of_ok (h : Stands src l) (hrest : l.rest = c :: r)
    (hscan : scanToken c r = .ok (kind, extra)) :
    call src l = some (match l.line.next? kind (l.rest.take (extra + 1)) with
      | none => (.error (locate src .splitAnnot ⟨l.offset.toNat, extra + 1⟩),
          ⟨l.rest.drop (extra + 1), l.offset + (extra + 1).toUInt32, l.line⟩)
      | some line => (.ok ⟨kind, (extra + 1).toUInt16⟩,
          ⟨l.rest.drop (extra + 1), l.offset + (extra + 1).toUInt32, line⟩)) := by
  have hle := Reader.length_of_scanToken hscan
  -- the scanner of slices finds the same token
  have hcut : Reader.scan l.rest = some (.ok (kind, extra + 1)) := by
    have hvalid : Utf8.isValid l.rest = true := h.good.valid
    rw [hrest] at hvalid ⊢
    rw [Reader.scan_eq hvalid, hscan]
    rfl
  -- and the rest behind it is there
  have hfrom : Reader.from? l.rest (extra + 1) = some (l.rest.drop (extra + 1)) :=
    Reader.from?_eq (by rw [hrest, List.length_cons]; omega)
  have hne : (l.rest.length == 0) = false := by simp [hrest]
  rw [call, hne]
  simp only [Bool.false_eq_true, if_false, hcut, hfrom, Option.bind_eq_bind, Option.bind_some]
  cases l.line.next? kind (l.rest.take (extra + 1)) with
  | none => rfl
  | some line => rfl

end cut

/-- No call crashes, and whatever it hands out, the lexer stands in its source afterwards. -/
theorem call (h : Stands src l) : ∃ a l', Lexer.call src l = some (a, l') ∧ Stands src l' := by
  cases hrest : l.rest with
  -- at the end, where the call stays
  | nil =>
    obtain ⟨line, hcall⟩ : ∃ line, Lexer.call src l = _ := call_nil hrest
    refine ⟨_, _, hcall, ⟨⟨?_, h.good.bound, rfl⟩, h.size⟩⟩
    exact hrest ▸ h.good.rest
  | cons c r =>
    cases hscan : scanToken c r with
    -- an error moves nothing
    | error f => exact ⟨_, _, h.call_of_error hrest hscan, h⟩
    | ok x =>
      have hcall := h.call_of_ok hrest hscan
      cases hline : l.line.next? x.1 (l.rest.take (x.2 + 1)) with
      | none =>
        rw [hline] at hcall
        exact ⟨_, _, hcall, h.behind hrest hscan l.line⟩
      | some line =>
        rw [hline] at hcall
        exact ⟨_, _, hcall, h.behind hrest hscan line⟩

/-! ## §4 One call after the other -/

/-- Any number of calls, by induction on their number. -/
theorem after (h : Stands src l) (n : Nat) : ∃ l', Lexer.after src n l = some l' ∧ Stands src l' := by
  induction n generalizing l with
  | zero => exact ⟨l, rfl, h⟩
  | succ n ih =>
    obtain ⟨a, l₁, hcall, h₁⟩ := h.call
    obtain ⟨l', hafter, h'⟩ := ih h₁
    exact ⟨l', by rw [Lexer.after, hcall]; exact hafter, h'⟩

end Stands

/-- Later calls are those of the lexer that a call leaves. -/
theorem after_succ {a : Except SyntaxError Emitted} {l' : Lexer} (h : call src l = some (a, l'))
    (n : Nat) : after src (n + 1) l = after src n l' := by
  rw [after, h]
  rfl

theorem answer_succ {a : Except SyntaxError Emitted} {l' : Lexer} (h : call src l = some (a, l'))
    (n : Nat) : answer src (n + 1) l = answer src n l' := by
  rw [answer, answer, after_succ h]

theorem answer_zero {a : Except SyntaxError Emitted} {l' : Lexer} (h : call src l = some (a, l')) :
    answer src 0 l = some a := by
  rw [answer, after, Option.bind_some, h]
  rfl

/-- At the end of the source every call hands out the end. -/
theorem answer_nil (h : l.rest = []) (n : Nat) : answer src n l = some (.ok eof) := by
  induction n generalizing l with
  | zero =>
    obtain ⟨line, hcall⟩ : ∃ line, call src l = _ := Stands.call_nil h
    exact answer_zero hcall
  | succ n ih =>
    obtain ⟨line, hcall⟩ : ∃ line, call src l = _ := Stands.call_nil h
    rw [answer_succ hcall]
    exact ih rfl

/-! ## §5 Side by side -/

/-- What a call hands out for a token. -/
def lexeme (t : Token) : Emitted := ⟨t.kind, t.text.length.toUInt16⟩

/-- A token that begins at an offset: it is what the source has between two places between
characters, it is not empty, and its length fits 16 bits. -/
structure Tile (src : Bytes) (n : Nat) (t : Token) : Prop where
  start : t.start = n
  kind : t.kind ≠ .eof
  text : t.text = (src.drop n).take t.text.length
  pos : 1 ≤ t.text.length
  short : t.text.length ≤ 65535
  begins : Utf8.Between src n
  ends : Utf8.Between src (n + t.text.length)

/-- Tokens lie side by side in a source, from an offset on. -/
inductive Tiled (src : Bytes) : Nat → List Token → Prop where
  | nil (n : Nat) : Tiled src n []
  | cons {n : Nat} {t : Token} {ts : List Token} (tile : Tile src n t)
      (rest : Tiled src (n + t.text.length) ts) : Tiled src n (t :: ts)

/-- What the calls of a lexer come to, one by one: the tokens, each when the offset is where it
starts, and then the error, or the end for ever. -/
structure Hands (src : Bytes) (l : Lexer) (x : Lexed) : Prop where
  count : x.tokens.length ≤ l.rest.length
  tiled : Tiled src l.offset.toNat x.tokens
  token : ∀ i t, x.tokens[i]? = some t → answer src i l = some (.ok (lexeme t))
  offset : ∀ i t, x.tokens[i]? = some t → ∃ l', after src i l = some l' ∧ l'.offset.toNat = t.start
  error : ∀ e, x.ending = .error e → answer src x.tokens.length l = some (.error e)
  eof : ∀ t, x.ending = .ok t → x.tokens.flatMap (·.text) = l.rest
    ∧ ∀ n, x.tokens.length ≤ n → answer src n l = some (.ok eof)

namespace Hands

/-- With an error the calls come to an end. -/
theorem stop {e : SyntaxError} {l' : Lexer} (h : call src l = some (.error e, l')) :
    Hands src l ⟨[], .error e⟩ where
  count := Nat.zero_le _
  tiled := .nil _
  token := by simp
  offset := by simp
  error e' he := by
    cases he
    exact answer_zero h
  eof := by simp

theorem nil (h : l.rest = []) (t : Token) : Hands src l ⟨[], .ok t⟩ where
  count := Nat.zero_le _
  tiled := .nil _
  token := by simp
  offset := by simp
  error := by simp
  eof _ _ := ⟨h.symm, fun n _ => answer_nil h n⟩

/-- One token in front of what the lexer behind it hands out. -/
theorem cons {t : Token} {l' : Lexer} {x : Lexed} (hcall : call src l = some (.ok (lexeme t), l'))
    (htile : Tile src l.offset.toNat t) (hrest : l.rest = t.text ++ l'.rest)
    (hoffset : l'.offset.toNat = l.offset.toNat + t.text.length) (h : Hands src l' x) :
    Hands src l ⟨t :: x.tokens, x.ending⟩ where
  -- a token has at least one byte
  count := by
    have hcount := h.count
    have hpos := htile.pos
    simp only [hrest, List.length_cons, List.length_append]
    omega
  tiled := .cons htile (hoffset ▸ h.tiled)
  -- the first answer is this token, and the later ones are those of the rest
  token i u hi := by
    cases i with
    | zero =>
      cases hi
      exact answer_zero hcall
    | succ i =>
      rw [answer_succ hcall]
      exact h.token i u hi
  offset i u hi := by
    cases i with
    | zero =>
      cases hi
      exact ⟨l, rfl, htile.start.symm⟩
    | succ i =>
      rw [after_succ hcall]
      exact h.offset i u hi
  error e he := by
    rw [List.length_cons, answer_succ hcall]
    exact h.error e he
  -- behind the last token the end is repeated
  eof u hu := by
    obtain ⟨htext, heof⟩ := h.eof u hu
    refine ⟨by rw [List.flatMap_cons, htext, hrest], fun n hle => ?_⟩
    cases n with
    | zero => simp at hle
    | succ n =>
      rw [answer_succ hcall]
      exact heof n (by simpa using hle)

end Hands

/-- The token at the place where a lexer stands. -/
theorem Stands.tile (h : Stands src l) (hvalid : Utf8.isValid src = true) {c : UInt8} {r : Bytes}
    {kind : TokenKind} {extra : Nat} (hrest : l.rest = c :: r)
    (hscan : scanToken c r = .ok (kind, extra)) (pos : Pos) :
    Tile src l.offset.toNat ⟨kind, l.offset.toNat, pos, l.rest.take (extra + 1)⟩ := by
  have hle := Reader.length_of_scanToken hscan
  have hlength : (l.rest.take (extra + 1)).length = extra + 1 := by
    rw [hrest, List.length_take, List.length_cons]
    omega
  have hsource : l.rest = src.drop l.offset.toNat := h.good.rest
  -- the places before and behind the token are those of the lexer before and after the call
  have hends := (h.behind hrest hscan l.line).between hvalid
  rw [h.toNat_offset (by rw [hrest, List.length_cons]; omega)] at hends
  refine ⟨rfl, scanToken_ne_eof hscan, ?_, ?_, ?_, h.between hvalid, ?_⟩
  · simp only [hlength, ← hsource]
  · simp only [hlength]
    omega
  · simp only [hlength]
    exact Scan.short_scanToken c r kind extra hscan
  · simp only [hlength]
    exact hends

/-- A lexer hands out the tokens from its place on, by induction on what is left. -/
theorem Stands.hands (h : Stands src l) (hvalid : Utf8.isValid src = true) :
    Hands src l (l.place.lexed src) := by
  induction hn : l.rest.length using Nat.strongRecOn generalizing l with
  | ind n ih =>
    cases hrest : l.rest with
    | nil =>
      rw [Tokens.lexed_nil hrest]
      exact .nil hrest _
    | cons c r =>
      cases hscan : scanToken c r with
      | error f =>
        rw [Tokens.lexed_of_error h.good hrest hscan]
        exact .stop (h.call_of_error hrest hscan)
      | ok x =>
        obtain ⟨kind, extra⟩ := x
        have hle := Reader.length_of_scanToken hscan
        have hcall := h.call_of_ok hrest hscan
        cases hline : l.line.next? kind (l.rest.take (extra + 1)) with
        | none =>
          rw [hline] at hcall
          rw [Tokens.lexed_of_split hrest hscan hline]
          exact .stop hcall
        | some line =>
          rw [hline] at hcall
          rw [Tokens.lexed_of_ok h.good hrest hscan hline]
          have hfits : extra + 1 ≤ l.rest.length := by
            rw [hrest, List.length_cons]
            omega
          have hlength : (l.rest.take (extra + 1)).length = extra + 1 := by
            rw [List.length_take, Nat.min_eq_left hfits]
          have hoffset := h.toNat_offset hfits
          -- less is left behind the token
          have hless : (l.rest.drop (extra + 1)).length < n := by
            rw [List.length_drop]
            omega
          have hnext := ih _ hless (h.behind hrest hscan line) rfl
          rw [place, hoffset] at hnext
          refine .cons ?_ (h.tile hvalid hrest hscan _) (List.take_append_drop _ _).symm ?_ hnext
          · show Lexer.call src l = some (.ok ⟨kind, (l.rest.take (extra + 1)).length.toUInt16⟩, _)
            rw [hcall, hlength]
          · show _ = l.offset.toNat + (l.rest.take (extra + 1)).length
            rw [hoffset, hlength]

end Lexer

/-- The calls of a lexer on a well-formed source that is not too long. However many there are, none
crashes, and the octets that are cut off and those that are left make up the source. The first ones,
no more than the source has octets, hand out the tokens, which lie side by side from the first octet
on; the next one is an error, or else the texts of the tokens are the whole source, and that call
and all later ones hand out the end, with no length. -/
theorem tokens_tile_source (src : Bytes) (hsize : src.length ≤ 2 ^ 31 - 1)
    (hvalid : Utf8.isValid src = true) :
    (∀ n, ∃ l, Lexer.after src n (.start src) = some l ∧ l.rest = src.drop l.offset.toNat
        ∧ l.offset.toNat + l.rest.length = src.length)
      ∧ ∃ ts ending, lex src = .ok ⟨ts, ending⟩ ∧ ts.length ≤ src.length ∧ Lexer.Tiled src 0 ts
        ∧ (∀ i t, ts[i]? = some t →
            Lexer.answer src i (.start src) = some (.ok ⟨t.kind, t.text.length.toUInt16⟩)
              ∧ ∃ l, Lexer.after src i (.start src) = some l ∧ l.offset.toNat = t.start)
        ∧ match ending with
          | .error e => Lexer.answer src ts.length (.start src) = some (.error e)
          | .ok _ => ts.flatMap (·.text) = src
              ∧ ∀ n, ts.length ≤ n → Lexer.answer src n (.start src) = some (.ok ⟨.eof, 0⟩) := by
  have hstart := Lexer.Stands.start hsize hvalid
  refine ⟨fun n => ?_, ?_⟩
  · obtain ⟨l, hafter, hl⟩ := hstart.after n
    exact ⟨l, hafter, hl.good.rest, hl.offset_add_length⟩
  · have hhands := hstart.hands hvalid
    -- the list of tokens is that of all answers
    have hlex : lex src = .ok ((Lexer.start src).place.lexed src) := lex_eq hsize hvalid
    generalize (Lexer.start src).place.lexed src = x at hhands hlex
    obtain ⟨ts, ending⟩ := x
    refine ⟨ts, ending, hlex, hhands.count, hhands.tiled, fun i t hi => ?_, ?_⟩
    · exact ⟨hhands.token i t hi, hhands.offset i t hi⟩
    · cases ending with
      | error e => exact hhands.error e rfl
      | ok t => exact hhands.eof t rfl

/-- A comment with a character of two octets, and the line end after it: two tokens, and then the

end of the source. -/
theorem tokens_tile_comment_line :
    ([0x2F, 0x2F, 0xC3, 0xA9, 0x0A] : Bytes).length ≤ 2 ^ 31 - 1
      ∧ Utf8.isValid [0x2F, 0x2F, 0xC3, 0xA9, 0x0A] = true
      ∧ ∃ ts ending, lex [0x2F, 0x2F, 0xC3, 0xA9, 0x0A] = .ok ⟨ts, ending⟩
        ∧ ts.length ≤ 5 ∧ Lexer.Tiled [0x2F, 0x2F, 0xC3, 0xA9, 0x0A] 0 ts := by
  have hsize : ([0x2F, 0x2F, 0xC3, 0xA9, 0x0A] : Bytes).length ≤ 2 ^ 31 - 1 := by decide
  have hvalid : Utf8.isValid [0x2F, 0x2F, 0xC3, 0xA9, 0x0A] = true := by decide
  obtain ⟨-, ts, ending, hlex, hcount, htiled, -⟩ := tokens_tile_source _ hsize hvalid
  exact ⟨hsize, hvalid, ts, ending, hlex, hcount, htiled⟩

end Idl
