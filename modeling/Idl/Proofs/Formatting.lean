import Idl.Proofs.Grammar.Simulation
import Idl.Proofs.Token.Lexemes

/-!
# Formatting does not count

Two sources with the same significant tokens mean the same. Both are compared with a third reading,
in which the tokens stand end to end: each of them is that reading, moved to where its own tokens
stand. Such a move keeps the order of tokens, so that reports come in the same order too.

* §1 tokens end to end and the relocation that takes them to their source,
* §2 the relocation fits, and keeps the order,
* §3 what two sources have in common.
-/

namespace Idl

/-! ## §1 Tokens end to end -/

namespace Token

/-- Tokens of the same kinds and texts, end to end from an offset on. -/
def pack (n : Nat) : List Token → List Token
  | [] => []
  | t :: r => ⟨t.kind, n, .unknown, t.text⟩ :: pack (n + t.text.length) r

/-- The offset at which the packed tokens end. -/
def packEnd (n : Nat) : List Token → Nat
  | [] => n
  | t :: r => packEnd (n + t.text.length) r

/-- The token that holds a packed offset, and the packed offset at which it starts. What is beyond
all tokens belongs to the end. -/
def holder (n : Nat) (e : Token) (s : Nat) : List Token → Nat × Token
  | [] => (n, e)
  | t :: r => if s < n + t.text.length then (n, t) else holder (n + t.text.length) e s r

/-- Where a packed offset is found in the source. -/
def shift (n : Nat) (e : Token) (s : Nat) (ts : List Token) : Nat :=
  let (m, t) := holder n e s ts
  t.start + (s - m)

variable {n : Nat} {e : Token} {ts : List Token}

theorem shift_cons_of_lt {t : Token} {s : Nat} (h : s < n + t.text.length) :
    shift n e s (t :: ts) = t.start + (s - n) := by
  simp [shift, holder, h]

theorem shift_cons_of_le {t : Token} {s : Nat} (h : n + t.text.length ≤ s) :
    shift n e s (t :: ts) = shift (n + t.text.length) e s ts := by
  simp [shift, holder, Nat.not_lt.mpr h]

/-- No offset is found before all tokens. -/
theorem le_shift {k : Nat} (hts : ∀ t ∈ ts, k ≤ t.start) (he : k ≤ e.start) (s : Nat) :
    k ≤ shift n e s ts := by
  induction ts generalizing n with
  | nil =>
    simp only [shift, holder]
    omega
  | cons t r ih =>
    by_cases h : s < n + t.text.length
    · rw [shift_cons_of_lt h]
      have := hts t (List.mem_cons_self ..)
      omega
    · rw [shift_cons_of_le (by omega)]
      exact ih fun u hu => hts u (List.mem_cons_of_mem _ hu)

/-- Offsets keep their order. -/
theorem shift_lt_shift (h : InOrder ts e) {s s' : Nat} (hn : n ≤ s) (hlt : s < s') :
    shift n e s ts < shift n e s' ts := by
  induction ts generalizing n with
  | nil =>
    simp only [shift, holder]
    omega
  | cons t r ih =>
    by_cases hs' : s' < n + t.text.length
    · rw [shift_cons_of_lt hs', shift_cons_of_lt (by omega)]
      omega
    · have hbehind : shift n e s' (t :: r) = shift (n + t.text.length) e s' r :=
        shift_cons_of_le (by omega)
      rw [hbehind]
      by_cases hs : s < n + t.text.length
      · -- the first offset is inside `t`, the second one behind it
        rw [shift_cons_of_lt hs]
        have hafter : ∀ u ∈ r, t.stop ≤ u.start := fun u hu =>
          ((List.pairwise_cons.mp h.pairwise).1 u hu).le
        have hle : t.stop ≤ shift (n + t.text.length) e s' r :=
          le_shift hafter (h.le t (List.mem_cons_self ..)) s'
        simp only [Token.stop] at hle
        omega
      · rw [shift_cons_of_le (by omega)]
        exact ih h.tail (by omega)

/-- Packed tokens stand end to end. -/
theorem packed_pack : Packed n (pack n ts) (packEnd n ts) := by
  induction ts generalizing n with
  | nil => rfl
  | cons t r ih => exact ⟨rfl, ih⟩

/-- Of tokens, packing keeps the kinds and the texts, and nothing else. -/
theorem pack_congr {us : List Token}
    (h : ts.map (fun t => (t.kind, t.text)) = us.map fun t => (t.kind, t.text)) :
    pack n ts = pack n us ∧ packEnd n ts = packEnd n us := by
  induction ts generalizing n us with
  | nil =>
    cases us with
    | nil => exact ⟨rfl, rfl⟩
    | cons => simp at h
  | cons t r ih =>
    cases us with
    | nil => simp at h
    | cons u v =>
      simp only [List.map_cons, List.cons.injEq, Prod.mk.injEq] at h
      obtain ⟨⟨hkind, htext⟩, hrest⟩ := h
      obtain ⟨hpack, hend⟩ := ih (n := n + t.text.length) hrest
      simp [pack, packEnd, hkind, ← htext, hpack, hend]

end Token

/-! ## §2 The relocation to the source -/

/-- The relocation that takes packed tokens to where they stand in their source. -/
def unpack (ts : List Token) (e : Token) : Relocation where
  start s := Token.shift 0 e s ts
  stop s := if s = 0 then 0 else Token.shift 0 e (s - 1) ts + 1
  pos s := (Token.holder 0 e s ts).2.pos

/-- From an offset on, a relocation takes packed tokens to their source. -/
structure Unpacks (φ : Relocation) (e : Token) (n : Nat) (ts : List Token) : Prop where
  start : ∀ s, n ≤ s → φ.start s = Token.shift n e s ts
  stop : ∀ s, n < s → φ.stop s = Token.shift n e (s - 1) ts + 1
  pos : ∀ s, n ≤ s → φ.pos s = (Token.holder n e s ts).2.pos

theorem unpacks_unpack (ts : List Token) (e : Token) : Unpacks (unpack ts e) e 0 ts where
  start _ _ := rfl
  stop s hs := by simp [unpack, Nat.ne_of_gt hs]
  pos _ _ := rfl

namespace Unpacks

variable {φ : Relocation} {e t : Token} {n : Nat} {ts : List Token}

theorem tail (h : Unpacks φ e n (t :: ts)) : Unpacks φ e (n + t.text.length) ts where
  start s hs := by rw [h.start s (by omega), Token.shift_cons_of_le hs]
  stop s hs := by rw [h.stop s (by omega), Token.shift_cons_of_le (by omega)]
  pos s hs := by
    rw [h.pos s (by omega), Token.holder, if_neg (by omega)]

/-- The first packed token is taken to the first token, and ends where it ends. -/
theorem head (h : Unpacks φ e n (t :: ts)) (ht : 0 < t.text.length) :
    φ.start n = t.start ∧ φ.pos n = t.pos ∧ φ.stop (n + t.text.length) = t.stop := by
  refine ⟨?_, ?_, ?_⟩
  · rw [h.start n (Nat.le_refl _), Token.shift_cons_of_lt (by omega)]
    omega
  · rw [h.pos n (Nat.le_refl _), Token.holder, if_pos (by omega)]
  · rw [h.stop _ (by omega), Token.shift_cons_of_lt (by omega), Token.stop]
    omega

/-- Packed tokens are taken back to their source. -/
theorem map_move_pack (h : Unpacks φ e n ts) (htext : ∀ t ∈ ts, t.text ≠ []) :
    (Token.pack n ts).map (Token.move φ) = ts := by
  induction ts generalizing n with
  | nil => rfl
  | cons t r ih =>
    obtain ⟨hstart, hpos, -⟩ := h.head (List.length_pos_iff.mpr (htext t (List.mem_cons_self ..)))
    rw [Token.pack, List.map_cons, ih h.tail fun u hu => htext u (List.mem_cons_of_mem _ hu)]
    simp [Token.move, hstart, hpos]

/-- They end where their source says. -/
theorem fits_pack (h : Unpacks φ e n ts) (htext : ∀ t ∈ ts, t.text ≠ []) :
    ∀ u ∈ Token.pack n ts, u.Fits φ := by
  induction ts generalizing n with
  | nil => intro u hu; cases hu
  | cons t r ih =>
    intro u hu
    obtain ⟨hstart, -, hstop⟩ := h.head (List.length_pos_iff.mpr (htext t (List.mem_cons_self ..)))
    rcases List.mem_cons.mp hu with rfl | hu
    · change φ.start n + t.text.length = φ.stop (n + t.text.length)
      rw [hstart, hstop]
      rfl
    · exact ih h.tail (fun u hu => htext u (List.mem_cons_of_mem _ hu)) u hu

/-- The end of the packed tokens is taken to the end of the source. -/
theorem move_end (h : Unpacks φ e n ts) (hkind : e.kind = .eof) (htext : e.text = []) :
    Token.move φ ⟨.eof, Token.packEnd n ts, .unknown, []⟩ = e := by
  induction ts generalizing n with
  | nil =>
    obtain ⟨kind, start, pos, text⟩ := e
    cases hkind
    cases htext
    simp [Token.move, Token.packEnd, h.start n (Nat.le_refl _), h.pos n (Nat.le_refl _),
      Token.shift, Token.holder]
  | cons t r ih => exact ih h.tail

end Unpacks

/-- Nodes keep the order in which they begin. -/
theorem keepsOrder_unpack {ts : List Token} {e : Token} (h : Token.InOrder ts e) :
    KeepsOrder (unpack ts e).loc := by
  have hmono {s s' : Nat} (hlt : s < s') : Token.shift 0 e s ts < Token.shift 0 e s' ts :=
    Token.shift_lt_shift h (Nat.zero_le s) hlt
  refine fun a b => ⟨fun hlt => ?_, hmono⟩
  rcases Nat.lt_trichotomy a.span.start b.span.start with hab | hab | hab
  · exact hab
  · exact absurd hlt (by simp [Relocation.loc, Span.between, hab])
  · exact absurd (hmono hab) (Nat.lt_asymm hlt)

/-- The position before the packed tokens. -/
def packedCursor (ts : List Token) : Cursor :=
  ⟨Token.pack 0 ts, .ok ⟨.eof, Token.packEnd 0 ts, .unknown, []⟩, 0⟩

theorem packedCursor_move {ts : List Token} {e : Token} (h : Token.InOrder ts e)
    (hkind : e.kind = .eof) (htext : e.text = []) :
    (packedCursor ts).move (unpack ts e) = ⟨ts, .ok e, 0⟩ := by
  have hφ := unpacks_unpack ts e
  simp only [packedCursor, Cursor.move, hφ.map_move_pack h.text, Except.map,
    hφ.move_end hkind htext]
  rfl

theorem packedCursor_fits {ts : List Token} {e : Token} (h : Token.InOrder ts e) :
    (packedCursor ts).Fits (unpack ts e) :=
  ⟨(unpacks_unpack ts e).fits_pack h.text, _, rfl, rfl, Token.packed_pack⟩

/-! ## §3 What two sources have in common -/

/-- Two outcomes of reading: results that are related, or refusals that say the same, wherever they
point to. -/
inductive Agree {α β : Type} (R : α → β → Prop) :
    Except SyntaxError α → Except SyntaxError β → Prop where
  | accepted {x : α} {y : β} (h : R x y) : Agree R (.ok x) (.ok y)
  | refused {e e' : SyntaxError} (code : e.cause.code = e'.cause.code)
      (message : e.cause.message = e'.cause.message)
      (expectation : e.cause.expectation = e'.cause.expectation)
      (found : e.cause.found = e'.cause.found) : Agree R (.error e) (.error e')

namespace SchemaError

/-- What a violation says, its place apart. -/
def content (e : SchemaError) : Nat × Bytes × Bytes × Bytes :=
  (e.code, e.message, e.entity, e.scope)

end SchemaError

namespace Warning

/-- What a warning says, its place apart. -/
def content (w : Warning) : Nat × Bytes := (w.code, w.message)

end Warning

/-- The same outcome of two compilations: the same violations in the same order, or schemas that
differ in positions only and so have the same encoding and identities. -/
inductive SameOutcome :
    Except (List SchemaError) Schema → Except (List SchemaError) Schema → Prop where
  | errors {l l' : List SchemaError} (h : l.map (·.content) = l'.map (·.content)) :
      SameOutcome (.error l) (.error l')
  | schema {s s' : Schema} (h : s.erase = s'.erase) (encoding : s.encoding = s'.encoding)
      (id : s.id = s'.id) (services : s.services.map (·.id) = s'.services.map (·.id)) :
      SameOutcome (.ok s) (.ok s')

/-- Two compilations say the same. -/
structure SameCompilation (c c' : Compilation) : Prop where
  outcome : SameOutcome c.outcome c'.outcome
  warnings : c.warnings.map (·.content) = c'.warnings.map (·.content)

/-- A schema without positions tells its encoding and identities. -/
theorem SameOutcome.of_erase {s s' : Schema} (h : s.erase = s'.erase) :
    SameOutcome (.ok s) (.ok s') := by
  have hservices (s : Schema) : s.erase.services.map (·.id) = s.services.map (·.id) := by
    simp [Schema.erase, Service.erase]
  refine .schema h ?_ (congrArg Schema.id h :) ?_
  · rw [← s.encoding_erase, h, s'.encoding_erase]
  · rw [← hservices s, h, hservices s']

namespace Tree.File

/-- A file loses the same places wherever it stands. -/
theorem erase_moveFile (φ : Relocation) (isEmpty : Bool) (d : File) :
    (Grammar.moveFile φ isEmpty d).erase = d.erase :=
  erase_mapLoc φ.loc d

/-- A file that is moved and keeps its order compiles to the same. -/
theorem sameCompilation_mapLoc {f g : Loc → Loc} (hf : KeepsOrder f) (hg : KeepsOrder g)
    (d : File) (sourcePath : Bytes) :
    SameCompilation ((d.mapLoc f).compile sourcePath) ((d.mapLoc g).compile sourcePath) := by
  have hempty {f : Loc → Loc} (hf : KeepsOrder f) :
      (d.mapLoc f).errors.isEmpty = d.errors.isEmpty := by
    rw [errors_mapLoc hf, List.isEmpty_map]
  have hcontent {f : Loc → Loc} (hf : KeepsOrder f) :
      (d.mapLoc f).errors.map (·.content) = d.errors.map (·.content) := by
    rw [errors_mapLoc hf, List.map_map]
    rfl
  constructor
  · simp only [compile, hempty hf, hempty hg]
    split
    · exact .of_erase ((schema_mapLoc f d sourcePath).trans (schema_mapLoc g d sourcePath).symm)
    · exact .errors ((hcontent hf).trans (hcontent hg).symm)
  · simp only [compile, warnings_mapLoc hf, warnings_mapLoc hg, List.map_map]
    rfl

end Tree.File

/-- The reading of a source beside the reading of its tokens end to end. -/
theorem file_tracked_of_lex {src : Bytes} {l : Lexed} {e : Token} (h : lex src = .ok l)
    (hend : l.ending = .ok e) (requirePackage : Bool) :
    ∃ isEmpty : Bool, Grammar.Tracked (unpack l.significant e)
      (Grammar.moveFile (unpack l.significant e) isEmpty) 0
      (Grammar.file requirePackage (packedCursor l.significant))
      (Grammar.file requirePackage ⟨l.significant, l.ending, 0⟩) := by
  obtain ⟨-, hkind, htext, -⟩ := lex_lexes h hend
  have horder := significant_inOrder h hend
  have htracked := Grammar.file_tracked requirePackage (packedCursor_fits horder)
  rw [packedCursor_move horder hkind htext, ← hend] at htracked
  exact ⟨_, htracked⟩

/-- Formatting does not count. Two sources that are cut into the same significant tokens, compared
by kind and text, are refused in the same words, or they have the same tree, places apart; and then
they compile to the same violations and warnings in the same order, or to schemas that differ in
positions only. -/
theorem agree_of_significant_eq {a b : Bytes} {l m : Lexed} {e f : Token}
    (ha : lex a = .ok l) (hea : l.ending = .ok e) (hb : lex b = .ok m) (heb : m.ending = .ok f)
    (hsame : l.significant.map (fun t => (t.kind, t.text))
      = m.significant.map fun t => (t.kind, t.text))
    (sourcePath : Bytes) (allowMissingPackage : Bool) :
    Agree (fun d d' => d.erase = d'.erase)
        (parseFile a allowMissingPackage) (parseFile b allowMissingPackage)
      ∧ Agree SameCompilation
        (compileSource a sourcePath allowMissingPackage)
        (compileSource b sourcePath allowMissingPackage) := by
  obtain ⟨_, hl⟩ := file_tracked_of_lex ha hea (!allowMissingPackage)
  obtain ⟨_, hm⟩ := file_tracked_of_lex hb heb (!allowMissingPackage)
  have hpacked : packedCursor m.significant = packedCursor l.significant := by
    obtain ⟨hpack, hend⟩ := Token.pack_congr (n := 0) hsame
    simp [packedCursor, hpack, hend]
  rw [hpacked] at hm
  simp only [compileSource, parseFile_of_lex ha, parseFile_of_lex hb]
  generalize Grammar.file (!allowMissingPackage) (packedCursor l.significant) = x at hl hm
  generalize Grammar.file (!allowMissingPackage) ⟨l.significant, l.ending, 0⟩ = y at hl
  generalize Grammar.file (!allowMissingPackage) ⟨m.significant, m.ending, 0⟩ = z at hm
  -- both readings go along with the one of the packed tokens
  cases hl with
  | error h =>
    cases hm with
    | error h' =>
      have hcause := h.trans h'.symm
      constructor <;> exact .refused (by rw [hcause]) (by rw [hcause]) (by rw [hcause]) (by rw [hcause])
  | @ok d =>
    cases hm with
    | ok =>
      refine ⟨.accepted ?_, .accepted ?_⟩
      · exact (Tree.File.erase_moveFile ..).trans (Tree.File.erase_moveFile ..).symm
      · exact Tree.File.sameCompilation_mapLoc (keepsOrder_unpack (significant_inOrder ha hea))
          (keepsOrder_unpack (significant_inOrder hb heb)) d sourcePath

/-- A file that is written without a blank too many, and the same one with comments. -/
theorem agree_of_significant_eq_reformatted :
    Agree SameCompilation (compileSource "package p;message M\x7bint32 x=1;\x7d" [] false)
      (compileSource "// one\npackage p ;\n\nmessage M \x7b /* two */ int32 x = 1;\n\x7d" [] false) :=
  (agree_of_significant_eq (e := ⟨.eof, 31, ⟨1, 32⟩, []⟩) (f := ⟨.eof, 56, ⟨5, 2⟩, []⟩)
    (lex_eq (by decide) (by decide +kernel)) (by decide +kernel)
    (lex_eq (by decide) (by decide +kernel)) (by decide +kernel) (by decide +kernel) [] false).2

end Idl
