import Idl.Proofs.Compile.Order
import Idl.Proofs.Grammar.Layout

/-!
# Places in syntax trees and errors

Every node of a tree is where its tokens are in the source, and every error points into it. Main
statement: `places_of_source`.

* §1 files and declarations over their source,
* §2 reading a source, §3 every source.
-/

namespace Idl

/-! ## §1 Over a source -/

/-- A node lies over a source: the first significant tokens make it up, and it and its parts cover
the octets of the source from the first to the last of their tokens. -/
def Node.LiesOver (n : Node) (src : Bytes) : Prop :=
  ∃ l v w, lex src = .ok l ∧ l.significant = v ++ w ∧ Laid n v ∧ Placed src n

/-- A file lies over a source. Its place goes from the first to the last significant token of the
source, and is empty only if there is none. Its parts are the nodes of its statements, each
behind the annotations in front of it: each is made up of a run of the tokens, one after the other,
and they cover the octets from the first to the last of their tokens, within the place of the file
and in the order of the source. -/
def Tree.File.LiesOver (f : Tree.File) (requirePackage : Bool) (src : Bytes) : Prop :=
  ∃ l parts, lex src = .ok l ∧ f.ConsistsOf parts
    ∧ l.significant ∈ Phrase.file requirePackage ∧ f.loc = placeOf l.significant
    ∧ LaidIn (parts.flatMap Tree.Statement.nodes) l.significant
    ∧ f.loc.Within src ∧ (f.loc.span.length = 0 ↔ l.significant = [])
    ∧ PlacedIn src f.loc.span.start (parts.flatMap Tree.Statement.nodes) f.loc.span.stop

variable {src : Bytes}

/-! ## §2 Reading -/

/-- The position before the significant tokens of a source. -/
theorem clean_of_lex {l : Lexed} (h : lex src = .ok l) :
    Cursor.Clean src ⟨l.significant, l.ending, 0⟩ where
  proper := significant_proper h
  cut _ ht := (within_of_lex_ok h).row.cut (List.mem_filter.mp ht).1
  eof := (within_of_lex_ok h).eof
  error := (within_of_lex_ok h).error

theorem row_of_lex {l : Lexed} (h : lex src = .ok l) : Row src 0 l.significant :=
  (within_of_lex_ok h).row.filter _

/-- The error that ends the reading of a piece of grammar. -/
theorem Grammar.RunsAt.within {α : Type} {c : Cursor} {p : Grammar α}
    {Q : α → List Token → Prop} (h : Grammar.RunsAt src c p Q) {e : SyntaxError}
    (he : p c = .error e) : e.Within src := by
  unfold Grammar.RunsAt at h
  rw [he] at h
  cases h with
  | error within => exact within

/-- The result of a piece of grammar. -/
theorem Grammar.RunsAt.result {α : Type} {c d : Cursor} {p : Grammar α}
    {Q : α → List Token → Prop} (h : Grammar.RunsAt src c p Q) {a : α}
    (ha : p c = .ok (a, d)) : ∃ w, c.rest = w ++ d.rest ∧ Q a w := by
  unfold Grammar.RunsAt at h
  rw [ha] at h
  cases h with
  | ok rest ending stop result => exact ⟨_, rest, result⟩

/-- The place of an error lies within the source. -/
theorem within_of_parseFile {allowMissingPackage : Bool} {e : SyntaxError}
    (h : parseFile src allowMissingPackage = .error e) : e.Within src := by
  cases hlex : lex src with
  -- an error of the lexer, before any token
  | error e' =>
    rw [parseFile, Grammar.run, hlex] at h
    cases h
    exact within_of_lex_error hlex
  | ok l =>
    rw [parseFile_of_lex hlex] at h
    -- or one of the parser, at some token
    cases hfile : Grammar.file (!allowMissingPackage) ⟨l.significant, l.ending, 0⟩ with
    | error e' =>
      rw [hfile] at h
      cases h
      exact (Grammar.runsAt_file (clean_of_lex hlex)).within hfile
    | ok x =>
      rw [hfile] at h
      cases h

theorem liesOver_of_parseFile {allowMissingPackage : Bool} {f : Tree.File}
    (h : parseFile src allowMissingPackage = .ok f) :
    f.LiesOver (!allowMissingPackage) src := by
  obtain ⟨l, c, hlex, hfile⟩ := exists_of_parseFile_eq_ok h
  have hclean := clean_of_lex hlex
  have hrow := row_of_lex hlex
  obtain ⟨-, hphrase, -, -⟩ := Grammar.file_sound hclean.proper hfile
  obtain ⟨w, hw, hloc, parts, hparts, hlaid⟩ := (Grammar.runsAt_file hclean).result hfile
  -- the parts are laid in what was read, and so in all the significant tokens
  have hlaid : LaidIn (parts.flatMap Tree.Statement.nodes) l.significant := by
    rw [show l.significant = w ++ c.rest from hw]
    exact hlaid.append_right c.rest
  have hloc : f.loc = placeOf l.significant := hloc
  refine ⟨l, parts, hlex, hparts, hphrase, hloc, hlaid, ?_, ?_, ?_⟩
  · exact hloc ▸ within_placeOf hclean.cut
  -- a file without tokens has the empty place, one with tokens covers them
  · rw [hloc]
    cases hts : l.significant with
    | nil => simp [placeOf]
    | cons t r =>
      have hcovers := (exists_of_row (hts ▸ hrow)).2.2.2.2
      simp only [List.cons_ne_nil, iff_false]
      omega
  · rw [hloc]
    cases hts : l.significant with
    | nil =>
      rw [hts] at hlaid
      exact hlaid.placed (i := 0) .nil
    | cons t r =>
      rw [hts] at hrow hlaid
      obtain ⟨-, hstart, hstop, -, -⟩ := exists_of_row hrow
      rw [hstart, hstop, stopFrom_cons, ← stopFrom_cons t.start]
      exact hlaid.placed hrow.from_start

/-- A source that begins with the keyword is read from its first significant token on; of any other
source nothing is read. -/
theorem runAt_cases {α : Type} {l : Lexed} (h : lex src = .ok l) (keyword : Bytes)
    (p : Grammar α) :
    (∃ t, Grammar.peek ⟨l.significant, l.ending, 0⟩ = .ok (t, ⟨l.significant, l.ending, 0⟩)
        ∧ t.isWord keyword = true
        ∧ Grammar.runAt keyword p src = (p ⟨l.significant, l.ending, 0⟩).map (some ·.1))
      ∨ Grammar.runAt keyword p src = .ok none := by
  cases hsig : l.significant with
  -- no token at all, so nothing is parsed
  | nil =>
    right
    simp only [Grammar.runAt, h, bind, Except.bind, hsig]
    rfl
  | cons t r =>
    cases hword : t.isWord keyword with
    -- another word, so nothing is parsed
    | false =>
      right
      simp only [Grammar.runAt, h, bind, Except.bind, hsig, hword]
      rfl
    | true =>
      left
      refine ⟨t, rfl, hword, ?_⟩
      simp only [Grammar.runAt, h, bind, Except.bind, hsig, hword, if_true]
      cases hp : p ⟨t :: r, l.ending, 0⟩ with
      | error e => simp [StateT.run, hp, Except.map]
      | ok x => simp [StateT.run, hp, Except.map, pure, Except.pure]

/-- Reading one declaration: it lies over its tokens, or the error points into the source. -/
theorem runAt_places {α : Type} {keyword : Bytes} {p : Grammar α} {node : α → Node}
    (hp : ∀ c t, c.Clean src → Grammar.peek c = .ok (t, c) → t.isWord keyword = true →
      Grammar.RunsAt src c p fun a w => Laid (node a) w) :
    (∀ e, Grammar.runAt keyword p src = .error e → e.Within src)
      ∧ ∀ a, Grammar.runAt keyword p src = .ok (some a) → (node a).LiesOver src := by
  cases hlex : lex src with
  | error e =>
    rw [Grammar.runAt, hlex]
    refine ⟨fun e' he => ?_, fun _ ha => nomatch ha⟩
    cases he
    exact within_of_lex_error hlex
  -- the parser runs only where the first token is the keyword
  | ok l =>
    rcases runAt_cases hlex keyword p with ⟨t, hpeek, hword, hrun⟩ | hnone
    · have hran := hp _ t (clean_of_lex hlex) hpeek hword
      rw [hrun]
      cases hx : p ⟨l.significant, l.ending, 0⟩ with
      | error e =>
        refine ⟨fun e' he => ?_, fun _ ha => nomatch ha⟩
        cases he
        exact hran.within hx
      | ok x =>
        refine ⟨fun _ he => (nomatch he), fun a ha => ?_⟩
        cases ha
        obtain ⟨w, hw, hlaid⟩ := hran.result hx
        have hw : l.significant = w ++ x.2.rest := hw
        have hrow := row_of_lex hlex
        rw [hw] at hrow
        exact ⟨l, w, x.2.rest, hlex, hw, hlaid, (hlaid.placed hrow.left).1⟩
    · rw [hnone]
      exact ⟨fun _ he => (nomatch he), fun _ ha => (nomatch ha)⟩

theorem parseMessage_places :
    (∀ e, parseMessage src = .error e → e.Within src)
      ∧ ∀ m, parseMessage src = .ok (some m) → m.node.LiesOver src := by
  refine runAt_places fun c t hc ht hword => ?_
  refine ((Grammar.runs_message [] c hc).and_reads
    (Grammar.readsAt_message [] hc.proper ht hword)).conseq fun m w h => ?_
  obtain ⟨⟨hspans, -⟩, hw, -⟩ := h
  exact hspans.laid hw

theorem parseService_places :
    (∀ e, parseService src = .error e → e.Within src)
      ∧ ∀ s, parseService src = .ok (some s) → s.node.LiesOver src := by
  refine runAt_places fun c t hc ht hword => ?_
  refine ((Grammar.runs_service [] c hc).and_reads
    (Grammar.readsAt_service [] hc.proper ht hword)).conseq fun s w h => ?_
  obtain ⟨⟨hspans, -⟩, hw⟩ := h
  exact hspans.laid hw

/-! ## §3 Every source -/

/-- Whatever the octets of a source, the places that come out of reading it are right: those of the
nodes of a file, a message or a service that is read, and that of the error if there is none. -/
theorem places_of_source (src : Bytes) :
    (∀ allowMissingPackage f, parseFile src allowMissingPackage = .ok f →
        f.LiesOver (!allowMissingPackage) src)
      ∧ (∀ m, parseMessage src = .ok (some m) → m.node.LiesOver src)
      ∧ (∀ s, parseService src = .ok (some s) → s.node.LiesOver src)
      ∧ ∀ e, ((∃ allowMissingPackage, parseFile src allowMissingPackage = .error e)
          ∨ parseMessage src = .error e ∨ parseService src = .error e) →
        e.span.start + e.span.length ≤ src.length
          ∧ e.pos = Pos.ofOffset src e.span.start := by
  refine ⟨fun _ f hf => liesOver_of_parseFile hf, parseMessage_places.2, parseService_places.2, ?_⟩
  intro e he
  -- an error of any of the three has its place in the source
  have hwithin : e.Within src := by
    rcases he with ⟨allowMissingPackage, hfile⟩ | hmessage | hservice
    · exact within_of_parseFile hfile
    · exact parseMessage_places.1 e hmessage
    · exact parseService_places.1 e hservice
  exact ⟨hwithin.bound, hwithin.pos⟩

/-- A file with annotations in front of a message and of its field, and what is left of it where the
field has no name. -/
theorem places_of_source_annotated :
    let src : Bytes := "package p;@a(x=1)message M\x7b@b optional T n=7;\x7d"
    let broken : Bytes := "package p;@a(x=1)message M\x7b@b optional T =7;\x7d"
    (∃ f, parseFile src = .ok f ∧ f.LiesOver true src)
      ∧ ∃ e, parseFile broken = .error e ∧ e.pos = Pos.ofOffset broken e.span.start := by
  intro src broken
  have hok : (parseFile src).toOption.any (fun _ => true) = true := by decide +kernel
  obtain ⟨f, hf, -⟩ := exists_of_toOption_any hok
  refine ⟨⟨f, hf, (places_of_source src).1 false f hf⟩, ?_⟩
  have hbroken : (parseFile broken).toOption.isNone = true := by decide +kernel
  cases he : parseFile broken with
  | ok g =>
    rw [he] at hbroken
    cases hbroken
  | error e =>
    exact ⟨e, rfl, ((places_of_source broken).2.2.2 e (.inl ⟨false, he⟩)).2⟩

end Idl
