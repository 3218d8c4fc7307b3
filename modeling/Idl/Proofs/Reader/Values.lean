import Idl.Proofs.Grammar.Soundness
import Idl.Proofs.Reader.Refinement
import Idl.Reader.Pieces

/-!
# Reading names, constants and annotations

Each piece of the reader refines the piece of grammar of the same name: from the same place on, it
comes to the same node or keeps the same error.

* §1 names and constants, §2 annotations.
-/

namespace Idl.Reader

variable {α β γ δ : Type} {src : Bytes} {m m' : Context} {c c' first : Cursor} {t : Token}

/-! ## §1 Names and constants -/

/-- The reader comes to what the grammar comes to. -/
def Same (b : α) (a : Option α) : Prop := a = some b

/-- A piece of grammar begins with a look at the next token. -/
class Peeks (g : Grammar α) : Prop where
  peeks : ∀ {c e}, Grammar.peek c = .error e → g c = .error e

instance {k : Token → Grammar α} : Peeks (Grammar.peek >>= k) where
  peeks h := by
    rw [Grammar.bind_apply, h]
    rfl

instance {p : Grammar α} {k : α → Grammar β} [hp : Peeks p] : Peeks (p >>= k) where
  peeks h := by
    rw [Grammar.bind_apply, hp.peeks h]
    rfl

instance : Peeks Grammar.ident := by
  unfold Grammar.ident
  infer_instance

theorem refines_separator (hm : Linked src first m c) :
    Refines src first m c separator Grammar.separator
      (fun b a m' => a = b ∧ (b = true → m.consumed < m'.consumed)) Anyhow := by
  unfold separator Grammar.separator
  refine (refines_trySigil hm (by decide)).bind fun b a m₁ c₁ _ hm₁ hle ⟨hb, hless⟩ => ?_
  subst hb
  cases a with
  | true => exact refines_pure hm₁ ⟨rfl, hless⟩
  | false =>
    refine (refines_trySigil hm₁ (by decide)).conseq fun b a m₂ ⟨hb, hless₂⟩ => ⟨hb, fun h => ?_⟩
    exact Nat.lt_of_le_of_lt hle (hless₂ h)

/-- The components that the reader has are those that the grammar has, last first. -/
def PartsRead (first : Tree.Ident) (parts : List Tree.Ident) (read : List (Option Tree.Ident)) :
    Prop :=
  read = (first :: parts.reverse).map some

theorem pathOf_map (loc : Loc) (first : Tree.Ident) (more : List Tree.Ident) :
    pathOf ((first :: more).map some) loc = some ⟨loc, first, more⟩ := by
  have hmap (l : List Tree.Ident) : (l.map some).mapM id = some l := by
    induction l with
    | nil => rfl
    | cons a l ih =>
      rw [List.map_cons, List.mapM_cons, ih]
      rfl
  rw [pathOf, hmap]

/-- A dotted name is read as the parser reads it. -/
theorem parses_path : Parses src c path Grammar.path Same := by
  refine parses_located (fun e h => Peeks.peeks h) fun t m ht hm hzero => ?_
  unfold path
  rw [bind_assoc]
  refine (refines_ident hm).bind fun i a m₁ c₁ _ hm₁ _ ⟨ha, hless⟩ => ?_
  subst ha
  rw [bind_assoc]
  refine (refines_loop (R := PartsRead i) ?_ hm₁ rfl).bind fun more a m₂ c₂ _ hm₂ hle hmore => ?_
  · -- the loop, which is left where no separator follows
    rintro parts read m c hm hread
    refine (refines_separator hm).bind fun b a m₁ c₁ _ hm₁ _ ⟨hb, _⟩ => ?_
    subst hb
    cases a with
    | false => exact refines_pure hm₁ ⟨rfl, hread⟩
    | true =>
      refine (refines_ident hm₁).bind fun part a m₂ c₂ _ hm₂ _ ⟨ha, _⟩ => ?_
      subst ha
      refine refines_pure hm₂ ⟨rfl, ?_⟩
      rw [PartsRead] at hread ⊢
      simp [hread]
  · rw [pure_bind]
    refine refines_seal ht hm₂ (by omega) fun loc _ => ⟨_, ?_, rfl⟩
    rw [hmore, pathOf_map]

instance : Peeks Grammar.constant? := by
  unfold Grammar.constant?
  infer_instance

/-- The reader has a node exactly if the grammar has one. -/
def SameOption (b a : Option α) : Prop := a = b

/-- There is no node where nothing is consumed. -/
theorem refines_nothing {u : Token} {f : Loc → γ → α} (hm : Holding src first m c t)
    (hzero : m.consumed = 0) :
    Refines src first m c (pure (none, none)) (pure none >>= sealAt u fun loc x? => x?.map (f loc))
      (Ends SameOption) Aborted :=
  refines_of_ok rfl rfl hm.toLinked le_rfl
    ⟨rfl, fun _ => ⟨hm.loaded, rfl⟩, fun h => absurd hzero h⟩

/-- Nothing is done after giving up. -/
theorem failHere_bind (cause : Token → SyntaxCause) (k : β → Grammar γ) :
    (Grammar.failHere cause >>= k) = Grammar.failHere cause := by
  unfold Grammar.failHere
  rw [bind_assoc]
  rfl

/-- A token by itself is a constant. -/
theorem refines_word {x : Tree.Constant} (ht : ∀ u r, first.rest = u :: r → u = t)
    (hm : Holding src first m c t) (hkind : t.kind ≠ .eof) :
    Refines src first m c
      (do
        consumeToken
        finish fun loc => some (Tree.Value.mk loc x))
      ((do
        Grammar.advance
        return some x) >>= sealAt t fun loc c? => c?.map fun c => Tree.Value.mk loc c)
      (Ends SameOption) Aborted := by
  rw [bind_assoc]
  refine (refines_consumeToken hm hkind).bind fun _ _ m₁ c₁ _ hm₁ _ hless => ?_
  rw [pure_bind]
  -- one token was consumed, so the place has begun
  exact refines_seal ht hm₁ (by omega) fun loc _ => ⟨_, rfl, rfl⟩

theorem parses_value : Parses src c value Grammar.value? SameOption := by
  refine parses_located (fun e h => Peeks.peeks h) fun t m ht hm hzero => ?_
  unfold value Grammar.constant?
  rw [bind_assoc]
  refine Refines.ensure hm fun u m₁ hm₁ hcount => ?_
  refine Refines.look hm₁.kind_eq ?_
  have hzero₁ : m₁.consumed = 0 := hcount.trans hzero
  -- the value begins at the token in hand
  have hsame (hkind : u.kind ≠ .eof) : u = t := by
    obtain ⟨r, hrest⟩ := hm₁.exists_rest hkind
    exact ht u r hrest
  -- the three ways to write an integer are read alike
  have hint : Refines src c m₁ c
      (do
        let lit ← int
        finish fun loc => lit.map fun lit => Tree.Value.mk loc (.int lit))
      ((do return some (Tree.Constant.int (← Grammar.intLit))) >>=
        sealAt t fun loc c? => c?.map fun c => Tree.Value.mk loc c) (Ends SameOption) Aborted := by
    rw [bind_assoc]
    refine (refines_int hm₁.toLinked).bind fun lit a m₂ c₂ _ hm₂ _ ⟨ha, hless⟩ => ?_
    subst ha
    rw [pure_bind]
    exact refines_seal ht hm₂ (by omega) fun loc _ => ⟨_, rfl, rfl⟩
  cases hkind : u.kind with
  | intLit | octIntLit | hexIntLit => exact hint
  | floatLit =>
    obtain rfl := hsame (by simp [hkind])
    refine Refines.look hm₁.readToken_eq ?_
    cases Binary64.ofNumeral? u.text with
    | none =>
      change Refines _ _ _ _ _ (Grammar.failHere _ >>= _) _ _
      rw [failHere_bind]
      exact refines_failHere_bind hm₁ fun _ text => .badNumber text
    | some x => exact refines_word ht hm₁ (by simp [hkind])
  | textLit =>
    change Refines _ _ _ _ (text >>= _) ((Grammar.textLit >>= _) >>= _) _ _
    rw [bind_assoc]
    refine (refines_text hm₁.toLinked).bind fun lit a m₂ c₂ _ hm₂ _ ⟨ha, hless⟩ => ?_
    subst ha
    rw [pure_bind]
    exact refines_seal ht hm₂ (by omega) fun loc _ => ⟨_, rfl, rfl⟩
  | ident =>
    obtain rfl := hsame (by simp [hkind])
    have heof : u.kind ≠ .eof := by simp [hkind]
    refine Refines.look hm₁.readToken_eq ?_
    dsimp only
    -- words that are values of their own; any other name begins a path
    split
    · exact refines_word ht hm₁ heof
    split
    · exact refines_word ht hm₁ heof
    split
    · exact refines_word ht hm₁ heof
    rw [bind_assoc]
    refine (parses_path.child hm₁.toLinked).bind fun name a m₂ c₂ _ hm₂ _ ⟨ha, hless, _⟩ => ?_
    obtain rfl : a = some name := ha
    have hless := hless rfl
    rw [pure_bind]
    exact refines_seal ht hm₂ (by omega) fun loc _ => ⟨_, rfl, rfl⟩
  | _ => exact refines_nothing hm₁ hzero₁

/-- A context that is linked and has a token in hand holds the next one. -/
theorem Linked.holding (hm : Linked src first m c) (hloaded : m.loaded = true) :
    ∃ t, Holding src first m c t := by
  obtain ⟨t, ht⟩ := hm.stands.hand hloaded
  exact ⟨t, hm, hloaded, ht⟩

theorem failed_eq (hm : Linked src first m c) : failed m = some (false, m) := by
  change some (m.error.isSome, m) = _
  rw [hm.stands.error]
  rfl

instance : Stays constValue Anyhow := by
  unfold constValue
  infer_instance

/-- The constant that a place asks for. -/
theorem refines_constValue (hm : Linked src first m c) :
    Refines src first m c constValue Grammar.value
      (fun b a m' => a = some b ∧ m.consumed < m'.consumed) Anyhow := by
  unfold constValue Grammar.value
  refine (parses_value.child hm).bind fun b a m₁ c₁ _ hm₁ _ ⟨hb, hless, hnone⟩ => ?_
  obtain rfl : a = b := hb
  refine Refines.look (failed_eq hm₁) ?_
  cases a with
  | some v => exact refines_pure hm₁ ⟨rfl, hless rfl⟩
  | none =>
    -- nothing was read and no error noted, so the error is that a value is missing
    obtain ⟨t, ht⟩ := hm₁.holding (hnone rfl).2
    exact refines_failHere_bind ht (.expected .value)

/-! ## §2 Annotations -/

theorem Holding.ensureToken_eq (hm : Holding src first m c t) : ensureToken m = some (true, m) := by
  rw [ensureToken, get_bind, hm.stands.error, hm.loaded]
  rfl

theorem Holding.peekKeyword_eq (hm : Holding src first m c t) :
    peekKeyword m = some (keyword t, m) := by
  rw [peekKeyword, bind_of_some hm.ensureToken_eq, if_pos rfl, bind_of_some hm.kind_eq, keyword]
  split
  · exact hm.readToken_eq
  · rfl

theorem Cut.keyword_eq_nil (h : Cut src t) : keyword t = [] ↔ t.kind ≠ .ident := by
  unfold keyword
  by_cases hkind : t.kind = .ident
  · simp [hkind, h.word hkind]
  · simp [hkind]

/-- An argument that the reader has is one that the grammar has, with nothing missing. -/
structure ArgRead (b : Option Tree.Arg) (a : Option LooseArg) : Prop where
  tight : a.bind LooseArg.tight? = b
  isSome : b.isSome = a.isSome

/-- A piece that has no token ends without a node that counts. -/
theorem refines_finish_empty {R : β → Option α → Prop} {make : Loc → Option α} {build : Loc → γ → β}
    {x : γ} (hm : Linked src first m c) (hzero : m.consumed = 0) (hloaded : m.loaded = true)
    (hmake : ∀ loc, ∃ a, make loc = some a) (hR : ∀ loc, R (build loc x) none) :
    Refines src first m c (finish make) (sealAt t build x) (Ends R) Aborted := by
  obtain ⟨-, hstart, -⟩ := hm.extent.none hzero
  have hpos : posOf m.start m = some (Pos.ofOffset src 0, m) :=
    hstart.symm ▸ posOf_eq hm.stands.source (Nat.zero_le _)
  obtain ⟨a, ha⟩ := hmake ⟨.between m.start m.stop, Pos.ofOffset src 0⟩
  exact refines_of_ok rfl (finish_eq hm hpos rfl ha) hm le_rfl
    ⟨rfl, fun _ => ⟨hloaded, hR _⟩, fun h => absurd hzero h⟩

theorem parses_arg : Parses src c arg Grammar.arg? ArgRead := by
  refine parses_located (fun e h => Peeks.peeks h) fun t m ht hm hzero => ?_
  unfold arg
  rw [bind_assoc]
  refine Refines.ensure hm fun u m₁ hm₁ hcount => ?_
  refine Refines.look hm₁.peekKeyword_eq ?_
  have hword : (keyword u == [] || Grammar.constantWords.contains (keyword u))
      = !(u.kind == .ident && !Grammar.constantWords.contains u.text) := by
    have hnil := hm₁.hand.cut.keyword_eq_nil
    -- the reader asks for no keyword or one of the constants, the grammar for a name but those
    by_cases hkind : u.kind = .ident
    · simp_all [keyword]
    · simp_all
  rw [hword]
  cases u.kind == .ident && !Grammar.constantWords.contains u.text with
  | true =>
    change Refines _ _ _ _ (ident >>= _) ((Grammar.ident >>= _) >>= _) _ _
    rw [bind_assoc]
    refine (refines_ident hm₁.toLinked).bind fun key a m₂ c₂ _ hm₂ _ ⟨ha, hless⟩ => ?_
    subst ha
    rw [bind_assoc]
    refine (refines_trySigil hm₂ (by decide)).bind fun b a m₃ c₃ _ hm₃ hle ⟨hb, _⟩ => ?_
    subst hb
    cases a with
    | true =>
      change Refines _ _ _ _ (constValue >>= _) ((Grammar.value >>= _) >>= _) _ _
      rw [bind_assoc]
      refine (refines_constValue hm₃).bind fun v a m₄ c₄ _ hm₄ _ ⟨ha, hless₄⟩ => ?_
      subst ha
      rw [pure_bind]
      exact refines_seal ht hm₄ (by omega) fun loc _ => ⟨_, rfl, rfl, rfl⟩
    | false =>
      rw [if_neg Bool.false_ne_true, if_neg Bool.false_ne_true, pure_bind]
      exact refines_seal ht hm₃ (by omega) fun loc _ => ⟨_, rfl, rfl, rfl⟩
  | false =>
    change Refines _ _ _ _ (child value >>= _) ((Grammar.value? >>= _) >>= _) _ _
    rw [bind_assoc]
    refine (parses_value.child hm₁.toLinked).bind fun b a m₂ c₂ _ hm₂ _ ⟨hb, hless, hnone⟩ => ?_
    obtain rfl : a = b := hb
    rw [pure_bind]
    cases a with
    | some v =>
      have hless := hless rfl
      exact refines_seal ht hm₂ (by omega) fun loc _ => ⟨_, rfl, rfl, rfl⟩
    | none =>
      obtain ⟨hcount₂, hloaded⟩ := hnone rfl
      exact refines_finish_empty hm₂ (by omega) hloaded (fun loc => ⟨_, rfl⟩) fun loc => ⟨rfl, rfl⟩

/-- The arguments that the reader has are those that the grammar has, last first. -/
def ArgsRead (acc : List Tree.Arg) (args : List LooseArg) : Prop :=
  args.mapM LooseArg.tight? = some acc.reverse

theorem ArgsRead.concat {acc : List Tree.Arg} {args : List LooseArg} {a : Tree.Arg} {l : LooseArg}
    (h : ArgsRead acc args) (hl : l.tight? = some a) : ArgsRead (a :: acc) (args ++ [l]) := by
  rw [ArgsRead] at h ⊢
  rw [List.mapM_append, h]
  simp [hl]

/-- The grammar may do more with its result. -/
theorem Refines.map_right {p : Reader α} {g : Grammar β} {f : β → γ} {Q : β → α → Context → Prop}
    {Q' : γ → α → Context → Prop} {E : SyntaxError → α → Prop} (h : Refines src first m c p g Q E)
    (hQ : ∀ b a m', Q b a m' → Q' (f b) a m') :
    Refines src first m c p (g >>= fun b => pure (f b)) Q' E := by
  unfold Refines at h ⊢
  rw [Grammar.bind_apply]
  cases hg : g c with
  -- an error is kept as it is
  | error e => rwa [hg] at h
  | ok x =>
    rw [hg] at h
    obtain ⟨a, m', hp, hm', hle, hq⟩ := h
    exact ⟨a, m', hp, hm', hle, hQ _ _ _ hq⟩

/-- The reader may do more with its result. -/
theorem Refines.map_left {p : Reader α} {g : Grammar β} {f : α → γ} {Q : β → α → Context → Prop}
    {Q' : β → γ → Context → Prop} (h : Refines src first m c p g Q Anyhow)
    (hQ : ∀ b a m', Q b a m' → Q' b (f a) m') :
    Refines src first m c (p >>= fun a => pure (f a)) g Q' Anyhow := by
  have hg : g = g >>= pure := (bind_pure g).symm
  rw [hg]
  exact h.bind fun b a m₁ c₁ _ hm₁ _ hq => refines_pure hm₁ (hQ b a m₁ hq)

theorem refines_args (hm : Linked src first m c) :
    Refines src first m c (loop argsStep []) Grammar.args
      (fun b a _ => a.mapM LooseArg.tight? = some b) Anyhow := by
  have hnil : ArgsRead [] [] := rfl
  unfold Grammar.args
  -- the arguments read so far agree on both sides
  refine (refines_loop ?_ hm hnil).map_right fun acc a _ hacc => hacc
  rintro acc args m c hm hacc
  unfold argsStep
  refine (refines_trySigil hm (by decide)).bind fun b a m₁ c₁ _ hm₁ _ ⟨hb, _⟩ => ?_
  subst hb
  cases a with
  | true => exact refines_pure hm₁ ⟨rfl, hacc⟩
  | false =>
    refine (parses_arg.child hm₁).bind fun b a m₂ c₂ _ hm₂ _ ⟨harg, _, _⟩ => ?_
    cases a with
    -- no argument and no closing sign: both sides fail at the sign that is due
    | none =>
      obtain rfl : b = none := by simpa using harg.isSome
      refine Refines.look (failed_eq hm₂) ?_
      refine (refines_sigil hm₂ .closeParen).bind fun _ _ m₃ c₃ _ hm₃ _ _ => ?_
      exact refines_pure hm₃ ⟨rfl, hacc⟩
    -- an argument: a comma starts the next round, anything else must be the closing sign
    | some l =>
      obtain ⟨a, rfl⟩ : ∃ a, b = some a := Option.isSome_iff_exists.mp harg.isSome
      have hconcat := hacc.concat harg.tight
      refine (refines_trySigil hm₂ (by decide)).bind fun b a m₃ c₃ _ hm₃ _ ⟨hb, _⟩ => ?_
      subst hb
      cases a with
      | true => exact refines_pure hm₃ ⟨rfl, hconcat⟩
      | false =>
        refine (refines_sigil hm₃ .closeParen).bind fun _ _ m₄ c₄ _ hm₄ _ _ => ?_
        exact refines_pure hm₄ ⟨rfl, hconcat⟩

/-- A node that the grammar has too, at a place of the source. -/
def SamePlaced (src : Bytes) (b : Tree.Annot) (a : Option Tree.Annot) : Prop :=
  a = some b ∧ Placed src b.loc

/-- Where the grammar does not give up, it does not matter what the reader would do after an
error. -/
theorem Refines.bind_of_ok {p : Reader α} {g : Grammar β} {Q : β → α → Context → Prop}
    {E : SyntaxError → α → Prop} {k : α → Reader γ} {h : β → Grammar δ}
    {Q' : δ → γ → Context → Prop} {E' : SyntaxError → γ → Prop} {b : β}
    (hp : Refines src first m c p g Q E) (hg : g c = .ok (b, c'))
    (hk : ∀ a m', Linked src first m' c' → m.consumed ≤ m'.consumed → Q b a m' →
      Refines src first m' c' (k a) (h b) Q' E') :
    Refines src first m c (p >>= k) (g >>= h) Q' E' := by
  unfold Refines at hp
  rw [hg] at hp
  obtain ⟨a, m₁, hpm, hm₁, hle, hq⟩ := hp
  -- the parser is known to go on, so the reader does
  have hrest := hk a m₁ hm₁ hle hq
  unfold Refines at hrest ⊢
  rw [Grammar.bind_of_ok hg, bind_of_some hpm]
  cases hh : h b c' with
  | error e => rwa [hh] at hrest
  | ok y =>
    rw [hh] at hrest
    obtain ⟨a', m₂, hkm, hm₂, hle₂, hq₂⟩ := hrest
    exact ⟨a', m₂, hkm, hm₂, hle.trans hle₂, hq₂⟩

theorem accept_eq {r : List Token} (hrest : c.rest = t :: r) :
    Grammar.accept t.kind c = .ok (true, ⟨r, c.ending, t.stop⟩) := by
  rw [Grammar.accept, Grammar.bind_of_ok (peek_of_cons hrest), if_pos (beq_self_eq_true _),
    Grammar.bind_of_ok (Holding.advance_eq hrest)]
  rfl

instance (s : Sigil) : Peeks (Grammar.sigil s) := by
  unfold Grammar.sigil Grammar.accept
  infer_instance

theorem parses_annot {r : List Token} (hrest : c.rest = t :: r) (hkind : t.kind = .atSign) :
    Parses src c annot Grammar.annot (SamePlaced src) := by
  refine parses_located (fun e h => Peeks.peeks h) fun u m hu hm hzero => ?_
  unfold annot Grammar.sigil
  rw [bind_assoc, bind_assoc]
  have haccept := hkind ▸ accept_eq hrest
  -- the sign is there, so its step is known to succeed and to move on
  refine (refines_trySigil hm (by decide)).bind_of_ok haccept fun a m₁ hm₁ _ ⟨ha, hless⟩ => ?_
  subst ha
  have hless := hless rfl
  change Refines _ _ _ _ (child path >>= _) (pure () >>= _) _ _
  rw [pure_bind, bind_assoc]
  refine (parses_path.child hm₁).bind fun name a m₂ c₂ _ hm₂ hle₂ ⟨ha, _⟩ => ?_
  obtain rfl : a = some name := ha
  rw [bind_assoc]
  refine (refines_trySigil hm₂ (by decide)).bind fun b a m₃ c₃ _ hm₃ hle₃ ⟨hb, _⟩ => ?_
  subst hb
  -- the arguments are there only behind an opening sign
  cases a with
  | true =>
    rw [if_pos rfl, if_pos rfl, map_eq_pure_bind, bind_assoc, bind_assoc]
    refine (refines_args hm₃).bind fun args a m₄ c₄ _ hm₄ hle₄ hargs => ?_
    rw [pure_bind, bind_assoc]
    refine (refines_trySigil hm₄ (by decide)).bind fun _ _ m₅ c₅ _ hm₅ hle₅ _ => ?_
    rw [pure_bind]
    refine refines_seal hu hm₅ (by omega) fun loc hloc => ⟨_, ?_, rfl, hloc⟩
    simp [hargs]
  | false =>
    rw [if_neg Bool.false_ne_true, if_neg Bool.false_ne_true, pure_bind, bind_assoc]
    refine (refines_trySigil hm₃ (by decide)).bind fun _ _ m₄ c₄ _ hm₄ hle₄ _ => ?_
    rw [pure_bind]
    exact refines_seal hu hm₄ (by omega) fun loc hloc => ⟨_, rfl, rfl, hloc⟩

theorem Holding.trySigil_eq_false (hm : Holding src first m c t) {want : TokenKind}
    (hkind : t.kind ≠ want) : trySigil want m = some (false, m) := by
  rw [trySigil_eq, bind_of_some hm.ensureToken_eq, if_pos rfl, bind_of_some hm.kind_eq,
    if_neg (by simpa using hkind)]
  rfl

theorem Holding.trySigil_bind (hm : Holding src first m c t) (k : Bool → Reader α) :
    (trySigil t.kind >>= k) m = (consumeToken >>= fun _ => k true) m := by
  rw [trySigil_eq, bind_assoc, bind_of_some hm.ensureToken_eq, if_pos rfl, bind_assoc,
    bind_of_some hm.kind_eq, if_pos (beq_self_eq_true _)]
  rfl

/-- There is no annotation where the next token is not its sign. -/
theorem Holding.child_annot (hm : Holding src first m c t) (hkind : t.kind ≠ .atSign) :
    child annot m = some (none, m) := by
  have hm' : Holding src c { m with consumed := 0, start := 0, stop := 0 } c t :=
    ⟨hm.fresh, hm.loaded, hm.hand.peek, hm.hand.cut, hm.hand.kind, hm.hand.length, hm.hand.escapes,
      hm.hand.start, hm.hand.tail, hm.hand.eof⟩
  have hannot : annot { m with consumed := 0, start := 0, stop := 0 }
      = some ((none, none), { m with consumed := 0, start := 0, stop := 0 }) := by
    rw [annot, bind_of_some (hm'.trySigil_eq_false hkind)]
    rfl
  rw [child_eq hm.stands.error hannot]
  rfl

end Idl.Reader
