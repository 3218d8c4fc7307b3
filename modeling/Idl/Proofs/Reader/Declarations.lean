import Idl.Proofs.Reader.Values

/-!
# Reading messages and services

A body is read member by member. An annotation waits for the member behind it, and the reader gives
it to the member when that is finished, where the grammar gives it beforehand.

* §1 messages, §2 services.
-/

namespace Idl.Reader

variable {α β γ δ : Type} {src : Bytes} {m m' : Context} {c c' first : Cursor} {t : Token}

/-! ## §1 Messages -/

/-- A dotted name that was read begins with the token seen. -/
theorem first_of_path {p : Tree.Path} (hpeek : Grammar.peek c = .ok (t, c))
    (h : Grammar.path c = .ok (p, c')) : p.first.name = t.text := by
  obtain ⟨u, c₁, hu, h⟩ := Grammar.exists_of_bind_eq_ok h
  obtain rfl := Grammar.eq_of_peek_eq_ok hu
  obtain ⟨x, c₂, hx, h⟩ := Grammar.exists_of_bind_eq_ok h
  obtain ⟨s, c₃, -, h⟩ := Grammar.exists_of_bind_eq_ok h
  cases h
  obtain ⟨i, c₄, hi, hx⟩ := Grammar.exists_of_bind_eq_ok hx
  obtain ⟨more, c₅, -, hx⟩ := Grammar.exists_of_bind_eq_ok hx
  cases hx
  -- nothing has been consumed before the first name, so it is that token
  rw [Grammar.ident, Grammar.bind_of_ok hpeek] at hi
  split at hi
  · obtain ⟨_, c₆, -, hi⟩ := Grammar.exists_of_bind_eq_ok hi
    cases hi
    rfl
  · rw [Grammar.failExpected, failHere_apply hpeek] at hi
    cases hi

/-- A name without a point in it has one component. -/
theorem first_of_dotted {p : Tree.Path} {word : Bytes} (h : p.dotted = word) (hword : 0x2E ∉ word) :
    p.first.name = word := by
  obtain ⟨loc, i, more⟩ := p
  cases more with
  | nil => simpa [Tree.Path.dotted, Tree.Path.parts, Bytes.join] using h
  | cons j more =>
    have hpoint : 0x2E ∈ Bytes.ofString "." := by decide
    have hmem : 0x2E ∈ Tree.Path.dotted ⟨loc, i, j :: more⟩ := by
      simp [Tree.Path.dotted, Tree.Path.parts, Bytes.join, List.intercalate, hpoint]
    exact absurd (h ▸ hmem) hword

/-- A token may be looked at twice. -/
theorem peek_bind_eq (f : Token → α) (k : α → Token → Grammar β) :
    (Grammar.peek >>= fun t => k (f t) t)
      = (Grammar.peek >>= fun t => pure (f t)) >>= fun a => Grammar.peek >>= fun t => k a t := by
  funext c
  rw [bind_assoc]
  cases hc : Grammar.peek c with
  | error e =>
    rw [Grammar.bind_apply, Grammar.bind_apply, hc]
    rfl
  | ok x =>
    obtain ⟨t, c₁⟩ := x
    -- to look at the next token changes nothing, so it can be done twice
    obtain rfl := Grammar.eq_of_peek_eq_ok hc
    rw [Grammar.bind_of_ok hc, Grammar.bind_of_ok hc, pure_bind, Grammar.bind_of_ok hc]

theorem failUnsupported_bind (feature : Feature) (k : β → Grammar γ) :
    (Grammar.failUnsupported feature >>= k) = Grammar.failUnsupported feature :=
  failHere_bind _ k

theorem failExpected_bind (want : Expectation) (k : β → Grammar γ) :
    (Grammar.failExpected want >>= k) = Grammar.failExpected want :=
  failHere_bind _ k

theorem refines_unsupported_bind (hm : Linked src first m c) (feature : Feature)
    {k : Unit → Reader γ} {Q : δ → γ → Context → Prop} {E : SyntaxError → γ → Prop}
    [∀ a, Stays (k a) E] :
    Refines src first m c (unsupported feature >>= k) (Grammar.failUnsupported feature) Q E := by
  rw [← failUnsupported_bind feature (pure : δ → Grammar δ)]
  exact (refines_unsupported (Q := fun _ _ _ => False) hm feature).bind
    fun _ _ _ _ _ _ _ h => h.elim

/-- What follows the name of a type, which is no opening bracket. -/
theorem refines_typeEnd {name : Tree.Path} (ht : ∀ u r, first.rest = u :: r → u = t)
    (hm : Linked src first m c) (hpos : 0 < m.consumed) :
    Refines src first m c
      (do
        if ← peek .openSquare then
          unsupported .array
          abort
        else finish fun loc => some ⟨loc, name⟩)
      (do
        let next ← Grammar.peek
        (if next.kind == .openSquare then Grammar.failUnsupported .array else pure name)
          >>= sealAt t Tree.TypeRef.mk)
      (Ends Same) Aborted := by
  -- the grammar looks at the next token once more; both looks see the same
  have hg := peek_bind_eq (fun next => next.kind == .openSquare) fun b _ =>
    (if b then Grammar.failUnsupported .array else pure name) >>= sealAt t Tree.TypeRef.mk
  refine Refines.congr (congrFun hg c) ?_
  refine (refines_peek hm .openSquare).bind fun b a m₁ c₁ hb hm₁ _ ⟨ha, hcount, u, hu⟩ => ?_
  subst ha
  obtain ⟨-, rfl⟩ := eq_of_peek_pure hu.hand.peek hb
  refine Refines.peek_bind hu ?_
  cases a with
  -- an opening bracket, which neither side accepts
  | true =>
    rw [if_pos rfl, if_pos rfl, failUnsupported_bind]
    exact refines_unsupported_bind hm₁ .array
  | false =>
    rw [if_neg Bool.false_ne_true, if_neg Bool.false_ne_true, pure_bind]
    exact refines_seal ht hm₁ (by omega) fun loc _ => ⟨_, rfl, rfl⟩

/-- What follows the name of a type that might be a map. -/
theorem refines_mapEnd {u : Token} {name : Tree.Path} (ht : ∀ u r, first.rest = u :: r → u = t)
    (hm : Linked src first m c) (hpos : 0 < m.consumed) (hu : Cut src u)
    (hname : name.first.name = u.text) :
    Refines src first m c
      (do
        let isMap ←
          (if (some name).any fun p => p.dotted == ("map" : Bytes) then peek .lt else pure false)
        if isMap then
          fail (.unsupported .map "map") u.span
          abort
        else if ← peek .openSquare then
          unsupported .array
          abort
        else finish fun loc => some ⟨loc, name⟩)
      (do
        let next ← Grammar.peek
        (if name.dotted == "map" && next.kind == .lt then
            Grammar.fail (.atToken (.unsupported .map u.text) u)
          else if next.kind == .openSquare then Grammar.failUnsupported .array
          else pure name) >>= sealAt t Tree.TypeRef.mk)
      (Ends Same) Aborted := by
  cases hmap : name.dotted == ("map" : Bytes) with
  | false =>
    rw [if_neg (by simp [hmap]), pure_bind, if_neg Bool.false_ne_true]
    exact refines_typeEnd ht hm hpos
  | true =>
    rw [if_pos (by simp [hmap])]
    have hg := peek_bind_eq (fun next => next.kind == .lt) fun b next =>
      (if true && b then Grammar.fail (.atToken (.unsupported .map u.text) u)
        else if next.kind == .openSquare then Grammar.failUnsupported .array
        else pure name) >>= sealAt t Tree.TypeRef.mk
    refine Refines.congr (congrFun hg c) ?_
    refine (refines_peek hm .lt).bind fun b a m₁ c₁ hb hm₁ _ ⟨ha, hcount, v, hv⟩ => ?_
    subst ha
    obtain ⟨-, rfl⟩ := eq_of_peek_pure hv.hand.peek hb
    cases a with
    | true =>
      -- the name has one component, which is the text of the first token
      have htext : u.text = "map" :=
        hname.symm.trans (first_of_dotted (beq_iff_eq.mp hmap) (by decide))
      refine Refines.peek_bind hv ?_
      obtain ⟨m₂, hfail, hm₂⟩ := hm₁.fail_eq (.unsupported .map "map") u.span
      refine refines_of_failed ⟨(), m₂, hfail, hm₂⟩ ?_
      rw [← htext, ← hu.atToken_eq]
      rfl
    | false =>
      rw [if_neg Bool.false_ne_true]
      exact refines_typeEnd ht hm₁ (by omega)

/-- Reading a type. -/
theorem parses_typeRef : Parses src c typeRef Grammar.typeRef Same := by
  refine parses_located (fun e h => Peeks.peeks h) fun t m ht hm hzero => ?_
  unfold typeRef
  rw [bind_assoc]
  refine Refines.ensure hm fun u m₁ hm₁ hcount => ?_
  refine Refines.look hm₁.kind_eq ?_
  cases hkind : u.kind with
  -- a word: one of another language, or the beginning of a name
  | ident =>
    refine Refines.look hm₁.readToken_eq ?_
    dsimp only
    cases Grammar.unsupportedType? u.text with
    | some feature =>
      dsimp only [Option.elim_some]
      rw [failUnsupported_bind]
      exact refines_unsupported_bind hm₁.toLinked feature
    | none =>
      dsimp only [Option.elim_none]
      rw [bind_assoc]
      refine Refines.look hm₁.tokenSpan_eq ?_
      refine (parses_path.child hm₁.toLinked).bind fun name a m₂ c₂ hpath hm₂ _ ⟨ha, hless, _⟩ => ?_
      obtain rfl : a = some name := ha
      have hless := hless rfl
      rw [bind_assoc]
      exact refines_mapEnd ht hm₂ (by omega) hm₁.hand.cut (first_of_path hm₁.hand.peek hpath)
  | openSquare =>
    change Refines _ _ _ _ _ (Grammar.failUnsupported _ >>= _) _ _
    rw [failUnsupported_bind]
    exact refines_unsupported_bind hm₁.toLinked .array
  | _ =>
    change Refines _ _ _ _ _ (Grammar.failExpected _ >>= _) _ _
    rw [failExpected_bind]
    exact refines_failHere_bind hm₁ (.expected .type)

instance (word : Bytes) : Peeks (Grammar.atWord word) := by
  unfold Grammar.atWord
  infer_instance

instance (word : Bytes) : Peeks (Grammar.acceptWord word) := by
  unfold Grammar.acceptWord
  infer_instance

/-- A look at the next token in front of something that looks at it anyway. -/
theorem exists_peek_bind {k : Token → Grammar α} [hk : ∀ t, Peeks (k t)] :
    ∃ t, (∀ u, Grammar.peek c = .ok (u, c) → u = t) ∧ (Grammar.peek >>= k) c = k t c := by
  cases hc : Grammar.peek c with
  | error e =>
    -- no token is there, so any will do
    refine ⟨default, nofun, ?_⟩
    rw [(hk default).peeks hc, Grammar.bind_apply, hc]
    rfl
  | ok x =>
    obtain ⟨t, c₁⟩ := x
    obtain rfl := Grammar.eq_of_peek_eq_ok hc
    refine ⟨t, fun u hu => ?_, Grammar.bind_of_ok hc⟩
    cases hu
    rfl

/-- What looking for a word comes to. -/
theorem exists_of_acceptWord {word : Bytes} {b : Bool}
    (h : Grammar.acceptWord word c = .ok (b, c')) :
    ∃ t, Grammar.peek c = .ok (t, c) ∧ t.isWord word = b ∧ (b = false → c' = c) := by
  obtain ⟨x, c₁, hx, h⟩ := Grammar.exists_of_bind_eq_ok h
  obtain ⟨t, c₂, hpeek, hx⟩ := Grammar.exists_of_bind_eq_ok hx
  obtain rfl := Grammar.eq_of_peek_eq_ok hpeek
  cases hx
  refine ⟨t, hpeek, ?_⟩
  cases hword : t.isWord word with
  -- the word stands there and is taken
  | true =>
    rw [hword, if_pos rfl] at h
    obtain ⟨_, c₃, -, h⟩ := Grammar.exists_of_bind_eq_ok h
    cases h
    exact ⟨rfl, nofun⟩
  | false =>
    rw [hword, if_neg Bool.false_ne_true] at h
    cases h
    exact ⟨rfl, fun _ => rfl⟩

instance : Stays label Anyhow := by
  unfold label
  infer_instance

/-- Reading a label. -/
theorem refines_label (hm : Linked src first m c) :
    Refines src first m c label Grammar.label? (fun b a _ => a = b) Anyhow := by
  unfold label Grammar.label?
  obtain ⟨t, ht, hg⟩ := exists_peek_bind (c := c) (k := fun t => do
    if ← Grammar.acceptWord "optional" then return some (Tree.Label.mk t.loc .optional)
    else if ← Grammar.acceptWord "required" then return some ⟨t.loc, .required⟩
    else return none)
  refine Refines.congr hg ?_
  -- the first keyword, whose place is that of the label
  refine (refines_tryKeyword hm (by decide)).bind fun b a m₁ c₁ hc₁ hm₁ _ ⟨hb, hloc, _⟩ => ?_
  obtain ⟨u, hu, -, hsame⟩ := exists_of_acceptWord hc₁
  obtain rfl := ht u hu
  cases b with
  | true =>
    rw [hloc u hu rfl]
    exact refines_pure hm₁ rfl
  | false =>
    obtain rfl := hsame rfl
    obtain rfl : a = none := by simpa using hb
    -- it did not stand there, so the second one is tried at the same token
    refine (refines_tryKeyword hm₁ (by decide)).bind fun b a m₂ c₂ _ hm₂ _ ⟨hb, hloc, _⟩ => ?_
    cases b with
    | true =>
      rw [hloc u hu rfl]
      exact refines_pure hm₂ rfl
    | false =>
      obtain rfl : a = none := by simpa using hb
      exact refines_pure hm₂ rfl

/-- A look at the next word. -/
theorem refines_atWord (hm : Linked src first m c) {word : Bytes} (hword : word ≠ []) :
    Refines src first m c peekKeyword (Grammar.atWord word)
      (fun b a m' => (a == word) = b ∧ m'.consumed = m.consumed) Anyhow := by
  -- the grammar compares inside the look, the reader behind it
  have hg : Grammar.atWord word
      = (Grammar.peek >>= fun t => pure (keyword t)) >>= fun w => pure (w == word) := by
    unfold Grammar.atWord
    rw [bind_assoc]
    congr
    funext t
    rw [pure_bind, keyword_beq hword]
  rw [hg]
  refine (refines_peekKeyword hm).map_right fun b a m' ⟨hb, hcount, _⟩ => ?_
  subst hb
  exact ⟨rfl, hcount⟩

/-- The end of a field, which has no options. -/
theorem refines_fieldEnd {R : β → Option α → Prop} {make : Loc → Option α} {build : Loc → γ → β}
    {x : γ} (ht : ∀ u r, first.rest = u :: r → u = t) (hm : Linked src first m c)
    (hmake : ∀ loc, ∃ a, make loc = some a ∧ R (build loc x) (some a)) :
    Refines src first m c
      (do
        let options ← peek .openSquare
        (if options then unsupported .fieldOptions else pure ())
        sigil .semicolon
        finish make)
      ((do
        if (← Grammar.peek).kind == .openSquare then Grammar.failUnsupported .fieldOptions
        else
          Grammar.sigil .semicolon
          return x) >>= sealAt t build)
      (Ends R) Aborted := by
  rw [bind_assoc]
  -- of the next token both sides ask only whether it opens a bracket
  have hg := peek_bind_eq (fun next => next.kind == .openSquare) fun b _ =>
    (if b then Grammar.failUnsupported .fieldOptions else (do
      Grammar.sigil .semicolon
      return x)) >>= sealAt t build
  refine Refines.congr (congrFun hg c) ?_
  refine (refines_peek hm .openSquare).bind fun b a m₁ c₁ hb hm₁ _ ⟨ha, hcount, u, hu⟩ => ?_
  subst ha
  obtain ⟨-, rfl⟩ := eq_of_peek_pure hu.hand.peek hb
  refine Refines.peek_bind hu ?_
  cases a with
  | true =>
    rw [if_pos rfl, if_pos rfl, failUnsupported_bind]
    exact refines_unsupported_bind hm₁ .fieldOptions
  | false =>
    rw [if_neg Bool.false_ne_true, if_neg Bool.false_ne_true, pure_bind, bind_assoc]
    refine (refines_sigil hm₁ .semicolon).bind fun _ _ m₂ c₂ _ hm₂ _ hless => ?_
    rw [pure_bind]
    exact refines_seal ht hm₂ (by omega) fun loc _ => hmake loc

/-- The node that the reader has is the one that the grammar has, but for the annotations in front:
they are put in place afterwards. -/
def ReadBare (put : List Tree.Annot → α → α) (annots : List Tree.Annot) (b : α) (a : Option α) :
    Prop :=
  ∃ x, a = some x ∧ put annots x = b ∧ put [] x = x

instance : Peeks Grammar.label? := by
  unfold Grammar.label?
  infer_instance

theorem parses_field (annots : List Tree.Annot) :
    Parses src c field (Grammar.field annots) (ReadBare (fun annots f => { f with annots }) annots) := by
  refine parses_located (fun e h => Peeks.peeks h) fun t m ht hm hzero => ?_
  unfold field
  rw [bind_assoc]
  refine (refines_label hm).bind fun l a m₁ c₁ _ hm₁ _ hl => ?_
  subst hl
  rw [bind_assoc]
  refine (refines_atWord hm₁ (by decide)).bind fun b a m₂ c₂ _ hm₂ _ ⟨hb, hcount₂⟩ => ?_
  rw [hb]
  cases b with
  | true =>
    -- the word is refused whether or not a label is in front of it
    rw [if_pos rfl, if_pos rfl, failUnsupported_bind]
    exact refines_unsupported_bind hm₂ .repeated
  | false =>
    rw [if_neg Bool.false_ne_true, if_neg Bool.false_ne_true, bind_assoc]
    refine (parses_typeRef.child hm₂).bind fun type a m₃ c₃ _ hm₃ hle₃ ⟨ha, _⟩ => ?_
    obtain rfl : a = some type := ha
    rw [bind_assoc]
    refine (refines_ident hm₃).bind fun name a m₄ c₄ _ hm₄ _ ⟨ha, hless₄⟩ => ?_
    subst ha
    rw [bind_assoc]
    refine (refines_trySigil hm₄ (by decide)).bind fun question a m₅ c₅ _ hm₅ hle₅ ⟨hq, _⟩ => ?_
    subst hq
    rw [bind_assoc, bind_assoc]
    refine (refines_trySigil hm₅ (by decide)).bind fun b a m₆ c₆ _ hm₆ _ ⟨hb, _⟩ => ?_
    subst hb
    -- the number, if there is one
    cases a with
    | true =>
      rw [if_pos rfl]
      change Refines _ _ _ _ _ (((some <$> Grammar.intLit) >>= _) >>= _) _ _
      rw [map_eq_pure_bind, bind_assoc, bind_assoc]
      refine (refines_int hm₆).bind fun lit a m₇ c₇ _ hm₇ _ ⟨ha, _⟩ => ?_
      subst ha
      rw [pure_bind]
      exact refines_fieldEnd ht hm₇ fun loc => ⟨_, rfl, _, rfl, rfl, rfl⟩
    | false =>
      rw [if_neg Bool.false_ne_true, pure_bind]
      exact refines_fieldEnd ht hm₆ fun loc => ⟨_, rfl, _, rfl, rfl, rfl⟩

section body

/-- The reader may do something else that does the same here. -/
theorem Refines.congr_left {p p' : Reader α} {g : Grammar β} {Q : β → α → Context → Prop}
    {E : SyntaxError → α → Prop} (hp : p m = p' m) (h : Refines src first m c p' g Q E) :
    Refines src first m c p g Q E := by
  unfold Refines at h ⊢
  rwa [hp]

instance {p q : Reader α} {pending : List Tree.Annot} {E : SyntaxError → α → Prop} [Stays p E]
    [Stays q E] : Stays (noPending pending p q) E := by
  unfold noPending
  infer_instance

/-- Annotations that no declaration follows are refused. -/
theorem refines_noPending {p q : Reader α} {k : Unit → Grammar β} {Q : β → α → Context → Prop}
    {E : SyntaxError → α → Prop} [Stays q E] {pending : List Tree.Annot}
    (hm : Linked src first m c) (hplaced : ∀ a ∈ pending, Placed src a.loc)
    (hp : pending = [] → Refines src first m c p (k ()) Q E) :
    Refines src first m c (noPending pending p q) (Grammar.noPending pending >>= k) Q E := by
  cases pending with
  | nil => exact hp rfl
  -- the error stands at the first of them
  | cons a l =>
    obtain ⟨m₁, hfail, hm₁⟩ := hm.fail_eq .danglingAnnots a.loc.span
    refine refines_of_failed ⟨(), m₁, hfail, hm₁⟩ ?_
    rw [locate, ← hplaced a List.mem_cons_self]
    rfl

/-- What the reader has of a body is what the grammar has, last first. -/
structure BodyRead (src : Bytes) (s : Grammar.Members α) (x : Gathered α) : Prop where
  members : x.members = s.done.reverse
  pending : x.pending = s.pending.reverse
  placed : ∀ a ∈ x.pending, Placed src a.loc

/-- The member that the reader reads is the one that the grammar reads. -/
def MemberRefines (src : Bytes) (first : Cursor) (member : Gathered α → Reader (Gathered α))
    (gmember : List Tree.Annot → Grammar α) : Prop :=
  ∀ x m c t, Holding src first m c t →
    Refines src first m c (member x) (gmember x.pending)
      (fun b a _ => a = ⟨x.members ++ [b], []⟩) Anyhow

theorem refines_memberStep {member : Gathered α → Reader (Gathered α)}
    {gmember : List Tree.Annot → Grammar α} [∀ x, Stays (member x) Anyhow]
    (hmember : MemberRefines src first member gmember) :
    StepsRefine src first (memberStep member) (Grammar.memberStep gmember) (BodyRead src) := by
  intro s x m c hm hx
  unfold memberStep Grammar.memberStep
  refine Refines.ensure hm fun t m₁ hm₁ _ => ?_
  refine Refines.look hm₁.kind_eq ?_
  -- anything else begins a member, which takes the annotations that wait
  have hother (hcurl : t.kind ≠ .closeCurl) (hsign : t.kind ≠ .atSign)
      (hsemicolon : t.kind ≠ .semicolon) : Refines src first m₁ c
        (do
          (← child annot).elim
            (do
              if ← trySigil .semicolon then return (x, true)
              else return (← member x, true))
            fun a => return ({ x with pending := x.pending ++ [a] }, true))
        (do
          let m ← gmember s.pending.reverse
          return (⟨m :: s.done, []⟩, true))
        (fun x y _ => y.2 = x.2 ∧ BodyRead src x.1 y.1) Anyhow := by
    refine Refines.look (hm₁.child_annot hsign) ?_
    refine Refines.look (hm₁.trySigil_eq_false hsemicolon) ?_
    rw [← hx.pending]
    refine (hmember x m₁ c t hm₁).bind fun b a m₂ c₂ _ hm₂ _ ha => ?_
    subst ha
    refine refines_pure hm₂ ⟨rfl, ?_, rfl, by simp⟩
    simp [hx.members]
  cases hkind : t.kind with
  | closeCurl =>
    rw [if_pos (by decide)]
    dsimp only
    -- no annotation may be left over at the end of a body
    rw [← hx.pending]
    refine refines_noPending hm₁.toLinked hx.placed fun _ => ?_
    refine (refines_consumeToken hm₁ (by simp [hkind])).bind fun _ _ m₂ c₂ _ hm₂ _ _ => ?_
    exact refines_pure hm₂ ⟨rfl, hx⟩
  | atSign =>
    rw [if_neg (by decide)]
    dsimp only
    -- an annotation waits for the member behind it
    obtain ⟨r, hrest⟩ := hm₁.exists_rest (by simp [hkind])
    refine ((parses_annot hrest hkind).child hm₁.toLinked).bind
      fun b a m₂ c₂ _ hm₂ _ ⟨⟨ha, hplaced⟩, _⟩ => ?_
    subst ha
    refine refines_pure hm₂ ⟨rfl, hx.members, ?_, ?_⟩
    · simp [hx.pending]
    · intro a ha
      rcases List.mem_append.mp ha with ha | ha
      · exact hx.placed a ha
      · exact List.mem_singleton.mp ha ▸ hplaced
  | semicolon =>
    rw [if_neg (by decide)]
    dsimp only
    -- a semicolon alone is skipped
    refine Refines.look (hm₁.child_annot (by simp [hkind])) ?_
    refine Refines.congr_left (hkind ▸ hm₁.trySigil_bind _) ?_
    refine (refines_consumeToken hm₁ (by simp [hkind])).bind fun _ _ m₂ c₂ _ hm₂ _ _ => ?_
    exact refines_pure hm₂ ⟨rfl, hx⟩
  | _ =>
    exact hother (by simp [hkind]) (by simp [hkind]) (by simp [hkind])

/-- The body of a declaration. -/
theorem refines_body {member : Gathered α → Reader (Gathered α)}
    {gmember : List Tree.Annot → Grammar α} [∀ x, Stays (member x) Anyhow]
    (hmember : MemberRefines src first member gmember) (hm : Linked src first m c) :
    Refines src first m c
      (do
        sigil .openCurl
        loop (memberStep member) {})
      (Grammar.body gmember) (fun b a _ => a.members = b) Anyhow := by
  unfold Grammar.body
  refine (refines_sigil hm .openCurl).bind fun _ _ m₁ c₁ _ hm₁ _ _ => ?_
  -- nothing has been gathered at the opening bracket
  have hnil : BodyRead src ({} : Grammar.Members α) ({} : Gathered α) := ⟨rfl, rfl, by simp⟩
  exact (refines_loop (refines_memberStep hmember) hm₁ hnil).map_right fun s x _ hx => hx.members

end body

instance (x : Gathered Tree.Field) : Stays (messageMember x) Anyhow := by
  unfold messageMember
  infer_instance

/-- Reading a member of a message. -/
theorem refines_messageMember :
    MemberRefines src first messageMember Grammar.messageMember := by
  intro x m c t hm
  unfold messageMember Grammar.messageMember
  refine Refines.peek_bind hm (Refines.look hm.kind_eq ?_)
  cases hkind : t.kind with
  | ident =>
    refine Refines.look hm.readToken_eq ?_
    dsimp only
    cases Grammar.unsupportedMember? t.text with
    | some feature => exact refines_unsupported_bind hm.toLinked feature
    | none =>
      -- a field, which takes over the annotations that wait
      refine Refines.map_left ((parses_field x.pending).child hm.toLinked) fun b a m₁ ⟨ha, _⟩ => ?_
      obtain ⟨f, rfl, rfl, -⟩ := ha
      rfl
  | openSquare => exact refines_unsupported_bind hm.toLinked .array
  | _ => exact refines_failHere_bind hm (.expected .messageMember)

/-- A keyword is consumed where it stands. -/
theorem refines_tryKeyword_bind {word : Bytes} {k : Option Loc → Reader α} {h : Unit → Grammar β}
    {Q : β → α → Context → Prop} {E : SyntaxError → α → Prop} {r : List Token}
    (hrest : c.rest = t :: r) (hword : t.isWord word = true) (hne : word ≠ [])
    (hm : Linked src first m c)
    (hk : ∀ a m' c', a.isSome = true → Linked src first m' c' → m.consumed < m'.consumed →
      Refines src first m' c' (k a) (h ()) Q E) :
    Refines src first m c (tryKeyword word >>= k) (Grammar.advance >>= h) Q E := by
  have hadvance := Holding.advance_eq hrest
  -- the keyword is known to stand there, so the attempt succeeds
  have haccept : Grammar.acceptWord word c = .ok (true, ⟨r, c.ending, t.stop⟩) := by
    rw [← bind_pure (Grammar.acceptWord word),
      Grammar.acceptWord_bind_apply (peek_of_cons hrest), if_pos hword, Grammar.bind_of_ok hadvance]
    rfl
  have hg : (Grammar.advance >>= h) c = (Grammar.acceptWord word >>= fun _ => h ()) c := by
    rw [Grammar.bind_of_ok hadvance, Grammar.bind_of_ok haccept]
  refine Refines.congr hg ?_
  exact (refines_tryKeyword hm hne).bind_of_ok haccept fun a m₁ hm₁ _ ⟨ha, _, hless⟩ =>
    hk a m₁ _ ha hm₁ (hless rfl)

/-- A piece that begins with its keyword, where the keyword stands. -/
theorem refines_keyword {word : Bytes} {p q : Reader α} {h : Unit → Grammar β}
    {Q : β → α → Context → Prop} {E : SyntaxError → α → Prop} {r : List Token}
    (hrest : c.rest = t :: r) (hword : t.isWord word = true) (hne : word ≠ [])
    (hm : Linked src first m c)
    (hp : ∀ m' c', Linked src first m' c' → m.consumed < m'.consumed →
      Refines src first m' c' p (h ()) Q E) :
    Refines src first m c (do if (← tryKeyword word).isSome then p else q)
      (Grammar.advance >>= h) Q E := by
  refine refines_tryKeyword_bind hrest hword hne hm fun a m' c' ha hm' hless => ?_
  rw [if_pos ha]
  exact hp m' c' hm' hless

theorem peeks_of_cons {r : List Token} (hrest : c.rest = t :: r) {g : Grammar α} {e : SyntaxError}
    (h : Grammar.peek c = .error e) : g c = .error e := by
  rw [peek_of_cons hrest] at h
  cases h

/-- Reading a message, from its keyword on. -/
theorem parses_message {r : List Token} (hrest : c.rest = t :: r)
    (hword : t.isWord "message" = true) (annots : List Tree.Annot) :
    Parses src c message (Grammar.message annots)
      (ReadBare (fun annots m => { m with annots }) annots) := by
  refine parses_located (fun e h => peeks_of_cons hrest h) fun u m hu hm hzero => ?_
  unfold message
  rw [bind_assoc]
  refine refines_keyword hrest hword (by decide) hm fun m₁ c₁ hm₁ hless₁ => ?_
  rw [bind_assoc]
  refine (refines_ident hm₁).bind fun name a m₂ c₂ _ hm₂ hle₂ ⟨ha, _⟩ => ?_
  subst ha
  rw [bind_assoc, ← bind_assoc (sigil .openCurl)]
  refine (refines_body refines_messageMember hm₂).bind fun fields x m₃ c₃ _ hm₃ hle₃ hx => ?_
  rw [pure_bind]
  -- the node is closed over everything since the keyword
  exact refines_seal hu hm₃ (by omega) fun loc _ => ⟨_, rfl, _, rfl, by rw [hx], rfl⟩

/-! ## §2 Services -/

instance : Stays parameter Anyhow := by
  unfold parameter
  infer_instance

/-- What stands between the brackets of a method. -/
theorem refines_parameter (hm : Linked src first m c) :
    Refines src first m c parameter Grammar.parameter (fun b a _ => a = b) Anyhow := by
  unfold parameter Grammar.parameter
  refine (refines_trySigil hm (by decide)).bind fun b a m₁ c₁ _ hm₁ _ ⟨hb, _⟩ => ?_
  subst hb
  cases a with
  | true => exact refines_pure hm₁ rfl
  | false =>
    refine (parses_typeRef.child hm₁).bind fun type a m₂ c₂ _ hm₂ _ ⟨ha, _⟩ => ?_
    obtain rfl : a = some type := ha
    refine (refines_sigil hm₂ .closeParen).bind fun _ _ m₃ c₃ _ hm₃ _ _ => ?_
    exact refines_pure hm₃ rfl

instance : Stays methodInput Anyhow := by
  unfold methodInput
  infer_instance

/-- Reading the input of a method. -/
theorem refines_methodInput (hm : Linked src first m c) :
    Refines src first m c methodInput Grammar.methodInput (fun b a _ => a = b) Anyhow := by
  unfold methodInput Grammar.methodInput
  refine (refines_trySigil hm (by decide)).bind fun b a m₁ c₁ _ hm₁ _ ⟨hb, _⟩ => ?_
  subst hb
  cases a with
  | true => exact refines_parameter hm₁
  | false =>
    have hg := peek_bind_eq keyword fun _ t =>
      if t.kind == .ident && t.text != "returns" then some <$> Grammar.typeRef else pure none
    refine Refines.congr (congrFun hg c₁) ?_
    refine (refines_peekKeyword hm₁).bind fun b a m₂ c₂ hc₂ hm₂ _ ⟨ha, _, t, ht⟩ => ?_
    obtain ⟨rfl, rfl⟩ := eq_of_peek_pure ht.hand.peek hc₂
    subst ha
    refine Refines.peek_bind ht ?_
    -- a token that is no name has the empty keyword, so the two tests agree
    have hword : (keyword t != [] && keyword t != "returns")
        = (t.kind == .ident && t.text != "returns") := by
      have hnil := ht.hand.cut.keyword_eq_nil
      by_cases hkind : t.kind = .ident
      · simp_all [keyword]
      · simp_all
    rw [hword]
    split
    · rw [map_eq_pure_bind]
      exact (parses_typeRef.child hm₂).map_right fun type a m₃ ha => ha.1
    · exact refines_pure hm₂ rfl

instance : Stays outputMark Anyhow := by
  unfold outputMark
  infer_instance

theorem refines_outputMark (hm : Linked src first m c) :
    Refines src first m c outputMark Grammar.outputMark (fun b a _ => a = b) Anyhow := by
  unfold outputMark Grammar.outputMark
  refine (refines_tryKeyword hm (by decide)).bind fun b a m₁ c₁ _ hm₁ _ ⟨hb, _⟩ => ?_
  subst hb
  split
  · exact refines_pure hm₁ rfl
  · exact (refines_trySigil hm₁ (by decide)).conseq fun b a m₂ ⟨ha, _⟩ => ha

instance : Stays methodOutput Anyhow := by
  unfold methodOutput
  infer_instance

/-- Reading the answer of a method. -/
theorem refines_methodOutput (hm : Linked src first m c) :
    Refines src first m c methodOutput Grammar.methodOutput (fun b a _ => a = b) Anyhow := by
  unfold methodOutput Grammar.methodOutput
  refine (refines_outputMark hm).bind fun b a m₁ c₁ _ hm₁ _ hb => ?_
  subst hb
  cases a with
  | false => exact refines_pure hm₁ rfl
  | true =>
    rw [if_pos rfl, if_pos rfl]
    refine (refines_trySigil hm₁ (by decide)).bind fun b a m₂ c₂ _ hm₂ _ ⟨hb, _⟩ => ?_
    subst hb
    cases a with
    | true => exact refines_parameter hm₂
    | false =>
      rw [if_neg Bool.false_ne_true, if_neg Bool.false_ne_true, map_eq_pure_bind]
      refine (parses_typeRef.child hm₂).bind fun type a m₃ c₃ _ hm₃ _ ⟨ha, _⟩ => ?_
      obtain rfl : a = some type := ha
      -- the reader asks once more whether it has failed, and it has not
      refine Refines.look (failed_eq hm₃) ?_
      exact refines_pure hm₃ rfl

instance : Stays methodEnd Anyhow := by
  unfold methodEnd
  infer_instance

/-- Reading the end of a method. -/
theorem refines_methodEnd (hm : Linked src first m c) :
    Refines src first m c methodEnd Grammar.methodEnd (fun _ _ _ => True) Anyhow := by
  unfold methodEnd Grammar.methodEnd
  refine (refines_trySigil hm (by decide)).bind fun b a m₁ c₁ _ hm₁ _ ⟨hb, _⟩ => ?_
  subst hb
  cases a with
  | false => exact (refines_sigil hm₁ .semicolon).conseq fun _ _ _ _ => trivial
  | true =>
    rw [if_pos rfl, if_pos rfl]
    -- in the braces: semicolons, and a closing brace that ends the loop
    refine refines_loop (R := fun _ _ => True) ?_ hm₁ trivial
    intro _ _ m c hm _
    refine (refines_trySigil hm (by decide)).bind fun b a m₁ c₁ _ hm₁ _ ⟨hb, _⟩ => ?_
    subst hb
    cases a with
    | true => exact refines_pure hm₁ ⟨rfl, trivial⟩
    | false =>
      rw [if_neg Bool.false_ne_true, if_neg Bool.false_ne_true]
      refine (refines_atWord hm₁ (by decide)).bind fun b a m₂ c₂ _ hm₂ _ ⟨hb, _⟩ => ?_
      rw [hb]
      cases b with
      | true => exact refines_unsupported_bind hm₂ .nestedOption
      | false =>
        refine (refines_sigil hm₂ .closeCurl).bind fun _ _ m₃ c₃ _ hm₃ _ _ => ?_
        exact refines_pure hm₃ ⟨rfl, trivial⟩

/-- Reading a method, from its keyword on. -/
theorem parses_method {r : List Token} (hrest : c.rest = t :: r) (hword : t.isWord "rpc" = true)
    (annots : List Tree.Annot) :
    Parses src c method (Grammar.method annots) (ReadBare (fun annots m => { m with annots }) annots) := by
  refine parses_located (fun e h => peeks_of_cons hrest h) fun u m hu hm hzero => ?_
  unfold method
  rw [bind_assoc]
  refine refines_keyword hrest hword (by decide) hm fun m₁ c₁ hm₁ hless₁ => ?_
  rw [bind_assoc]
  refine (refines_ident hm₁).bind fun name a m₂ c₂ _ hm₂ hle₂ ⟨ha, _⟩ => ?_
  subst ha
  rw [bind_assoc]
  refine (refines_methodInput hm₂).bind fun input a m₃ c₃ _ hm₃ hle₃ ha => ?_
  subst ha
  rw [bind_assoc]
  refine (refines_methodOutput hm₃).bind fun output a m₄ c₄ _ hm₄ hle₄ ha => ?_
  subst ha
  rw [bind_assoc]
  refine (refines_methodEnd hm₄).bind fun _ _ m₅ c₅ _ hm₅ hle₅ _ => ?_
  rw [pure_bind]
  -- the node is closed over everything since the keyword
  exact refines_seal hu hm₅ (by omega) fun loc _ => ⟨_, rfl, _, rfl, rfl, rfl⟩

instance (x : Gathered Tree.Method) : Stays (serviceMember x) Anyhow := by
  unfold serviceMember
  infer_instance

/-- Reading a member of a service. -/
theorem refines_serviceMember :
    MemberRefines src first serviceMember Grammar.serviceMember := by
  intro x m c t hm
  -- the grammar asks for three words in turn, all of the token in hand
  have hat (word : Bytes) {k : Bool → Grammar Tree.Method} :
      (Grammar.atWord word >>= k) c = k (t.isWord word) c := by
    rw [Grammar.atWord, bind_assoc, Grammar.bind_of_ok hm.hand.peek, pure_bind]
  unfold serviceMember Grammar.serviceMember
  refine Refines.congr (hat _) (Refines.look hm.peekKeyword_eq ?_)
  rw [keyword_beq (by decide), keyword_beq (by decide), keyword_beq (by decide)]
  split
  · next hword =>
    obtain ⟨r, hrest⟩ := hm.exists_rest (Grammar.kind_ne_eof_of_isWord hword)
    refine Refines.map_left ((parses_method hrest hword x.pending).child hm.toLinked)
      fun b a m₁ ha => ?_
    obtain ⟨⟨x, rfl, rfl, -⟩, -⟩ := ha
    rfl
  · refine Refines.congr (hat _) ?_
    split
    · exact refines_unsupported_bind hm.toLinked .nestedOption
    · refine Refines.congr (hat _) ?_
      split
      · exact refines_unsupported_bind hm.toLinked .stream
      · exact refines_failHere_bind hm (.expected .serviceMember)

/-- Reading a service, from its keyword on. -/
theorem parses_service {r : List Token} (hrest : c.rest = t :: r)
    (hword : t.isWord "service" = true) (annots : List Tree.Annot) :
    Parses src c service (Grammar.service annots)
      (ReadBare (fun annots s => { s with annots }) annots) := by
  refine parses_located (fun e h => peeks_of_cons hrest h) fun u m hu hm hzero => ?_
  unfold service
  rw [bind_assoc]
  -- the word, the name, and the body
  refine refines_keyword hrest hword (by decide) hm fun m₁ c₁ hm₁ hless₁ => ?_
  rw [bind_assoc]
  refine (refines_ident hm₁).bind fun name a m₂ c₂ _ hm₂ hle₂ ⟨ha, _⟩ => ?_
  subst ha
  rw [bind_assoc, ← bind_assoc (sigil .openCurl)]
  refine (refines_body refines_serviceMember hm₂).bind fun methods x m₃ c₃ _ hm₃ hle₃ hx => ?_
  rw [pure_bind]
  exact refines_seal hu hm₃ (by omega) fun loc _ => ⟨_, rfl, _, rfl, by rw [hx], rfl⟩

end Idl.Reader
