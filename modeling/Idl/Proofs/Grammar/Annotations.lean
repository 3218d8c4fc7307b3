import Idl.Proofs.Grammar.Completeness
import Idl.Proofs.Token.Lines

/-!
# Where annotations stand in a file

What follows the sign of an annotation in a file: a name, and then arguments, another sign, a
semicolon or a declaration. From it one can tell what a parenthesis behind a sign and names belongs
to: to the annotation, or to a method that follows the annotation.

* §1 kinds that do not occur in a language,
* §2 what declarations begin with, §3 what follows a sign,
* §4 which phrase a parenthesis belongs to.
-/

namespace Idl

open scoped Computability

namespace Phrase

open AnnotLine (namePart)

variable {L M : Language Token} {k : TokenKind} {v w : List Token}

/-! ## §1 Kinds that do not occur -/

/-- All tokens of all phrases of the language have a property. -/
def Every (P : Token → Prop) (L : Language Token) : Prop := ∀ w ∈ L, ∀ t ∈ w, P t

namespace Every

variable {P : Token → Prop}

/-- One token. -/
theorem one {p : Token → Prop} (h : ∀ t, p t → P t) : Every P (Phrase.one p) := by
  rintro w ⟨t, rfl, ht⟩ u hu
  rw [List.mem_singleton.mp hu]
  exact h t ht

/-- Phrases in a row. -/
theorem mul (hL : Every P L) (hM : Every P M) : Every P (L * M) := by
  intro w hw t ht
  obtain ⟨a, ha, b, hb, rfl⟩ := Language.mem_mul.mp hw
  rcases List.mem_append.mp ht with ht | ht
  · exact hL a ha t ht
  · exact hM b hb t ht

/-- Either of two languages. -/
theorem add (hL : Every P L) (hM : Every P M) : Every P (L + M) := by
  rintro w (hw | hw)
  · exact hL w hw
  · exact hM w hw

/-- Repeated phrases. -/
theorem kstar (hL : Every P L) : Every P (L∗) := by
  intro w hw t ht
  obtain ⟨ws, rfl, hws⟩ := Language.mem_kstar.mp hw
  obtain ⟨v, hv, ht⟩ := List.mem_flatten.mp ht
  exact hL v (hws v hv) t ht

/-- An optional phrase. -/
theorem maybe (hL : Every P L) : Every P (Phrase.maybe L) := by
  rintro w (rfl | hw)
  · intro t ht
    cases ht
  · exact hL w hw

end Every

/-- No phrase of the language holds a token of the kind. -/
abbrev Lacks (k : TokenKind) (L : Language Token) : Prop := Every (fun t => t.kind ≠ k) L

namespace Every

/-- A sign of another kind. -/
theorem sign {kind : TokenKind} (h : kind ≠ k) : Lacks k (Phrase.sign kind) :=
  one fun t ht => by rwa [show t.kind = kind from ht]

/-- A keyword is of no other kind. -/
theorem word (text : Bytes) (h : k ≠ .ident) : Lacks k (Phrase.word text) :=
  one fun t ht => by
    rw [(Grammar.isWord_eq_true.mp ht).1]
    exact h.symm

end Every

/-- A dotted name is made of parts of names. -/
theorem namePart_of_pathBut {words : List Bytes} (h : w ∈ pathBut words) {t : Token} (ht : t ∈ w) :
    namePart t.kind = true := by
  by_contra hkind
  have hlacks : Lacks t.kind (pathBut words) := by
    refine .mul (.one fun u hu heq => ?_)
      (.kstar (.mul (.add (.sign fun heq => ?_) (.sign fun heq => ?_)) (.sign fun heq => ?_)))
    · simp [← heq, hu.1, namePart] at hkind
    all_goals simp [← heq, namePart] at hkind
  exact hlacks w h t ht rfl

/-- A dotted name has only the tokens of names. -/
theorem Every.pathBut {words : List Bytes} (hk : namePart k = false) :
    Lacks k (Phrase.pathBut words) := by
  intro w hw t ht heq
  rw [← heq, namePart_of_pathBut hw ht] at hk
  cases hk

/-- The kinds of the signs that open an annotation, its arguments and what follows them. -/
def annotSigns : List TokenKind := [.atSign, .openParen, .closeParen]

/-- A literal has none of the signs of annotations. -/
theorem Every.literal (hk : k ∈ annotSigns) : Lacks k Phrase.literal := by
  refine .add (.add (.add (.one ?_) (.one ?_)) ?_) (.one ?_)
  · rintro t ⟨ht, -⟩ rfl
    revert ht hk
    cases t.kind <;> simp [annotSigns, TokenKind.isInteger]
  · rintro t ⟨ht, -⟩ rfl
    simp [ht, annotSigns] at hk
  · rintro w ⟨value, t, rfl, ht, -⟩ u hu rfl
    simp [List.mem_singleton.mp hu, ht, annotSigns] at hk
  · rintro t ⟨ht, -⟩ rfl
    simp [ht, annotSigns] at hk

/-- None of these signs is a part of a name. -/
theorem namePart_of_annotSigns (hk : k ∈ annotSigns) : namePart k = false := by
  revert hk
  cases k <;> simp [annotSigns, namePart]

/-- Nor is any other sign one of them. -/
theorem Every.sign_of_annotSigns (hk : k ∈ annotSigns) {kind : TokenKind}
    (hkind : kind ∉ annotSigns) : Lacks k (Phrase.sign kind) :=
  .sign fun heq => hkind (heq ▸ hk)

/-- A name. -/
theorem Every.nameBut (hk : k ∈ annotSigns) (words : List Bytes) : Lacks k (Phrase.nameBut words) := by
  refine .one ?_
  rintro t ⟨ht, -⟩ rfl
  simp [ht, annotSigns] at hk

/-- There are no parentheses and no annotations among arguments. -/
theorem Every.args (hk : k ∈ annotSigns) : Lacks k Phrase.args := by
  have hpath {words : List Bytes} : Lacks k (Phrase.pathBut words) :=
    .pathBut (namePart_of_annotSigns hk)
  have hvalue : Lacks k Phrase.value := .add (.literal hk) hpath
  have harg : Lacks k Phrase.arg :=
    .add (.literal hk) (.mul (.nameBut hk _) (.maybe (.mul (.sign_of_annotSigns hk (by decide)) hvalue)))
  have hcomma : Lacks k (Phrase.sign .comma) := .sign_of_annotSigns hk (by decide)
  exact .mul (.mul harg (.kstar (.mul hcomma harg))) (.maybe hcomma)

/-- A number. -/
theorem Every.intLit (hk : k ∈ annotSigns) : Lacks k Phrase.intLit := by
  refine fun w hw => Every.literal hk w ?_
  exact .inl (.inl (.inl hw))

/-- A keyword. -/
theorem Every.word_of_annotSigns (hk : k ∈ annotSigns) (text : Bytes) : Lacks k (Phrase.word text) := by
  refine .word text ?_
  rintro rfl
  simp [annotSigns] at hk

/-- A field has no parentheses. -/
theorem Every.field (hk : k ∈ annotSigns) : Lacks k Phrase.field := by
  have hpath {words : List Bytes} : Lacks k (Phrase.pathBut words) :=
    .pathBut (namePart_of_annotSigns hk)
  have hsign {kind : TokenKind} (hkind : kind ∉ annotSigns) : Lacks k (Phrase.sign kind) :=
    .sign_of_annotSigns hk hkind
  have hlabel : Lacks k label := .add (.word_of_annotSigns hk _) (.word_of_annotSigns hk _)
  exact .mul (.mul (.mul (.mul (.add (.mul hlabel hpath) hpath) (hsign (by decide)))
    (.maybe (hsign (by decide)))) (.maybe (.mul (hsign (by decide)) (.intLit hk)))) (hsign (by decide))

/-- A method has parentheses, but no annotations of its own. -/
theorem Every.method : Lacks .atSign Phrase.method := by
  have hpath {words : List Bytes} : Lacks .atSign (Phrase.pathBut words) := .pathBut rfl
  have hsign {kind : TokenKind} (hkind : kind ≠ .atSign) : Lacks .atSign (Phrase.sign kind) :=
    .sign hkind
  have hword (text : Bytes) : Lacks .atSign (Phrase.word text) := .word text (by decide)
  have hparens : Lacks .atSign parens :=
    .mul (.mul (hsign (by decide)) (.maybe hpath)) (hsign (by decide))
  have hinput : Lacks .atSign input := .add hparens hpath
  have houtput : Lacks .atSign output :=
    .mul (.add (hword _) (hsign (by decide))) (.add hparens hpath)
  have hend : Lacks .atSign methodEnd :=
    .add (hsign (by decide))
      (.mul (.mul (hsign (by decide)) (.kstar (hsign (by decide)))) (hsign (by decide)))
  exact .mul (.mul (.mul (.mul (hword _) (hsign (by decide))) (.maybe hinput)) (.maybe houtput)) hend

/-- The package has no annotations. -/
theorem Every.package : Lacks .atSign Phrase.package :=
  .mul (.mul (.word _ (by decide)) (.pathBut rfl)) (.sign (by decide))

/-- Nor has the version statement. -/
theorem Every.version : Lacks .atSign Phrase.version := by
  refine .mul (.mul (.mul (.word _ (by decide)) (.sign (by decide))) (.one ?_)) (.sign (by decide))
  rintro t ⟨ht, -⟩
  simp [ht]

/-- Nor has a setting. -/
theorem Every.setting : Lacks .atSign Phrase.setting :=
  .mul (.mul (.mul (.mul (.word _ (by decide)) (.pathBut rfl)) (.sign (by decide)))
    (.add (.literal (by decide)) (.pathBut rfl))) (.sign (by decide))

/-! ## §2 What declarations begin with -/

/-- A declaration or a member. -/
def decl : Language Token := field + method + (message + service)

/-- Parts of names and then another token. If it opens a parenthesis, then the phrase is a method
and the next parenthesis closes it. -/
def Leads (w : List Token) : Prop :=
  ∃ (ns : List Token) (t : Token) (r : List Token), w = ns ++ t :: r
    ∧ (∀ n ∈ ns, namePart n.kind = true) ∧ namePart t.kind = false
    ∧ (t.kind = .openParen → w ∈ method ∧ ∃ (as : List Token) (c : Token) (r' : List Token),
      r = as ++ c :: r' ∧ (∀ a ∈ as, a.kind ≠ .openParen) ∧ c.kind = .closeParen)

/-- A keyword could be a part of a name. -/
theorem namePart_of_word {text : Bytes} {w : List Token} (h : w ∈ word text) {t : Token}
    (ht : t ∈ w) : namePart t.kind = true := by
  obtain ⟨u, rfl, hu⟩ := h
  rw [List.mem_singleton.mp ht, (Grammar.isWord_eq_true.mp hu).1]
  rfl

/-- So could a name. -/
theorem namePart_of_name {w : List Token} (h : w ∈ name) {t : Token} (ht : t ∈ w) :
    namePart t.kind = true := by
  obtain ⟨u, rfl, hu⟩ := h
  rw [List.mem_singleton.mp ht, show u.kind = .ident from hu]
  rfl

/-- Parts of names in two runs. -/
theorem namePart_append {v w : List Token} (hv : ∀ t ∈ v, namePart t.kind = true)
    (hw : ∀ t ∈ w, namePart t.kind = true) : ∀ t ∈ v ++ w, namePart t.kind = true :=
  fun t ht => (List.mem_append.mp ht).elim (hv t) (hw t)

/-- A named body begins with its keyword, its name and a brace. -/
theorem leads_named {text : Bytes} {member : Language Token}
    (h : w ∈ word text * name * body member) : Leads w := by
  obtain ⟨_, hfront, _, hbody, rfl⟩ := Language.mem_mul.mp h
  obtain ⟨a, ha, n, hn, rfl⟩ := Language.mem_mul.mp hfront
  obtain ⟨_, hopen, c, -, rfl⟩ := Language.mem_mul.mp hbody
  obtain ⟨_, ⟨o, rfl, ho⟩, m, -, rfl⟩ := Language.mem_mul.mp hopen
  have ho : o.kind = .openCurl := ho
  refine ⟨a ++ n, o, m ++ c, by simp, ?_, by rw [ho]; rfl, by simp [ho]⟩
  exact namePart_append (fun t => namePart_of_word ha) fun t => namePart_of_name hn

/-- A field begins with its type and its name; no parenthesis occurs in it. -/
theorem leads_field (h : w ∈ field) : Leads w := by
  have hparen := Every.field (k := .openParen) (by decide) w h
  obtain ⟨_, hnumber, _, ⟨s, rfl, hs⟩, rfl⟩ := Language.mem_mul.mp h
  obtain ⟨_, hquestion, d, hd, rfl⟩ := Language.mem_mul.mp hnumber
  obtain ⟨_, hname, c, hc, rfl⟩ := Language.mem_mul.mp hquestion
  obtain ⟨b, hb, n, hn, rfl⟩ := Language.mem_mul.mp hname
  have hs : s.kind = .semicolon := hs
  have hnames : ∀ t ∈ b ++ n, namePart t.kind = true := by
    refine namePart_append (fun t ht => ?_) fun t => namePart_of_name hn
    rcases hb with hb | hb
    · obtain ⟨l, hl, y, hy, rfl⟩ := Language.mem_mul.mp hb
      rcases List.mem_append.mp ht with ht | ht
      · rcases hl with hl | hl
        · exact namePart_of_word hl ht
        · exact namePart_of_word hl ht
      · exact namePart_of_pathBut hy ht
    · exact namePart_of_pathBut hb ht
  -- what follows the name is a question mark, an equals sign or the semicolon
  obtain ⟨t, r, htail, ht⟩ : ∃ t r, c ++ d ++ [s] = t :: r ∧ namePart t.kind = false := by
    rcases hc with rfl | ⟨q, rfl, hq⟩
    · rcases hd with rfl | hd
      · exact ⟨s, [], rfl, by rw [hs]; rfl⟩
      · obtain ⟨_, ⟨u, rfl, hu⟩, y, -, rfl⟩ := Language.mem_mul.mp hd
        exact ⟨u, y ++ [s], by simp, by rw [show u.kind = .eq from hu]; rfl⟩
    · exact ⟨q, d ++ [s], by simp, by rw [show q.kind = .question from hq]; rfl⟩
  have hw : b ++ n ++ c ++ d ++ [s] = b ++ n ++ t :: r := by rw [← htail]; simp
  refine ⟨b ++ n, t, r, hw, hnames, ht, fun hopen => ?_⟩
  exact absurd hopen (hparen t (by rw [hw]; simp))

/-- The types in parentheses hold no parenthesis themselves. -/
theorem exists_of_parens (h : w ∈ parens) :
    ∃ (o : Token) (as : List Token) (c : Token), w = o :: (as ++ [c]) ∧ o.kind = .openParen
      ∧ (∀ a ∈ as, a.kind ≠ .openParen) ∧ c.kind = .closeParen := by
  obtain ⟨_, hfront, _, ⟨c, rfl, hc⟩, rfl⟩ := Language.mem_mul.mp h
  obtain ⟨_, ⟨o, rfl, ho⟩, as, has, rfl⟩ := Language.mem_mul.mp hfront
  refine ⟨o, as, c, by simp, ho, ?_, hc⟩
  exact Every.maybe (Every.pathBut (k := .openParen) rfl) as has

/-- What follows the names at the front of a method. -/
def Closes (r : List Token) : Prop :=
  ∃ (t : Token) (r' : List Token), r = t :: r' ∧ namePart t.kind = false
    ∧ (t.kind = .openParen → ∃ (as : List Token) (c : Token) (r'' : List Token),
      r' = as ++ c :: r'' ∧ (∀ a ∈ as, a.kind ≠ .openParen) ∧ c.kind = .closeParen)

/-- Parentheses close at the next one that closes. -/
theorem Closes.of_parens (h : v ∈ parens) (w : List Token) : Closes (v ++ w) := by
  obtain ⟨o, as, c, rfl, ho, has, hc⟩ := exists_of_parens h
  exact ⟨o, as ++ [c] ++ w, by simp, by rw [ho]; rfl, fun _ => ⟨as, c, w, by simp, has, hc⟩⟩

/-- The end of a method has none. -/
theorem Closes.of_methodEnd (h : w ∈ methodEnd) : Closes w := by
  rcases h with ⟨t, rfl, ht⟩ | h
  · have ht : t.kind = .semicolon := ht
    exact ⟨t, [], rfl, by rw [ht]; rfl, by simp [ht]⟩
  · obtain ⟨_, hfront, c, -, rfl⟩ := Language.mem_mul.mp h
    obtain ⟨_, ⟨t, rfl, ht⟩, m, -, rfl⟩ := Language.mem_mul.mp hfront
    have ht : t.kind = .openCurl := ht
    exact ⟨t, m ++ c, by simp, by rw [ht]; rfl, by simp [ht]⟩

/-- The output of a method and its end: parts of names and then another token. -/
theorem exists_of_output (hv : v ∈ maybe output) (hw : w ∈ methodEnd) :
    ∃ ns r : List Token, v ++ w = ns ++ r ∧ (∀ n ∈ ns, namePart n.kind = true) ∧ Closes r := by
  rcases hv with rfl | hv
  · exact ⟨[], w, rfl, by simp, .of_methodEnd hw⟩
  · obtain ⟨m, hmark, u, hu, rfl⟩ := Language.mem_mul.mp hv
    rcases hmark with hmark | ⟨a, rfl, ha⟩
    · rcases hu with hu | hu
      · exact ⟨m, u ++ w, by simp, fun t => namePart_of_word hmark, .of_parens hu w⟩
      · refine ⟨m ++ u, w, rfl, ?_, .of_methodEnd hw⟩
        exact namePart_append (fun t => namePart_of_word hmark) fun t => namePart_of_pathBut hu
    · have ha : a.kind = .arrow := ha
      exact ⟨[], [a] ++ u ++ w, rfl, by simp, a, u ++ w, by simp, by rw [ha]; rfl, by simp [ha]⟩

/-- A method begins with its keyword, its name and what it has of types without parentheses. -/
theorem leads_method (h : w ∈ method) : Leads w := by
  obtain ⟨_, houtput, d, hd, hw⟩ := Language.mem_mul.mp h
  obtain ⟨_, hinput, c, hc, rfl⟩ := Language.mem_mul.mp houtput
  obtain ⟨_, hkeyword, b, hb, rfl⟩ := Language.mem_mul.mp hinput
  obtain ⟨a, ha, n, hn, rfl⟩ := Language.mem_mul.mp hkeyword
  obtain ⟨ms, r, hout, hms, hr⟩ := exists_of_output hc hd
  have hname : ∀ t ∈ a ++ n, namePart t.kind = true :=
    namePart_append (fun t => namePart_of_word ha) fun t => namePart_of_name hn
  obtain ⟨ns, r, rfl, hns, t, r, rfl, ht, hclose⟩ :
      ∃ ns r : List Token, w = ns ++ r ∧ (∀ n ∈ ns, namePart n.kind = true) ∧ Closes r := by
    -- without an input, with one in parentheses, with a bare one
    rcases hb with rfl | hb | hb
    · refine ⟨a ++ n ++ ms, r, ?_, namePart_append hname hms, hr⟩
      rw [← hw, List.append_assoc, hout]
      simp
    · exact ⟨a ++ n, b ++ (c ++ d), by rw [← hw]; simp, hname, .of_parens hb _⟩
    · refine ⟨a ++ n ++ (b ++ ms), r, ?_, ?_, hr⟩
      · rw [← hw, List.append_assoc, hout]
        simp
      · exact namePart_append hname (namePart_append (fun t => namePart_of_pathBut hb) hms)
  exact ⟨ns, t, r, rfl, hns, ht, fun hopen => ⟨h, hclose hopen⟩⟩

/-- So do all declarations and members. -/
theorem leads_decl (h : w ∈ decl) : Leads w := by
  rcases h with (h | h) | (h | h)
  · exact leads_field h
  · exact leads_method h
  · exact leads_named h
  · exact leads_named h

/-! ## §3 What follows a sign -/

/-- What may follow the name of an annotation. -/
inductive AfterName : List Token → Prop where
  | args {o c : Token} {as r : List Token} (hopen : o.kind = .openParen) (has : as ∈ maybe args)
      (hclose : c.kind = .closeParen) : AfterName (o :: (as ++ c :: r))
  | sign {t : Token} {r : List Token} (hkind : t.kind = .semicolon ∨ t.kind = .atSign) :
      AfterName (t :: r)
  | decl {m r : List Token} (hdecl : m ∈ decl) : AfterName (m ++ r)

/-- What may follow the sign of an annotation. -/
def AfterSign (w : List Token) : Prop :=
  ∃ p r : List Token, w = p ++ r ∧ p ∈ path ∧ AfterName r

/-- Every sign is followed by the rest of an annotation and by what the annotation is for. -/
def Annotated (w : List Token) : Prop :=
  ∀ (x : List Token) (t : Token) (z : List Token), w = x ++ t :: z → t.kind = .atSign → AfterSign z

/-- What may follow a name, with more behind it. -/
theorem AfterName.append (h : AfterName v) (w : List Token) : AfterName (v ++ w) := by
  cases h with
  | args hopen has hclose =>
    rw [List.cons_append, List.append_assoc, List.cons_append]
    exact .args hopen has hclose
  | sign hkind => exact .sign hkind
  | decl hdecl =>
    rw [List.append_assoc]
    exact .decl hdecl

/-- What may follow a sign, with more behind it. -/
theorem AfterSign.append (h : AfterSign v) (w : List Token) : AfterSign (v ++ w) := by
  obtain ⟨p, r, rfl, hp, hr⟩ := h
  exact ⟨p, r ++ w, by simp, hp, hr.append w⟩

namespace Annotated

/-- Without a sign there is nothing to show. -/
theorem of_lacks (hL : Lacks .atSign L) (h : w ∈ L) : Annotated w := by
  rintro x t z rfl ht
  exact absurd ht (hL _ h t (by simp))

/-- Annotated phrases in a row: a sign in the first one is followed inside it. -/
theorem append (hv : Annotated v) (hw : Annotated w) : Annotated (v ++ w) := by
  intro x t z heq ht
  rcases List.append_eq_append_iff.mp heq with ⟨a, rfl, rfl⟩ | ⟨c, rfl, hc⟩
  · exact hw a t z rfl ht
  · cases c with
    | nil => exact hw [] t z hc.symm ht
    | cons u c =>
      obtain ⟨rfl, rfl⟩ := List.cons.inj hc
      exact (hv x t c rfl ht).append w

/-- Any number of them. -/
theorem flatten {ws : List (List Token)} (h : ∀ w ∈ ws, Annotated w) : Annotated ws.flatten := by
  induction ws with
  | nil =>
    intro x t z heq
    simp at heq
  | cons w ws ih =>
    obtain ⟨hw, hws⟩ := List.forall_mem_cons.mp h
    exact hw.append (ih hws)

/-- Repeated phrases. -/
theorem kstar (hL : ∀ w ∈ L, Annotated w) : ∀ w ∈ L∗, Annotated w := by
  intro w hw
  obtain ⟨ws, rfl, hws⟩ := Language.mem_kstar.mp hw
  exact flatten fun v hv => hL v (hws v hv)

/-- Two languages in a row. -/
theorem mul (hL : ∀ w ∈ L, Annotated w) (hM : ∀ w ∈ M, Annotated w) :
    ∀ w ∈ L * M, Annotated w := by
  intro w hw
  obtain ⟨a, ha, b, hb, rfl⟩ := Language.mem_mul.mp hw
  exact (hL a ha).append (hM b hb)

/-- Either of two languages. -/
theorem add (hL : ∀ w ∈ L, Annotated w) (hM : ∀ w ∈ M, Annotated w) :
    ∀ w ∈ L + M, Annotated w :=
  fun w hw => hw.elim (hL w) (hM w)

/-- A sign in front of what is annotated. -/
theorem cons {t : Token} (hw : Annotated w) (ht : t.kind = .atSign → AfterSign w) :
    Annotated (t :: w) := by
  intro x u z heq hu
  rcases List.cons_eq_append_iff.mp heq with ⟨rfl, hz⟩ | ⟨x, rfl, hz⟩
  · obtain ⟨rfl, rfl⟩ := List.cons.inj hz
    exact ht hu
  · exact hw x u z hz hu

end Annotated

/-- What stands in front of a declaration begins with a sign or a semicolon. -/
theorem exists_head_of_front {x : List Token} (h : x ∈ sign .semicolon + bareAnnot) :
    ∃ t r, x = t :: r ∧ (t.kind = .semicolon ∨ t.kind = .atSign) := by
  rcases h with ⟨t, rfl, ht⟩ | h
  · exact ⟨t, [], rfl, .inl ht⟩
  · obtain ⟨t, r, rfl, ht⟩ := Grammar.exists_head_of_bareAnnot h
    exact ⟨t, r, rfl, .inr ht⟩

/-- A declaration and what stands in front of it. -/
theorem annotated_front (hfront : v ∈ front) (hdecl : w ∈ decl) (hw : Annotated w) :
    Annotated (v ++ w) := by
  obtain ⟨xs, rfl, hxs⟩ := Language.mem_kstar.mp (Grammar.front_le hfront)
  clear hfront
  induction xs with
  | nil => exact hw
  | cons x xs ih =>
    obtain ⟨hx, hxs⟩ := List.forall_mem_cons.mp hxs
    have ih := ih hxs
    rw [List.flatten_cons, List.append_assoc]
    rcases hx with hsemicolon | hannot
    · exact (Annotated.of_lacks (.sign (by decide)) hsemicolon).append ih
    · obtain ⟨_, hname, q, hq, rfl⟩ := Language.mem_mul.mp hannot
      obtain ⟨_, ⟨t, rfl, ht⟩, p, hp, rfl⟩ := Language.mem_mul.mp hname
      have hp' : Annotated p := .of_lacks (.pathBut rfl) hp
      have hq' : Annotated q := by
        refine .of_lacks (.maybe ?_) hq
        exact .mul (.mul (.sign (by decide)) (.maybe (.args (by decide)))) (.sign (by decide))
      -- a name ends at its arguments, at another annotation or at the declaration
      have hafter : AfterName (q ++ (xs.flatten ++ w)) := by
        rcases hq with rfl | hq
        · cases xs with
          | nil =>
            have : AfterName (w ++ []) := .decl hdecl
            simpa using this
          | cons y ys =>
            obtain ⟨u, r, rfl, hu⟩ := exists_head_of_front (hxs y (by simp))
            exact .sign hu
        · obtain ⟨_, hopen, _, ⟨c, rfl, hc⟩, rfl⟩ := Language.mem_mul.mp hq
          obtain ⟨_, ⟨o, rfl, ho⟩, as, has, rfl⟩ := Language.mem_mul.mp hopen
          have : AfterName (o :: (as ++ c :: (xs.flatten ++ w))) := .args ho has hc
          simpa using this
      have hrest : Annotated (p ++ (q ++ (xs.flatten ++ w))) := hp'.append (hq'.append ih)
      have : Annotated (t :: (p ++ (q ++ (xs.flatten ++ w)))) :=
        hrest.cons fun _ => ⟨p, _, rfl, hp, hafter⟩
      simpa using this

/-- The body of a declaration is annotated when its members are. -/
theorem annotated_body {member : Language Token} (hdecl : member ≤ decl)
    (hmember : ∀ w ∈ member, Annotated w) : ∀ w ∈ body member, Annotated w := by
  have hsign {kind : TokenKind} (hkind : kind ≠ .atSign) : ∀ w ∈ sign kind, Annotated w :=
    fun _ => .of_lacks (.sign hkind)
  refine .mul (.mul (hsign (by decide)) (.kstar (.add (hsign (by decide)) ?_))) (hsign (by decide))
  intro w hw
  obtain ⟨v, hv, m, hm, rfl⟩ := Language.mem_mul.mp hw
  exact annotated_front hv (hdecl hm) (hmember m hm)

/-- So is the declaration itself. -/
theorem annotated_named {text : Bytes} {member : Language Token} (hdecl : member ≤ decl)
    (hmember : ∀ w ∈ member, Annotated w) : ∀ w ∈ word text * name * body member, Annotated w :=
  .mul (.mul (fun _ => .of_lacks (.word text (by decide))) fun _ => .of_lacks (.sign (by decide)))
    (annotated_body hdecl hmember)

/-- And every statement of a file. -/
theorem annotated_statement : ∀ w ∈ statement, Annotated w := by
  have hfield : ∀ w ∈ field, Annotated w := fun _ => .of_lacks (.field (by decide))
  have hmethod : ∀ w ∈ method, Annotated w := fun _ => .of_lacks .method
  refine .add (.add (.add (fun _ => .of_lacks (.sign (by decide))) fun _ => .of_lacks .version)
    fun _ => .of_lacks .setting) ?_
  intro w hw
  obtain ⟨v, hv, m, hm, rfl⟩ := Language.mem_mul.mp hw
  refine annotated_front hv (.inr hm) ?_
  rcases hm with hm | hm
  · exact annotated_named (fun _ h => .inl (.inl h)) hfield m hm
  · exact annotated_named (fun _ h => .inl (.inr h)) hmethod m hm

/-- In a file every sign is followed by the rest of an annotation and by what it is for. -/
theorem annotated_of_file {requirePackage : Bool} (h : w ∈ file requirePackage) : Annotated w := by
  have hpackage : ∀ w ∈ (if requirePackage then package else maybe package), Annotated w := by
    split
    · exact fun _ => .of_lacks .package
    · exact fun _ => .of_lacks (.maybe .package)
  exact Annotated.mul (.mul (.kstar annotated_statement) hpackage) (.kstar annotated_statement) w h

/-! ## §4 Which phrase a parenthesis belongs to -/

/-- An annotation goes over the place between some tokens and others. -/
def InAnnot (v w : List Token) : Prop :=
  ∃ x a b y : List Token, v = x ++ a ∧ w = b ++ y ∧ a ≠ [] ∧ b ≠ [] ∧ a ++ b ∈ bareAnnot

/-- The place between some tokens and others comes after the bare name of an annotation and before
the end of a method that follows the name. -/
def BehindName (v w : List Token) : Prop :=
  ∃ (x : List Token) (s : Token) (p a b y : List Token), v = x ++ s :: (p ++ a) ∧ w = b ++ y
    ∧ s.kind = .atSign ∧ p ∈ path ∧ b ≠ [] ∧ a ++ b ∈ method

/-- The tokens of an annotation behind its sign hold no other sign. -/
theorem exists_of_bareAnnot (h : w ∈ bareAnnot) :
    ∃ s r, w = s :: r ∧ s.kind = .atSign ∧ ∀ t ∈ r, t.kind ≠ .atSign := by
  obtain ⟨_, hname, q, hq, rfl⟩ := Language.mem_mul.mp h
  obtain ⟨_, ⟨s, rfl, hs⟩, p, hp, rfl⟩ := Language.mem_mul.mp hname
  refine ⟨s, p ++ q, by simp, hs, fun t ht => ?_⟩
  rcases List.mem_append.mp ht with ht | ht
  · exact Every.pathBut (k := .atSign) rfl p hp t ht
  · have hparens : Lacks .atSign (Phrase.sign .openParen * maybe args * Phrase.sign .closeParen) :=
      .mul (.mul (.sign (by decide)) (.maybe (.args (by decide)))) (.sign (by decide))
    exact hparens.maybe q hq t ht

/-- A name that does not go on ends an annotation unless a parenthesis follows. -/
theorem not_mem_bareAnnot {s n t : Token} {r : List Token} (hdot : t.kind ≠ .dot)
    (hcolons : t.kind ≠ .doubleColon) (hparen : t.kind ≠ .openParen) :
    s :: n :: t :: r ∉ bareAnnot := by
  intro h
  obtain ⟨_, hname, q, hq, heq⟩ := Language.mem_mul.mp h
  obtain ⟨_, ⟨s, rfl, -⟩, p, hp, rfl⟩ := Language.mem_mul.mp hname
  obtain ⟨_, ⟨n, rfl, -⟩, m, hm, rfl⟩ := Language.mem_mul.mp hp
  obtain ⟨ms, rfl, hms⟩ := Language.mem_kstar.mp hm
  obtain ⟨-, -, heq⟩ : s = _ ∧ n = _ ∧ ms.flatten ++ q = t :: r := by simpa using heq
  cases ms with
  -- the name has one part, so the arguments come next
  | nil =>
    rcases hq with rfl | hq
    · simp at heq
    · obtain ⟨_, hopen, c, -, rfl⟩ := Language.mem_mul.mp hq
      obtain ⟨_, ⟨o, rfl, ho⟩, as, -, rfl⟩ := Language.mem_mul.mp hopen
      obtain ⟨rfl, -⟩ : o = t ∧ _ := by simpa using heq
      exact hparen ho
  -- a separator and another part come next
  | cons x ms =>
    obtain ⟨_, hseparator, y, -, rfl⟩ := Language.mem_mul.mp (hms x (by simp))
    rcases hseparator with ⟨u, rfl, hu⟩ | ⟨u, rfl, hu⟩
    · obtain ⟨rfl, -⟩ : u = t ∧ _ := by simpa using heq
      exact hdot hu
    · obtain ⟨rfl, -⟩ : u = t ∧ _ := by simpa using heq
      exact hcolons hu

/-- No annotation goes over a place if the last one in front of it has ended. -/
theorem not_inAnnot {x r w : List Token} {s n t : Token} (hs : s.kind = .atSign)
    (hr : ∀ u ∈ n :: t :: r, u.kind ≠ .atSign) (hdot : t.kind ≠ .dot)
    (hcolons : t.kind ≠ .doubleColon) (hparen : t.kind ≠ .openParen) :
    ¬InAnnot (x ++ s :: n :: t :: r) w := by
  rintro ⟨x', a, b, y, heq, -, ha, -, hannot⟩
  obtain ⟨s', a', hcons, hs', ha'⟩ := exists_of_bareAnnot hannot
  obtain ⟨_, a, rfl⟩ := List.exists_cons_of_ne_nil ha
  obtain ⟨rfl, rfl⟩ := List.cons.inj hcons
  -- the sign of the annotation is the last one in front of the place
  rcases List.append_eq_append_iff.mp heq with ⟨z, rfl, hz⟩ | ⟨z, rfl, hz⟩
  · cases z with
    | nil =>
      obtain ⟨rfl, rfl⟩ := List.cons.inj hz
      exact not_mem_bareAnnot hdot hcolons hparen hannot
    | cons u z =>
      obtain ⟨-, hz⟩ := List.cons.inj hz
      exact hr _ (by rw [hz]; simp) hs'
  · cases z with
    | nil =>
      obtain ⟨rfl, rfl⟩ := List.cons.inj hz
      exact not_mem_bareAnnot hdot hcolons hparen hannot
    | cons u z =>
      obtain ⟨-, rfl⟩ := List.cons.inj hz
      exact ha' s (by simp) hs

/-- The first token that is no part of a name is determined. -/
theorem eq_of_names_append {ns ns' r r' : List Token} {t t' : Token}
    (heq : ns ++ t :: r = ns' ++ t' :: r') (hns : ∀ n ∈ ns, namePart n.kind = true)
    (hns' : ∀ n ∈ ns', namePart n.kind = true) (ht : namePart t.kind = false)
    (ht' : namePart t'.kind = false) : ns = ns' ∧ t = t' ∧ r = r' := by
  have hsplit {ms q : List Token} {u : Token} (hms : ∀ n ∈ ms, namePart n.kind = true)
      (hu : namePart u.kind = false) :
      (ms ++ u :: q).takeWhile (fun n => namePart n.kind) = ms := by
    rw [List.takeWhile_append_of_pos hms, List.takeWhile_cons_of_neg (by simp [hu]), List.append_nil]
  have hnames : ns = ns' := by rw [← hsplit (q := r) hns ht, heq, hsplit hns' ht']
  subst hnames
  exact ⟨rfl, List.cons.inj (List.append_cancel_left heq)⟩

/-- An annotation without arguments. -/
theorem bareAnnot_of_path {s : Token} {p : List Token} (hs : s.kind = .atSign) (hp : p ∈ path) :
    s :: p ∈ bareAnnot := by
  have : ([s] ++ p) ++ [] ∈ bareAnnot :=
    Language.append_mem_mul (Language.append_mem_mul ⟨s, rfl, hs⟩ hp) nil_mem_maybe
  simpa using this

/-- An annotation with arguments. -/
theorem bareAnnot_of_args {s o c : Token} {p as : List Token} (hs : s.kind = .atSign)
    (hp : p ∈ path) (ho : o.kind = .openParen) (has : as ∈ maybe args) (hc : c.kind = .closeParen) :
    s :: (p ++ o :: (as ++ [c])) ∈ bareAnnot := by
  have hparens : [o] ++ as ++ [c] ∈ sign .openParen * maybe args * sign .closeParen :=
    Language.append_mem_mul (Language.append_mem_mul ⟨o, rfl, ho⟩ has) ⟨c, rfl, hc⟩
  have : ([s] ++ p) ++ ([o] ++ as ++ [c]) ∈ bareAnnot :=
    Language.append_mem_mul (Language.append_mem_mul ⟨s, rfl, hs⟩ hp) (mem_maybe hparens)
  simpa using this

/-- A parenthesis behind a sign and names opens the arguments of the annotation, or it belongs to a
method behind the annotation; it is closed before another one is opened. -/
theorem exists_of_paren {x ns r : List Token} {s o : Token}
    (h : Annotated (x ++ s :: (ns ++ o :: r))) (hs : s.kind = .atSign)
    (hns : ∀ n ∈ ns, namePart n.kind = true) (ho : o.kind = .openParen) :
    (∃ (as : List Token) (c : Token) (r' : List Token), r = as ++ c :: r' ∧ ns ∈ path
      ∧ as ∈ maybe args ∧ c.kind = .closeParen)
    ∨ ∃ (p ms as : List Token) (c : Token) (q r' : List Token), ns = p ++ ms
      ∧ r = as ++ c :: (q ++ r') ∧ p ∈ path ∧ ms ++ o :: (as ++ c :: q) ∈ method
      ∧ (∀ a ∈ as, a.kind ≠ .openParen) ∧ c.kind = .closeParen := by
  have ho' : namePart o.kind = false := by rw [ho]; rfl
  obtain ⟨p, q, heq, hp, hq⟩ := h x s _ rfl hs
  have hp' : ∀ t ∈ p, namePart t.kind = true := fun t => namePart_of_pathBut hp
  cases hq with
  -- the parenthesis opens the arguments
  | @args o' c as q hopen has hclose =>
    obtain ⟨rfl, rfl, rfl⟩ := eq_of_names_append heq hns hp' ho' (by rw [hopen]; rfl)
    exact .inl ⟨as, c, q, rfl, hp, has, hclose⟩
  -- a semicolon or another sign is no parenthesis
  | @sign t q hkind =>
    have ht : namePart t.kind = false := by rcases hkind with hkind | hkind <;> rw [hkind] <;> rfl
    obtain ⟨-, rfl, -⟩ := eq_of_names_append heq hns hp' ho' ht
    rcases hkind with hkind | hkind <;> simp [ho] at hkind
  -- the name runs on into a declaration, which has to be a method
  | @decl m q hdecl =>
    obtain ⟨ms, t, k, rfl, hms, ht, hclose⟩ := leads_decl hdecl
    have heq' : ns ++ o :: r = (p ++ ms) ++ t :: (k ++ q) := by simpa using heq
    obtain ⟨rfl, rfl, rfl⟩ := eq_of_names_append heq' hns (namePart_append hp' hms) ho' ht
    obtain ⟨hmethod, as, c, k, rfl, has, hc⟩ := hclose ho
    exact .inr ⟨p, ms, as, c, k, q, rfl, by simp, hp, hmethod, has, hc⟩

/-- Words behind a parenthesis that do not close it end before it is closed. -/
theorem exists_of_unclosed {us w as r : List Token} {c : Token}
    (heq : us ++ w = as ++ c :: r) (has : ∀ a ∈ as, a.kind ≠ .openParen) (hc : c.kind = .closeParen)
    (hus : ∀ (bs : List Token) (d : Token) (ds : List Token), us = bs ++ d :: ds →
      d.kind = .closeParen → ∃ b ∈ bs, b.kind = .openParen) :
    ∃ as' : List Token, as = us ++ as' ∧ w = as' ++ c :: r := by
  rcases List.append_eq_append_iff.mp heq with ⟨as', rfl, rfl⟩ | ⟨cs, rfl, hcs⟩
  · exact ⟨as', rfl, rfl⟩
  · cases cs with
    | nil => exact ⟨[], by simp, hcs.symm⟩
    | cons d cs =>
      obtain ⟨rfl, rfl⟩ := List.cons.inj hcs
      obtain ⟨b, hb, hopen⟩ := hus as c cs rfl hc
      exact absurd hopen (has b hb)

/-- A place where a parenthesis behind a sign and names is still open. -/
theorem inAnnot_or_behindName_of_open {x ns us w : List Token} {s o : Token}
    (h : Annotated (x ++ s :: (ns ++ o :: us) ++ w)) (hs : s.kind = .atSign)
    (hns : ∀ n ∈ ns, namePart n.kind = true) (ho : o.kind = .openParen)
    (hus : ∀ (bs : List Token) (d : Token) (ds : List Token), us = bs ++ d :: ds →
      d.kind = .closeParen → ∃ b ∈ bs, b.kind = .openParen) :
    InAnnot (x ++ s :: (ns ++ o :: us)) w ∨ BehindName (x ++ s :: (ns ++ o :: us)) w := by
  have h : Annotated (x ++ s :: (ns ++ o :: (us ++ w))) := by simpa using h
  rcases exists_of_paren h hs hns ho with
    ⟨as, c, r, heq, hpath, has, hc⟩ | ⟨p, ms, as, c, q, r, rfl, heq, hp, hmethod, has, hc⟩
  · -- the arguments hold no parenthesis, so the break is inside them
    have hlacks : ∀ a ∈ as, a.kind ≠ .openParen := Every.maybe (.args (by decide)) as has
    obtain ⟨as, rfl, rfl⟩ := exists_of_unclosed heq hlacks hc hus
    refine .inl ⟨x, s :: (ns ++ o :: us), as ++ [c], r, rfl, by simp, by simp, by simp, ?_⟩
    simpa using bareAnnot_of_args hs hpath ho has hc
  · -- the break is inside the method that follows
    obtain ⟨as, rfl, rfl⟩ := exists_of_unclosed heq has hc hus
    refine .inr ⟨x, s, p, ms ++ o :: us, as ++ c :: q, r, by simp, by simp, hs, hp, by simp, ?_⟩
    simpa using hmethod

/-- A place behind a sign and names where a parenthesis follows other names. -/
theorem inAnnot_or_behindName_of_names {x ns ms r : List Token} {s o : Token}
    (h : Annotated (x ++ s :: ns ++ (ms ++ o :: r))) (hs : s.kind = .atSign)
    (hns : ∀ n ∈ ns, namePart n.kind = true) (hms : ∀ n ∈ ms, namePart n.kind = true)
    (ho : o.kind = .openParen) :
    InAnnot (x ++ s :: ns) (ms ++ o :: r) ∨ BehindName (x ++ s :: ns) (ms ++ o :: r) := by
  have h : Annotated (x ++ s :: ((ns ++ ms) ++ o :: r)) := by simpa using h
  rcases exists_of_paren h hs (namePart_append hns hms) ho with
    ⟨as, c, r, rfl, hpath, has, hc⟩ | ⟨p, ms', as, c, q, r, heq, rfl, hp, hmethod, has, hc⟩
  · refine .inl ⟨x, s :: ns, ms ++ o :: (as ++ [c]), r, rfl, by simp, by simp, by simp, ?_⟩
    simpa using bareAnnot_of_args hs hpath ho has hc
  · rcases List.append_eq_append_iff.mp heq with ⟨p', rfl, rfl⟩ | ⟨ns', rfl, rfl⟩
    · cases p' with
      | nil =>
        refine .inr ⟨x, s, ns, [], ms' ++ o :: (as ++ c :: q), r, by simp, by simp, hs, ?_, by simp,
          by simpa using hmethod⟩
        simpa using hp
      | cons t p' =>
        -- the place is within the name of the annotation
        refine .inl ⟨x, s :: ns, t :: p', ms' ++ o :: (as ++ c :: (q ++ r)), rfl, by simp, by simp,
          by simp, ?_⟩
        simpa using bareAnnot_of_path hs hp
    · refine .inr ⟨x, s, p, ns', ms ++ o :: (as ++ c :: q), r, by simp, by simp, hs, hp, by simp, ?_⟩
      simpa using hmethod

end Phrase

end Idl
